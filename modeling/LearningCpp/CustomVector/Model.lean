import LearningCpp.Lib.Program

/-!
# `custom::vector`

`get_cracked/coding/vector.cpp` over a memory of storage blocks. A block is what
one `::operator new` returned, with a slot for each element it has room for; a
pointer is null or a slot of a block. Reading or destroying what is not there,
constructing over an element, arithmetic that leaves the block, and deleting
what is not a block have no result.

`std::size_t` arithmetic wraps, and `::operator new` may refuse any request; it
refuses those that `std::ptrdiff_t` cannot measure. Which of the fallible calls
fail is given from outside, by the number of the call. The address of a block
is never used again.
-/

namespace LearningCpp.CustomVector

open LearningCpp.Lib

/-- An element's place. -/
structure Address where
  block : ℕ
  slot : ℕ
deriving DecidableEq, Repr

/-- `nullptr` is `none`. -/
abbrev Pointer := Option Address

/-- Storage for `size` elements. A slot without an element is raw. -/
structure Block (α : Type) where
  size : ℕ
  slot : ℕ → Option α

/-- The three members of a vector. -/
structure Members where
  first : Pointer
  last : Pointer
  end_ : Pointer
deriving DecidableEq, Repr

/-- The default member initializers, and what `steal_from` leaves behind. -/
def Members.null : Members := ⟨none, none, none⟩

/-- The exceptions, those of the class with their texts. -/
inductive Exception where
  | outOfRange (what : String)
  | badAlloc
  /-- Thrown by a copy constructor of `Element`. -/
  | element
deriving DecidableEq, Repr

structure State (V α : Type) where
  /-- The vectors there are. -/
  vector : V → Option Members
  block : ℕ → Option (Block α)
  /-- The next block has this number. -/
  next : ℕ
  /-- The calls of `::operator new` so far. -/
  allocations : ℕ
  /-- The calls of the copy constructor so far. -/
  copies : ℕ
  /-- The elements constructed so far, and those destroyed. -/
  constructed : ℕ
  destroyed : ℕ

def State.init {V α : Type} : State V α where
  vector := fun _ => none
  block := fun _ => none
  next := 0
  allocations := 0
  copies := 0
  constructed := 0
  destroyed := 0

/-- `PTRDIFF_MAX`. -/
def maxObject : ℕ := 2 ^ 63 - 1

/-- A value computed in `std::size_t`. -/
def sizeT (n : ℕ) : ℕ := n % 2 ^ 64

/-- The element type and the calls that fail. -/
structure Env (α : Type) where
  sizeof : ℕ
  sizeof_pos : 0 < sizeof
  sizeof_le : sizeof ≤ maxObject
  /-- `std::is_nothrow_move_constructible_v<Element>` -/
  nothrowMove : Bool
  /-- What a move leaves of an element. -/
  movedFrom : α → α
  copyThrows : ℕ → Bool
  newThrows : ℕ → ℕ → Bool
  newThrows_large : ∀ k bytes, maxObject < bytes → newThrows k bytes = true

/-- What an operation of the class is. -/
abbrev Run (V α β : Type) := Program (State V α) Exception β

open Program

variable {V α : Type}

/-! ## Memory -/

/-- What a `const Element&` may refer to. -/
inductive Ref (α : Type) where
  | outside (x : α)
  | slot (p : Pointer)

def load (p : Pointer) : Run V α α :=
  read fun s => do
    let a ← p
    let blk ← s.block a.block
    blk.slot a.slot

def deref : Ref α → Run V α α
  | .outside x => pure x
  | .slot p => load p

/-- `blk` with one slot changed. -/
def Block.set (blk : Block α) (i : ℕ) (x : Option α) : Block α :=
  { blk with slot := Function.update blk.slot i x }

def State.setBlock (s : State V α) (b : ℕ) (blk : Option (Block α)) :
    State V α :=
  { s with block := Function.update s.block b blk }

/-- `std::construct_at`, with the value of the new element. -/
def constructAt (p : Pointer) (x : α) : Run V α Unit :=
  update fun s => do
    let a ← p
    let blk ← s.block a.block
    if a.slot < blk.size ∧ (blk.slot a.slot).isNone then
      some { s.setBlock a.block (some (blk.set a.slot (some x))) with
        constructed := s.constructed + 1 }
    else none

/-- `std::destroy_at` -/
def destroyAt (p : Pointer) : Run V α Unit :=
  update fun s => do
    let a ← p
    let blk ← s.block a.block
    if (blk.slot a.slot).isSome then
      some { s.setBlock a.block (some (blk.set a.slot none)) with
        destroyed := s.destroyed + 1 }
    else none

/-- What the source of a move is left with. -/
def moveOut (env : Env α) (p : Pointer) : Run V α Unit :=
  update fun s => do
    let a ← p
    let blk ← s.block a.block
    let x ← blk.slot a.slot
    some (s.setBlock a.block (some (blk.set a.slot (some (env.movedFrom x)))))

/-- The call of the copy constructor, for its value. -/
def copyOf (env : Env α) (element : Ref α) : Run V α α := do
  let x ← deref element
  fun s =>
    if env.copyThrows s.copies then
      some (.error .element, { s with copies := s.copies + 1 })
    else some (.ok x, { s with copies := s.copies + 1 })

def constructCopy (env : Env α) (p : Pointer) (element : Ref α) :
    Run V α Unit := do
  let x ← copyOf env element
  constructAt p x

/-- `std::construct_at(p, std::move_if_noexcept(*source))` -/
def constructMoved (env : Env α) (p source : Pointer) : Run V α Unit :=
  if env.nothrowMove then do
    let x ← load source
    constructAt p x
    moveOut env source
  else constructCopy env p (.slot source)

/-- `Element copy {element};` -/
def localCopy (env : Env α) (element : Ref α) : Run V α α := do
  let x ← copyOf env element
  update fun s => some { s with constructed := s.constructed + 1 }
  pure x

/-- `std::construct_at(p, std::move_if_noexcept(copy))`, of a local. -/
def constructLocal (env : Env α) (p : Pointer) (copy : α) : Run V α Unit :=
  if env.nothrowMove then constructAt p copy
  else constructCopy env p (.outside copy)

/-- A local goes out of scope. -/
def destroyLocal : Run V α Unit :=
  update fun s => some { s with destroyed := s.destroyed + 1 }

/-- `p + n` -/
def advance (p : Pointer) (n : ℕ) : Run V α Pointer :=
  read fun s =>
    match p with
    | none => if n = 0 then some none else none
    | some a => do
      let blk ← s.block a.block
      if a.slot + n ≤ blk.size then some (some ⟨a.block, a.slot + n⟩) else none

/-- `p - 1` -/
def retreat (p : Pointer) : Run V α Pointer :=
  read fun s => do
    let a ← p
    let _ ← s.block a.block
    if 0 < a.slot then some (some ⟨a.block, a.slot - 1⟩) else none

/-- `q - p` -/
def distance (p q : Pointer) : Run V α ℕ :=
  read fun s =>
    match p, q with
    | none, none => some 0
    | some a, some b => do
      let _ ← s.block a.block
      if a.block = b.block ∧ a.slot ≤ b.slot then some (b.slot - a.slot)
      else none
    | _, _ => none

/-- `::operator new(bytes)`, for elements. -/
def operatorNew (env : Env α) (bytes : ℕ) : Run V α Pointer := fun s =>
  if env.newThrows s.allocations bytes then
    some (.error .badAlloc, { s with allocations := s.allocations + 1 })
  else
    some (.ok (some ⟨s.next, 0⟩),
      { s.setBlock s.next (some ⟨bytes / env.sizeof, fun _ => none⟩) with
        next := s.next + 1
        allocations := s.allocations + 1 })

/-- `::operator delete(p)` -/
def operatorDelete (p : Pointer) : Run V α Unit :=
  update fun s =>
    match p with
    | none => some s
    | some a =>
      if a.slot = 0 ∧ (s.block a.block).isSome then some (s.setBlock a.block none)
      else none

/-! ## The class -/

section Class

variable [DecidableEq V]

def members (v : V) : Run V α Members := read fun s => s.vector v

def State.setVector (s : State V α) (v : V) (m : Option Members) :
    State V α :=
  { s with vector := Function.update s.vector v m }

def setMembers (v : V) (m : Members) : Run V α Unit :=
  update fun s => some (s.setVector v (some m))

def initialized (v : V) : Run V α Bool := do
  let m ← members v
  pure m.first.isSome

def getSize (v : V) : Run V α ℕ := do
  if !(← initialized v) then pure 0
  else do
    let m ← members v
    distance m.first m.last

def getCapacity (v : V) : Run V α ℕ := do
  if !(← initialized v) then pure 0
  else do
    let m ← members v
    distance m.first m.end_

/-- `first[index]`, as a reference. -/
def at_ (v : V) (index : ℕ) : Run V α Pointer := do
  if (← getSize v) ≤ index then throw (.outOfRange "Index out of range")
  else do
    let m ← members v
    advance m.first index

def popBack (v : V) : Run V α Unit := do
  if (← getSize v) = 0 then throw (.outOfRange "No elements added")
  else do
    let m ← members v
    let last ← retreat m.last
    setMembers v { m with last := last }
    destroyAt last

/-- `while (get_size()) pop_back();` The loop is given one round for each
element and one to stop. -/
def clearLoop (v : V) : ℕ → Run V α Unit
  | 0 => undefined
  | rounds + 1 => do
    if (← getSize v) = 0 then pure ()
    else do
      popBack v
      clearLoop v rounds

def clear (v : V) : Run V α Unit := do
  clearLoop v ((← getSize v) + 1)

/-- The `try` of `reserve`. -/
def relocate (env : Env α) (v : V) (size : ℕ) (newFirst : Pointer) :
    Run V α Unit := do
  forUpto size fun i => do
    let m ← members v
    constructMoved env (← advance newFirst i) (← advance m.first i)
  forUpto size fun i => do
    let m ← members v
    destroyAt (← advance m.first i)

def reserve (env : Env α) (v : V) (newCapacity : ℕ) : Run V α Unit := do
  if newCapacity ≤ (← getCapacity v) then pure ()
  else do
    let size ← getSize v
    let newFirst ← operatorNew env (sizeT (env.sizeof * newCapacity))
    let newLast ← advance newFirst size
    let newEnd ← advance newFirst newCapacity
    rethrow (relocate env v size newFirst) (operatorDelete newFirst)
    let old ← members v
    setMembers v ⟨newFirst, newLast, newEnd⟩
    operatorDelete old.first

/-- `push_back` in a vector without room. -/
def growAndConstruct (env : Env α) (v : V) (copy : α) : Run V α Unit := do
  let capacity ← getCapacity v
  reserve env v (if capacity = 0 then 1 else sizeT (capacity * 2))
  let m ← members v
  constructLocal env m.last copy

/-- `push_back` up to `++last`. -/
def constructBack (env : Env α) (v : V) (element : Ref α) :
    Run V α Unit := do
  let m ← members v
  if m.last = m.end_ then do
    let copy ← localCopy env element
    ensuring (growAndConstruct env v copy) destroyLocal
  else constructCopy env m.last element

def pushBack (env : Env α) (v : V) (element : Ref α) : Run V α Unit := do
  constructBack env v element
  let m ← members v
  setMembers v { m with last := ← advance m.last 1 }

/-- The `try` of `copy_from`. The sizes the loops test do not change while
they run. -/
def refill (env : Env α) (v other : V) (newFirst : Pointer) :
    Run V α Unit := do
  forUpto (← getSize v) fun i => do
    let m ← members v
    destroyAt (← advance m.first i)
  forUpto (← getSize other) fun i => do
    constructCopy env (← advance newFirst i) (.slot (← at_ other i))

def copyFrom (env : Env α) (v other : V) : Run V α Unit := do
  let newFirst ← operatorNew env (sizeT (env.sizeof * (← getSize other)))
  let newLast ← advance newFirst (← getSize other)
  let newEnd ← advance newFirst (← getSize other)
  rethrow (refill env v other newFirst) (operatorDelete newFirst)
  setMembers v ⟨newFirst, newLast, newEnd⟩

def stealFrom (v other : V) : Run V α Unit := do
  setMembers v (← members other)
  setMembers other .null

/-- `operator=(const vector&)` -/
def copyAssign (env : Env α) (v other : V) : Run V α Unit := do
  if v = other then pure ()
  else if !(← initialized v) then pure ()
  else copyFrom env v other

/-- `operator=(vector&&)` -/
def moveAssign (v other : V) : Run V α Unit := do
  if v = other then pure ()
  else if !(← initialized v) then pure ()
  else do
    clear v
    operatorDelete (← members v).first
    stealFrom v other

/-- `~vector()` -/
def destructor (v : V) : Run V α Unit := do
  if !(← initialized v) then pure ()
  else do
    clear v
    operatorDelete (← members v).first

/-! ## Uses of the class -/

/-- The object's lifetime ends. -/
def vanish (v : V) : Run V α Unit :=
  update fun s => (s.vector v).map fun _ => s.setVector v none

/-- A constructor: the members, its body, and no object if that throws. -/
def constructing (v : V) (body : Run V α Unit) : Run V α Unit := do
  update fun s =>
    match s.vector v with
    | none => some (s.setVector v (some .null))
    | some _ => none
  rethrow body (vanish v)

/-- `vector()` -/
def defaultConstructor (env : Env α) (v : V) : Run V α Unit := do
  let first ← operatorNew env env.sizeof
  let end_ ← advance first 1
  setMembers v ⟨first, first, end_⟩

inductive Op (V α : Type) where
  | construct (v : V)
  | copyConstruct (v other : V)
  | moveConstruct (v other : V)
  | copyAssign (v other : V)
  | moveAssign (v other : V)
  | pushBack (v : V) (x : α)
  /-- `v.push_back(other.at(index))` -/
  | pushBackAt (v other : V) (index : ℕ)
  | popBack (v : V)
  | clear (v : V)
  | reserve (v : V) (newCapacity : ℕ)
  | at_ (v : V) (index : ℕ)
  | getSize (v : V)
  | getCapacity (v : V)
  | destroy (v : V)
deriving DecidableEq, Repr

/-- What an operation returns. -/
inductive Value (α : Type) where
  | unit
  | number (n : ℕ)
  | element (x : α)
deriving DecidableEq, Repr

def returning (c : Run V α Unit) : Run V α (Value α) := do
  c
  pure .unit

def exec (env : Env α) : Op V α → Run V α (Value α)
  | .construct v => returning (constructing v (defaultConstructor env v))
  | .copyConstruct v other => returning (constructing v (copyFrom env v other))
  | .moveConstruct v other => returning (constructing v (stealFrom v other))
  | .copyAssign v other => returning (CustomVector.copyAssign env v other)
  | .moveAssign v other => returning (CustomVector.moveAssign v other)
  | .pushBack v x => returning (CustomVector.pushBack env v (.outside x))
  | .pushBackAt v other index => returning do
    CustomVector.pushBack env v (.slot (← CustomVector.at_ other index))
  | .popBack v => returning (CustomVector.popBack v)
  | .clear v => returning (CustomVector.clear v)
  | .reserve v newCapacity =>
    returning (CustomVector.reserve env v newCapacity)
  | .at_ v index => do
    pure (.element (← load (← CustomVector.at_ v index)))
  | .getSize v => do pure (.number (← CustomVector.getSize v))
  | .getCapacity v => do pure (.number (← CustomVector.getCapacity v))
  | .destroy v => returning do
    destructor v
    vanish v

end Class

end LearningCpp.CustomVector
