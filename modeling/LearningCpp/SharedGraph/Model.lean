import LearningCpp.Lib.Acyclic
import LearningCpp.Lib.Program
import LearningCpp.SharedPtr.Model
import LearningCpp.UniquePtr.Model

/-!
# Objects that hold shared pointers

`get_cracked/cpp/memory_and_pointers/shared_ptr.cpp` again, for one thread and
objects with `SharedPointer` fields. `delete old_ptr` then runs the destructors
of the fields, last first, each of which may delete another object; and the
member function that called `release` goes on only when all of them are done.
So a member function is run from its start to its end here. `release` calls
itself through the fields and is given fuel for that.

A handle is a place for a `SharedPointer`. It stands alone or is a field of an
object; `new` makes the fields, null, and `delete` destroys them. An object is
deleted from the start of its destructor on. Reading or writing a handle that is
gone, and locking or deleting what is not alive, have no result. Addresses are
never reused. A constructor that fills fields is a `new` followed by moves into
them.
-/

namespace LearningCpp.SharedGraph

open LearningCpp.Lib Program
open LearningCpp.SharedPtr (Life SharedPointer)
open LearningCpp.UniquePtr (Layout)

variable {H O B : Type}

structure State (H O B : Type) where
  /-- The `SharedPointer` at a place, if there is one. -/
  handle : H → Option (SharedPointer O B)
  object : O → Life
  block : B → Life
  /-- `count_` -/
  count : B → ℕ

def State.init : State H O B where
  handle := fun _ => none
  object := fun _ => .unborn
  block := fun _ => .unborn
  count := fun _ => 0

inductive Exception where
  | badAlloc
deriving DecidableEq, Repr

/-- What a member function is. -/
abbrev Run (H O B α : Type) := Program (State H O B) Exception α

def State.ptr (s : State H O B) (h : H) : Option O :=
  (s.handle h).bind SharedPointer.ptr

/-- A field of the one object points to the other. -/
def Owns (L : Layout H O) (s : State H O B) (o o' : O) : Prop :=
  ∃ h, L.home h = some o ∧ s.ptr h = some o'

section Code

variable [DecidableEq H] [DecidableEq O] [DecidableEq B]

/-! ## Memory -/

def State.setHandle (s : State H O B) (h : H)
    (p : Option (SharedPointer O B)) : State H O B :=
  { s with handle := Function.update s.handle h p }

def State.setCount (s : State H O B) (b : B) (n : ℕ) : State H O B :=
  { s with count := Function.update s.count b n }

/-- `ptr_` and `cb_` of a handle. -/
def pointers (h : H) : Run H O B (SharedPointer O B) :=
  read fun s => s.handle h

def assign (h : H) (p : SharedPointer O B) : Run H O B Unit :=
  update fun s => (s.handle h).map fun _ => s.setHandle h (some p)

/-- The members of a handle are initialized. -/
def begin_ (h : H) (p : SharedPointer O B) : Run H O B Unit :=
  update fun s =>
    match s.handle h with
    | none => some (s.setHandle h (some p))
    | some _ => none

/-- The end of a handle's lifetime. -/
def end_ (h : H) : Run H O B Unit :=
  update fun s => (s.handle h).map fun _ => s.setHandle h none

/-- `std::scoped_lock lock {cb->mutex_}` -/
def lock (cb : Option B) : Run H O B B :=
  read fun s => do
    let b ← cb
    if s.block b = .alive then some b else none

def setCount (b : B) (f : ℕ → ℕ) : Run H O B Unit :=
  update fun s => some (s.setCount b (f (s.count b)))

/-- `--cb->count_ == 0` -/
def decrement (b : B) : Run H O B Bool := do
  setCount b (· - 1)
  read fun s => some (decide (s.count b = 0))

/-- `new ControlBlock {1}`, if it returns `b`. -/
def newBlock (b : B) : Run H O B Unit :=
  update fun s =>
    if s.block b = .unborn then
      some { s.setCount b 1 with
        block := Function.update s.block b .alive }
    else none

/-- `delete cb` -/
def deleteBlock (b : B) : Run H O B Unit :=
  update fun s =>
    if s.block b = .alive then
      some { s with block := Function.update s.block b .deleted }
    else none

variable (L : Layout H O)

/-- `new T`, for a raw pointer that is not null. -/
def newObject : Option O → Run H O B Unit
  | none => pure ()
  | some o =>
    update fun s =>
      if s.object o = .unborn then
        some { s with
          object := Function.update s.object o .alive
          handle := fun h =>
            if L.home h = some o then some .null else s.handle h }
      else none

/-- `~T()` begins. -/
def endObject (o : O) : Run H O B Unit :=
  update fun s =>
    if s.object o = .alive then
      some { s with object := Function.update s.object o .deleted }
    else none

def destroyAll (destructor : H → Run H O B Unit) : List H → Run H O B Unit
  | [] => pure ()
  | h :: l => do
    destructor h
    destroyAll destructor l

/-- `delete pointer`, with what `~SharedPointer()` does. -/
def deleteObject (destructor : H → Run H O B Unit) (o : O) :
    Run H O B Unit := do
  endObject o
  destroyAll destructor (L.fields o).reverse

/-! ## The class -/

def release : ℕ → H → Run H O B Unit
  | 0, _ => undefined
  | fuel + 1, h => do
    let old ← pointers h
    assign h .null
    match old.ptr with
    | none => pure ()
    | some oldPtr => do
      let oldCb ← lock old.cb
      let free ← decrement oldCb
      if free then do
        deleteObject L (fun field => do
          release fuel field
          end_ field) oldPtr
        deleteBlock oldCb
      else pure ()

/-- `~SharedPointer()` -/
def destructor (fuel : ℕ) (h : H) : Run H O B Unit := do
  release L fuel h
  end_ h

def copyAndIncrement (h other : H) : Run H O B Unit := do
  let p ← pointers other
  assign h p
  match p.cb with
  | none => pure ()
  | some _ => do
    let b ← lock p.cb
    setCount b (· + 1)

def steal (h other : H) : Run H O B Unit := do
  let p ← pointers other
  assign other .null
  assign h p

/-- The two `std::swap`. -/
def swap (h other : H) : Run H O B Unit := do
  let p ← pointers h
  let p' ← pointers other
  assign h p'
  assign other p

/-- `SharedPointer()` -/
def defaultConstructor (h : H) : Run H O B Unit := begin_ h .null

/-- `SharedPointer(T* pointer)`. The allocation returns `block` or throws. -/
def fromPointer (fuel : ℕ) (h : H) (pointer : Option O) (block : Option B) :
    Run H O B Unit := do
  begin_ h ⟨pointer, none⟩
  match block with
  | some b => do
    newBlock b
    assign h ⟨pointer, some b⟩
  | none => do
    match pointer with
    | none => pure ()
    | some o => deleteObject L (destructor L fuel) o
    end_ h
    throw .badAlloc

/-- `SharedPointer(const SharedPointer& other)` -/
def copyConstructor (h other : H) : Run H O B Unit := do
  begin_ h .null
  copyAndIncrement h other

/-- `SharedPointer(SharedPointer&& other)` -/
def moveConstructor (h other : H) : Run H O B Unit := do
  begin_ h .null
  steal h other

/-- `operator=(const SharedPointer& other)` -/
def copyAssign (fuel : ℕ) (h other tmp : H) : Run H O B Unit :=
  if h = other then pure ()
  else do
    copyConstructor tmp other
    swap h tmp
    destructor L fuel tmp

/-- `operator=(SharedPointer&& other)` -/
def moveAssign (fuel : ℕ) (h other : H) : Run H O B Unit :=
  if h = other then pure ()
  else do
    release L fuel h
    steal h other

/-- `tmp = SharedPointer(pointer)`, with the temporary `arg`. -/
def assignPointer (fuel : ℕ) (tmp arg : H) (pointer : Option O)
    (block : Option B) : Run H O B Unit := do
  fromPointer L fuel arg pointer block
  moveAssign L fuel tmp arg
  destructor L fuel arg

def reset (fuel : ℕ) (h : H) (pointer : Option O) (block : Option B)
    (tmp arg : H) : Run H O B Unit := do
  defaultConstructor tmp
  match pointer with
  | none => pure ()
  | some o =>
    rethrow (assignPointer L fuel tmp arg (some o) block)
      (destructor L fuel tmp)
  swap h tmp
  destructor L fuel tmp

end Code

/-! ## Uses of the class -/

/-- A use of the class. The handles `tmp` and `arg` are the locals, `block` is
what the allocation returns. -/
inductive Op (H O B : Type) where
  | construct (h : H)
  | fromPointer (h : H) (pointer : Option O) (block : Option B)
  | copyConstruct (h other : H)
  | moveConstruct (h other : H)
  | copyAssign (h other tmp : H)
  | moveAssign (h other : H)
  | reset (h : H) (pointer : Option O) (block : Option B) (tmp arg : H)
  | destroy (h : H)
deriving DecidableEq, Repr

/-- The handles an operation works on. -/
def Op.existing : Op H O B → List H
  | .construct _ => []
  | .fromPointer _ _ _ => []
  | .copyConstruct _ other => [other]
  | .moveConstruct _ other => [other]
  | .copyAssign h other _ => [h, other]
  | .moveAssign h other => [h, other]
  | .reset h _ _ _ _ => [h]
  | .destroy h => [h]

/-- The places where it makes handles. -/
def Op.fresh : Op H O B → List H
  | .construct h => [h]
  | .fromPointer h _ _ => [h]
  | .copyConstruct h _ => [h]
  | .moveConstruct h _ => [h]
  | .copyAssign _ _ tmp => [tmp]
  | .moveAssign _ _ => []
  | .reset _ _ _ tmp arg => [tmp, arg]
  | .destroy _ => []

section Machine

variable [DecidableEq H] [DecidableEq O] [DecidableEq B] (L : Layout H O)

/-- A raw pointer that is passed is null or what `new T` returned. -/
def exec (fuel : ℕ) : Op H O B → Run H O B Unit
  | .construct h => defaultConstructor h
  | .fromPointer h pointer block => do
    newObject L pointer
    SharedGraph.fromPointer L fuel h pointer block
  | .copyConstruct h other => copyConstructor h other
  | .moveConstruct h other => moveConstructor h other
  | .copyAssign h other tmp => SharedGraph.copyAssign L fuel h other tmp
  | .moveAssign h other => SharedGraph.moveAssign L fuel h other
  | .reset h pointer block tmp arg => do
    newObject L pointer
    SharedGraph.reset L fuel h pointer block tmp arg
  | .destroy h => destructor L fuel h

/-- What a caller sees to: the handles are there, the places are free and no
fields, and a handle that is a field is not destroyed by hand. -/
structure Allowed (s : State H O B) (op : Op H O B) : Prop where
  existing : ∀ h ∈ op.existing, s.handle h ≠ none
  fresh : ∀ h ∈ op.fresh, s.handle h = none ∧ L.home h = none
  nodup : op.fresh.Nodup
  destroy : ∀ h, op = .destroy h → L.home h = none

/-- An operation, from its start to its end, with enough fuel. -/
def Step (s s' : State H O B) : Prop :=
  ∃ op r n, Allowed L s op ∧
    ∀ fuel, n ≤ fuel → exec L fuel op s = some (r, s')

/-- The states a sequence of operations reaches. -/
def Reachable : State H O B → Prop := Relation.ReflTransGen (Step L) .init

end Machine

end LearningCpp.SharedGraph
