import Mathlib

/-!
# Shared pointers of several threads

`get_cracked/cpp/memory_and_pointers/shared_ptr.cpp`, as the steps its member
functions take. A thread is inside one member function at a time; what it has
still to do there is a list of calls to the private functions `release`,
`copy_and_increment` and `steal`, and where it is inside one of those is a
frame. The locked increment, the locked decrement and the two deletions after
it are steps of their own, and any other thread may move between them. What a
thread does to its own handles only, between two such steps, is one step.

Addresses are never reused: a handle is a place where a `SharedPointer` can be
made, an object is what one `new T` returned, a block what one
`new ControlBlock` did. `count_` is a number that does not wrap. Locking,
reading or deleting what is not alive is undefined in the code, and here it is
a step that has no result.
-/

namespace LearningCpp.SharedPtr

variable {τ H O B : Type*}

/-- What became of an address. -/
inductive Life where
  | unborn
  | alive
  | deleted
deriving DecidableEq, Repr

/-- The two pointers of a `SharedPointer`. -/
structure SharedPointer (O B : Type*) where
  ptr : Option O
  cb : Option B
deriving DecidableEq, Repr

/-- `ptr_ {nullptr}`, `cb_ {nullptr}`. -/
def SharedPointer.null : SharedPointer O B := ⟨none, none⟩

/-- What a member function does, in order. -/
inductive Call (H O : Type*) where
  /-- The default member initializers. -/
  | construct (h : H)
  /-- `SharedPointer(T* pointer)`. The handle in `unwind` is the local of the
  caller, which the exception destroys if the allocation fails. -/
  | adopt (h : H) (pointer : Option O) (unwind : Option H)
  | copyAndIncrement (h other : H)
  | release (h : H)
  | steal (h other : H)
  /-- The two `std::swap`. -/
  | swap (h other : H)
  /-- The end of a handle's lifetime. -/
  | destruct (h : H)
  | getCount (h : H)
deriving DecidableEq, Repr

/-- Where a thread is inside a call. -/
inductive Frame (H O B : Type*) where
  | idle
  /-- In the constructor, before `new ControlBlock {1}`. -/
  | allocating (h : H) (unwind : Option H)
  /-- In `copy_and_increment`, the pointers copied, before the lock. -/
  | incrementing (h other : H)
  /-- In `release`, the handle nulled, before the lock. -/
  | decrementing (oldPtr : O) (oldCb : Option B)
  /-- In `release`, `free` being true, before `delete old_ptr`. -/
  | deletingObject (oldPtr : O) (oldCb : Option B)
  /-- In `release`, before `delete old_cb`. -/
  | deletingBlock (oldCb : Option B)
deriving DecidableEq, Repr

structure Thread (H O B : Type*) where
  frame : Frame H O B
  code : List (Call H O)
  /-- What the last `get_count` returned. -/
  count : Nat

structure State (τ H O B : Type*) where
  /-- The `SharedPointer` at a place, if there is one. -/
  handle : H → Option (SharedPointer O B)
  /-- `count_`. -/
  count : B → Nat
  block : B → Life
  object : O → Life
  thread : τ → Thread H O B

/-- Nothing has been made yet. -/
def State.init : State τ H O B where
  handle := fun _ => none
  count := fun _ => 0
  block := fun _ => .unborn
  object := fun _ => .unborn
  thread := fun _ => ⟨.idle, [], 0⟩

def State.ptr (s : State τ H O B) (h : H) : Option O :=
  (s.handle h).bind SharedPointer.ptr

def State.cb (s : State τ H O B) (h : H) : Option B :=
  (s.handle h).bind SharedPointer.cb

section Steps

variable [DecidableEq τ] [DecidableEq H] [DecidableEq O] [DecidableEq B]

def State.setHandle (s : State τ H O B) (h : H)
    (p : Option (SharedPointer O B)) : State τ H O B :=
  { s with handle := Function.update s.handle h p }

/-- Moves a thread on to a frame and to the calls that are left. -/
def State.goto (s : State τ H O B) (t : τ) (frame : Frame H O B)
    (code : List (Call H O)) : State τ H O B :=
  { s with
    thread := Function.update s.thread t
      { s.thread t with frame := frame, code := code } }

/-- `get_count`, of a live handle. -/
def State.getCount (s : State τ H O B) (p : SharedPointer O B) : Option Nat :=
  match p.cb with
  | none => some 0
  | some b => if s.block b = .alive then some (s.count b) else none

/-- Begins a call, and finishes it if it has no step of its own. -/
def State.call (s : State τ H O B) (t : τ) (c : Call H O)
    (rest : List (Call H O)) : Option (State τ H O B) :=
  match c with
  | .construct h =>
    match s.handle h with
    | none => some ((s.setHandle h (some .null)).goto t .idle rest)
    | some _ => none
  | .adopt h pointer unwind =>
    match s.handle h with
    | none =>
      some ((s.setHandle h (some ⟨pointer, none⟩)).goto t
        (.allocating h unwind) rest)
    | some _ => none
  | .copyAndIncrement h other =>
    match s.handle h, s.handle other with
    | some _, some p =>
      some ((s.setHandle h (some p)).goto t
        (if p.cb = none then .idle else .incrementing h other) rest)
    | _, _ => none
  | .release h =>
    match s.handle h with
    | some p =>
      some ((s.setHandle h (some .null)).goto t
        (match p.ptr with
        | none => .idle
        | some oldPtr => .decrementing oldPtr p.cb) rest)
    | none => none
  | .steal h other =>
    match s.handle h, s.handle other with
    | some _, some p =>
      some (((s.setHandle h (some p)).setHandle other (some .null)).goto t
        .idle rest)
    | _, _ => none
  | .swap h other =>
    match s.handle h, s.handle other with
    | some p, some p' =>
      some (((s.setHandle h (some p')).setHandle other (some p)).goto t .idle
        rest)
    | _, _ => none
  | .destruct h =>
    match s.handle h with
    | some _ => some ((s.setHandle h none).goto t .idle rest)
    | none => none
  | .getCount h =>
    match s.handle h with
    | some p =>
      match s.getCount p with
      | some n =>
        some { s with
          thread := Function.update s.thread t ⟨.idle, rest, n⟩ }
      | none => none
    | none => none

/-- `~SharedPointer()`. -/
def destructor (h : H) : List (Call H O) := [.release h, .destruct h]

/-- `delete pointer`, where the pointer is an object's. -/
def State.deleteObject (s : State τ H O B) (p : O) :
    Option (State τ H O B) :=
  if s.object p = .alive then
    some { s with object := Function.update s.object p .deleted }
  else none

/-- The next step inside a frame. In the constructor it is the one where the
allocation fails: `delete ptr_`, no handle, and the caller's locals go. -/
def State.resume (s : State τ H O B) (t : τ) : Option (State τ H O B) :=
  let rest := (s.thread t).code
  match (s.thread t).frame with
  | .idle => none
  | .allocating h unwind =>
    let code := unwind.elim [] destructor
    match s.handle h with
    | some p =>
      match p.ptr with
      | none => some ((s.setHandle h none).goto t .idle code)
      | some pointer =>
        (s.deleteObject pointer).map
          (fun s => (s.setHandle h none).goto t .idle code)
    | none => none
  | .incrementing h _ =>
    match s.cb h with
    | some b =>
      if s.block b = .alive then
        some (State.goto
          { s with count := Function.update s.count b (s.count b + 1) } t .idle
          rest)
      else none
    | none => none
  | .decrementing oldPtr oldCb =>
    match oldCb with
    | some b =>
      if s.block b = .alive then
        some (State.goto
          { s with count := Function.update s.count b (s.count b - 1) } t
          (if s.count b - 1 = 0 then .deletingObject oldPtr oldCb else .idle)
          rest)
      else none
    | none => none
  | .deletingObject oldPtr oldCb =>
    (s.deleteObject oldPtr).map (fun s => s.goto t (.deletingBlock oldCb) rest)
  | .deletingBlock oldCb =>
    match oldCb with
    | some b =>
      if s.block b = .alive then
        some (State.goto
          { s with block := Function.update s.block b .deleted } t .idle rest)
      else none
    | none => some (s.goto t .idle rest)

/-- `cb_ = new ControlBlock {1}`, when it returns the block `b`. -/
def State.alloc (s : State τ H O B) (t : τ) (h : H) (b : B) : State τ H O B :=
  State.goto
    { s with
      handle := Function.update s.handle h
        ((s.handle h).map (fun p => { p with cb := some b }))
      count := Function.update s.count b 1
      block := Function.update s.block b .alive }
    t .idle (s.thread t).code

end Steps

/-! ## The member functions -/

/-- A use of the class. The handles `tmp` and `arg` are the temporaries. -/
inductive Op (H O : Type*) where
  | construct (h : H)
  | fromPointer (h : H) (pointer : Option O)
  | copy (h other : H)
  | move (h other : H)
  | copyAssign (h other tmp : H)
  | moveAssign (h other : H)
  | reset (h : H) (pointer : Option O) (tmp arg : H)
  | destroy (h : H)
  | getCount (h : H)
deriving DecidableEq, Repr

/-- The handles an operation works on. -/
def Op.existing : Op H O → List H
  | .construct _ => []
  | .fromPointer _ _ => []
  | .copy _ other => [other]
  | .move _ other => [other]
  | .copyAssign h other _ => [h, other]
  | .moveAssign h other => [h, other]
  | .reset h _ _ _ => [h]
  | .destroy h => [h]
  | .getCount h => [h]

/-- The places where it makes handles. -/
def Op.fresh : Op H O → List H
  | .construct h => [h]
  | .fromPointer h _ => [h]
  | .copy h _ => [h]
  | .move h _ => [h]
  | .copyAssign _ _ tmp => [tmp]
  | .moveAssign _ _ => []
  | .reset _ _ tmp arg => [tmp, arg]
  | .destroy _ => []
  | .getCount _ => []

/-- The raw pointer it is given. -/
def Op.pointer : Op H O → Option O
  | .fromPointer _ pointer => pointer
  | .reset _ pointer _ _ => pointer
  | _ => none

def Op.code [DecidableEq H] : Op H O → List (Call H O)
  | .construct h => [.construct h]
  | .fromPointer h pointer => [.adopt h pointer none]
  | .copy h other => [.construct h, .copyAndIncrement h other]
  | .move h other => [.construct h, .steal h other]
  | .copyAssign h other tmp =>
    if h = other then []
    else
      [.construct tmp, .copyAndIncrement tmp other, .swap h tmp] ++
        destructor tmp
  | .moveAssign h other =>
    if h = other then [] else [.release h, .steal h other]
  | .reset h none tmp _ =>
    [.construct tmp, .swap h tmp] ++ destructor tmp
  | .reset h (some pointer) tmp arg =>
    [.construct tmp, .adopt arg (some pointer) (some tmp), .release tmp,
      .steal tmp arg] ++ destructor arg ++ [.swap h tmp] ++ destructor tmp
  | .destroy h => destructor h
  | .getCount h => [.getCount h]

/-- The handles a call changes. -/
def Call.writes : Call H O → List H
  | .construct h => [h]
  | .adopt h _ unwind => h :: unwind.toList
  | .copyAndIncrement h _ => [h]
  | .release h => [h]
  | .steal h other => [h, other]
  | .swap h other => [h, other]
  | .destruct h => [h]
  | .getCount _ => []

/-- The handles it only reads. -/
def Call.reads : Call H O → List H
  | .copyAndIncrement _ other => [other]
  | .getCount h => [h]
  | _ => []

def Frame.writes : Frame H O B → List H
  | .allocating h unwind => h :: unwind.toList
  | .incrementing h _ => [h]
  | _ => []

def Frame.reads : Frame H O B → List H
  | .incrementing _ other => [other]
  | _ => []

/-- The handles a thread may still change. -/
def Thread.writes (th : Thread H O B) : List H :=
  th.frame.writes ++ th.code.flatMap Call.writes

/-- The handles it may still read. The source of a copy is one of them until
the count went up. -/
def Thread.reads (th : Thread H O B) : List H :=
  th.frame.reads ++ th.code.flatMap Call.reads

def Thread.Idle (th : Thread H O B) : Prop :=
  th.frame = .idle ∧ th.code = []

section Machine

variable [DecidableEq τ] [DecidableEq H] [DecidableEq O] [DecidableEq B]

/-- A thread may use the class if it is not already inside it, the handles it
names are there, the pointer is fresh from `new`, and nobody uses what it is
going to change or changes what it is going to use. -/
structure Allowed (s : State τ H O B) (t : τ) (op : Op H O) : Prop where
  idle : (s.thread t).Idle
  existing : ∀ h ∈ op.existing, s.handle h ≠ none
  fresh : ∀ h ∈ op.fresh, s.handle h = none
  nodup : op.fresh.Nodup
  pointer : ∀ p, op.pointer = some p → s.object p = .unborn
  writes : ∀ t', t' ≠ t → ∀ h ∈ op.code.flatMap Call.writes,
    h ∉ (s.thread t').writes ∧ h ∉ (s.thread t').reads
  reads : ∀ t', t' ≠ t → ∀ h ∈ op.code.flatMap Call.reads,
    h ∉ (s.thread t').writes

def State.start (s : State τ H O B) (t : τ) (op : Op H O) : State τ H O B :=
  State.goto
    { s with
      object := fun p =>
        if op.pointer = some p then .alive else s.object p }
    t .idle op.code

/-- A step of one of the threads, which may use the class in the ways `A`
admits. -/
inductive Step (A : Op H O → Prop) : State τ H O B → State τ H O B → Prop where
  | start {s : State τ H O B} (t : τ) (op : Op H O) (hA : A op)
      (h : Allowed s t op) : Step A s (s.start t op)
  | call {s s' : State τ H O B} (t : τ) {c : Call H O}
      {rest : List (Call H O)} (hframe : (s.thread t).frame = .idle)
      (hcode : (s.thread t).code = c :: rest)
      (h : s.call t c rest = some s') : Step A s s'
  | resume {s s' : State τ H O B} (t : τ)
      (hframe : (s.thread t).frame ≠ .idle) (h : s.resume t = some s') :
      Step A s s'
  | alloc {s : State τ H O B} (t : τ) {h : H} {unwind : Option H} (b : B)
      (hframe : (s.thread t).frame = .allocating h unwind)
      (hb : s.block b = .unborn) : Step A s (s.alloc t h b)

/-- The thread has something to do and doing it is undefined. -/
def Stuck (s : State τ H O B) (t : τ) : Prop :=
  ((s.thread t).frame ≠ .idle ∧ s.resume t = none) ∨
    (∃ c rest, (s.thread t).frame = .idle ∧ (s.thread t).code = c :: rest ∧
      s.call t c rest = none)

/-- The states some interleaving of the threads reaches. -/
def Reachable (A : Op H O → Prop) : State τ H O B → Prop :=
  Relation.ReflTransGen (Step A) .init

end Machine

end LearningCpp.SharedPtr
