import Mathlib

/-!
# Unique pointers, and objects that hold some

`get_cracked/cpp/memory_and_pointers/unique_ptr.cpp`, with the deleter that
deletes. A handle is a place for a `unique_ptr`. It stands alone or is a field
of an object, which is there as long as the object is: `new` makes the fields,
empty, and `delete` destroys them, last first, each of which may delete another
object.

So a call of the deleter is not over when it returns to no one: what it still
has to destroy is an agenda, worked off step by step, and between two steps the
`reset` that called it waits with the pointer it was given. Deleting what is not
there, and writing to a handle that is gone, have no result.

Addresses are never reused. A constructor that fills fields is a `new` followed
by moves into them.
-/

namespace LearningCpp.UniquePtr

variable {H O : Type*}

/-- Which handles are fields, of which object, and in which order. -/
structure Layout (H O : Type*) where
  home : H → Option O
  fields : O → List H
  mem_fields : ∀ {h : H} {o : O}, h ∈ fields o ↔ home h = some o
  nodup_fields : ∀ o, (fields o).Nodup

inductive Exception where
  | logicError (what : String)
deriving DecidableEq, Repr

/-- What is left to do of a deletion. -/
inductive Task (H : Type*) where
  /-- `~unique_ptr()`. -/
  | destruct (h : H)
  /-- The end of it, after the deleter. -/
  | vanish (h : H)
deriving DecidableEq, Repr

structure State (H O : Type*) where
  /-- `ptr_` of the `unique_ptr` at a place, if there is one. -/
  handle : H → Option (Option O)
  /-- The objects handles were given. -/
  adopted : O → Bool
  /-- Those `release` returned to a caller. -/
  handedOut : O → Bool
  /-- How often an object was passed to the deleter. -/
  deletions : O → ℕ
  agenda : List (Task H)
  /-- The `reset` under way, with its parameter. -/
  resetting : Option (H × Option O)

def State.init : State H O where
  handle := fun _ => none
  adopted := fun _ => false
  handedOut := fun _ => false
  deletions := fun _ => 0
  agenda := []
  resetting := none

/-- `ptr_`, of a handle that is there. -/
def State.ptr (s : State H O) (h : H) : Option O := (s.handle h).join

def State.Alive (s : State H O) (o : O) : Prop :=
  s.adopted o = true ∧ s.deletions o = 0

def State.Idle (s : State H O) : Prop := s.agenda = [] ∧ s.resetting = none

/-- A field of the one object points to the other. -/
def Owns (L : Layout H O) (s : State H O) (o o' : O) : Prop :=
  ∃ h, L.home h = some o ∧ s.ptr h = some o'

/-- The other is below the one, or the same. -/
def Below (L : Layout H O) (s : State H O) : O → O → Prop :=
  Relation.ReflTransGen (Owns L s)

section Steps

variable [DecidableEq H] [DecidableEq O] (L : Layout H O)

def State.setHandle (s : State H O) (h : H) (p : Option (Option O)) :
    State H O :=
  { s with handle := Function.update s.handle h p }

omit [DecidableEq O] in
@[simp]
theorem State.setHandle_self (s : State H O) (h : H) (p : Option (Option O)) :
    (s.setHandle h p).handle h = p :=
  Function.update_self _ _ _

omit [DecidableEq O] in
theorem State.setHandle_of_ne (s : State H O) {h k : H} (hk : k ≠ h)
    (p : Option (Option O)) : (s.setHandle h p).handle k = s.handle k :=
  Function.update_of_ne hk _ _

/-- `new T`, for a raw pointer that is not null. -/
def State.make (s : State H O) : Option O → State H O
  | none => s
  | some o =>
    { s with
      handle := fun h => if L.home h = some o then some none else s.handle h
      adopted := Function.update s.adopted o true }

/-- `deleter(pointer)`, up to the destructors of the fields. -/
def State.deleter (s : State H O) (pointer : Option O)
    (rest : List (Task H)) : Option (State H O) :=
  match pointer with
  | none => some { s with agenda := rest }
  | some o =>
    if s.adopted o = true ∧ s.deletions o = 0 then
      some { s with
        deletions := Function.update s.deletions o (s.deletions o + 1)
        agenda := (L.fields o).reverse.map .destruct ++ rest }
    else none

/-- The next step of what is under way. -/
def State.step (s : State H O) : Option (State H O) :=
  match s.agenda with
  | .destruct h :: rest =>
    match s.handle h with
    | some pointer => s.deleter L pointer (.vanish h :: rest)
    | none => none
  | .vanish h :: rest =>
    match s.handle h with
    | some _ => some { s.setHandle h none with agenda := rest }
    | none => none
  | [] =>
    match s.resetting with
    | some (h, pointer) =>
      match s.handle h with
      | some _ => some { s.setHandle h (some pointer) with resetting := none }
      | none => none
    | none => none

def State.release (s : State H O) (h : H) : Option (State H O × Option O) :=
  match s.handle h with
  | some pointer => some (s.setHandle h (some none), pointer)
  | none => none

/-- `reset`, up to the deletion. -/
def State.reset (s : State H O) (h : H) (pointer : Option O) :
    Option (State H O) :=
  match s.handle h with
  | some old => State.deleter L { s with resetting := some (h, pointer) } old []
  | none => none

end Steps

/-! ## The member functions -/

inductive Op (H O : Type*) where
  | construct (h : H)
  | fromPointer (h : H) (pointer : Option O)
  | copyConstruct (h other : H)
  | copyAssign (h other : H)
  | moveConstruct (h other : H)
  | moveAssign (h other : H)
  | release (h : H)
  | reset (h : H) (pointer : Option O)
  | destroy (h : H)
deriving DecidableEq, Repr

/-- The handles an operation works on. -/
def Op.existing : Op H O → List H
  | .construct _ => []
  | .fromPointer _ _ => []
  | .copyConstruct _ other => [other]
  | .copyAssign h other => [h, other]
  | .moveConstruct _ other => [other]
  | .moveAssign h other => [h, other]
  | .release h => [h]
  | .reset h _ => [h]
  | .destroy h => [h]

/-- The place where it makes one. -/
def Op.fresh : Op H O → Option H
  | .construct h => some h
  | .fromPointer h _ => some h
  | .copyConstruct h _ => some h
  | .moveConstruct h _ => some h
  | _ => none

/-- The raw pointer it is given. -/
def Op.pointer : Op H O → Option O
  | .fromPointer _ pointer => pointer
  | .reset _ pointer => pointer
  | _ => none

section Machine

variable [DecidableEq H] [DecidableEq O] (L : Layout H O)

/-- Begins an operation, with what it returns or throws. -/
def State.start (s : State H O) :
    Op H O → Option (State H O × Except Exception Unit)
  | .construct h => some (s.setHandle h (some none), .ok ())
  | .fromPointer h pointer =>
    some ((s.make L pointer).setHandle h (some pointer), .ok ())
  | .copyConstruct _ _ =>
    some (s, .error (.logicError "Can't copy unique_ptr"))
  | .copyAssign _ _ => some (s, .error (.logicError "Can't copy unique_ptr"))
  | .moveConstruct h other =>
    (s.release other).map fun (s, pointer) =>
      (s.setHandle h (some pointer), .ok ())
  | .moveAssign h other =>
    if h = other then some (s, .ok ())
    else
      (s.release other).bind fun (s, pointer) =>
        (s.reset L h pointer).map fun s => (s, .ok ())
  | .release h =>
    (s.release h).map fun (s, pointer) =>
      ({ s with
        handedOut := fun o =>
          if pointer = some o then true else s.handedOut o }, .ok ())
  | .reset h pointer =>
    ((s.make L pointer).reset L h pointer).map fun s => (s, .ok ())
  | .destroy h => some ({ s with agenda := [.destruct h] }, .ok ())

/-- What a caller sees to: the handles are there, the place is free and no
field, a handle that is a field is not destroyed by hand, the raw pointer is
fresh from `new`, and no handle is moved into an object it owns. -/
structure Allowed (s : State H O) (op : Op H O) : Prop where
  idle : s.Idle
  existing : ∀ h ∈ op.existing, s.handle h ≠ none
  fresh : ∀ h, op.fresh = some h → s.handle h = none ∧ L.home h = none
  destroy : ∀ h, op = .destroy h → L.home h = none
  pointer : ∀ o, op.pointer = some o → s.adopted o = false
  moveAssign : ∀ h other, op = .moveAssign h other → h ≠ other →
    ∀ c o, L.home h = some c → s.ptr other = some o → ¬ Below L s o c

/-- A step of the program: an operation begins, or goes on. -/
inductive Step : State H O → State H O → Prop where
  | start {s s' : State H O} {op : Op H O} {answer : Except Exception Unit}
      (h : Allowed L s op) (hs : s.start L op = some (s', answer)) : Step s s'
  | next {s s' : State H O} (hs : s.step L = some s') : Step s s'

/-- The states a sequence of operations goes through. -/
def Reachable : State H O → Prop :=
  Relation.ReflTransGen (Step L) .init

end Machine

end LearningCpp.UniquePtr
