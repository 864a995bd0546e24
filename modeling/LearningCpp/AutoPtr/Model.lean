import LearningCpp.Lib.PartialRun

/-!
# An owning pointer with copy and move

`learncpp/22_move_semantics_and_smart_pointers/move.cpp`: the members of
`Auto_ptr4` and `custom_swap`, for handles at places `κ` that own objects of a
type with values `V`. A pointer is the number of the `new` that gave it, since a
real `new` may give the address of a deleted object again; and a handle built
from a raw pointer is built from a `new`, as the file's only one is.

Copying may throw, at `new T` or at the assignment to the new object, which it
then leaves with some value of its own. Deleting what is not there and reading
through a pointer to nothing are undefined. A pointer to an object that is gone
may still be handed on.

A call on a place where no handle is, or a construction where there is one, is
no call a program can contain; it changes nothing.
-/

namespace LearningCpp.AutoPtr

variable {κ V : Type*}

/-- How `_ptr = new T; *_ptr = *a._ptr;` goes. -/
inductive Fate (V : Type*) where
  | newThrows
  | assignThrows (left : V)
  | copies
deriving DecidableEq, Repr

inductive Answer (V : Type*) where
  | done
  | threw
  | value (v : V)
  | null (b : Bool)
  | illScoped
deriving DecidableEq, Repr

inductive Call (κ V : Type*) where
  /-- `Auto_ptr4<T> k;` -/
  | makeNull (k : κ)
  /-- `Auto_ptr4<T> k { new T };`, for an object with the value. -/
  | adopt (k : κ) (v : V)
  /-- `Auto_ptr4<T> k { a };` -/
  | copyConstruct (k a : κ) (fate : Fate V)
  /-- `Auto_ptr4<T> k { std::move(a) };` -/
  | moveConstruct (k a : κ)
  /-- `k = a;` -/
  | copyAssign (k a : κ) (fate : Fate V)
  /-- `k = std::move(a);` -/
  | moveAssign (k a : κ)
  /-- The end of the scope of `k`. -/
  | destroy (k : κ)
  /-- `*k` -/
  | read (k : κ)
  /-- `*k = v;` -/
  | write (k : κ) (v : V)
  | isnull (k : κ)
  /-- `custom_swap(a, b)`, whose local variable has the place `tmp`. -/
  | custom_swap (tmp a b : κ)
deriving DecidableEq, Repr

/-- The handles a call uses are there, and those it makes are not yet. -/
def Call.inScope (alive : κ → Bool) : Call κ V → Bool
  | .makeNull k | .adopt k _ => !alive k
  | .copyConstruct k a _ | .moveConstruct k a => !alive k && alive a
  | .copyAssign k a _ | .moveAssign k a => alive k && alive a
  | .destroy k | .read k | .write k _ | .isnull k => alive k
  | .custom_swap tmp a b => !alive tmp && alive a && alive b

structure Memory (κ V : Type*) where
  /-- `_ptr` of the handle at a place, if there is one. -/
  ptr : κ → Option (Option ℕ)
  /-- The objects that were made and not deleted. -/
  object : ℕ → Option V
  made : ℕ

namespace Memory

def empty : Memory κ V where
  ptr := fun _ => none
  object := fun _ => none
  made := 0

/-- `k._ptr` -/
def pointer (m : Memory κ V) (k : κ) : Option ℕ := (m.ptr k).join

/-- `*p` -/
def deref (m : Memory κ V) (p : Option ℕ) : Option V := p.bind m.object

/-- `delete p` -/
def delete (m : Memory κ V) : Option ℕ → Option (Memory κ V)
  | none => some m
  | some o =>
    match m.object o with
    | none => none
    | some _ => some { m with object := Function.update m.object o none }

/-- `new T`, and the address. -/
def new (m : Memory κ V) (v : V) : ℕ × Memory κ V :=
  (m.made,
    { m with
      object := Function.update m.object m.made (some v)
      made := m.made + 1 })

/-- `*p = v`, for an object that is there. -/
def store (m : Memory κ V) (o : ℕ) (v : V) : Memory κ V :=
  { m with object := Function.update m.object o (some v) }

variable [DecidableEq κ]

def setPtr (m : Memory κ V) (k : κ) (p : Option (Option ℕ)) : Memory κ V :=
  { m with ptr := Function.update m.ptr k p }

/-- `_ptr = new T; *_ptr = *a._ptr;` in the handle at `k`, and whether it
throws. -/
def newCopy (m : Memory κ V) (blank : V) (k a : κ) :
    Fate V → Option (Memory κ V × Bool)
  | .newThrows => some (m, true)
  | .assignThrows left =>
    let (o, m) := m.new blank
    let m := m.setPtr k (some (some o))
    match m.deref (m.pointer a) with
    | none => none
    | some _ => some (m.store o left, true)
  | .copies =>
    let (o, m) := m.new blank
    let m := m.setPtr k (some (some o))
    match m.deref (m.pointer a) with
    | none => none
    | some v => some (m.store o v, false)

/-- `Auto_ptr4(const Auto_ptr4& a)`. A constructor that throws leaves no
handle, and no destructor runs. -/
def copyConstruct (m : Memory κ V) (blank : V) (k a : κ) (fate : Fate V) :
    Option (Memory κ V × Answer V) :=
  match (m.setPtr k (some none)).newCopy blank k a fate with
  | none => none
  | some (m, true) => some (m.setPtr k none, .threw)
  | some (m, false) => some (m, .done)

/-- `Auto_ptr4(Auto_ptr4&& a) noexcept` -/
def moveConstruct (m : Memory κ V) (k a : κ) : Memory κ V :=
  (m.setPtr k (some (m.pointer a))).setPtr a (some none)

/-- `operator=(const Auto_ptr4& a)` -/
def copyAssign (m : Memory κ V) (blank : V) (k a : κ) (fate : Fate V) :
    Option (Memory κ V × Answer V) :=
  if a = k then some (m, .done) else
  match m.delete (m.pointer k) with
  | none => none
  | some m =>
    match m.newCopy blank k a fate with
    | none => none
    | some (m, true) => some (m, .threw)
    | some (m, false) => some (m, .done)

/-- `operator=(Auto_ptr4&& a) noexcept` -/
def moveAssign (m : Memory κ V) (k a : κ) : Option (Memory κ V) :=
  if a = k then some m else
  match m.delete (m.pointer k) with
  | none => none
  | some m => some ((m.setPtr k (some (m.pointer a))).setPtr a (some none))

/-- `~Auto_ptr4()` -/
def destroy (m : Memory κ V) (k : κ) : Option (Memory κ V) :=
  match m.delete (m.pointer k) with
  | none => none
  | some m => some (m.setPtr k none)

/-- `T& operator*() const`, to read. -/
def read (m : Memory κ V) (k : κ) : Option (Memory κ V × Answer V) :=
  match m.deref (m.pointer k) with
  | none => none
  | some v => some (m, .value v)

/-- `T& operator*() const`, to assign. -/
def write (m : Memory κ V) (k : κ) (v : V) : Option (Memory κ V) :=
  match m.pointer k with
  | none => none
  | some o =>
    match m.object o with
    | none => none
    | some _ => some (m.store o v)

/-- `bool isnull() const` -/
def isnull (m : Memory κ V) (k : κ) : Bool := (m.pointer k).isNone

/-- `T tmp { std::move(a) }; a = std::move(b); b = std::move(tmp);` and the end
of the scope of `tmp`. -/
def custom_swap (m : Memory κ V) (tmp a b : κ) : Option (Memory κ V) :=
  match (m.moveConstruct tmp a).moveAssign a b with
  | none => none
  | some m =>
    match m.moveAssign b tmp with
    | none => none
    | some m => m.destroy tmp

/-- What a call in scope does. -/
def exec (blank : V) (m : Memory κ V) :
    Call κ V → Option (Memory κ V × Answer V)
  | .makeNull k => some (m.setPtr k (some none), .done)
  | .adopt k v =>
    let (o, m) := m.new v
    some (m.setPtr k (some (some o)), .done)
  | .copyConstruct k a fate => m.copyConstruct blank k a fate
  | .moveConstruct k a => some (m.moveConstruct k a, .done)
  | .copyAssign k a fate => m.copyAssign blank k a fate
  | .moveAssign k a => (m.moveAssign k a).map (·, .done)
  | .destroy k => (m.destroy k).map (·, .done)
  | .read k => m.read k
  | .write k v => (m.write k v).map (·, .done)
  | .isnull k => some (m, .null (m.isnull k))
  | .custom_swap tmp a b => (m.custom_swap tmp a b).map (·, .done)

def step (blank : V) (m : Memory κ V) (c : Call κ V) :
    Option (Memory κ V × Answer V) :=
  if c.inScope (fun k => (m.ptr k).isSome) then m.exec blank c
  else some (m, .illScoped)

end Memory

end LearningCpp.AutoPtr
