import LearningCpp.AutoPtr.Model

/-!
# What an owning pointer is for

Seen from outside a handle holds nothing, or a value of its own, or it dangles:
it still has the address of an object that is gone. There are no addresses here
and nothing is shared, so copying copies a value, moving takes it, and swapping
exchanges what the two places hold. What else the class does to memory shows in
one number only, of the objects no handle owns any more.
-/

namespace LearningCpp.AutoPtr

variable {κ V : Type*}

inductive Slot (V : Type*) where
  | null
  | value (v : V)
  | dangling
deriving DecidableEq, Repr

/-- A handle that still has the address of an object that is gone. -/
def Slot.dangles : Option (Slot V) → Bool
  | some .dangling => true
  | _ => false

/-- The value at the place, if there is one. -/
def Slot.value? : Option (Slot V) → Option V
  | some (.value v) => some v
  | _ => none

structure Slots (κ V : Type*) where
  slot : κ → Option (Slot V)
  /-- The objects that are there and that no handle owns. -/
  leaked : ℕ

namespace Slots

def empty : Slots κ V where
  slot := fun _ => none
  leaked := 0

variable [DecidableEq κ]

def put (s : Slots κ V) (k : κ) (x : Option (Slot V)) : Slots κ V :=
  { s with slot := Function.update s.slot k x }

/-- What is left of a handle whose object is deleted. -/
def spoil (s : Slots κ V) (k : κ) : Slots κ V :=
  match s.slot k with
  | some (.value _) => s.put k (some .dangling)
  | _ => s

def transfer (s : Slots κ V) (k a : κ) : Slots κ V :=
  (s.put k (s.slot a)).put a (some .null)

def exchange (s : Slots κ V) (a b : κ) : Slots κ V :=
  { s with slot := fun k => s.slot (Equiv.swap a b k) }

/-- A copy that fails after `new` has lost the new object. -/
def copyConstruct (s : Slots κ V) (k a : κ) :
    Fate V → Option (Slots κ V × Answer V)
  | .newThrows => some (s, .threw)
  | .assignThrows _ =>
    match Slot.value? (s.slot a) with
    | none => none
    | some _ => some ({ s with leaked := s.leaked + 1 }, .threw)
  | .copies =>
    match Slot.value? (s.slot a) with
    | none => none
    | some v => some (s.put k (some (.value v)), .done)

/-- A copy that fails at `new` has deleted what the handle owned. -/
def copyAssign (s : Slots κ V) (k a : κ) (fate : Fate V) :
    Option (Slots κ V × Answer V) :=
  if a = k then some (s, .done) else
  if Slot.dangles (s.slot k) then none else
  match fate, Slot.value? (s.slot a) with
  | .newThrows, _ => some (s.spoil k, .threw)
  | .assignThrows left, some _ => some (s.put k (some (.value left)), .threw)
  | .copies, some v => some (s.put k (some (.value v)), .done)
  | _, none => none

def moveAssign (s : Slots κ V) (k a : κ) : Option (Slots κ V) :=
  if a = k then some s else
  if Slot.dangles (s.slot k) then none else some (s.transfer k a)

def destroy (s : Slots κ V) (k : κ) : Option (Slots κ V) :=
  if Slot.dangles (s.slot k) then none else some (s.put k none)

def read (s : Slots κ V) (k : κ) : Option (Slots κ V × Answer V) :=
  match Slot.value? (s.slot k) with
  | none => none
  | some v => some (s, .value v)

def write (s : Slots κ V) (k : κ) (v : V) : Option (Slots κ V) :=
  match Slot.value? (s.slot k) with
  | none => none
  | some _ => some (s.put k (some (.value v)))

def isnull (s : Slots κ V) (k : κ) : Bool :=
  match s.slot k with
  | some .null => true
  | _ => false

def exec (s : Slots κ V) : Call κ V → Option (Slots κ V × Answer V)
  | .makeNull k => some (s.put k (some .null), .done)
  | .adopt k v => some (s.put k (some (.value v)), .done)
  | .copyConstruct k a fate => s.copyConstruct k a fate
  | .moveConstruct k a => some (s.transfer k a, .done)
  | .copyAssign k a fate => s.copyAssign k a fate
  | .moveAssign k a => (s.moveAssign k a).map (·, .done)
  | .destroy k => (s.destroy k).map (·, .done)
  | .read k => s.read k
  | .write k v => (s.write k v).map (·, .done)
  | .isnull k => some (s, .null (s.isnull k))
  | .custom_swap _ a b => some (s.exchange a b, .done)

def step (s : Slots κ V) (c : Call κ V) : Option (Slots κ V × Answer V) :=
  if c.inScope (fun k => (s.slot k).isSome) then s.exec c
  else some (s, .illScoped)

section Lemmas

variable (s : Slots κ V) {k a b : κ} {x : Option (Slot V)}

@[simp] theorem put_slot_self : (s.put k x).slot k = x :=
  Function.update_self _ _ _

theorem put_slot_of_ne (h : a ≠ k) : (s.put k x).slot a = s.slot a :=
  Function.update_of_ne h _ _

@[simp] theorem put_leaked : (s.put k x).leaked = s.leaked := rfl

@[simp] theorem put_self : s.put k (s.slot k) = s := by
  unfold put
  rw [Function.update_eq_self]

@[simp] theorem transfer_slot_source : (s.transfer k a).slot a = some .null :=
  put_slot_self _

theorem transfer_slot_target (h : k ≠ a) :
    (s.transfer k a).slot k = s.slot a := by
  rw [transfer, put_slot_of_ne _ h, put_slot_self]

theorem transfer_slot_of_ne (hk : b ≠ k) (ha : b ≠ a) :
    (s.transfer k a).slot b = s.slot b := by
  rw [transfer, put_slot_of_ne _ ha, put_slot_of_ne _ hk]

end Lemmas

end Slots

end LearningCpp.AutoPtr
