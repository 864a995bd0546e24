import Mathlib

/-!
# Hash maps

`std::unordered_map` as the partial function it implements. The one operation
that is not what its name says is `operator[]`: looking up an absent key
inserts a value-initialised one, so it returns a map as well as a value.
-/

namespace LearningCpp.Lib

variable {κ β : Type*}

abbrev UnorderedMap (κ β : Type*) := κ → Option β

namespace UnorderedMap

def empty : UnorderedMap κ β := fun _ => none

/-- `contains(key)`. -/
def contains (m : UnorderedMap κ β) (k : κ) : Bool := (m k).isSome

theorem contains_iff {m : UnorderedMap κ β} {k : κ} :
    m.contains k = true ↔ ∃ v, m k = some v :=
  Option.isSome_iff_exists

theorem contains_eq_false {m : UnorderedMap κ β} {k : κ} :
    m.contains k = false ↔ m k = none := by
  simp [contains]

variable [DecidableEq κ]

def set (m : UnorderedMap κ β) (k : κ) (v : β) : UnorderedMap κ β :=
  Function.update m k (some v)

/-- `insert({key, value})`, which leaves a key that is there alone. -/
def insert (m : UnorderedMap κ β) (k : κ) (v : β) : UnorderedMap κ β :=
  if m.contains k then m else m.set k v

/-- `erase(key)`. -/
def erase (m : UnorderedMap κ β) (k : κ) : UnorderedMap κ β :=
  Function.update m k none

/-- `operator[]`. -/
def subscript [Inhabited β] (m : UnorderedMap κ β) (k : κ) :
    β × UnorderedMap κ β :=
  match m k with
  | some v => (v, m)
  | none => (default, m.set k default)

theorem set_apply (m : UnorderedMap κ β) (k k' : κ) (v : β) :
    m.set k v k' = if k' = k then some v else m k' :=
  Function.update_apply m k (some v) k'

theorem erase_apply (m : UnorderedMap κ β) (k k' : κ) :
    m.erase k k' = if k' = k then none else m k' :=
  Function.update_apply m k none k'

theorem insert_of_not_contains {m : UnorderedMap κ β} {k : κ} {v : β}
    (h : m.contains k = false) : m.insert k v = m.set k v := by
  rw [insert, h]; rfl

theorem subscript_of_some [Inhabited β] {m : UnorderedMap κ β} {k : κ}
    {v : β} (h : m k = some v) : m.subscript k = (v, m) := by
  simp only [subscript, h]

theorem subscript_fst [Inhabited β] (m : UnorderedMap κ β) (k : κ) :
    (m.subscript k).1 = (m k).getD default := by
  unfold subscript
  split
  · next h => rw [h, Option.getD_some]
  · next h => rw [h, Option.getD_none]

/-- Writing through the reference `operator[]` returns. -/
theorem subscript_set [Inhabited β] (m : UnorderedMap κ β) (k : κ) (v : β) :
    (m.subscript k).2.set k v = m.set k v := by
  unfold subscript
  split
  · rfl
  · exact Function.update_idem _ _ _

end UnorderedMap

end LearningCpp.Lib
