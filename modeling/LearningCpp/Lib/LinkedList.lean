import Mathlib

/-!
# Linked lists in memory

Nodes with a `next` pointer that may be null, the memory being the function
that says where each points to. A segment is a run of nodes each of which
points to the next; a list is a segment that ends in null. What is written to
other nodes does not change it.
-/

namespace LearningCpp.Lib

variable {ν : Type*} {next next' : ν → Option ν} {p q : Option ν} {a : ν}
  {l : List ν}

/-- From the pointer `p` through the nodes of the list to the pointer `q`. -/
def Segment (next : ν → Option ν) : Option ν → List ν → Option ν → Prop
  | p, [], q => p = q
  | p, a :: l, q => p = some a ∧ Segment next (next a) l q

/-- A null-terminated list. -/
abbrev IsList (next : ν → Option ν) (p : Option ν) (l : List ν) : Prop :=
  Segment next p l none

@[simp] theorem segment_nil : Segment next p [] q ↔ p = q := Iff.rfl

@[simp] theorem segment_cons : Segment next p (a :: l) q ↔
    p = some a ∧ Segment next (next a) l q := Iff.rfl

theorem Segment.congr (h : Segment next p l q)
    (hsame : ∀ a ∈ l, next' a = next a) : Segment next' p l q := by
  induction l generalizing p with
  | nil => exact h
  | cons a l ih =>
      rw [segment_cons, hsame a List.mem_cons_self]
      exact ⟨h.1, ih h.2 (fun b hb => hsame b (List.mem_cons_of_mem a hb))⟩

theorem segment_concat : Segment next p (l ++ [a]) q ↔
    Segment next p l (some a) ∧ next a = q := by
  induction l generalizing p with
  | nil => simp
  | cons b l ih => rw [List.cons_append, segment_cons, segment_cons, ih, and_assoc]

/-- A list starts where it starts. -/
theorem IsList.head? (h : IsList next p l) : p = l.head? := by
  cases l with
  | nil => exact h
  | cons a l => exact h.1

end LearningCpp.Lib
