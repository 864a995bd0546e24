import Mathlib

/-!
# Signed arithmetic that may be undefined

A result that does not fit into a signed type is not wrapped; the program that
computes it has no meaning.
-/

namespace LearningCpp.Lib

/-- The integer is one of the signed type of `w` bits. -/
def Fits (w : ℕ) (z : Int) : Prop := -2 ^ (w - 1) ≤ z ∧ z < 2 ^ (w - 1)

instance (w : ℕ) (z : Int) : Decidable (Fits w z) :=
  inferInstanceAs (Decidable (_ ∧ _))

/-- The result of a computation in the signed type of `w` bits. -/
def signed (w : ℕ) (z : Int) : Option Int := if Fits w z then some z else none

variable {w : ℕ} {z : Int}

theorem fits_int : Fits 32 z ↔ -2 ^ 31 ≤ z ∧ z < 2 ^ 31 := Iff.rfl

theorem signed_of_fits (h : Fits w z) : signed w z = some z := if_pos h

theorem signed_eq_some_iff {y : Int} :
    signed w z = some y ↔ Fits w z ∧ y = z := by
  unfold signed
  split
  · next h => simp [h, eq_comm]
  · next h => simp [h]

end LearningCpp.Lib
