import Mathlib

/-!
# Rotating a weighted ring

Values on the positions of a ring, every one moved to the next position at
once and multiplied on the way by the weight of the position it leaves. After
`t` rounds a value has picked up the weights of the `t` positions behind it,
so one lap multiplies all of them by the same factor, the product of all the
weights. Weights that square to one make the ring periodic in two laps.
-/

namespace LearningCpp.Lib

open Finset

variable {N : ℕ} {M : Type*} [CommMonoid M]

/-- One round. -/
def rotate (w : ZMod N → M) (c : ZMod N → M) : ZMod N → M :=
  fun p => w (p - 1) * c (p - 1)

theorem rotate_iterate (w c : ZMod N → M) (t : ℕ) (p : ZMod N) :
    (rotate w)^[t] c p = (∏ j ∈ range t, w (p - 1 - j)) * c (p - t) := by
  induction t generalizing p with
  | zero => simp
  | succ t ih =>
      have hshift : ∀ j : ℕ, p - 1 - 1 - (j : ZMod N) =
          p - 1 - ((j + 1 : ℕ) : ZMod N) := by
        intro j
        push_cast
        ring
      have hend : p - 1 - (t : ZMod N) = p - ((t + 1 : ℕ) : ZMod N) := by
        push_cast
        ring
      rw [Function.iterate_succ_apply', rotate, ih, prod_range_succ', hend,
        prod_congr rfl (fun j _ => congrArg w (hshift j))]
      simp only [Nat.cast_zero, sub_zero]
      rw [← mul_assoc, mul_comm (w (p - 1))]

/-- A product over the ring, position by position. -/
theorem prod_range_zmod [NeZero N] (f : ZMod N → M) :
    ∏ i ∈ range N, f i = ∏ p, f p := by
  obtain ⟨n, rfl⟩ := Nat.exists_eq_succ_of_ne_zero (NeZero.ne N)
  rw [prod_range]
  refine prod_congr rfl (fun (i : Fin (n + 1)) _ => ?_)
  exact congrArg f (Fin.cast_val_eq_self i)

theorem sum_range_zmod [NeZero N] {A : Type*} [AddCommMonoid A]
    (f : ZMod N → A) : ∑ i ∈ range N, f i = ∑ p, f p :=
  prod_range_zmod (M := Multiplicative A) f

variable [NeZero N]

/-- One lap multiplies every value by the product of all the weights. -/
theorem rotate_lap (w c : ZMod N → M) :
    (rotate w)^[N] c = fun p => (∏ q, w q) * c p := by
  funext p
  have hlap : ∏ j ∈ range N, w (p - 1 - j) = ∏ q, w q := by
    rw [prod_range_zmod (fun q => w (p - 1 - q))]
    exact (Equiv.subLeft (p - 1)).prod_comp w
  rw [rotate_iterate, hlap, ZMod.natCast_self, sub_zero]

theorem rotate_two_laps {w : ZMod N → M} (hw : ∀ p, w p * w p = 1)
    (c : ZMod N → M) : (rotate w)^[2 * N] c = c := by
  have hsq : (∏ q, w q) * ∏ q, w q = 1 := by
    rw [← prod_mul_distrib]
    exact prod_eq_one (fun q _ => hw q)
  rw [two_mul, Function.iterate_add_apply, rotate_lap, rotate_lap]
  funext p
  rw [← mul_assoc, hsq, one_mul]

/-- Only the number of rounds modulo two laps matters. -/
theorem rotate_iterate_mod {w : ZMod N → M} (hw : ∀ p, w p * w p = 1)
    (c : ZMod N → M) (t : ℕ) :
    (rotate w)^[t % (2 * N)] c = (rotate w)^[t] c := by
  have hfix : ∀ k : ℕ, (rotate w)^[2 * N * k] c = c := by
    intro k
    rw [Function.iterate_mul]
    exact Function.iterate_fixed (rotate_two_laps hw c) k
  have hdiv := Nat.mod_add_div t (2 * N)
  rw [← hdiv, Nat.add_mul_mod_self_left, Nat.mod_mod,
    Function.iterate_add_apply, hfix]

end LearningCpp.Lib
