import Mathlib

/-!
# Counting who holds something

A counter that is meant to count the holders of a resource is right as long as
every step that changes the holders changes it alike. The holders here are the
elements of a predicate, of any number; what a step does to them is that two of
them trade places, or that there is one more, or one less.
-/

namespace LearningCpp.Lib

variable {α : Type*} {P Q : α → Prop}

theorem encard_congr (h : ∀ x, Q x ↔ P x) :
    {x | Q x}.encard = {x | P x}.encard := by
  rw [Set.ext h]

/-- Two elements trade places. In particular one may hand over to the other. -/
theorem encard_exchange {a c : α} (hac : Q a ↔ P c)
    (hca : Q c ↔ P a) (h : ∀ x, x ≠ a → x ≠ c → (Q x ↔ P x)) :
    {x | Q x}.encard = {x | P x}.encard := by
  classical
  have himage : {x | Q x} = Equiv.swap a c '' {x | P x} := by
    ext x
    rw [Equiv.image_eq_preimage_symm, Equiv.symm_swap]
    show Q x ↔ P (Equiv.swap a c x)
    by_cases hxa : x = a
    · rw [hxa, Equiv.swap_apply_left]
      exact hac
    · by_cases hxc : x = c
      · rw [hxc, Equiv.swap_apply_right]
        exact hca
      · rw [Equiv.swap_apply_of_ne_of_ne hxa hxc]
        exact h x hxa hxc
  rw [himage, (Equiv.swap a c).injective.encard_image]

/-- One holder more. -/
theorem encard_gain {a : α} {n : ℕ} (ha : ¬ P a) (h : ∀ x, Q x ↔ x = a ∨ P x)
    (hn : {x | P x}.encard = n) : {x | Q x}.encard = (n + 1 : ℕ) := by
  have hinsert : {x | Q x} = insert a {x | P x} := by
    ext x
    exact h x
  have hmem : a ∉ {x | P x} := ha
  rw [hinsert, Set.encard_insert_of_notMem hmem, hn]
  rfl

/-- One holder less. -/
theorem encard_lose {a : α} {n : ℕ} (ha : P a) (hQ : ¬ Q a)
    (h : ∀ x, x ≠ a → (Q x ↔ P x)) (hn : {x | P x}.encard = n) :
    {x | Q x}.encard = (n - 1 : ℕ) := by
  have hdiff : {x | Q x} = {x | P x} \ {a} := by
    ext x
    by_cases hx : x = a
    · rw [hx]
      exact iff_of_false hQ (fun hmem => hmem.2 rfl)
    · exact (h x hx).trans ⟨fun hp => ⟨hp, hx⟩, fun hp => hp.1⟩
  have hmem : a ∈ {x | P x} := ha
  rw [hdiff, Set.encard_sdiff_singleton_of_mem hmem, hn]
  rfl

theorem not_of_encard_eq_zero (h : {x | P x}.encard = 0) (x : α) : ¬ P x := by
  intro hx
  have hempty := Set.encard_eq_zero.1 h
  have hmem : x ∈ {x | P x} := hx
  rw [hempty] at hmem
  exact hmem

theorem encard_eq_zero_of_not (h : ∀ x, ¬ P x) : {x | P x}.encard = 0 := by
  rw [Set.encard_eq_zero]
  ext x
  exact iff_of_false (h x) (Set.notMem_empty x)

/-- A holder, and there is at least one. -/
theorem pos_of_encard_eq {n : ℕ} (h : {x | P x}.encard = n) {x : α}
    (hx : P x) : 0 < n := by
  rcases Nat.eq_zero_or_pos n with rfl | hpos
  · exact absurd hx (not_of_encard_eq_zero h x)
  · exact hpos

theorem exists_of_encard_eq {n : ℕ} (h : {x | P x}.encard = n) (hn : 0 < n) :
    ∃ x, P x := by
  by_contra hno
  have hzero := encard_eq_zero_of_not (P := P) (fun x hx => hno ⟨x, hx⟩)
  rw [h] at hzero
  have : n = 0 := by exact_mod_cast hzero
  omega

/-- A resource with at most one holder has no two. -/
theorem eq_of_encard_le_one (h : {x | P x}.encard ≤ 1) {x y : α} (hx : P x)
    (hy : P y) : x = y :=
  Set.encard_le_one_iff.1 h x y hx hy

end LearningCpp.Lib
