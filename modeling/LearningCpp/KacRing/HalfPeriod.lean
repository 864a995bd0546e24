import LearningCpp.KacRing.Simulation

/-!
# Half a period

One lap takes a ball past every position once, so it changes colour once for
each marked one, and all balls do so alike. After one lap the ring is what it
was, or its negative, and the second half of the table is the first with the
same sign.

A position listed twice is marked once; what counts is how many there are.
-/

namespace LearningCpp.KacRing

open LearningCpp.Lib Finset

variable {N : ℕ} {marked : List ℕ}

/-- The sign of a lap. -/
def lapSign (marked : List ℕ) : ℤ := (-1) ^ marked.toFinset.card

section Ring

variable [NeZero N]

/-- The marked positions of the ring are the members of the list. -/
theorem card_marked (hm : ∀ i ∈ marked, i < N) :
    ({p : ZMod N | p.val ∈ marked} : Finset (ZMod N)).card =
      marked.toFinset.card := by
  have himage : ({p : ZMod N | p.val ∈ marked} : Finset (ZMod N)).image
      ZMod.val = marked.toFinset := by
    ext i
    simp only [mem_image, mem_filter, mem_univ, true_and, List.mem_toFinset]
    constructor
    · rintro ⟨p, hp, rfl⟩
      exact hp
    · intro hi
      have hval : (i : ZMod N).val = i := ZMod.val_natCast_of_lt (hm i hi)
      exact ⟨i, by rw [hval]; exact hi, hval⟩
  rw [← himage, card_image_of_injective _ (ZMod.val_injective N)]

theorem prod_sign (hm : ∀ i ∈ marked, i < N) :
    ∏ p : ZMod N, sign marked p = lapSign marked := by
  unfold sign lapSign
  rw [prod_ite, prod_const, prod_const_one, mul_one, card_marked hm]

/-- A lap multiplies every colour by the same sign. -/
theorem ring_lap (hm : ∀ i ∈ marked, i < N) (t : ℕ) :
    ring N marked (t + N) =
      fun p => lapSign marked * ring N marked t p := by
  unfold ring
  rw [ringStep_eq_rotate, Nat.add_comm, Function.iterate_add_apply,
    rotate_lap, prod_sign hm]

theorem ring_two_laps (marked : List ℕ) :
    ring N marked (N * 2) = fun _ => 1 := by
  unfold ring
  rw [ringStep_eq_rotate, Nat.mul_comm, rotate_two_laps (sign_mul_self marked)]

theorem mean_lap (hm : ∀ i ∈ marked, i < N) (t : ℕ) :
    mean N marked (t + N) = lapSign marked * mean N marked t := by
  unfold mean
  rw [ring_lap hm, ← mul_sum, Int.cast_mul, mul_div_assoc]

end Ring

/-! ## The table -/

/-- A vector that shows white balls only. -/
theorem Shows.eq_replicate {balls : List ℤ}
    (h : Shows balls (fun _ : ZMod N => 1)) : balls = List.replicate N 1 := by
  obtain ⟨hlen, hread⟩ := h
  refine List.eq_replicate_iff.2 ⟨hlen, ?_⟩
  intro ball hball
  obtain ⟨i, hi, rfl⟩ := List.mem_iff_getElem.1 hball
  have hwhite := hread (i : ZMod N)
  rw [ZMod.val_natCast_of_lt (by omega)] at hwhite
  simpa [hi] using hwhite

variable [NeZero N]

theorem make_saved_some (hm : ∀ i ∈ marked, i < N) {t : ℕ} (ht : t < N * 2) :
    (make N marked).saved[t]? = some (mean N marked t) := by
  have hlen : (make N marked).saved.length = N * 2 :=
    (outer_rounds hm (N * 2) (Nat.le_refl _)).2.2.2.1
  have hlt : t < (make N marked).saved.length := by omega
  have hread := make_saved hm ht
  rw [List.getD_eq_getElem _ _ hlt] at hread
  rw [List.getElem?_eq_getElem hlt, hread]

/-- The second half of the table is the first, with the sign of a lap; and the
loop that fills it ends with all balls white again. -/
theorem saved_half_period (hm : ∀ i ∈ marked, i < N) :
    (∀ t < N, ∃ color : ℚ, (make N marked).saved[t]? = some color ∧
      (make N marked).saved[t + N]? =
        some ((-1) ^ marked.toFinset.card * color)) ∧
      ((List.range (N * 2)).foldl (outerBody N (isMarked N marked))
        (locals N)).balls = List.replicate N 1 := by
  constructor
  · intro t ht
    refine ⟨mean N marked t, make_saved_some hm (by omega), ?_⟩
    rw [make_saved_some hm (by omega), mean_lap hm]
    simp [lapSign]
  · obtain ⟨hballs, _⟩ := outer_rounds hm (N * 2) (Nat.le_refl _)
    rw [ring_two_laps] at hballs
    exact hballs.eq_replicate

/-- A ring of four with two of its positions marked, one of them twice. -/
theorem saved_half_period_four :
    ∃ color : ℚ, (make 4 [0, 2, 0]).saved[1]? = some color ∧
      (make 4 [0, 2, 0]).saved[1 + 4]? =
        some ((-1) ^ ([0, 2, 0] : List ℕ).toFinset.card * color) :=
  (saved_half_period (N := 4) (by decide)).1 1 (by decide)

end LearningCpp.KacRing
