import LearningCpp.KacRing.Model

/-!
# Steps back

`kstep` takes a signed number and adds it to an unsigned one. A sum below zero
is `2 ^ 64` too large by the time it is reduced modulo the period, so a step
back from behind the start lands `2 ^ 64` modulo `2 * N` positions too far.
Nothing is off when `2 * N` divides `2 ^ 64`, and otherwise two ways of going
the same distance agree exactly when equally many of their sums were below
zero.
-/

namespace LearningCpp.KacRing

open LearningCpp.Lib

/-- A `long long`. -/
def IsLong (k : Int) : Prop := -2 ^ 63 ≤ k ∧ k < 2 ^ 63

/-- How often `2 ^ 64` is added to the sum of a step and a `long long`. -/
def wraps (c k : Int) : Int := if c + k < 0 then 1 else 0

/-- The residue of the sum as it is computed in `size_t`. -/
def position (period c k : Int) : Int :=
  (c + k + wraps c k * 2 ^ 64) % period

theorem wraps_cases (c k : Int) :
    (c + k < 0 ∧ wraps c k = 1) ∨ (0 ≤ c + k ∧ wraps c k = 0) := by
  unfold wraps
  split
  · next h => exact Or.inl ⟨h, rfl⟩
  · next h => exact Or.inr ⟨by omega, rfl⟩

/-- What the calls need of a ring: its period is positive and its index below
it, and the period is twice an `int`. -/
structure Sized (r : KacRing) : Prop where
  curr : r.currStep < r.period
  period : r.period ≤ 2 ^ 31 - 1

section Kstep

variable {r : KacRing} {k a b : Int}

theorem kstep_currStep (h : Sized r) (hk : IsLong k) :
    ((r.kstep k).currStep : Int) = position r.period r.currStep k := by
  obtain ⟨hlow, hhigh⟩ := hk
  have hcurr := h.curr
  have hperiod := h.period
  have hsum : (((r.currStep + toSize k) % 2 ^ 64 : Nat) : Int) =
      r.currStep + k + wraps r.currStep k * 2 ^ 64 := by
    unfold toSize
    rcases wraps_cases r.currStep k with ⟨hneg, hw⟩ | ⟨hpos, hw⟩
    · rw [hw]
      omega
    · rw [hw]
      omega
  rw [position, ← hsum]
  exact Int.natCast_mod _ _

theorem Sized.kstep (h : Sized r) (k : Int) : Sized (r.kstep k) where
  curr := Nat.mod_lt _ (Nat.zero_lt_of_lt h.curr)
  period := h.period

theorem Sized.step (h : Sized r) : Sized r.step where
  curr := Nat.mod_lt _ (Nat.zero_lt_of_lt h.curr)
  period := h.period

theorem sized_make {N : Nat} (hpos : 0 < N) (hN : N * 2 ≤ 2 ^ 31 - 1)
    (marked : List Nat) : Sized (make N marked) where
  curr := show 0 < N * 2 by omega
  period := hN

/-- Rings that differ in the index only. -/
theorem eq_iff_currStep {r' : KacRing} (hsaved : r.saved = r'.saved)
    (hperiod : r.period = r'.period) :
    r = r' ↔ (r.currStep : Int) = r'.currStep := by
  obtain ⟨saved, curr, period⟩ := r
  obtain ⟨saved', curr', period'⟩ := r'
  simp only at hsaved hperiod
  simp [hsaved, hperiod]

/-- Two residues that differ by rounds of `2 ^ 64`. -/
theorem emod_rounds_iff {p x m n : Int} (hmn : -1 ≤ m - n ∧ m - n ≤ 1) :
    (x + m * 2 ^ 64) % p = (x + n * 2 ^ 64) % p ↔
      p ∣ 2 ^ 64 ∨ m = n := by
  rw [Int.emod_eq_emod_iff_emod_sub_eq_zero, ← Int.dvd_iff_emod_eq_zero]
  have hdiff : x + m * 2 ^ 64 - (x + n * 2 ^ 64) = (m - n) * 2 ^ 64 := by
    ring
  rw [hdiff]
  have hcases : m - n = -1 ∨ m - n = 0 ∨ m - n = 1 := by omega
  rcases hcases with h | h | h
  · rw [h, neg_one_mul, dvd_neg]
    exact ⟨Or.inl, fun h' => h'.resolve_right (by omega)⟩
  · rw [h, zero_mul]
    exact iff_of_true (dvd_zero p) (Or.inr (by omega))
  · rw [h, one_mul]
    exact ⟨Or.inl, fun h' => h'.resolve_right (by omega)⟩

/-- The step reached by two calls. -/
theorem kstep_kstep_currStep (h : Sized r) (ha : IsLong a) (hb : IsLong b) :
    (((r.kstep a).kstep b).currStep : Int) =
      (r.currStep + (a + b) + (wraps r.currStep a +
        wraps (position r.period r.currStep a) b) * 2 ^ 64) % r.period := by
  have hperiod : (r.kstep a).period = r.period := rfl
  rw [kstep_currStep (h.kstep a) hb, kstep_currStep h ha, hperiod]
  generalize hw : wraps (position r.period r.currStep a) b = w
  rw [position, hw, position, Int.add_assoc, Int.emod_add_emod]
  congr 1
  ring

/-- Two calls and the one call of their sum. -/
theorem kstep_add_iff (h : Sized r) (ha : IsLong a) (hb : IsLong b)
    (hab : IsLong (a + b)) :
    (r.kstep a).kstep b = r.kstep (a + b) ↔
      (r.period : Int) ∣ 2 ^ 64 ∨
        wraps r.currStep a + wraps (position r.period r.currStep a) b =
          wraps r.currStep (a + b) := by
  have hcurr := h.curr
  have hindex : (r.kstep a).kstep b = r.kstep (a + b) ↔
      (((r.kstep a).kstep b).currStep : Int) = (r.kstep (a + b)).currStep :=
    eq_iff_currStep rfl rfl
  rw [hindex, kstep_kstep_currStep h ha hb, kstep_currStep h hab]
  unfold position
  refine emod_rounds_iff ?_
  -- Both sums of the two calls are below zero only if their total is.
  have hnonneg : 0 ≤ (r.currStep + a + wraps r.currStep a * 2 ^ 64) %
      (r.period : Int) := Int.emod_nonneg _ (by omega)
  generalize (r.currStep + a + wraps r.currStep a * 2 ^ 64) %
      (r.period : Int) = c at hnonneg
  rcases wraps_cases r.currStep a with ⟨h₁, w₁⟩ | ⟨h₁, w₁⟩ <;>
    rcases wraps_cases c b with ⟨h₂, w₂⟩ | ⟨h₂, w₂⟩ <;>
    rcases wraps_cases r.currStep (a + b) with ⟨h₃, w₃⟩ | ⟨h₃, w₃⟩ <;>
    rw [w₁, w₂, w₃] <;> omega

/-- Going back is exact when the way there stayed within the period. -/
theorem wraps_neg (h : Sized r) :
    (0 ≤ r.currStep + a ∧ r.currStep + a < r.period ∧
      wraps r.currStep a + wraps (position r.period r.currStep a) (-a) = 0) ∨
    (¬ (0 ≤ r.currStep + a ∧ r.currStep + a < r.period) ∧
      wraps r.currStep a + wraps (position r.period r.currStep a) (-a) =
        1) := by
  have hcurr := h.curr
  have hpos : (0 : Int) < r.period := by omega
  rcases wraps_cases r.currStep a with ⟨h₁, w₁⟩ | ⟨h₁, w₁⟩
  · right
    have hnonneg : 0 ≤ position r.period r.currStep a :=
      Int.emod_nonneg _ (by omega)
    rcases wraps_cases (position r.period r.currStep a) (-a) with
      ⟨h₂, w₂⟩ | ⟨h₂, w₂⟩
    · omega
    · rw [w₁, w₂]
      omega
  · have hposition : position r.period r.currStep a =
        (r.currStep + a) % r.period := by
      rw [position, w₁, zero_mul, Int.add_zero]
    by_cases hlt : r.currStep + a < r.period
    · left
      rw [hposition, Int.emod_eq_of_lt h₁ hlt, w₁]
      rcases wraps_cases (r.currStep + a) (-a) with ⟨h₂, _⟩ | ⟨_, w₂⟩
      · omega
      · exact ⟨h₁, hlt, by rw [w₂]; rfl⟩
    · right
      have hless : (r.currStep + a) % (r.period : Int) < a := by
        rw [← Int.sub_emod_right]
        by_cases hlap : r.currStep + a - r.period < (r.period : Int)
        · rw [Int.emod_eq_of_lt (by omega) hlap]
          omega
        · have hmod := Int.emod_lt_of_pos (r.currStep + a - r.period) hpos
          omega
      rw [hposition, w₁]
      rcases wraps_cases ((r.currStep + a) % r.period) (-a) with
        ⟨_, w₂⟩ | ⟨h₂, _⟩
      · exact ⟨by omega, by rw [w₂]; rfl⟩
      · omega

/-- A call and the call of the opposite number. -/
theorem color_kstep_neg_iff (h : Sized r) (ha : IsLong a)
    (hmin : a ≠ -2 ^ 63) :
    ((r.kstep a).kstep (-a)).color = r.color ↔
      (0 ≤ r.currStep + a ∧ r.currStep + a < r.period) ∨
        r.saved.getD ((r.currStep + 2 ^ 64) % r.period) 0 =
          r.saved.getD r.currStep 0 := by
  have hcurr := h.curr
  have hneg : IsLong (-a) := by
    unfold IsLong at ha ⊢
    omega
  have hstep := kstep_kstep_currStep h ha hneg
  rw [Int.add_right_neg, Int.add_zero] at hstep
  show r.saved.getD ((r.kstep a).kstep (-a)).currStep 0 =
    r.saved.getD r.currStep 0 ↔ _
  rcases wraps_neg (a := a) h with ⟨hlow, hhigh, hw⟩ | ⟨hout, hw⟩
  · rw [hw, zero_mul, Int.add_zero] at hstep
    rw [Int.emod_eq_of_lt (by omega) (by omega)] at hstep
    rw [Int.ofNat_inj.1 hstep]
    exact iff_of_true rfl (Or.inl ⟨hlow, hhigh⟩)
  · rw [hw, one_mul] at hstep
    have hstep : ((r.kstep a).kstep (-a)).currStep =
        (r.currStep + 2 ^ 64) % r.period := by
      have hcast : (((r.currStep + 2 ^ 64) % r.period : Nat) : Int) =
          (r.currStep + 2 ^ 64) % r.period := by
        push_cast
        rfl
      omega
    rw [hstep]
    exact ⟨Or.inr, fun h' => h'.resolve_left hout⟩

/-- If the word is a multiple of the period, nothing is off. -/
theorem dvd_of_kstep_add (h : Sized r)
    (hadd : ∀ a b, IsLong a → IsLong b → IsLong (a + b) →
      (r.kstep a).kstep b = r.kstep (a + b)) :
    (r.period : Int) ∣ 2 ^ 64 := by
  have hcurr := h.curr
  have hperiod := h.period
  have ha : IsLong (-(r.currStep + 1)) := by unfold IsLong; omega
  have hb : IsLong 1 := by unfold IsLong; omega
  have hab : IsLong (-(r.currStep + 1) + 1) := by unfold IsLong; omega
  -- One more step back than there are, and one forward again.
  rcases (kstep_add_iff h ha hb hab).1 (hadd _ _ ha hb hab) with hdvd | hwraps
  · exact hdvd
  · have hnonneg : 0 ≤ position r.period r.currStep (-(r.currStep + 1)) :=
      Int.emod_nonneg _ (by omega)
    rcases wraps_cases r.currStep (-(r.currStep + 1)) with ⟨h₁, w₁⟩ | ⟨h₁, w₁⟩
    · rcases wraps_cases (position r.period r.currStep (-(r.currStep + 1))) 1
        with ⟨h₂, w₂⟩ | ⟨h₂, w₂⟩
      · omega
      · rcases wraps_cases r.currStep (-(r.currStep + 1) + 1) with
          ⟨h₃, w₃⟩ | ⟨h₃, w₃⟩
        · omega
        · omega
    · omega

end Kstep

theorem sized_run {N : Nat} (hpos : 0 < N) (hN : N * 2 ≤ 2 ^ 31 - 1)
    (marked : List Nat) (ops : List Op) :
    Sized (runState call (make N marked) ops) ∧
      (runState call (make N marked) ops).period = N * 2 := by
  refine runState_invariant (A := fun _ => True)
    (P := fun r => Sized r ∧ r.period = N * 2) ?_
    ⟨sized_make hpos hN marked, rfl⟩ (fun _ _ => trivial)
  intro r op hr _
  cases op with
  | step => exact ⟨hr.1.step, hr.2⟩
  | kstep k => exact ⟨hr.1.kstep k, hr.2⟩

/-- Wherever a ring has got to: two calls do what the call of their sum does
exactly if `2 * N` divides `2 ^ 64` or as many of their sums are below zero as
of its; a call and the opposite one give back the colour exactly if the first
stays between the start and the period, or the colour `2 ^ 64` steps further is
the same. So `kstep` is a group action exactly if `2 * N` divides `2 ^ 64`. -/
theorem kstep_action_iff {N : Nat} (hpos : 0 < N) (hN : N * 2 ≤ 2 ^ 31 - 1)
    (marked : List Nat) (ops : List Op) {r : KacRing}
    (hr : r = runState call (make N marked) ops) :
    (∀ a b, IsLong a → IsLong b → IsLong (a + b) →
      ((r.kstep a).kstep b = r.kstep (a + b) ↔ ((N * 2 : Nat) : Int) ∣ 2 ^ 64 ∨
        wraps r.currStep a + wraps (position (N * 2 : Nat) r.currStep a) b =
          wraps r.currStep (a + b))) ∧
    (∀ a, IsLong a → a ≠ -2 ^ 63 →
      (((r.kstep a).kstep (-a)).color = r.color ↔
        (0 ≤ r.currStep + a ∧ r.currStep + a < (N * 2 : Nat)) ∨
          r.saved.getD ((r.currStep + 2 ^ 64) % (N * 2)) 0 =
            r.saved.getD r.currStep 0)) ∧
    ((∀ a b, IsLong a → IsLong b → IsLong (a + b) →
        (r.kstep a).kstep b = r.kstep (a + b)) ∧
      (∀ a, IsLong a → a ≠ -2 ^ 63 →
        ((r.kstep a).kstep (-a)).color = r.color) ↔
      ((N * 2 : Nat) : Int) ∣ 2 ^ 64) := by
  obtain ⟨hsized, hperiod⟩ := sized_run hpos hN marked ops
  rw [← hr] at hsized hperiod
  rw [← hperiod]
  have hcurr := hsized.curr
  refine ⟨fun a b => kstep_add_iff hsized, fun a => color_kstep_neg_iff hsized,
    ?_, ?_⟩
  · exact fun h => dvd_of_kstep_add hsized h.1
  · intro hdvd
    refine ⟨?_, ?_⟩
    · intro a b ha hb hab
      exact (kstep_add_iff hsized ha hb hab).2 (Or.inl hdvd)
    · intro a ha hmin
      refine (color_kstep_neg_iff hsized ha hmin).2 (Or.inr ?_)
      have hmod : (r.currStep + 2 ^ 64) % r.period = r.currStep := by
        obtain ⟨n, hn⟩ := Int.natCast_dvd_natCast.1 (by exact_mod_cast hdvd :
          ((r.period : Nat) : Int) ∣ ((2 ^ 64 : Nat) : Int))
        rw [hn, Nat.add_mul_mod_self_left, Nat.mod_eq_of_lt hcurr]
      rw [hmod]

/-- A step back from behind the start of a ring of three, and a step forward
again: the index is 4 and not 0. With a position marked the colour shows it. -/
theorem kstep_action_three :
    (((make 3 [0]).kstep (-1)).kstep 1).currStep = 4 ∧
      ((make 3 [0]).kstep (-1 + 1)).currStep = 0 ∧
      (((make 3 [0]).kstep (-1)).kstep (- -1)).color ≠ (make 3 [0]).color := by
  decide +kernel

theorem kstep_action_iff_four :
    ((make 4 [0]).kstep (-5)).kstep 7 = (make 4 [0]).kstep (-5 + 7) := by
  have hdvd : ((4 * 2 : Nat) : Int) ∣ 2 ^ 64 := by decide
  exact ((kstep_action_iff (N := 4) (by decide) (by decide) [0] [] rfl).2.2.2
    hdvd).1 (-5) 7 (by unfold IsLong; omega) (by unfold IsLong; omega)
    (by unfold IsLong; omega)

end LearningCpp.KacRing
