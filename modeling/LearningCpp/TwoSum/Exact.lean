import LearningCpp.Lib.Checked
import LearningCpp.Lib.UnorderedMap

/-!
# Two numbers of a sum

`leetcode/easy/1.cpp`. The loop keeps, for every number it has passed, what it
would need to reach the target, and stops at the first number that some earlier
one needs. A key that is written twice keeps the later position, so the pair
that is returned ends as early as any does and begins as late as it can.

The difference `target-nums[i]` is computed for every number that is passed,
also where it does not fit into an `int`. That makes the whole call undefined,
whatever pairs there are behind, and `twoSum_eq_some_iff` says exactly when
that happens. Positions are taken to fit into the `int` that counts them.
-/

namespace LearningCpp.TwoSum

open LearningCpp.Lib

/-! ## The code -/

/-- The loop from position `i` on, with `match`. -/
def loop (target : Int) : ℕ → List Int → UnorderedMap Int ℕ → Option (List ℕ)
  | _, [], _ => some []
  | i, x :: nums, needed =>
      if needed.contains x then some [i, (needed.subscript x).1]
      else do
        let other ← signed 32 (target - x)
        loop target (i + 1) nums (needed.set other i)

def twoSum (nums : List Int) (target : Int) : Option (List ℕ) :=
  loop target 0 nums .empty

/-! ## What it is to return -/

/-- The numbers at two positions add up to the target. -/
def Pair (nums : List Int) (target : Int) (j i : ℕ) : Prop :=
  j < i ∧ ∃ x y, nums[j]? = some x ∧ nums[i]? = some y ∧ x + y = target

/-- No pair ends before this one, and none that ends with it begins later. -/
structure First (nums : List Int) (target : Int) (j i : ℕ) : Prop where
  pair : Pair nums target j i
  ends : ∀ j' i', i' < i → ¬ Pair nums target j' i'
  begins : ∀ j', j < j' → ¬ Pair nums target j' i

/-- Before position `n` the differences fit into an `int`. -/
def DifferencesFit (nums : List Int) (target : Int) (n : ℕ) : Prop :=
  ∀ k < n, ∀ x, nums[k]? = some x → Fits 32 (target - x)

theorem First.unique {nums : List Int} {target : Int} {j i j' i' : ℕ}
    (h : First nums target j i) (h' : First nums target j' i') :
    j = j' ∧ i = i' := by
  have hi : i = i' := by
    rcases lt_trichotomy i i' with hlt | heq | hgt
    · exact absurd h.pair (h'.ends j i hlt)
    · exact heq
    · exact absurd h'.pair (h.ends j' i' hgt)
  subst hi
  refine ⟨?_, rfl⟩
  rcases lt_trichotomy j j' with hlt | heq | hgt
  · exact absurd h'.pair (h.begins j' hlt)
  · exact heq
  · exact absurd h.pair (h'.begins j hgt)

/-! ## The loop -/

/-- The positions of `match` are the last ones of the numbers that are needed. -/
def Last (done : List Int) (target : Int) (needed : UnorderedMap Int ℕ) :
    Prop :=
  ∀ v j, needed v = some j ↔ done[j]? = some (target - v) ∧
    ∀ j', j < j' → done[j']? ≠ some (target - v)

theorem last_nil (target : Int) : Last [] target .empty := by
  intro v j
  simp [UnorderedMap.empty]

theorem Last.snoc {done : List Int} {target : Int}
    {needed : UnorderedMap Int ℕ} (h : Last done target needed) (x : Int) :
    Last (done ++ [x]) target (needed.set (target - x) done.length) := by
  have hold : ∀ k, k < done.length → (done ++ [x])[k]? = done[k]? :=
    fun k hk => List.getElem?_append_left hk
  have hlast : (done ++ [x])[done.length]? = some x := by simp
  have hnone : ∀ k, done.length < k → (done ++ [x])[k]? = none :=
    fun k hk => List.getElem?_eq_none (by simpa using hk)
  intro v j
  rw [UnorderedMap.set_apply]
  by_cases hv : v = target - x
  · -- The number itself is the last one that needs `v`.
    have hx : target - v = x := by omega
    rw [if_pos hv, hx, Option.some.injEq]
    constructor
    · rintro rfl
      refine ⟨hlast, fun j' hj' => ?_⟩
      rw [hnone j' hj']
      exact fun heq => by cases heq
    · rintro ⟨hj, hmax⟩
      rcases lt_trichotomy done.length j with hlt | heq | hgt
      · rw [hnone j hlt] at hj
        cases hj
      · exact heq
      · exact absurd hlast (hmax _ hgt)
  · have hx : x ≠ target - v := by omega
    rw [if_neg hv, h v j]
    constructor
    · rintro ⟨hj, hmax⟩
      have hlt : j < done.length := (List.getElem?_eq_some_iff.1 hj).1
      refine ⟨by rw [hold j hlt]; exact hj, fun j' hj' heq => ?_⟩
      rcases lt_trichotomy done.length j' with hlt' | rfl | hgt
      · rw [hnone j' hlt'] at heq
        cases heq
      · exact hx (Option.some.inj (hlast.symm.trans heq))
      · rw [hold j' hgt] at heq
        exact hmax j' hj' heq
    · rintro ⟨hj, hmax⟩
      have hlt : j < done.length := by
        rcases lt_trichotomy done.length j with hlt | rfl | hgt
        · rw [hnone j hlt] at hj
          cases hj
        · exact absurd (Option.some.inj (hlast.symm.trans hj)) hx
        · exact hgt
      rw [hold j hlt] at hj
      refine ⟨hj, fun j' hj' heq => ?_⟩
      have hlt' : j' < done.length := (List.getElem?_eq_some_iff.1 heq).1
      exact hmax j' hj' (by rw [hold j' hlt']; exact heq)

/-- A number that some number before needs is in `match`. -/
theorem Last.contains {done : List Int} {target x : Int}
    {needed : UnorderedMap Int ℕ} (h : Last done target needed) {j : ℕ}
    (hj : done[j]? = some (target - x)) : needed.contains x = true := by
  have hle : j ≤ done.length :=
    (List.getElem?_eq_some_iff.1 hj).1.le
  refine UnorderedMap.contains_iff.2
    ⟨Nat.findGreatest (fun k => done[k]? = some (target - x)) done.length,
      (h x _).2 ⟨?_, ?_⟩⟩
  · exact Nat.findGreatest_spec
      (P := fun k => done[k]? = some (target - x)) hle hj
  · intro j' hj' heq
    exact Nat.findGreatest_is_greatest hj'
      (List.getElem?_eq_some_iff.1 heq).1.le heq

/-- A pair that ends at the number the loop has come to. -/
theorem pair_here {done rest : List Int} {x target : Int} {j : ℕ} :
    Pair (done ++ x :: rest) target j done.length ↔
      done[j]? = some (target - x) := by
  have hx : (done ++ x :: rest)[done.length]? = some x := by simp
  constructor
  · rintro ⟨hlt, y, z, hy, hz, hsum⟩
    rw [List.getElem?_append_left hlt] at hy
    rw [hx, Option.some.injEq] at hz
    rw [hy, ← hsum, hz, add_sub_cancel_right]
  · intro hj
    have hlt : j < done.length := (List.getElem?_eq_some_iff.1 hj).1
    refine ⟨hlt, target - x, x, ?_, hx, sub_add_cancel _ _⟩
    rw [List.getElem?_append_left hlt]
    exact hj

/-- The loop from where it has found nothing yet. -/
theorem loop_eq_some_iff {target : Int} (rest : List Int) :
    ∀ {done : List Int} {needed : UnorderedMap Int ℕ} {r : List ℕ},
      Last done target needed →
      (∀ j i, i < done.length → ¬ Pair (done ++ rest) target j i) →
      DifferencesFit (done ++ rest) target done.length →
      (loop target done.length rest needed = some r ↔
        (∃ i j, First (done ++ rest) target j i ∧
            DifferencesFit (done ++ rest) target i ∧ r = [i, j]) ∨
          ((∀ j i, ¬ Pair (done ++ rest) target j i) ∧
            DifferencesFit (done ++ rest) target (done ++ rest).length ∧
            r = [])) := by
  induction rest with
  | nil =>
      intro done needed r _ hno hfits
      have hnone : ∀ j i, ¬ Pair (done ++ []) target j i := by
        rintro j i ⟨hji, x, y, hx, hy, hsum⟩
        have hlt : i < done.length := by
          rw [List.append_nil] at hy
          exact (List.getElem?_eq_some_iff.1 hy).1
        exact hno j i hlt ⟨hji, x, y, hx, hy, hsum⟩
      rw [loop, Option.some.injEq]
      constructor
      · rintro rfl
        exact Or.inr ⟨hnone, by rw [List.append_nil] at hfits ⊢; exact hfits,
          rfl⟩
      · rintro (⟨i, j, hfirst, _⟩ | ⟨_, _, rfl⟩)
        · exact absurd hfirst.pair (hnone j i)
        · rfl
  | cons x rest ih =>
      intro done needed r hlast hno hfits
      rw [loop]
      cases hc : needed.contains x with
      | true =>
          obtain ⟨j, hj⟩ := UnorderedMap.contains_iff.1 hc
          obtain ⟨hdone, hmax⟩ := (hlast x j).1 hj
          have hfirst : First (done ++ x :: rest) target j done.length :=
            ⟨pair_here.2 hdone, hno, fun j' hj' hpair =>
              hmax j' hj' (pair_here.1 hpair)⟩
          rw [if_pos rfl, UnorderedMap.subscript_of_some hj, Option.some.injEq]
          constructor
          · rintro rfl
            exact Or.inl ⟨_, _, hfirst, hfits, rfl⟩
          · rintro (⟨i, j', hfirst', _, rfl⟩ | ⟨hnone, _⟩)
            · obtain ⟨rfl, rfl⟩ := hfirst.unique hfirst'
              rfl
            · exact absurd hfirst.pair (hnone _ _)
      | false =>
          have hhere : ∀ j, ¬ Pair (done ++ x :: rest) target j
              done.length := by
            intro j hpair
            rw [hlast.contains (pair_here.1 hpair)] at hc
            cases hc
          have hx : (done ++ x :: rest)[done.length]? = some x := by simp
          have happend : done ++ x :: rest = (done ++ [x]) ++ rest := by simp
          have hlength : (done ++ [x]).length = done.length + 1 := by simp
          rw [if_neg Bool.false_ne_true]
          by_cases hfit : Fits 32 (target - x)
          · -- The loop goes on with one more number that ends no pair.
            rw [signed_of_fits hfit]
            have hno' : ∀ j i, i < (done ++ [x]).length →
                ¬ Pair ((done ++ [x]) ++ rest) target j i := by
              intro j i hi
              rw [← happend]
              rw [hlength] at hi
              rcases Nat.lt_succ_iff_lt_or_eq.1 hi with hi | rfl
              · exact hno j i hi
              · exact hhere j
            have hfits' : DifferencesFit ((done ++ [x]) ++ rest) target
                (done ++ [x]).length := by
              intro k hk y hy
              rw [← happend] at hy
              rw [hlength] at hk
              rcases Nat.lt_succ_iff_lt_or_eq.1 hk with hk | rfl
              · exact hfits k hk y hy
              · obtain rfl : x = y := Option.some.inj (hx.symm.trans hy)
                exact hfit
            have hrest := ih (r := r) (hlast.snoc x) hno' hfits'
            rw [hlength, ← happend] at hrest
            exact hrest
          · rw [signed, if_neg hfit]
            refine iff_of_false (fun h => by cases h) ?_
            rintro (⟨i, j, hfirst, hall, _⟩ | ⟨_, hall, _⟩)
            · have hlt : done.length < i := by
                rcases lt_trichotomy i done.length with hi | rfl | hi
                · exact absurd hfirst.pair (hno j i hi)
                · exact absurd hfirst.pair (hhere j)
                · exact hi
              exact hfit (hall _ hlt x hx)
            · exact hfit (hall _ (by simp) x hx)

/-- **The call is defined, and returns a list, in exactly two cases.** The
first pair there is, by its end and then the latest beginning, is returned if
the differences of all numbers before its end fit into an `int`; and where
there is no pair nothing is, if all differences fit. -/
theorem twoSum_eq_some_iff (nums : List Int) (target : Int) (r : List ℕ) :
    twoSum nums target = some r ↔
      (∃ i j, First nums target j i ∧ DifferencesFit nums target i ∧
          r = [i, j]) ∨
        ((∀ j i, ¬ Pair nums target j i) ∧
          DifferencesFit nums target nums.length ∧ r = []) :=
  @loop_eq_some_iff target nums [] _ r (last_nil target)
    (fun _ _ h => absurd h (Nat.not_lt_zero _))
    (fun _ h => absurd h (Nat.not_lt_zero _))

/-- The pair that ends first, and of its beginnings the last. -/
example : twoSum [3, 3, 4, 3] 7 = some [2, 1] := by decide

end LearningCpp.TwoSum
