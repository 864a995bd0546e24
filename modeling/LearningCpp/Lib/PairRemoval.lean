import Mathlib.Data.List.Chain
import Mathlib.Tactic.Cases

/-!
# Removing adjacent pairs

Words from which a letter `a` and the letter `b` next to it may be taken out
together, in either order, over and over. Two numbers of a word say how far any
sequence of removals can go: `matched`, which every removal of `ab` lowers by
one and none of `ba` raises, and `pairs`, which every removal lowers by one.
Both are zero where nothing is left to remove.
-/

namespace LearningCpp.Lib

variable {α : Type*}

/-- The word goes to another by removing `ab` so many times and `ba` so many
times, in some order. -/
inductive Removes (a b : α) : List α → ℕ → ℕ → List α → Prop
  | done (w : List α) : Removes a b w 0 0 w
  | ab (u v : List α) {p q : ℕ} {w : List α} :
      Removes a b (u ++ v) p q w → Removes a b (u ++ a :: b :: v) (p + 1) q w
  | ba (u v : List α) {p q : ℕ} {w : List α} :
      Removes a b (u ++ v) p q w → Removes a b (u ++ b :: a :: v) p (q + 1) w

/-- Nowhere in the word is `b` right after `a`. -/
def NoPair (a b : α) (w : List α) : Prop :=
  w.IsChain (fun c d => ¬ (c = a ∧ d = b))

variable {a b : α}

theorem Removes.swap {u w : List α} {p q : ℕ} (h : Removes a b u p q w) :
    Removes b a u q p w := by
  induction h with
  | done w => exact .done w
  | ab u v _ ih => exact .ba u v ih
  | ba u v _ ih => exact .ab u v ih

theorem Removes.trans {u v w : List α} {p q p' q' : ℕ}
    (h : Removes a b u p q v) (h' : Removes a b v p' q' w) :
    Removes a b u (p + p') (q + q') w := by
  induction h with
  | done v =>
      rw [Nat.zero_add, Nat.zero_add]
      exact h'
  | ab u v _ ih =>
      rw [Nat.add_right_comm _ 1 p']
      exact .ab u v (ih h')
  | ba u v _ ih =>
      rw [Nat.add_right_comm _ 1 q']
      exact .ba u v (ih h')

/-- Taking out a `ba` where there is no `ab` leaves none. -/
theorem NoPair.of_ba {u v : List α} (h : NoPair a b (u ++ b :: a :: v)) :
    NoPair a b (u ++ v) := by
  obtain ⟨hu, hv, hjoin⟩ := List.isChain_append.1 h
  refine List.isChain_append.2 ⟨hu, hv.tail.tail, ?_⟩
  intro c hc d hd hcd
  exact hjoin c hc b rfl ⟨hcd.1, rfl⟩

theorem NoPair.removes {u w : List α} {p q : ℕ} (h : Removes a b u p q w)
    (hnone : p = 0) (hu : NoPair a b u) : NoPair a b w := by
  induction h with
  | done w => exact hu
  | ab u v _ ih => omega
  | ba u v _ ih => exact ih hnone hu.of_ba

variable [DecidableEq α]

/-- How many `ab` come out of the word, the ones that form along the way
included, after so many letters `a` that wait for their `b`. -/
def matched (a b : α) : ℕ → List α → ℕ
  | _, [] => 0
  | waiting, c :: w =>
      if c = a then matched a b (waiting + 1) w
      else if c = b then
        match waiting with
        | 0 => matched a b 0 w
        | waiting + 1 => matched a b waiting w + 1
      else matched a b 0 w

/-- The smaller of the numbers of `a` and of `b`, added up over the stretches
between other letters, with what the current stretch has had before. -/
def pairs (a b : α) : ℕ → ℕ → List α → ℕ
  | m, n, [] => min m n
  | m, n, c :: w =>
      if c = a then pairs a b (m + 1) n w
      else if c = b then pairs a b m (n + 1) w
      else min m n + pairs a b 0 0 w

/-! ## What a removal does to `matched` -/

theorem matched_le_succ (w : List α) (j : ℕ) :
    matched a b j w ≤ matched a b (j + 1) w := by
  induction w generalizing j with
  | nil => exact Nat.le_refl _
  | cons c w ih =>
      simp only [matched]
      split
      · exact ih (j + 1)
      · split
        · cases j with
          | zero => exact Nat.le_succ _
          | succ j => exact Nat.succ_le_succ (ih j)
        · exact Nat.le_refl _

/-- What comes before two words does not matter to how their numbers relate,
for a relation that adding one to both keeps. -/
theorem matched_append {r : ℕ → ℕ → Prop}
    (hr : ∀ m n, r m n → r (m + 1) (n + 1)) {v v' : List α}
    (h : ∀ j, r (matched a b j v) (matched a b j v')) (u : List α) (j : ℕ) :
    r (matched a b j (u ++ v)) (matched a b j (u ++ v')) := by
  induction u generalizing j with
  | nil => exact h j
  | cons c u ih =>
      simp only [List.cons_append, matched]
      split
      · exact ih (j + 1)
      · split
        · cases j with
          | zero => exact ih 0
          | succ j => exact hr _ _ (ih j)
        · exact ih 0

theorem matched_ab (hab : a ≠ b) (u v : List α) (j : ℕ) :
    matched a b j (u ++ a :: b :: v) = matched a b j (u ++ v) + 1 := by
  refine matched_append (r := fun m n => n = m + 1) ?_ ?_ u j
  · intro m n h
    rw [h]
  · intro j
    simp only [matched, if_pos, if_neg hab.symm]

theorem matched_ba (hab : a ≠ b) (u v : List α) (j : ℕ) :
    matched a b j (u ++ v) ≤ matched a b j (u ++ b :: a :: v) := by
  refine matched_append (r := fun m n => m ≤ n) ?_ ?_ u j
  · exact fun m n => Nat.succ_le_succ
  · intro j
    simp only [matched, if_pos, if_neg hab.symm]
    cases j with
    | zero => exact matched_le_succ v 0
    | succ j => exact Nat.le_succ _

/-- No sequence of removals has more `ab` than `matched` counts. -/
theorem Removes.matched_le (hab : a ≠ b) {u w : List α} {p q : ℕ}
    (h : Removes a b u p q w) :
    p + matched a b 0 w ≤ matched a b 0 u := by
  induction h with
  | done w => omega
  | ab u v _ ih =>
      have hstep := matched_ab hab u v 0
      omega
  | ba u v _ ih =>
      have hstep := matched_ba hab u v 0
      omega

/-- One that removes nothing but `ab` loses none of them. -/
theorem Removes.matched_eq (hab : a ≠ b) {u w : List α} {p q : ℕ}
    (h : Removes a b u p q w) (hnone : q = 0) :
    p + matched a b 0 w = matched a b 0 u := by
  induction h with
  | done w => omega
  | ab u v _ ih =>
      have hstep := matched_ab hab u v 0
      have hrest := ih hnone
      omega
  | ba u v _ ih => omega

theorem matched_eq_zero_of_waiting (w : List α) (j : ℕ) (h : NoPair a b w)
    (hhead : 0 < j → ∀ c ∈ w.head?, c ≠ b) : matched a b j w = 0 := by
  induction w generalizing j with
  | nil => rfl
  | cons c w ih =>
      obtain ⟨hnext, htail⟩ := List.isChain_cons.1 h
      simp only [matched]
      split
      · next ha =>
          refine ih (j + 1) htail ?_
          intro _ d hd hdb
          exact hnext d hd ⟨ha, hdb⟩
      · split
        · next hb =>
            cases j with
            | zero => exact ih 0 htail (fun h0 => absurd h0 (Nat.lt_irrefl 0))
            | succ j => exact absurd hb (hhead (Nat.succ_pos j) c rfl)
        · exact ih 0 htail (fun h0 => absurd h0 (Nat.lt_irrefl 0))

theorem matched_eq_zero {w : List α} (h : NoPair a b w) :
    matched a b 0 w = 0 :=
  matched_eq_zero_of_waiting w 0 h (fun h0 => absurd h0 (Nat.lt_irrefl 0))

/-! ## What a removal does to `pairs` -/

theorem pairs_succ (w : List α) (m n : ℕ) :
    pairs a b (m + 1) (n + 1) w = pairs a b m n w + 1 := by
  induction w generalizing m n with
  | nil => simp only [pairs]; omega
  | cons c w ih =>
      simp only [pairs]
      split
      · exact ih (m + 1) n
      · split
        · exact ih m (n + 1)
        · omega

/-- What comes before does not matter here either. -/
theorem pairs_append {v v' : List α}
    (h : ∀ m n, pairs a b m n v' = pairs a b m n v + 1) (u : List α)
    (m n : ℕ) : pairs a b m n (u ++ v') = pairs a b m n (u ++ v) + 1 := by
  induction u generalizing m n with
  | nil => exact h m n
  | cons c u ih =>
      simp only [List.cons_append, pairs, ih]
      split
      · rfl
      · split
        · rfl
        · omega

theorem pairs_ab (hab : a ≠ b) (u v : List α) (m n : ℕ) :
    pairs a b m n (u ++ a :: b :: v) = pairs a b m n (u ++ v) + 1 := by
  refine pairs_append ?_ u m n
  intro m n
  simp only [pairs, if_pos, if_neg hab.symm]
  exact pairs_succ v m n

theorem pairs_ba (hab : a ≠ b) (u v : List α) (m n : ℕ) :
    pairs a b m n (u ++ b :: a :: v) = pairs a b m n (u ++ v) + 1 := by
  refine pairs_append ?_ u m n
  intro m n
  simp only [pairs, if_pos, if_neg hab.symm]
  exact pairs_succ v m n

/-- Every sequence of removals takes `pairs` down by its length. -/
theorem Removes.pairs_eq (hab : a ≠ b) {u w : List α} {p q : ℕ}
    (h : Removes a b u p q w) :
    p + q + pairs a b 0 0 w = pairs a b 0 0 u := by
  induction h with
  | done w => omega
  | ab u v _ ih =>
      have hstep := pairs_ab hab u v 0 0
      omega
  | ba u v _ ih =>
      have hstep := pairs_ba hab u v 0 0
      omega

theorem pairs_eq_zero_of_before (w : List α) (m n : ℕ) (hmn : m = 0 ∨ n = 0)
    (hab : NoPair a b w) (hba : NoPair b a w)
    (hm : 0 < m → ∀ c ∈ w.head?, c ≠ b)
    (hn : 0 < n → ∀ c ∈ w.head?, c ≠ a) : pairs a b m n w = 0 := by
  induction w generalizing m n with
  | nil => simp only [pairs]; omega
  | cons c w ih =>
      obtain ⟨hnext, htail⟩ := List.isChain_cons.1 hab
      obtain ⟨hnext', htail'⟩ := List.isChain_cons.1 hba
      simp only [pairs]
      split
      · next ha =>
          have hn0 : n = 0 := by
            by_contra hpos
            exact hn (Nat.pos_of_ne_zero hpos) c rfl ha
          refine ih (m + 1) n (.inr hn0) htail htail' ?_ (by omega)
          intro _ d hd hdb
          exact hnext d hd ⟨ha, hdb⟩
      · split
        · next hb =>
            have hm0 : m = 0 := by
              by_contra hpos
              exact hm (Nat.pos_of_ne_zero hpos) c rfl hb
            refine ih m (n + 1) (.inl hm0) htail htail' (by omega) ?_
            intro _ d hd hda
            exact hnext' d hd ⟨hb, hda⟩
        · rw [ih 0 0 (.inl rfl) htail htail' (by omega) (by omega)]
          omega

theorem pairs_eq_zero {w : List α} (hab : NoPair a b w) (hba : NoPair b a w) :
    pairs a b 0 0 w = 0 :=
  pairs_eq_zero_of_before w 0 0 (.inl rfl) hab hba (by omega) (by omega)

/-! ## The order of the removals -/

/-- Removing every `ab` first and every `ba` then removes as many `ab` as any
other sequence, and as many pairs. -/
theorem Removes.exhaustive_ge (hab : a ≠ b) {s v w t : List α} {P Q p q : ℕ}
    (hfirst : Removes a b s P 0 v) (hv : NoPair a b v)
    (hsecond : Removes a b v 0 Q w) (hw : NoPair b a w)
    (hany : Removes a b s p q t) : p ≤ P ∧ p + q ≤ P + Q := by
  have hmatched := hfirst.matched_eq hab rfl
  have hpairs := (hfirst.trans hsecond).pairs_eq hab
  have hmost := hany.matched_le hab
  have htotal := hany.pairs_eq hab
  rw [matched_eq_zero hv] at hmatched
  rw [pairs_eq_zero (NoPair.removes hsecond rfl hv) hw] at hpairs
  constructor <;> omega

end LearningCpp.Lib
