import Mathlib

/-!
# The candidates for the maximum of a window

Positions of a sequence, those that can still become the maximum of a window
that only moves to the right: of two positions the left one cannot once the
right one has as great a value. The candidates of a window are in order of
position and of value both, so the one furthest left is its maximum; a
position that enters drives out candidates at the right end only, and the end
of the window passes them at the left end only.
-/

namespace LearningCpp.Lib

/-- The loop at the front of a list takes out all elements that meet a
condition, if no such element comes after one that does not. -/
theorem dropWhile_eq_filter {α : Type*} {p : α → Bool} {l : List α}
    (h : l.Pairwise (fun a b => p b = true → p a = true)) :
    l.dropWhile p = l.filter (fun a => !p a) := by
  induction l with
  | nil => rfl
  | cons a l ih =>
      obtain ⟨hfirst, hrest⟩ := List.pairwise_cons.1 h
      cases ha : p a with
      | true =>
          rw [List.dropWhile_cons_of_pos ha, ih hrest,
            List.filter_cons_of_neg (by simp [ha])]
      | false =>
          rw [List.dropWhile_cons_of_neg (by simp [ha])]
          refine (List.filter_eq_self.2 ?_).symm
          intro b hb
          rcases List.mem_cons.1 hb with heq | hb
          · rw [heq, ha]
            rfl
          · by_contra hpos
            rw [hfirst b hb (by simpa using hpos)] at ha
            cases ha

/-- The same loop at the back. -/
theorem rdropWhile_eq_filter {α : Type*} {p : α → Bool} {l : List α}
    (h : l.Pairwise (fun a b => p a = true → p b = true)) :
    l.rdropWhile p = l.filter (fun a => !p a) := by
  rw [List.rdropWhile, dropWhile_eq_filter (List.pairwise_reverse.2 h),
    ← List.filter_reverse, List.reverse_reverse]

variable {β : Type*} [LinearOrder β] (value : ℕ → β)

/-- The candidates of the window from `low` to before `high`. -/
structure Candidates (dq : List ℕ) (low high : ℕ) : Prop where
  sorted : dq.Pairwise (fun a b => a < b ∧ value b < value a)
  inside : ∀ j ∈ dq, low ≤ j ∧ j < high
  covers : ∀ j, low ≤ j → j < high → ∃ d ∈ dq, j ≤ d ∧ value j ≤ value d

variable {value} {dq : List ℕ} {low high : ℕ}

theorem Candidates.nil (low : ℕ) : Candidates value [] low low where
  sorted := .nil
  inside := fun _ h => absurd h List.not_mem_nil
  covers := fun j hlow hhigh => absurd hhigh (by omega)

/-- The left end of the window moves. -/
theorem Candidates.expire (h : Candidates value dq low high) {low' : ℕ}
    (hlow : low ≤ low') :
    Candidates value (dq.dropWhile (fun j => decide (j < low'))) low' high := by
  have hfilter := dropWhile_eq_filter (l := dq)
    (p := fun j => decide (j < low')) (h.sorted.imp (by
      intro a b hab hb
      exact decide_eq_true (hab.1.trans (of_decide_eq_true hb))))
  have hmem : ∀ j, j ∈ dq.filter (fun j => !decide (j < low')) ↔
      j ∈ dq ∧ low' ≤ j := by
    intro j
    rw [List.mem_filter]
    simp
  rw [hfilter]
  refine ⟨h.sorted.filter _, ?_, ?_⟩
  · intro j hj
    obtain ⟨hj, hle⟩ := (hmem j).1 hj
    exact ⟨hle, (h.inside j hj).2⟩
  · intro j hj hlt
    obtain ⟨d, hd, hjd, hvalue⟩ := h.covers j (hlow.trans hj) hlt
    exact ⟨d, (hmem d).2 ⟨hd, hj.trans hjd⟩, hjd, hvalue⟩

/-- The right end of the window moves by one. -/
theorem Candidates.enter (h : Candidates value dq low high)
    (hle : low ≤ high) :
    Candidates value
      (dq.rdropWhile (fun j => decide (value j ≤ value high)) ++ [high])
      low (high + 1) := by
  have hfilter := rdropWhile_eq_filter (l := dq)
    (p := fun j => decide (value j ≤ value high)) (h.sorted.imp (by
      intro a b hab ha
      exact decide_eq_true (hab.2.le.trans (of_decide_eq_true ha))))
  have hmem : ∀ j, j ∈ dq.filter (fun j => !decide (value j ≤ value high)) ↔
      j ∈ dq ∧ value high < value j := by
    intro j
    rw [List.mem_filter]
    simp
  rw [hfilter]
  refine ⟨?_, ?_, ?_⟩
  · refine List.pairwise_append.2
      ⟨h.sorted.filter _, List.pairwise_singleton _ _, ?_⟩
    intro a ha b hb
    obtain ⟨ha, hlt⟩ := (hmem a).1 ha
    rw [List.mem_singleton.1 hb]
    exact ⟨(h.inside a ha).2, hlt⟩
  · intro j hj
    rcases List.mem_append.1 hj with hj | hj
    · have hin := h.inside j ((hmem j).1 hj).1
      omega
    · rw [List.mem_singleton.1 hj]
      omega
  · -- what covered a position is either kept or covered by the new one
    intro j hj hlt
    rcases Nat.lt_succ_iff_lt_or_eq.1 hlt with hlt | heq
    · obtain ⟨d, hd, hjd, hvalue⟩ := h.covers j hj hlt
      by_cases hkept : value high < value d
      · exact ⟨d, List.mem_append_left _ ((hmem d).2 ⟨hd, hkept⟩), hjd, hvalue⟩
      · exact ⟨high, List.mem_append_right _ (List.mem_singleton_self _),
          hlt.le, hvalue.trans (not_lt.1 hkept)⟩
    · rw [heq]
      exact ⟨high, List.mem_append_right _ (List.mem_singleton_self _),
        le_refl _, le_refl _⟩

/-- The candidate at the front is the maximum of the window. -/
theorem Candidates.front {front : ℕ} {rest : List ℕ}
    (h : Candidates value (front :: rest) low high) :
    IsGreatest {x | ∃ j, low ≤ j ∧ j < high ∧ value j = x} (value front) := by
  constructor
  · have hin := h.inside front List.mem_cons_self
    exact ⟨front, hin.1, hin.2, rfl⟩
  · intro x hx
    obtain ⟨j, hlow, hhigh, heq⟩ := hx
    obtain ⟨d, hd, _, hvalue⟩ := h.covers j hlow hhigh
    rw [← heq]
    refine hvalue.trans ?_
    rcases List.mem_cons.1 hd with heq | hd
    · rw [heq]
    · exact ((List.pairwise_cons.1 h.sorted).1 d hd).2.le

end LearningCpp.Lib
