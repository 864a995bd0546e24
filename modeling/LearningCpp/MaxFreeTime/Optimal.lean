import LearningCpp.Lib.Calendar
import LearningCpp.Lib.Fold
import LearningCpp.MaxFreeTime.Model

/-!
# Moving one meeting

The passes set the flag of a meeting exactly if it fits into a gap that is not
next to it: the running maximum is at least its length if and only if one of
the gaps gone by is. Both passes are instances of one lemma on a list of
indices in the order of the pass. The last loop then takes the maximum over
the meetings of the time around them.
-/

namespace LearningCpp.MaxFreeTime

open LearningCpp.Lib

/-! ## The passes -/

section Pass

variable {slot gap : ℕ → Int}

theorem passStep_length (s : Int × List Bool) (i : ℕ) :
    (passStep slot gap s i).2.length = s.2.length := by
  simp only [passStep]
  split
  · exact List.length_set
  · rfl

theorem pass_length (is : List ℕ) (s : Int × List Bool) :
    (is.foldl (passStep slot gap) s).2.length = s.2.length := by
  induction is generalizing s with
  | nil => rfl
  | cons i is ih => rw [List.foldl_cons, ih, passStep_length]

theorem passStep_self {s : Int × List Bool} {i : ℕ} (hi : i < s.2.length) :
    (passStep slot gap s i).2.getD i false = true ↔
      s.2.getD i false = true ∨ slot i ≤ s.1 := by
  simp only [passStep]
  split
  · next h => simp [hi, h]
  · next h => simp [h]

theorem passStep_ne {s : Int × List Bool} {i j : ℕ} (hij : i ≠ j) :
    (passStep slot gap s i).2.getD j false = s.2.getD j false := by
  simp only [passStep]
  split
  · simp [List.getElem?_set_ne hij]
  · rfl

theorem pass_notMem {is : List ℕ} {s : Int × List Bool} {i : ℕ}
    (hi : i ∉ is) :
    (is.foldl (passStep slot gap) s).2.getD i false = s.2.getD i false := by
  induction is generalizing s with
  | nil => rfl
  | cons k is ih =>
      rw [List.mem_cons, not_or] at hi
      rw [List.foldl_cons, ih hi.2, passStep_ne (Ne.symm hi.1)]

/-- A pass in the order `r` sets the flag of an index if the longest gap to
begin with, or that of an index before, is at least its slot. -/
theorem pass_flag {r : ℕ → ℕ → Prop} (hr : ∀ i j, r i j → ¬ r j i)
    {is : List ℕ} (his : is.Pairwise r) {s : Int × List Bool} {i : ℕ}
    (hi : i ∈ is) (hlen : i < s.2.length) :
    (is.foldl (passStep slot gap) s).2.getD i false = true ↔
      s.2.getD i false = true ∨ slot i ≤ s.1 ∨
        ∃ j ∈ is, r j i ∧ slot i ≤ gap j := by
  induction is generalizing s with
  | nil => cases hi
  | cons k is ih =>
      obtain ⟨hk, hrest⟩ := List.pairwise_cons.1 his
      rw [List.foldl_cons]
      by_cases hik : i = k
      · subst hik
        have hnotMem : i ∉ is := fun hmem => hr i i (hk i hmem) (hk i hmem)
        rw [pass_notMem hnotMem, passStep_self hlen, ← or_assoc]
        refine ⟨.inl, ?_⟩
        intro h
        rcases h with h | ⟨j, hj, hji, _⟩
        · exact h
        · rcases List.mem_cons.1 hj with heq | hmem
          · subst heq
            exact absurd hji (hr j j hji)
          · exact absurd hji (hr i j (hk j hmem))
      · have hmem : i ∈ is := (List.mem_cons.1 hi).resolve_left hik
        rw [ih hrest hmem (by rwa [passStep_length]),
          passStep_ne (Ne.symm hik)]
        have hmax : slot i ≤ (passStep slot gap s k).1 ↔
            slot i ≤ s.1 ∨ slot i ≤ gap k := le_max_iff
        rw [hmax, or_assoc]
        have hexists : (∃ j ∈ k :: is, r j i ∧ slot i ≤ gap j) ↔
            slot i ≤ gap k ∨ ∃ j ∈ is, r j i ∧ slot i ≤ gap j := by
          simp [hk i hmem]
        rw [hexists]

end Pass

/-! ## The meetings -/

/-- The meetings are sorted and do not overlap, within the event. -/
structure Scheduled (eventTime : Int) (startTime endTime : List Int) :
    Prop where
  length_eq : endTime.length = startTime.length
  nonempty : 0 < startTime.length
  start_nonneg : ∀ i < startTime.length, 0 ≤ startTime.getD i 0
  start_lt_end :
    ∀ i < startTime.length, startTime.getD i 0 < endTime.getD i 0
  end_le_start : ∀ i < startTime.length - 1,
    endTime.getD i 0 ≤ startTime.getD (i + 1) 0
  end_le_eventTime : endTime.getD (startTime.length - 1) 0 ≤ eventTime

variable {eventTime : Int} {startTime endTime : List Int}

/-- The meetings as a calendar. -/
def Scheduled.calendar (h : Scheduled eventTime startTime endTime) :
    Calendar where
  count := startTime.length
  span := eventTime
  start := fun i => startTime.getD i 0
  stop := fun i => endTime.getD i 0
  count_pos := h.nonempty
  start_nonneg := h.start_nonneg 0 h.nonempty
  start_lt_stop := h.start_lt_end
  stop_le_start := fun i hi => h.end_le_start i (by omega)
  stop_le_span := h.end_le_eventTime

/-- The flags after both passes. -/
def flags (eventTime : Int) (startTime endTime : List Int) : List Bool :=
  rightPass eventTime startTime endTime
    (leftPass startTime endTime (List.replicate startTime.length false))

/-- A flag is set if and only if the meeting fits into a gap elsewhere. -/
theorem flags_iff (h : Scheduled eventTime startTime endTime) {i : ℕ}
    (hi : i < startTime.length) :
    (flags eventTime startTime endTime).getD i false = true ↔
      h.calendar.Fits i := by
  have hmem : i ∈ List.range startTime.length := List.mem_range.2 hi
  have hslot : ¬ slotSize startTime endTime i ≤ 0 := by
    have hlong := h.start_lt_end i hi
    unfold slotSize
    omega
  have hdown : (List.range startTime.length).reverse.Pairwise (· > ·) :=
    List.pairwise_reverse.2 List.pairwise_lt_range
  rw [flags, rightPass, pass_flag (fun i j hij => Nat.lt_asymm hij) hdown
      (List.mem_reverse.2 hmem) (by
        rw [leftPass, pass_length, List.length_replicate]
        exact hi),
    leftPass, pass_flag (fun i j hij => Nat.lt_asymm hij)
      List.pairwise_lt_range hmem (by rwa [List.length_replicate])]
  have hnone : (List.replicate startTime.length false).getD i false = false :=
    by simp
  simp only [hslot, hnone, Bool.false_eq_true, false_or, List.mem_reverse,
    List.mem_range]
  constructor
  · intro hpass
    rcases hpass with ⟨j, _, hji, hgap⟩ | ⟨j, hj, hij, hgap⟩
    · exact .inl ⟨j, hji, hgap⟩
    · exact .inr ⟨j, hij, hj, hgap⟩
  · intro hfits
    rcases hfits with ⟨j, hji, hgap⟩ | ⟨j, hij, hj, hgap⟩
    · exact .inl ⟨j, Nat.lt_trans hji hi, hji, hgap⟩
    · exact .inr ⟨j, hj, hij, hgap⟩

theorem around_eq (h : Scheduled eventTime startTime endTime)
    [DecidablePred h.calendar.Fits] {i : ℕ} (hi : i < startTime.length) :
    gap eventTime startTime endTime (flags eventTime startTime endTime) i =
      h.calendar.around i := by
  by_cases hfits : h.calendar.Fits i
  · rw [Calendar.around_of_fits hfits, gap, if_pos ((flags_iff h hi).2 hfits)]
    rfl
  · rw [Calendar.around_of_not_fits hfits, gap,
      if_neg (fun hflag => hfits ((flags_iff h hi).1 hflag))]
    rfl

/-- **`maxFreeTime` is optimal**: some rearrangement has that much free time at
one stretch, and none has more. -/
theorem maxFreeTime_isGreatest (h : Scheduled eventTime startTime endTime) :
    IsGreatest h.calendar.freeTimes
      (maxFreeTime eventTime startTime endTime) := by
  classical
  have hresult : maxFreeTime eventTime startTime endTime =
      (List.range startTime.length).foldl (fun out i => max out
        (gap eventTime startTime endTime
          (flags eventTime startTime endTime) i)) 0 := rfl
  obtain ⟨hmem, hmost⟩ := foldl_max_isGreatest
    (gap eventTime startTime endTime (flags eventTime startTime endTime))
    (List.range startTime.length) 0
  rw [← hresult] at hmem hmost
  have haround : ∀ i < startTime.length,
      h.calendar.around i ≤ maxFreeTime eventTime startTime endTime := by
    intro i hi
    rw [← around_eq h hi]
    exact hmost (.inr ⟨i, List.mem_range.2 hi, rfl⟩)
  constructor
  · rcases hmem with hzero | ⟨i, hi, heq⟩
    · -- Nothing is more than zero, so neither is what is around the first.
      have hfirst := haround 0 h.nonempty
      have hge := Calendar.around_ge (c := h.calendar) h.nonempty
      have hbetween := Calendar.between_le_span (c := h.calendar) h.nonempty
      have heq : maxFreeTime eventTime startTime endTime =
          h.calendar.around 0 := by omega
      rw [heq]
      exact Calendar.around_mem h.nonempty
    · have hlt := List.mem_range.1 hi
      rw [heq, around_eq h hlt]
      exact Calendar.around_mem hlt
  · intro t ht
    obtain ⟨i, hi, hle⟩ := Calendar.exists_around ht
    exact le_trans hle (haround i hi)

theorem scheduled_three : Scheduled 10 [0, 3, 7] [1, 4, 8] where
  length_eq := rfl
  nonempty := by decide
  start_nonneg := by decide
  start_lt_end := by decide
  end_le_start := by decide
  end_le_eventTime := by decide

/-- The second meeting goes to the gap after the third. -/
theorem maxFreeTime_isGreatest_three :
    IsGreatest scheduled_three.calendar.freeTimes 6 := by
  have h := maxFreeTime_isGreatest scheduled_three
  rwa [show maxFreeTime 10 [0, 3, 7] [1, 4, 8] = 6 by decide] at h

end LearningCpp.MaxFreeTime
