import Mathlib.Data.Int.Order.Basic
import Mathlib.Logic.Function.Basic
import Mathlib.Tactic.Cases

/-!
# Meetings in order

Meetings one after the other in a span of time, of which one may be moved to
where there is room for it. The longest free time this leaves is found by
looking at the meetings one by one: next to a meeting there is the time between
its neighbours, all of it if the meeting fits into a gap elsewhere, and less its
own length if not.

The main tool is a scan: an interval that does not meet the first so many
meetings lies in a gap before one of them or after them all.
-/

namespace LearningCpp.Lib

/-- At least one meeting, in order and apart, from time zero to time `span`. -/
structure Calendar where
  count : ℕ
  span : Int
  start : ℕ → Int
  stop : ℕ → Int
  count_pos : 0 < count
  start_nonneg : 0 ≤ start 0
  start_lt_stop : ∀ i, i < count → start i < stop i
  stop_le_start : ∀ i, i + 1 < count → stop i ≤ start (i + 1)
  stop_le_span : stop (count - 1) ≤ span

namespace Calendar

variable (c : Calendar)

/-- When the meeting before ends. -/
def left (i : ℕ) : Int := if i = 0 then 0 else c.stop (i - 1)

/-- When the meeting after starts. -/
def right (i : ℕ) : Int :=
  if i = c.count - 1 then c.span else c.start (i + 1)

def length (i : ℕ) : Int := c.stop i - c.start i

/-- The times the meetings are at are the given ones, but that one meeting may
be at another time, at which it meets none of the others. -/
def Rearranged (start stop : ℕ → Int) : Prop :=
  (start = c.start ∧ stop = c.stop) ∨
    ∃ i < c.count, ∃ time, 0 ≤ time ∧ time + c.length i ≤ c.span ∧
      (∀ j < c.count, j ≠ i →
        time + c.length i ≤ c.start j ∨ c.stop j ≤ time) ∧
      start = Function.update c.start i time ∧
      stop = Function.update c.stop i (time + c.length i)

/-- No meeting is on between the two times. -/
def Free (start stop : ℕ → Int) (a b : Int) : Prop :=
  (0 ≤ a ∧ a ≤ b ∧ b ≤ c.span) ∧ ∀ i < c.count, stop i ≤ a ∨ b ≤ start i

/-- The free times of all rearrangements. -/
def freeTimes : Set Int :=
  {t | ∃ start stop, c.Rearranged start stop ∧
    ∃ a b, c.Free start stop a b ∧ t = b - a}

/-- There is room for the meeting in a gap that is not next to it. -/
def Fits (i : ℕ) : Prop :=
  (∃ j < i, c.length i ≤ c.start j - c.left j) ∨
    ∃ j, i < j ∧ j < c.count ∧ c.length i ≤ c.right j - c.stop j

/-- The free time next to a meeting once it is out of the way. -/
def around (i : ℕ) [Decidable (c.Fits i)] : Int :=
  c.right i - c.left i - if c.Fits i then 0 else c.length i

variable {c} {i j : ℕ} {a b : Int}

theorem left_succ : c.left (i + 1) = c.stop i := rfl

theorem right_last (h : i + 1 = c.count) : c.right i = c.span :=
  if_pos (by omega)

theorem right_of_lt (h : i + 1 < c.count) : c.right i = c.start (i + 1) :=
  if_neg (by omega)

/-! ## The order of the meetings -/

theorem stop_le_start_of_lt (hij : i < j) (hj : j < c.count) :
    c.stop i ≤ c.start j := by
  induction j with
  | zero => omega
  | succ j ih =>
      have hnext := c.stop_le_start j hj
      rcases Nat.lt_or_eq_of_le (Nat.le_of_lt_succ hij) with hlt | heq
      · have hbefore := ih hlt (by omega)
        have hlong := c.start_lt_stop j (by omega)
        omega
      · rw [heq]
        exact hnext

theorem start_le_start (hij : i ≤ j) (hj : j < c.count) :
    c.start i ≤ c.start j := by
  rcases Nat.lt_or_eq_of_le hij with hlt | heq
  · have hlong := c.start_lt_stop i (by omega)
    have hbefore := stop_le_start_of_lt hlt hj
    omega
  · rw [heq]

theorem stop_le_stop (hij : i ≤ j) (hj : j < c.count) :
    c.stop i ≤ c.stop j := by
  rcases Nat.lt_or_eq_of_le hij with hlt | heq
  · have hlong := c.start_lt_stop j hj
    have hbefore := stop_le_start_of_lt hlt hj
    omega
  · rw [heq]

theorem stop_le_left (hij : i < j) (hj : j < c.count) :
    c.stop i ≤ c.left j := by
  cases j with
  | zero => omega
  | succ j =>
      rw [left_succ]
      exact stop_le_stop (Nat.le_of_lt_succ hij) (by omega)

theorem right_le_start (hij : i < j) (hj : j < c.count) :
    c.right i ≤ c.start j := by
  rw [right_of_lt (by omega)]
  exact start_le_start hij hj

theorem left_le_start (hi : i < c.count) : c.left i ≤ c.start i := by
  cases i with
  | zero => exact c.start_nonneg
  | succ i => exact c.stop_le_start i hi

theorem stop_le_right (hi : i < c.count) : c.stop i ≤ c.right i := by
  by_cases hlast : i + 1 = c.count
  · rw [right_last hlast]
    have hspan := c.stop_le_span
    rwa [← hlast, Nat.add_sub_cancel] at hspan
  · rw [right_of_lt (by omega)]
    exact c.stop_le_start i (by omega)

theorem left_nonneg (hi : i < c.count) : 0 ≤ c.left i := by
  induction i with
  | zero => exact le_refl 0
  | succ i ih =>
      have hbefore := ih (by omega)
      have hleft := left_le_start (c := c) (i := i) (by omega)
      have hlong := c.start_lt_stop i (by omega)
      rw [left_succ]
      omega

theorem stop_le_span_of_lt (hi : i < c.count) : c.stop i ≤ c.span :=
  le_trans (stop_le_stop (by omega) (Nat.sub_lt c.count_pos Nat.one_pos))
    c.stop_le_span

theorem right_le_span (hi : i < c.count) : c.right i ≤ c.span := by
  by_cases hlast : i + 1 = c.count
  · rw [right_last hlast]
  · have hnext := stop_le_span_of_lt (c := c) (i := i + 1) (by omega)
    have hlong := c.start_lt_stop (i + 1) (by omega)
    rw [right_of_lt (by omega)]
    omega

theorem length_pos (hi : i < c.count) : 0 < c.length i :=
  Int.sub_pos_of_lt (c.start_lt_stop i hi)

/-! ## Scanning for an interval -/

/-- An interval apart from the meetings before `i` is in the gap before one of
them, or after them all. -/
theorem scan_left (i : ℕ) (ha : 0 ≤ a)
    (hapart : ∀ j < i, c.stop j ≤ a ∨ b ≤ c.start j) :
    (∃ j < i, c.left j ≤ a ∧ b ≤ c.start j) ∨ c.left i ≤ a := by
  induction i with
  | zero => exact .inr ha
  | succ i ih =>
      rcases ih (fun j hj => hapart j (by omega)) with ⟨j, hj, hgap⟩ | hleft
      · exact .inl ⟨j, by omega, hgap⟩
      · rcases hapart i (by omega) with hstop | hstart
        · exact .inr hstop
        · exact .inl ⟨i, by omega, hleft, hstart⟩

/-- The same from the other end, for the last `k` meetings. -/
theorem scan_right (k i : ℕ) (hi : i + k + 1 = c.count) (hb : b ≤ c.span)
    (hapart : ∀ j, i < j → j < c.count → c.stop j ≤ a ∨ b ≤ c.start j) :
    (∃ j, i < j ∧ j < c.count ∧ c.stop j ≤ a ∧ b ≤ c.right j) ∨
      b ≤ c.right i := by
  induction k generalizing i with
  | zero =>
      right
      rw [right_last (by omega)]
      exact hb
  | succ k ih =>
      rcases ih (i + 1) (by omega)
          (fun j hij hj => hapart j (by omega) hj) with ⟨j, hij, hgap⟩ | hright
      · exact .inl ⟨j, by omega, hgap⟩
      · rcases hapart (i + 1) (by omega) (by omega) with hstop | hstart
        · exact .inl ⟨i + 1, by omega, by omega, hstop, hright⟩
        · right
          rw [right_of_lt (by omega)]
          exact hstart

/-- An interval apart from all meetings is next to one. -/
theorem exists_gap (h : c.Free c.start c.stop a b) :
    ∃ i < c.count, b - a ≤ c.start i - c.left i ∨
      b - a ≤ c.right i - c.stop i := by
  obtain ⟨⟨ha, _, hb⟩, hapart⟩ := h
  rcases scan_left c.count ha hapart with ⟨i, hi, hgap⟩ | hlast
  · exact ⟨i, hi, .inl (by omega)⟩
  · have hpos := c.count_pos
    have hstop : c.stop (c.count - 1) ≤ a := by
      rw [← left_succ, Nat.sub_add_cancel hpos]
      exact hlast
    refine ⟨c.count - 1, by omega, .inr ?_⟩
    rw [right_last (by omega)]
    omega

/-- A place for a meeting apart from the others is between its neighbours, or
there is a gap it fits into that is not next to it. -/
theorem between_or_fits {time : Int} (hi : i < c.count) (htime : 0 ≤ time)
    (hspan : time + c.length i ≤ c.span)
    (hapart : ∀ j < c.count, j ≠ i →
      time + c.length i ≤ c.start j ∨ c.stop j ≤ time) :
    c.Fits i ∨ (c.left i ≤ time ∧ time + c.length i ≤ c.right i) := by
  have hswap : ∀ j < c.count, j ≠ i →
      c.stop j ≤ time ∨ time + c.length i ≤ c.start j :=
    fun j hj hji => (hapart j hj hji).symm
  rcases scan_left i htime (fun j hj => hswap j (by omega) (by omega))
    with ⟨j, hj, hgap⟩ | hleft
  · exact .inl (.inl ⟨j, hj, by omega⟩)
  rcases scan_right (c.count - i - 1) i (by omega) hspan
      (fun j hij hj => hswap j hj (by omega)) with ⟨j, hij, hj, hgap⟩ | hright
  · exact .inl (.inr ⟨j, hij, hj, by omega⟩)
  · exact .inr ⟨hleft, hright⟩

/-! ## Moving a meeting -/

/-- A meeting moved into an interval that is apart from the others leaves an
interval free that is apart from the others and from it. -/
theorem mem_freeTimes_of_move (time : Int) (hi : i < c.count)
    (htime : 0 ≤ time) (hspan : time + c.length i ≤ c.span)
    (hapart : ∀ j < c.count, j ≠ i →
      time + c.length i ≤ c.start j ∨ c.stop j ≤ time)
    (hab : 0 ≤ a ∧ a ≤ b ∧ b ≤ c.span)
    (hself : time + c.length i ≤ a ∨ b ≤ time)
    (hothers : ∀ j < c.count, j ≠ i → c.stop j ≤ a ∨ b ≤ c.start j) :
    b - a ∈ c.freeTimes := by
  refine ⟨_, _, .inr ⟨i, hi, time, htime, hspan, hapart, rfl, rfl⟩, a, b,
    ⟨hab, ?_⟩, rfl⟩
  intro j hj
  by_cases hji : j = i
  · rw [hji, Function.update_self, Function.update_self]
    exact hself
  · rw [Function.update_of_ne hji, Function.update_of_ne hji]
    exact hothers j hj hji

/-- The time between the neighbours is apart from the other meetings. -/
theorem between_apart (hi : i < c.count) (hleft : c.left i ≤ a)
    (hright : b ≤ c.right i) :
    ∀ j < c.count, j ≠ i → c.stop j ≤ a ∨ b ≤ c.start j := by
  intro j hj hji
  rcases Nat.lt_or_gt_of_ne hji with hlt | hgt
  · exact .inl (le_trans (stop_le_left hlt hi) hleft)
  · exact .inr (le_trans hright (right_le_start hgt hj))

theorem between_le_span (hi : i < c.count) :
    0 ≤ c.left i ∧ c.left i + c.length i ≤ c.right i ∧
      c.right i ≤ c.span := by
  have hleft := left_le_start hi
  have hright := stop_le_right hi
  have hlen : c.length i = c.stop i - c.start i := rfl
  exact ⟨left_nonneg hi, by omega, right_le_span hi⟩

/-! ## The optimum -/

variable [DecidablePred c.Fits]

theorem around_of_fits (h : c.Fits i) :
    c.around i = c.right i - c.left i := by
  rw [around, if_pos h, Int.sub_zero]

theorem around_of_not_fits (h : ¬ c.Fits i) :
    c.around i = c.right i - c.left i - c.length i := by
  rw [around, if_neg h]

theorem around_ge (hi : i < c.count) :
    c.right i - c.left i - c.length i ≤ c.around i := by
  have hlong := length_pos hi
  by_cases h : c.Fits i
  · rw [around_of_fits h]
    omega
  · rw [around_of_not_fits h]

/-- A free time of the meetings as they are. -/
theorem exists_around_of_free (h : c.Free c.start c.stop a b) :
    ∃ i < c.count, b - a ≤ c.around i := by
  obtain ⟨i, hi, hgap⟩ := exists_gap h
  have hge := around_ge hi
  have hleft := left_le_start hi
  have hright := stop_le_right hi
  have hlen : c.length i = c.stop i - c.start i := rfl
  refine ⟨i, hi, ?_⟩
  omega

/-- No rearrangement has a free time longer than what is around a meeting. -/
theorem exists_around {t : Int} (h : t ∈ c.freeTimes) :
    ∃ i < c.count, t ≤ c.around i := by
  obtain ⟨start, stop, hmoved, a, b, ⟨hab, hfree⟩, heq⟩ := h
  rw [heq]
  rcases hmoved with ⟨hstart, hstop⟩ | ⟨i, hi, time, htime, hspan, hapart,
    hstart, hstop⟩
  · rw [hstart, hstop] at hfree
    exact exists_around_of_free ⟨hab, hfree⟩
  have hself := hfree i hi
  rw [hstart, hstop, Function.update_self, Function.update_self] at hself
  have hothers : ∀ j < c.count, j ≠ i → c.stop j ≤ a ∨ b ≤ c.start j := by
    intro j hj hji
    have hother := hfree j hj
    rwa [hstart, hstop, Function.update_of_ne hji, Function.update_of_ne hji]
      at hother
  by_cases hold : c.stop i ≤ a ∨ b ≤ c.start i
  · -- The interval was free before the meeting moved.
    refine exists_around_of_free ⟨hab, ?_⟩
    intro j hj
    by_cases hji : j = i
    · rw [hji]
      exact hold
    · exact hothers j hj hji
  -- It has some of the old time of the meeting, so it is between its neighbours.
  have hleft : c.left i ≤ a := by
    rcases scan_left i hab.1 (fun j hj => hothers j (by omega) (by omega))
      with ⟨j, hj, _, hgap⟩ | hleft
    · have hbefore := start_le_start (c := c) (Nat.le_of_lt hj) hi
      omega
    · exact hleft
  have hright : b ≤ c.right i := by
    rcases scan_right (c.count - i - 1) i (by omega) hab.2.2
      (fun j hij hj => hothers j hj (by omega)) with ⟨j, hij, hj, hgap, _⟩ | hr
    · have hafter := stop_le_stop (c := c) (Nat.le_of_lt hij) hj
      omega
    · exact hr
  refine ⟨i, hi, ?_⟩
  by_cases hfits : c.Fits i
  · rw [around_of_fits hfits]
    omega
  · rw [around_of_not_fits hfits]
    have hbetween :=
      (between_or_fits hi htime hspan hapart).resolve_left hfits
    omega

/-- What is around a meeting can be had, by moving it to the gap it fits into
or up to the meeting before. -/
theorem around_mem (hi : i < c.count) : c.around i ∈ c.freeTimes := by
  obtain ⟨hnonneg, hlong, hspan⟩ := between_le_span hi
  have hpos := length_pos hi
  have hall := between_apart hi (le_refl (c.left i)) (le_refl (c.right i))
  by_cases hfits : c.Fits i
  · rw [around_of_fits hfits]
    have hin : 0 ≤ c.left i ∧ c.left i ≤ c.right i ∧ c.right i ≤ c.span :=
      ⟨hnonneg, by omega, hspan⟩
    rcases hfits with ⟨j, hji, hgap⟩ | ⟨j, hij, hj, hgap⟩
    · have hj : j < c.count := Nat.lt_trans hji hi
      have hbefore := stop_le_left hji hi
      have hstart := c.start_lt_stop j hj
      refine mem_freeTimes_of_move (c.left j) hi (left_nonneg hj)
        (by omega) ?_ hin (.inl (by omega)) hall
      intro k hk hki
      rcases Nat.lt_or_ge k j with hkj | hjk
      · exact .inr (stop_le_left hkj hj)
      · have hafter := start_le_start hjk hk
        exact .inl (by omega)
    · have hafter := right_le_start hij hj
      have hstop := c.start_lt_stop j hj
      have hend := right_le_span hj
      have hnonneg' := left_nonneg hj
      have hleft' := left_le_start hj
      refine mem_freeTimes_of_move (c.stop j) hi (by omega)
        (by omega) ?_ hin (.inr (by omega)) hall
      intro k hk hki
      rcases Nat.lt_or_ge j k with hjk | hkj
      · have hnext := right_le_start hjk hk
        exact .inl (by omega)
      · exact .inr (stop_le_stop hkj hj)
  · rw [around_of_not_fits hfits,
      show c.right i - c.left i - c.length i =
        c.right i - (c.left i + c.length i) by omega]
    refine mem_freeTimes_of_move (c.left i) hi hnonneg (by omega) ?_
      ⟨by omega, hlong, hspan⟩ (.inl (le_refl _))
      (between_apart hi (by omega) (le_refl _))
    intro j hj hji
    rcases hall j hj hji with hstop | hstart
    · exact .inr hstop
    · exact .inl (le_trans hlong hstart)

end Calendar

end LearningCpp.Lib
