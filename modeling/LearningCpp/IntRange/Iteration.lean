import LearningCpp.Lib.Checked
import LearningCpp.Lib.Fold

/-!
# Integer ranges

`get_cracked/design_patterns/iterator/main.cpp`. A range has its two ends, both
included, and its iterators hold the integer they are at. `end()` is one past
the last integer, and the loop stops where the iterator equals it.

So there has to be an `int` past the last one, and the loop has to come to it
from below. It does from every start that is at most one past the end; from a
start further up it climbs away from `end()`, up to the largest `int` and
the increment that has no result.
-/

namespace LearningCpp

open LearningCpp.Lib

/-- `IntRange`. Its members are of type `int`. -/
structure IntRange where
  start_ : Int
  end_ : Int
  start_fits : Fits 32 start_
  end_fits : Fits 32 end_

namespace IntRange

structure Iterator where
  curr_ : Int
deriving DecidableEq, Repr

/-- `operator*` -/
def Iterator.deref (it : Iterator) : Int := it.curr_

/-- `operator++` -/
def Iterator.increment (it : Iterator) : Option Iterator :=
  (signed 32 (it.curr_ + 1)).map Iterator.mk

/-- `begin()` -/
def beginIterator (range : IntRange) : Iterator := ⟨range.start_⟩

/-- `end()` -/
def endIterator (range : IntRange) : Option Iterator :=
  (signed 32 (range.end_ + 1)).map Iterator.mk

theorem Iterator.increment_eq_some {it next : Iterator} :
    it.increment = some next ↔
      Fits 32 (it.curr_ + 1) ∧ next = ⟨it.curr_ + 1⟩ := by
  simp only [increment, Option.map_eq_some_iff, signed_eq_some_iff]
  constructor
  · rintro ⟨_, ⟨hfits, rfl⟩, rfl⟩
    exact ⟨hfits, rfl⟩
  · rintro ⟨hfits, rfl⟩
    exact ⟨_, ⟨hfits, rfl⟩, rfl⟩

/-- The loop of `main`, from the test on: the integers it prints, or nothing
if a sum overflows. -/
def loop (range : IntRange) (it : Iterator) : Option (List Int) :=
  match range.endIterator with
  | none => none
  | some last =>
      if it = last then some []
      else
        match _h : it.increment with
        | none => none
        | some next => (range.loop next).map (fun rest => it.deref :: rest)
termination_by (2 ^ 31 - it.curr_).toNat
decreasing_by
  obtain ⟨hfits, rfl⟩ := Iterator.increment_eq_some.1 _h
  rw [fits_int] at hfits
  simp only []
  omega

/-- `for (auto it = range.begin(); it != range.end(); ++it)` -/
def visited (range : IntRange) : Option (List Int) :=
  range.loop range.beginIterator

/-- The loop ends, and has visited the integers of the range in increasing
order. -/
def VisitsExactly (range : IntRange) : Prop :=
  ∃ l, range.visited = some l ∧ l.Pairwise (· < ·) ∧
    ∀ i, i ∈ l ↔ range.start_ ≤ i ∧ i ≤ range.end_

variable {range : IntRange}

theorem Iterator.increment_of_fits {i : Int} (h : Fits 32 (i + 1)) :
    Iterator.increment ⟨i⟩ = some ⟨i + 1⟩ :=
  Iterator.increment_eq_some.2 ⟨h, rfl⟩

theorem Iterator.increment_of_not_fits {i : Int} (h : ¬ Fits 32 (i + 1)) :
    Iterator.increment ⟨i⟩ = none := by
  rw [Option.eq_none_iff_forall_ne_some]
  intro next hnext
  exact h (Iterator.increment_eq_some.1 hnext).1

theorem endIterator_of_lt (h : range.end_ < 2 ^ 31 - 1) :
    range.endIterator = some ⟨range.end_ + 1⟩ := by
  have hend := fits_int.1 range.end_fits
  have hfits : Fits 32 (range.end_ + 1) := fits_int.2 (by omega)
  exact Iterator.increment_of_fits hfits

theorem endIterator_of_max (h : range.end_ = 2 ^ 31 - 1) :
    range.endIterator = none := by
  have hfits : ¬ Fits 32 (range.end_ + 1) := by
    rw [h]
    decide
  exact Iterator.increment_of_not_fits hfits

section Loop

variable (hend : range.end_ < 2 ^ 31 - 1)
include hend

theorem loop_end : range.loop ⟨range.end_ + 1⟩ = some [] := by
  rw [loop, endIterator_of_lt hend]
  exact if_pos rfl

theorem loop_step {i : Int} (hne : i ≠ range.end_ + 1)
    (hfits : Fits 32 (i + 1)) :
    range.loop ⟨i⟩ = (range.loop ⟨i + 1⟩).map (fun rest => i :: rest) := by
  rw [loop, endIterator_of_lt hend]
  simp only [Iterator.mk.injEq, hne, if_false]
  split
  · next hnone =>
      rw [Iterator.increment_of_fits hfits] at hnone
      cases hnone
  · next hsome =>
      rw [Iterator.increment_of_fits hfits] at hsome
      cases hsome
      rfl

theorem loop_max (hne : range.end_ ≠ 2 ^ 31 - 2) :
    range.loop ⟨2 ^ 31 - 1⟩ = none := by
  rw [loop, endIterator_of_lt hend]
  have hlast : (2 ^ 31 - 1 : Int) ≠ range.end_ + 1 := by omega
  simp only [Iterator.mk.injEq, hlast, if_false]
  split
  · rfl
  · next hsome =>
      rw [Iterator.increment_of_not_fits (by decide)] at hsome
      cases hsome

/-- From an integer up to the end, the loop goes to the end. -/
theorem loop_upTo (n : ℕ) :
    ∀ {i : Int}, -2 ^ 31 ≤ i → i + n = range.end_ + 1 →
      range.loop ⟨i⟩ = some (span i range.end_) := by
  induction n with
  | zero =>
      intro i _ hi
      have hi : i = range.end_ + 1 := by simpa using hi
      have hspan : span (range.end_ + 1) range.end_ = [] := by
        simp [span, Int.range]
      rw [hi, loop_end hend, hspan]
  | succ n ih =>
      intro i hlow hi
      have hfits : Fits 32 (i + 1) := fits_int.2 (by omega)
      have hspan : span i range.end_ = i :: span (i + 1) range.end_ := by
        rw [span_append (by omega : i ≤ i + 1) (by omega : i ≤ range.end_),
          span_self, List.singleton_append]
      rw [loop_step hend (by omega) hfits, ih (by omega) (by omega), hspan,
        Option.map_some]

/-- From an integer past the end, it goes to the largest one. -/
theorem loop_past (n : ℕ) :
    ∀ {i : Int}, range.end_ + 1 < i → i + n = 2 ^ 31 - 1 →
      range.loop ⟨i⟩ = none := by
  induction n with
  | zero =>
      intro i hi hn
      have hi : i = 2 ^ 31 - 1 := by simpa using hn
      rw [hi]
      exact loop_max hend (by omega)
  | succ n ih =>
      intro i hi hn
      have hlow := fits_int.1 range.end_fits
      have hfits : Fits 32 (i + 1) := fits_int.2 (by omega)
      rw [loop_step hend (by omega) hfits, ih (by omega) (by omega),
        Option.map_none]

end Loop

theorem visited_of_max (h : range.end_ = 2 ^ 31 - 1) :
    range.visited = none := by
  rw [visited, loop, endIterator_of_max h]

theorem visited_of_past (hend : range.end_ < 2 ^ 31 - 1)
    (h : range.end_ + 1 < range.start_) : range.visited = none := by
  have hstart := fits_int.1 range.start_fits
  exact loop_past hend (2 ^ 31 - 1 - range.start_).toNat h (by omega)

theorem visitsExactly_of_none (h : range.visited = none) :
    ¬ range.VisitsExactly := by
  rintro ⟨l, hvisited, _⟩
  rw [h] at hvisited
  cases hvisited

/-- A range is visited exactly if its end is not the largest `int` and its start
is at most one past its end. -/
theorem visitsExactly_iff (range : IntRange) :
    range.VisitsExactly ↔
      range.end_ < 2 ^ 31 - 1 ∧ range.start_ ≤ range.end_ + 1 := by
  have hstart := fits_int.1 range.start_fits
  have hlast := fits_int.1 range.end_fits
  constructor
  · intro hexact
    by_cases hend : range.end_ < 2 ^ 31 - 1
    · refine ⟨hend, Int.not_lt.1 ?_⟩
      intro hpast
      exact visitsExactly_of_none (visited_of_past hend hpast) hexact
    · have hmax : range.end_ = 2 ^ 31 - 1 := by omega
      exact absurd hexact (visitsExactly_of_none (visited_of_max hmax))
  · rintro ⟨hend, hle⟩
    have hrun := loop_upTo hend (range.end_ + 1 - range.start_).toNat
      hstart.1 (by omega)
    exact ⟨_, hrun, pairwise_span, fun i => mem_span⟩

/-- An inverted range, and one of a single integer, the largest. -/
theorem visits_overflow :
    ¬ VisitsExactly ⟨5, 3, by decide, by decide⟩ ∧
      ¬ VisitsExactly ⟨2147483647, 2147483647, by decide, by decide⟩ := by
  constructor
  · exact visitsExactly_of_none (visited_of_past (by decide) (by decide))
  · exact visitsExactly_of_none (visited_of_max (by decide))

end IntRange

end LearningCpp
