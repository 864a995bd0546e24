import LearningCpp.Lib.ShortRuns

/-!
# Fancy strings

`leetcode/easy/1957.cpp`. The characters of the string are accumulated one
after the other, less those that would be the third in a row.
-/

namespace LearningCpp.FancyString

open LearningCpp.Lib

/-- The operation `std::accumulate` is given. -/
def accumulate (acc : List Char) (c : Char) : List Char :=
  let len := acc.length
  if 2 ≤ len ∧ acc[len - 1]? = some c ∧ acc[len - 2]? = some c then acc
  else acc ++ [c]

/-- `makeFancyString`. -/
def makeFancyString (s : List Char) : List Char := s.foldl accumulate []

/-- What the condition looks at is whether the string ends with the character
twice. -/
theorem ends_iff (acc : List Char) (c : Char) :
    (2 ≤ acc.length ∧ acc[acc.length - 1]? = some c ∧
      acc[acc.length - 2]? = some c) ↔ 2 ≤ trailing c acc := by
  rcases acc.eq_nil_or_concat' with hnil | ⟨l, a, hl⟩
  · simp [hnil]
  · subst hl
    by_cases ha : a = c
    · subst ha
      rw [trailing_concat_self]
      rcases l.eq_nil_or_concat' with hnil | ⟨l', b, hl'⟩
      · simp [hnil]
      · subst hl'
        by_cases hb : b = a
        · subst hb
          simp [trailing_concat_self]
        · simp [trailing_concat_of_ne hb, hb]
    · rw [trailing_concat_of_ne ha]
      simp [ha]

theorem accumulate_eq : accumulate = keepShort 2 := by
  funext acc c
  unfold accumulate keepShort
  simp only [ends_iff]

/-- **`makeFancyString` deletes as little as possible**: the result is a
subsequence without three equal characters in a row, and no such subsequence
is longer. -/
theorem makeFancyString_longest (s : List Char) :
    (makeFancyString s).Sublist s ∧ ShortRuns 2 (makeFancyString s) ∧
      ∀ t, t.Sublist s → ShortRuns 2 t →
        t.length ≤ (makeFancyString s).length := by
  have h := foldl_keepShort_longest (by decide : 0 < 2) s
  rw [← accumulate_eq] at h
  exact ⟨h.sublist, h.short, h.length_le⟩

end LearningCpp.FancyString
