import Mathlib

/-!
# Lists without long runs

Lists in which no element occurs more than `n` times in a row, and the longest
sublist of a list that is one. A sublist may join runs that are apart in the
list, so its runs are not those of the list; what a sublist can gain by that is
at most what it then has fewer of the last element at its end. That trade is
the second of the two bounds that go along the list.
-/

namespace LearningCpp.Lib

variable {α : Type*} {n : ℕ} {l s t r : List α} {c : α}

/-- A sublist of a list with one more element. -/
theorem sublist_concat_cases (h : t.Sublist (s ++ [c])) :
    t.Sublist s ∨ ∃ t', t = t' ++ [c] ∧ t'.Sublist s := by
  obtain ⟨t₁, t₂, heq, h₁, h₂⟩ := List.sublist_append_iff.1 h
  rcases List.sublist_singleton.1 h₂ with hnil | hone
  · rw [heq, hnil, List.append_nil]
    exact .inl h₁
  · rw [hone] at heq
    exact .inr ⟨t₁, heq, h₁⟩

/-- No element more than `n` times in a row. -/
def ShortRuns (n : ℕ) (l : List α) : Prop :=
  ∀ c, ¬ List.replicate (n + 1) c <:+: l

theorem ShortRuns.nil : ShortRuns n ([] : List α) := by
  intro c h
  simpa using List.eq_nil_of_infix_nil h

variable [DecidableEq α]

/-- How many times a list has an element at its end. -/
def trailing (c : α) (l : List α) : ℕ :=
  (l.rtakeWhile (fun a => decide (a = c))).length

@[simp] theorem trailing_nil : trailing c [] = 0 := by simp [trailing]

theorem trailing_concat_self : trailing c (l ++ [c]) = trailing c l + 1 := by
  unfold trailing
  rw [List.rtakeWhile_concat_pos _ _ _ (by simp), List.length_append,
    List.length_singleton]

theorem trailing_concat_of_ne {d : α} (h : d ≠ c) :
    trailing c (l ++ [d]) = 0 := by
  unfold trailing
  rw [List.rtakeWhile_concat_neg _ _ _ (by simpa using h), List.length_nil]

theorem le_trailing_iff : n ≤ trailing c l ↔ List.replicate n c <:+ l := by
  induction l using List.reverseRecOn generalizing n with
  | nil => simp
  | append_singleton l d ih =>
      cases n with
      | zero => simp
      | succ n =>
          rw [List.replicate_succ', List.suffix_concat_iff]
          by_cases hd : d = c
          · rw [hd, trailing_concat_self, Nat.succ_le_succ_iff, ih]
            constructor
            · exact fun h => .inr ⟨_, rfl, h⟩
            · intro h
              rcases h with h | ⟨l', heq, hl'⟩
              · exact absurd h (by simp)
              · rw [(List.append_inj' heq rfl).1]
                exact hl'
          · rw [trailing_concat_of_ne hd]
            constructor
            · exact fun h => absurd h (Nat.not_succ_le_zero n)
            · intro h
              rcases h with h | ⟨l', heq, _⟩
              · exact absurd h (by simp)
              · have hlast := (List.append_inj' heq rfl).2
                exact absurd (List.singleton_inj.1 hlast).symm hd

theorem shortRuns_concat :
    ShortRuns n (l ++ [c]) ↔ ShortRuns n l ∧ trailing c l < n := by
  have hends (d : α) : List.replicate (n + 1) d <:+ l ++ [c] ↔
      c = d ∧ n ≤ trailing c l := by
    rw [← le_trailing_iff]
    by_cases hd : c = d
    · subst hd
      rw [trailing_concat_self]
      simp
    · rw [trailing_concat_of_ne hd]
      simp [hd]
  constructor
  · intro h
    refine ⟨fun d hd => h d (List.infix_concat_iff.2 (.inr hd)), ?_⟩
    by_contra hlong
    exact h c (List.infix_concat_iff.2 (.inl ((hends c).2 ⟨rfl, by omega⟩)))
  · intro h d hd
    rcases List.infix_concat_iff.1 hd with hd | hd
    · have hlong := ((hends d).1 hd).2
      exact absurd h.2 (by omega)
    · exact h.1 d hd

/-- Appending an element unless the list ends with `n` of it. -/
def keepShort (n : ℕ) (l : List α) (c : α) : List α :=
  if n ≤ trailing c l then l else l ++ [c]

/-- A longest sublist of those with short runs. A competitor may be as long
only if it ends with as many of every element. -/
structure Longest (n : ℕ) (s r : List α) : Prop where
  sublist : r.Sublist s
  short : ShortRuns n r
  length_le : ∀ t, t.Sublist s → ShortRuns n t → t.length ≤ r.length
  trailing_le : ∀ t c, t.Sublist s → ShortRuns n t →
    t.length + trailing c r ≤ r.length + trailing c t

theorem Longest.nil : Longest n ([] : List α) [] where
  sublist := .refl _
  short := .nil
  length_le := fun t ht _ => ht.length_le
  trailing_le := by
    intro t c ht _
    rw [List.sublist_nil.1 ht]

/-- One element more that makes no run too long. -/
theorem Longest.concat (h : Longest n s r) (hc : trailing c r < n) :
    Longest n (s ++ [c]) (r ++ [c]) := by
  have hlength : ∀ t, t.Sublist (s ++ [c]) → ShortRuns n t →
      t.length ≤ (r ++ [c]).length := by
    intro t ht hshort
    rw [List.length_append, List.length_singleton]
    rcases sublist_concat_cases ht with ht | ⟨t', heq, ht'⟩
    · exact Nat.le_succ_of_le (h.length_le t ht hshort)
    · rw [heq] at hshort ⊢
      rw [List.length_append, List.length_singleton]
      exact Nat.succ_le_succ (h.length_le t' ht' (shortRuns_concat.1 hshort).1)
  refine ⟨h.sublist.append_right [c], shortRuns_concat.2 ⟨h.short, hc⟩,
    hlength, ?_⟩
  intro t d ht hshort
  by_cases hd : c = d
  · subst hd
    rw [trailing_concat_self, List.length_append, List.length_singleton]
    rcases sublist_concat_cases ht with ht | ⟨t', heq, ht'⟩
    · have hle := h.trailing_le t c ht hshort
      omega
    · rw [heq] at hshort ⊢
      have hle := h.trailing_le t' c ht' (shortRuns_concat.1 hshort).1
      rw [trailing_concat_self, List.length_append, List.length_singleton]
      omega
  · rw [trailing_concat_of_ne hd]
    exact Nat.le_add_right_of_le (hlength t ht hshort)

/-- One element more where the run of it is as long as it may be. -/
theorem Longest.skip (h : Longest n s r) (hc : n ≤ trailing c r)
    (hn : 0 < n) : Longest n (s ++ [c]) r := by
  have hlength : ∀ t, t.Sublist (s ++ [c]) → ShortRuns n t →
      t.length ≤ r.length := by
    intro t ht hshort
    rcases sublist_concat_cases ht with ht | ⟨t', heq, ht'⟩
    · exact h.length_le t ht hshort
    · -- the competitor has fewer of the element at its end
      rw [heq] at hshort ⊢
      obtain ⟨hshort', hfew⟩ := shortRuns_concat.1 hshort
      have hle := h.trailing_le t' c ht' hshort'
      rw [List.length_append, List.length_singleton]
      omega
  refine ⟨h.sublist.trans (List.sublist_append_left s [c]), h.short, hlength, ?_⟩
  intro t d ht hshort
  rcases sublist_concat_cases ht with ht' | ⟨t', heq, ht'⟩
  · exact h.trailing_le t d ht' hshort
  · by_cases hd : c = d
    · subst hd
      rw [heq] at hshort ⊢
      have hle := h.trailing_le t' c ht' (shortRuns_concat.1 hshort).1
      rw [trailing_concat_self, List.length_append, List.length_singleton]
      omega
    · have hnone : trailing d r = 0 := by
        have hpos : r ≠ [] := by
          intro hnil
          rw [hnil, trailing_nil] at hc
          omega
        rw [← List.dropLast_append_getLast hpos] at hc ⊢
        refine trailing_concat_of_ne ?_
        intro heq'
        rw [heq', trailing_concat_of_ne (fun hdc => hd hdc.symm)] at hc
        omega
      rw [hnone]
      exact Nat.le_add_right_of_le (hlength t ht hshort)

theorem Longest.keepShort (h : Longest n s r) (hn : 0 < n) (c : α) :
    Longest n (s ++ [c]) (keepShort n r c) := by
  unfold Lib.keepShort
  split
  · next hc => exact h.skip hc hn
  · next hc => exact h.concat (by omega)

/-- Going through a list and keeping what makes no run too long gives a longest
sublist. -/
theorem foldl_keepShort_longest (hn : 0 < n) (s : List α) :
    Longest n s (s.foldl (Lib.keepShort n) []) := by
  induction s using List.reverseRecOn with
  | nil => exact .nil
  | append_singleton s c ih =>
      rw [List.foldl_append]
      exact ih.keepShort hn c

end LearningCpp.Lib
