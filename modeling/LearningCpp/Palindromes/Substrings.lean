import LearningCpp.Lib.Loop
import LearningCpp.Lib.Memo

/-!
# Palindromic substrings

`leetcode/medium/647.cpp`. Whether the substring from `i` to `j` is a palindrome
depends on the one from `i + 1` to `j - 1`. The loops go through `i` downwards
and through `j` upwards, so that one comes before; where there is none, for
substrings of one or two characters, the first two branches do not ask for it.

The count does not pass `INT_MAX` as long as there are no more palindromic
substrings than that.
-/

namespace LearningCpp.Palindromes

open LearningCpp.Lib

/-! ## The code -/

/-- `memo` and `count`. -/
structure Count where
  memo : Memo (ℕ × ℕ) Bool
  count : ℕ

/-- The branches of the body of the inner loop. -/
def decideCell (s : List Char) (memo : Memo (ℕ × ℕ) Bool) (i j : ℕ) :
    Memo (ℕ × ℕ) Bool :=
  if i = j then memo.write (i, j) true
  else if s[i]? = s[j]? ∧ j - i = 1 then memo.write (i, j) true
  else if s[i]? = s[j]? then
    let (inner, memo) := memo.read (i + 1, j - 1)
    if inner then memo.write (i, j) true else memo
  else memo

/-- The body of the inner loop. -/
def visit (s : List Char) (c : Count) (i j : ℕ) : Count :=
  let (isPalindrome, memo) := (decideCell s c.memo i j).read (i, j)
  ⟨memo, if isPalindrome then c.count + 1 else c.count⟩

/-- `countSubstrings`, with the table it leaves. -/
def countSubstrings (s : List Char) : Count :=
  (List.range s.length).reverse.foldl
    (fun c i => (List.range' i (s.length - i)).foldl
      (fun c j => visit s c i j) c)
    ⟨.fill false, 0⟩

/-! ## Substrings -/

/-- The substring from `i` to `j`, both included. -/
def substring (s : List Char) (i j : ℕ) : List Char := (s.take (j + 1)).drop i

/-- It reads the same backwards. -/
def Palindromic (s : List Char) (i j : ℕ) : Prop :=
  (substring s i j).reverse = substring s i j

instance (s : List Char) (i j : ℕ) : Decidable (Palindromic s i j) :=
  inferInstanceAs (Decidable (_ = _))

variable {s : List Char} {i j : ℕ}

theorem substring_cons (hij : i ≤ j) (hj : j < s.length) :
    substring s i j = s[i] :: substring s (i + 1) j := by
  have hi : i < (s.take (j + 1)).length := by
    rw [List.length_take]
    omega
  rw [substring, List.drop_eq_getElem_cons hi, List.getElem_take]
  rfl

theorem substring_concat (hij : i ≤ j) (hj : j < s.length) :
    substring s i j = (s.take j).drop i ++ [s[j]] := by
  rw [substring, List.take_succ_eq_append_getElem hj, List.drop_append_of_le_length]
  rw [List.length_take]
  omega

theorem palindromic_self (hj : j < s.length) : Palindromic s j j := by
  have hnil : (s.take j).drop j = [] := by
    refine List.drop_eq_nil_of_le ?_
    rw [List.length_take]
    exact Nat.min_le_left _ _
  rw [Palindromic, substring_concat (le_refl j) hj, hnil]
  rfl

/-- A palindrome of two or more characters. -/
theorem palindromic_iff (hij : i < j) (hj : j < s.length) :
    Palindromic s i j ↔
      s[i]? = s[j]? ∧ (j - i = 1 ∨ Palindromic s (i + 1) (j - 1)) := by
  have hi : i < s.length := by omega
  have hends : substring s i j =
      s[i] :: ((s.take j).drop (i + 1) ++ [s[j]]) := by
    rw [substring_cons hij.le hj, substring_concat hij hj]
  have hinner : substring s (i + 1) (j - 1) = (s.take j).drop (i + 1) := by
    rw [substring, Nat.sub_add_cancel (by omega)]
  rw [Palindromic, Palindromic, hends, hinner, List.reverse_cons,
    List.reverse_append, List.reverse_singleton, List.singleton_append,
    List.cons_append, List.cons.injEq, List.getElem?_eq_getElem hi,
    List.getElem?_eq_getElem hj, Option.some_inj]
  constructor
  · intro h
    exact ⟨h.1.symm, .inr (List.append_inj' h.2 rfl).1⟩
  · intro h
    obtain ⟨heq, hone | hrest⟩ := h
    · have hnil : (s.take j).drop (i + 1) = [] := by
        refine List.drop_eq_nil_of_le ?_
        rw [List.length_take]
        omega
      rw [hnil, heq]
      exact ⟨rfl, rfl⟩
    · rw [hrest, heq]
      exact ⟨rfl, rfl⟩

/-! ## The order of the loops -/

/-- The pairs the loops go through. -/
def cells (n : ℕ) : List (ℕ × ℕ) :=
  (List.range n).reverse.flatMap
    (fun i => (List.range' i (n - i)).map (fun j => (i, j)))

theorem mem_cells {n : ℕ} {c : ℕ × ℕ} : c ∈ cells n ↔ c.1 ≤ c.2 ∧ c.2 < n := by
  obtain ⟨i, j⟩ := c
  simp only [cells, List.mem_flatMap, List.mem_reverse, List.mem_range,
    List.mem_map, List.mem_range'_1, Prod.mk.injEq]
  constructor
  · intro h
    obtain ⟨i', hi', j', hj', hi, hj⟩ := h
    omega
  · intro h
    exact ⟨i, by omega, j, by omega, rfl, rfl⟩

/-- `i` downwards, and for one `i` `j` upwards. -/
def Earlier (c d : ℕ × ℕ) : Prop := d.1 < c.1 ∨ c.1 = d.1 ∧ c.2 < d.2

theorem earlier_irrefl (c : ℕ × ℕ) : ¬ Earlier c c := by
  intro h
  rcases h with h | h
  · exact lt_irrefl _ h
  · exact lt_irrefl _ h.2

theorem cells_sorted (n : ℕ) : (cells n).Pairwise Earlier := by
  refine List.pairwise_flatMap.2 ⟨?_, ?_⟩
  · intro i _
    refine List.pairwise_map.2 ?_
    exact (List.pairwise_lt_range' 1).imp (fun h => .inr ⟨rfl, h⟩)
  · refine List.pairwise_reverse.2 (List.pairwise_lt_range.imp ?_)
    intro i i' hlt c hc d hd
    obtain ⟨_, _, heq⟩ := List.mem_map.1 hc
    obtain ⟨_, _, heq'⟩ := List.mem_map.1 hd
    rw [← heq, ← heq']
    exact .inl hlt

theorem countSubstrings_eq (s : List Char) :
    countSubstrings s =
      (cells s.length).foldl (fun c d => visit s c d.1 d.2)
        ⟨.fill false, 0⟩ := by
  rw [countSubstrings, cells, List.foldl_flatMap]
  simp only [List.foldl_map]

/-! ## What the loops do -/

/-- Whether a cell stands for a palindrome. -/
def isPalindromic (s : List Char) (c : ℕ × ℕ) : Bool :=
  decide (Palindromic s c.1 c.2)

/-- The cells the loops have been through have their values, the others are as
they were, and the palindromes among the former are counted. -/
structure Through (s : List Char) (before : List (ℕ × ℕ)) (c : Count) : Prop
    where
  settled : c.memo.Settled (isPalindromic s) (· ∈ before)
  rest : ∀ cell, cell ∉ before → c.memo.table cell = false
  count : c.count = before.countP (isPalindromic s)

/-- The cells in `before` have their values, the others are as they were. -/
structure Filled (s : List Char) (before : List (ℕ × ℕ))
    (memo : Memo (ℕ × ℕ) Bool) : Prop where
  settled : memo.Settled (isPalindromic s) (· ∈ before)
  rest : ∀ cell, cell ∉ before → memo.table cell = false

variable {before : List (ℕ × ℕ)} {memo : Memo (ℕ × ℕ) Bool}

/-- A cell is written where there is a palindrome. -/
theorem Filled.write (h : Filled s before memo) (hnew : (i, j) ∉ before)
    (hpal : Palindromic s i j) :
    Filled s (before ++ [(i, j)]) (memo.write (i, j) true) := by
  have hdone : ∀ c, c ∈ before ++ [(i, j)] ↔ c ∈ before ∨ c = (i, j) := by
    simp
  have hvalue : true = isPalindromic s (i, j) := (decide_eq_true hpal).symm
  constructor
  · rw [hvalue]
    exact h.settled.write hnew hdone
  · intro cell hcell
    rw [hdone, not_or] at hcell
    exact (Function.update_of_ne hcell.2 _ _).trans (h.rest cell hcell.1)

/-- It is left as it is where there is none. -/
theorem Filled.leave (h : Filled s before memo) (hnew : (i, j) ∉ before)
    (hpal : ¬ Palindromic s i j) : Filled s (before ++ [(i, j)]) memo := by
  have hdone : ∀ c, c ∈ before ++ [(i, j)] ↔ c ∈ before ∨ c = (i, j) := by
    simp
  constructor
  · refine h.settled.leave hdone ?_
    rw [h.rest _ hnew]
    exact (decide_eq_false hpal).symm
  · intro cell hcell
    rw [hdone, not_or] at hcell
    exact h.rest cell hcell.1

/-- The branches give the cell its value, which they find where it is needed. -/
theorem decideCell_spec (h : Filled s before memo) (hij : i ≤ j)
    (hj : j < s.length) (hnew : (i, j) ∉ before)
    (hinner : i + 1 ≤ j - 1 → (i + 1, j - 1) ∈ before) :
    Filled s (before ++ [(i, j)]) (decideCell s memo i j) := by
  unfold decideCell
  split
  · next heq =>
      refine h.write hnew ?_
      rw [heq]
      exact palindromic_self hj
  · next hne =>
      have hiff := palindromic_iff (s := s) (by omega : i < j) hj
      split
      · next htwo =>
          exact h.write hnew (hiff.2 ⟨htwo.1, .inl htwo.2⟩)
      · next htwo =>
          split
          · next hends =>
              have hlong : j - i ≠ 1 := fun hone => htwo ⟨hends, hone⟩
              obtain ⟨hread, hsettled⟩ := h.settled.read (hinner (by omega))
              have h' : Filled s before (memo.read (i + 1, j - 1)).2 :=
                ⟨hsettled, h.rest⟩
              rw [show memo.read (i + 1, j - 1) =
                ((memo.read (i + 1, j - 1)).1, (memo.read (i + 1, j - 1)).2)
                from rfl]
              simp only [hread]
              split
              · next hpal =>
                  refine h'.write hnew (hiff.2 ⟨hends, .inr ?_⟩)
                  exact of_decide_eq_true hpal
              · next hpal =>
                  refine h'.leave hnew ?_
                  intro hfull
                  refine hpal (decide_eq_true ?_)
                  exact (hiff.1 hfull).2.resolve_left hlong
          · next hends =>
              exact h.leave hnew fun hfull => hends (hiff.1 hfull).1

theorem Through.visit {c : Count} (h : Through s before c) (hij : i ≤ j)
    (hj : j < s.length) (hnew : (i, j) ∉ before)
    (hinner : i + 1 ≤ j - 1 → (i + 1, j - 1) ∈ before) :
    Through s (before ++ [(i, j)]) (visit s c i j) := by
  obtain ⟨hsettled, hrest⟩ :=
    decideCell_spec ⟨h.settled, h.rest⟩ hij hj hnew hinner
  obtain ⟨hread, hafter⟩ := hsettled.read
    (List.mem_append_right before (List.mem_singleton_self (i, j)))
  refine ⟨hafter, hrest, ?_⟩
  show (if ((decideCell s c.memo i j).read (i, j)).1 then c.count + 1
    else c.count) = _
  rw [hread, h.count, List.countP_append, List.countP_singleton]
  split
  · rfl
  · rfl

theorem countSubstrings_through (s : List Char) :
    Through s (cells s.length) (countSubstrings s) := by
  rw [countSubstrings_eq]
  refine foldl_through (P := Through s) _
    ⟨.fill false (fun _ => List.not_mem_nil), fun _ _ => rfl, rfl⟩ ?_
  intro before c after st heq hst
  have hsorted := cells_sorted s.length
  have hc : c ∈ cells s.length := by
    rw [heq]
    exact List.mem_append_right _ List.mem_cons_self
  obtain ⟨hij, hj⟩ := mem_cells.1 hc
  rw [heq] at hsorted
  refine hst.visit hij hj (not_mem_before_of_pairwise hsorted (earlier_irrefl c)) ?_
  intro hwide
  have hinner : (c.1 + 1, c.2 - 1) ∈ cells s.length :=
    mem_cells.2 ⟨hwide, by omega⟩
  rw [heq] at hinner
  refine mem_before_of_pairwise hsorted hinner ?_ ?_
  · intro hsame
    have hfst : c.1 + 1 = c.1 := congrArg Prod.fst hsame
    omega
  · intro hlater
    rcases hlater with hlt | ⟨heq', _⟩
    · have hfst : c.1 + 1 < c.1 := hlt
      omega
    · have hfst : c.1 = c.1 + 1 := heq'
      omega

/-- **`countSubstrings` counts** the pairs that bound a palindrome, and what it
reads of the table is final. -/
theorem countSubstrings_counts (s : List Char) :
    (countSubstrings s).count =
        ((Finset.range s.length ×ˢ Finset.range s.length).filter
          (fun c => c.1 ≤ c.2 ∧ Palindromic s c.1 c.2)).card ∧
      (countSubstrings s).memo.ReadsFinal := by
  have h := countSubstrings_through s
  refine ⟨?_, h.settled.readsFinal⟩
  have hnodup : (cells s.length).Nodup := by
    refine (cells_sorted s.length).imp ?_
    intro c d hcd heq
    exact earlier_irrefl d (heq ▸ hcd)
  rw [h.count, List.countP_eq_length_filter,
    ← List.toFinset_card_of_nodup (hnodup.filter _)]
  refine congrArg Finset.card ?_
  ext c
  simp only [List.mem_toFinset, List.mem_filter, mem_cells, isPalindromic,
    decide_eq_true_eq, Finset.mem_filter, Finset.mem_product,
    Finset.mem_range]
  constructor
  · intro hc
    exact ⟨⟨by omega, hc.1.2⟩, hc.1.1, hc.2⟩
  · intro hc
    exact ⟨⟨hc.2.1, hc.1.2⟩, hc.2.2⟩

end LearningCpp.Palindromes
