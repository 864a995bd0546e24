import Mathlib

/-!
# Duplicates found with hash sets

`leetcode/easy/217.cpp` puts all numbers into a set and compares the sizes.
`leetcode/medium/36.cpp` goes through a board cell by cell, with one set for
each row, each column and each box, and stops at the first entry that is in one
of its three sets already.

There are as many sets of each kind as the board has rows, so a cell with a
larger column, or a larger box, is past the end of a vector. The three tests of
a cell are made one after the other, and a duplicate that is found earlier
keeps the code from going there. What the code does is said for boards of any
shape, as long as rows, columns and boxes fit into the `int`s that count them; on
a board of nine by nine it is all defined.
-/

namespace LearningCpp.Duplicates

/-! ## All numbers in one set -/

/-- `seen`, after the range insertion. -/
def seenAll (nums : List Int) : Finset Int :=
  nums.foldl (fun seen x => insert x seen) ∅

def containsDuplicate (nums : List Int) : Bool :=
  if (seenAll nums).card ≠ nums.length then true else false

theorem seenAll_eq (nums : List Int) : seenAll nums = nums.toFinset := by
  have hfold : ∀ seen : Finset Int,
      nums.foldl (fun seen x => insert x seen) seen = nums.toFinset ∪ seen := by
    induction nums with
    | nil => intro seen; simp
    | cons x nums ih =>
        intro seen
        rw [List.foldl_cons, ih, List.toFinset_cons, Finset.insert_union,
          Finset.union_insert]
  rw [seenAll, hfold, Finset.union_empty]

theorem containsDuplicate_iff (nums : List Int) :
    containsDuplicate nums = true ↔ ¬ nums.Nodup := by
  rw [containsDuplicate, seenAll_eq, List.card_toFinset]
  have hdedup : nums.dedup.length = nums.length ↔ nums.Nodup := by
    constructor
    · intro h
      rw [← (nums.dedup_sublist).eq_of_length h]
      exact nums.nodup_dedup
    · exact fun h => congrArg List.length h.dedup
  split
  · next h => exact iff_of_true rfl (fun hnodup => h (hdedup.2 hnodup))
  · next h =>
      exact iff_of_false Bool.false_ne_true
        (not_not.2 (hdedup.1 (not_not.1 h)))

/-! ## The board -/

structure Cell where
  row : ℕ
  col : ℕ
  entry : Char
deriving DecidableEq

/-- `_get_box`. -/
def getBox (row col : ℕ) : ℕ :=
  let boxRow := row / 3
  let boxCol := col / 3
  boxRow * 3 + boxCol

def Cell.box (c : Cell) : ℕ := getBox c.row c.col

/-- The cells in the order of the two loops. -/
def cells (board : List (List Char)) : List Cell :=
  board.zipIdx.flatMap (fun r => r.1.zipIdx.map (fun e => ⟨r.2, e.2, e.1⟩))

/-- `rows`, `cols` and `boxes`. -/
structure Seen where
  rows : ℕ → Finset Char
  cols : ℕ → Finset Char
  boxes : ℕ → Finset Char

/-- How a call ends before the loops do: `return false`, or past the end of a
vector. -/
inductive Stop where
  | duplicate
  | undefined
deriving DecidableEq

/-- The test of one of the sets of an entry, of which there are `n`, and its
insertion. -/
def note (n : ℕ) (sets : ℕ → Finset Char) (i : ℕ) (entry : Char) :
    Except Stop (ℕ → Finset Char) :=
  if i < n then
    if entry ∈ sets i then .error .duplicate
    else .ok (Function.update sets i (insert entry (sets i)))
  else .error .undefined

/-- The body of the inner loop for an entry that is not `'.'`. -/
def visitEntry (n : ℕ) (seen : Seen) (c : Cell) : Except Stop Seen := do
  let rows ← note n seen.rows c.row c.entry
  let cols ← note n seen.cols c.col c.entry
  let boxes ← note n seen.boxes c.box c.entry
  return ⟨rows, cols, boxes⟩

/-- The body of the inner loop. -/
def visit (n : ℕ) (seen : Seen) (c : Cell) : Except Stop Seen :=
  if c.entry = '.' then .ok seen else visitEntry n seen c

/-- `isValidSudoku`; `none` where it is undefined. -/
def isValidSudoku (board : List (List Char)) : Option Bool :=
  match (cells board).foldlM (visit board.length) ⟨fun _ => ∅, fun _ => ∅,
      fun _ => ∅⟩ with
  | .ok _ => some true
  | .error .duplicate => some false
  | .error .undefined => none

/-! ## One entry -/

/-- The sets by row, by column or by box have the entries so far. -/
def Notes (key : Cell → ℕ) (done : List Cell) (sets : ℕ → Finset Char) : Prop :=
  ∀ i e, e ∈ sets i ↔ ∃ d ∈ done, key d = i ∧ d.entry = e

/-- An earlier entry is the same and in the same set. -/
def Met (key : Cell → ℕ) (done : List Cell) (c : Cell) : Prop :=
  ∃ d ∈ done, key d = key c ∧ d.entry = c.entry

theorem note_spec {key : Cell → ℕ} {done : List Cell}
    {sets : ℕ → Finset Char} (h : Notes key done sets) (n : ℕ) (c : Cell) :
    (¬ key c < n ∧ note n sets (key c) c.entry = .error .undefined) ∨
    (key c < n ∧ Met key done c ∧
      note n sets (key c) c.entry = .error .duplicate) ∨
    (key c < n ∧ ¬ Met key done c ∧ ∃ sets',
      note n sets (key c) c.entry = .ok sets' ∧
        Notes key (done ++ [c]) sets') := by
  unfold note
  by_cases hn : key c < n
  · right
    by_cases hmem : c.entry ∈ sets (key c)
    · left
      rw [if_pos hn, if_pos hmem]
      exact ⟨hn, (h _ _).1 hmem, rfl⟩
    · right
      rw [if_pos hn, if_neg hmem]
      refine ⟨hn, fun hmet => hmem ((h _ _).2 hmet), _, rfl, ?_⟩
      intro i e
      by_cases hi : i = key c
      · subst hi
        rw [Function.update_self, Finset.mem_insert, h]
        simp only [List.mem_append, List.mem_singleton, or_and_right,
          exists_or, exists_eq_left, true_and]
        rw [or_comm, eq_comm]
      · rw [Function.update_of_ne hi, h]
        simp only [List.mem_append, List.mem_singleton, or_and_right,
          exists_or, exists_eq_left, Ne.symm hi, false_and, or_false]
  · left
    rw [if_neg hn]
    exact ⟨hn, rfl⟩

/-- All sets have the entries so far. -/
structure Noted (done : List Cell) (seen : Seen) : Prop where
  rows : Notes Cell.row done seen.rows
  cols : Notes Cell.col done seen.cols
  boxes : Notes Cell.box done seen.boxes

/-- The entry is in range and no duplicate of an earlier one. -/
structure Fine (n : ℕ) (done : List Cell) (c : Cell) : Prop where
  col : c.col < n
  box : c.box < n
  rowNew : ¬ Met Cell.row done c
  colNew : ¬ Met Cell.col done c
  boxNew : ¬ Met Cell.box done c

/-- The code comes to a set of the entry that is not there: its column is too
large, and its row has no duplicate; or its box is, and neither have row and
column. -/
def Leaves (n : ℕ) (done : List Cell) (c : Cell) : Prop :=
  ¬ Met Cell.row done c ∧
    (¬ c.col < n ∨ (¬ Met Cell.col done c ∧ ¬ c.box < n))

theorem Fine.not_leaves {n : ℕ} {done : List Cell} {c : Cell}
    (h : Fine n done c) : ¬ Leaves n done c := by
  rintro ⟨_, hcol | ⟨_, hbox⟩⟩
  · exact hcol h.col
  · exact hbox h.box

theorem visitEntry_spec {done : List Cell} {seen : Seen}
    (h : Noted done seen) {n : ℕ} {c : Cell} (hrow : c.row < n) :
    (Fine n done c ∧ ∃ seen', visitEntry n seen c = .ok seen' ∧
      Noted (done ++ [c]) seen') ∨
    (Leaves n done c ∧ visitEntry n seen c = .error .undefined) ∨
    (¬ Fine n done c ∧ ¬ Leaves n done c ∧
      visitEntry n seen c = .error .duplicate) := by
  unfold visitEntry
  rcases note_spec h.rows n c with ⟨hno, _⟩ | ⟨_, hmet, heq⟩ |
    ⟨_, hrowNew, rows, heq, hrows⟩
  · exact absurd hrow hno
  · right; right
    rw [heq]
    exact ⟨fun hf => hf.rowNew hmet, fun hl => hl.1 hmet, rfl⟩
  · rw [heq]
    rcases note_spec h.cols n c with ⟨hno, heq⟩ | ⟨hcol, hmet, heq⟩ |
      ⟨hcol, hcolNew, cols, heq, hcols⟩
    · right; left
      rw [heq]
      exact ⟨⟨hrowNew, Or.inl hno⟩, rfl⟩
    · right; right
      rw [heq]
      refine ⟨fun hf => hf.colNew hmet, ?_, rfl⟩
      rintro ⟨_, hno | ⟨hnew, _⟩⟩
      · exact hno hcol
      · exact hnew hmet
    · rw [heq]
      rcases note_spec h.boxes n c with ⟨hno, heq⟩ | ⟨hbox, hmet, heq⟩ |
        ⟨hbox, hboxNew, boxes, heq, hboxes⟩
      · right; left
        rw [heq]
        exact ⟨⟨hrowNew, Or.inr ⟨hcolNew, hno⟩⟩, rfl⟩
      · right; right
        rw [heq]
        refine ⟨fun hf => hf.boxNew hmet, ?_, rfl⟩
        rintro ⟨_, hno | ⟨_, hno⟩⟩
        · exact hno hcol
        · exact hno hbox
      · left
        rw [heq]
        exact ⟨⟨hcol, hbox, hrowNew, hcolNew, hboxNew⟩, _, rfl,
          ⟨hrows, hcols, hboxes⟩⟩

/-! ## The loops -/

/-- Every entry is fine when the loops come to it. -/
def AllFine (n : ℕ) (done rest : List Cell) : Prop :=
  ∀ before c after, rest = before ++ c :: after → Fine n (done ++ before) c

/-- The first entry that is not fine is one at which a set is not there. -/
def LeavesAt (n : ℕ) (done rest : List Cell) : Prop :=
  ∃ before c after, rest = before ++ c :: after ∧ AllFine n done before ∧
    Leaves n (done ++ before) c

section Loops

variable {n : ℕ} {done rest : List Cell} {c : Cell}

theorem allFine_nil : AllFine n done [] := by
  intro before c after h
  cases before <;> cases h

theorem allFine_cons : AllFine n done (c :: rest) ↔
    Fine n done c ∧ AllFine n (done ++ [c]) rest := by
  constructor
  · intro h
    refine ⟨by simpa using h [] c rest rfl, fun before d after heq => ?_⟩
    have hd := h (c :: before) d after (by rw [heq, List.cons_append])
    rwa [List.append_assoc]
  · rintro ⟨hc, hrest⟩ before d after heq
    match before with
    | [] =>
        obtain rfl : c = d := (List.cons.inj heq).1
        simpa using hc
    | e :: before =>
        obtain ⟨rfl, rfl⟩ := List.cons.inj heq
        have hd := hrest before d after rfl
        rwa [List.append_assoc] at hd

theorem leavesAt_cons : LeavesAt n done (c :: rest) ↔
    Leaves n done c ∨ (Fine n done c ∧ LeavesAt n (done ++ [c]) rest) := by
  constructor
  · rintro ⟨before, d, after, heq, hfine, hleaves⟩
    match before with
    | [] =>
        obtain rfl : c = d := (List.cons.inj heq).1
        exact Or.inl (by simpa using hleaves)
    | e :: before =>
        obtain ⟨rfl, rfl⟩ := List.cons.inj heq
        obtain ⟨hc, hbefore⟩ := allFine_cons.1 hfine
        refine Or.inr ⟨hc, before, d, after, rfl, hbefore, ?_⟩
        rwa [List.append_assoc]
  · rintro (hleaves | ⟨hc, before, d, after, rfl, hfine, hleaves⟩)
    · exact ⟨[], c, rest, rfl, allFine_nil, by simpa using hleaves⟩
    · refine ⟨c :: before, d, after, rfl, allFine_cons.2 ⟨hc, hfine⟩, ?_⟩
      rwa [List.append_assoc] at hleaves

theorem loop_spec (rest : List Cell) : ∀ {done : List Cell} {seen : Seen},
    Noted done seen → (∀ c ∈ rest, c.row < n) →
    (AllFine n done rest ∧ ¬ LeavesAt n done rest ∧
      ∃ seen', rest.foldlM (visitEntry n) seen = .ok seen') ∨
    (LeavesAt n done rest ∧ ¬ AllFine n done rest ∧
      rest.foldlM (visitEntry n) seen = .error .undefined) ∨
    (¬ AllFine n done rest ∧ ¬ LeavesAt n done rest ∧
      rest.foldlM (visitEntry n) seen = .error .duplicate) := by
  induction rest with
  | nil =>
      intro done seen _ _
      refine Or.inl ⟨allFine_nil, ?_, seen, rfl⟩
      rintro ⟨before, c, after, heq, _⟩
      cases before <;> cases heq
  | cons c rest ih =>
      intro done seen h hrows
      obtain ⟨hrow, hrest⟩ := List.forall_mem_cons.1 hrows
      simp only [allFine_cons, leavesAt_cons, List.foldlM_cons]
      rcases visitEntry_spec h hrow with ⟨hfine, seen', heq, h'⟩ |
        ⟨hleaves, heq⟩ | ⟨hfine, hleaves, heq⟩
      · -- What the loop does is decided by the entries behind.
        have hno := hfine.not_leaves
        rw [heq]
        simp only [hfine, hno, true_and, false_or]
        exact ih h' hrest
      · have hno : ¬ Fine n done c := fun hfine => hfine.not_leaves hleaves
        rw [heq]
        exact Or.inr (Or.inl ⟨Or.inl hleaves, fun hall => hno hall.1, rfl⟩)
      · rw [heq]
        refine Or.inr (Or.inr ⟨fun hall => hfine hall.1, ?_, rfl⟩)
        rintro (hl | ⟨hf, _⟩)
        · exact hleaves hl
        · exact hfine hf

end Loops

/-! ## The answer -/

theorem mem_cells {board : List (List Char)} {c : Cell} :
    c ∈ cells board ↔
      ∃ chars, board[c.row]? = some chars ∧ chars[c.col]? = some c.entry := by
  obtain ⟨row, col, entry⟩ := c
  simp only [cells, List.mem_flatMap, List.mem_map, Prod.exists,
    List.mk_mem_zipIdx_iff_getElem?, Cell.mk.injEq]
  constructor
  · rintro ⟨chars, row', hchars, entry', col', hentry, rfl, rfl, rfl⟩
    exact ⟨chars, hchars, hentry⟩
  · rintro ⟨chars, hchars, hentry⟩
    exact ⟨chars, row, hchars, entry, col, hentry, rfl, rfl, rfl⟩

/-- The cells that are filled in. -/
def entries (board : List (List Char)) : List Cell :=
  (cells board).filter (fun c => decide (c.entry ≠ '.'))

theorem row_lt {board : List (List Char)} {c : Cell} (hc : c ∈ entries board) :
    c.row < board.length := by
  obtain ⟨chars, hchars, _⟩ := mem_cells.1 (List.mem_filter.1 hc).1
  exact (List.getElem?_eq_some_iff.1 hchars).1

/-- The cells that are not filled in are passed over. -/
theorem foldlM_visit (n : ℕ) (l : List Cell) (seen : Seen) :
    l.foldlM (visit n) seen =
      (l.filter (fun c => decide (c.entry ≠ '.'))).foldlM (visitEntry n)
        seen := by
  induction l generalizing seen with
  | nil => rfl
  | cons c l ih =>
      rw [List.foldlM_cons, visit]
      by_cases hc : c.entry = '.'
      · rw [if_pos hc, List.filter_cons_of_neg (by simp [hc]), ← ih]
        rfl
      · rw [if_neg hc, List.filter_cons_of_pos (by simp [hc]),
          List.foldlM_cons]
        exact congrArg _ (funext ih)

/-- Two entries are the same digit in one row, column or box. -/
def Clash (c d : Cell) : Prop :=
  c.entry = d.entry ∧ (c.row = d.row ∨ c.col = d.col ∨ c.box = d.box)

theorem allFine_iff {n : ℕ} {l : List Cell} : AllFine n [] l ↔
    (∀ c ∈ l, c.col < n ∧ c.box < n) ∧ l.Pairwise (fun c d => ¬ Clash c d) := by
  constructor
  · intro h
    constructor
    · intro c hc
      obtain ⟨before, after, rfl⟩ := List.append_of_mem hc
      have hfine := h before c after rfl
      exact ⟨hfine.col, hfine.box⟩
    · induction l using List.reverseRecOn with
      | nil => exact .nil
      | append_singleton l c ih =>
          refine List.pairwise_append.2 ⟨ih ?_, List.pairwise_singleton _ _, ?_⟩
          · intro before d after heq
            exact h before d (after ++ [c]) (by rw [heq]; simp)
          · intro d hd c' hc'
            obtain rfl := List.mem_singleton.1 hc'
            have hfine := h l c' [] rfl
            rintro ⟨hentry, hrow | hcol | hbox⟩
            · exact hfine.rowNew ⟨d, hd, hrow, hentry⟩
            · exact hfine.colNew ⟨d, hd, hcol, hentry⟩
            · exact hfine.boxNew ⟨d, hd, hbox, hentry⟩
  · rintro ⟨hrange, hpair⟩ before c after rfl
    have hclash : ∀ d ∈ before, ¬ Clash d c := fun d hd =>
      (List.pairwise_append.1 hpair).2.2 d hd c List.mem_cons_self
    obtain ⟨hcol, hbox⟩ := hrange c (by simp)
    rw [List.nil_append]
    refine ⟨hcol, hbox, ?_, ?_, ?_⟩
    · rintro ⟨d, hd, hrow, hentry⟩
      exact hclash d hd ⟨hentry, Or.inl hrow⟩
    · rintro ⟨d, hd, hcol, hentry⟩
      exact hclash d hd ⟨hentry, Or.inr (Or.inl hcol)⟩
    · rintro ⟨d, hd, hbox, hentry⟩
      exact hclash d hd ⟨hentry, Or.inr (Or.inr hbox)⟩

/-- **The answer on any board.** It is `true` if and only if every entry is in
a column and a box there is a set for and no two entries clash; and the call is
undefined if and only if the first entry, in the order of the loops, that is
out of range or clashes with an earlier one is such that the code comes to a
set that is not there. -/
theorem isValidSudoku_exact (board : List (List Char)) :
    (isValidSudoku board = some true ↔
      (∀ c ∈ entries board,
          c.col < board.length ∧ c.box < board.length) ∧
        (entries board).Pairwise (fun c d => ¬ Clash c d)) ∧
      (isValidSudoku board = none ↔
        LeavesAt board.length [] (entries board)) := by
  have hnoted : Noted [] ⟨fun _ => ∅, fun _ => ∅, fun _ => ∅⟩ := by
    constructor <;> intro i e <;> simp
  have hloop : (cells board).foldlM (visit board.length)
      ⟨fun _ => ∅, fun _ => ∅, fun _ => ∅⟩ =
      (entries board).foldlM (visitEntry board.length)
        ⟨fun _ => ∅, fun _ => ∅, fun _ => ∅⟩ := foldlM_visit _ _ _
  rw [isValidSudoku, hloop, ← allFine_iff]
  rcases loop_spec (entries board) hnoted (fun c hc => row_lt hc) with
    ⟨hall, hno, seen, heq⟩ | ⟨hleaves, hno, heq⟩ | ⟨hno, hleaves, heq⟩
  · rw [heq]
    exact ⟨iff_of_true rfl hall, iff_of_false (fun h => by cases h) hno⟩
  · rw [heq]
    exact ⟨iff_of_false (fun h => by cases h) hno, iff_of_true rfl hleaves⟩
  · rw [heq]
    exact ⟨iff_of_false (fun h => by cases h) hno,
      iff_of_false (fun h => by cases h) hleaves⟩

/-- On a board of nine by nine the call is defined, and its answer is whether
no digit is twice in a row, in a column or in a box of three by three. -/
theorem isValidSudoku_nine {board : List (List Char)}
    (hrows : board.length = 9) (hcols : ∀ chars ∈ board, chars.length = 9) :
    isValidSudoku board ≠ none ∧
      (isValidSudoku board = some true ↔ (entries board).Pairwise
        (fun c d => c.entry = d.entry → c.row ≠ d.row ∧ c.col ≠ d.col ∧
          ¬ (c.row / 3 = d.row / 3 ∧ c.col / 3 = d.col / 3))) := by
  have hcell : ∀ c ∈ entries board, c.row < 9 ∧ c.col < 9 := by
    intro c hc
    obtain ⟨chars, hchars, hentry⟩ := mem_cells.1 (List.mem_filter.1 hc).1
    have hlength := hcols chars (List.mem_of_getElem? hchars)
    have hcol := (List.getElem?_eq_some_iff.1 hentry).1
    rw [hlength] at hcol
    exact ⟨hrows ▸ row_lt hc, hcol⟩
  have hrange : ∀ c ∈ entries board,
      c.col < board.length ∧ c.box < board.length := by
    intro c hc
    obtain ⟨hrow, hcol⟩ := hcell c hc
    rw [hrows]
    refine ⟨hcol, ?_⟩
    show c.row / 3 * 3 + c.col / 3 < 9
    omega
  obtain ⟨htrue, hnone⟩ := isValidSudoku_exact board
  constructor
  · intro h
    obtain ⟨before, c, after, heq, _, _, hout⟩ := hnone.1 h
    obtain ⟨hcol, hbox⟩ := hrange c (by rw [heq]; simp)
    rcases hout with hno | ⟨_, hno⟩
    · exact hno hcol
    · exact hno hbox
  · rw [htrue, and_iff_right hrange]
    refine List.Pairwise.iff_of_mem (fun {c d} hc hd => ?_)
    obtain ⟨_, hcol⟩ := hcell c hc
    obtain ⟨_, hcol'⟩ := hcell d hd
    have hbox : c.box = d.box ↔
        c.row / 3 = d.row / 3 ∧ c.col / 3 = d.col / 3 := by
      show c.row / 3 * 3 + c.col / 3 = d.row / 3 * 3 + d.col / 3 ↔ _
      omega
    rw [Clash, hbox, not_and, not_or, not_or]

end LearningCpp.Duplicates
