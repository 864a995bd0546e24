import LearningCpp.Lib.Run
import LearningCpp.TicTacToe.Model

/-!
# The counts refine the board

A line is a row, a column or a diagonal: `n` different cells in a sequence. What
a player keeps for a line is the number of its cells with that player's mark, and
a new mark on a cell adds one to the lines through the cell and nothing to the
others. So a line is complete exactly if its count is `n`.

A move looks at four lines only. Up to the first win that is a look at all of
them: a line not through the cell just marked was complete before, and the move
that completed it would have won.
-/

namespace LearningCpp.TicTacToe

open LearningCpp.Lib

/-! ## Boards and lines -/

/-- The mark in each cell, `0` in one that is free. -/
abbrev Board := Int → Int → Int

/-- The board after a move. -/
def mark (b : Board) (m : Move) : Board := fun row col =>
  if row = m.row ∧ col = m.col then m.player else b row col

/-- The board of all marks so far. -/
def board (moves : List Move) : Board := moves.foldl mark (fun _ _ => 0)

inductive Line where
  | row (r : Int)
  | col (c : Int)
  | diagonal
  | antidiag
deriving DecidableEq, Repr

/-- The `i`-th cell of a line. -/
def Line.cell (n : Int) : Line → Int → Int × Int
  | .row r, i => (r, i)
  | .col c, i => (i, c)
  | .diagonal, i => (i, i)
  | .antidiag, i => (i, n - 1 - i)

/-- The mark in the `i`-th cell of a line. -/
def Line.at (n : Int) (b : Board) (l : Line) (i : Int) : Int :=
  b (l.cell n i).1 (l.cell n i).2

/-- The player occupies the whole line. -/
def Line.Complete (n : Int) (b : Board) (player : Int) (l : Line) : Prop :=
  ∀ i, 0 ≤ i → i < n → l.at n b i = player

/-- How many cells of the line the player occupies. -/
def Line.count (n : Int) (b : Board) (player : Int) (l : Line) : ℕ :=
  ((Finset.range n.toNat).filter (fun i : ℕ => l.at n b i = player)).card

instance (n : Int) (b : Board) (player : Int) (l : Line) :
    Decidable (l.Complete n b player) :=
  inferInstanceAs (Decidable (∀ i, 0 ≤ i → i < n → _))

variable {n player : Int} {b : Board} {m : Move} {l : Line}

theorem Line.cell_injective {i j : Int} (h : l.cell n i = l.cell n j) :
    i = j := by
  cases l with
  | row r => exact (Prod.mk.inj h).2
  | col c => exact (Prod.mk.inj h).1
  | diagonal => exact (Prod.mk.inj h).1
  | antidiag => exact (Prod.mk.inj h).1

theorem Line.complete_iff (hn : 0 ≤ n) :
    l.Complete n b player ↔ (l.count n b player : Int) = n := by
  have hcard : l.count n b player = (Finset.range n.toNat).card ↔
      ∀ i ∈ Finset.range n.toNat, l.at n b (i : ℕ) = player :=
    Finset.card_filter_eq_iff
  rw [Finset.card_range] at hcard
  constructor
  · intro h
    have hcount := hcard.2 (by
      intro i hi
      have hi := Finset.mem_range.1 hi
      exact h i (by omega) (by omega))
    omega
  · intro h i hlow hhigh
    have hat := hcard.1 (by omega) i.toNat (Finset.mem_range.2 (by omega))
    rwa [Int.toNat_of_nonneg hlow] at hat

/-- A mark on a cell of the line. -/
theorem Line.at_mark_self {i : Int} (h : l.cell n i = (m.row, m.col)) :
    l.at n (mark b m) i = m.player := by
  unfold Line.at mark
  rw [h]
  exact if_pos ⟨rfl, rfl⟩

theorem Line.at_mark_ne {i : Int} (h : l.cell n i ≠ (m.row, m.col)) :
    l.at n (mark b m) i = l.at n b i := by
  unfold Line.at mark
  refine if_neg ?_
  rintro ⟨hrow, hcol⟩
  exact h (Prod.ext hrow hcol)

/-- A new mark of the player on the line. -/
theorem Line.count_mark_on {i : Int} (hlow : 0 ≤ i) (hhigh : i < n)
    (hcell : l.cell n i = (m.row, m.col)) (hfree : b m.row m.col ≠ m.player) :
    l.count n (mark b m) m.player = l.count n b m.player + 1 := by
  obtain ⟨k, rfl⟩ := Int.eq_ofNat_of_zero_le hlow
  have hk : k ∈ Finset.range n.toNat := Finset.mem_range.2 (by omega)
  have hinsert : (Finset.range n.toNat).filter
      (fun j : ℕ => l.at n (mark b m) j = m.player) =
      insert k ((Finset.range n.toNat).filter
        (fun j : ℕ => l.at n b j = m.player)) := by
    ext j
    simp only [Finset.mem_insert, Finset.mem_filter]
    by_cases hj : j = k
    · simp [hj, hk, at_mark_self hcell]
    · have hne : l.cell n j ≠ (m.row, m.col) := by
        intro h
        exact hj (Int.ofNat_inj.1 (cell_injective (h.trans hcell.symm)))
      simp [hj, at_mark_ne hne]
  have hnew : k ∉ (Finset.range n.toNat).filter
      (fun j : ℕ => l.at n b j = m.player) := by
    intro h
    have hat := (Finset.mem_filter.1 h).2
    unfold Line.at at hat
    rw [hcell] at hat
    exact hfree hat
  unfold count
  rw [hinsert, Finset.card_insert_of_notMem hnew]

/-- A mark that is not on the line. -/
theorem Line.count_mark_off
    (hcell : ∀ i, 0 ≤ i → i < n → l.cell n i ≠ (m.row, m.col)) :
    l.count n (mark b m) player = l.count n b player := by
  unfold count
  congr 1
  refine Finset.filter_congr ?_
  intro i hi
  have hi := Finset.mem_range.1 hi
  rw [at_mark_ne (hcell i (by omega) (by omega))]

/-- A mark of the other player, on a free cell. -/
theorem Line.count_mark_other (hother : m.player ≠ player)
    (hfree : b m.row m.col ≠ player) :
    l.count n (mark b m) player = l.count n b player := by
  unfold count
  congr 1
  refine Finset.filter_congr ?_
  intro i _
  by_cases hcell : l.cell n i = (m.row, m.col)
  · have hat : l.at n b i = b m.row m.col := by
      unfold Line.at
      rw [hcell]
    rw [at_mark_self hcell, hat]
    exact ⟨fun h => absurd h hother, fun h => absurd h hfree⟩
  · rw [at_mark_ne hcell]

/-! ## A move -/

/-- What is asked of a move on a board: the player is one of the two, and the
cell is on the board and free. -/
structure Legal (n : Int) (b : Board) (m : Move) : Prop where
  player : m.player = 1 ∨ m.player = 2
  row : 0 ≤ m.row ∧ m.row < n
  col : 0 ≤ m.col ∧ m.col < n
  free : b m.row m.col = 0

/-- After the move its player occupies the move's row or column or a diagonal. -/
def Wins (n : Int) (b : Board) (m : Move) : Prop :=
  (Line.row m.row).Complete n b m.player ∨
    (Line.col m.col).Complete n b m.player ∨
    Line.diagonal.Complete n b m.player ∨ Line.antidiag.Complete n b m.player

instance (n : Int) (b : Board) (m : Move) : Decidable (Wins n b m) :=
  inferInstanceAs (Decidable (_ ∨ _))

/-- What a player keeps is how many of its marks each line has. -/
structure Counts (n : Int) (b : Board) (p : Player) : Prop where
  size : p.n = n
  rows : p.rows.length = n.toNat
  cols : p.cols.length = n.toNat
  row : ∀ r, 0 ≤ r → r < n →
    read p.rows r = some ((Line.row r).count n b p.playernum : Int)
  col : ∀ c, 0 ≤ c → c < n →
    read p.cols c = some ((Line.col c).count n b p.playernum : Int)
  diagonal : p.diagonal = Line.diagonal.count n b p.playernum
  antidiag : p.antidiag = Line.antidiag.count n b p.playernum

theorem increment_eq {v : List Int} {i : Int} (hlow : 0 ≤ i)
    (hhigh : i < v.length) :
    increment v i = some (v.modify i.toNat (· + 1)) := if_pos ⟨hlow, hhigh⟩

theorem read_modify {v : List Int} {i j x : Int} (hi : 0 ≤ i)
    (hread : read v j = some x) :
    read (v.modify i.toNat (· + 1)) j = some (if j = i then x + 1 else x) := by
  unfold read at hread ⊢
  split at hread
  · next hj =>
      rw [if_pos hj, List.getElem?_modify, hread]
      by_cases heq : j = i
      · rw [if_pos heq, Option.map_eq_map, Option.map_some,
          if_pos (by rw [heq])]
      · rw [if_neg heq, Option.map_eq_map, Option.map_some,
          if_neg (by omega)]
  · cases hread

/-- The player with the marked cell counted. -/
def Player.counted (p : Player) (row col : Int) : Player where
  rows := p.rows.modify row.toNat (· + 1)
  cols := p.cols.modify col.toNat (· + 1)
  diagonal := if row = col then p.diagonal + 1 else p.diagonal
  antidiag := if row + col = p.n - 1 then p.antidiag + 1 else p.antidiag
  n := p.n
  playernum := p.playernum

/-- The line's count after the move: one more if the move is on the line. -/
theorem Legal.count_mark (hm : Legal n b m) (l : Line) (on : Prop)
    [Decidable on]
    (hon : on → ∃ i, 0 ≤ i ∧ i < n ∧ l.cell n i = (m.row, m.col))
    (hoff : ¬ on → ∀ i, 0 ≤ i → i < n → l.cell n i ≠ (m.row, m.col)) :
    (l.count n (mark b m) m.player : Int) =
      if on then (l.count n b m.player : Int) + 1
      else (l.count n b m.player : Int) := by
  have hfree : b m.row m.col ≠ m.player := by
    rw [hm.free]
    rcases hm.player with h | h
    all_goals
      rw [h]
      decide
  by_cases h : on
  · obtain ⟨i, hlow, hhigh, hcell⟩ := hon h
    rw [if_pos h, Line.count_mark_on hlow hhigh hcell hfree]
    rfl
  · rw [if_neg h, Line.count_mark_off (hoff h)]

theorem Counts.counted {p : Player} (h : Counts n b p) (hm : Legal n b m)
    (hplayer : p.playernum = m.player) :
    Counts n (mark b m) (p.counted m.row m.col) where
  size := h.size
  rows := (List.length_modify _ _ _).trans h.rows
  cols := (List.length_modify _ _ _).trans h.cols
  row := by
    intro r hlow hhigh
    show read (p.rows.modify m.row.toNat (· + 1)) r = _
    rw [read_modify hm.row.1 (h.row r hlow hhigh)]
    show _ = some ((Line.row r).count n (mark b m) p.playernum : Int)
    rw [hplayer, hm.count_mark (.row r) (r = m.row)]
    · rintro rfl
      exact ⟨m.col, hm.col.1, hm.col.2, rfl⟩
    · intro hne i _ _ heq
      exact hne (Prod.mk.inj heq).1
  col := by
    intro c hlow hhigh
    show read (p.cols.modify m.col.toNat (· + 1)) c = _
    rw [read_modify hm.col.1 (h.col c hlow hhigh)]
    show _ = some ((Line.col c).count n (mark b m) p.playernum : Int)
    rw [hplayer, hm.count_mark (.col c) (c = m.col)]
    · rintro rfl
      exact ⟨m.row, hm.row.1, hm.row.2, rfl⟩
    · intro hne i _ _ heq
      exact hne (Prod.mk.inj heq).2
  diagonal := by
    show (if m.row = m.col then p.diagonal + 1 else p.diagonal) =
      (Line.diagonal.count n (mark b m) p.playernum : Int)
    rw [h.diagonal, hplayer, hm.count_mark .diagonal (m.row = m.col)]
    · intro heq
      exact ⟨m.row, hm.row.1, hm.row.2, Prod.ext rfl heq⟩
    · intro hne i _ _ heq
      obtain ⟨hrow, hcol⟩ := Prod.mk.inj heq
      exact hne (hrow.symm.trans hcol)
  antidiag := by
    show (if m.row + m.col = p.n - 1 then p.antidiag + 1 else p.antidiag) =
      (Line.antidiag.count n (mark b m) p.playernum : Int)
    rw [h.antidiag, h.size, hplayer,
      hm.count_mark .antidiag (m.row + m.col = n - 1)]
    · intro heq
      refine ⟨m.row, hm.row.1, hm.row.2, Prod.ext rfl ?_⟩
      show n - 1 - m.row = m.col
      omega
    · intro hne i _ _ heq
      obtain ⟨hrow, hcol⟩ := Prod.mk.inj heq
      omega

/-- The sum of two coordinates fits if it is not too large. -/
theorem Legal.fits_sum (hm : Legal n b m) (hsum : m.row + m.col < 2 ^ 31) :
    Fits 32 (m.row + m.col) := by
  have hrow := hm.row.1
  have hcol := hm.col.1
  exact fits_int.2 ⟨by omega, hsum⟩

theorem Counts.placeDiagonals {p : Player} (hsum : Fits 32 (m.row + m.col)) :
    Player.placeDiagonals
        { p with
          rows := (p.counted m.row m.col).rows
          cols := (p.counted m.row m.col).cols } m.row m.col =
      some (p.counted m.row m.col) := by
  unfold Player.placeDiagonals Player.counted
  simp only [signed_of_fits hsum, Option.bind_eq_bind, Option.bind_some]
  by_cases hdiag : m.row = m.col
  · simp only [if_pos hdiag]
    by_cases hanti : m.row + m.col = p.n - 1
    · rw [if_pos hanti, if_pos hanti]
    · rw [if_neg hanti, if_neg hanti, if_neg hanti]
  · simp only [if_neg hdiag]
    by_cases hanti : m.row + m.col = p.n - 1
    · rw [if_pos hanti, if_pos hanti]
    · rw [if_neg hanti, if_neg hanti, if_neg hanti]

/-- `place` counts the cell, and compares the four counts with `n`. -/
theorem Counts.place {p : Player} (h : Counts n b p) (hm : Legal n b m)
    (hsum : m.row + m.col < 2 ^ 31) (hplayer : p.playernum = m.player) :
    p.place m.row m.col = some (p.counted m.row m.col,
      if Wins n (mark b m) m then m.player else 0) := by
  have hn : 0 ≤ n := by
    have hrow := hm.row
    omega
  have hcounts := h.counted hm hplayer
  have hrows : increment p.rows m.row =
      some (p.counted m.row m.col).rows :=
    increment_eq hm.row.1 (by rw [h.rows]; have := hm.row.2; omega)
  have hcols : increment p.cols m.col =
      some (p.counted m.row m.col).cols :=
    increment_eq hm.col.1 (by rw [h.cols]; have := hm.col.2; omega)
  have hinRow := hcounts.row m.row hm.row.1 hm.row.2
  have hinCol := hcounts.col m.col hm.col.1 hm.col.2
  have hsize : (p.counted m.row m.col).n = n := h.size
  have hnum : (p.counted m.row m.col).playernum = m.player := hplayer
  have hwins : Wins n (mark b m) m ↔
      ((Line.row m.row).count n (mark b m) m.player : Int) = n ∨
      ((Line.col m.col).count n (mark b m) m.player : Int) = n ∨
      (p.counted m.row m.col).diagonal = n ∨
      (p.counted m.row m.col).antidiag = n := by
    unfold Wins
    rw [hcounts.diagonal, hcounts.antidiag, hnum, Line.complete_iff hn,
      Line.complete_iff hn, Line.complete_iff hn, Line.complete_iff hn]
  unfold Player.place
  rw [hrows, hcols]
  simp only [Option.bind_eq_bind, Option.bind_some]
  rw [Counts.placeDiagonals (hm.fits_sum hsum)]
  simp only [Option.bind_some, hinRow, hinCol, hsize, hnum, ← hwins]
  by_cases hwin : Wins n (mark b m) m
  · rw [if_pos hwin, if_pos hwin]
  · rw [if_neg hwin, if_neg hwin]

/-- A move of the other player changes none of the counts. -/
theorem Counts.other {p : Player} (h : Counts n b p) (hm : Legal n b m)
    (hplayer : m.player ≠ p.playernum) (hnum : p.playernum ≠ 0) :
    Counts n (mark b m) p := by
  have hcount : ∀ l : Line,
      l.count n (mark b m) p.playernum = l.count n b p.playernum := by
    intro l
    refine Line.count_mark_other hplayer ?_
    rw [hm.free]
    exact hnum.symm
  constructor
  case size => exact h.size
  case rows => exact h.rows
  case cols => exact h.cols
  case row =>
    intro r hlow hhigh
    rw [hcount]
    exact h.row r hlow hhigh
  case col =>
    intro c hlow hhigh
    rw [hcount]
    exact h.col c hlow hhigh
  case diagonal =>
    rw [hcount]
    exact h.diagonal
  case antidiag =>
    rw [hcount]
    exact h.antidiag

/-- The two players' counts are those of the board. -/
structure Refines (n : Int) (b : Board) (t : TicTacToe) : Prop where
  counts1 : Counts n b t.player1
  num1 : t.player1.playernum = 1
  counts2 : Counts n b t.player2
  num2 : t.player2.playernum = 2

theorem Refines.move {t : TicTacToe} (h : Refines n b t) (hm : Legal n b m)
    (hsum : m.row + m.col < 2 ^ 31) :
    ∃ t', t.move m =
        some (t', if Wins n (mark b m) m then m.player else 0) ∧
      Refines n (mark b m) t' := by
  unfold TicTacToe.move
  by_cases hplayer : m.player = 1
  · have hnum : t.player1.playernum = m.player := h.num1.trans hplayer.symm
    rw [if_pos hplayer, h.counts1.place hm hsum hnum]
    refine ⟨_, rfl, ?_⟩
    constructor
    case counts1 => exact h.counts1.counted hm hnum
    case num1 => exact h.num1
    case counts2 =>
      refine h.counts2.other hm ?_ ?_
      all_goals
        rw [h.num2]
        omega
    case num2 => exact h.num2
  · have hplayer : m.player = 2 := hm.player.resolve_left hplayer
    have hnum : t.player2.playernum = m.player := h.num2.trans hplayer.symm
    rw [if_neg (by omega), h.counts2.place hm hsum hnum]
    refine ⟨_, rfl, ?_⟩
    constructor
    case counts1 =>
      refine h.counts1.other hm ?_ ?_
      all_goals
        rw [h.num1]
        omega
    case num1 => exact h.num1
    case counts2 => exact h.counts2.counted hm hnum
    case num2 => exact h.num2

theorem Counts.make {playernum : Int} (hnum : playernum ≠ 0) :
    Counts n (board []) (.make n playernum) := by
  have hcount : ∀ l : Line, l.count n (board []) playernum = 0 := by
    intro l
    refine Finset.card_eq_zero.2 (Finset.filter_eq_empty_iff.2 ?_)
    intro i _ h
    exact hnum h.symm
  have hread : ∀ r, 0 ≤ r → r < n →
      read (List.replicate n.toNat 0) r = some 0 := by
    intro r hlow hhigh
    rw [read, if_pos hlow, List.getElem?_replicate, if_pos (by omega)]
  constructor
  case size => rfl
  case rows => exact List.length_replicate
  case cols => exact List.length_replicate
  case row =>
    intro r hlow hhigh
    refine (hread r hlow hhigh).trans ?_
    show _ = some ((Line.row r).count n (board []) playernum : Int)
    rw [hcount]
    rfl
  case col =>
    intro c hlow hhigh
    refine (hread c hlow hhigh).trans ?_
    show _ = some ((Line.col c).count n (board []) playernum : Int)
    rw [hcount]
    rfl
  case diagonal =>
    show (0 : Int) = (Line.diagonal.count n (board []) playernum : Int)
    rw [hcount]
    rfl
  case antidiag =>
    show (0 : Int) = (Line.antidiag.count n (board []) playernum : Int)
    rw [hcount]
    rfl

/-! ## A full scan -/

/-- All lines of the board. -/
def lines (n : Int) : List Line :=
  (List.range n.toNat).map (fun r => .row r) ++
    (List.range n.toNat).map (fun c => .col c) ++ [.diagonal, .antidiag]

/-- The player occupies a whole line. -/
def HasLine (n : Int) (b : Board) (player : Int) : Prop :=
  ∃ l ∈ lines n, l.Complete n b player

instance (n : Int) (b : Board) (player : Int) :
    Decidable (HasLine n b player) :=
  inferInstanceAs (Decidable (∃ l ∈ lines n, _))

theorem Wins.hasLine {b' : Board} (hm : Legal n b m) (h : Wins n b' m) :
    HasLine n b' m.player := by
  have hrow := hm.row
  have hcol := hm.col
  unfold HasLine lines
  rcases h with h | h | h | h
  · refine ⟨.row m.row, ?_, h⟩
    have hmem : (Line.row m.row) ∈
        (List.range n.toNat).map (fun r : ℕ => Line.row r) :=
      List.mem_map.2 ⟨m.row.toNat, List.mem_range.2 (by omega),
        congrArg Line.row (Int.toNat_of_nonneg hrow.1)⟩
    exact List.mem_append_left _ (List.mem_append_left _ hmem)
  · refine ⟨.col m.col, ?_, h⟩
    have hmem : (Line.col m.col) ∈
        (List.range n.toNat).map (fun c : ℕ => Line.col c) :=
      List.mem_map.2 ⟨m.col.toNat, List.mem_range.2 (by omega),
        congrArg Line.col (Int.toNat_of_nonneg hcol.1)⟩
    exact List.mem_append_left _ (List.mem_append_right _ hmem)
  · exact ⟨.diagonal, by simp, h⟩
  · exact ⟨.antidiag, by simp, h⟩

/-- A line that is complete after a move and was not before is one of the four
the move looks at, and the mover's. -/
theorem Line.Complete.wins
    (h : l.Complete n (mark b m) player) (hbefore : ¬ l.Complete n b player) :
    player = m.player ∧ Wins n (mark b m) m := by
  have hthrough : ∃ i, 0 ≤ i ∧ i < n ∧ l.cell n i = (m.row, m.col) := by
    by_contra hnone
    push Not at hnone
    refine hbefore ?_
    intro i hlow hhigh
    rw [← Line.at_mark_ne (hnone i hlow hhigh)]
    exact h i hlow hhigh
  obtain ⟨i, hlow, hhigh, hcell⟩ := hthrough
  have hplayer : player = m.player := by
    rw [← h i hlow hhigh]
    exact Line.at_mark_self hcell
  subst hplayer
  refine ⟨rfl, ?_⟩
  unfold Wins
  cases l with
  | row r =>
      obtain ⟨rfl, _⟩ := Prod.mk.inj hcell
      exact .inl h
  | col c =>
      obtain ⟨_, rfl⟩ := Prod.mk.inj hcell
      exact .inr (.inl h)
  | diagonal => exact .inr (.inr (.inl h))
  | antidiag => exact .inr (.inr (.inr h))

/-- As long as nobody has a line, a move wins exactly if its player has one. -/
theorem Legal.wins_iff (hm : Legal n b m)
    (hbefore : ∀ player, player ≠ 0 → ¬ HasLine n b player)
    (hplayer : player ≠ 0) :
    HasLine n (mark b m) player ↔
      player = m.player ∧ Wins n (mark b m) m := by
  constructor
  · rintro ⟨l, hl, h⟩
    exact h.wins (fun h' => hbefore player hplayer ⟨l, hl, h'⟩)
  · rintro ⟨rfl, h⟩
    exact h.hasLine hm

/-! ## Games -/

/-- What a game returns from a board on: each move the player that wins with it
or zero. While nobody has a line, that is what a scan of all lines finds. -/
theorem Refines.play (moves : List Move) :
    ∀ {b : Board} {t : TicTacToe}, Refines n b t →
      Along mark (Legal n) b moves →
      (∀ m ∈ moves, m.row + m.col < 2 ^ 31) →
      ∃ answers, t.play moves = some answers ∧
        answers.length = moves.length ∧
        ∀ before m after, moves = before ++ m :: after →
          answers[before.length]? =
            some (if Wins n ((before ++ [m]).foldl mark b) m then m.player
              else 0) ∧
          ((∀ player, player ≠ 0 → ¬ HasLine n b player) →
            (∀ r ∈ answers.take before.length, r = 0) →
            (Wins n ((before ++ [m]).foldl mark b) m ↔
              HasLine n ((before ++ [m]).foldl mark b) m.player)) := by
  induction moves with
  | nil =>
      intro b t _ _ _
      refine ⟨[], rfl, rfl, ?_⟩
      intro before m after heq
      cases before with
      | nil => cases heq
      | cons _ _ => cases heq
  | cons x moves ih =>
      intro b t h hlegal hsums
      rw [List.forall_mem_cons] at hsums
      have hx : x.player ≠ 0 := by
        rcases hlegal.1.player with hx | hx
        all_goals
          rw [hx]
          decide
      obtain ⟨t', hmove, h'⟩ := h.move hlegal.1 hsums.1
      obtain ⟨answers, hplay, hlength, hanswers⟩ := ih h' hlegal.2 hsums.2
      refine ⟨(if Wins n (mark b x) x then x.player else 0) :: answers, ?_,
        congrArg (· + 1) hlength, ?_⟩
      · rw [TicTacToe.play, hmove]
        simp only [Option.bind_eq_bind, Option.bind_some, hplay]
      · intro before m after heq
        cases before with
        | nil =>
            obtain ⟨rfl, _⟩ := List.cons.inj heq
            refine ⟨rfl, ?_⟩
            intro hnone _
            have hwins := hlegal.1.wins_iff hnone hx
            constructor
            · intro hwin
              exact hwins.2 ⟨rfl, hwin⟩
            · intro hline
              exact (hwins.1 hline).2
        | cons y before =>
            obtain ⟨rfl, hmoves⟩ := List.cons.inj heq
            obtain ⟨hanswer, hscan⟩ := hanswers before m after hmoves
            refine ⟨hanswer, ?_⟩
            intro hnone hzero
            rw [List.length_cons, List.take_succ_cons, List.forall_mem_cons]
              at hzero
            -- The first move did not win, so still nobody has a line.
            have hlost : ¬ Wins n (mark b x) x := by
              intro hwin
              rw [if_pos hwin] at hzero
              exact hx hzero.1
            refine hscan ?_ hzero.2
            intro player hplayer hline
            exact hlost ((hlegal.1.wins_iff hnone hplayer).1 hline).2

/-- A game in which no cell is played twice is legal move by move. -/
theorem legal_game {moves : List Move}
    (hmoves : ∀ m ∈ moves, (m.player = 1 ∨ m.player = 2) ∧
      (0 ≤ m.row ∧ m.row < n) ∧ 0 ≤ m.col ∧ m.col < n)
    (hcells : (moves.map (fun m => (m.row, m.col))).Nodup) :
    ∀ {b : Board}, (∀ m ∈ moves, b m.row m.col = 0) →
      Along mark (Legal n) b moves := by
  induction moves with
  | nil => intro b _; trivial
  | cons x moves ih =>
      intro b hfree
      rw [List.map_cons, List.nodup_cons] at hcells
      rw [List.forall_mem_cons] at hmoves hfree
      obtain ⟨⟨hplayer, hrow, hcol⟩, hmoves⟩ := hmoves
      refine ⟨⟨hplayer, hrow, hcol, hfree.1⟩, ih hmoves hcells.2 ?_⟩
      intro m hm
      refine (if_neg ?_).trans (hfree.2 m hm)
      rintro ⟨hrow, hcol⟩
      refine hcells.1 ?_
      rw [← hrow, ← hcol]
      exact List.mem_map_of_mem (f := fun m : Move => (m.row, m.col)) hm

/-- `place` has a result only where the sum of the coordinates does not
overflow. -/
theorem place_fits {p : Player} {row col : Int} {r : Player × Int}
    (h : p.place row col = some r) : Fits 32 (row + col) := by
  unfold Player.place at h
  simp only [Option.bind_eq_bind, Option.bind_eq_some_iff] at h
  obtain ⟨_, _, _, _, _, hdiagonals, _⟩ := h
  unfold Player.placeDiagonals at hdiagonals
  simp only [Option.bind_eq_bind, Option.bind_eq_some_iff] at hdiagonals
  obtain ⟨sum, hsum, _⟩ := hdiagonals
  exact (signed_eq_some_iff.1 hsum).1

theorem play_fits {moves : List Move} : ∀ {t : TicTacToe} {answers : List Int},
    t.play moves = some answers → ∀ m ∈ moves, Fits 32 (m.row + m.col) := by
  induction moves with
  | nil =>
      intro t answers _ m hm
      cases hm
  | cons x moves ih =>
      intro t answers h
      rw [TicTacToe.play, Option.bind_eq_bind, Option.bind_eq_some_iff] at h
      obtain ⟨⟨t', r⟩, hmove, hrest⟩ := h
      simp only [Option.bind_eq_bind, Option.bind_eq_some_iff] at hrest
      obtain ⟨rs, hplay, _⟩ := hrest
      rw [List.forall_mem_cons]
      refine ⟨?_, ih hplay⟩
      unfold TicTacToe.move at hmove
      split at hmove
      · obtain ⟨_, hplace, _⟩ := Option.map_eq_some_iff.1 hmove
        exact place_fits hplace
      · obtain ⟨_, hplace, _⟩ := Option.map_eq_some_iff.1 hmove
        exact place_fits hplace

/-- Each move returns its player exactly if the player then occupies its row,
its column or a diagonal, and as long as no move before has won exactly if a
scan of the board finds a line of that player. -/
def AnswersBoard (n : Int) (moves : List Move) : Prop :=
  ∃ answers, (TicTacToe.make n).play moves = some answers ∧
    answers.length = moves.length ∧
    ∀ before m after, moves = before ++ m :: after →
      answers[before.length]? =
        some (if Wins n (board (before ++ [m])) m then m.player else 0) ∧
      ((∀ r ∈ answers.take before.length, r = 0) →
        answers[before.length]? =
          some (if HasLine n (board (before ++ [m])) m.player then m.player
            else 0))

/-- The game is answered as the board says exactly if no sum of the two
coordinates of a move overflows, as none does for `n` up to `2 ^ 30`. -/
theorem play_refines_board_iff (hn : 1 ≤ n) {moves : List Move}
    (hmoves : ∀ m ∈ moves, (m.player = 1 ∨ m.player = 2) ∧
      (0 ≤ m.row ∧ m.row < n) ∧ 0 ≤ m.col ∧ m.col < n)
    (hcells : (moves.map (fun m => (m.row, m.col))).Nodup) :
    AnswersBoard n moves ↔ ∀ m ∈ moves, m.row + m.col < 2 ^ 31 := by
  constructor
  · rintro ⟨answers, hplay, _⟩ m hm
    exact (fits_int.1 (play_fits hplay m hm)).2
  · intro hsums
    have hmake : Refines n (board []) (TicTacToe.make n) :=
      ⟨Counts.make (by decide), rfl, Counts.make (by decide), rfl⟩
    have hnone : ∀ player, player ≠ 0 → ¬ HasLine n (board []) player := by
      rintro player hplayer ⟨l, _, h⟩
      exact hplayer (h 0 le_rfl (by omega)).symm
    obtain ⟨answers, hplay, hlength, hanswers⟩ :=
      Refines.play moves hmake (legal_game hmoves hcells (fun _ _ => rfl)) hsums
    refine ⟨answers, hplay, hlength, ?_⟩
    intro before m after heq
    obtain ⟨hanswer, hscan⟩ := hanswers before m after heq
    refine ⟨hanswer, ?_⟩
    intro hzero
    refine hanswer.trans (congrArg some (if_congr ?_ rfl rfl))
    exact hscan hnone hzero

/-- A game of two by two that the first player wins with a diagonal. -/
theorem play_refines_board_two :
    AnswersBoard 2 [⟨0, 0, 1⟩, ⟨0, 1, 2⟩, ⟨1, 1, 1⟩] ∧
      (TicTacToe.make 2).play [⟨0, 0, 1⟩, ⟨0, 1, 2⟩, ⟨1, 1, 1⟩] =
        some [0, 0, 1] := by
  refine ⟨?_, by decide⟩
  exact (play_refines_board_iff (by decide) (by decide) (by decide)).2
    (by decide)

/-- A first move in the last corner of a board of `2 ^ 30 + 1` by
`2 ^ 30 + 1`. -/
theorem play_overflows :
    let moves : List Move := [⟨1073741824, 1073741824, 1⟩]
    (∀ m ∈ moves, (m.player = 1 ∨ m.player = 2) ∧
      (0 ≤ m.row ∧ m.row < 1073741825) ∧ 0 ≤ m.col ∧ m.col < 1073741825) ∧
    (moves.map (fun m => (m.row, m.col))).Nodup ∧
    ¬ AnswersBoard 1073741825 moves := by
  refine ⟨by decide, by decide, ?_⟩
  rintro ⟨answers, hplay, _⟩
  have hfits := play_fits hplay _ (List.mem_singleton_self _)
  exact absurd hfits (by decide)

end LearningCpp.TicTacToe
