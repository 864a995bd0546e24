import LearningCpp.Lib.Checked

/-!
# Tic-tac-toe on a board of any size

`leetcode/medium/348.cpp`. The board itself is not kept: each player has a count
for every row and column and for the two diagonals, and has won with the move
that brings one of the counts it looks at to `n`.

An access to a vector outside of its bounds is undefined, and has no result
here; nor has a sum `row + col` that leaves the range of an `int`. The counts are
at most `n` in a game in which no cell is played twice.
-/

namespace LearningCpp.TicTacToe

open LearningCpp.Lib

/-- `v[i]`. -/
def read (v : List Int) (i : Int) : Option Int :=
  if 0 ≤ i then v[i.toNat]? else none

/-- `v[i]++`. -/
def increment (v : List Int) (i : Int) : Option (List Int) :=
  if 0 ≤ i ∧ i < v.length then some (v.modify i.toNat (· + 1)) else none

structure Player where
  rows : List Int
  cols : List Int
  diagonal : Int
  antidiag : Int
  n : Int
  playernum : Int
deriving DecidableEq, Repr

/-- The constructor, whose `resize` makes `n` zeros. -/
def Player.make (n playernum : Int) : Player where
  rows := List.replicate n.toNat 0
  cols := List.replicate n.toNat 0
  diagonal := 0
  antidiag := 0
  n
  playernum

/-- The part of `place` about the diagonals: two statements, whatever the
indentation says, since the `else` is that of the inner `if`. -/
def Player.placeDiagonals (p : Player) (row col : Int) : Option Player := do
  let p := if row = col then { p with diagonal := p.diagonal + 1 } else p
  if (← signed 32 (row + col)) = p.n - 1 then
    some { p with antidiag := p.antidiag + 1 }
  else if (← signed 32 (row + col)) = p.n - 1 then
    some { p with antidiag := p.antidiag + 1 }
  else some p

/-- `place`. -/
def Player.place (p : Player) (row col : Int) : Option (Player × Int) := do
  let rows ← increment p.rows row
  let cols ← increment p.cols col
  let p ← { p with rows, cols }.placeDiagonals row col
  let inRow ← read p.rows row
  let inCol ← read p.cols col
  if inRow = p.n ∨ inCol = p.n ∨ p.diagonal = p.n ∨ p.antidiag = p.n then
    some (p, p.playernum)
  else some (p, 0)

/-- The arguments of a call of `move`. -/
structure Move where
  row : Int
  col : Int
  player : Int
deriving DecidableEq, Repr

end LearningCpp.TicTacToe

namespace LearningCpp

open LearningCpp.TicTacToe

structure TicTacToe where
  player1 : Player
  player2 : Player
deriving DecidableEq, Repr

namespace TicTacToe

/-- The constructor. -/
def make (n : Int) : TicTacToe := ⟨.make n 1, .make n 2⟩

/-- `move`. -/
def move (t : TicTacToe) (m : Move) : Option (TicTacToe × Int) :=
  if m.player = 1 then
    (t.player1.place m.row m.col).map (fun (p, r) => ({ t with player1 := p }, r))
  else
    (t.player2.place m.row m.col).map (fun (p, r) => ({ t with player2 := p }, r))

/-- What the moves of a game return. -/
def play (t : TicTacToe) : List Move → Option (List Int)
  | [] => some []
  | m :: ms => do
      let (t, r) ← t.move m
      let rs ← play t ms
      some (r :: rs)

end TicTacToe

end LearningCpp
