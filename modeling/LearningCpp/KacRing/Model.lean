import LearningCpp.Lib.Run

/-!
# The Kac ring

`get_cracked/coding/kac_ring.cpp`. The constructor simulates two laps and
saves the mean colour after every step; from then on the object is an index
into that table.

A `double` of the table is the fraction it approximates. `step` and `kstep`
compute in `size_t`, and `kstep` first converts its `long long` to one, so
both sums are taken modulo `2 ^ 64` before they are reduced.
-/

namespace LearningCpp

structure KacRing where
  saved : List ℚ
  currStep : Nat
  period : Nat

namespace KacRing

/-- `is_marked`. -/
def isMarked (N : Nat) (marked : List Nat) : List Bool :=
  marked.foldl (fun m i => m.set i true) (List.replicate N false)

/-- `next_total` and `next`, as the inner loop builds them up. -/
structure Inner where
  nextTotal : Int
  next : List Int

/-- The body of the inner loop, for the position `i`. -/
def innerBody (N : Nat) (marks : List Bool) (balls : List Int) (s : Inner)
    (i : Nat) : Inner :=
  let color := balls.getD i 0
  let color := if marks.getD i false then -color else color
  { nextTotal := s.nextTotal + color
    next := s.next.set ((i + 1) % N) color }

/-- The locals of the constructor that its outer loop changes. -/
structure Locals where
  saved : List ℚ
  total : Int
  balls : List Int
  next : List Int

/-- The body of the outer loop, for the given `time`. -/
def outerBody (N : Nat) (marks : List Bool) (s : Locals) (time : Nat) :
    Locals :=
  let inner := (List.range N).foldl (innerBody N marks s.balls) ⟨0, s.next⟩
  { saved := s.saved.set time (s.total / N)
    total := inner.nextTotal
    balls := inner.next
    next := inner.next }

def locals (N : Nat) : Locals where
  saved := List.replicate (N * 2) 0
  total := N
  balls := List.replicate N 1
  next := List.replicate N 0

/-- `KacRing(N, marked)`. -/
def make (N : Nat) (marked : List Nat) : KacRing where
  saved := ((List.range (N * 2)).foldl (outerBody N (isMarked N marked))
    (locals N)).saved
  currStep := 0
  period := N * 2

/-- A `long long` converted to `size_t`. -/
def toSize (k : Int) : Nat := (k % 2 ^ 64).toNat

def step (r : KacRing) : KacRing :=
  { r with currStep := (r.currStep + 1) % 2 ^ 64 % r.period }

def kstep (r : KacRing) (k : Int) : KacRing :=
  { r with currStep := (r.currStep + toSize k) % 2 ^ 64 % r.period }

def color (r : KacRing) : ℚ := r.saved.getD r.currStep 0

/-- A call that moves the ring on. -/
inductive Op where
  | step
  | kstep (k : Int)
deriving DecidableEq, Repr

/-- One call. Both members return nothing. -/
def call (r : KacRing) : Op → KacRing × Unit
  | .step => (r.step, ())
  | .kstep k => (r.kstep k, ())

end KacRing

end LearningCpp
