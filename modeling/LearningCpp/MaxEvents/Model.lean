import LearningCpp.Lib.PriorityQueue
import LearningCpp.Lib.Unordered

/-!
# The events attended

`leetcode/medium/1353.cpp`. An event is the pair of its first and its last day,
and one event a day is attended. The code goes through the days with the
events that have begun in a heap by their last day.

`std::sort` compares first days only, so the order it puts the events of one
day in is a parameter. No day goes past `INT_MAX`, because every last day is
less, and no count does.
-/

namespace LearningCpp.MaxEvents

open LearningCpp.Lib

/-- What `comp` sorts by. -/
def StartLE (a b : Int × Int) : Prop := a.1 ≤ b.1

instance : DecidableRel StartLE := fun a b =>
  inferInstanceAs (Decidable (a.1 ≤ b.1))

instance : Std.Total StartLE := ⟨fun a b => Int.le_total a.1 b.1⟩

instance : IsTrans (Int × Int) StartLE := ⟨fun _ _ _ => Int.le_trans⟩

/-- A priority queue with `std::greater`. -/
abbrev MinHeap := PriorityQueue (fun a b : Int => a ≤ b)

/-- What the loop over the days keeps. -/
structure State where
  minHeap : MinHeap
  /-- The events from number `i` on. -/
  events : List (Int × Int)
  ret : ℕ

/-- The first inner loop: the last days of the events that have begun go into
the heap. -/
def addBegun (day : Int) : MinHeap → List (Int × Int) → MinHeap × List (Int × Int)
  | minHeap, [] => (minHeap, [])
  | minHeap, event :: events =>
      if event.1 ≤ day then addBegun day (minHeap.push event.2) events
      else (minHeap, event :: events)

/-- The body of the loop over the days. -/
def State.day (s : State) (day : Int) : State :=
  let (minHeap, events) := addBegun day s.minHeap s.events
  let (_, minHeap) := minHeap.popWhile (fun last => decide (last < day))
  if minHeap.top?.isSome then
    { minHeap := minHeap.pop, events, ret := s.ret + 1 }
  else { minHeap, events, ret := s.ret }

/-- The last of all days. -/
def maxDay (events : List (Int × Int)) : Int :=
  events.foldl (fun maxDay event => max maxDay event.2) 0

/-- `maxEvents`. -/
def maxEvents (sorting : Sorting StartLE) (events : List (Int × Int)) : ℕ :=
  let events := sorting.sort events
  ((List.range (maxDay events + 1).toNat).foldl
    (fun (s : State) (day : ℕ) => s.day day) ⟨.empty, events, 0⟩).ret

end LearningCpp.MaxEvents
