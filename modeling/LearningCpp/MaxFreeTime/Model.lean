import Mathlib.Data.Int.Order.Basic
import Mathlib.Data.List.Range

/-!
# The longest free time

`leetcode/medium/3440.cpp`. For every meeting two passes find out whether it
fits into a gap that is not next to it, and a third takes the longest time
there is between the neighbours of a meeting, less the meeting itself if it
has nowhere else to go.

The two vectors are lists that are read by index; `getD` is the element where
there is one, which with two vectors of one length is everywhere the code
reads. Times are integers that do not wrap.
-/

namespace LearningCpp.MaxFreeTime

variable (eventTime : Int) (startTime endTime : List Int)

/-- `slot_size`. -/
def slotSize (i : ℕ) : Int := endTime.getD i 0 - startTime.getD i 0

/-- `prev_end_time` of the first pass, `left_end` of the last. -/
def leftEnd (i : ℕ) : Int := if i = 0 then 0 else endTime.getD (i - 1) 0

/-- `prev_start_time` of the second pass, `right_start` of the last. -/
def rightStart (i : ℕ) : Int :=
  if i = startTime.length - 1 then eventTime else startTime.getD (i + 1) 0

/-- The body of the first two passes, with the longest gap so far and the
flags. -/
def passStep (slot gap : ℕ → Int) (s : Int × List Bool) (i : ℕ) :
    Int × List Bool :=
  let (maxGap, nonAdjacentGaps) := s
  (max maxGap (gap i),
    if slot i ≤ maxGap then nonAdjacentGaps.set i true else nonAdjacentGaps)

/-- The first pass. -/
def leftPass (nonAdjacentGaps : List Bool) : List Bool :=
  ((List.range startTime.length).foldl
    (passStep (slotSize startTime endTime)
      (fun i => startTime.getD i 0 - leftEnd endTime i))
    (0, nonAdjacentGaps)).2

/-- The second pass. -/
def rightPass (nonAdjacentGaps : List Bool) : List Bool :=
  ((List.range startTime.length).reverse.foldl
    (passStep (slotSize startTime endTime)
      (fun i => rightStart eventTime startTime i - endTime.getD i 0))
    (0, nonAdjacentGaps)).2

/-- `gap` of the last pass. -/
def gap (nonAdjacentGaps : List Bool) (i : ℕ) : Int :=
  let gap := rightStart eventTime startTime i - leftEnd endTime i
  if nonAdjacentGaps.getD i false then gap
  else gap - slotSize startTime endTime i

/-- `maxFreeTime`. -/
def maxFreeTime : Int :=
  let nonAdjacentGaps :=
    rightPass eventTime startTime endTime
      (leftPass startTime endTime
        (List.replicate startTime.length false))
  (List.range startTime.length).foldl
    (fun out i => max out (gap eventTime startTime endTime nonAdjacentGaps i)) 0

end LearningCpp.MaxFreeTime
