import LearningCpp.Lib.LinkedList
import LearningCpp.Lib.PriorityQueue
import LearningCpp.Lib.Unordered

/-!
# Merging linked lists

`leetcode/hard/23.cpp`. The heap has the first node of each list that is not
finished, and `lists` points to the nodes after these. The node at the top is
appended to the result by writing its address into the node appended last,
while `lists` still points into the lists that are being taken apart.

Nodes are the elements of some type, their values do not change, and the
memory is where each `next` points to. The heap compares values only, so any
of the nodes with the least value may be at its top. `top()` of an empty heap
is undefined. The loop runs on fuel. The `int`s that count lists (`i`, `index`,
`finished_sub_lists`) are taken not to overflow.
-/

namespace LearningCpp.MergeLists

open LearningCpp.Lib

/-- `HeapElement`. -/
structure HeapElement (ν : Type) where
  node : ν
  index : ℕ

variable {ν : Type} [DecidableEq ν] {val : ν → Int}

/-- `operator<`, the other way round: what may be at the top before what. -/
abbrev Before (val : ν → Int) : HeapElement ν → HeapElement ν → Prop :=
  KeyLE (fun e => val e.node)

/-- What the function works on. -/
structure State (heaps : AnyQueue (Before val)) where
  next : ν → Option ν
  lists : List (Option ν)
  minHeap : heaps.Queue
  finishedSubLists : ℕ
  /-- `dummy.next` -/
  dummyNext : Option ν
  /-- `curr_node`; none is the dummy. -/
  currNode : Option ν

namespace State

variable {heaps : AnyQueue (Before val)}

/-- `if (lists[index] == nullptr) …` of both loops. -/
def enqueue (s : State heaps) (index : ℕ) : State heaps :=
  match s.lists.getD index none with
  | none => { s with finishedSubLists := s.finishedSubLists + 1 }
  | some node =>
      { s with
        minHeap := heaps.push s.minHeap ⟨node, index⟩
        lists := s.lists.set index (s.next node) }

/-- `curr_node->next = node; curr_node = node;` -/
def append (s : State heaps) (node : ν) : State heaps :=
  match s.currNode with
  | none => { s with dummyNext := some node, currNode := some node }
  | some curr =>
      { s with
        next := Function.update s.next curr (some node)
        currNode := some node }

/-- The body of the second loop. -/
def turn (s : State heaps) : Option (State heaps) :=
  match heaps.top? s.minHeap with
  | none => none
  | some nextNode =>
      let s := { s with minHeap := heaps.pop s.minHeap }
      some ((s.append nextNode.node).enqueue nextNode.index)

/-- The second loop. -/
def loop : ℕ → State heaps → Option (State heaps)
  | 0, _ => none
  | fuel + 1, s =>
      if s.finishedSubLists ≠ s.lists.length then
        match s.turn with
        | none => none
        | some s => loop fuel s
      else some s

end State

/-- `mergeKLists`: the list that is returned, and the memory. -/
def mergeKLists (heaps : AnyQueue (Before val)) (fuel : ℕ)
    (next : ν → Option ν) (lists : List (Option ν)) :
    Option (Option ν × (ν → Option ν)) :=
  let s : State heaps := ⟨next, lists, heaps.empty, 0, none, none⟩
  let s := (List.range lists.length).foldl State.enqueue s
  (s.loop fuel).map (fun s => (s.dummyNext, s.next))

end LearningCpp.MergeLists
