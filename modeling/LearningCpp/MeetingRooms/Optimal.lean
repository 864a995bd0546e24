import LearningCpp.Lib.PriorityQueue
import LearningCpp.Lib.Rooms
import LearningCpp.Lib.Unordered

/-!
# The meeting rooms needed

`leetcode/medium/253.cpp`. The meetings are taken by their starts, and the heap
has one end time for each room so far, that of its last meeting. A meeting
takes over the room that is free first, if that is free at all, and opens a
new one otherwise.

The end times in the heap may be long past, so its size is not how many
meetings are going on. But when a room is opened none of them is past: every
last meeting goes on at the start of the new one, and all of these with the
new one have that point in common. From there on to the next time a room is
opened nothing changes about either.

`std::sort` compares starts only, so the order it puts the meetings of one
start in is a parameter. `top()` of an empty heap and `intervals[0]` of an
empty list are undefined. No counter passes `INT_MAX`.
-/

namespace LearningCpp.MeetingRooms

open LearningCpp.Lib

/-- A priority queue with `std::greater`. -/
abbrev MinHeap := PriorityQueue (fun a b : Int => a ≤ b)

/-- The body of the loop. -/
def meet (heap : MinHeap) (interval : Int × Int) : Option MinHeap :=
  match heap.top? with
  | none => none
  | some endTime =>
      let heap := heap.pop
      let heap := if interval.1 < endTime then heap.push endTime else heap
      some (heap.push interval.2)

/-- `minMeetingRooms`. -/
def minMeetingRooms (sorting : Sorting (KeyLE (Prod.fst : Int × Int → Int)))
    (intervals : List (Int × Int)) : Option ℕ :=
  match sorting.sort intervals with
  | [] => none
  | first :: rest =>
      (rest.foldlM meet (PriorityQueue.empty.push first.2)).map
        (fun heap => heap.entries.length)

/-- The heap has the end time of the last meeting in each room, and at some
point all the rooms are needed. -/
structure Holds (heap : MinHeap) (held : List (Int × Int))
    (booked : List ((Int × Int) × List (Int × Int))) : Prop where
  rooms : Booked Prod.fst Prod.snd held booked
  ends : heap.entries.Perm (booked.map (fun room => room.1.2))
  needed : ∃ t, booked.length ≤ inUse Prod.fst Prod.snd held t

variable {heap : MinHeap} {held : List (Int × Int)}
  {booked : List ((Int × Int) × List (Int × Int))}

theorem Holds.length (h : Holds heap held booked) :
    heap.entries.length = booked.length := by
  rw [h.ends.length_eq, List.length_map]

/-- The first meeting. -/
theorem Holds.first (interval : Int × Int) (hlength : interval.1 < interval.2) :
    Holds (PriorityQueue.empty.push interval.2) [interval]
      [(interval, [])] := by
  refine ⟨Booked.nil.openRoom interval, .refl _, interval.1, ?_⟩
  refine (Booked.nil.openRoom interval).length_le_inUse ?_
  intro room hroom
  rw [List.mem_singleton.1 hroom]
  exact ⟨Int.le_refl _, hlength⟩

/-- The top is the end of the last meeting in some room, and no last meeting
ends earlier. -/
theorem Holds.top (h : Holds heap held booked) {endTime : Int}
    (htop : heap.top? = some endTime) : ∃ room others,
      booked.Perm (room :: others) ∧ room.1.2 = endTime ∧
      heap.pop.entries.Perm (others.map (fun room => room.1.2)) ∧
      ∀ room ∈ booked, endTime ≤ room.1.2 := by
  have hends := h.ends
  have hmem : endTime ∈ booked.map (fun room => room.1.2) := by
    rw [← hends.mem_iff, PriorityQueue.entries_of_top htop]
    exact List.mem_cons_self
  obtain ⟨room, hroom, heq⟩ := List.mem_map.1 hmem
  obtain ⟨before, after, happend⟩ := List.append_of_mem hroom
  have hperm : booked.Perm (room :: (before ++ after)) := by
    rw [happend]
    exact List.perm_middle
  refine ⟨room, before ++ after, hperm, heq, ?_, ?_⟩
  · have hboth := hends.trans (hperm.map _)
    rw [PriorityQueue.entries_of_top htop, List.map_cons, heq] at hboth
    exact hboth.cons_inv
  · intro r hr
    refine PriorityQueue.top_before htop (hends.mem_iff.2 ?_)
    exact List.mem_map_of_mem hr

/-- One meeting more, that starts no earlier than the others. -/
theorem Holds.meet (h : Holds heap held booked) (hne : booked ≠ [])
    {interval : Int × Int} (hlength : interval.1 < interval.2)
    (hheld : ∀ a ∈ held, a.1 < a.2) (hlate : ∀ a ∈ held, a.1 ≤ interval.1) :
    ∃ heap' booked', meet heap interval = some heap' ∧ booked' ≠ [] ∧
      Holds heap' (interval :: held) booked' := by
  cases htop : heap.top? with
  | none =>
      have hlen := h.length
      rw [List.head?_eq_none_iff.1 htop] at hlen
      exact absurd (List.length_eq_zero_iff.1 hlen.symm) hne
  | some endTime =>
      obtain ⟨room, others, hperm, hend, hpop, hleast⟩ := h.top htop
      unfold MeetingRooms.meet
      rw [htop]
      by_cases hbusy : interval.1 < endTime
      · -- every room is taken at the start of the meeting
        have hopened := h.rooms.openRoom interval
        refine ⟨_, _, rfl, List.cons_ne_nil (interval, []) booked, hopened, ?_,
          interval.1, hopened.length_le_inUse ?_⟩
        · rw [if_pos hbusy]
          refine (PriorityQueue.push_perm _ _).trans (List.Perm.cons _ ?_)
          refine (PriorityQueue.push_perm _ _).trans ?_
          rw [← PriorityQueue.entries_of_top htop]
          exact h.ends
        · intro r hr
          rcases List.mem_cons.1 hr with heq | hr
          · rw [heq]
            exact ⟨Int.le_refl _, hlength⟩
          · exact ⟨hlate _ (h.rooms.last_mem hr),
              lt_of_lt_of_le hbusy (hleast r hr)⟩
      · obtain ⟨t, ht⟩ := h.needed
        have hreused := (h.rooms.perm hperm).reuse (a := interval) (by omega)
          (fun b hb => Int.le_of_lt (hheld b hb))
        refine ⟨_, _, rfl, List.cons_ne_nil _ _, hreused, ?_, t, ?_⟩
        · rw [if_neg hbusy]
          exact (PriorityQueue.push_perm _ _).trans (hpop.cons _)
        · have hcount := hperm.length_eq
          rw [List.length_cons] at hcount ⊢
          rw [inUse, List.countP_cons]
          rw [inUse] at ht
          omega

/-- The meetings that are left, in the order of their starts. -/
theorem Holds.run (rest : List (Int × Int)) (h : Holds heap held booked)
    (hne : booked ≠ []) (hheld : ∀ a ∈ held, a.1 < a.2)
    (hrest : ∀ a ∈ rest, a.1 < a.2) (hsorted : rest.Pairwise (KeyLE Prod.fst))
    (hlate : ∀ a ∈ held, ∀ b ∈ rest, a.1 ≤ b.1) :
    ∃ heap' held' booked', rest.foldlM MeetingRooms.meet heap = some heap' ∧
      held'.Perm (rest ++ held) ∧ Holds heap' held' booked' := by
  induction rest generalizing heap held booked with
  | nil => exact ⟨heap, held, booked, rfl, .refl _, h⟩
  | cons interval rest ih =>
      obtain ⟨hfirst, hothers⟩ := List.pairwise_cons.1 hsorted
      have hinterval := hrest interval List.mem_cons_self
      obtain ⟨heap', booked', hmeet, hne', h'⟩ := h.meet hne hinterval hheld
        (fun a ha => hlate a ha interval List.mem_cons_self)
      obtain ⟨heap'', held'', booked'', hrun, hperm, h''⟩ := ih h' hne'
        (List.forall_mem_cons.2 ⟨hinterval, hheld⟩)
        (fun a ha => hrest a (List.mem_cons_of_mem _ ha)) hothers
        (List.forall_mem_cons.2 ⟨hfirst,
          fun a ha b hb => hlate a ha b (List.mem_cons_of_mem _ hb)⟩)
      refine ⟨heap'', held'', booked'', ?_, hperm.trans List.perm_middle, h''⟩
      rw [List.foldlM_cons, hmeet]
      exact hrun

/-- **`minMeetingRooms` is exact**: it is the least number of rooms that will
do, and the most meetings that have a point in common. -/
theorem minMeetingRooms_exact
    (sorting : Sorting (KeyLE (Prod.fst : Int × Int → Int)))
    (intervals : List (Int × Int)) (hne : intervals ≠ [])
    (hlength : ∀ interval ∈ intervals, interval.1 < interval.2) :
    ∃ n, minMeetingRooms sorting intervals = some n ∧
      IsLeast {n | ∃ rooms, Rooms Prod.fst Prod.snd intervals rooms ∧
        rooms.length = n} n ∧
      IsGreatest {n | ∃ t, inUse Prod.fst Prod.snd intervals t = n} n := by
  have hperm := sorting.perm intervals
  have hsorted := sorting.sorted intervals
  unfold minMeetingRooms
  generalize sorting.sort intervals = sorted at hperm hsorted
  cases sorted with
  | nil => exact absurd hperm.symm.eq_nil hne
  | cons first rest =>
      obtain ⟨hfirst, hothers⟩ := List.pairwise_cons.1 hsorted
      have hmem : ∀ a ∈ first :: rest, a.1 < a.2 :=
        fun a ha => hlength a (hperm.mem_iff.1 ha)
      have hstart := hmem first List.mem_cons_self
      obtain ⟨heap, held, booked, hrun, hheld, h⟩ :=
        (Holds.first first hstart).run rest (List.cons_ne_nil _ _)
          (List.forall_mem_singleton.2 hstart)
          (fun a ha => hmem a (List.mem_cons_of_mem _ ha)) hothers
          (List.forall_mem_singleton.2 hfirst)
      have hall : held.Perm intervals :=
        hheld.trans ((List.perm_append_singleton first rest).trans hperm)
      have hrooms : Rooms Prod.fst Prod.snd intervals _ :=
        ⟨h.rooms.rooms.all.trans hall, h.rooms.rooms.apart⟩
      obtain ⟨t, ht⟩ := h.needed
      have hoptimal := hrooms.optimal (t := t) (by
        rw [List.length_map, ← inUse_perm hall]
        exact ht)
      rw [List.length_map] at hoptimal
      refine ⟨booked.length, ?_, hoptimal⟩
      show (rest.foldlM MeetingRooms.meet _).map _ = _
      rw [hrun, ← h.length]
      rfl

/-- Three meetings, the last of which takes over a room. -/
theorem minMeetingRooms_exact_three :
    IsLeast {n | ∃ rooms, Rooms Prod.fst Prod.snd
        ([(0, 30), (15, 20), (5, 10)] : List (Int × Int)) rooms ∧
          rooms.length = n} 2 := by
  obtain ⟨n, hn, hleast, _⟩ := minMeetingRooms_exact (.insertion _)
    [(0, 30), (15, 20), (5, 10)] (by simp) (by simp)
  rw [show minMeetingRooms (.insertion _) [(0, 30), (15, 20), (5, 10)] = some 2
    by decide +kernel] at hn
  rw [Option.some.inj hn]
  exact hleast

end LearningCpp.MeetingRooms
