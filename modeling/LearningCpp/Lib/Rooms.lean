import Mathlib

/-!
# Intervals in rooms

Half open intervals put into rooms, no two that overlap in one. The intervals
a point lies in have to be in different rooms, so a division into rooms and a
point that lies in as many intervals as there are rooms prove each other
optimal: there are no fewer rooms, and no point lies in more intervals.

A division is built up by starts here: an interval that starts no earlier than
the others can go into any room whose last interval is over.
-/

namespace LearningCpp.Lib

variable {ι τ : Type*} [LinearOrder τ] (start finish : ι → τ)

/-- One of the two is over when the other starts. -/
def Apart (a b : ι) : Prop := finish a ≤ start b ∨ finish b ≤ start a

/-- The point lies in the interval. -/
def Contains (t : τ) (a : ι) : Prop := start a ≤ t ∧ t < finish a

instance (t : τ) : DecidablePred (Contains start finish t) :=
  fun a => inferInstanceAs (Decidable (start a ≤ t ∧ t < finish a))

/-- How many of the intervals a point lies in. -/
def inUse (intervals : List ι) (t : τ) : ℕ :=
  intervals.countP (fun a => decide (Contains start finish t a))

/-- The intervals divided among rooms. -/
structure Rooms (intervals : List ι) (rooms : List (List ι)) : Prop where
  all : rooms.flatten.Perm intervals
  apart : ∀ room ∈ rooms, room.Pairwise (Apart start finish)

variable {start finish} {intervals : List ι}

theorem inUse_perm {others : List ι} (h : intervals.Perm others) (t : τ) :
    inUse start finish intervals t = inUse start finish others t :=
  h.countP_eq _

/-- A point lies in at most one interval of a room. -/
theorem inUse_le_one {room : List ι} (h : room.Pairwise (Apart start finish))
    (t : τ) : inUse start finish room t ≤ 1 := by
  induction room with
  | nil => exact Nat.zero_le _
  | cons a room ih =>
      obtain ⟨hfirst, hrest⟩ := List.pairwise_cons.1 h
      rw [inUse, List.countP_cons]
      split
      · next ha =>
          have hin := of_decide_eq_true ha
          have hnone : inUse start finish room t = 0 := by
            refine List.countP_eq_zero.2 ?_
            intro b hb hcontains
            have hother := of_decide_eq_true hcontains
            rcases hfirst b hb with hab | hba
            · exact absurd (hab.trans hother.1) (not_le.2 hin.2)
            · exact absurd (hba.trans hin.1) (not_le.2 hother.2)
          exact Nat.le_of_eq (congrArg (· + 1) hnone)
      · exact ih hrest

/-- The intervals a point lies in are in different rooms. -/
theorem Rooms.inUse_le {rooms : List (List ι)}
    (h : Rooms start finish intervals rooms) (t : τ) :
    inUse start finish intervals t ≤ rooms.length := by
  have hrooms : ∀ n ∈ rooms.map
      (fun room => inUse start finish room t), n ≤ 1 := by
    intro n hn
    obtain ⟨room, hroom, heq⟩ := List.mem_map.1 hn
    rw [← heq]
    exact inUse_le_one (h.apart room hroom) t
  have hsum := List.sum_le_card_nsmul _ 1 hrooms
  rw [List.length_map, smul_eq_mul, Nat.mul_one] at hsum
  rw [← inUse_perm h.all, inUse, List.countP_flatten]
  exact hsum

/-- A division and a point with as many intervals as there are rooms are both
optimal. -/
theorem Rooms.optimal {rooms : List (List ι)}
    (h : Rooms start finish intervals rooms) {t : τ}
    (ht : rooms.length ≤ inUse start finish intervals t) :
    IsLeast {n | ∃ rooms, Rooms start finish intervals rooms ∧
        rooms.length = n} rooms.length ∧
      IsGreatest {n | ∃ t, inUse start finish intervals t = n}
        rooms.length := by
  constructor
  · refine ⟨⟨rooms, h, rfl⟩, ?_⟩
    intro n hn
    obtain ⟨others, hothers, hlength⟩ := hn
    rw [← hlength]
    exact ht.trans (hothers.inUse_le t)
  · refine ⟨⟨t, Nat.le_antisymm (h.inUse_le t) ht⟩, ?_⟩
    intro n hn
    obtain ⟨t', ht'⟩ := hn
    rw [← ht']
    exact h.inUse_le t'

/-! ## Building a division up

Each room is its last interval and those before it. -/

variable (start finish) in
/-- A division in which every room is filled from left to right. -/
structure Booked (intervals : List ι) (booked : List (ι × List ι)) : Prop where
  all : (booked.map (fun room => room.1 :: room.2)).flatten.Perm intervals
  chain : ∀ room ∈ booked,
    (room.1 :: room.2).Pairwise (fun a b => finish b ≤ start a)

namespace Booked

variable {booked : List (ι × List ι)}

theorem rooms (h : Booked start finish intervals booked) :
    Rooms start finish intervals
      (booked.map (fun room => room.1 :: room.2)) := by
  refine ⟨h.all, ?_⟩
  intro room hroom
  obtain ⟨b, hb, heq⟩ := List.mem_map.1 hroom
  rw [← heq]
  exact (h.chain b hb).imp (fun hab => .inr hab)

theorem last_mem (h : Booked start finish intervals booked) {room : ι × List ι}
    (hroom : room ∈ booked) : room.1 ∈ intervals := by
  refine h.all.mem_iff.1 (List.mem_flatten.2 ⟨room.1 :: room.2, ?_, ?_⟩)
  · exact List.mem_map_of_mem hroom
  · exact List.mem_cons_self

/-- A point that lies in the last interval of every room. -/
theorem length_le_inUse (h : Booked start finish intervals booked) {t : τ}
    (ht : ∀ room ∈ booked, Contains start finish t room.1) :
    booked.length ≤ inUse start finish intervals t := by
  rw [← inUse_perm h.all]
  clear h
  induction booked with
  | nil => exact Nat.zero_le _
  | cons room booked ih =>
      have hroom : 1 ≤ inUse start finish (room.1 :: room.2) t := by
        rw [inUse, List.countP_cons,
          if_pos (decide_eq_true (ht room List.mem_cons_self))]
        exact Nat.le_add_left 1 _
      have hrest := ih (fun r hr => ht r (List.mem_cons_of_mem _ hr))
      rw [List.map_cons, List.flatten_cons, inUse, List.countP_append,
        List.length_cons, Nat.add_comm]
      exact Nat.add_le_add hroom hrest

/-- An interval in a room of its own. -/
theorem openRoom (h : Booked start finish intervals booked) (a : ι) :
    Booked start finish (a :: intervals) ((a, []) :: booked) := by
  refine ⟨h.all.cons a, ?_⟩
  intro room hroom
  rcases List.mem_cons.1 hroom with heq | hroom
  · rw [heq]
    exact List.pairwise_singleton _ _
  · exact h.chain room hroom

/-- An interval that starts after the last one of a room is over. -/
theorem reuse {room : ι × List ι} {others : List (ι × List ι)}
    (h : Booked start finish intervals (room :: others)) {a : ι}
    (hover : finish room.1 ≤ start a)
    (hlength : ∀ b ∈ intervals, start b ≤ finish b) :
    Booked start finish (a :: intervals)
      ((a, room.1 :: room.2) :: others) := by
  refine ⟨h.all.cons a, ?_⟩
  intro r hr
  rcases List.mem_cons.1 hr with heq | hr
  · have hchain := h.chain room List.mem_cons_self
    rw [heq]
    refine List.pairwise_cons.2 ⟨?_, hchain⟩
    intro b hb
    rcases List.mem_cons.1 hb with hlast | hb
    · rw [hlast]
      exact hover
    · have hbefore := (List.pairwise_cons.1 hchain).1 b hb
      have hroom := hlength room.1 (h.last_mem List.mem_cons_self)
      exact (hbefore.trans hroom).trans hover
  · exact h.chain r (List.mem_cons_of_mem _ hr)

theorem perm (h : Booked start finish intervals booked)
    {others : List (ι × List ι)} (hperm : booked.Perm others) :
    Booked start finish intervals others :=
  ⟨(hperm.map _).flatten.symm.trans h.all,
    fun room hroom => h.chain room (hperm.mem_iff.2 hroom)⟩

theorem nil : Booked start finish ([] : List ι) [] :=
  ⟨.refl _, fun _ h => absurd h List.not_mem_nil⟩

end Booked

end LearningCpp.Lib
