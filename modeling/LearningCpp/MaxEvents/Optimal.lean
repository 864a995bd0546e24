import LearningCpp.Lib.Fold
import LearningCpp.Lib.Plan
import LearningCpp.MaxEvents.Model

/-!
# Earliest last day first

Between two days the heap and the events that have not begun are the jobs that
can still be planned, and what the remaining days add to `ret` is the most of
them that can be. One day drops the events that are over and then either takes
the one with the earliest last day or, when there is none, changes nothing;
the induction is on the days that remain.
-/

namespace LearningCpp.MaxEvents

open LearningCpp.Lib

/-- The heap has the last days of events that have begun; the others follow in
order. -/
structure State.Holds (s : State) (held : Multiset (Int × Int)) (day : Int) :
    Prop where
  ends : (s.minHeap.entries : Multiset Int) = held.map Prod.snd
  begun : ∀ event ∈ held, event.1 ≤ day
  sorted : s.events.Pairwise StartLE
  ordered : ∀ event ∈ s.events, event.1 ≤ event.2

/-- The most of the events that can be attended from a day on. -/
abbrev MostFrom (events : Multiset (Int × Int)) (day : Int) (n : ℕ) : Prop :=
  Best Prod.fst Prod.snd events day n

/-! ## One day -/

theorem addBegun_spec (day : Int) (minHeap : MinHeap)
    (events : List (Int × Int)) (hsorted : events.Pairwise StartLE) :
    ∃ begun, events = begun ++ (addBegun day minHeap events).2 ∧
      ((addBegun day minHeap events).1.entries : Multiset Int) =
        minHeap.entries + (begun : Multiset (Int × Int)).map Prod.snd ∧
      (∀ event ∈ begun, event.1 ≤ day) ∧
      ∀ event ∈ (addBegun day minHeap events).2, day < event.1 := by
  induction events generalizing minHeap with
  | nil =>
      refine ⟨[], rfl, ?_, by simp, by simp [addBegun]⟩
      rw [Multiset.coe_nil, Multiset.map_zero, Multiset.add_zero]
      rfl
  | cons event events ih =>
      obtain ⟨hfirst, hrest⟩ := List.pairwise_cons.1 hsorted
      rw [addBegun]
      split
      · next hbegun =>
          obtain ⟨begun, happend, hentries, hall, hlater⟩ :=
            ih (minHeap.push event.2) hrest
          refine ⟨event :: begun, ?_, ?_, ?_, hlater⟩
          · rw [List.cons_append, ← happend]
          · rw [hentries, Multiset.coe_eq_coe.2 (minHeap.push_perm event.2),
              ← Multiset.cons_coe, ← Multiset.cons_coe, Multiset.map_cons,
              Multiset.cons_add, Multiset.add_cons]
          · intro e he
            rcases List.mem_cons.1 he with heq | he
            · rw [heq]
              exact hbegun
            · exact hall e he
      · next hlate =>
          refine ⟨[], rfl, ?_, by simp, ?_⟩
          · rw [Multiset.coe_nil, Multiset.map_zero, Multiset.add_zero]
          · intro e he
            have hday : day < event.1 := by omega
            rcases List.mem_cons.1 he with heq | he
            · rw [heq]
              exact hday
            · exact lt_of_lt_of_le hday (hfirst e he)

/-- The heap after the events that are over have been popped. -/
theorem popWhile_ends (minHeap : MinHeap) (day : Int)
    (held : Multiset (Int × Int))
    (hends : (minHeap.entries : Multiset Int) = held.map Prod.snd) :
    ((minHeap.popWhile (fun last => decide (last < day))).2.entries :
        Multiset Int) =
      (held.filter (fun event => day ≤ event.2)).map Prod.snd := by
  have hpop := (PriorityQueue.popWhile_filter (q := minHeap)
    (p := fun last => decide (last < day)) (by
      intro a _ b _ hab hb
      exact decide_eq_true (lt_of_le_of_lt hab (of_decide_eq_true hb)))).2
  have hfilter : (fun last : Int => !decide (last < day)) =
      fun last => decide (day ≤ last) := by
    funext last
    rw [← decide_not]
    exact decide_eq_decide.2 Int.not_lt
  rw [hpop, hfilter, ← Multiset.filter_coe, hends, Multiset.filter_map]
  rfl

/-- One day: the heap before the last step of the body holds what can still be
attended of the events that have begun. -/
theorem State.Holds.day_begun {s : State} {held : Multiset (Int × Int)} {day : Int}
    (h : s.Holds held day) : ∃ (minHeap : MinHeap) (events : List (Int × Int))
      (open' : Multiset (Int × Int)),
      s.day day = (if minHeap.top?.isSome then ⟨minHeap.pop, events, s.ret + 1⟩
        else ⟨minHeap, events, s.ret⟩) ∧
      State.Holds ⟨minHeap, events, s.ret⟩ open' day ∧
      (∀ event ∈ open', day ≤ event.2) ∧ (∀ event ∈ events, day < event.1) ∧
      open' + events = (held + s.events : Multiset (Int × Int)).filter
        (fun event => day ≤ event.2) := by
  obtain ⟨begun, happend, hentries, hbegun, hlater⟩ :=
    addBegun_spec day s.minHeap s.events h.sorted
  generalize hevents : (addBegun day s.minHeap s.events).2 = events at *
  have hsorted := h.sorted
  have hordered := h.ordered
  rw [happend] at hsorted hordered
  rw [h.ends, ← Multiset.map_add] at hentries
  refine ⟨_, events, _, ?_, ⟨popWhile_ends _ day _ hentries, ?_, ?_, ?_⟩, ?_,
    hlater, ?_⟩
  · rw [← hevents]
    rfl
  · intro event hevent
    rcases Multiset.mem_add.1 (Multiset.mem_of_mem_filter hevent) with hm | hm
    · exact h.begun event hm
    · exact hbegun event hm
  · exact (List.pairwise_append.1 hsorted).2.1
  · exact fun event hevent => hordered event (List.mem_append_right _ hevent)
  · exact fun event hevent => (Multiset.mem_filter.1 hevent).2
  · have hfuture : (events : Multiset (Int × Int)).filter
        (fun event => day ≤ event.2) = events := by
      refine Multiset.filter_eq_self.2 ?_
      intro event hevent
      have hstart := hlater event hevent
      have hend := hordered event (List.mem_append_right _ hevent)
      omega
    rw [happend, ← Multiset.coe_add, ← Multiset.add_assoc,
      Multiset.filter_add _ (held + Multiset.ofList begun), hfuture]

theorem ends_of_isEmpty {minHeap : MinHeap} {held : Multiset (Int × Int)}
    (hends : (minHeap.entries : Multiset Int) = held.map Prod.snd)
    (htop : minHeap.top? = none) : held = 0 := by
  rw [List.head?_eq_none_iff.1 htop, Multiset.coe_nil] at hends
  exact Multiset.map_eq_zero.1 hends.symm

/-- The top is the last day of an event that no other one ends before. -/
theorem exists_served {minHeap : MinHeap} {held : Multiset (Int × Int)}
    {last : Int} (hends : (minHeap.entries : Multiset Int) = held.map Prod.snd)
    (htop : minHeap.top? = some last) : ∃ event held', held = event ::ₘ held' ∧
      (∀ e ∈ held', event.2 ≤ e.2) ∧
      (minHeap.pop.entries : Multiset Int) = held'.map Prod.snd := by
  have hleast : ∀ e ∈ held, last ≤ e.2 := by
    intro e he
    refine PriorityQueue.top_before htop ?_
    rw [← Multiset.mem_coe, hends]
    exact Multiset.mem_map_of_mem Prod.snd he
  rw [PriorityQueue.entries_of_top htop, ← Multiset.cons_coe] at hends
  obtain ⟨event, hevent, hlast⟩ : ∃ event ∈ held, event.2 = last := by
    refine Multiset.mem_map.1 ?_
    rw [← hends]
    exact Multiset.mem_cons_self _ _
  obtain ⟨held', hheld⟩ := Multiset.exists_cons_of_mem hevent
  refine ⟨event, held', hheld, ?_, ?_⟩
  · intro e he
    rw [hlast]
    refine hleast e ?_
    rw [hheld]
    exact Multiset.mem_cons_of_mem he
  · rw [hheld, Multiset.map_cons, hlast] at hends
    exact (Multiset.cons_inj_right last).1 hends

/-- One day, in terms of the most that can be attended. -/
theorem State.Holds.day_best {s : State} {held : Multiset (Int × Int)} {day : Int}
    (h : s.Holds held day) : ∃ held' served, (s.day day).Holds held' (day + 1) ∧
      (s.day day).ret = s.ret + served ∧
      held' + (s.day day).events ≤ held + (s.events : Multiset (Int × Int)) ∧
      ∀ n, MostFrom (held' + (s.day day).events) (day + 1) n →
        MostFrom (held + s.events) day (served + n) := by
  obtain ⟨minHeap, events, still, hday, hholds, hopen, hlater, hjobs⟩ :=
    h.day_begun
  have hle : still + events ≤ held + (s.events : Multiset (Int × Int)) := by
    rw [hjobs]
    exact Multiset.filter_le _ _
  rw [hday]
  cases htop : minHeap.top? with
  | none =>
      have hnone := ends_of_isEmpty hholds.ends htop
      refine ⟨still, 0, ⟨hholds.ends, ?_, hholds.sorted, hholds.ordered⟩, rfl,
        hle, ?_⟩
      · exact fun event hevent => Int.le_add_one (hholds.begun event hevent)
      · intro n hn
        rw [Nat.zero_add]
        refine best_filter ?_
        rw [← hjobs]
        refine best_idle ?_ hn
        rw [hnone, Multiset.zero_add]
        exact hlater
  | some last =>
      obtain ⟨event, held', hheld, hleast, hends⟩ :=
        exists_served hholds.ends htop
      subst hheld
      have hbegun : ∀ e ∈ held', e.1 ≤ day :=
        fun e he => hholds.begun e (Multiset.mem_cons_of_mem he)
      refine ⟨held', 1, ⟨hends, ?_, hholds.sorted, hholds.ordered⟩, rfl,
        le_trans ?_ hle, ?_⟩
      · exact fun e he => Int.le_add_one (hbegun e he)
      · rw [Multiset.cons_add]
        exact Multiset.le_cons_self _ _
      · intro n hn
        rw [Nat.add_comm]
        refine best_filter ?_
        rw [← hjobs, Multiset.cons_add]
        refine best_serve (hholds.begun event (Multiset.mem_cons_self _ _))
          (hopen event (Multiset.mem_cons_self _ _)) ?_ hn
        intro e he hstart
        rcases Multiset.mem_add.1 he with hm | hm
        · exact hleast e hm
        · have hfuture := hlater e hm
          omega

/-! ## All days -/

/-- The days from `day` on add the most that can be attended from there. -/
theorem days_best (n day : ℕ) (s : State) (held : Multiset (Int × Int))
    (h : s.Holds held day)
    (hend : ∀ event ∈ held + (s.events : Multiset (Int × Int)),
      event.2 < day + n) :
    ∃ k, ((List.range' day n).foldl
        (fun (s : State) (day : ℕ) => s.day day) s).ret = s.ret + k ∧
      MostFrom (held + s.events) day k := by
  induction n generalizing day s held with
  | zero =>
      refine ⟨0, rfl, best_after ?_⟩
      simpa using hend
  | succ n ih =>
      obtain ⟨held', served, hholds, hret, hle, hbest⟩ := h.day_best
      rw [← Nat.cast_succ] at hholds hbest
      obtain ⟨k, hrun, hmost⟩ := ih (day + 1) (s.day day) held' hholds (by
        intro event hevent
        have hbound := hend event (Multiset.mem_of_le hle hevent)
        push_cast at hbound ⊢
        omega)
      refine ⟨served + k, ?_, hbest k hmost⟩
      rw [List.range'_succ, List.foldl_cons, hrun, hret, Nat.add_assoc]

theorem le_maxDay {events : List (Int × Int)} {event : Int × Int}
    (h : event ∈ events) : event.2 ≤ maxDay events :=
  (foldl_max_isGreatest Prod.snd events 0).2 (.inr ⟨event, h, rfl⟩)

/-- **`maxEvents` is optimal**: it is the number of events some plan attends,
and no plan attends more. -/
theorem maxEvents_isGreatest (sorting : Sorting StartLE)
    (events : List (Int × Int))
    (hevents : ∀ event ∈ events, 0 ≤ event.1 ∧ event.1 ≤ event.2) :
    IsGreatest {n | ∃ plan : Multiset ((Int × Int) × Int),
        Plan Prod.fst Prod.snd (events : Multiset (Int × Int)) plan ∧
          plan.card = n} (maxEvents sorting events) := by
  have hperm := sorting.perm events
  have hsorted := sorting.sorted events
  have hmem : ∀ event ∈ sorting.sort events,
      0 ≤ event.1 ∧ event.1 ≤ event.2 :=
    fun event hevent => hevents event (hperm.mem_iff.1 hevent)
  obtain ⟨k, hrun, hbest⟩ := days_best (maxDay (sorting.sort events) + 1).toNat
    0 ⟨.empty, sorting.sort events, 0⟩ 0
    ⟨rfl, by simp, hsorted, fun event hevent => (hmem event hevent).2⟩ (by
      intro event hevent
      rw [Multiset.zero_add] at hevent
      have hlast : event.2 ≤ maxDay (sorting.sort events) :=
        le_maxDay (Multiset.mem_coe.1 hevent)
      have hstart := hmem event (Multiset.mem_coe.1 hevent)
      omega)
  rw [Nat.zero_add] at hrun
  rw [Multiset.zero_add, MostFrom, Multiset.coe_eq_coe.2 hperm] at hbest
  rw [maxEvents, List.range_eq_range', hrun]
  constructor
  · obtain ⟨plan, hplan, _, hcard⟩ := hbest.1
    exact ⟨plan, hplan, hcard⟩
  · intro n hn
    obtain ⟨plan, hplan, hcard⟩ := hn
    refine hbest.2 ⟨plan, hplan, ?_, hcard⟩
    intro a ha
    have hstart := (hevents a.1 (Multiset.mem_coe.1
      (Multiset.mem_of_le hplan.chosen (Multiset.mem_map_of_mem _ ha)))).1
    exact le_trans hstart (hplan.released a ha)

/-- Four events, two of which want the same days. -/
theorem maxEvents_isGreatest_four :
    IsGreatest {n | ∃ plan : Multiset ((Int × Int) × Int),
        Plan Prod.fst Prod.snd
          (([(1, 2), (2, 3), (1, 2), (1, 2)] : List (Int × Int)) :
            Multiset (Int × Int)) plan ∧ plan.card = n} 3 := by
  have h := maxEvents_isGreatest (.insertion StartLE)
    [(1, 2), (2, 3), (1, 2), (1, 2)] (by simp)
  rwa [show maxEvents (.insertion StartLE) [(1, 2), (2, 3), (1, 2), (1, 2)] = 3
    by decide +kernel] at h

end LearningCpp.MaxEvents
