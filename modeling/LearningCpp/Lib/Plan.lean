import Mathlib.Algebra.Order.Ring.Int
import Mathlib.Data.Multiset.Filter
import Mathlib.Order.Bounds.Basic
import Mathlib.Tactic.Cases

/-!
# Jobs of one day

Jobs that take one day each, every one with the day it is released and its
deadline, and one job a day. A plan gives some of the jobs a day. The lemmas
say how many jobs can be planned from a day on, in terms of the day after: the
jobs past their deadline do not count, and of the jobs that could be done on
the day the one with the earliest deadline may as well be.
-/

namespace LearningCpp.Lib

variable {J : Type*} {release deadline : J → ℤ}

/-- Some of the jobs are planned, each within its days and no two on one. -/
structure Plan (release deadline : J → ℤ) (jobs : Multiset J)
    (plan : Multiset (J × ℤ)) : Prop where
  chosen : plan.map Prod.fst ≤ jobs
  distinct : (plan.map Prod.snd).Nodup
  released : ∀ a ∈ plan, release a.1 ≤ a.2
  inTime : ∀ a ∈ plan, a.2 ≤ deadline a.1

/-- The most jobs that can be planned from day `first` on. -/
def Best (release deadline : J → ℤ) (jobs : Multiset J) (first : ℤ) (n : ℕ) :
    Prop :=
  IsGreatest {k | ∃ plan, Plan release deadline jobs plan ∧
    (∀ a ∈ plan, first ≤ a.2) ∧ plan.card = k} n

variable {jobs : Multiset J} {plan : Multiset (J × ℤ)} {first : ℤ} {n : ℕ}

theorem Plan.mono {more : Multiset J} (h : Plan release deadline jobs plan)
    (hle : jobs ≤ more) : Plan release deadline more plan :=
  { h with chosen := h.chosen.trans hle }

/-- Part of a plan. -/
theorem Plan.of_cons {a : J × ℤ}
    (h : Plan release deadline jobs (a ::ₘ plan)) :
    Plan release deadline jobs plan where
  chosen := (Multiset.map_le_map (Multiset.le_cons_self plan a)).trans h.chosen
  distinct := by
    have hnodup := h.distinct
    rw [Multiset.map_cons, Multiset.nodup_cons] at hnodup
    exact hnodup.2
  released := fun b hb => h.released b (Multiset.mem_cons_of_mem hb)
  inTime := fun b hb => h.inTime b (Multiset.mem_cons_of_mem hb)

/-- Another choice of jobs for the same days. -/
theorem Plan.choose {others : Multiset J}
    (h : Plan release deadline jobs plan)
    (hle : plan.map Prod.fst ≤ others) : Plan release deadline others plan :=
  { h with chosen := hle }

/-- One more job, on a day that is free. -/
theorem Plan.cons {j : J} {day : ℤ} (h : Plan release deadline jobs plan)
    (hfree : day ∉ plan.map Prod.snd) (hreleased : release j ≤ day)
    (hinTime : day ≤ deadline j) :
    Plan release deadline (j ::ₘ jobs) ((j, day) ::ₘ plan) where
  chosen := by
    rw [Multiset.map_cons]
    exact Multiset.cons_le_cons j h.chosen
  distinct := by
    rw [Multiset.map_cons]
    exact Multiset.nodup_cons.2 ⟨hfree, h.distinct⟩
  released := by
    intro a ha
    rcases Multiset.mem_cons.1 ha with heq | ha
    · rw [heq]
      exact hreleased
    · exact h.released a ha
  inTime := by
    intro a ha
    rcases Multiset.mem_cons.1 ha with heq | ha
    · rw [heq]
      exact hinTime
    · exact h.inTime a ha

/-- The day of a planned job is free once the job is taken out. -/
theorem Plan.free {a : J × ℤ} (h : Plan release deadline jobs (a ::ₘ plan)) :
    a.2 ∉ plan.map Prod.snd := by
  have hnodup := h.distinct
  rw [Multiset.map_cons, Multiset.nodup_cons] at hnodup
  exact hnodup.1

theorem exists_cons_of_chosen {j : J} (h : j ∈ plan.map Prod.fst) :
    ∃ day rest, plan = (j, day) ::ₘ rest := by
  obtain ⟨⟨i, day⟩, hmem, heq⟩ := Multiset.mem_map.1 h
  obtain ⟨rest, hrest⟩ := Multiset.exists_cons_of_mem hmem
  rw [show i = j from heq] at hrest
  exact ⟨day, rest, hrest⟩

/-! ## The exchange

A plan for a day and what comes after it, and a job that can be done on the day
and has the earliest deadline of all that can. The plan can do without that job
and without the day at the price of one job: if the day is given to another
job, that one can take the day of the first. -/

/-- Days other than `first` come after it. -/
theorem after_of_free {day : ℤ} (hday : first ≤ day) (hne : day ≠ first) :
    first + 1 ≤ day := by omega

/-- A plan without the job loses nothing when the job goes. -/
theorem Plan.of_unchosen {j : J} (h : Plan release deadline (j ::ₘ jobs) plan)
    (hj : j ∉ plan.map Prod.fst) : Plan release deadline jobs plan :=
  h.choose ((Multiset.le_cons_of_notMem hj).1 h.chosen)

/-- A plan that leaves the day free. -/
theorem Plan.exchange_free {j : J}
    (h : Plan release deadline (j ::ₘ jobs) plan) :
    ∃ plan', Plan release deadline jobs plan' ∧ plan' ≤ plan ∧
      plan.card ≤ plan'.card + 1 := by
  by_cases hj : j ∈ plan.map Prod.fst
  · obtain ⟨day, rest, hrest⟩ := exists_cons_of_chosen hj
    subst hrest
    refine ⟨rest, h.of_cons.choose ?_, Multiset.le_cons_self _ _, ?_⟩
    · have hchosen := h.chosen
      rw [Multiset.map_cons] at hchosen
      exact (Multiset.cons_le_cons_iff j).1 hchosen
    · rw [Multiset.card_cons]
  · exact ⟨plan, h.of_unchosen hj, le_refl plan, Nat.le_succ _⟩

/-- A plan that gives the day to a job which then takes the day of `j`. -/
theorem Plan.exchange_day {i j : J} {rest : Multiset (J × ℤ)}
    (h : Plan release deadline (j ::ₘ jobs) ((i, first) ::ₘ rest))
    (hlater : ∀ a ∈ rest, first ≤ a.2)
    (hdeadline : i ≠ j → deadline j ≤ deadline i) :
    ∃ plan', Plan release deadline jobs plan' ∧
      (∀ a ∈ plan', a.2 ∈ rest.map Prod.snd) ∧ rest.card ≤ plan'.card := by
  have hchosen := h.chosen
  rw [Multiset.map_cons] at hchosen
  by_cases hij : i = j
  · subst hij
    refine ⟨rest, h.of_cons.choose ((Multiset.cons_le_cons_iff i).1 hchosen),
      ?_, le_refl _⟩
    exact fun a ha => Multiset.mem_map_of_mem _ ha
  by_cases hj : j ∈ rest.map Prod.fst
  · obtain ⟨day, rest', hrest⟩ := exists_cons_of_chosen hj
    subst hrest
    -- The day of `j` goes to `i`, which has at least as long.
    refine ⟨(i, day) ::ₘ rest', ?_, ?_, ?_⟩
    · have hday := h.of_cons.inTime (j, day) (Multiset.mem_cons_self _ _)
      have hlate := hlater (j, day) (Multiset.mem_cons_self _ _)
      have hi := h.released (i, first) (Multiset.mem_cons_self _ _)
      have hlong := hdeadline hij
      refine Plan.choose (h.of_cons.of_cons.cons (j := i) h.of_cons.free
        (le_trans hi hlate) (le_trans hday hlong)) ?_
      rw [Multiset.map_cons] at hchosen ⊢
      rw [Multiset.cons_swap] at hchosen
      exact (Multiset.cons_le_cons_iff j).1 hchosen
    · intro a ha
      rcases Multiset.mem_cons.1 ha with heq | ha
      · rw [heq, Multiset.map_cons]
        exact Multiset.mem_cons_self _ _
      · exact Multiset.mem_map_of_mem _ (Multiset.mem_cons_of_mem ha)
    · rw [Multiset.card_cons, Multiset.card_cons]
  · refine ⟨rest, h.of_cons.of_unchosen hj, ?_, le_refl _⟩
    exact fun a ha => Multiset.mem_map_of_mem _ ha

/-- The job with the earliest deadline may as well be done on the first day. -/
theorem Plan.exchange {j : J} (h : Plan release deadline (j ::ₘ jobs) plan)
    (hfirst : ∀ a ∈ plan, first ≤ a.2)
    (hleast : ∀ i ∈ jobs, release i ≤ first → deadline j ≤ deadline i) :
    ∃ plan', Plan release deadline jobs plan' ∧
      (∀ a ∈ plan', first + 1 ≤ a.2) ∧ plan.card ≤ plan'.card + 1 := by
  by_cases hday : first ∈ plan.map Prod.snd
  · obtain ⟨⟨i, day⟩, hmem, heq⟩ := Multiset.mem_map.1 hday
    obtain ⟨rest, hrest⟩ := Multiset.exists_cons_of_mem hmem
    rw [show day = first from heq] at hrest
    subst hrest
    have hdeadline : i ≠ j → deadline j ≤ deadline i := by
      intro hij
      have hi : i ∈ j ::ₘ jobs :=
        Multiset.mem_of_le h.chosen
          (Multiset.mem_map_of_mem Prod.fst (Multiset.mem_cons_self _ _))
      exact hleast i ((Multiset.mem_cons.1 hi).resolve_left hij)
        (h.released (i, first) (Multiset.mem_cons_self _ _))
    have hlater : ∀ a ∈ rest, first ≤ a.2 :=
      fun a ha => hfirst a (Multiset.mem_cons_of_mem ha)
    obtain ⟨plan', hplan, hdays, hcard⟩ := h.exchange_day hlater hdeadline
    refine ⟨plan', hplan, ?_, ?_⟩
    · intro a ha
      obtain ⟨b, hb, hba⟩ := Multiset.mem_map.1 (hdays a ha)
      refine after_of_free (hba ▸ hlater b hb) ?_
      intro hfirstDay
      exact h.free (hfirstDay ▸ hdays a ha)
    · rw [Multiset.card_cons]
      exact Nat.succ_le_succ hcard
  · obtain ⟨plan', hplan, hle, hcard⟩ := h.exchange_free
    refine ⟨plan', hplan, ?_, hcard⟩
    intro a ha
    have hmem := Multiset.mem_of_le hle ha
    refine after_of_free (hfirst a hmem) ?_
    intro hfirstDay
    exact hday (hfirstDay ▸ Multiset.mem_map_of_mem Prod.snd hmem)

/-! ## The most jobs from a day on -/

/-- After all deadlines nothing can be planned. -/
theorem best_after (h : ∀ j ∈ jobs, deadline j < first) :
    Best release deadline jobs first 0 := by
  constructor
  · have hnone : ∀ {p : J × ℤ → Prop}, ∀ a ∈ (0 : Multiset (J × ℤ)), p a :=
      fun a ha => absurd ha (Multiset.notMem_zero a)
    exact ⟨0, ⟨Multiset.zero_le _, Multiset.nodup_zero, hnone, hnone⟩, hnone,
      rfl⟩
  · intro k hk
    obtain ⟨plan, hplan, hfirst, hcard⟩ := hk
    rw [← hcard, Nat.le_zero, Multiset.card_eq_zero]
    refine Multiset.eq_zero_of_forall_notMem ?_
    intro a ha
    have hlate := h a.1
      (Multiset.mem_of_le hplan.chosen (Multiset.mem_map_of_mem _ ha))
    have hday := hplan.inTime a ha
    have hstart := hfirst a ha
    omega

/-- The jobs past their deadline do not count. -/
theorem best_filter
    (h : Best release deadline (jobs.filter (fun j => first ≤ deadline j))
      first n) : Best release deadline jobs first n := by
  constructor
  · obtain ⟨plan, hplan, hrest⟩ := h.1
    exact ⟨plan, hplan.mono (Multiset.filter_le _ _), hrest⟩
  · intro k hk
    obtain ⟨plan, hplan, hfirst, hcard⟩ := hk
    refine h.2 ⟨plan, hplan.choose ?_, hfirst, hcard⟩
    refine Multiset.le_filter.2 ⟨hplan.chosen, ?_⟩
    intro j hj
    obtain ⟨a, ha, heq⟩ := Multiset.mem_map.1 hj
    rw [← heq]
    exact le_trans (hfirst a ha) (hplan.inTime a ha)

/-- If no job has been released, the day is left free. -/
theorem best_idle (hnone : ∀ j ∈ jobs, first < release j)
    (h : Best release deadline jobs (first + 1) n) :
    Best release deadline jobs first n := by
  constructor
  · obtain ⟨plan, hplan, hfirst, hcard⟩ := h.1
    refine ⟨plan, hplan, ?_, hcard⟩
    intro a ha
    have hlater := hfirst a ha
    omega
  · intro k hk
    obtain ⟨plan, hplan, hfirst, hcard⟩ := hk
    refine h.2 ⟨plan, hplan, ?_, hcard⟩
    intro a ha
    have hlate := hnone a.1
      (Multiset.mem_of_le hplan.chosen (Multiset.mem_map_of_mem _ ha))
    have hreleased := hplan.released a ha
    omega

/-- The job with the earliest deadline is done on the day. -/
theorem best_serve {j : J} (hreleased : release j ≤ first)
    (hinTime : first ≤ deadline j)
    (hleast : ∀ i ∈ jobs, release i ≤ first → deadline j ≤ deadline i)
    (h : Best release deadline jobs (first + 1) n) :
    Best release deadline (j ::ₘ jobs) first (n + 1) := by
  constructor
  · obtain ⟨plan, hplan, hfirst, hcard⟩ := h.1
    have hfree : first ∉ plan.map Prod.snd := by
      intro hmem
      obtain ⟨a, ha, heq⟩ := Multiset.mem_map.1 hmem
      have hlater := hfirst a ha
      omega
    refine ⟨(j, first) ::ₘ plan, hplan.cons hfree hreleased hinTime, ?_, ?_⟩
    · intro a ha
      rcases Multiset.mem_cons.1 ha with heq | ha
      · rw [heq]
      · have hlater := hfirst a ha
        omega
    · rw [Multiset.card_cons, hcard]
  · intro k hk
    obtain ⟨plan, hplan, hfirst, hcard⟩ := hk
    obtain ⟨plan', hplan', hlater, hle⟩ := hplan.exchange hfirst hleast
    have hmost := h.2 ⟨plan', hplan', hlater, rfl⟩
    omega

end LearningCpp.Lib
