import LearningCpp.BusiestServers.Model

/-!
# The circular scan

What the code replaces: a request goes round the servers from its own one and
takes the first whose request has ended. The reference below does that, with a
table of when each server ends and how many requests it has handled.

The invariant ties the two together between requests: the busy servers are in
the heap with the time they end at, and the others in the set, which is right
for every later request because arrivals do not go back in time. Releasing then
makes the set that of the servers free at the arrival, and its first element
from `i % k` on, or else its first, is the first one round the circle.
-/

namespace LearningCpp.BusiestServers

open LearningCpp.Lib

/-! ## The reference -/

/-- When the current request of a server ends, if it has had one, and how many
it has handled. -/
structure Servers where
  ends : Int → Option Int
  handled : Int → Int

def Servers.init : Servers := ⟨fun _ => none, fun _ => 0⟩

/-- The server has no request that ends later. -/
def Servers.Free (r : Servers) (time : Int) (server : Int) : Prop :=
  ∀ e ∈ r.ends server, e ≤ time

instance (r : Servers) (time server : Int) : Decidable (r.Free time server) :=
  inferInstanceAs (Decidable (∀ e ∈ r.ends server, e ≤ time))

/-- `i mod k`, `i + 1 mod k`, and so on around. -/
def candidates (k : Int) (i : ℕ) : List Int :=
  (List.range k.toNat).map (fun j => ((i + j : ℕ) : Int) % k)

/-- Request `i` goes to the first candidate that is free, or is dropped. -/
def Servers.request (k : Int) (r : Servers) (i : ℕ)
    (arrivalTime loadTime : Int) : Servers :=
  match (candidates k i).find? (fun v => decide (r.Free arrivalTime v)) with
  | none => r
  | some v =>
      { ends := Function.update r.ends v (some (arrivalTime + loadTime))
        handled := Function.update r.handled v (r.handled v + 1) }

/-- The requests from request `i` on. -/
def Servers.requests (k : Int) :
    Servers → ℕ → List (Int × Int) → Servers
  | r, _, [] => r
  | r, i, (arrivalTime, loadTime) :: rest =>
      requests k (r.request k i arrivalTime loadTime) (i + 1) rest

/-- The servers after all requests. -/
def simulate (k : Int) (arrival load : List Int) : Servers :=
  Servers.init.requests k 0 (arrival.zip load)

/-- No server has handled more requests. -/
def Servers.Busiest (r : Servers) (k server : Int) : Prop :=
  (0 ≤ server ∧ server < k) ∧
    ∀ v, 0 ≤ v → v < k → r.handled v ≤ r.handled server

/-! ## The first around the circle -/

theorem first?_eq_some {s : Finset Int} {v : Int} (hv : v ∈ s)
    (hleast : ∀ w ∈ s, v ≤ w) : first? s = some v := by
  have h : s.Nonempty := ⟨v, hv⟩
  rw [first?, dif_pos h]
  exact congrArg some (le_antisymm (s.min'_le v hv) (hleast _ (s.min'_mem h)))

theorem first?_empty : first? ∅ = none :=
  dif_neg Finset.not_nonempty_empty

theorem exists_first? {s : Finset Int} (h : s.Nonempty) :
    ∃ v ∈ s, first? s = some v := ⟨s.min' h, s.min'_mem h, dif_pos h⟩

theorem exists_available {s : Finset Int} (h : s.Nonempty) (x : Int) :
    ∃ v ∈ s, (lowerBound s x <|> first? s) = some v := by
  by_cases hlater : (s.filter (fun v => x ≤ v)).Nonempty
  · obtain ⟨v, hv, hbound⟩ := exists_first? hlater
    refine ⟨v, Finset.mem_of_mem_filter v hv, ?_⟩
    rw [lowerBound, hbound]
    rfl
  · obtain ⟨v, hv, hfirst⟩ := exists_first? h
    refine ⟨v, hv, ?_⟩
    rw [lowerBound, Finset.not_nonempty_iff_eq_empty.1 hlater, first?_empty,
      hfirst]
    rfl

theorem emod_add {k : Int} (hk : 1 ≤ k) {i j : ℕ} (hj : (j : Int) < k) :
    ((i + j : ℕ) : Int) % k =
      if (i : Int) % k + j < k then (i : Int) % k + j
      else (i : Int) % k + j - k := by
  have hlow := Int.emod_nonneg (i : Int) (by omega : k ≠ 0)
  have hhigh := Int.emod_lt_of_pos (i : Int) (by omega : 0 < k)
  rw [Nat.cast_add, Int.add_emod, Int.emod_eq_of_lt (by omega) hj]
  split
  · next h => exact Int.emod_eq_of_lt (by omega) h
  · next h =>
      rw [← Int.sub_emod_right, Int.emod_eq_of_lt (by omega) (by omega)]

/-- What the scan finds `j` places on, if it finds nothing before. -/
theorem find?_candidates_some {k : Int} (hk : 1 ≤ k) {i j : ℕ} {v : Int}
    {p : Int → Bool} (hj : (j : Int) < k) (heq : ((i + j : ℕ) : Int) % k = v)
    (hv : p v = true)
    (hbefore : ∀ j' < j, ¬ p (((i + j' : ℕ) : Int) % k) = true) :
    (candidates k i).find? p = some v := by
  have hrange : (List.range k.toNat).find?
      (p ∘ fun j => ((i + j : ℕ) : Int) % k) = some j := by
    rw [List.find?_range_eq_some]
    refine ⟨?_, List.mem_range.2 (by omega), ?_⟩
    · rw [Function.comp_apply, heq]
      exact hv
    · intro j' hj'
      rw [Function.comp_apply, Bool.not_eq_true', ← Bool.not_eq_true]
      exact hbefore j' hj'
  rw [candidates, List.find?_map, hrange, Option.map_some, heq]

/-- The first candidate in a set of servers is the first of the set from the
request's own server on, or else the first. -/
theorem find?_candidates {k : Int} (hk : 1 ≤ k) (i : ℕ) {s : Finset Int}
    (hs : ∀ v ∈ s, 0 ≤ v ∧ v < k) {p : Int → Bool}
    (hp : ∀ v, 0 ≤ v → v < k → (p v = true ↔ v ∈ s)) :
    (candidates k i).find? p = (lowerBound s (i % k) <|> first? s) := by
  have hlow := Int.emod_nonneg (i : Int) (by omega : k ≠ 0)
  have hhigh := Int.emod_lt_of_pos (i : Int) (by omega : 0 < k)
  have hfree : ∀ j, p (((i + j : ℕ) : Int) % k) = true ↔
      ((i + j : ℕ) : Int) % k ∈ s := fun j =>
    hp _ (Int.emod_nonneg _ (by omega)) (Int.emod_lt_of_pos _ (by omega))
  by_cases hlater : ∃ v ∈ s, (i : Int) % k ≤ v
  · -- One from the request's own server on.
    have hne : (s.filter (fun v => (i : Int) % k ≤ v)).Nonempty := by
      obtain ⟨v, hv, hge⟩ := hlater
      exact ⟨v, Finset.mem_filter.2 ⟨hv, hge⟩⟩
    obtain ⟨v, hmem, hleast⟩ := Finset.exists_min_image _ id hne
    obtain ⟨hv, hge⟩ := Finset.mem_filter.1 hmem
    obtain ⟨hv0, hvk⟩ := hs v hv
    have hbound : lowerBound s ((i : Int) % k) = some v :=
      first?_eq_some hmem hleast
    rw [hbound]
    show _ = some v
    refine find?_candidates_some hk (j := (v - (i : Int) % k).toNat)
      (by omega) ?_ ((hp v hv0 hvk).2 hv) ?_
    · rw [emod_add hk (by omega), if_pos (by omega)]
      omega
    · intro j' hj' hpj'
      rw [hfree] at hpj'
      rw [emod_add hk (by omega), if_pos (by omega)] at hpj'
      have hle := hleast _ (Finset.mem_filter.2 ⟨hpj', by omega⟩)
      simp only [id] at hle
      omega
  · push Not at hlater
    have hbound : lowerBound s ((i : Int) % k) = none := by
      have hempty : s.filter (fun v => (i : Int) % k ≤ v) = ∅ := by
        refine Finset.filter_eq_empty_iff.2 ?_
        intro v hv
        exact not_le.2 (hlater v hv)
      rw [lowerBound, hempty]
      exact first?_empty
    rw [hbound]
    show _ = first? s
    rcases s.eq_empty_or_nonempty with rfl | hne
    · rw [first?_empty, List.find?_eq_none]
      intro v hv
      obtain ⟨j, _, rfl⟩ := List.mem_map.1 hv
      rw [hfree j]
      exact Finset.notMem_empty _
    · -- One before it: the scan goes past the last server.
      obtain ⟨v, hv, hleast⟩ := Finset.exists_min_image s id hne
      obtain ⟨hv0, hvk⟩ := hs v hv
      have hlt := hlater v hv
      rw [first?_eq_some hv hleast]
      refine find?_candidates_some hk (j := (k - (i : Int) % k + v).toNat)
        (by omega) ?_ ((hp v hv0 hvk).2 hv) ?_
      · rw [emod_add hk (by omega), if_neg (by omega)]
        omega
      · intro j' hj' hpj'
        rw [hfree, emod_add hk (by omega)] at hpj'
        split at hpj'
        · have hle := hlater _ hpj'
          omega
        · have hle := hleast _ hpj'
          simp only [id] at hle
          omega

/-! ## The invariant -/

/-- The heap holds the busy servers with the time they end at, the set the
others, and the map the counts that are not zero. `time` is that of the latest
arrival. -/
structure Inv (k time : Int) (s : State) (r : Servers) : Prop where
  servers : ∀ v, (v ∈ s.available ∨ ∃ e, (e, v) ∈ s.endTimes.entries) ↔
    0 ≤ v ∧ v < k
  apart : ∀ e v, (e, v) ∈ s.endTimes.entries → v ∉ s.available
  busy : ∀ e v, (e, v) ∈ s.endTimes.entries → r.ends v = some e
  idle : ∀ v ∈ s.available, r.Free time v
  counts : ∀ v, s.serveCounts.lookup v =
    if r.handled v = 0 then none else some (r.handled v)
  used : ∀ v, r.ends v ≠ none → 0 < r.handled v
  nonneg : ∀ v, 0 ≤ r.handled v
  handled : ∀ v, r.handled v ≠ 0 → 0 ≤ v ∧ v < k

variable {k time arrivalTime : Int} {s : State} {r : Servers} {load : List Int}
  {i : ℕ}

theorem mem_foldl_insert {α : Type*} (f : α → Int) {l : List α}
    {a : Finset Int} {v : Int} :
    v ∈ l.foldl (fun a x => insert (f x) a) a ↔ v ∈ a ∨ ∃ x ∈ l, f x = v := by
  induction l generalizing a with
  | nil => simp
  | cons x l ih =>
      rw [List.foldl_cons, ih, Finset.mem_insert, List.exists_mem_cons_iff,
        or_comm (a := v = f x), or_assoc, eq_comm (a := v)]

/-- Releasing takes out of the heap what has ended by the arrival. -/
theorem release_endTimes (s : State) (arrivalTime : Int) :
    (s.endTimes.popWhile
        (fun server => decide (server.1 ≤ arrivalTime))).1 =
      s.endTimes.entries.filter
        (fun server => decide (server.1 ≤ arrivalTime)) ∧
    (s.release arrivalTime).endTimes.entries =
      s.endTimes.entries.filter
        (fun server => !decide (server.1 ≤ arrivalTime)) := by
  refine PriorityQueue.popWhile_filter ?_
  intro p _ q _ hle hq
  have hq := of_decide_eq_true hq
  refine decide_eq_true ?_
  unfold PairLE at hle
  omega

/-- After releasing, the available servers are those free at the arrival. -/
theorem Inv.release (h : Inv k time s r) (hle : time ≤ arrivalTime) :
    Inv k arrivalTime (s.release arrivalTime) r ∧
      ∀ v, v ∈ (s.release arrivalTime).available ↔
        (0 ≤ v ∧ v < k) ∧ r.Free arrivalTime v := by
  obtain ⟨hended, hleft⟩ := release_endTimes s arrivalTime
  have hbusy : ∀ e v, (e, v) ∈ (s.release arrivalTime).endTimes.entries ↔
      (e, v) ∈ s.endTimes.entries ∧ arrivalTime < e := by
    intro e v
    rw [hleft, List.mem_filter]
    simp
  have havailable : ∀ v, v ∈ (s.release arrivalTime).available ↔
      v ∈ s.available ∨ ∃ e, (e, v) ∈ s.endTimes.entries ∧
        e ≤ arrivalTime := by
    intro v
    have hmem : v ∈ (s.release arrivalTime).available ↔ v ∈ s.available ∨
        ∃ x ∈ (s.endTimes.popWhile
          (fun server => decide (server.1 ≤ arrivalTime))).1, x.2 = v :=
      mem_foldl_insert Prod.snd
    rw [hmem, hended]
    simp only [List.mem_filter, decide_eq_true_eq, Prod.exists,
      exists_eq_right]
  have hfree : ∀ v, v ∈ (s.release arrivalTime).available ↔
      (0 ≤ v ∧ v < k) ∧ r.Free arrivalTime v := by
    intro v
    rw [havailable, ← h.servers v]
    constructor
    · rintro (hv | ⟨e, he, hend⟩)
      · refine ⟨.inl hv, ?_⟩
        intro e he
        exact (h.idle v hv e he).trans hle
      · refine ⟨.inr ⟨e, he⟩, ?_⟩
        intro e' he'
        rw [h.busy e v he] at he'
        cases he'
        exact hend
    · rintro ⟨hv | ⟨e, he⟩, hfree⟩
      · exact .inl hv
      · exact .inr ⟨e, he, hfree e (h.busy e v he)⟩
  refine ⟨?_, hfree⟩
  constructor
  case servers =>
    intro v
    rw [← h.servers v, havailable]
    constructor
    · rintro ((hv | ⟨e, he, _⟩) | ⟨e, he⟩)
      · exact .inl hv
      · exact .inr ⟨e, he⟩
      · exact .inr ⟨e, ((hbusy e v).1 he).1⟩
    · rintro (hv | ⟨e, he⟩)
      · exact .inl (.inl hv)
      · rcases le_or_gt e arrivalTime with hend | hend
        · exact .inl (.inr ⟨e, he, hend⟩)
        · exact .inr ⟨e, (hbusy e v).2 ⟨he, hend⟩⟩
  case apart =>
    intro e v he hv
    obtain ⟨he, hlater⟩ := (hbusy e v).1 he
    have hend := ((hfree v).1 hv).2 e (h.busy e v he)
    omega
  case busy =>
    intro e v he
    exact h.busy e v ((hbusy e v).1 he).1
  case idle =>
    intro v hv
    exact ((hfree v).1 hv).2
  case counts => exact h.counts
  case used => exact h.used
  case nonneg => exact h.nonneg
  case handled => exact h.handled

theorem handled_le_update (r : Servers) (v w : Int) :
    r.handled w ≤ Function.update r.handled v (r.handled v + 1) w := by
  by_cases hw : w = v
  · rw [hw, Function.update_self]
    omega
  · rw [Function.update_of_ne hw]

/-- A free server is given a request. -/
theorem Inv.serve {v e : Int} (h : Inv k time s r) (hv : v ∈ s.available) :
    Inv k time
      { endTimes := s.endTimes.push (e, v)
        available := s.available.erase v
        serveCounts := modifyAt s.serveCounts v 0 (· + 1) }
      { ends := Function.update r.ends v (some e)
        handled := Function.update r.handled v (r.handled v + 1) } := by
  have hnonneg := h.nonneg v
  have hrange := (h.servers v).1 (.inl hv)
  constructor
  case servers =>
    intro w
    simp only [Finset.mem_erase, PriorityQueue.mem_push]
    rw [← h.servers w]
    by_cases hw : w = v
    · subst hw
      exact iff_of_true (.inr ⟨e, .inl rfl⟩) (.inl hv)
    · simp [hw]
  case apart =>
    intro e' w he' hw
    rcases PriorityQueue.mem_push.1 he' with heq | he'
    · cases heq
      exact Finset.notMem_erase _ _ hw
    · exact h.apart e' w he' (Finset.mem_of_mem_erase hw)
  case busy =>
    intro e' w he'
    rcases PriorityQueue.mem_push.1 he' with heq | hin
    · cases heq
      exact Function.update_self _ _ _
    · have hne : w ≠ v := by
        rintro rfl
        exact h.apart e' w hin hv
      exact (Function.update_of_ne hne _ _).trans (h.busy e' w hin)
  case idle =>
    intro w hw e' he'
    have hne : w ≠ v := Finset.ne_of_mem_erase hw
    have he' : Function.update r.ends v (some e) w = some e' := he'
    rw [Function.update_of_ne hne] at he'
    exact h.idle w (Finset.mem_of_mem_erase hw) e' he'
  case counts =>
    intro w
    show (modifyAt s.serveCounts v 0 (· + 1)).lookup w = _
    rw [lookup_modifyAt, h.counts v, h.counts w]
    by_cases hw : w = v
    · subst hw
      have hne : r.handled w + 1 ≠ 0 := by omega
      simp only [if_true, Function.update_self, if_neg hne]
      split
      · next hzero => rw [hzero]; rfl
      · rfl
    · simp only [if_neg hw, Function.update_of_ne hw]
  case used =>
    intro w hw
    by_cases hne : w = v
    · subst hne
      show 0 < Function.update r.handled w _ w
      rw [Function.update_self]
      omega
    · refine lt_of_lt_of_le (h.used w ?_) (handled_le_update r v w)
      rwa [← Function.update_of_ne hne (some e) r.ends]
  case nonneg =>
    exact fun w => le_trans (h.nonneg w) (handled_le_update r v w)
  case handled =>
    intro w hw
    by_cases hne : w = v
    · rw [hne]
      exact hrange
    · refine h.handled w ?_
      rwa [← Function.update_of_ne hne (r.handled v + 1) r.handled]

/-- One request: the code and the scan choose the same server, and some server
has handled a request after it. -/
theorem Inv.request (h : Inv k time s r) (hk : 1 ≤ k)
    (hle : time ≤ arrivalTime) {loadTime : Int}
    (hload : load[i]? = some loadTime) :
    ∃ s', s.request k load i arrivalTime = some s' ∧
      Inv k arrivalTime s' (r.request k i arrivalTime loadTime) ∧
      ∃ v, 0 < (r.request k i arrivalTime loadTime).handled v := by
  obtain ⟨hinv, hfree⟩ := h.release hle
  have hfind := find?_candidates hk i
    (s := (s.release arrivalTime).available) (fun v hv => ((hfree v).1 hv).1)
    (p := fun v => decide (r.Free arrivalTime v)) (by
      intro v hlow hhigh
      rw [decide_eq_true_eq, hfree]
      exact (and_iff_right ⟨hlow, hhigh⟩).symm)
  by_cases hempty : (s.release arrivalTime).available = ∅
  · -- All servers are busy, and the request is dropped.
    have hcode : s.request k load i arrivalTime =
        some (s.release arrivalTime) := if_pos hempty
    have hscan : r.request k i arrivalTime loadTime = r := by
      have hnone : (candidates k i).find?
          (fun v => decide (r.Free arrivalTime v)) = none := by
        rw [hfind, hempty, lowerBound, Finset.filter_empty, first?_empty]
        rfl
      unfold Servers.request
      rw [hnone]
    rw [hscan]
    refine ⟨_, hcode, hinv, 0, h.used 0 ?_⟩
    intro hnever
    have hzero : (0 : Int) ∈ (s.release arrivalTime).available := by
      rw [hfree]
      refine ⟨by omega, ?_⟩
      intro e he
      rw [hnever] at he
      cases he
    rw [hempty] at hzero
    exact Finset.notMem_empty _ hzero
  · obtain ⟨v, hv, hpick⟩ :
        ∃ v ∈ (s.release arrivalTime).available,
          (lowerBound (s.release arrivalTime).available (i % k) <|>
            first? (s.release arrivalTime).available) = some v :=
      exists_available (Finset.nonempty_iff_ne_empty.2 hempty) _
    have hcode : s.request k load i arrivalTime = some
        { endTimes := (s.release arrivalTime).endTimes.push
            (arrivalTime + loadTime, v)
          available := (s.release arrivalTime).available.erase v
          serveCounts :=
            modifyAt (s.release arrivalTime).serveCounts v 0 (· + 1) } := by
      refine (if_neg hempty).trans ?_
      rw [hpick, hload]
      rfl
    have hscan : r.request k i arrivalTime loadTime =
        { ends := Function.update r.ends v (some (arrivalTime + loadTime))
          handled := Function.update r.handled v (r.handled v + 1) } := by
      unfold Servers.request
      rw [hfind, hpick]
    rw [hscan]
    refine ⟨_, hcode, hinv.serve hv, v, ?_⟩
    show 0 < Function.update r.handled v _ v
    rw [Function.update_self]
    have hnonneg := h.nonneg v
    omega

/-- All requests from request `i` on. -/
theorem Inv.requests (hk : 1 ≤ k) (arrival : List Int) :
    ∀ {time : Int} {s : State} {r : Servers} {i : ℕ} {loads : List Int},
      Inv k time s r → (∀ a ∈ arrival, time ≤ a) →
      arrival.Pairwise (· ≤ ·) → loads.length = arrival.length →
      load.drop i = loads →
      ∃ s' time', s.requests k load i arrival = some s' ∧
        Inv k time' s' (r.requests k i (arrival.zip loads)) ∧
        (arrival ≠ [] ∨ (∃ v, 0 < r.handled v) →
          ∃ v, 0 < (r.requests k i (arrival.zip loads)).handled v) := by
  induction arrival with
  | nil =>
      intro time s r i loads h _ _ _ _
      refine ⟨s, time, rfl, h, ?_⟩
      rintro (hne | hsome)
      · exact absurd rfl hne
      · exact hsome
  | cons a arrival ih =>
      intro time s r i loads h hlater hsorted hlength hdrop
      obtain ⟨hhead, htail⟩ := List.pairwise_cons.1 hsorted
      cases loads with
      | nil => cases hlength
      | cons l loads =>
          have hload : load[i]? = some l := by
            rw [← List.head?_drop, hdrop]
            rfl
          have hrest : load.drop (i + 1) = loads := by
            rw [← List.tail_drop, hdrop]
            rfl
          obtain ⟨s', hrequest, hinv, hsome⟩ :=
            h.request hk (hlater a List.mem_cons_self) hload
          obtain ⟨s'', time', hrequests, hinv', hsome'⟩ := ih hinv hhead htail
            (Nat.succ.inj hlength) hrest
          refine ⟨s'', time', ?_, hinv', fun _ => hsome' (.inr hsome)⟩
          rw [State.requests, hrequest]
          exact hrequests

theorem mem_init_available {v : Int} :
    v ∈ (State.init k).available ↔ 0 ≤ v ∧ v < k := by
  have hmem : v ∈ (State.init k).available ↔
      v ∈ (∅ : Finset Int) ∨ ∃ i ∈ List.range k.toNat, (i : Int) = v :=
    mem_foldl_insert Nat.cast
  rw [hmem]
  constructor
  · rintro (hv | ⟨i, hi, rfl⟩)
    · exact absurd hv (Finset.notMem_empty _)
    · have hi := List.mem_range.1 hi
      omega
  · intro hv
    exact .inr ⟨v.toNat, List.mem_range.2 (by omega), by omega⟩

theorem init_inv (k time : Int) : Inv k time (.init k) .init where
  servers := by
    intro v
    rw [mem_init_available]
    refine or_iff_left ?_
    rintro ⟨e, he⟩
    cases he
  apart := fun e v he => by cases he
  busy := fun e v he => by cases he
  idle := fun v _ e he => by cases he
  counts := fun v => AList.lookup_empty v
  used := fun v hv => absurd rfl hv
  nonneg := fun v => le_rfl
  handled := fun v hv => absurd rfl hv

/-! ## The servers with the most requests -/

/-- The last loop returns the elements of the largest count. -/
theorem busiest_spec {counts : PriorityQueue PairGE}
    (hne : counts.entries ≠ [])
    (hnodup : (counts.entries.map Prod.snd).Nodup) :
    ∃ out, busiest counts = some out ∧ out.Nodup ∧
      ∀ v, v ∈ out ↔ ∃ c, (c, v) ∈ counts.entries ∧
        ∀ p ∈ counts.entries, p.1 ≤ c := by
  obtain ⟨most, htop⟩ : ∃ most, counts.top? = some most := by
    cases hentries : counts.entries with
    | nil => exact absurd hentries hne
    | cons p l => exact ⟨p, by rw [PriorityQueue.top?, hentries]; rfl⟩
  have hmost : ∀ p ∈ counts.entries, p.1 ≤ most.1 := by
    intro p hp
    have hbefore : PairGE most p := PriorityQueue.top_before htop hp
    unfold PairGE PairLE at hbefore
    omega
  have hentries := PriorityQueue.entries_of_top htop
  obtain ⟨hothers, _⟩ : (counts.pop.popWhile
        (fun c => decide (most.1 = c.1))).1 =
      counts.pop.entries.filter (fun c => decide (most.1 = c.1)) ∧ _ := by
    refine PriorityQueue.popWhile_filter ?_
    intro p hp q _ hge hq
    have hle := hmost p (hentries ▸ List.mem_cons_of_mem _ hp)
    have hq := of_decide_eq_true hq
    refine decide_eq_true ?_
    unfold PairGE PairLE at hge
    omega
  have hout : busiest counts = some
      ((counts.entries.filter (fun c => decide (most.1 = c.1))).map
        Prod.snd) := by
    have hloop : busiest counts = some (most.2 ::
        (counts.pop.popWhile (fun c => decide (most.1 = c.1))).1.map
          Prod.snd) := by
      unfold busiest
      rw [htop]
      rfl
    rw [hloop, hothers, hentries, List.filter_cons,
      if_pos (decide_eq_true rfl)]
    rfl
  refine ⟨_, hout, ?_, ?_⟩
  · exact hnodup.sublist (List.filter_sublist.map _)
  · intro v
    simp only [List.mem_map, List.mem_filter, decide_eq_true_eq]
    constructor
    · rintro ⟨⟨c, w⟩, ⟨hmem, heq⟩, rfl⟩
      refine ⟨c, hmem, ?_⟩
      intro p hp
      have hle := hmost p hp
      simp only at heq
      omega
    · rintro ⟨c, hmem, hmax⟩
      refine ⟨(c, v), ⟨hmem, ?_⟩, rfl⟩
      have hle := hmost _ hmem
      have hge := hmax most (hentries ▸ List.mem_cons_self)
      simp only at hle ⊢
      omega

theorem State.counts_perm (s : State) (visit : Visit (Σ _ : Int, Int)) :
    (s.counts visit).entries.Perm
      ((visit.order s.serveCounts.entries).map (fun e => (e.2, e.1))) := by
  have hpush := PriorityQueue.foldl_push_perm
    (q := (.empty : PriorityQueue PairGE))
    ((visit.order s.serveCounts.entries).map (fun e => (e.2, e.1)))
  rw [List.foldl_map] at hpush
  exact hpush.trans (List.append_nil _ ▸ .refl _)

theorem State.nodup_counts (s : State) (visit : Visit (Σ _ : Int, Int)) :
    ((s.counts visit).entries.map Prod.snd).Nodup := by
  rw [((s.counts_perm visit).map Prod.snd).nodup_iff, List.map_map]
  exact visit.nodup_keys _

/-- The heap of counts holds the counts that are not zero. -/
theorem Inv.mem_counts (h : Inv k time s r) (visit : Visit (Σ _ : Int, Int))
    {c v : Int} : (c, v) ∈ (s.counts visit).entries ↔
      r.handled v = c ∧ r.handled v ≠ 0 := by
  rw [(s.counts_perm visit).mem_iff]
  have hentry : (c, v) ∈ (visit.order s.serveCounts.entries).map
      (fun e => (e.2, e.1)) ↔ s.serveCounts.lookup v = some c := by
    rw [← visit.mem_order, List.mem_map]
    constructor
    · rintro ⟨⟨w, d⟩, he, heq⟩
      cases heq
      exact he
    · intro he
      exact ⟨⟨v, c⟩, he, rfl⟩
  rw [hentry, h.counts]
  split
  · next hzero => simp [hzero]
  · next hne => simp [hne]

/-- `busiestServers` returns the servers that handled the most requests in the
circular scan, each once. -/
theorem busiestServers_circular (visit : Visit (Σ _ : Int, Int))
    (hk : 1 ≤ k) {arrival : List Int} (hne : arrival ≠ [])
    (hsorted : arrival.Pairwise (· ≤ ·))
    (hlength : load.length = arrival.length) :
    ∃ out, busiestServers visit k arrival load = some out ∧ out.Nodup ∧
      ∀ v, v ∈ out ↔ (simulate k arrival load).Busiest k v := by
  obtain ⟨time, hfirst⟩ : ∃ time, ∀ a ∈ arrival, time ≤ a := by
    cases arrival with
    | nil => exact absurd rfl hne
    | cons a arrival =>
        refine ⟨a, List.forall_mem_cons.2 ⟨le_rfl, ?_⟩⟩
        exact (List.pairwise_cons.1 hsorted).1
  obtain ⟨s, time', hrequests, hinv, hsome⟩ :=
    (init_inv k time).requests hk arrival hfirst hsorted hlength List.drop_zero
  obtain ⟨u, hu⟩ := hsome (.inl hne)
  change Inv k time' s (simulate k arrival load) at hinv
  change 0 < (simulate k arrival load).handled u at hu
  generalize simulate k arrival load = r at hinv hu ⊢
  have hout : busiestServers visit k arrival load =
      busiest (s.counts visit) := by
    unfold busiestServers
    rw [hrequests]
    rfl
  have hmem : ∀ c v, (c, v) ∈ (s.counts visit).entries ↔
      r.handled v = c ∧ r.handled v ≠ 0 := fun _ _ => hinv.mem_counts visit
  obtain ⟨out, hbusiest, hnodup, hspec⟩ := busiest_spec
    (List.ne_nil_of_mem ((hmem _ u).2 ⟨rfl, hu.ne'⟩))
    (s.nodup_counts visit)
  refine ⟨out, hout.trans hbusiest, hnodup, ?_⟩
  intro v
  rw [hspec]
  constructor
  · rintro ⟨c, hv, hmax⟩
    obtain ⟨rfl, hne⟩ := (hmem c v).1 hv
    refine ⟨hinv.handled v hne, ?_⟩
    intro w _ _
    by_cases hw : r.handled w = 0
    · rw [hw]
      exact hinv.nonneg v
    · exact hmax _ ((hmem _ w).2 ⟨rfl, hw⟩)
  · rintro ⟨_, hmax⟩
    have hv : r.handled v ≠ 0 := by
      have hle := hmax u (hinv.handled u hu.ne').1 (hinv.handled u hu.ne').2
      omega
    refine ⟨r.handled v, (hmem _ v).2 ⟨rfl, hv⟩, ?_⟩
    rintro ⟨c, w⟩ hw
    obtain ⟨rfl, hne⟩ := (hmem c w).1 hw
    exact hmax w (hinv.handled w hne).1 (hinv.handled w hne).2

/-- Five requests for three servers, of which the last is dropped. -/
theorem busiestServers_circular_three :
    (simulate 3 [1, 2, 3, 4, 5] [5, 2, 3, 3, 3]).Busiest 3 1 := by
  have hsorted : ([1, 2, 3, 4, 5] : List Int).Pairwise (· ≤ ·) := by decide
  have hlength : ([5, 2, 3, 3, 3] : List Int).length =
      ([1, 2, 3, 4, 5] : List Int).length := rfl
  obtain ⟨out, hout, _, hspec⟩ := busiestServers_circular .inOrder
    (by decide : (1 : Int) ≤ 3) (by decide) hsorted hlength
  have hcode : busiestServers .inOrder 3 [1, 2, 3, 4, 5] [5, 2, 3, 3, 3] =
      some [1] := by decide
  rw [hcode] at hout
  cases hout
  exact (hspec 1).1 List.mem_cons_self

end LearningCpp.BusiestServers
