import LearningCpp.Orderbook.Ledger
import LearningCpp.Orderbook.Priority

/-!
# What `orders_` forgets to forget

A filled order takes its entry of `orders_` with it. A cancelled one that
`match` discards does not: both discarding branches pop the deque and
continue, and the entry stays for good. So the keys of `orders_` are the ids
in the deques exactly as long as no call reaches a cancelled order, and after
the first that does the id can never be added again.

Which calls reach one can be read off the book before the call. The incoming
order walks down the opposite queue until it is filled or nothing crosses; a
cancelled order there is reached unless the live orders ahead of it fill the
incoming one first. `metadataExact_iff` says a run keeps the two sets equal
after every call if and only if none of its calls reaches a cancelled order.
-/

namespace LearningCpp.Orderbook

open LearningCpp.Lib

/-- The keys of `orders_` are the stored ids, and so an id that is not stored
can be added. -/
def MetadataExact (s : Orderbook × Nat) : Prop :=
  (∀ i, s.1.orders.contains i = true ↔ IsStored i s.1) ∧
    ∀ order, ¬ IsStored order.orderId s.1 →
      accepts order.orderId s (.add order) = true

/-- An incoming order reaches the cancelled order `x` with `ahead` before it
on the other side: everything up to `x` crosses the limit, and the live orders
ahead never add up to what is wanted. -/
def ReachesAfter (orders : Metadata) (order : Order) (ahead : Queue)
    (x : Int × Order) : Prop :=
  isCanceled orders x.2.orderId = true ∧
    (∀ y ∈ ahead ++ [x], crosses order.isBuy order.level y.1) ∧
    ∀ l, l <+: ahead.filter (fun y => live orders y.2) → l ≠ [] →
      (l.map (fun y => y.2.quantity)).sum < order.quantity

/-- An incoming order reaches some cancelled order of the queue opposite. -/
def ReachesIn (orders : Metadata) (order : Order) (opp : Queue) : Prop :=
  ∃ ahead x behind, opp = ahead ++ x :: behind ∧
    ReachesAfter orders order ahead x

/-- The call reaches some cancelled order. -/
def ReachesCanceled (book : Orderbook) : Op → Prop
  | .add order => book.orders.contains order.orderId = false ∧
      ReachesIn book.orders order ((queues book).side (!order.isBuy))
  | .cancel _ => False

/-! ## An entry without an order is a cancelled one -/

def Queues.Keyed (q : Queues) : Prop :=
  ∀ i m, q.orders i = some m →
    m.canceled = true ∨ ∃ x ∈ q.resting, x.2.orderId = i

theorem round_keyed {p p' : Int} {bid ask : Order} {bids asks : Queue}
    {orders : Metadata} {r : Round} {next : Nat}
    (hq : WF ⟨(p, bid) :: bids, (p', ask) :: asks, orders⟩ next)
    (hk : (⟨(p, bid) :: bids, (p', ask) :: asks, orders⟩ : Queues).Keyed)
    (hr : matchFront orders bid ask = .ok r) :
    (⟨atPrice p r.bid ++ bids, atPrice p' r.ask ++ asks, r.orders⟩ :
      Queues).Keyed := by
  intro i m hm
  have hold := (round_shrinks hq hr).orders i m hm
  obtain ⟨_, _, mb, hb, _⟩ := hq.entry true (p, bid) List.mem_cons_self
  obtain ⟨_, _, ma, ha, _⟩ := hq.entry false (p', ask) List.mem_cons_self
  rcases hk i m hold with hc | ⟨x, hx, hi⟩
  · exact Or.inl hc
  · simp only [Queues.resting, List.mem_append, List.mem_cons] at hx ⊢
    rcases matchFront_cases hb ha hr with
      ⟨hc, rfl⟩ | ⟨_, hc, rfl⟩ | ⟨_, _, rfl⟩
    · rcases hx with (rfl | hx) | (rfl | hx)
      · left
        rw [← hi] at hold
        rw [← Option.some.inj (hb.symm.trans hold)]
        exact hc
      · exact Or.inr ⟨x, Or.inl (Or.inr hx), hi⟩
      · exact Or.inr ⟨_, Or.inr (Or.inl List.mem_cons_self), hi⟩
      · exact Or.inr ⟨x, Or.inr (Or.inr hx), hi⟩
    · rcases hx with (rfl | hx) | (rfl | hx)
      · exact Or.inr ⟨_, Or.inl (Or.inl List.mem_cons_self), hi⟩
      · exact Or.inr ⟨x, Or.inl (Or.inr hx), hi⟩
      · left
        rw [← hi] at hold
        rw [← Option.some.inj (ha.symm.trans hold)]
        exact hc
      · exact Or.inr ⟨x, Or.inr (Or.inr hx), hi⟩
    · -- An order that left was filled, and then its entry is gone too.
      right
      simp only [tradeRound, settle_apply] at hm
      generalize hn : min bid.quantity ask.quantity = n at hm
      have hleft : ∀ {p : Int} {o : Order}, o.quantity - n ≠ 0 →
          (p, { o with quantity := o.quantity - n }) ∈
            atPrice p (leftover o n) := by
        intro p o hne
        rw [leftover, if_neg hne]
        exact List.mem_cons_self
      simp only [tradeRound, hn]
      rcases hx with (rfl | hx) | (rfl | hx)
      · refine ⟨_, Or.inl (Or.inl (hleft ?_)), hi⟩
        intro hz
        split at hm
        · cases hm
        · rw [if_pos ⟨hz, hi.symm⟩] at hm
          cases hm
      · exact ⟨x, Or.inl (Or.inr hx), hi⟩
      · refine ⟨_, Or.inr (Or.inl (hleft ?_)), hi⟩
        intro hz
        rw [if_pos ⟨hz, hi.symm⟩] at hm
        cases hm
      · exact ⟨x, Or.inr (Or.inr hx), hi⟩

theorem sweep_keyed {q q' : Queues} {trades : Trades} {next : Nat}
    (h : Sweep q trades q') (hq : WF q next) (hk : q.Keyed) : q'.Keyed := by
  induction h with
  | stop _ => exact hk
  | round hcross hr _ ih =>
      exact ih ((round_shrinks hq hr).wf hq) (round_keyed hq hk hr)

theorem keyed_insert {q : Queues} (hk : q.Keyed) (priority : Nat)
    (order : Order) : (q.insert priority order).Keyed := by
  intro i m hm
  rw [Queues.insert_orders, UnorderedMap.set_apply] at hm
  have hperm := resting_insert_perm q priority order
  split at hm
  · next hi =>
      exact Or.inr ⟨_, hperm.mem_iff.2 List.mem_cons_self, hi.symm⟩
  · rcases hk i m hm with hc | ⟨x, hx, hi⟩
    · exact Or.inl hc
    · exact Or.inr ⟨x, hperm.mem_iff.2 (List.mem_cons_of_mem _ hx), hi⟩

theorem keyed_cancel {q : Queues} (hk : q.Keyed) (orderId : Id) :
    (q.cancel orderId).Keyed := by
  intro i m hm
  rw [Queues.cancel_orders, markCanceled_apply, Option.map_eq_some_iff] at hm
  obtain ⟨m₀, hm₀, rfl⟩ := hm
  rcases hk i m₀ hm₀ with hc | hst
  · left
    split
    · rfl
    · exact hc
  · exact Or.inr hst

theorem step_keyed {s : Orderbook × Nat} (hs : Inv s)
    (hk : (queues s.1).Keyed) (op : Op) :
    (queues (step s op).1.1).Keyed := by
  obtain ⟨book, curr⟩ := s
  cases op with
  | cancel orderId =>
      simp only [step, queues_cancelOrder]
      exact keyed_cancel hk orderId
  | add order =>
      simp only [step]
      cases hc : book.orders.contains order.orderId with
      | true => rw [addOrder_rejected hc]; exact hk
      | false =>
          obtain ⟨book', trades, hadd, hsweep, _, _⟩ := addOrder_spec curr hc
          rw [hadd]
          exact sweep_keyed hsweep
            (hs.wf.insert (UnorderedMap.contains_eq_false.1 hc))
            (keyed_insert hk curr order)

/-- So the two sets are equal when every cancelled id is still stored. -/
theorem metadataExact_iff_canceled {s : Orderbook × Nat} (hs : Inv s)
    (hk : (queues s.1).Keyed) : MetadataExact s ↔
      ∀ i, isCanceled s.1.orders i = true → IsStored i s.1 := by
  have hentry : ∀ i, IsStored i s.1 → s.1.orders.contains i = true := by
    intro i hi
    obtain ⟨x, hx, rfl⟩ := isStored_iff.1 hi
    obtain ⟨b, hb⟩ := Queues.mem_resting.1 hx
    obtain ⟨_, _, m, hm, _⟩ := hs.wf.entry b x hb
    exact UnorderedMap.contains_iff.2 ⟨m, hm⟩
  constructor
  · intro h i hc
    obtain ⟨m, hm, _⟩ := isCanceled_iff.1 hc
    exact (h.1 i).1 (UnorderedMap.contains_iff.2 ⟨m, hm⟩)
  · intro h
    have hkeys : ∀ i, s.1.orders.contains i = true → IsStored i s.1 := by
      intro i hi
      obtain ⟨m, hm⟩ := UnorderedMap.contains_iff.1 hi
      rcases hk i m hm with hc | hst
      · exact h i (isCanceled_iff.2 ⟨m, hm, hc⟩)
      · exact isStored_iff.2 hst
    refine ⟨fun i => ⟨hkeys i, hentry i⟩, ?_⟩
    intro order hn
    have hfree : s.1.orders.contains order.orderId = false :=
      Bool.eq_false_iff.2 (fun hi => hn (hkeys _ hi))
    simp [accepts, hfree]

/-! ## What a call throws away -/

theorem isCanceled_of_some {orders : Metadata} {i : Id} {m : OrderMetadata}
    (h : orders i = some m) : isCanceled orders i = m.canceled := by
  rw [isCanceled, h]; rfl

/-- Going past a live order leaves that much less to fill. -/
theorem reachesIn_cons {orders : Metadata} {o : Order} {x : Int × Order}
    {opp : Queue} {m : OrderMetadata} (hm : orders x.2.orderId = some m)
    (hc : crosses o.isBuy o.level x.1) :
    ReachesIn orders o (x :: opp) ↔ m.canceled = true ∨
      (x.2.quantity < o.quantity ∧
        ReachesIn orders { o with quantity := o.quantity - x.2.quantity }
          opp) := by
  cases hmc : m.canceled with
  | true =>
      refine ⟨fun _ => Or.inl rfl, fun _ => ⟨[], x, opp, rfl, ?_, ?_, ?_⟩⟩
      · rw [isCanceled_of_some hm, hmc]
      · intro y hy
        rw [List.mem_singleton.1 hy]
        exact hc
      · intro l hl hne
        exact absurd (List.prefix_nil.1 hl) hne
  | false =>
      have hlive : live orders x.2 = true := by
        rw [live_of_some hm, hmc]; rfl
      simp only [Bool.false_eq_true, false_or]
      constructor
      · rintro ⟨ahead, y, behind, hopp, hy, hcross, hsum⟩
        match ahead with
        | [] =>
            obtain rfl : x = y := (List.cons.inj hopp).1
            rw [isCanceled_of_some hm, hmc] at hy
            cases hy
        | z :: ahead =>
            obtain ⟨rfl, rfl⟩ := List.cons.inj hopp
            rw [List.filter_cons_of_pos
              (p := fun y : Int × Order => live orders y.2) hlive] at hsum
            have hx := hsum [x] ⟨_, rfl⟩ (List.cons_ne_nil _ _)
            simp only [List.map_cons, List.map_nil, List.sum_cons,
              List.sum_nil] at hx
            refine ⟨by omega, ahead, y, behind, rfl, hy, ?_, ?_⟩
            · intro w hw
              exact hcross w (List.mem_cons_of_mem _ hw)
            · intro l hl _
              have h := hsum (x :: l) ((List.prefix_cons_inj x).2 hl)
                (List.cons_ne_nil _ _)
              simp only [List.map_cons, List.sum_cons] at h ⊢
              omega
      · rintro ⟨hlt, ahead, y, behind, rfl, hy, hcross, hsum⟩
        refine ⟨x :: ahead, y, behind, rfl, hy, ?_, ?_⟩
        · intro w hw
          rcases List.mem_cons.1 hw with rfl | hw
          · exact hc
          · exact hcross w hw
        · intro l hl hne
          rw [List.filter_cons_of_pos
            (p := fun y : Int × Order => live orders y.2) hlive] at hl
          rcases List.prefix_cons_iff.1 hl with rfl | ⟨l', rfl, hl'⟩
          · exact absurd rfl hne
          · rw [List.map_cons, List.sum_cons]
            by_cases hl0 : l' = []
            · rw [hl0, List.map_nil, List.sum_nil]
              omega
            · have h := hsum l' hl' hl0
              simp only [] at h
              omega

theorem not_reachesIn_of_head {orders : Metadata} {o : Order} {opp : Queue}
    (h : ∀ y ∈ opp.head?, ¬ crosses o.isBuy o.level y.1) :
    ¬ ReachesIn orders o opp := by
  rintro ⟨ahead, x, behind, rfl, _, hcross, _⟩
  cases ahead with
  | nil => exact h x rfl (hcross x List.mem_cons_self)
  | cons y ahead => exact h y rfl (hcross y List.mem_cons_self)

theorem reachesIn_congr {orders orders' : Metadata} {o : Order} {opp : Queue}
    (h : ∀ y ∈ opp, orders' y.2.orderId = orders y.2.orderId) :
    ReachesIn orders' o opp ↔ ReachesIn orders o opp := by
  refine exists_congr (fun ahead => exists_congr (fun x =>
    exists_congr (fun behind => and_congr_right ?_)))
  rintro rfl
  rw [ReachesAfter, ReachesAfter, isCanceled, isCanceled, h x (by simp),
    List.filter_congr (fun y hy =>
      live_congr (o := y.2) (h y (List.mem_append_left _ hy)))]

/-- Some cancelled order of `q` does not rest in `q'`. -/
def Lost (q q' : Queues) : Prop :=
  ∃ x ∈ q.resting, isCanceled q.orders x.2.orderId = true ∧
    ∀ y ∈ q'.resting, y.2.orderId ≠ x.2.orderId

theorem not_lost_self (q : Queues) : ¬ Lost q q := by
  rintro ⟨x, hx, _, hno⟩
  exact hno x hx rfl

/-- Two queues with the same cancelled orders lose the same ones. -/
theorem lost_congr {q q₁ q' : Queues}
    (h : ∀ x, (x ∈ q.resting ∧ isCanceled q.orders x.2.orderId = true) ↔
      (x ∈ q₁.resting ∧ isCanceled q₁.orders x.2.orderId = true)) :
    Lost q q' ↔ Lost q₁ q' := by
  constructor
  · rintro ⟨x, hx, hc, hno⟩
    obtain ⟨hx, hc⟩ := (h x).1 ⟨hx, hc⟩
    exact ⟨x, hx, hc, hno⟩
  · rintro ⟨x, hx, hc, hno⟩
    obtain ⟨hx, hc⟩ := (h x).2 ⟨hx, hc⟩
    exact ⟨x, hx, hc, hno⟩

theorem Queues.mem_resting_sides {q : Queues} (s : Bool) {x : Int × Order} :
    x ∈ q.resting ↔ x ∈ q.side s ∨ x ∈ q.side (!s) := by
  cases s <;> simp [resting, side, or_comm]

/-- No other resting order has the id of a front order. -/
theorem WF.ne_of_head {q : Queues} {next : Nat} (hq : WF q next) {s : Bool}
    {x : Int × Order} {opp : Queue} (hopp : q.side (!s) = x :: opp)
    {y : Int × Order} (hy : y ∈ q.side s ∨ y ∈ opp) :
    y.2.orderId ≠ x.2.orderId := by
  have hids := hq.ids
  have hmem : ∀ {l : Queue}, y ∈ l →
      y.2.orderId ∈ l.map (fun x => x.2.orderId) :=
    fun h => List.mem_map_of_mem h
  intro heq
  cases s with
  | true =>
      rw [Bool.not_true, Queues.side] at hopp
      rw [Queues.resting, hopp, List.map_append, List.map_cons,
        List.nodup_append] at hids
      obtain ⟨_, hnd, hdisj⟩ := hids
      rcases hy with hy | hy
      · exact hdisj _ (hmem hy) _ List.mem_cons_self heq
      · exact (List.nodup_cons.1 hnd).1 (heq ▸ hmem hy)
  | false =>
      rw [Bool.not_false, Queues.side] at hopp
      rw [Queues.resting, hopp, List.map_append, List.map_cons,
        List.nodup_append] at hids
      obtain ⟨hnd, _, hdisj⟩ := hids
      rcases hy with hy | hy
      · exact hdisj _ List.mem_cons_self _ (hmem hy) heq.symm
      · exact (List.nodup_cons.1 hnd).1 (heq ▸ hmem hy)

/-- A round that hits a live order loses no cancelled one. -/
theorem AtFront.lost_hits {q q₁ q' : Queues} {next : Nat} {o : Order}
    {mo mx : OrderMetadata} {rest opp : Queue} {x : Int × Order}
    (h : AtFront q next o mo rest (x :: opp))
    (hmx : q.orders x.2.orderId = some mx) (hcx : mx.canceled = false)
    (hhit : Hits q q₁ o x rest opp) : Lost q q' ↔ Lost q₁ q' := by
  have hkept : ∀ y ∈ q₁.resting, isCanceled q₁.orders y.2.orderId =
      isCanceled q.orders y.2.orderId := by
    intro y hy
    rw [isCanceled, isCanceled, hhit.shrinks.kept y hy]
  have hsame : ∀ y, isCanceled q.orders y.2.orderId = true →
      (y ∈ q.resting ↔ y ∈ q₁.resting) := by
    intro y hy
    have hno : ∀ {p : Int} {z : Order} {m : OrderMetadata} {n : Int},
        q.orders z.orderId = some m → m.canceled = false →
        y ≠ (p, z) ∧ y ∉ atPrice p (leftover z n) := by
      intro p z m n hm hmc
      refine ⟨?_, fun hmem => ?_⟩
      · rintro rfl
        exact orderId_ne_of_flag hm hmc hy rfl
      · rw [(mem_atPrice_leftover hmem).2] at hy
        exact orderId_ne_of_flag hm hmc hy rfl
    have hyo : y ≠ (o.level, o) :=
      (hno (p := o.level) (n := 0) h.entry h.notCanceled).1
    have hyx : y ≠ x := (hno (p := x.1) (n := 0) hmx hcx).1
    rw [Queues.mem_resting_sides o.isBuy (q := q),
      Queues.mem_resting_sides o.isBuy (q := q₁), hhit.side, hhit.opposite,
      h.side, h.opposite]
    simp only [List.mem_append, List.mem_cons, hyo, hyx,
      (hno h.entry h.notCanceled).2, (hno hmx hcx).2, false_or]
  refine lost_congr (fun y => ?_)
  constructor
  · rintro ⟨hy, hcy⟩
    have hy := (hsame y hcy).1 hy
    exact ⟨hy, by rw [hkept y hy]; exact hcy⟩
  · rintro ⟨hy, hcy⟩
    rw [hkept y hy] at hcy
    exact ⟨(hsame y hcy).2 hy, hcy⟩

/-- The walk of an accepted order `o` that stands at the front of its side
throws away a cancelled order if and only if it reaches one. -/
theorem sweep_lost {rest : Queue} {q' : Queues} {next : Nat}
    {mo : OrderMetadata} : ∀ (opp : Queue) (q : Queues) (o : Order)
      (ts : Trades), AtFront q next o mo rest opp → Sweep q ts q' →
      (Lost q q' ↔ ReachesIn q.orders o opp) := by
  intro opp
  induction opp with
  | nil =>
      intro q o ts h hsweep
      cases h.walk hsweep with
      | stop hq hstop =>
          rw [hq]
          exact iff_of_false (not_lost_self _) (not_reachesIn_of_head hstop)
  | cons x opp ih =>
      intro q o ts h hsweep
      cases h.walk hsweep with
      | stop hq hstop =>
          rw [hq]
          exact iff_of_false (not_lost_self _) (not_reachesIn_of_head hstop)
      | discard hc hmx hcx hs _ h₁ hsweep₁ =>
          -- The front order opposite was cancelled, and nothing that rests
          -- from here on has its id.
          rw [reachesIn_cons hmx hc]
          refine iff_of_true ?_ (Or.inl hcx)
          refine ⟨x, ?_, by rw [isCanceled_of_some hmx, hcx], ?_⟩
          · rw [Queues.mem_resting_sides o.isBuy, h.opposite]
            exact Or.inr List.mem_cons_self
          · intro y hy
            obtain ⟨s, hs⟩ := Queues.mem_resting.1 hy
            obtain ⟨z, hz, hid⟩ := (sweep_shrinks hsweep₁ h₁.wf).mem hs
            rw [← ident_orderId hid]
            have hz := Queues.mem_resting.2 ⟨s, hz⟩
            rw [Queues.mem_resting_sides o.isBuy, h₁.side, h₁.opposite,
              ← h.side] at hz
            exact h.wf.ne_of_head h.opposite hz
      | filled hc hmx hcx hle hhit =>
          rw [h.lost_hits hmx hcx hhit, reachesIn_cons hmx hc]
          refine iff_of_false (not_lost_self _) ?_
          rintro (hx | ⟨hlt, _⟩)
          · rw [hcx] at hx
            cases hx
          · omega
      | fills hc hmx hcx hlt hhit _ h₁ hsweep₁ =>
          have hkept : ∀ y ∈ opp, _ = q.orders y.2.orderId := fun y hy =>
            hhit.shrinks.kept y (Queues.mem_resting.2 ⟨!o.isBuy, by
              rw [h₁.opposite]; exact hy⟩)
          rw [h.lost_hits hmx hcx hhit, reachesIn_cons hmx hc,
            ih _ _ _ h₁ hsweep₁, reachesIn_congr hkept, hcx]
          constructor
          · exact fun h => Or.inr ⟨hlt, h⟩
          · rintro (h | ⟨_, h⟩)
            · cases h
            · exact h

theorem step_lost {s : Orderbook × Nat} (hs : Inv s) (op : Op) :
    Lost (queues s.1) (queues (step s op).1.1) ↔ ReachesCanceled s.1 op := by
  obtain ⟨book, curr⟩ := s
  cases op with
  | cancel orderId =>
      refine iff_of_false ?_ not_false
      rintro ⟨x, hx, _, hno⟩
      simp only [step, queues_cancelOrder] at hno
      exact hno x hx rfl
  | add order =>
      simp only [step, ReachesCanceled]
      cases hc : book.orders.contains order.orderId with
      | true =>
          rw [addOrder_rejected hc]
          exact iff_of_false (not_lost_self _) (fun h => by cases h.1)
      | false =>
          obtain ⟨book', trades, hadd, hsweep, _, _⟩ := addOrder_spec curr hc
          have hnone := UnorderedMap.contains_eq_false.1 hc
          have hu : (queues book).Uncrossed := uncrossed_of_best hs.uncrossed
          -- The new order is not cancelled, so the insertion changes nothing.
          have hinsert : Lost (queues book) (queues book') ↔
              Lost ((queues book).insert curr order) (queues book') := by
            refine lost_congr (fun x => ?_)
            have hmem := (resting_insert_perm (queues book) curr order).mem_iff
              (a := x)
            rw [hmem, List.mem_cons, isCanceled, isCanceled,
              Queues.insert_orders, UnorderedMap.set_apply]
            constructor
            · rintro ⟨hx, hcx⟩
              obtain ⟨b, hb⟩ := Queues.mem_resting.1 hx
              rw [if_neg (hs.wf.orderId_ne hnone hb)]
              exact ⟨Or.inr hx, hcx⟩
            · rintro ⟨hx, hcx⟩
              split at hcx
              · cases hcx
              · next hne =>
                  rcases hx with rfl | hx
                  · exact absurd rfl hne
                  · exact ⟨hx, hcx⟩
          rw [hadd]
          simp only [true_and, hinsert]
          have hkept : ∀ x ∈ (queues book).side (!order.isBuy),
              ((queues book).insert curr order).orders x.2.orderId =
                book.orders x.2.orderId :=
            fun x hx => hs.wf.insert_kept hnone curr hx
          rw [← reachesIn_congr hkept]
          by_cases hcross : ∀ y ∈ ((queues book).side (!order.isBuy)).head?,
              ¬ crosses order.isBuy order.level y.1
          · obtain ⟨_, hq'⟩ :=
              hsweep.of_uncrossed (uncrossed_insert hu hcross curr)
            rw [hq']
            exact iff_of_false (not_lost_self _)
              (not_reachesIn_of_head hcross)
          · exact sweep_lost _ _ order trades (hs.atFront hnone hcross)
              hsweep

/-! ## Every run -/

/-- An id that is cancelled after a call was cancelled before it, or the call
cancels it and it has an entry. -/
theorem canceled_of_step {s : Orderbook × Nat} (hs : Inv s) {op : Op} {i : Id}
    (h : isCanceled (step s op).1.1.orders i = true) :
    isCanceled s.1.orders i = true ∨
      (op = .cancel i ∧ s.1.orders.contains i = true) := by
  obtain ⟨book, curr⟩ := s
  cases op with
  | cancel orderId =>
      simp only [step, cancelOrder_orders] at h ⊢
      obtain ⟨m, hm, hmc⟩ := isCanceled_iff.1 h
      rw [markCanceled_apply, Option.map_eq_some_iff] at hm
      obtain ⟨m₀, hm₀, rfl⟩ := hm
      split at hmc
      · next hi =>
          rw [hi] at hm₀ ⊢
          exact Or.inr ⟨rfl, UnorderedMap.contains_iff.2 ⟨m₀, hm₀⟩⟩
      · exact Or.inl (isCanceled_iff.2 ⟨m₀, hm₀, hmc⟩)
  | add order =>
      left
      simp only [step] at h
      cases hc : book.orders.contains order.orderId with
      | true => rw [addOrder_rejected hc] at h; exact h
      | false =>
          obtain ⟨book', trades, hadd, hsweep, _, _⟩ := addOrder_spec curr hc
          rw [hadd] at h
          obtain ⟨m, hm, hmc⟩ := isCanceled_iff.1 h
          have hm := (sweep_shrinks hsweep (hs.wf.insert
            (UnorderedMap.contains_eq_false.1 hc))).orders i m hm
          rw [Queues.insert_orders, UnorderedMap.set_apply] at hm
          split at hm
          · cases hm
            cases hmc
          · exact isCanceled_iff.2 ⟨m, hm, hmc⟩

/-- One call keeps the two sets equal exactly if it reaches no cancelled
order. -/
theorem step_metadataExact {s : Orderbook × Nat} (hs : Inv s)
    (hk : (queues s.1).Keyed) (h : MetadataExact s) (op : Op) :
    MetadataExact (step s op).1 ↔ ¬ ReachesCanceled s.1 op := by
  rw [metadataExact_iff_canceled (step_inv hs op) (step_keyed hs hk op),
    ← step_lost hs op]
  constructor
  · rintro hall ⟨x, _, hc, hno⟩
    obtain ⟨y, hy, hi⟩ :=
      isStored_iff.1 (hall x.2.orderId (step_canceled hs op hc).1)
    exact hno y hy hi
  · intro hlost i hc
    have hst : IsStored i s.1 := by
      rcases canceled_of_step hs hc with hc | ⟨_, hin⟩
      · exact (metadataExact_iff_canceled hs hk).1 h i hc
      · exact (h.1 i).1 hin
    rcases canceled_of_step hs hc with hc | ⟨rfl, _⟩
    · obtain ⟨x, hx, rfl⟩ := isStored_iff.1 hst
      by_contra hno
      exact hlost ⟨x, hx, hc, fun y hy hi => hno (isStored_iff.2 ⟨y, hy, hi⟩)⟩
    · rw [isStored_iff] at hst ⊢
      simp only [step, queues_cancelOrder]
      exact hst

theorem metadataExact_init (curr : Nat) : MetadataExact (init curr) := by
  refine (metadataExact_iff_canceled (inv_init curr) ?_).2 ?_
  · intro i m hm; cases hm
  · intro i hc; cases hc

/-- A run keeps the keys of `orders_` and the stored ids equal after every
call if and only if none of its calls reaches a cancelled order. -/
theorem metadataExact_iff (curr : Nat) (ops : List Op) :
    (∀ pre, pre <+: ops → MetadataExact (runState step (init curr) pre)) ↔
      ∀ pre op, pre ++ [op] <+: ops →
        ¬ ReachesCanceled (runState step (init curr) pre).1 op := by
  refine runState_prefixes_iff (I := fun s => Inv s ∧ (queues s.1).Keyed)
    (A := fun s op => ¬ ReachesCanceled s.1 op) ?_ ?_ ⟨inv_init curr, fun i m hm => by cases hm⟩
    (metadataExact_init curr) ops
  · exact fun s op h => ⟨step_inv h.1 op, step_keyed h.1 h.2 op⟩
  · exact fun s op h hexact => step_metadataExact h.1 h.2 hexact op

/-- A bid, its cancellation, and an ask that meets it: the bid is thrown away,
its id stays in `orders_`, and no order can have it again. -/
theorem metadataExact_discarded : ¬ MetadataExact (runState step (init 0)
    [.add ⟨1, 10, true, 1⟩, .cancel 1, .add ⟨2, 10, false, 1⟩]) := by
  intro h
  exact absurd ((h.1 1).1 (by decide)) (by decide)

end LearningCpp.Orderbook
