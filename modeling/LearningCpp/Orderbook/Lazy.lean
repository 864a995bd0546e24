import LearningCpp.Orderbook.Reachable

/-!
# Lazy cancellation cannot be observed

`CancelOrder` leaves the order in its deque. The eager book takes it out at
once, with its level when that leaves the level empty, and keeps the id
reserved like the lazy one. The two return the same trades from every call,
and the lazy book without its cancelled orders is the eager book.

Over the queues the argument is a simulation. A round that discards a
cancelled order is no round of the eager book, since the order is not there;
any other round is between two orders that head the eager queues too. And
when the lazy sweep stops so does the eager one: leaving orders out of a
sorted queue never makes its front better.
-/

namespace LearningCpp.Orderbook

open LearningCpp.Lib

/-- The book without its cancelled orders and the levels they leave empty. -/
def restrict (book : Orderbook) : Orderbook where
  bids := book.bids.filterQueues (live book.orders)
  asks := book.asks.filterQueues (live book.orders)
  orders := book.orders

/-- `CancelOrder` of the eager book: the flag is set, so the id stays
reserved, and the order leaves its deque now. -/
def eagerCancel (book : Orderbook) (orderId : Id) : Orderbook :=
  if !book.orders.contains orderId then book
  else
    let book := book.cancelOrder orderId
    { book with
      bids := book.bids.filterQueues (fun o => o.orderId ≠ orderId)
      asks := book.asks.filterQueues (fun o => o.orderId ≠ orderId) }

/-- A call to the eager book. -/
def eagerStep (s : Orderbook × Nat) :
    Op → (Orderbook × Nat) × Except Fault Trades
  | .add order => s.1.addOrder s.2 order
  | .cancel orderId => ((eagerCancel s.1 orderId, s.2), .ok [])

/-! ## The queues without the cancelled orders -/

def Queues.live (q : Queues) : Queues where
  bids := q.bids.filter (fun x => Orderbook.live q.orders x.2)
  asks := q.asks.filter (fun x => Orderbook.live q.orders x.2)
  orders := q.orders

theorem queues_restrict (book : Orderbook) :
    queues (restrict book) = (queues book).live := by
  simp only [queues, restrict, Queues.live, SortedMap.flat_filterQueues]

theorem noEmptyLevel_restrict (book : Orderbook) :
    NoEmptyLevel (restrict book) :=
  ⟨SortedMap.noEmpty_filterQueues _ _, SortedMap.noEmpty_filterQueues _ _⟩

/-- Without empty levels a book is its queues. -/
theorem eq_of_queues {book book' : Orderbook} (h : NoEmptyLevel book)
    (h' : NoEmptyLevel book') (hq : queues book = queues book') :
    book = book' := by
  obtain ⟨bids, asks, orders⟩ := book
  obtain ⟨bids', asks', orders'⟩ := book'
  simp only [queues, Queues.mk.injEq] at hq
  rw [Orderbook.mk.injEq]
  exact ⟨SortedMap.flat_injective h.1 h'.1 hq.1,
    SortedMap.flat_injective h.2 h'.2 hq.2.1, hq.2.2⟩

theorem Queues.Uncrossed.live {q : Queues} {next : Nat} (hq : WF q next)
    (h : q.Uncrossed) : q.live.Uncrossed := by
  intro x hx y hy
  have hxm := List.mem_of_mem_filter (List.mem_of_mem_head? hx)
  have hym := List.mem_of_mem_filter (List.mem_of_mem_head? hy)
  obtain ⟨bids, asks, orders⟩ := q
  match bids, asks with
  | [], _ => cases hxm
  | _, [] => cases hym
  | b :: bids, a :: asks =>
      have hlt : b.1 < a.1 := h b rfl a rfl
      have hxb : x.1 = b.1 ∨ b.1 > x.1 := by
        rcases List.mem_cons.1 hxm with rfl | hmem
        · exact Or.inl rfl
        · rcases (List.pairwise_cons.1 (hq.price true)).1 x hmem with h | h
          · exact Or.inl h.symm
          · exact Or.inr h
      have hya : y.1 = a.1 ∨ a.1 < y.1 := by
        rcases List.mem_cons.1 hym with rfl | hmem
        · exact Or.inl rfl
        · rcases (List.pairwise_cons.1 (hq.price false)).1 y hmem with h | h
          · exact Or.inl h.symm
          · exact Or.inr h
      omega

theorem Sweep.unique {q q' q'' : Queues} {ts us : Trades}
    (h : Sweep q ts q') (h' : Sweep q us q'') : ts = us ∧ q' = q'' := by
  induction h generalizing us with
  | stop hstop =>
      cases h' with
      | stop _ => exact ⟨rfl, rfl⟩
      | round hcross _ _ => exact absurd (hstop _ rfl _ rfl) hcross
  | round hcross hr _ ih =>
      cases h' with
      | stop hstop => exact absurd (hstop _ rfl _ rfl) hcross
      | round _ hr' h' =>
          rw [hr] at hr'
          cases hr'
          obtain ⟨hts, hq⟩ := ih h'
          exact ⟨by rw [hts], hq⟩

theorem atPrice_leftover_live {p : Int} {o : Order} {size : Int}
    {orders : Metadata} (h : live orders o = true) :
    (atPrice p (leftover o size)).filter
      (fun x => Orderbook.live orders x.2) = atPrice p (leftover o size) := by
  refine List.filter_eq_self.2 ?_
  intro x hx
  rw [(mem_atPrice_leftover hx).2]
  exact h

/-- A sweep is a sweep of the live orders alone. -/
theorem sweep_live {q q' : Queues} {trades : Trades} {next : Nat}
    (h : Sweep q trades q') (hq : WF q next) : Sweep q.live trades q'.live := by
  induction h with
  | stop hstop => exact .stop (hstop.live hq)
  | @round p p' bid ask bids asks orders r trades q' hcross hr _ ih =>
      have hshrink := round_shrinks hq hr
      have ih := ih (hshrink.wf hq)
      obtain ⟨_, _, mb, hb, _⟩ := hq.entry true (p, bid) List.mem_cons_self
      obtain ⟨_, _, ma, ha, _⟩ := hq.entry false (p', ask) List.mem_cons_self
      have hlb := live_of_some hb
      have hla := live_of_some ha
      rcases matchFront_cases hb ha hr with
        ⟨hbc, rfl⟩ | ⟨hbc, hac, rfl⟩ | ⟨hbc, hac, hreq⟩
      · -- The cancelled bid is not among the live orders.
        have heq : (⟨(p, bid) :: bids, (p', ask) :: asks, orders⟩ :
            Queues).live = (⟨bids, (p', ask) :: asks, orders⟩ : Queues).live := by
          simp [Queues.live, hlb, hbc]
        rw [heq]
        exact ih
      · have heq : (⟨(p, bid) :: bids, (p', ask) :: asks, orders⟩ :
            Queues).live = (⟨(p, bid) :: bids, asks, orders⟩ : Queues).live := by
          simp [Queues.live, hla, hac]
        rw [heq]
        exact ih
      · rw [hbc] at hlb
        rw [hac] at hla
        have hleft : ∀ {p : Int} {o : Order} {n : Int},
            live orders o = !false →
            (atPrice p (leftover o n)).filter
              (fun x => Orderbook.live orders x.2) = atPrice p (leftover o n) :=
          fun h => atPrice_leftover_live h
        have hfb : (atPrice p r.bid ++ bids).filter
            (fun x => Orderbook.live r.orders x.2) =
            (atPrice p r.bid ++ bids).filter
              (fun x => Orderbook.live orders x.2) :=
          hshrink.filter_live (s := true) (fun _ h => h)
        have hfa : (atPrice p' r.ask ++ asks).filter
            (fun x => Orderbook.live r.orders x.2) =
            (atPrice p' r.ask ++ asks).filter
              (fun x => Orderbook.live orders x.2) :=
          hshrink.filter_live (s := false) (fun _ h => h)
        have hlive := ih
        simp only [Queues.live] at hlive
        rw [hfb, hfa, List.filter_append, List.filter_append] at hlive
        simp only [hreq, tradeRound, hleft hlb, hleft hla] at hlive
        simp only [Queues.live, List.filter_cons, hlb, hla, Bool.not_false,
          if_true]
        rw [hreq] at hr ⊢
        exact .round hcross hr hlive

/-! ## The calls commute with leaving cancelled orders out -/

theorem live_insert {q : Queues} {next : Nat} (hq : WF q next)
    {order : Order} (hfree : q.orders order.orderId = none) (priority : Nat) :
    (q.insert priority order).live = q.live.insert priority order := by
  have hnew : live (q.insert priority order).orders order = true := by
    rw [live, insert_entry]
    rfl
  have hold : ∀ s, (q.side s).filter
      (fun x => Orderbook.live (q.insert priority order).orders x.2) =
      (q.side s).filter (fun x => Orderbook.live q.orders x.2) := by
    intro s
    exact List.filter_congr
      (fun x hx => live_congr (hq.insert_kept hfree priority hx))
  have hbids := hold true
  have hasks := hold false
  simp only [Queues.side, Queues.insert_orders] at hbids hasks hnew
  simp only [Queues.live, Queues.insert]
  cases order.isBuy with
  | true =>
      simp only [if_true]
      rw [filter_orderedInsert (a := (order.level, order)) hnew
          (hq.insert_up true (order.level, order)),
        hbids, hasks]
  | false =>
      simp only [Bool.false_eq_true, if_false]
      rw [filter_orderedInsert (a := (order.level, order)) hnew
          (hq.insert_up false (order.level, order)),
        hbids, hasks]

theorem live_markCanceled {orders : Metadata} {orderId : Id} {o : Order}
    {m : OrderMetadata} (h : orders o.orderId = some m) :
    live (markCanceled orders orderId) o =
      (live orders o && decide (o.orderId ≠ orderId)) := by
  rw [live_of_some h, live, markCanceled_apply, h]
  by_cases hi : o.orderId = orderId <;> simp [hi]

/-- A cancelled order is not among the live ones any more. -/
theorem live_cancel {q : Queues} {next : Nat} (hq : WF q next)
    (orderId : Id) (s : Bool) :
    (q.side s).filter
        (fun x => Orderbook.live (markCanceled q.orders orderId) x.2) =
      ((q.side s).filter (fun x => Orderbook.live q.orders x.2)).filter
        (fun x => decide (x.2.orderId ≠ orderId)) := by
  rw [List.filter_filter]
  refine List.filter_congr (fun x hx => ?_)
  obtain ⟨_, _, m, hm, _⟩ := hq.entry s x hx
  exact (live_markCanceled hm).trans (Bool.and_comm _ _)

theorem eagerCancel_restrict {book : Orderbook} {next : Nat}
    (hq : WF (queues book) next) (orderId : Id) :
    eagerCancel (restrict book) orderId =
      restrict (book.cancelOrder orderId) := by
  cases hc : book.orders.contains orderId with
  | false =>
      have hc' : (restrict book).orders.contains orderId = false := hc
      have hsame : book.cancelOrder orderId = book := by
        rw [cancelOrder, hc]
        rfl
      rw [hsame, eagerCancel, hc']
      rfl
  | true =>
      have hc' : (restrict book).orders.contains orderId = true := hc
      have hcancel := queues_cancelOrder (restrict book) orderId
      rw [queues_restrict] at hcancel
      refine eq_of_queues ?_ (noEmptyLevel_restrict _) ?_
      · rw [eagerCancel, hc']
        exact ⟨SortedMap.noEmpty_filterQueues _ _,
          SortedMap.noEmpty_filterQueues _ _⟩
      · have hside := live_cancel hq orderId
        rw [eagerCancel, hc', queues_restrict, queues_cancelOrder]
        simp only [Bool.not_true, Bool.false_eq_true, if_false]
        simp only [queues, Queues.live, Queues.cancel,
          SortedMap.flat_filterQueues, Queues.mk.injEq, cancelOrder_bids,
          cancelOrder_asks] at hcancel ⊢
        simp only [restrict, SortedMap.flat_filterQueues]
        exact ⟨(hside true).symm, (hside false).symm, hcancel.2.2⟩

/-- What ties the lazy run to the eager one. -/
def LazyEager (s t : Orderbook × Nat) : Prop :=
  Inv s ∧ t = (restrict s.1, s.2)

theorem lazyEager_step {s t : Orderbook × Nat} (op : Op)
    (h : LazyEager s t) :
    LazyEager (step s op).1 (eagerStep t op).1 ∧
      (step s op).2 = (eagerStep t op).2 := by
  obtain ⟨hs, rfl⟩ := h
  have hinv := step_inv hs op
  obtain ⟨book, curr⟩ := s
  cases op with
  | cancel orderId =>
      refine ⟨⟨hinv, ?_⟩, rfl⟩
      simp only [step, eagerStep]
      rw [eagerCancel_restrict hs.wf]
  | add order =>
      simp only [step] at hinv
      simp only [step, eagerStep]
      cases hc : book.orders.contains order.orderId with
      | true =>
          rw [addOrder_rejected hc,
            addOrder_rejected (show (restrict book).orders.contains
              order.orderId = true from hc)]
          exact ⟨⟨hs, rfl⟩, rfl⟩
      | false =>
          obtain ⟨book', trades, hadd, hsweep, _, _⟩ := addOrder_spec curr hc
          have hc' : (restrict book).orders.contains order.orderId = false :=
            hc
          obtain ⟨eager', trades', hadd', hsweep', _, hne'⟩ :=
            addOrder_spec curr hc'
          have hfree := UnorderedMap.contains_eq_false.1 hc
          have hlive := sweep_live hsweep (hs.wf.insert hfree)
          rw [live_insert hs.wf hfree, ← queues_restrict,
            ← queues_restrict] at hlive
          obtain ⟨htrades, hq⟩ := hlive.unique hsweep'
          have heq : restrict book' = eager' :=
            eq_of_queues (noEmptyLevel_restrict _)
              (hne' (noEmptyLevel_restrict _)) hq
          rw [hadd] at hinv ⊢
          rw [hadd', htrades]
          refine ⟨⟨hinv, ?_⟩, rfl⟩
          show (eager', curr + 1) = (restrict book', curr + 1)
          rw [heq]

/-- Every call of a lazy run returns, with the trades the eager run returns,
and after it the lazy book without its cancelled orders is the eager one. -/
theorem run_lazy_eager (curr : Nat) (ops : List Op) :
    (∀ answer ∈ runOut step (init curr) ops, ∃ trades, answer = .ok trades) ∧
      runOut step (init curr) ops = runOut eagerStep (init curr) ops ∧
      restrict (runState step (init curr) ops).1 =
        (runState eagerStep (init curr) ops).1 := by
  have hinit : LazyEager (init curr) (init curr) := ⟨inv_init curr, rfl⟩
  obtain ⟨⟨_, hstate⟩, hout⟩ :=
    run_simulation (fun _ _ op h => lazyEager_step op h) hinit ops
  exact ⟨runOut_invariant (P := fun _ => True)
    (fun s op _ => ⟨trivial, step_returns s op⟩) trivial ops, hout,
    by rw [hstate]⟩

end LearningCpp.Orderbook
