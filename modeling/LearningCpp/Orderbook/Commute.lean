import LearningCpp.Orderbook.Lazy
import LearningCpp.Orderbook.Priority
import LearningCpp.Orderbook.TwoBooks

/-!
# Orders that do not meet can be added in either order

Two orders on different sides or at different prices that both come to rest
without a trade leave books no call can tell apart, whichever was added
first. The books are not the same: the two orders have each other's priority,
and the two `match`es may have thrown away different cancelled orders.

Neither is ever seen. Cancelled orders are left out by looking at the live
queues only. And a sweep compares priorities of a bid and an ask that cross;
since the book was uncrossed before the call, one of the two is the order that
was just added, and it is the youngest in both books. So the priorities that
were stored before the call take no part in it, and `Twins` need not mention
them.
-/

namespace LearningCpp.Orderbook

open LearningCpp.Lib

/-! ## The live queues -/

theorem live_side (q : Queues) (s : Bool) :
    q.live.side s = (q.side s).filter (fun x => live q.orders x.2) := by
  cases s <;> rfl

theorem shrinks_live (q : Queues) : Shrinks q q.live where
  side := by
    intro s
    rw [live_side]
    exact List.filter_sublist.map ident
  kept := fun _ _ => rfl
  orders := fun _ _ h => h

@[simp] theorem live_live (q : Queues) : q.live.live = q.live := by
  simp only [Queues.live, List.filter_filter, Bool.and_self]

/-- Between live orders every round is a trade. -/
theorem Sweep.eq_of_quiet {q q' : Queues} {next : Nat} (h : Sweep q [] q')
    (hq : WF q next) (hlive : q.live = q) : q' = q := by
  generalize hts : ([] : Trades) = ts at h
  cases h with
  | stop _ => rfl
  | @round p p' bid ask bids asks orders r ts q' hcross hr h =>
      obtain ⟨_, _, mb, hb, _⟩ := hq.entry true (p, bid) List.mem_cons_self
      obtain ⟨_, _, ma, ha, _⟩ := hq.entry false (p', ask) List.mem_cons_self
      have hside : ∀ s x, x ∈ (⟨(p, bid) :: bids, (p', ask) :: asks, orders⟩ :
          Queues).side s → live orders x.2 = true := by
        intro s x hx
        rw [← hlive, live_side] at hx
        exact (List.mem_filter.1 hx).2
      have hlb := hside true (p, bid) List.mem_cons_self
      have hla := hside false (p', ask) List.mem_cons_self
      rw [live_of_some hb] at hlb
      rw [live_of_some ha] at hla
      rcases matchFront_cases hb ha hr with ⟨hbc, _⟩ | ⟨_, hac, _⟩ | ⟨_, _, hr⟩
      · simp [hbc] at hlb
      · simp [hac] at hla
      · simp [hr, tradeRound] at hts

/-- Uncrossed queues are those in which no two orders cross. -/
theorem uncrossed_iff_all {q : Queues} {next : Nat} (hq : WF q next) :
    q.Uncrossed ↔ ∀ x ∈ q.bids, ∀ y ∈ q.asks, x.1 < y.1 := by
  constructor
  · intro h x hx y hy
    exact not_le.1 (h.all hq true x hx y hy)
  · intro h x hx y hy
    exact h x (List.mem_of_mem_head? hx) y (List.mem_of_mem_head? hy)

/-- Orders are only ever compared with the one that was added. -/
theorem comparesAlike_insert {q q' : Queues} {next next' : Nat}
    (hq : WF q next) (hq' : WF q' next') (hu : q.Uncrossed)
    (h : Renumbered q q') {order : Order}
    (hfree : q.orders order.orderId = none) :
    ComparesAlike (q.insert next order) (q'.insert next' order) := by
  have hfree' := h.entry_none hfree
  have hnew : priorityOf (q.insert next order).orders order.orderId = next ∧
      priorityOf (q'.insert next' order).orders order.orderId = next' :=
    ⟨priorityOf_of_some (insert_entry q next order),
      priorityOf_of_some (insert_entry q' next' order)⟩
  have hold : ∀ {s : Bool} {x : Int × Order}, x ∈ q.side s →
      priorityOf (q.insert next order).orders x.2.orderId < next ∧
      priorityOf (q'.insert next' order).orders x.2.orderId < next' := by
    intro s x hx
    have hx' : x ∈ q'.side s := by
      rw [← h.side]
      exact hx
    constructor
    · rw [priorityOf, hq.insert_kept hfree next hx]
      exact hq.priorityOf_lt hx
    · rw [priorityOf, hq'.insert_kept hfree' next' hx']
      exact hq'.priorityOf_lt hx'
  intro x hx y hy hcross
  have hx : x ∈ (q.insert next order).side true := hx
  have hy : y ∈ (q.insert next order).side false := hy
  rw [Queues.side_insert] at hx hy
  have hall := (uncrossed_iff_all hq).1 hu
  cases hb : order.isBuy with
  | true =>
      rw [hb, if_pos rfl] at hx
      rw [hb, if_neg (by decide)] at hy
      rcases (List.mem_orderedInsert _).1 hx with rfl | hx
      · obtain ⟨hlt, hlt'⟩ := hold hy
        rw [hnew.1, hnew.2]
        omega
      · exact absurd (hall x hx y hy) hcross
  | false =>
      rw [hb, if_neg (by decide)] at hx
      rw [hb, if_pos rfl] at hy
      rcases (List.mem_orderedInsert _).1 hy with rfl | hy
      · obtain ⟨hlt, hlt'⟩ := hold hx
        rw [hnew.1, hnew.2]
        omega
      · exact absurd (hall x hx y hy) hcross

/-! ## Books no call can tell apart -/

/-- Two books with the same live orders, numbered in any way. -/
structure Twins (s s' : Orderbook × Nat) : Prop where
  inv : Inv s
  inv' : Inv s'
  live : Renumbered (queues s.1).live (queues s'.1).live

theorem Inv.wf_live {s : Orderbook × Nat} (h : Inv s) :
    WF (queues s.1).live s.2 := (shrinks_live _).wf h.wf

theorem Inv.uncrossed_live {s : Orderbook × Nat} (h : Inv s) :
    (queues s.1).live.Uncrossed :=
  (uncrossed_of_best h.uncrossed).live h.wf

/-- What an accepted order does to the live queues. -/
theorem Inv.add_live {s : Orderbook × Nat} (h : Inv s) {order : Order}
    (hfree : s.1.orders order.orderId = none) :
    ∃ book trades, step s (.add order) = ((book, s.2 + 1), .ok trades) ∧
      Sweep ((queues s.1).live.insert s.2 order) trades (queues book).live := by
  obtain ⟨book₀, curr⟩ := s
  obtain ⟨book, trades, hadd, hsweep, _, _⟩ :=
    addOrder_spec curr (UnorderedMap.contains_eq_false.2 hfree)
  have hlive := sweep_live hsweep (h.wf.insert hfree)
  rw [live_insert h.wf hfree] at hlive
  exact ⟨book, trades, hadd, hlive⟩

theorem Twins.cancel {s s' : Orderbook × Nat} (h : Twins s s')
    (orderId : Id) : Renumbered (queues (s.1.cancelOrder orderId)).live
      (queues (s'.1.cancelOrder orderId)).live := by
  have hside := fun b => h.live.side b
  have hcancel := h.live.cancel orderId
  simp only [live_side] at hside
  rw [queues_cancelOrder, queues_cancelOrder]
  refine ⟨?_, ?_, hcancel.entry⟩
  · have hb := live_cancel h.inv.wf orderId true
    have hb' := live_cancel h.inv'.wf orderId true
    rw [hside true, ← hb'] at hb
    exact hb
  · have ha := live_cancel h.inv.wf orderId false
    have ha' := live_cancel h.inv'.wf orderId false
    rw [hside false, ← ha'] at ha
    exact ha

/-- A call does the same to both. -/
theorem Twins.step {s s' : Orderbook × Nat} (h : Twins s s') (op : Op) :
    Twins (step s op).1 (step s' op).1 ∧ (step s op).2 = (step s' op).2 := by
  have hinv := step_inv h.inv op
  have hinv' := step_inv h.inv' op
  cases op with
  | cancel orderId => exact ⟨⟨hinv, hinv', h.cancel orderId⟩, rfl⟩
  | add order =>
      have hcontains : s'.1.orders.contains order.orderId =
          s.1.orders.contains order.orderId := h.live.contains _
      cases hc : s.1.orders.contains order.orderId with
      | true =>
          have hstep : Orderbook.step s (.add order) = (s, .ok []) :=
            addOrder_rejected hc
          have hstep' : Orderbook.step s' (.add order) = (s', .ok []) :=
            addOrder_rejected (hcontains.trans hc)
          rw [hstep, hstep']
          exact ⟨h, rfl⟩
      | false =>
          have hfree := UnorderedMap.contains_eq_false.1 hc
          have hfree' := UnorderedMap.contains_eq_false.1 (hcontains.trans hc)
          obtain ⟨book, ts, hadd, hsweep⟩ := h.inv.add_live hfree
          obtain ⟨book', ts', hadd', hsweep'⟩ := h.inv'.add_live hfree'
          obtain ⟨hts, hend⟩ := sweep_renumbered hsweep
            (h.inv.wf_live.insert hfree) (h.inv'.wf_live.insert hfree')
            (h.live.insert _ _ order)
            (comparesAlike_insert h.inv.wf_live h.inv'.wf_live
              h.inv.uncrossed_live h.live hfree) hsweep'
          rw [hadd] at hinv ⊢
          rw [hadd'] at hinv' ⊢
          exact ⟨⟨hinv, hinv', hend⟩, by rw [hts]⟩

/-! ## Orders that come to rest without a trade -/

/-- An accepted order trades nothing if and only if it crosses no live order,
and then it is all that is new in the live queues. -/
theorem Inv.add_quiet_iff {s : Orderbook × Nat} (h : Inv s) {order : Order}
    (hfree : s.1.orders order.orderId = none) :
    (step s (.add order)).2 = .ok [] ↔
      ((queues s.1).live.insert s.2 order).Uncrossed := by
  have hinv := step_inv h (.add order)
  obtain ⟨book, ts, hadd, hsweep⟩ := h.add_live hfree
  have hwf := h.wf_live.insert hfree
  rw [hadd] at hinv ⊢
  constructor
  · intro hts
    rw [Except.ok.inj hts] at hsweep
    have hlive : ((queues s.1).live.insert s.2 order).live =
        (queues s.1).live.insert s.2 order := by
      rw [live_insert h.wf_live hfree, live_live]
    rw [← hsweep.eq_of_quiet hwf hlive]
    exact hinv.uncrossed_live
  · intro hu
    rw [(hsweep.of_uncrossed hu).1]

theorem Inv.add_quiet {s : Orderbook × Nat} (h : Inv s) {order : Order}
    (hfree : s.1.orders order.orderId = none)
    (hu : ((queues s.1).live.insert s.2 order).Uncrossed) :
    (queues (step s (.add order)).1.1).live =
        (queues s.1).live.insert s.2 order ∧
      (step s (.add order)).1.2 = s.2 + 1 := by
  obtain ⟨book, ts, hadd, hsweep⟩ := h.add_live hfree
  rw [hadd]
  exact ⟨(hsweep.of_uncrossed hu).2, rfl⟩

/-- Neither order would rest behind the other. -/
def Apart (a b : Order) : Prop := a.isBuy ≠ b.isBuy ∨ a.level ≠ b.level

theorem orderedInsert_better_comm {s : Bool} {x y : Int × Order}
    (hxy : better s x.1 y.1) (l : Queue) :
    (l.orderedInsert (fun x y => better s x.1 y.1) x).orderedInsert
        (fun x y => better s x.1 y.1) y =
      (l.orderedInsert (fun x y => better s x.1 y.1) y).orderedInsert
        (fun x y => better s x.1 y.1) x := by
  have hyx : ¬ better s y.1 x.1 := by
    intro hyx
    exact better_irrefl (better_trans hxy hyx)
  exact orderedInsert_comm (s := fun x y : Int × Order => better s x.1 y.1)
    hxy hyx (fun z hyz => better_trans hxy hyz) l

theorem side_insert_comm (q : Queues) {a b : Order} (hapart : Apart a b)
    (m n m' n' : Nat) (s : Bool) :
    ((q.insert m a).insert n b).side s =
      ((q.insert m' b).insert n' a).side s := by
  rw [Queues.side_insert, Queues.side_insert, Queues.side_insert,
    Queues.side_insert]
  by_cases ha : a.isBuy = s
  · by_cases hb : b.isBuy = s
    · have hlevel : a.level ≠ b.level := by
        rcases hapart with hside | hlevel
        · exact absurd (ha.trans hb.symm) hside
        · exact hlevel
      simp only [if_pos ha, if_pos hb]
      by_cases hab : better s a.level b.level
      · exact orderedInsert_better_comm hab _
      · rcases better_connex hab with heq | hba
        · exact absurd heq.symm hlevel
        · exact (orderedInsert_better_comm hba _).symm
    · simp only [if_pos ha, if_neg hb]
  · simp only [if_neg ha]

/-- The two ways of inserting differ in the priorities only. -/
theorem renumbered_insert_comm (q : Queues) {a b : Order}
    (hne : a.orderId ≠ b.orderId) (hapart : Apart a b) (m n : Nat) :
    Renumbered ((q.insert m a).insert n b) ((q.insert m b).insert n a) where
  bids := side_insert_comm q hapart m n m n true
  asks := side_insert_comm q hapart m n m n false
  entry := by
    intro i
    simp only [Queues.insert_orders, UnorderedMap.set_apply]
    by_cases ha : i = a.orderId
    · rw [if_neg (by rw [ha]; exact hne), if_pos ha, if_pos ha]
      rfl
    · by_cases hb : i = b.orderId
      · rw [if_pos hb, if_neg ha, if_pos hb]
        rfl
      · rw [if_neg hb, if_neg ha, if_neg ha, if_neg hb]

theorem mem_side_insert {q : Queues} {priority : Nat} {order : Order}
    {s : Bool} {x : Int × Order} (hx : x ∈ q.side s) :
    x ∈ (q.insert priority order).side s := by
  rw [Queues.side_insert]
  split
  · exact (List.mem_orderedInsert _).2 (Or.inr hx)
  · exact hx

/-- If the first order added and then the second trade nothing, the second and
then the first do not either, and the books are twins. -/
theorem Inv.adds_commute {s : Orderbook × Nat} (h : Inv s) {a b : Order}
    (hne : a.orderId ≠ b.orderId) (ha : s.1.orders a.orderId = none)
    (hb : s.1.orders b.orderId = none) (hapart : Apart a b)
    (hquiet : runOut step s [.add a, .add b] = [.ok [], .ok []]) :
    runOut step s [.add b, .add a] = [.ok [], .ok []] ∧
      Twins (runState step s [.add a, .add b])
        (runState step s [.add b, .add a]) := by
  simp only [runOut_cons, runOut_nil, List.cons.injEq, and_true] at hquiet ⊢
  simp only [runState_cons, runState_nil]
  -- The second id is still free after the first order.
  have hfree : ∀ {o o' : Order} {t : Orderbook × Nat},
      o.orderId ≠ o'.orderId → s.1.orders o'.orderId = none →
      (queues t.1).live = (queues s.1).live.insert s.2 o →
      t.1.orders o'.orderId = none := by
    intro o o' t hoo hnone ht
    have horders : t.1.orders =
        ((queues s.1).live.insert s.2 o).orders := congrArg Queues.orders ht
    rw [horders, Queues.insert_orders, UnorderedMap.set_apply,
      if_neg (Ne.symm hoo)]
    exact hnone
  have hinv := step_inv h (.add a)
  have hua := (h.add_quiet_iff ha).1 hquiet.1
  obtain ⟨hlive, hnext⟩ := h.add_quiet ha hua
  have hb₁ := hfree hne hb hlive
  have huab := (hinv.add_quiet_iff hb₁).1 hquiet.2
  obtain ⟨hlive₂, hnext₂⟩ := hinv.add_quiet hb₁ huab
  have hwf := hinv.wf_live.insert hb₁
  rw [hlive, hnext] at huab hlive₂ hwf
  -- What is uncrossed with both orders in it is so with one of them.
  have hall := (uncrossed_iff_all hwf).1 huab
  have hren := renumbered_insert_comm (queues s.1).live hne hapart s.2
    (s.2 + 1)
  have hub : ((queues s.1).live.insert s.2 b).Uncrossed := by
    intro x hx y hy
    refine hall x ?_ y ?_
    · rw [hren.bids]
      exact mem_side_insert (s := true) (List.mem_of_mem_head? hx)
    · rw [hren.asks]
      exact mem_side_insert (s := false) (List.mem_of_mem_head? hy)
  obtain ⟨hlive', hnext'⟩ := h.add_quiet hb hub
  have hinv' := step_inv h (.add b)
  have ha₁ := hfree hne.symm ha hlive'
  have huba : ((queues (step s (.add b)).1.1).live.insert
      (step s (.add b)).1.2 a).Uncrossed := by
    rw [hlive', hnext']
    intro x hx y hy
    rw [← hren.bids] at hx
    rw [← hren.asks] at hy
    exact huab x hx y hy
  obtain ⟨hlive₂', _⟩ := hinv'.add_quiet ha₁ huba
  refine ⟨⟨(h.add_quiet_iff hb).2 hub, (hinv'.add_quiet_iff ha₁).2 huba⟩,
    step_inv hinv (.add b), step_inv hinv' (.add a), ?_⟩
  rw [hlive₂, hlive₂', hlive', hnext']
  exact hren

/-- Two orders that come to rest without a trade, on different sides or at
different prices, do so in either order, and the two books answer every
further run of calls alike. -/
theorem independent_adds_commute (curr : Nat) (ops : List Op) {a b : Order}
    (hne : a.orderId ≠ b.orderId)
    (ha : (runState step (init curr) ops).1.orders.contains a.orderId = false)
    (hb : (runState step (init curr) ops).1.orders.contains b.orderId = false)
    (hapart : a.isBuy ≠ b.isBuy ∨ a.level ≠ b.level)
    (hquiet : runOut step (runState step (init curr) ops)
      [.add a, .add b] = [.ok [], .ok []]) :
    runOut step (runState step (init curr) ops) [.add b, .add a] =
        [.ok [], .ok []] ∧
      ∀ more,
        runOut step (runState step (runState step (init curr) ops)
          [.add a, .add b]) more =
        runOut step (runState step (runState step (init curr) ops)
          [.add b, .add a]) more := by
  obtain ⟨hquiet', htwins⟩ := (reachable_inv curr ops).adds_commute hne
    (UnorderedMap.contains_eq_false.1 ha)
    (UnorderedMap.contains_eq_false.1 hb) hapart hquiet
  exact ⟨hquiet', fun more =>
    (run_simulation (fun _ _ op h => h.step op) htwins more).2⟩

/-- A bid at 10 and an ask at 12, over a cancelled ask at 11. -/
theorem independent_adds_commute_two :
    runOut step (runState step (runState step (init 0)
        [.add ⟨1, 11, false, 4⟩, .cancel 1])
        [.add ⟨2, 10, true, 3⟩, .add ⟨3, 12, false, 5⟩])
        [.add ⟨4, 12, true, 5⟩, .add ⟨5, 9, false, 3⟩] =
      runOut step (runState step (runState step (init 0)
        [.add ⟨1, 11, false, 4⟩, .cancel 1])
        [.add ⟨3, 12, false, 5⟩, .add ⟨2, 10, true, 3⟩])
        [.add ⟨4, 12, true, 5⟩, .add ⟨5, 9, false, 3⟩] :=
  (independent_adds_commute 0 [.add ⟨1, 11, false, 4⟩, .cancel 1]
    (by decide) (by decide) (by decide) (Or.inl (by decide))
    (by decide)).2 _

end LearningCpp.Orderbook
