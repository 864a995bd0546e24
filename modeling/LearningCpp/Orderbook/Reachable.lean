import LearningCpp.Orderbook.WellFormed

/-!
# One call, and every run

The two calls over the queues: `AddOrder` of an id that is free inserts the
order behind the orders of its price and sweeps, `CancelOrder` sets a flag.
`addOrder_spec` and `queues_cancelOrder` tie the code to these, and every
result about the book starts from them rather than from the loops.

`reachable_inv` is the invariant of a run, and `wellFormed` what it says about
the deques and maps themselves.
-/

namespace LearningCpp.Orderbook

open LearningCpp.Lib

instance (s : Bool) (p p' : Int) : Decidable (better s p p') :=
  match s with
  | true => inferInstanceAs (Decidable (p > p'))
  | false => inferInstanceAs (Decidable (p < p'))

theorem better_trans {s : Bool} {p p' p'' : Int} (h : better s p p')
    (h' : better s p' p'') : better s p p'' := by
  cases s <;> simp only [better] at h h' ⊢ <;> omega

theorem better_irrefl {s : Bool} {p : Int} : ¬ better s p p := by
  cases s <;> simp only [better] <;> omega

theorem better_connex {s : Bool} {p p' : Int} (h : ¬ better s p p') :
    p' = p ∨ better s p' p := by
  cases s <;> simp only [better] at h ⊢ <;> omega

/-- The accepted order at its place in its side, with its metadata. -/
def Queues.insert (q : Queues) (priority : Nat) (order : Order) :
    Queues where
  bids :=
    if order.isBuy then
      q.bids.orderedInsert (fun x y => better true x.1 y.1) (order.level, order)
    else q.bids
  asks :=
    if order.isBuy then q.asks
    else q.asks.orderedInsert (fun x y => better false x.1 y.1)
      (order.level, order)
  orders := q.orders.set order.orderId ⟨order.level, priority, false⟩

/-- The id's flag set, if it has one. -/
def markCanceled (orders : Metadata) (orderId : Id) : Metadata :=
  match orders orderId with
  | none => orders
  | some m => orders.set orderId { m with canceled := true }

def Queues.cancel (q : Queues) (orderId : Id) : Queues :=
  { q with orders := markCanceled q.orders orderId }

@[simp] theorem Queues.insert_orders (q : Queues) (priority : Nat)
    (order : Order) : (q.insert priority order).orders =
      q.orders.set order.orderId ⟨order.level, priority, false⟩ := rfl

@[simp] theorem Queues.cancel_orders (q : Queues) (orderId : Id) :
    (q.cancel orderId).orders = markCanceled q.orders orderId := rfl

theorem Queues.side_insert (q : Queues) (priority : Nat) (order : Order)
    (s : Bool) : (q.insert priority order).side s =
      if order.isBuy = s then
        (q.side s).orderedInsert (fun x y => better s x.1 y.1)
          (order.level, order)
      else q.side s := by
  cases s <;> cases hb : order.isBuy <;> simp [insert, side, hb]

/-! ## The code's calls are these -/

theorem queues_insertOrder {book : Orderbook} {priority : Nat} {order : Order}
    (h : book.orders.contains order.orderId = false) :
    queues (book.insertOrder priority order) =
      (queues book).insert priority order := by
  cases hb : order.isBuy with
  | true =>
      simp only [queues, insertOrder, Queues.insert, hb, if_true,
        UnorderedMap.insert_of_not_contains h, SortedMap.flat_pushBack]
      rfl
  | false =>
      simp only [queues, insertOrder, Queues.insert, hb, Bool.false_eq_true,
        if_false, UnorderedMap.insert_of_not_contains h,
        SortedMap.flat_pushBack]
      rfl

theorem queues_cancelOrder (book : Orderbook) (orderId : Id) :
    queues (book.cancelOrder orderId) = (queues book).cancel orderId := by
  simp only [queues, cancelOrder, Queues.cancel, markCanceled]
  cases ho : book.orders orderId with
  | none =>
      rw [UnorderedMap.contains_eq_false.2 ho]
      rfl
  | some m =>
      rw [UnorderedMap.contains_iff.2 ⟨m, ho⟩]
      simp only [UnorderedMap.subscript_of_some ho]
      rfl

theorem cancelOrder_orders (book : Orderbook) (orderId : Id) :
    (book.cancelOrder orderId).orders = markCanceled book.orders orderId :=
  congrArg Queues.orders (queues_cancelOrder book orderId)

theorem noEmptyLevel_insertOrder {book : Orderbook} (h : NoEmptyLevel book)
    (priority : Nat) (order : Order) :
    NoEmptyLevel (book.insertOrder priority order) := by
  unfold NoEmptyLevel insertOrder
  cases order.isBuy with
  | true => exact ⟨SortedMap.noEmpty_pushBack h.1 _ _, h.2⟩
  | false => exact ⟨h.1, SortedMap.noEmpty_pushBack h.2 _ _⟩

theorem addOrder_rejected {book : Orderbook} {curr : Nat} {order : Order}
    (h : book.orders.contains order.orderId = true) :
    book.addOrder curr order = ((book, curr), .ok []) := by
  rw [addOrder, if_pos h]

/-- An accepted order sweeps the queues it was inserted in. -/
theorem addOrder_spec {book : Orderbook} (curr : Nat) {order : Order}
    (h : book.orders.contains order.orderId = false) :
    ∃ book' trades, book.addOrder curr order =
        ((book', curr + 1), .ok trades) ∧
      Sweep ((queues book).insert curr order) trades (queues book') ∧
      BestUncrossed book' ∧ (NoEmptyLevel book → NoEmptyLevel book') := by
  obtain ⟨book', trades, hm, hsweep, hbest, hne⟩ :=
    matchOrders_sweep (book.insertOrder curr order)
  rw [queues_insertOrder h] at hsweep
  refine ⟨book', trades, ?_, hsweep, hbest,
    fun hn => hne (noEmptyLevel_insertOrder hn _ _)⟩
  simp only [addOrder, h, Bool.false_eq_true, if_false, hm]

/-- No call throws, whatever the book. -/
theorem step_returns (s : Orderbook × Nat) (op : Op) :
    ∃ trades, (step s op).2 = .ok trades := by
  obtain ⟨book, curr⟩ := s
  cases op with
  | cancel orderId => exact ⟨[], rfl⟩
  | add order =>
      rw [step]
      cases hc : book.orders.contains order.orderId with
      | true => exact ⟨[], by rw [addOrder_rejected hc]⟩
      | false =>
          obtain ⟨book', trades, hadd, _⟩ := addOrder_spec curr hc
          exact ⟨trades, by rw [hadd]⟩

/-! ## The calls keep the invariant -/

theorem WF.insert_up {q : Queues} {next : Nat} (hq : WF q next) (s : Bool)
    (a : Int × Order) : (q.side s).Pairwise
      (fun x y => better s a.1 x.1 → better s a.1 y.1) := by
  refine (hq.price s).imp ?_
  intro x y hxy hax
  rcases hxy with heq | hlt
  · rw [← heq]; exact hax
  · exact better_trans hax hlt

theorem priorityOf_set (orders : Metadata) (i j : Id) (m : OrderMetadata) :
    priorityOf (orders.set i m) j =
      if j = i then m.priority else priorityOf orders j := by
  simp only [priorityOf, UnorderedMap.set_apply]
  split <;> rfl

theorem WF.priorityOf_lt {q : Queues} {next : Nat} (hq : WF q next)
    {s : Bool} {x : Int × Order} (hx : x ∈ q.side s) :
    priorityOf q.orders x.2.orderId < next := by
  obtain ⟨_, _, m, hm, _⟩ := hq.entry s x hx
  rw [priorityOf, hm]
  exact hq.counter _ m hm

theorem WF.orderId_ne {q : Queues} {next : Nat} (hq : WF q next) {i : Id}
    (hi : q.orders i = none) {s : Bool} {x : Int × Order}
    (hx : x ∈ q.side s) : x.2.orderId ≠ i := by
  intro heq
  obtain ⟨_, _, m, hm, _⟩ := hq.entry s x hx
  rw [heq, hi] at hm
  cases hm

theorem insert_entry (q : Queues) (priority : Nat) (order : Order) :
    (q.insert priority order).orders order.orderId =
      some ⟨order.level, priority, false⟩ := by
  rw [Queues.insert_orders, UnorderedMap.set_apply, if_pos rfl]

/-- The insertion of a new id leaves the metadata of the others alone. -/
theorem WF.insert_kept {q : Queues} {next : Nat} (hq : WF q next)
    {order : Order} (hfree : q.orders order.orderId = none) (priority : Nat)
    {s : Bool} {x : Int × Order} (hx : x ∈ q.side s) :
    (q.insert priority order).orders x.2.orderId =
      q.orders x.2.orderId := by
  rw [Queues.insert_orders, UnorderedMap.set_apply,
    if_neg (hq.orderId_ne hfree hx)]

theorem resting_insert_perm (q : Queues) (priority : Nat) (order : Order) :
    (q.insert priority order).resting.Perm
      ((order.level, order) :: q.resting) := by
  simp only [Queues.resting, Queues.insert]
  cases order.isBuy with
  | true =>
      exact (List.perm_orderedInsert _ _ _).append_right _
  | false =>
      exact ((List.perm_orderedInsert _ _ _).append_left _).trans
        List.perm_middle

theorem WF.insert {q : Queues} {next : Nat} {order : Order} (hq : WF q next)
    (hfree : q.orders order.orderId = none) :
    WF (q.insert next order) (next + 1) where
  entry := by
    intro s x hx
    rw [Queues.side_insert] at hx
    have hold : x ∈ q.side s → _ := fun hmem =>
      have ⟨hl, hs, m, hm, hml⟩ := hq.entry s x hmem
      (⟨hl, hs, m, by rw [hq.insert_kept hfree next hmem]; exact hm,
        hml⟩ : x.2.level = x.1 ∧ x.2.isBuy = s ∧
          ∃ m, (q.insert next order).orders x.2.orderId = some m ∧
            m.level = x.1)
    split at hx
    · next hs =>
        rcases (List.mem_orderedInsert _).1 hx with rfl | hmem
        · exact ⟨rfl, hs, ⟨order.level, next, false⟩, insert_entry q next _,
            rfl⟩
        · exact hold hmem
    · exact hold hx
  ids := by
    have hperm := (resting_insert_perm q next order).map
      (fun x : Int × Order => x.2.orderId)
    refine hperm.nodup_iff.2 (List.nodup_cons.2 ⟨?_, hq.ids⟩)
    intro hmem
    obtain ⟨x, hx, heq⟩ := List.mem_map.1 hmem
    obtain ⟨s, hs⟩ := Queues.mem_resting.1 hx
    exact hq.orderId_ne hfree hs heq
  price := by
    intro s
    rw [Queues.side_insert]
    split
    · refine pairwise_orderedInsert (hq.price s) (hq.insert_up s _) ?_ ?_
      · intro b _ hb
        exact better_connex hb
      · intro b _ hb
        exact Or.inr hb
    · exact hq.price s
  time := by
    intro s
    have hold : (q.side s).Pairwise (fun x y => x.1 = y.1 →
        priorityOf (q.insert next order).orders x.2.orderId <
          priorityOf (q.insert next order).orders y.2.orderId) := by
      refine (hq.time s).imp_of_mem ?_
      intro x y hx hy hxy hp
      rw [priorityOf, priorityOf, hq.insert_kept hfree next hx,
        hq.insert_kept hfree next hy]
      exact hxy hp
    rw [Queues.side_insert]
    split
    · refine pairwise_orderedInsert hold (hq.insert_up s _) ?_ ?_
      · intro b hb _ _
        rw [priorityOf, priorityOf, hq.insert_kept hfree next hb,
          insert_entry]
        exact hq.priorityOf_lt hb
      · intro b _ hb heq
        rw [← heq] at hb
        exact absurd hb better_irrefl
    · exact hold
  counter := by
    intro i m hm
    rw [Queues.insert_orders, UnorderedMap.set_apply] at hm
    split at hm
    · cases hm
      exact Nat.lt_succ_self next
    · exact Nat.lt_succ_of_lt (hq.counter i m hm)
  unique := by
    intro i j m m' hm hm' heq
    rw [Queues.insert_orders, UnorderedMap.set_apply] at hm hm'
    split at hm <;> split at hm'
    · next hi hj => rw [hi, hj]
    · cases hm
      have := hq.counter j m' hm'
      simp only [] at heq
      omega
    · cases hm'
      have := hq.counter i m hm
      simp only [] at heq
      omega
    · exact hq.unique i j m m' hm hm' heq

/-- Marking changes nothing but the flag of one id. -/
theorem markCanceled_apply (orders : Metadata) (orderId i : Id) :
    markCanceled orders orderId i =
      (orders i).map (fun m =>
        if i = orderId then { m with canceled := true } else m) := by
  unfold markCanceled
  cases ho : orders orderId with
  | none =>
      by_cases hi : i = orderId
      · simp only []
        rw [hi, ho]
        rfl
      · simp [hi]
  | some m =>
      simp only [UnorderedMap.set_apply]
      by_cases hi : i = orderId
      · rw [if_pos hi, hi, ho]
        simp
      · simp [hi]

theorem markCanceled_some {orders : Metadata} {orderId i : Id}
    {m : OrderMetadata} (h : markCanceled orders orderId i = some m) :
    ∃ m₀, orders i = some m₀ ∧ m.level = m₀.level ∧
      m.priority = m₀.priority := by
  rw [markCanceled_apply, Option.map_eq_some_iff] at h
  obtain ⟨m₀, hm₀, rfl⟩ := h
  refine ⟨m₀, hm₀, ?_⟩
  split <;> exact ⟨rfl, rfl⟩

theorem priorityOf_markCanceled (orders : Metadata) (orderId i : Id) :
    priorityOf (markCanceled orders orderId) i = priorityOf orders i := by
  rw [priorityOf, priorityOf, markCanceled_apply]
  cases orders i with
  | none => rfl
  | some m =>
      simp only [Option.map_some, Option.elim_some]
      split <;> rfl

theorem WF.cancel {q : Queues} {next : Nat} (hq : WF q next) (orderId : Id) :
    WF (q.cancel orderId) next where
  entry := by
    intro s x hx
    obtain ⟨hl, hs, m, hm, hml⟩ := hq.entry s x hx
    refine ⟨hl, hs, if x.2.orderId = orderId then { m with canceled := true }
      else m, ?_, ?_⟩
    · rw [Queues.cancel_orders, markCanceled_apply, hm, Option.map_some]
    · split <;> exact hml
  ids := hq.ids
  price := hq.price
  time := by
    intro s
    refine (hq.time s).imp ?_
    intro x y hxy hp
    simp only [Queues.cancel_orders, priorityOf_markCanceled]
    exact hxy hp
  counter := by
    intro i m hm
    obtain ⟨m₀, hm₀, _, hprio⟩ := markCanceled_some hm
    rw [hprio]
    exact hq.counter i m₀ hm₀
  unique := by
    intro i j m m' hm hm' heq
    obtain ⟨m₀, hm₀, _, hprio⟩ := markCanceled_some hm
    obtain ⟨m₀', hm₀', _, hprio'⟩ := markCanceled_some hm'
    exact hq.unique i j m₀ m₀' hm₀ hm₀' (by rw [← hprio, ← hprio', heq])

theorem wf_empty (next : Nat) : WF (queues empty) next where
  entry := by intro s x hx; cases s <;> cases hx
  ids := .nil
  price := by intro s; cases s <;> exact .nil
  time := by intro s; cases s <;> exact .nil
  counter := by intro i m hm; cases hm
  unique := by intro i j m m' hm; cases hm

/-- The invariant of a run. -/
structure Inv (s : Orderbook × Nat) : Prop where
  wf : WF (queues s.1) s.2
  uncrossed : BestUncrossed s.1
  noEmpty : NoEmptyLevel s.1

theorem inv_init (curr : Nat) : Inv (init curr) where
  wf := wf_empty curr
  uncrossed := by intro x hx; cases hx
  noEmpty := ⟨SortedMap.noEmpty_empty, SortedMap.noEmpty_empty⟩

theorem cancelOrder_bids (book : Orderbook) (orderId : Id) :
    (book.cancelOrder orderId).bids = book.bids := by
  unfold cancelOrder; split <;> rfl

theorem cancelOrder_asks (book : Orderbook) (orderId : Id) :
    (book.cancelOrder orderId).asks = book.asks := by
  unfold cancelOrder; split <;> rfl

theorem step_inv {s : Orderbook × Nat} (hs : Inv s) (op : Op) :
    Inv (step s op).1 := by
  obtain ⟨book, curr⟩ := s
  cases op with
  | add order =>
      rw [step]
      cases hc : book.orders.contains order.orderId with
      | true => rw [addOrder_rejected hc]; exact hs
      | false =>
          obtain ⟨book', trades, hadd, hsweep, hbest, hne⟩ :=
            addOrder_spec curr hc
          have hwf := hs.wf.insert (UnorderedMap.contains_eq_false.1 hc)
          rw [hadd]
          exact ⟨(sweep_shrinks hsweep hwf).wf hwf, hbest, hne hs.noEmpty⟩
  | cancel orderId =>
      refine ⟨?_, ?_, ?_⟩
      · simp only [step, queues_cancelOrder]
        exact hs.wf.cancel orderId
      · simp only [step, BestUncrossed, cancelOrder_bids, cancelOrder_asks]
        exact hs.uncrossed
      · simp only [step, NoEmptyLevel, cancelOrder_bids, cancelOrder_asks]
        exact hs.noEmpty

theorem reachable_inv (curr : Nat) (ops : List Op) :
    Inv (runState step (init curr) ops) :=
  runState_invariant (P := Inv) (A := fun _ => True)
    (fun _ op hs _ => step_inv hs op) (inv_init curr) (fun _ _ => trivial)

/-! ## Quantities stay positive when the calls' are -/

def Queues.Positive (q : Queues) : Prop := ∀ x ∈ q.resting, 0 < x.2.quantity

theorem round_positive {p p' : Int} {bid ask : Order} {bids asks : Queue}
    {orders : Metadata} {r : Round} {next : Nat}
    (hq : WF ⟨(p, bid) :: bids, (p', ask) :: asks, orders⟩ next)
    (hpos : (⟨(p, bid) :: bids, (p', ask) :: asks, orders⟩ : Queues).Positive)
    (hr : matchFront orders bid ask = .ok r) :
    (⟨atPrice p r.bid ++ bids, atPrice p' r.ask ++ asks, r.orders⟩ :
      Queues).Positive := by
  obtain ⟨_, _, mb, hb, _⟩ := hq.entry true (p, bid) List.mem_cons_self
  obtain ⟨_, _, ma, ha, _⟩ := hq.entry false (p', ask) List.mem_cons_self
  have hbid : 0 < bid.quantity :=
    hpos (p, bid) (Queues.mem_resting.2 ⟨true, List.mem_cons_self⟩)
  have hask : 0 < ask.quantity :=
    hpos (p', ask) (Queues.mem_resting.2 ⟨false, List.mem_cons_self⟩)
  have hbids : ∀ x ∈ bids, 0 < x.2.quantity := fun x hx =>
    hpos x (Queues.mem_resting.2 ⟨true, List.mem_cons_of_mem _ hx⟩)
  have hasks : ∀ x ∈ asks, 0 < x.2.quantity := fun x hx =>
    hpos x (Queues.mem_resting.2 ⟨false, List.mem_cons_of_mem _ hx⟩)
  -- A leftover is positive: the fill is at most the quantity and not all of it.
  have hleft : ∀ {p : Int} {o : Order} {x : Int × Order},
      min bid.quantity ask.quantity ≤ o.quantity →
      x ∈ atPrice p (leftover o (min bid.quantity ask.quantity)) →
      0 < x.2.quantity := by
    intro p o x hle hx
    obtain ⟨hne, rfl⟩ := mem_atPrice_leftover hx
    simp only []
    omega
  intro x hx
  simp only [Queues.resting, List.mem_append] at hx
  rcases matchFront_cases hb ha hr with ⟨_, rfl⟩ | ⟨_, _, rfl⟩ | ⟨_, _, rfl⟩
  · rcases hx with (hx | hx) | (hx | hx)
    · cases hx
    · exact hbids x hx
    · rw [List.mem_singleton.1 hx]; exact hask
    · exact hasks x hx
  · rcases hx with (hx | hx) | (hx | hx)
    · rw [List.mem_singleton.1 hx]; exact hbid
    · exact hbids x hx
    · cases hx
    · exact hasks x hx
  · rcases hx with (hx | hx) | (hx | hx)
    · exact hleft (Int.min_le_left _ _) hx
    · exact hbids x hx
    · exact hleft (Int.min_le_right _ _) hx
    · exact hasks x hx

theorem sweep_positive {q q' : Queues} {trades : Trades} {next : Nat}
    (h : Sweep q trades q') (hq : WF q next) (hpos : q.Positive) :
    q'.Positive := by
  induction h with
  | stop _ => exact hpos
  | round hcross hr _ ih =>
      exact ih ((round_shrinks hq hr).wf hq) (round_positive hq hpos hr)

theorem positive_insert {q : Queues} (hpos : q.Positive) (priority : Nat)
    {order : Order} (ho : 0 < order.quantity) :
    (q.insert priority order).Positive := by
  intro x hx
  rcases List.mem_cons.1 ((resting_insert_perm q priority order).mem_iff.1 hx)
    with rfl | hx
  · exact ho
  · exact hpos x hx

/-- A call that adds only a positive quantity. -/
def Op.Positive : Op → Prop
  | .add order => 0 < order.quantity
  | .cancel _ => True

theorem step_positive {s : Orderbook × Nat} (hs : Inv s)
    (hpos : (queues s.1).Positive) {op : Op} (hop : op.Positive) :
    (queues (step s op).1.1).Positive := by
  obtain ⟨book, curr⟩ := s
  cases op with
  | add order =>
      rw [step]
      cases hc : book.orders.contains order.orderId with
      | true => rw [addOrder_rejected hc]; exact hpos
      | false =>
          obtain ⟨book', trades, hadd, hsweep, _, _⟩ := addOrder_spec curr hc
          have hwf := hs.wf.insert (UnorderedMap.contains_eq_false.1 hc)
          rw [hadd]
          exact sweep_positive hsweep hwf (positive_insert hpos curr hop)
  | cancel orderId =>
      simp only [step, queues_cancelOrder]
      exact hpos

theorem reachable_positive (curr : Nat) {ops : List Op}
    (hops : ∀ op ∈ ops, op.Positive) :
    (queues (runState step (init curr) ops).1).Positive := by
  have h := runState_invariant (A := Op.Positive)
    (P := fun s => Inv s ∧ (queues s.1).Positive)
    (fun s op hs hop => ⟨step_inv hs.1 op, step_positive hs.1 hs.2 hop⟩)
    (⟨inv_init curr, fun x hx => by cases hx⟩ : Inv (init curr) ∧ _) hops
  exact h.2

/-! ## Level by level -/

/-- The levels of the bids for `true`, of the asks for `false`. -/
def levels (book : Orderbook) : Bool → List (Int × List Order)
  | true => book.bids.entries
  | false => book.asks.entries

/-- Every order in a deque, cancelled ones included. -/
def stored (book : Orderbook) : List Order :=
  (levels book true ++ levels book false).flatMap Prod.snd

/-- A well formed book. -/
structure WellFormed (book : Orderbook) : Prop where
  /-- A side is empty or the best bid is below the best ask. -/
  uncrossed : ∀ x ∈ book.bids.front?, ∀ y ∈ book.asks.front?, x.1 < y.1
  noEmpty : ∀ s, ∀ e ∈ levels book s, e.2 ≠ []
  home : ∀ s, ∀ e ∈ levels book s, ∀ o ∈ e.2, o.isBuy = s ∧ o.level = e.1
  ids : ((stored book).map Order.orderId).Nodup
  entry : ∀ s, ∀ e ∈ levels book s, ∀ o ∈ e.2,
    ∃ m, book.orders o.orderId = some m ∧ m.level = e.1
  time : ∀ s, ∀ e ∈ levels book s, e.2.Pairwise (fun o o' =>
    ∃ m m', book.orders o.orderId = some m ∧
      book.orders o'.orderId = some m' ∧ m.priority < m'.priority)

theorem side_queues (book : Orderbook) (s : Bool) :
    (queues book).side s = flatEntries (levels book s) := by
  cases s <;> rfl

theorem map_snd_flatEntries (l : List (Int × List Order)) :
    (flatEntries l).map Prod.snd = l.flatMap Prod.snd := by
  simp [flatEntries, List.map_flatMap, Function.comp_def]

theorem stored_eq (book : Orderbook) :
    stored book = (queues book).resting.map Prod.snd := by
  rw [stored, ← map_snd_flatEntries]
  simp only [flatEntries, List.flatMap_append]
  rfl

theorem mem_side_of_level {book : Orderbook} {s : Bool}
    {e : Int × List Order} (he : e ∈ levels book s) {o : Order}
    (ho : o ∈ e.2) : (e.1, o) ∈ (queues book).side s := by
  rw [side_queues]
  exact mem_flatEntries.2 ⟨e.2, he, ho⟩

theorem Inv.wellFormed {s : Orderbook × Nat} (h : Inv s) : WellFormed s.1 where
  uncrossed := h.uncrossed
  noEmpty := by
    intro b
    cases b with
    | true => exact h.noEmpty.1
    | false => exact h.noEmpty.2
  home := by
    intro b e he o ho
    obtain ⟨hl, hb, _⟩ := h.wf.entry b _ (mem_side_of_level he ho)
    exact ⟨hb, hl⟩
  ids := by
    rw [stored_eq, List.map_map]
    exact h.wf.ids
  entry := by
    intro b e he o ho
    obtain ⟨_, _, m, hm, hml⟩ := h.wf.entry b _ (mem_side_of_level he ho)
    exact ⟨m, hm, hml⟩
  time := by
    intro b e he
    have hflat := h.wf.time b
    rw [side_queues, flatEntries, List.pairwise_flatMap] at hflat
    refine (List.pairwise_map.1 (hflat.1 e he)).imp_of_mem ?_
    intro o o' ho ho' hlt
    obtain ⟨_, _, m, hm, _⟩ := h.wf.entry b _ (mem_side_of_level he ho)
    obtain ⟨_, _, m', hm', _⟩ := h.wf.entry b _ (mem_side_of_level he ho')
    refine ⟨m, m', hm, hm', ?_⟩
    have hp := hlt rfl
    simp only [priorityOf] at hp hm hm'
    rw [hm, hm'] at hp
    exact hp

/-- Whatever calls were made on a fresh book, it is well formed, and if they
added only positive quantities every stored order has one. -/
theorem run_wellFormed (curr : Nat) (ops : List Op) :
    WellFormed (runState step (init curr) ops).1 ∧
      ((∀ order, .add order ∈ ops → 0 < order.quantity) →
        ∀ o ∈ stored (runState step (init curr) ops).1, 0 < o.quantity) := by
  refine ⟨(reachable_inv curr ops).wellFormed, ?_⟩
  intro hops o ho
  have hpos : ∀ op ∈ ops, op.Positive := by
    intro op hop
    cases op with
    | add order => exact hops order hop
    | cancel _ => trivial
  rw [stored_eq] at ho
  obtain ⟨x, hx, rfl⟩ := List.mem_map.1 ho
  exact reachable_positive curr hpos x hx

theorem run_wellFormed_two : ∀ o ∈ stored (runState step (init 0)
    [.add ⟨1, 100, true, 5⟩, .add ⟨2, 100, false, 3⟩]).1, 0 < o.quantity :=
  (run_wellFormed 0 [.add ⟨1, 100, true, 5⟩, .add ⟨2, 100, false, 3⟩]).2
    (by simp)

end LearningCpp.Orderbook
