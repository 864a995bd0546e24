import LearningCpp.Orderbook.Sweep

/-!
# The book stays well formed

What holds of the book after every call: the best levels do not cross, no
level is empty, every order rests on its side at its level, ids are distinct
and have metadata, and a deque is in the order its orders were accepted in.

The invariant is stated over the queues, where it survives in the middle of
`match` too. Nothing a round does can break it, for one reason: a round only
takes orders out or changes quantities, and the metadata of every order still
resting stays what it was. That is `Shrinks`, and `WF` follows along it.
-/

namespace LearningCpp.Orderbook

open LearningCpp.Lib

/-- The bids for `true`, the asks for `false`. -/
def Queues.side (q : Queues) : Bool → Queue
  | true => q.bids
  | false => q.asks

/-- All resting orders of both sides. -/
def Queues.resting (q : Queues) : Queue := q.bids ++ q.asks

/-- `p` is a strictly better price than `p'` to rest at. -/
def better : Bool → Int → Int → Prop
  | true, p, p' => p > p'
  | false, p, p' => p < p'

theorem Queues.mem_resting {q : Queues} {x : Int × Order} :
    x ∈ q.resting ↔ ∃ s, x ∈ q.side s := by
  simp [resting, side, or_comm]

/-- The priority an id was given when its order was accepted. -/
def priorityOf (orders : Metadata) (orderId : Id) : Nat :=
  (orders orderId).elim 0 OrderMetadata.priority

/-- The queues after any number of calls, `next` being the counter. -/
structure WF (q : Queues) (next : Nat) : Prop where
  entry : ∀ s, ∀ x ∈ q.side s, x.2.level = x.1 ∧ x.2.isBuy = s ∧
    ∃ m, q.orders x.2.orderId = some m ∧ m.level = x.1
  ids : (q.resting.map (fun x => x.2.orderId)).Nodup
  price : ∀ s, (q.side s).Pairwise (fun x y => x.1 = y.1 ∨ better s x.1 y.1)
  time : ∀ s, (q.side s).Pairwise (fun x y => x.1 = y.1 →
    priorityOf q.orders x.2.orderId < priorityOf q.orders y.2.orderId)
  counter : ∀ i m, q.orders i = some m → m.priority < next
  unique : ∀ i j m m', q.orders i = some m → q.orders j = some m' →
    m.priority = m'.priority → i = j

/-! ## What a round does -/

/-- What a fill of `size` leaves of an order. -/
def leftover (o : Order) (size : Int) : Option Order :=
  if o.quantity - size = 0 then none
  else some { o with quantity := o.quantity - size }

/-- The metadata after a fill of `size`: gone when the order is filled. -/
def settle (orders : Metadata) (o : Order) (size : Int) : Metadata :=
  if o.quantity - size = 0 then orders.erase o.orderId else orders

/-- The trade between two live front orders with the metadata `mb`, `ma`. -/
def frontTrade (bid ask : Order) (mb ma : OrderMetadata) : Trade where
  orderIdA := if mb.priority < ma.priority then bid.orderId else ask.orderId
  orderIdB := if mb.priority > ma.priority then bid.orderId else ask.orderId
  aggressorOrderId :=
    if mb.priority > ma.priority then bid.orderId else ask.orderId
  aggressorIsBuy :=
    (if mb.priority > ma.priority then bid.orderId else ask.orderId) ==
      bid.orderId
  level := if mb.priority < ma.priority then mb.level else ma.level
  size := min bid.quantity ask.quantity

def tradeRound (orders : Metadata) (bid ask : Order) (mb ma : OrderMetadata) :
    Round where
  bid := leftover bid (min bid.quantity ask.quantity)
  ask := leftover ask (min bid.quantity ask.quantity)
  orders := settle (settle orders bid (min bid.quantity ask.quantity)) ask
    (min bid.quantity ask.quantity)
  trade := some (frontTrade bid ask mb ma)

section Round

variable {orders : Metadata} {bid ask : Order} {mb ma : OrderMetadata}
  (hb : orders bid.orderId = some mb) (ha : orders ask.orderId = some ma)

include hb in
theorem matchFront_discardBid (hc : mb.canceled = true) :
    matchFront orders bid ask = .ok ⟨none, some ask, orders, none⟩ := by
  simp only [matchFront, UnorderedMap.subscript_of_some hb, hc, if_true]

include hb ha

theorem matchFront_discardAsk (hbc : mb.canceled = false)
    (hac : ma.canceled = true) :
    matchFront orders bid ask = .ok ⟨some bid, none, orders, none⟩ := by
  simp only [matchFront, UnorderedMap.subscript_of_some hb,
    UnorderedMap.subscript_of_some ha, hbc, hac, if_true, Bool.false_eq_true,
    if_false]

theorem matchFront_trade (hbc : mb.canceled = false)
    (hac : ma.canceled = false) :
    matchFront orders bid ask = .ok (tradeRound orders bid ask mb ma) := by
  simp only [matchFront, UnorderedMap.subscript_of_some hb,
    UnorderedMap.subscript_of_some ha, hbc, hac, Bool.false_eq_true, if_false]
  rw [fill_ok (Int.min_le_right _ _), fill_ok (Int.min_le_left _ _)]
  simp only [tradeRound, frontTrade, leftover, settle]
  by_cases hlt : mb.priority < ma.priority
  · simp only [if_pos hlt, UnorderedMap.subscript_of_some hb]
  · simp only [if_neg hlt, UnorderedMap.subscript_of_some ha]

/-- With metadata for both front orders a round is one of three things. -/
theorem matchFront_cases {r : Round} (hr : matchFront orders bid ask = .ok r) :
    (mb.canceled = true ∧ r = ⟨none, some ask, orders, none⟩) ∨
    (mb.canceled = false ∧ ma.canceled = true ∧
      r = ⟨some bid, none, orders, none⟩) ∨
    (mb.canceled = false ∧ ma.canceled = false ∧
      r = tradeRound orders bid ask mb ma) := by
  cases hbc : mb.canceled with
  | true =>
      rw [matchFront_discardBid hb hbc] at hr
      exact Or.inl ⟨rfl, (Except.ok.inj hr).symm⟩
  | false =>
      cases hac : ma.canceled with
      | true =>
          rw [matchFront_discardAsk hb ha hbc hac] at hr
          exact Or.inr (Or.inl ⟨rfl, rfl, (Except.ok.inj hr).symm⟩)
      | false =>
          rw [matchFront_trade hb ha hbc hac] at hr
          exact Or.inr (Or.inr ⟨rfl, rfl, (Except.ok.inj hr).symm⟩)

end Round

/-! ## Matching only takes away -/

/-- A resting order up to its quantity. -/
def ident (x : Int × Order) : Int × Order := (x.1, { x.2 with quantity := 0 })

/-- `q'` holds some of the orders of `q`, in their order and perhaps with
other quantities, and the metadata of those it holds is unchanged. -/
structure Shrinks (q q' : Queues) : Prop where
  side : ∀ s, ((q'.side s).map ident).Sublist ((q.side s).map ident)
  kept : ∀ x ∈ q'.resting, q'.orders x.2.orderId = q.orders x.2.orderId
  orders : ∀ i m, q'.orders i = some m → q.orders i = some m

theorem Shrinks.refl (q : Queues) : Shrinks q q :=
  ⟨fun _ => List.Sublist.refl _, fun _ _ => rfl, fun _ _ h => h⟩

/-- An order of the smaller queues is one of the larger, up to quantity. -/
theorem Shrinks.mem {q q' : Queues} (h : Shrinks q q') {s : Bool}
    {x : Int × Order} (hx : x ∈ q'.side s) :
    ∃ y ∈ q.side s, ident y = ident x :=
  List.mem_map.1 ((h.side s).subset (List.mem_map_of_mem hx))

theorem ident_eq_iff {x y : Int × Order} :
    ident x = ident y ↔ x.1 = y.1 ∧ x.2.orderId = y.2.orderId ∧
      x.2.level = y.2.level ∧ x.2.isBuy = y.2.isBuy := by
  simp [ident]

theorem ident_orderId {x y : Int × Order} (h : ident x = ident y) :
    x.2.orderId = y.2.orderId := (ident_eq_iff.1 h).2.1

theorem Shrinks.trans {q q' q'' : Queues} (h : Shrinks q q')
    (h' : Shrinks q' q'') : Shrinks q q'' where
  side := fun s => (h'.side s).trans (h.side s)
  kept := by
    intro x hx
    obtain ⟨s, hs⟩ := Queues.mem_resting.1 hx
    obtain ⟨y, hy, hid⟩ := h'.mem hs
    have hk := h.kept y (Queues.mem_resting.2 ⟨s, hy⟩)
    rw [ident_orderId hid] at hk
    rw [h'.kept x hx, hk]
  orders := fun i m hm => h.orders i m (h'.orders i m hm)

/-- A property of pairs that ignores quantities survives shrinking. -/
theorem Shrinks.pairwise {q q' : Queues} (h : Shrinks q q') {s : Bool}
    {R : Int × Order → Int × Order → Prop}
    (hR : ∀ x y, R (ident x) (ident y) ↔ R x y) (hq : (q.side s).Pairwise R) :
    (q'.side s).Pairwise R := by
  have hmap : ((q.side s).map ident).Pairwise R :=
    List.pairwise_map.2 (hq.imp (fun hxy => (hR _ _).2 hxy))
  exact (List.pairwise_map.1 (hmap.sublist (h.side s))).imp
    (fun hxy => (hR _ _).1 hxy)

theorem Shrinks.wf {q q' : Queues} {next : Nat} (h : Shrinks q q')
    (hq : WF q next) : WF q' next where
  entry := by
    intro s x hx
    obtain ⟨y, hy, hid⟩ := h.mem hx
    obtain ⟨hlevel, hbuy, m, hm, hml⟩ := hq.entry s y hy
    obtain ⟨hprice, _, hl, hs⟩ := ident_eq_iff.1 hid
    refine ⟨by rw [← hl, ← hprice]; exact hlevel, by rw [← hs]; exact hbuy,
      m, ?_, by rw [← hprice]; exact hml⟩
    rw [h.kept x (Queues.mem_resting.2 ⟨s, hx⟩), ← ident_orderId hid]
    exact hm
  ids := by
    have hids : ∀ q : Queues, q.resting.map (fun x => x.2.orderId) =
        ((q.side true).map ident ++ (q.side false).map ident).map
          (fun x => x.2.orderId) := by
      intro q
      rw [← List.map_append, List.map_map]; rfl
    have hq' := hq.ids
    rw [hids] at hq' ⊢
    exact hq'.sublist (((h.side true).append (h.side false)).map _)
  price := fun s => h.pairwise (fun _ _ => Iff.rfl) (hq.price s)
  time := by
    intro s
    have hold := h.pairwise (fun _ _ => Iff.rfl) (hq.time s)
    refine hold.imp_of_mem ?_
    intro x y hx hy hxy hp
    have hkx := h.kept x (Queues.mem_resting.2 ⟨s, hx⟩)
    have hky := h.kept y (Queues.mem_resting.2 ⟨s, hy⟩)
    rw [priorityOf, priorityOf, hkx, hky]
    exact hxy hp
  counter := fun i m hm => hq.counter i m (h.orders i m hm)
  unique := fun i j m m' hm hm' =>
    hq.unique i j m m' (h.orders i m hm) (h.orders j m' hm')

/-- Whether an order was not cancelled. -/
def live (orders : Metadata) (o : Order) : Bool :=
  !(orders o.orderId).any OrderMetadata.canceled

theorem live_of_some {orders : Metadata} {o : Order} {m : OrderMetadata}
    (h : orders o.orderId = some m) : live orders o = !m.canceled := by
  rw [live, h]; rfl

theorem live_congr {orders orders' : Metadata} {o : Order}
    (h : orders' o.orderId = orders o.orderId) :
    live orders' o = live orders o := by
  rw [live, live, h]

/-- The orders that still rest are live exactly if they were. -/
theorem Shrinks.filter_live {q q' : Queues} (h : Shrinks q q') {s : Bool}
    {l : Queue} (hl : ∀ x ∈ l, x ∈ q'.side s) :
    l.filter (fun x => live q'.orders x.2) =
      l.filter (fun x => live q.orders x.2) :=
  List.filter_congr (fun x hx =>
    live_congr (h.kept x (Queues.mem_resting.2 ⟨s, hl x hx⟩)))

theorem settle_apply (orders : Metadata) (o : Order) (size : Int) (i : Id) :
    settle orders o size i =
      if o.quantity - size = 0 ∧ i = o.orderId then none else orders i := by
  unfold settle
  by_cases hz : o.quantity - size = 0
  · simp only [hz, if_true, true_and, UnorderedMap.erase_apply]
  · simp only [hz, if_false, false_and]

/-- What is left of a front order is that order up to its quantity. -/
theorem mem_atPrice_leftover {p : Int} {o : Order} {size : Int}
    {x : Int × Order} (hx : x ∈ atPrice p (leftover o size)) :
    o.quantity - size ≠ 0 ∧
      x = (p, { o with quantity := o.quantity - size }) := by
  unfold leftover at hx
  split at hx
  · cases hx
  · next hz => exact ⟨hz, by simpa [atPrice] using hx⟩

theorem atPrice_sublist {p : Int} {o : Order} {o' : Option Order}
    {l : Queue} (h : ∀ x ∈ o', ident (p, x) = ident (p, o)) :
    ((atPrice p o' ++ l).map ident).Sublist (((p, o) :: l).map ident) := by
  cases o' with
  | none => exact List.sublist_cons_self _ _
  | some x =>
      show (ident (p, x) :: l.map ident).Sublist (ident (p, o) :: l.map ident)
      rw [h x rfl]

theorem leftover_ident {p : Int} {o : Order} {size : Int} :
    ∀ x ∈ leftover o size, ident (p, x) = ident (p, o) := by
  intro x hx
  unfold leftover at hx
  split at hx
  · cases hx
  · cases hx; rfl

theorem WF.front_ne {p p' : Int} {bid ask : Order} {bids asks : Queue}
    {orders : Metadata} {next : Nat}
    (hq : WF ⟨(p, bid) :: bids, (p', ask) :: asks, orders⟩ next) :
    bid.orderId ≠ ask.orderId := by
  have hids := hq.ids
  simp only [Queues.resting, List.cons_append, List.map_cons, List.map_append,
    List.nodup_cons, List.mem_append, List.mem_cons, not_or] at hids
  exact hids.1.2.1

/-- One round of the loop only takes away. -/
theorem round_shrinks {p p' : Int} {bid ask : Order} {bids asks : Queue}
    {orders : Metadata} {r : Round} {next : Nat}
    (hq : WF ⟨(p, bid) :: bids, (p', ask) :: asks, orders⟩ next)
    (hr : matchFront orders bid ask = .ok r) :
    Shrinks ⟨(p, bid) :: bids, (p', ask) :: asks, orders⟩
      ⟨atPrice p r.bid ++ bids, atPrice p' r.ask ++ asks, r.orders⟩ := by
  obtain ⟨_, _, mb, hb, _⟩ := hq.entry true (p, bid) List.mem_cons_self
  obtain ⟨_, _, ma, ha, _⟩ := hq.entry false (p', ask) List.mem_cons_self
  rcases matchFront_cases hb ha hr with ⟨_, rfl⟩ | ⟨_, _, rfl⟩ | ⟨_, _, rfl⟩
  · -- The cancelled bid is popped and nothing else happens.
    refine ⟨?_, fun _ _ => rfl, fun _ _ h => h⟩
    intro s
    cases s with
    | true => exact List.sublist_cons_self _ _
    | false => exact List.Sublist.refl _
  · refine ⟨?_, fun _ _ => rfl, fun _ _ h => h⟩
    intro s
    cases s with
    | true => exact List.Sublist.refl _
    | false => exact List.sublist_cons_self _ _
  · generalize hn : min bid.quantity ask.quantity = n
    simp only [tradeRound, hn]
    refine ⟨?_, ?_, ?_⟩
    · intro s
      cases s with
      | true => exact atPrice_sublist leftover_ident
      | false => exact atPrice_sublist leftover_ident
    · -- An id that is erased is that of a filled front order, and by `ids` no
      -- order that still rests has it.
      intro x hx
      have hids := hq.ids
      simp only [Queues.resting, List.cons_append, List.map_cons,
        List.map_append, List.nodup_cons, List.mem_append, List.mem_cons,
        not_or, List.nodup_append] at hids
      obtain ⟨⟨hbb, hba, hbas⟩, hnd, ⟨haa, _⟩, hdisj⟩ := hids
      have hmem : ∀ {l : Queue} {y : Int × Order}, y ∈ l →
          y.2.orderId ∈ l.map (fun x => x.2.orderId) :=
        fun h => List.mem_map_of_mem h
      have hxb : bid.quantity - n = 0 → x.2.orderId ≠ bid.orderId := by
        intro hz heq
        simp only [Queues.resting, List.mem_append] at hx
        rcases hx with (hx | hx) | (hx | hx)
        · exact (mem_atPrice_leftover hx).1 hz
        · exact hbb (heq ▸ hmem hx)
        · rw [(mem_atPrice_leftover hx).2] at heq
          exact hba heq.symm
        · exact hbas (heq ▸ hmem hx)
      have hxa : ask.quantity - n = 0 → x.2.orderId ≠ ask.orderId := by
        intro hz heq
        simp only [Queues.resting, List.mem_append] at hx
        rcases hx with (hx | hx) | (hx | hx)
        · rw [(mem_atPrice_leftover hx).2] at heq
          exact hba heq
        · exact hdisj _ (hmem hx) _ (Or.inl rfl) heq
        · exact (mem_atPrice_leftover hx).1 hz
        · exact haa (heq ▸ hmem hx)
      show settle (settle orders bid n) ask n x.2.orderId =
        orders x.2.orderId
      rw [settle_apply, if_neg (fun h => hxa h.1 h.2), settle_apply,
        if_neg (fun h => hxb h.1 h.2)]
    · intro i m hm
      simp only [settle_apply] at hm
      split at hm
      · cases hm
      · split at hm
        · cases hm
        · exact hm

theorem sweep_shrinks {q q' : Queues} {trades : Trades} {next : Nat}
    (h : Sweep q trades q') (hq : WF q next) : Shrinks q q' := by
  induction h with
  | stop _ => exact Shrinks.refl _
  | round hcross hr _ ih =>
      have hround := round_shrinks hq hr
      exact hround.trans (ih (hround.wf hq))

end LearningCpp.Orderbook
