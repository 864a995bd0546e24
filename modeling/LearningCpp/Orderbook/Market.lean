import LearningCpp.Lib.Demand
import LearningCpp.Orderbook.Lazy
import LearningCpp.Orderbook.Metadata

/-!
# The book as a market

What the order book is for, without maps of deques, cancelled orders that are
still there, priorities or loops. Each side of a market is the row of what is
on offer there, best price first and first come first within a price. An order
is a demand served from the offers opposite that its limit allows, and what of
it is unmet joins its own side; a cancelled order is taken out of its row.
What stays of it is its id, which no order can have again.

`market` reads the market off a book, and `run_market` says that the book does
what the market does: on every sequence of calls, whatever their quantities,
the trades returned are the market's, one by one, and the book left is the
market left.
-/

namespace LearningCpp.Orderbook

open LearningCpp.Lib

instance instDecidableCrosses : ∀ (s : Bool) (p p' : Int),
    Decidable (crosses s p p')
  | true, p, p' => inferInstanceAs (Decidable (p' ≤ p))
  | false, p, p' => inferInstanceAs (Decidable (p ≤ p'))

/-- Who offers, and at what price. -/
structure Offer where
  orderId : Id
  level : Int
deriving DecidableEq, Repr

abbrev Offers := List (Offer × Int)

end LearningCpp.Orderbook

namespace LearningCpp

open LearningCpp.Orderbook LearningCpp.Lib

/-- The bids are the offers of side `true`. -/
structure Market where
  offers : Bool → Offers
  withdrawn : Id → Bool

namespace Market

def empty : Market := ⟨fun _ => [], fun _ => false⟩

/-- An id that rests or was withdrawn while it did is not free. -/
def knows (m : Market) (orderId : Id) : Bool :=
  m.withdrawn orderId || (m.offers true ++ m.offers false).any
    (fun x => x.1.orderId = orderId)

/-- The trade in which `order` takes an amount of an offer. -/
def hit (order : Order) (x : Offer × Int) : Trade where
  orderIdA := x.1.orderId
  orderIdB := order.orderId
  aggressorOrderId := order.orderId
  aggressorIsBuy := order.isBuy
  level := x.1.level
  size := x.2

/-- The offers opposite that an order's limit allows. -/
def within (order : Order) (x : Offer × Int) : Bool :=
  crosses order.isBuy order.level x.1.level

/-- What is unmet of an order, behind the offers that are at least as good. -/
def rest (order : Order) (unmet : Option Int) (offers : Offers) : Offers :=
  match unmet with
  | none => offers
  | some n =>
      offers.orderedInsert
        (fun x y => better order.isBuy x.1.level y.1.level)
        (⟨order.orderId, order.level⟩, n)

/-- The demand of an order on the offers opposite. -/
def demand (m : Market) (order : Order) : Served Offer Int :=
  serve order.quantity ((m.offers (!order.isBuy)).takeWhile (within order))

def add (m : Market) (order : Order) : Market × Trades :=
  if m.knows order.orderId then (m, [])
  else
    let s := m.demand order
    ({ m with
        offers := fun b =>
          if b = order.isBuy then rest order s.unmet (m.offers b)
          else s.kept ++ (m.offers b).dropWhile (within order) },
      s.taken.map (hit order))

def cancel (m : Market) (orderId : Id) : Market where
  offers := fun b => (m.offers b).filter (fun x => x.1.orderId ≠ orderId)
  withdrawn := fun i =>
    m.withdrawn i || (decide (i = orderId) && m.knows orderId)

def step (m : Market) : Orderbook.Op → Market × Trades
  | .add order => m.add order
  | .cancel orderId => (m.cancel orderId, [])

end Market

end LearningCpp

namespace LearningCpp.Orderbook

open LearningCpp.Lib

/-! ## The market of a book -/

def offer (x : Int × Order) : Offer × Int := (⟨x.2.orderId, x.1⟩, x.2.quantity)

/-- The live orders of a queue, as offers. -/
def offers (orders : Metadata) (q : Queue) : Offers :=
  (q.filter (fun x => live orders x.2)).map offer

def market (book : Orderbook) : Market where
  offers := fun s => offers book.orders ((queues book).side s)
  withdrawn := isCanceled book.orders

@[simp] theorem offer_orderId (x : Int × Order) :
    (offer x).1.orderId = x.2.orderId := rfl

@[simp] theorem offer_level (x : Int × Order) : (offer x).1.level = x.1 := rfl

@[simp] theorem offer_amount (x : Int × Order) :
    (offer x).2 = x.2.quantity := rfl

theorem offers_append (orders : Metadata) (q q' : Queue) :
    offers orders (q ++ q') = offers orders q ++ offers orders q' := by
  rw [offers, List.filter_append, List.map_append]
  rfl

theorem offers_cons_live {orders : Metadata} {x : Int × Order} {q : Queue}
    (h : live orders x.2 = true) :
    offers orders (x :: q) = offer x :: offers orders q := by
  rw [offers, List.filter_cons_of_pos
    (p := fun y : Int × Order => live orders y.2) h, List.map_cons]
  rfl

theorem offers_cons_dead {orders : Metadata} {x : Int × Order} {q : Queue}
    (h : live orders x.2 = false) :
    offers orders (x :: q) = offers orders q := by
  rw [offers, List.filter_cons_of_neg (by simp [h])]
  rfl

theorem mem_offers {orders : Metadata} {q : Queue} {y : Offer × Int} :
    y ∈ offers orders q ↔ ∃ x ∈ q, live orders x.2 = true ∧ offer x = y := by
  simp only [offers, List.mem_map, List.mem_filter, and_assoc]

/-- What still rests offers what it did, if anything. -/
theorem Shrinks.offers {q q' : Queues} (h : Shrinks q q') {s : Bool}
    {l : Queue} (hl : ∀ x ∈ l, x ∈ q'.side s) :
    offers q'.orders l = offers q.orders l := by
  rw [Orderbook.offers, h.filter_live hl]
  rfl

/-- What a fill leaves of a live order. -/
theorem offers_leftover {orders : Metadata} {x : Int × Order} {size : Int}
    (hx : live orders x.2 = true) (q : Queue) :
    offers orders (atPrice x.1 (leftover x.2 size) ++ q) =
      (if x.2.quantity - size = 0 then []
        else [(⟨x.2.orderId, x.1⟩, x.2.quantity - size)]) ++
        offers orders q := by
  rw [offers_append, offers, atPrice_leftover_live hx, leftover]
  split
  · rfl
  · rfl

/-! ## A sweep serves a demand -/

/-- Past a limit that the front does not meet, no offer does. -/
theorem takeWhile_within {q : Queues} {next : Nat} (hq : WF q next)
    {o : Order} (h : ∀ y ∈ (q.side (!o.isBuy)).head?,
      ¬ crosses o.isBuy o.level y.1) :
    (offers q.orders (q.side (!o.isBuy))).takeWhile (Market.within o) = [] ∧
      (offers q.orders (q.side (!o.isBuy))).dropWhile (Market.within o) =
        offers q.orders (q.side (!o.isBuy)) := by
  have hnone : ∀ y ∈ offers q.orders (q.side (!o.isBuy)),
      Market.within o y = false := by
    intro y hy
    obtain ⟨x, hx, _, rfl⟩ := mem_offers.1 hy
    exact decide_eq_false (not_crosses_of_head hq h x hx)
  cases hl : offers q.orders (q.side (!o.isBuy)) with
  | nil => exact ⟨rfl, rfl⟩
  | cons y l =>
      have hy := hnone y (by rw [hl]; exact List.mem_cons_self)
      rw [List.takeWhile_cons, List.dropWhile_cons, hy]
      exact ⟨rfl, rfl⟩

/-- What a sweep that has served `o` leaves and returns. -/
structure Serves (q' : Queues) (ts : Trades) (o : Order)
    (s : Served Offer Int) (behind own : Offers) : Prop where
  trades : ts = s.taken.map (Market.hit o)
  opposite : offers q'.orders (q'.side (!o.isBuy)) = s.kept ++ behind
  side : offers q'.orders (q'.side o.isBuy) =
    (s.unmet.map (fun n => ((⟨o.orderId, o.level⟩, n) : Offer × Int))).toList ++
      own

theorem AtFront.live_own {q : Queues} {next : Nat} {o : Order}
    {mo : OrderMetadata} {rest opp : Queue} (h : AtFront q next o mo rest opp) :
    live q.orders o = true := by
  rw [live_of_some h.entry, h.notCanceled]
  rfl

/-- Nothing crosses: the order is left as it is. -/
theorem AtFront.serves_stop {q : Queues} {next : Nat} {o : Order}
    {mo : OrderMetadata} {rest opp : Queue} (h : AtFront q next o mo rest opp)
    (hstop : ∀ y ∈ opp.head?, ¬ crosses o.isBuy o.level y.1) :
    Serves q [] o
      (serve o.quantity ((offers q.orders opp).takeWhile (Market.within o)))
      ((offers q.orders opp).dropWhile (Market.within o))
      (offers q.orders rest) := by
  obtain ⟨htake, hdrop⟩ :=
    takeWhile_within h.wf (by rw [h.opposite]; exact hstop)
  rw [h.opposite] at htake hdrop
  rw [htake, hdrop, serve_nil]
  refine ⟨rfl, by rw [h.opposite]; rfl, ?_⟩
  rw [h.side, offers_cons_live h.live_own]
  rfl

theorem AtFront.offers_rest {q q₁ : Queues} {next : Nat} {o : Order}
    {mo : OrderMetadata} {rest opp : Queue}
    (h : AtFront q₁ next o mo rest opp) (hs : Shrinks q q₁) :
    offers q₁.orders rest = offers q.orders rest := by
  refine hs.offers (s := o.isBuy) ?_
  rw [h.side]
  exact fun x hx => List.mem_cons_of_mem _ hx

theorem AtFront.offers_opposite {q q₁ : Queues} {next : Nat} {o : Order}
    {mo : OrderMetadata} {rest opp : Queue}
    (h : AtFront q₁ next o mo rest opp) (hs : Shrinks q q₁) :
    offers q₁.orders opp = offers q.orders opp := by
  refine hs.offers (s := !o.isBuy) ?_
  rw [h.opposite]
  exact fun _ hx => hx

/-- The trade of a round takes from the offer of the order that is hit. -/
theorem AtFront.hitTrade_eq {q : Queues} {next : Nat} {o : Order}
    {mo : OrderMetadata} {rest opp : Queue} {x : Int × Order}
    (h : AtFront q next o mo rest (x :: opp)) {n : Int}
    (hn : min o.quantity x.2.quantity = n) :
    hitTrade o.isBuy o x.2 = Market.hit o ((offer x).1, n) := by
  have hxl : x.2.level = x.1 := by
    refine (h.wf.entry (!o.isBuy) x ?_).1
    rw [h.opposite]
    exact List.mem_cons_self
  simp only [hitTrade, Market.hit, hn, hxl, offer_orderId, offer_level]

/-- The front opposite fills the order, and may be filled by it too. -/
theorem AtFront.serves_filled {q q' : Queues} {next : Nat} {o : Order}
    {mo : OrderMetadata} {rest opp : Queue} {x : Int × Order}
    (h : AtFront q next o mo rest (x :: opp))
    (hlive : live q.orders x.2 = true) (hc : Market.within o (offer x) = true)
    (hle : o.quantity ≤ x.2.quantity) (hhit : Hits q q' o x rest opp) :
    Serves q' [hitTrade o.isBuy o x.2] o
      (serve o.quantity
        ((offers q.orders (x :: opp)).takeWhile (Market.within o)))
      ((offers q.orders (x :: opp)).dropWhile (Market.within o))
      (offers q.orders rest) := by
  have hside := hhit.side
  have hopposite := hhit.opposite
  rw [Int.min_eq_left hle, leftover_none rfl] at hside
  rw [Int.min_eq_left hle] at hopposite
  have hown := hhit.shrinks.offers (s := o.isBuy) (fun _ hy => hy)
  have hother := hhit.shrinks.offers (s := !o.isBuy) (fun _ hy => hy)
  rw [hside] at hown
  rw [hopposite, offers_leftover hlive] at hother
  rw [offers_cons_live hlive, List.takeWhile_cons_of_pos hc,
    List.dropWhile_cons_of_pos hc]
  have htrade := h.hitTrade_eq (Int.min_eq_left hle)
  rcases lt_or_eq_of_le hle with hlt | heq
  · rw [show offer x = ((offer x).1, x.2.quantity) from rfl, serve_of_lt hlt]
    refine ⟨congrArg (fun t => [t]) htrade, ?_, ?_⟩
    · rw [hopposite, hother, if_neg (by omega)]
      simp only [List.cons_append, List.nil_append,
        List.takeWhile_append_dropWhile]
      rfl
    · rw [hside]
      exact hown
  · rw [show offer x = ((offer x).1, o.quantity) by rw [heq]; rfl, serve_of_eq]
    refine ⟨congrArg (fun t => [t]) htrade, ?_, ?_⟩
    · rw [hopposite, hother, if_pos (by omega), List.nil_append,
        List.takeWhile_append_dropWhile]
    · rw [hside]
      exact hown

/-- The walk of an accepted order down the queue opposite serves its demand
from the live orders there. -/
theorem sweep_serves {rest : Queue} {q' : Queues} {next : Nat}
    {mo : OrderMetadata} : ∀ (opp : Queue) (q : Queues) (o : Order)
      (ts : Trades), AtFront q next o mo rest opp → Sweep q ts q' →
      Serves q' ts o
        (serve o.quantity ((offers q.orders opp).takeWhile (Market.within o)))
        ((offers q.orders opp).dropWhile (Market.within o))
        (offers q.orders rest) := by
  intro opp
  induction opp with
  | nil =>
      intro q o ts h hsweep
      cases h.walk hsweep with
      | stop hq hstop =>
          subst hq
          exact h.serves_stop hstop
  | cons x opp ih =>
      intro q o ts h hsweep
      have hlive : ∀ {mx : OrderMetadata}, q.orders x.2.orderId = some mx →
          live q.orders x.2 = !mx.canceled := fun hmx => live_of_some hmx
      cases h.walk hsweep with
      | stop hq hstop =>
          subst hq
          exact h.serves_stop hstop
      | discard hc hmx hcx hs _ h₁ hsweep₁ =>
          have hserves := ih _ o ts h₁ hsweep₁
          rw [h₁.offers_opposite hs, h₁.offers_rest hs] at hserves
          rw [offers_cons_dead (by rw [hlive hmx, hcx]; rfl)]
          exact hserves
      | filled hc hmx hcx hle hhit =>
          exact h.serves_filled (by rw [hlive hmx, hcx]; rfl)
            (decide_eq_true hc) hle hhit
      | @fills _ _ ts₁ _ _ hc hmx hcx hlt hhit _ h₁ hsweep₁ =>
          have hwithin : Market.within o (offer x) = true := decide_eq_true hc
          have hserves := ih _ _ ts₁ h₁ hsweep₁
          rw [h₁.offers_opposite hhit.shrinks, h₁.offers_rest hhit.shrinks]
            at hserves
          rw [offers_cons_live (by rw [hlive hmx, hcx]; rfl),
            List.takeWhile_cons_of_pos hwithin,
            List.dropWhile_cons_of_pos hwithin,
            show offer x = ((offer x).1, x.2.quantity) from rfl,
            serve_of_gt hlt]
          refine ⟨?_, hserves.opposite, hserves.side⟩
          rw [hserves.trades, List.map_cons,
            h.hitTrade_eq (Int.min_eq_right hlt.le)]
          rfl

/-! ## The calls -/

theorem mem_offers_side {book : Orderbook} {i : Id} :
    ((market book).offers true ++ (market book).offers false).any
        (fun x => x.1.orderId = i) = true ↔
      ∃ x ∈ (queues book).resting, live book.orders x.2 = true ∧
        x.2.orderId = i := by
  simp only [List.any_eq_true, List.mem_append, decide_eq_true_eq]
  constructor
  · rintro ⟨y, hy | hy, rfl⟩
    · obtain ⟨x, hx, hlive, rfl⟩ := mem_offers.1 hy
      exact ⟨x, Queues.mem_resting.2 ⟨true, hx⟩, hlive, rfl⟩
    · obtain ⟨x, hx, hlive, rfl⟩ := mem_offers.1 hy
      exact ⟨x, Queues.mem_resting.2 ⟨false, hx⟩, hlive, rfl⟩
  · rintro ⟨x, hx, hlive, rfl⟩
    obtain ⟨s, hs⟩ := Queues.mem_resting.1 hx
    refine ⟨offer x, ?_, rfl⟩
    cases s with
    | true => exact Or.inl (mem_offers.2 ⟨x, hs, hlive, rfl⟩)
    | false => exact Or.inr (mem_offers.2 ⟨x, hs, hlive, rfl⟩)

/-- The keys of `orders_` are the ids the market knows. -/
theorem knows_market {s : Orderbook × Nat} (hs : Inv s)
    (hk : (queues s.1).Keyed) (i : Id) :
    (market s.1).knows i = s.1.orders.contains i := by
  rw [Bool.eq_iff_iff, Market.knows, Bool.or_eq_true, mem_offers_side,
    UnorderedMap.contains_iff]
  constructor
  · rintro (hc | ⟨x, hx, _, rfl⟩)
    · obtain ⟨m, hm, _⟩ := isCanceled_iff.1 hc
      exact ⟨m, hm⟩
    · obtain ⟨b, hb⟩ := Queues.mem_resting.1 hx
      obtain ⟨_, _, m, hm, _⟩ := hs.wf.entry b x hb
      exact ⟨m, hm⟩
  · rintro ⟨m, hm⟩
    cases hmc : m.canceled with
    | true => exact Or.inl (isCanceled_iff.2 ⟨m, hm, hmc⟩)
    | false =>
        right
        rcases hk i m hm with hc | ⟨x, hx, rfl⟩
        · rw [hmc] at hc
          cases hc
        · exact ⟨x, hx, by rw [live_of_some hm, hmc]; rfl, rfl⟩

theorem market_ext {m m' : Market} (hoffers : ∀ s, m.offers s = m'.offers s)
    (hwithdrawn : ∀ i, m.withdrawn i = m'.withdrawn i) : m = m' := by
  obtain ⟨offers, withdrawn⟩ := m
  obtain ⟨offers', withdrawn'⟩ := m'
  rw [Market.mk.injEq]
  exact ⟨funext hoffers, funext hwithdrawn⟩

theorem market_cancel {s : Orderbook × Nat} (hs : Inv s)
    (hk : (queues s.1).Keyed) (orderId : Id) :
    market (s.1.cancelOrder orderId) = (market s.1).cancel orderId := by
  refine market_ext ?_ ?_
  · intro b
    have hlive := live_cancel hs.wf orderId b
    simp only [market, Market.cancel, offers, queues_cancelOrder,
      cancelOrder_orders, List.filter_map]
    have hside : ((queues s.1).cancel orderId).side b = (queues s.1).side b := by
      cases b <;> rfl
    rw [hside]
    exact congrArg (List.map offer) hlive
  · intro i
    show isCanceled (s.1.cancelOrder orderId).orders i =
      (isCanceled s.1.orders i ||
        (decide (i = orderId) && (market s.1).knows orderId))
    rw [knows_market hs hk, cancelOrder_orders, isCanceled, isCanceled,
      markCanceled_apply]
    by_cases heq : i = orderId
    · rw [heq]
      cases hi : s.1.orders orderId with
      | none =>
          rw [UnorderedMap.contains_eq_false.2 hi]
          simp
      | some m =>
          rw [UnorderedMap.contains_iff.2 ⟨m, hi⟩]
          simp
    · simp [heq]

/-- The insertion of a new id changes no other offer. -/
theorem WF.offers_insert {q : Queues} {next : Nat} (hq : WF q next)
    {order : Order} (hfree : q.orders order.orderId = none) (priority : Nat)
    (s : Bool) : offers (q.insert priority order).orders (q.side s) =
      offers q.orders (q.side s) := by
  unfold offers
  rw [List.filter_congr (fun x hx =>
    live_congr (hq.insert_kept hfree priority hx))]

/-- An order that nothing opposite crosses is an offer of its side. -/
theorem WF.offers_side_insert {q : Queues} {next : Nat} (hq : WF q next)
    {order : Order} (hfree : q.orders order.orderId = none) (priority : Nat)
    (s : Bool) :
    offers (q.insert priority order).orders
        ((q.insert priority order).side s) =
      if s = order.isBuy then
        Market.rest order (some order.quantity) (offers q.orders (q.side s))
      else offers q.orders (q.side s) := by
  have hlive : live (q.insert priority order).orders order = true := by
    rw [live, insert_entry]
    rfl
  rw [Queues.side_insert]
  by_cases hs : s = order.isBuy
  · rw [if_pos hs.symm, if_pos hs, ← hq.offers_insert hfree priority s]
    unfold offers
    rw [filter_orderedInsert (a := (order.level, order)) hlive
      (hq.insert_up s (order.level, order)), hs]
    exact List.map_orderedInsert _ _ offer _ (order.level, order)
      (fun _ _ => Iff.rfl) (fun _ _ => Iff.rfl)
  · rw [if_neg (Ne.symm hs), if_neg hs]
    exact hq.offers_insert hfree priority s

/-- What an order accepted by a market does to it. -/
structure Takes (m m' : Market) (order : Order) (trades : Trades) : Prop where
  trades : trades = (m.demand order).taken.map (Market.hit order)
  side : m'.offers order.isBuy =
    Market.rest order (m.demand order).unmet (m.offers order.isBuy)
  opposite : m'.offers (!order.isBuy) = (m.demand order).kept ++
    (m.offers (!order.isBuy)).dropWhile (Market.within order)

/-- An order that crosses nothing is wholly unmet. -/
theorem takes_quiet {book book' : Orderbook} {curr : Nat}
    (hs : Inv (book, curr)) {order : Order}
    (hfree : book.orders order.orderId = none)
    (hc : ∀ y ∈ ((queues book).side (!order.isBuy)).head?,
      ¬ crosses order.isBuy order.level y.1)
    (hq : queues book' = (queues book).insert curr order) :
    Takes (market book) (market book') order [] := by
  obtain ⟨htake, hdrop⟩ : ((market book).offers (!order.isBuy)).takeWhile
        (Market.within order) = [] ∧
      ((market book).offers (!order.isBuy)).dropWhile (Market.within order) =
        (market book).offers (!order.isBuy) := takeWhile_within hs.wf hc
  have hdemand : (market book).demand order = ⟨[], some order.quantity, []⟩ := by
    rw [Market.demand, htake, serve_nil]
  have hoffers : ∀ b, (market book').offers b = if b = order.isBuy then
      Market.rest order (some order.quantity) ((market book).offers b)
      else (market book).offers b := by
    intro b
    have hinsert := hs.wf.offers_side_insert hfree curr b
    rw [← hq] at hinsert
    exact hinsert
  refine ⟨by rw [hdemand]; rfl, ?_, ?_⟩
  · rw [hdemand, hoffers, if_pos rfl]
  · rw [hdemand, hdrop, hoffers, if_neg (by cases order.isBuy <;> simp)]
    rfl

/-- An order that crosses the front opposite is better than all of its side,
so what is unmet of it is at the front. -/
theorem takes_crossing {book book' : Orderbook} {curr : Nat}
    (hs : Inv (book, curr)) {order : Order}
    (hfree : book.orders order.orderId = none)
    (hc : ¬ ∀ y ∈ ((queues book).side (!order.isBuy)).head?,
      ¬ crosses order.isBuy order.level y.1) {trades : Trades}
    (hsweep : Sweep ((queues book).insert curr order) trades (queues book')) :
    Takes (market book) (market book') order trades := by
  have hserves := sweep_serves _ _ order trades (hs.atFront hfree hc) hsweep
  rw [hs.wf.offers_insert hfree curr, hs.wf.offers_insert hfree curr]
    at hserves
  refine ⟨hserves.trades, ?_, hserves.opposite⟩
  have hfront : ∀ x ∈ (market book).offers order.isBuy,
      better order.isBuy order.level x.1.level := by
    intro x hx
    obtain ⟨z, hz, _, rfl⟩ := mem_offers.1 hx
    obtain ⟨y, hy, hcy⟩ : ∃ y ∈ ((queues book).side (!order.isBuy)).head?,
        crosses order.isBuy order.level y.1 := by
      by_contra hno
      exact hc (fun y hy h => hno ⟨y, hy, h⟩)
    exact better_of_crosses hcy ((uncrossed_of_best hs.uncrossed).all hs.wf _ z
      hz y (List.mem_of_mem_head? hy))
  have hside : (market book').offers order.isBuy =
      (((market book).demand order).unmet.map (fun n =>
        ((⟨order.orderId, order.level⟩, n) : Offer × Int))).toList ++
        (market book).offers order.isBuy := hserves.side
  rw [hside]
  cases ((market book).demand order).unmet with
  | none => rfl
  | some n => exact (orderedInsert_of_forall hfront).symm

/-- One call does to the market of a book what it does to the market. -/
theorem step_market {s : Orderbook × Nat} (hs : Inv s)
    (hk : (queues s.1).Keyed) (op : Op) :
    market (step s op).1.1 = ((market s.1).step op).1 ∧
      (step s op).2 = .ok ((market s.1).step op).2 := by
  cases op with
  | cancel orderId => exact ⟨market_cancel hs hk orderId, rfl⟩
  | add order =>
      have hinv := step_inv hs (.add order)
      have hcancel : ∀ i, isCanceled (step s (.add order)).1.1.orders i =
          isCanceled s.1.orders i := by
        intro i
        rw [Bool.eq_iff_iff]
        constructor
        · intro h
          rcases canceled_of_step hs h with h | ⟨h, _⟩
          · exact h
          · cases h
        · exact fun h => (step_canceled hs (.add order) h).1
      obtain ⟨book, curr⟩ := s
      have hknows := knows_market hs hk order.orderId
      simp only [step] at hcancel hinv ⊢
      simp only [Market.step, Market.add]
      cases hc : book.orders.contains order.orderId with
      | true =>
          rw [if_pos (hknows.trans hc), addOrder_rejected hc]
          exact ⟨rfl, rfl⟩
      | false =>
          obtain ⟨book', trades, hadd, hsweep, _, _⟩ := addOrder_spec curr hc
          have hfree := UnorderedMap.contains_eq_false.1 hc
          have htakes : Takes (market book) (market book') order trades := by
            by_cases hcross : ∀ y ∈ ((queues book).side (!order.isBuy)).head?,
                ¬ crosses order.isBuy order.level y.1
            · obtain ⟨rfl, hq⟩ := hsweep.of_uncrossed (uncrossed_insert
                (uncrossed_of_best hs.uncrossed) hcross curr)
              exact takes_quiet hs hfree hcross hq
            · exact takes_crossing hs hfree hcross hsweep
          have hno : ¬ (market book).knows order.orderId = true := by
            rw [hknows, hc]
            exact Bool.false_ne_true
          rw [hadd] at hcancel ⊢
          rw [if_neg hno]
          refine ⟨market_ext ?_ hcancel, congrArg Except.ok htakes.trades⟩
          intro b
          by_cases hb : b = order.isBuy
          · simp only [if_pos hb]
            rw [hb]
            exact htakes.side
          · have hb' : b = !order.isBuy := Bool.eq_not.2 hb
            simp only [if_neg hb]
            rw [hb']
            exact htakes.opposite

theorem reachable_keyed (curr : Nat) (ops : List Op) :
    (queues (runState step (init curr) ops).1).Keyed := by
  have h := runState_invariant (A := fun _ => True)
    (P := fun s => Inv s ∧ (queues s.1).Keyed)
    (fun s op hs _ => ⟨step_inv hs.1 op, step_keyed hs.1 hs.2 op⟩)
    (⟨inv_init curr, fun i m hm => by cases hm⟩ : Inv (init curr) ∧ _)
    (fun op (_ : op ∈ ops) => trivial)
  exact h.2

/-- What ties a run of the book to one of the market. -/
structure IsMarket (s : Orderbook × Nat) (m : Market) : Prop where
  inv : Inv s
  keyed : (queues s.1).Keyed
  eq : market s.1 = m

theorem isMarket_step {s : Orderbook × Nat} {m : Market} (op : Op)
    (h : IsMarket s m) : IsMarket (step s op).1 (m.step op).1 ∧
      (step s op).2 = Except.ok (m.step op).2 := by
  obtain ⟨hs, hk, rfl⟩ := h
  obtain ⟨hmarket, hout⟩ := step_market hs hk op
  exact ⟨⟨step_inv hs op, step_keyed hs hk op, hmarket⟩, hout⟩

/-- **The book is a market**: on every sequence of calls a fresh book returns
from each what the market returns, and it is left with the offers and the
withdrawn ids the market is left with. -/
theorem run_market (curr : Nat) (ops : List Op) :
    runOut step (init curr) ops =
        (runOut Market.step .empty ops).map Except.ok ∧
      market (runState step (init curr) ops).1 =
        runState Market.step .empty ops := by
  have hinit : IsMarket (init curr) .empty := by
    refine ⟨inv_init curr, ?_, ?_⟩
    · intro i m hm
      cases hm
    · exact market_ext (fun s => by cases s <;> rfl) (fun _ => rfl)
  obtain ⟨⟨_, _, hmarket⟩, hout⟩ :=
    run_simulation_map (fun _ _ op h => isMarket_step op h) hinit ops
  exact ⟨hout, hmarket⟩

end LearningCpp.Orderbook
