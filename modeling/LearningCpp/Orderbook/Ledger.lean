import LearningCpp.Orderbook.Reachable

/-!
# Quantity is conserved

Where the quantity of an accepted order goes: into trades that name its id,
into what still rests, and into what was thrown away with it when it was
cancelled and `match` met it. The three add up to what was added, after every
call, until the id is accepted again; from then on the trades that name the id
are the new order's as well.

One call is accounted for by `step_ledger`. Inside it there are two cases that
never mix: a cancelled id is named by no trade and keeps its quantity until it
is discarded, and a live one is never discarded, so every round takes from it
exactly the size of the trade that names it. That both orders of a trade are
named at all rests on their priorities being different.
-/

namespace LearningCpp.Orderbook

open LearningCpp.Lib

/-- Whether a trade names an id. -/
def names (i : Id) (t : Trade) : Bool := t.orderIdA == i || t.orderIdB == i

/-- The quantity traded under an id in some trades. -/
def traded (i : Id) (trades : Trades) : Int :=
  (trades.map (fun t => if names i t then t.size else 0)).sum

/-- The trades of an answer. -/
def answerTrades : Except Fault Trades → Trades
  | .ok trades => trades
  | .error _ => []

/-- The quantity traded under an id in the answers of a run. -/
def tradedOver (i : Id) (answers : List (Except Fault Trades)) : Int :=
  (answers.map (fun a => traded i (answerTrades a))).sum

/-- The remaining quantity stored under an id. -/
def storedQuantity (i : Id) (book : Orderbook) : Int :=
  ((stored book).map (fun o => if o.orderId = i then o.quantity else 0)).sum

def IsStored (i : Id) (book : Orderbook) : Prop :=
  ∃ o ∈ stored book, o.orderId = i

/-- Whether an id is marked as cancelled. -/
def isCanceled (orders : Metadata) (i : Id) : Bool :=
  (orders i).any OrderMetadata.canceled

instance (i : Id) (book : Orderbook) : Decidable (IsStored i book) :=
  inferInstanceAs (Decidable (∃ o ∈ stored book, o.orderId = i))

/-- What a call from `before` to `after` throws away under an id: its
remaining quantity, when it was cancelled and the call took it out. -/
def discarded (i : Id) (before after : Orderbook) : Int :=
  if isCanceled before.orders i ∧ ¬ IsStored i after then
    storedQuantity i before
  else 0

def discardedOver (i : Id) : Orderbook × Nat → List Op → Int
  | _, [] => 0
  | s, op :: ops =>
      discarded i s.1 (step s op).1.1 + discardedOver i (step s op).1 ops

/-- Whether a call is an `AddOrder` of this id that is accepted. -/
def accepts (i : Id) (s : Orderbook × Nat) : Op → Bool
  | .add order => order.orderId == i && !s.1.orders.contains i
  | .cancel _ => false

/-- The calls of a run before the first one that accepts the id. -/
def beforeAccepted (i : Id) : Orderbook × Nat → List Op → List Op
  | _, [] => []
  | s, op :: ops =>
      if accepts i s op then []
      else op :: beforeAccepted i (step s op).1 ops

/-! ## One sweep -/

def qtyIn (i : Id) (l : Queue) : Int :=
  (l.map (fun x => if x.2.orderId = i then x.2.quantity else 0)).sum

@[simp] theorem qtyIn_nil (i : Id) : qtyIn i [] = 0 := rfl

@[simp] theorem qtyIn_cons (i : Id) (x : Int × Order) (l : Queue) :
    qtyIn i (x :: l) =
      (if x.2.orderId = i then x.2.quantity else 0) + qtyIn i l := by
  simp [qtyIn]

@[simp] theorem qtyIn_append (i : Id) (l l' : Queue) :
    qtyIn i (l ++ l') = qtyIn i l + qtyIn i l' := by
  simp [qtyIn]

theorem qtyIn_eq_zero {i : Id} {l : Queue}
    (h : ∀ x ∈ l, x.2.orderId ≠ i) : qtyIn i l = 0 := by
  induction l with
  | nil => rfl
  | cons x l ih =>
      rw [qtyIn_cons, if_neg (h x List.mem_cons_self),
        ih (fun y hy => h y (List.mem_cons_of_mem _ hy)), Int.add_zero]

theorem qtyIn_of_mem {l : Queue} (hl : (l.map (fun x => x.2.orderId)).Nodup)
    {x : Int × Order} (hx : x ∈ l) : qtyIn x.2.orderId l = x.2.quantity := by
  induction l with
  | nil => cases hx
  | cons y l ih =>
      obtain ⟨hy, hl⟩ := List.nodup_cons.1 hl
      rw [qtyIn_cons]
      rcases List.mem_cons.1 hx with rfl | hx
      · rw [if_pos rfl, qtyIn_eq_zero, Int.add_zero]
        intro z hz heq
        exact hy (List.mem_map.2 ⟨z, hz, heq⟩)
      · rw [if_neg, ih hl hx, Int.zero_add]
        intro heq
        exact hy (List.mem_map.2 ⟨x, hx, heq.symm⟩)

theorem qtyIn_perm {i : Id} {l l' : Queue} (h : l.Perm l') :
    qtyIn i l = qtyIn i l' := (h.map _).sum_eq

/-- A filled order leaves nothing, and that is what is left of it. -/
theorem qtyIn_leftover (i : Id) (p : Int) (o : Order) (size : Int) :
    qtyIn i (atPrice p (leftover o size)) =
      if o.orderId = i then o.quantity - size else 0 := by
  unfold leftover
  split
  · next hz => simp [atPrice, hz]
  · simp [atPrice]

@[simp] theorem traded_nil (i : Id) : traded i [] = 0 := rfl

@[simp] theorem traded_cons (i : Id) (t : Trade) (ts : Trades) :
    traded i (t :: ts) = (if names i t then t.size else 0) + traded i ts := by
  simp [traded]

theorem storedQuantity_eq (i : Id) (book : Orderbook) :
    storedQuantity i book = qtyIn i (queues book).resting := by
  rw [storedQuantity, stored_eq, List.map_map]
  rfl

theorem isStored_iff {i : Id} {book : Orderbook} :
    IsStored i book ↔ ∃ x ∈ (queues book).resting, x.2.orderId = i := by
  rw [IsStored, stored_eq]
  constructor
  · rintro ⟨o, ho, hi⟩
    obtain ⟨x, hx, rfl⟩ := List.mem_map.1 ho
    exact ⟨x, hx, hi⟩
  · rintro ⟨x, hx, hi⟩
    exact ⟨x.2, List.mem_map_of_mem hx, hi⟩

theorem storedQuantity_eq_zero {i : Id} {book : Orderbook}
    (h : ¬ IsStored i book) : storedQuantity i book = 0 := by
  rw [storedQuantity_eq]
  refine qtyIn_eq_zero ?_
  intro x hx heq
  exact h (isStored_iff.2 ⟨x, hx, heq⟩)

theorem isCanceled_iff {orders : Metadata} {i : Id} :
    isCanceled orders i = true ↔
      ∃ m, orders i = some m ∧ m.canceled = true := by
  rw [isCanceled]
  cases orders i <;> simp

/-- An order whose flag differs from an id's does not have that id. -/
theorem orderId_ne_of_flag {orders : Metadata} {o : Order} {m : OrderMetadata}
    {i : Id} {b : Bool} (hm : orders o.orderId = some m) (hb : m.canceled = b)
    (hi : isCanceled orders i = !b) : o.orderId ≠ i := by
  rintro rfl
  rw [isCanceled, hm, Option.any_some, hb] at hi
  cases b <;> cases hi

/-- Both orders of a trade are named, and nobody else. -/
theorem names_frontTrade {orders : Metadata} {p p' : Int} {bid ask : Order}
    {bids asks : Queue} {mb ma : OrderMetadata} {next : Nat}
    (hq : WF ⟨(p, bid) :: bids, (p', ask) :: asks, orders⟩ next)
    (hb : orders bid.orderId = some mb) (ha : orders ask.orderId = some ma)
    (i : Id) : names i (frontTrade bid ask mb ma) = true ↔
      bid.orderId = i ∨ ask.orderId = i := by
  have hne : bid.orderId ≠ ask.orderId := hq.front_ne
  have hprio : mb.priority ≠ ma.priority :=
    fun h => hne (hq.unique _ _ mb ma hb ha h)
  simp only [names, frontTrade, Bool.or_eq_true, beq_iff_eq]
  by_cases hlt : mb.priority < ma.priority
  · rw [if_pos hlt, if_neg (by omega)]
  · rw [if_neg hlt, if_pos (by omega), or_comm]

/-- One round: what an id loses it trades, unless it is discarded. -/
theorem round_ledger {p p' : Int} {bid ask : Order} {bids asks : Queue}
    {orders : Metadata} {r : Round} {next : Nat} {i : Id}
    (hq : WF ⟨(p, bid) :: bids, (p', ask) :: asks, orders⟩ next)
    (hr : matchFront orders bid ask = .ok r)
    (hlive : isCanceled orders i = false) :
    qtyIn i (((p, bid) :: bids) ++ ((p', ask) :: asks)) =
      traded i r.trade.toList +
        qtyIn i ((atPrice p r.bid ++ bids) ++ (atPrice p' r.ask ++ asks)) := by
  obtain ⟨_, _, mb, hb, _⟩ := hq.entry true (p, bid) List.mem_cons_self
  obtain ⟨_, _, ma, ha, _⟩ := hq.entry false (p', ask) List.mem_cons_self
  rcases matchFront_cases hb ha hr with ⟨hc, rfl⟩ | ⟨_, hc, rfl⟩ | ⟨_, _, rfl⟩
  · simp [atPrice, orderId_ne_of_flag hb hc hlive]
  · simp [atPrice, orderId_ne_of_flag ha hc hlive]
  · have hne : bid.orderId ≠ ask.orderId := hq.front_ne
    have hnames := names_frontTrade hq hb ha i
    simp only [tradeRound, Option.toList_some, traded_cons, traded_nil,
      qtyIn_append, qtyIn_cons, qtyIn_leftover, hnames]
    simp only [frontTrade]
    by_cases hbi : bid.orderId = i
    · have hai : ask.orderId ≠ i := fun h => hne (hbi.trans h.symm)
      simp only [hbi, hai, or_false, if_true, if_false]
      omega
    · by_cases hai : ask.orderId = i
      · simp only [hbi, hai, or_true, if_true, if_false]
        omega
      · simp only [hbi, hai, or_false, if_false]
        omega

/-- A round never touches the metadata of a cancelled id. -/
theorem round_canceled {p p' : Int} {bid ask : Order} {bids asks : Queue}
    {orders : Metadata} {r : Round} {next : Nat} {i : Id}
    (hq : WF ⟨(p, bid) :: bids, (p', ask) :: asks, orders⟩ next)
    (hr : matchFront orders bid ask = .ok r)
    (hc : isCanceled orders i = true) :
    isCanceled r.orders i = true ∧
      ∀ t ∈ r.trade, names i t = false := by
  obtain ⟨_, _, mb, hb, _⟩ := hq.entry true (p, bid) List.mem_cons_self
  obtain ⟨_, _, ma, ha, _⟩ := hq.entry false (p', ask) List.mem_cons_self
  rcases matchFront_cases hb ha hr with
    ⟨_, rfl⟩ | ⟨_, _, rfl⟩ | ⟨hbc, hac, rfl⟩
  · exact ⟨hc, fun t ht => by cases ht⟩
  · exact ⟨hc, fun t ht => by cases ht⟩
  · have hib := (orderId_ne_of_flag hb hbc hc).symm
    have hia := (orderId_ne_of_flag ha hac hc).symm
    refine ⟨?_, ?_⟩
    · simp only [tradeRound, isCanceled, settle_apply, hib, hia, and_false,
        if_false]
      exact hc
    · intro t ht
      cases ht
      rw [Bool.eq_false_iff]
      intro hn
      rcases (names_frontTrade hq hb ha i).1 hn with h | h
      · exact hib h.symm
      · exact hia h.symm

/-- The account of one sweep for an id that is not cancelled. -/
theorem sweep_ledger {q q' : Queues} {trades : Trades} {next : Nat} {i : Id}
    (h : Sweep q trades q') (hq : WF q next)
    (hlive : isCanceled q.orders i = false) :
    qtyIn i q.resting = traded i trades + qtyIn i q'.resting := by
  induction h with
  | stop _ => simp
  | @round p p' bid ask bids asks orders r trades q' hcross hr _ ih =>
      have hshrink := round_shrinks hq hr
      have hlive' : isCanceled r.orders i = false := by
        rw [isCanceled]
        cases hm : r.orders i with
        | none => rfl
        | some m =>
            rw [isCanceled, hshrink.orders i m hm] at hlive
            exact hlive
      have hround := round_ledger hq hr hlive
      have hrest := ih (hshrink.wf hq) hlive'
      simp only [Queues.resting] at hrest ⊢
      rw [hround, hrest, traded, traded, traded, List.map_append,
        List.sum_append]
      omega

/-- A sweep names no cancelled id and leaves its metadata alone. -/
theorem sweep_canceled {q q' : Queues} {trades : Trades} {next : Nat} {i : Id}
    (h : Sweep q trades q') (hq : WF q next)
    (hc : isCanceled q.orders i = true) :
    isCanceled q'.orders i = true ∧ ∀ t ∈ trades, names i t = false := by
  induction h with
  | stop _ => exact ⟨hc, fun t ht => by cases ht⟩
  | round hcross hr _ ih =>
      obtain ⟨hc', hnames⟩ := round_canceled hq hr hc
      obtain ⟨hc'', hnames'⟩ := ih ((round_shrinks hq hr).wf hq) hc'
      refine ⟨hc'', ?_⟩
      intro t ht
      rcases List.mem_append.1 ht with ht | ht
      · exact hnames t (Option.mem_toList.1 ht)
      · exact hnames' t ht

/-- A cancelled order that still rests is the one that rested before, its
quantity included. -/
theorem sweep_canceled_mem {q q' : Queues} {trades : Trades} {next : Nat}
    {i : Id} (h : Sweep q trades q') (hq : WF q next)
    (hc : isCanceled q.orders i = true) {x : Int × Order}
    (hx : x ∈ q'.resting) (hi : x.2.orderId = i) : x ∈ q.resting := by
  induction h with
  | stop _ => exact hx
  | @round p p' bid ask bids asks orders r trades q' hcross hr _ ih =>
      have hx := ih ((round_shrinks hq hr).wf hq)
        (round_canceled hq hr hc).1 hx
      obtain ⟨_, _, mb, hb, _⟩ := hq.entry true (p, bid) List.mem_cons_self
      obtain ⟨_, _, ma, ha, _⟩ := hq.entry false (p', ask) List.mem_cons_self
      -- What a trade leaves of an order is live, so it is not `x`.
      have hleft : ∀ {p : Int} {o : Order} {m : OrderMetadata} {n : Int},
          orders o.orderId = some m → m.canceled = false →
          x ∉ atPrice p (leftover o n) := by
        intro p o m n hm hmc hmem
        have hne := orderId_ne_of_flag hm hmc hc
        rw [(mem_atPrice_leftover hmem).2] at hi
        exact hne hi
      simp only [Queues.resting, List.mem_append, List.mem_cons] at hx ⊢
      rcases matchFront_cases hb ha hr with
        ⟨_, rfl⟩ | ⟨_, _, rfl⟩ | ⟨hbc, hac, rfl⟩
      · rcases hx with (hx | hx) | (hx | hx)
        · cases hx
        · exact Or.inl (Or.inr hx)
        · exact Or.inr (Or.inl (List.mem_singleton.1 hx))
        · exact Or.inr (Or.inr hx)
      · rcases hx with (hx | hx) | (hx | hx)
        · exact Or.inl (Or.inl (List.mem_singleton.1 hx))
        · exact Or.inl (Or.inr hx)
        · cases hx
        · exact Or.inr (Or.inr hx)
      · rcases hx with (hx | hx) | (hx | hx)
        · exact absurd hx (hleft hb hbc)
        · exact Or.inl (Or.inr hx)
        · exact absurd hx (hleft ha hac)
        · exact Or.inr (Or.inr hx)

/-- A sweep trades nothing of a cancelled order: it keeps it as it is or
discards it. -/
theorem sweep_discarded {q : Queues} {book' : Orderbook} {trades : Trades}
    {next : Nat} {i : Id} (h : Sweep q trades (queues book'))
    (hq : WF q next) (hc : isCanceled q.orders i = true) :
    qtyIn i q.resting = traded i trades + storedQuantity i book' +
      if IsStored i book' then 0 else qtyIn i q.resting := by
  have htraded : traded i trades = 0 := by
    rw [traded, List.sum_eq_zero]
    intro n hn
    obtain ⟨t, ht, rfl⟩ := List.mem_map.1 hn
    rw [(sweep_canceled h hq hc).2 t ht]
    rfl
  rw [htraded, Int.zero_add]
  split
  · next hst =>
      obtain ⟨x, hx, rfl⟩ := isStored_iff.1 hst
      rw [Int.add_zero, storedQuantity_eq,
        qtyIn_of_mem hq.ids (sweep_canceled_mem h hq hc hx rfl),
        qtyIn_of_mem ((sweep_shrinks h hq).wf hq).ids hx]
  · next hst => rw [storedQuantity_eq_zero hst, Int.zero_add]

/-! ## One call -/

/-- A call that leaves the deques alone changes no account. -/
theorem ledger_same {i : Id} {book book' : Orderbook}
    (hrest : (queues book').resting = (queues book).resting) :
    storedQuantity i book =
      storedQuantity i book' + discarded i book book' := by
  have hq : storedQuantity i book' = storedQuantity i book := by
    rw [storedQuantity_eq, storedQuantity_eq, hrest]
  rw [discarded]
  split
  · next h => rw [← hq, storedQuantity_eq_zero h.2, Int.add_zero]
  · rw [hq, Int.add_zero]

/-- What one call does to the account of an id it does not accept. -/
theorem step_ledger {s : Orderbook × Nat} (hs : Inv s) {op : Op} {i : Id}
    (hop : accepts i s op = false) :
    storedQuantity i s.1 =
      traded i (answerTrades (step s op).2) +
        storedQuantity i (step s op).1.1 + discarded i s.1 (step s op).1.1 := by
  obtain ⟨book, curr⟩ := s
  cases op with
  | cancel orderId =>
      rw [step, answerTrades, traded_nil, Int.zero_add]
      refine ledger_same ?_
      rw [queues_cancelOrder]
      rfl
  | add order =>
      simp only [step]
      cases hc : book.orders.contains order.orderId with
      | true =>
          rw [addOrder_rejected hc, answerTrades, traded_nil, Int.zero_add]
          exact ledger_same rfl
      | false =>
          have hne : order.orderId ≠ i := by
            rintro rfl
            simp [accepts, hc] at hop
          have hwf := hs.wf.insert (UnorderedMap.contains_eq_false.1 hc)
          obtain ⟨book', trades, hadd, hsweep, _, _⟩ := addOrder_spec curr hc
          rw [hadd, answerTrades]
          have hbefore : storedQuantity i book =
              qtyIn i ((queues book).insert curr order).resting := by
            rw [storedQuantity_eq, qtyIn_perm (resting_insert_perm _ _ _),
              qtyIn_cons, if_neg hne, Int.zero_add]
          have hflag : isCanceled ((queues book).insert curr order).orders i =
              isCanceled book.orders i := by
            rw [isCanceled, Queues.insert_orders, UnorderedMap.set_apply,
              if_neg hne.symm]
            rfl
          cases hcan : isCanceled book.orders i with
          | false =>
              rw [discarded, hcan, if_neg (by simp), Int.add_zero, hbefore,
                storedQuantity_eq]
              exact sweep_ledger hsweep hwf (by rw [hflag, hcan])
          | true =>
              have hledger := sweep_discarded hsweep hwf (hflag.trans hcan)
              rw [← hbefore] at hledger
              rw [discarded, hcan]
              by_cases hst : IsStored i book'
              · rw [if_pos hst] at hledger
                rw [if_neg (fun h => h.2 hst)]
                exact hledger
              · rw [if_neg hst] at hledger
                rw [if_pos ⟨rfl, hst⟩]
                exact hledger

/-- What the call that accepts an order does to its account. -/
theorem step_accept_ledger {s : Orderbook × Nat} (hs : Inv s) {order : Order}
    (hfree : s.1.orders.contains order.orderId = false) :
    order.quantity =
      traded order.orderId (answerTrades (step s (.add order)).2) +
        storedQuantity order.orderId (step s (.add order)).1.1 := by
  obtain ⟨book, curr⟩ := s
  have hnone := UnorderedMap.contains_eq_false.1 hfree
  have hwf := hs.wf.insert hnone
  obtain ⟨book', trades, hadd, hsweep, _, _⟩ := addOrder_spec curr hfree
  simp only [step, hadd, answerTrades]
  have hlive : isCanceled ((queues book).insert curr order).orders
      order.orderId = false := by
    rw [isCanceled, insert_entry]
    rfl
  have hbefore : qtyIn order.orderId
      ((queues book).insert curr order).resting = order.quantity := by
    rw [qtyIn_perm (resting_insert_perm _ _ _), qtyIn_cons, if_pos rfl,
      qtyIn_eq_zero, Int.add_zero]
    intro x hx
    obtain ⟨b, hb⟩ := Queues.mem_resting.1 hx
    exact hs.wf.orderId_ne hnone hb
  rw [← hbefore, storedQuantity_eq]
  exact sweep_ledger hsweep hwf hlive

/-- Once cancelled an id stays cancelled, and no call names it. -/
theorem step_canceled {s : Orderbook × Nat} (hs : Inv s) (op : Op) {i : Id}
    (hc : isCanceled s.1.orders i = true) :
    isCanceled (step s op).1.1.orders i = true ∧
      ∀ t ∈ answerTrades (step s op).2, names i t = false := by
  obtain ⟨book, curr⟩ := s
  obtain ⟨m, hm, hmc⟩ := isCanceled_iff.1 hc
  cases op with
  | cancel orderId =>
      refine ⟨?_, fun t ht => by cases ht⟩
      simp only [step, cancelOrder_orders]
      refine isCanceled_iff.2 ⟨if i = orderId then { m with canceled := true }
        else m, ?_, ?_⟩
      · rw [markCanceled_apply]
        simp only [] at hm
        rw [hm, Option.map_some]
      · split
        · rfl
        · exact hmc
  | add order =>
      simp only [step]
      cases hin : book.orders.contains order.orderId with
      | true =>
          rw [addOrder_rejected hin]
          exact ⟨hc, fun t ht => by cases ht⟩
      | false =>
          have hnone := UnorderedMap.contains_eq_false.1 hin
          have hne : i ≠ order.orderId := by
            rintro rfl
            rw [hnone] at hm
            cases hm
          obtain ⟨book', trades, hadd, hsweep, _, _⟩ := addOrder_spec curr hin
          rw [hadd]
          refine sweep_canceled hsweep (hs.wf.insert hnone) ?_
          rw [isCanceled, Queues.insert_orders, UnorderedMap.set_apply,
            if_neg hne]
          exact hc

/-! ## Every run -/

/-- The account of a run, up to the next time the id is accepted. -/
theorem run_ledger (i : Id) (ops : List Op) : ∀ {s : Orderbook × Nat}, Inv s →
    storedQuantity i s.1 =
      tradedOver i (runOut step s (beforeAccepted i s ops)) +
        storedQuantity i (runState step s (beforeAccepted i s ops)).1 +
        discardedOver i s (beforeAccepted i s ops) := by
  induction ops with
  | nil => intro s _; simp [beforeAccepted, tradedOver, discardedOver]
  | cons op ops ih =>
      intro s hs
      rw [beforeAccepted]
      split
      · simp [tradedOver, discardedOver]
      · next hacc =>
          have hstep := step_ledger hs (by simpa using hacc)
          have hrest := ih (step_inv hs op)
          rw [runOut_cons, runState_cons, discardedOver, tradedOver,
            List.map_cons, List.sum_cons]
          rw [tradedOver] at hrest
          omega

/-- What was never cancelled was never thrown away. -/
theorem discardedOver_eq_zero {i : Id} {ops : List Op} :
    ∀ {s : Orderbook × Nat}, Inv s →
      isCanceled (runState step s ops).1.orders i = false →
      discardedOver i s ops = 0 := by
  induction ops with
  | nil => intro s _ _; rfl
  | cons op ops ih =>
      intro s hs hend
      rw [discardedOver, ih (step_inv hs op) hend, Int.add_zero, discarded,
        if_neg]
      rintro ⟨hc, _⟩
      have hlast := runState_invariant (A := fun _ => True)
        (P := fun s => Inv s ∧ isCanceled s.1.orders i = true)
        (fun s op h _ => ⟨step_inv h.1 op, (step_canceled h.1 op h.2).1⟩)
        (⟨hs, hc⟩ : Inv s ∧ _) (fun o (_ : o ∈ op :: ops) => trivial)
      rw [hend] at hlast
      cases hlast.2

theorem sweep_size {q q' : Queues} {trades : Trades} {next : Nat}
    (h : Sweep q trades q') (hq : WF q next) (hpos : q.Positive) :
    ∀ t ∈ trades, 1 ≤ t.size := by
  induction h with
  | stop _ => intro t ht; cases ht
  | @round p p' bid ask bids asks orders r trades q' hcross hr _ ih =>
      have hrest := ih ((round_shrinks hq hr).wf hq) (round_positive hq hpos hr)
      obtain ⟨_, _, mb, hb, _⟩ := hq.entry true (p, bid) List.mem_cons_self
      obtain ⟨_, _, ma, ha, _⟩ := hq.entry false (p', ask) List.mem_cons_self
      have hbid : 0 < bid.quantity :=
        hpos (p, bid) (Queues.mem_resting.2 ⟨true, List.mem_cons_self⟩)
      have hask : 0 < ask.quantity :=
        hpos (p', ask) (Queues.mem_resting.2 ⟨false, List.mem_cons_self⟩)
      intro t ht
      rcases List.mem_append.1 ht with ht | ht
      · rcases matchFront_cases hb ha hr with
          ⟨_, rfl⟩ | ⟨_, _, rfl⟩ | ⟨_, _, rfl⟩
        · cases ht
        · cases ht
        · rw [List.mem_singleton.1 ht]
          simp only [frontTrade]
          omega
      · exact hrest t ht

theorem step_size {s : Orderbook × Nat} (hs : Inv s)
    (hpos : (queues s.1).Positive) {op : Op} (hop : op.Positive) :
    ∀ t ∈ answerTrades (step s op).2, 1 ≤ t.size := by
  obtain ⟨book, curr⟩ := s
  cases op with
  | cancel orderId => intro t ht; cases ht
  | add order =>
      simp only [step]
      cases hc : book.orders.contains order.orderId with
      | true =>
          rw [addOrder_rejected hc]
          intro t ht; cases ht
      | false =>
          have hwf := hs.wf.insert (UnorderedMap.contains_eq_false.1 hc)
          obtain ⟨book', trades, hadd, hsweep, _, _⟩ := addOrder_spec curr hc
          rw [hadd]
          exact sweep_size hsweep hwf (positive_insert hpos curr hop)

theorem run_size {ops : List Op} : ∀ {s : Orderbook × Nat}, Inv s →
    (queues s.1).Positive → (∀ op ∈ ops, op.Positive) →
    ∀ answer ∈ runOut step s ops, ∀ t ∈ answerTrades answer, 1 ≤ t.size := by
  induction ops with
  | nil => intro s _ _ _ answer ha; cases ha
  | cons op ops ih =>
      intro s hs hpos hops answer ha
      have hop := hops op List.mem_cons_self
      rcases List.mem_cons.1 ha with rfl | ha
      · exact step_size hs hpos hop
      · exact ih (step_inv hs op) (step_positive hs hpos hop)
          (fun o ho => hops o (List.mem_cons_of_mem _ ho)) answer ha

theorem storedQuantity_nonneg {i : Id} {book : Orderbook}
    (h : (queues book).Positive) : 0 ≤ storedQuantity i book := by
  rw [storedQuantity_eq, qtyIn]
  refine List.sum_nonneg ?_
  intro n hn
  obtain ⟨x, hx, rfl⟩ := List.mem_map.1 hn
  have := h x hx
  split <;> omega

theorem discardedOver_nonneg {i : Id} {ops : List Op} :
    ∀ {s : Orderbook × Nat}, Inv s → (queues s.1).Positive →
      (∀ op ∈ ops, op.Positive) → 0 ≤ discardedOver i s ops := by
  induction ops with
  | nil => intro s _ _ _; exact Int.le_refl 0
  | cons op ops ih =>
      intro s hs hpos hops
      have hrest := ih (step_inv hs op)
        (step_positive hs hpos (hops op List.mem_cons_self))
        (fun o ho => hops o (List.mem_cons_of_mem _ ho))
      have hnow : 0 ≤ discarded i s.1 (step s op).1.1 := by
        rw [discarded]
        split
        · exact storedQuantity_nonneg hpos
        · exact Int.le_refl 0
      rw [discardedOver]
      omega

theorem beforeAccepted_subset (i : Id) (ops : List Op) :
    ∀ s : Orderbook × Nat, ∀ op ∈ beforeAccepted i s ops, op ∈ ops := by
  induction ops with
  | nil => intro s op h; cases h
  | cons o ops ih =>
      intro s op h
      rw [beforeAccepted] at h
      split at h
      · cases h
      · rcases List.mem_cons.1 h with rfl | h
        · exact List.mem_cons_self
        · exact List.mem_cons_of_mem _ (ih _ op h)

/-- A cancelled id is named by no answer of the calls that follow. -/
theorem run_canceled {s : Orderbook × Nat} (hs : Inv s) {i : Id}
    (hc : isCanceled s.1.orders i = true) (ops : List Op) :
    ∀ answer ∈ runOut step s ops, ∀ t ∈ answerTrades answer,
      names i t = false :=
  runOut_invariant (P := fun s => Inv s ∧ isCanceled s.1.orders i = true)
    (Q := fun answer => ∀ t ∈ answerTrades answer, names i t = false)
    (fun _ op h => ⟨⟨step_inv h.1 op, (step_canceled h.1 op h.2).1⟩,
      (step_canceled h.1 op h.2).2⟩) ⟨hs, hc⟩ ops

/-- The account of an accepted order after any further calls `post`, `w` being
those of them that come before its id is accepted again. -/
theorem order_ledger (curr : Nat) (pre : List Op) (order : Order)
    (post : List Op)
    (hpos : ∀ o, .add o ∈ pre ++ .add order :: post → 0 < o.quantity)
    (hfree : (runState step (init curr) pre).1.orders.contains
      order.orderId = false) :
    let i := order.orderId
    let s := runState step (init curr) pre
    let s₁ := (step s (.add order)).1
    let w := beforeAccepted i s₁ post
    let filled := traded i (answerTrades (step s (.add order)).2) +
      tradedOver i (runOut step s₁ w)
    order.quantity = filled + storedQuantity i (runState step s₁ w).1 +
        discardedOver i s₁ w ∧
      filled ≤ order.quantity ∧
      (¬ IsStored i (runState step s₁ w).1 →
        isCanceled (runState step s₁ w).1.orders i = false →
        filled = order.quantity) ∧
      (∀ answer ∈ runOut step (init curr) (pre ++ .add order :: post),
        ∀ t ∈ answerTrades answer, 1 ≤ t.size) ∧
      (∀ post₁ post₂, post = post₁ ++ .cancel i :: post₂ →
        (runState step s₁ post₁).1.orders.contains i = true →
        ∀ answer ∈ runOut step (runState step s₁ (post₁ ++ [.cancel i])) post₂,
          ∀ t ∈ answerTrades answer, names i t = false) := by
  intro i s s₁ w filled
  have hops : ∀ op ∈ pre ++ .add order :: post, op.Positive := by
    intro op hop
    cases op with
    | add o => exact hpos o hop
    | cancel _ => trivial
  have hs : Inv s := reachable_inv curr pre
  have hs₁ : Inv s₁ := step_inv hs (.add order)
  have hp : (queues s.1).Positive := reachable_positive curr
    (fun op hop => hops op (List.mem_append_left _ hop))
  have hp₁ : (queues s₁.1).Positive := step_positive hs hp
    (hops _ (List.mem_append_right _ List.mem_cons_self))
  have hw : ∀ op ∈ w, op.Positive := fun op hop => hops op
    (List.mem_append_right _ (List.mem_cons_of_mem _
      (beforeAccepted_subset i post s₁ op hop)))
  have hend : (queues (runState step s₁ w).1).Positive := by
    have h := runState_invariant (A := Op.Positive)
      (P := fun s => Inv s ∧ (queues s.1).Positive)
      (fun s op h hop => ⟨step_inv h.1 op, step_positive h.1 h.2 hop⟩)
      (⟨hs₁, hp₁⟩ : Inv s₁ ∧ _) hw
    exact h.2
  have haccount : order.quantity = filled +
      storedQuantity i (runState step s₁ w).1 + discardedOver i s₁ w := by
    have haccept := step_accept_ledger hs hfree
    have hrun := run_ledger i post hs₁
    simp only [filled, w, s₁, i] at hrun ⊢
    omega
  refine ⟨haccount, ?_, ?_, ?_, ?_⟩
  · have hst := storedQuantity_nonneg (i := i) hend
    have hdis := discardedOver_nonneg (i := i) hs₁ hp₁ hw
    omega
  · intro hst hcan
    have hdis := discardedOver_eq_zero hs₁ hcan
    have hzero := storedQuantity_eq_zero hst
    omega
  · exact run_size (inv_init curr) (fun x hx => by cases hx) hops
  · intro post₁ post₂ _ hin
    rw [runState_concat]
    have hmid : Inv (runState step s₁ post₁) :=
      runState_invariant (P := Inv) (A := fun _ => True)
        (fun _ op h _ => step_inv h op) hs₁ (fun _ _ => trivial)
    refine run_canceled (step_inv hmid _) ?_ post₂
    obtain ⟨m, hm⟩ := UnorderedMap.contains_iff.1 hin
    simp [step, isCanceled, cancelOrder_orders, markCanceled_apply, hm]

/-- Buying 5, two of them at once and two more from a later order, and then
cancelled: the last one is discarded when a third order reaches it. -/
theorem order_ledger_discarded :
    let order : Order := ⟨1, 10, true, 5⟩
    let post : List Op :=
      [.add ⟨3, 10, false, 2⟩, .cancel 1, .add ⟨4, 10, false, 1⟩]
    let s := runState step (init 0) [.add ⟨2, 10, false, 2⟩]
    let s₁ := (step s (.add order)).1
    let w := beforeAccepted 1 s₁ post
    let filled := traded 1 (answerTrades (step s (.add order)).2) +
      tradedOver 1 (runOut step s₁ w)
    (filled = 4 ∧ storedQuantity 1 (runState step s₁ w).1 = 0 ∧
      discardedOver 1 s₁ w = 1) ∧
      order.quantity = filled + storedQuantity 1 (runState step s₁ w).1 +
        discardedOver 1 s₁ w := by
  refine ⟨by decide, ?_⟩
  exact (order_ledger 0 [.add ⟨2, 10, false, 2⟩] ⟨1, 10, true, 5⟩
    [.add ⟨3, 10, false, 2⟩, .cancel 1, .add ⟨4, 10, false, 1⟩]
    (by simp) (by decide)).1

/-- With the trades after a second acceptance counted in, the account of the
first fails: the id names two orders. -/
theorem order_ledger_reaccepted :
    ¬ ∀ (curr : Nat) (pre : List Op) (order : Order) (post : List Op),
      (∀ o, .add o ∈ pre ++ .add order :: post → 0 < o.quantity) →
      (runState step (init curr) pre).1.orders.contains order.orderId = false →
      order.quantity =
        traded order.orderId (answerTrades
          (step (runState step (init curr) pre) (.add order)).2) +
        tradedOver order.orderId (runOut step
          (step (runState step (init curr) pre) (.add order)).1 post) +
        storedQuantity order.orderId (runState step
          (step (runState step (init curr) pre) (.add order)).1 post).1 +
        discardedOver order.orderId
          (step (runState step (init curr) pre) (.add order)).1 post := by
  intro h
  have h₁ := h 0 [] ⟨1, 10, true, 1⟩ [.add ⟨2, 10, false, 1⟩,
    .add ⟨1, 10, true, 1⟩, .add ⟨3, 10, false, 1⟩] (by simp) (by decide)
  exact absurd h₁ (by decide)

end LearningCpp.Orderbook
