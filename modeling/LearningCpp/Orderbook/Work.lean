import LearningCpp.Lib.Amortized
import LearningCpp.Orderbook.Ledger

/-!
# What matching costs

How often the two loops of `match` go round, on any run. A round of the inner
loop takes at least one order out of the book, whether it trades or throws a
cancelled order away, because a fill takes the smaller of the two quantities;
and a round of the outer loop takes out at least one level. An order comes in
with at most one level, so an `AddOrder` that goes round often has been paid for
by the orders it takes out, and over a run both loops together go round at most
twice for each order that was accepted, whatever the quantities and however the
cancellations fall.
-/

namespace LearningCpp.Orderbook

open LearningCpp.Lib

/-- How often the inner loop of `match` goes round. -/
def levelRounds : Nat → LevelState → ℕ
  | fuel, s =>
    match s.bidsAtPrice, s.asksAtPrice with
    | bid :: bids, ask :: asks =>
      match fuel with
      | 0 => 0
      | fuel + 1 =>
        match matchFront s.orders bid ask with
        | .error _ => 1
        | .ok r =>
          1 + levelRounds fuel
            { bidsAtPrice := r.bid.toList ++ bids
              asksAtPrice := r.ask.toList ++ asks
              orders := r.orders
              trades := s.trades ++ r.trade.toList }
    | _, _ => 0

/-- How often the outer loop of `match` goes round, and how often the inner one
does in all of them. -/
def loopRounds : Nat → Orderbook → Trades → ℕ × ℕ
  | fuel, book, trades =>
    match book.bids.front?, book.asks.front? with
    | some (bidPrice, bidsAtPrice), some (askPrice, asksAtPrice) =>
      if bidPrice < askPrice then (0, 0)
      else
        match fuel with
        | 0 => (0, 0)
        | fuel + 1 =>
          let inner := levelRounds (bidsAtPrice.length + asksAtPrice.length)
            ⟨bidsAtPrice, asksAtPrice, book.orders, trades⟩
          match matchLevel (bidsAtPrice.length + asksAtPrice.length)
              ⟨bidsAtPrice, asksAtPrice, book.orders, trades⟩ with
          | .error _ => (1, inner)
          | .ok s =>
            let bids :=
              if s.bidsAtPrice.isEmpty then
                (book.bids.setFront s.bidsAtPrice).erase bidPrice
              else book.bids.setFront s.bidsAtPrice
            let asks :=
              if s.asksAtPrice.isEmpty then
                (book.asks.setFront s.asksAtPrice).erase askPrice
              else book.asks.setFront s.asksAtPrice
            let rest := loopRounds fuel ⟨bids, asks, s.orders⟩ s.trades
            (1 + rest.1, inner + rest.2)
    | _, _ => (0, 0)

/-- The rounds of `match`, outer and inner. -/
def matchRounds (book : Orderbook) : ℕ × ℕ :=
  loopRounds (book.bids.entries.length + book.asks.entries.length) book []

/-- The rounds of a call. -/
def rounds (s : Orderbook × Nat) : Op → ℕ × ℕ
  | .add order =>
    if s.1.orders.contains order.orderId then (0, 0)
    else matchRounds (s.1.insertOrder s.2 order)
  | .cancel _ => (0, 0)

/-- The orders in the book, cancelled ones too. -/
def orderCount (book : Orderbook) : ℕ :=
  book.bids.flat.length + book.asks.flat.length

def levelCount (book : Orderbook) : ℕ :=
  book.bids.entries.length + book.asks.entries.length

/-- One for an `AddOrder` that is accepted. -/
def acceptedOrders (s : Orderbook × Nat) : Op → ℕ
  | .add order => if s.1.orders.contains order.orderId then 0 else 1
  | .cancel _ => 0

/-! ## One call of `match` -/

theorem levelRounds_stop {fuel : Nat} {s : LevelState}
    (h : s.bidsAtPrice = [] ∨ s.asksAtPrice = []) :
    matchLevel fuel s = .ok s ∧ levelRounds fuel s = 0 := by
  obtain ⟨bq, aq, orders, done⟩ := s
  rcases bq with _ | ⟨bid, bq⟩
  · exact ⟨by rw [matchLevel], by rw [levelRounds]⟩
  · rcases aq with _ | ⟨ask, aq⟩
    · exact ⟨by rw [matchLevel], by rw [levelRounds]⟩
    · rcases h with h | h <;> cases h

/-- Each round takes an order out of the two deques and makes one trade at
most. -/
theorem levelRounds_le {fuel : Nat} : ∀ {s s' : LevelState},
    matchLevel fuel s = .ok s' →
    levelRounds fuel s + (s'.bidsAtPrice.length + s'.asksAtPrice.length) ≤
        s.bidsAtPrice.length + s.asksAtPrice.length ∧
      s'.trades.length ≤ s.trades.length + levelRounds fuel s := by
  induction fuel with
  | zero =>
      intro s s' h
      by_cases hstop : s.bidsAtPrice = [] ∨ s.asksAtPrice = []
      · have hhalt : matchLevel 0 s = .ok s ∧ levelRounds 0 s = 0 :=
          levelRounds_stop hstop
        obtain ⟨hs, hrounds⟩ := hhalt
        rw [hs] at h
        cases h
        omega
      · obtain ⟨bq, aq, orders, done⟩ := s
        rcases bq with _ | ⟨bid, bq⟩
        · exact absurd (.inl rfl) hstop
        · rcases aq with _ | ⟨ask, aq⟩
          · exact absurd (.inr rfl) hstop
          · rw [matchLevel] at h
            cases h
  | succ fuel ih =>
      intro s s' h
      by_cases hstop : s.bidsAtPrice = [] ∨ s.asksAtPrice = []
      · have hhalt : matchLevel (fuel + 1) s = .ok s ∧
            levelRounds (fuel + 1) s = 0 := levelRounds_stop hstop
        obtain ⟨hs, hrounds⟩ := hhalt
        rw [hs] at h
        cases h
        omega
      · obtain ⟨bq, aq, orders, done⟩ := s
        rcases bq with _ | ⟨bid, bq⟩
        · exact absurd (.inl rfl) hstop
        rcases aq with _ | ⟨ask, aq⟩
        · exact absurd (.inr rfl) hstop
        obtain ⟨r, hr, hpop⟩ := matchFront_ok orders bid ask
        rw [matchLevel] at h
        simp only [hr] at h
        obtain ⟨hcount, htrades⟩ := ih h
        have hb := length_option_toList_le r.bid
        have ha := length_option_toList_le r.ask
        have ht : r.trade.toList.length ≤ 1 := by cases r.trade <;> simp
        have hout : r.bid.toList.length + r.ask.toList.length ≤ 1 := by
          rcases hpop with hnone | hnone
          · rw [hnone, Option.toList_none, List.length_nil]
            omega
          · rw [hnone, Option.toList_none, List.length_nil]
            omega
        simp only [List.length_append] at hcount htrades
        rw [levelRounds]
        simp only [hr, List.length_cons]
        constructor
        · omega
        · omega

theorem orderCount_of_entries {book : Orderbook} {p p' : Int}
    {bq aq : List Order} {brest arest : List (Int × List Order)}
    (hb : book.bids.entries = (p, bq) :: brest)
    (ha : book.asks.entries = (p', aq) :: arest) :
    orderCount book = (bq.length + aq.length) +
      ((flatEntries brest).length + (flatEntries arest).length) := by
  rw [orderCount, SortedMap.length_flat hb, SortedMap.length_flat ha]
  omega

/-- Each round of the outer loop takes a level out of the book, each of the
inner one an order. -/
theorem loopRounds_le {fuel : Nat} : ∀ {book book' : Orderbook}
    {done trades : Trades},
    matchLoop fuel book done = .ok (book', trades) →
    (loopRounds fuel book done).1 + levelCount book' ≤ levelCount book ∧
      (loopRounds fuel book done).2 + orderCount book' ≤ orderCount book ∧
      trades.length ≤ done.length + (loopRounds fuel book done).2 := by
  induction fuel with
  | zero =>
      intro book book' done trades h
      rw [matchLoop] at h
      rw [loopRounds]
      rcases hb : book.bids.front? with _ | ⟨p, bq⟩
      · rw [hb] at h
        cases h
        simp
      rcases ha : book.asks.front? with _ | ⟨p', aq⟩
      · rw [hb, ha] at h
        cases h
        simp
      rw [hb, ha] at h
      simp only [] at h ⊢
      split at h
      · next hlt =>
          cases h
          rw [if_pos hlt]
          simp
      · cases h
  | succ fuel ih =>
      intro book book' done trades h
      rw [matchLoop] at h
      rw [loopRounds]
      rcases hb : book.bids.front? with _ | ⟨p, bq⟩
      · rw [hb] at h
        cases h
        simp
      rcases ha : book.asks.front? with _ | ⟨p', aq⟩
      · rw [hb, ha] at h
        cases h
        simp
      rw [hb, ha] at h
      simp only [] at h ⊢
      split at h
      · next hlt =>
          cases h
          rw [if_pos hlt]
          simp
      · next hlt =>
          rw [if_neg hlt]
          obtain ⟨s, -, hs, hend, -, -⟩ :=
            matchLevel_sweep (bq.length + aq.length)
              ⟨bq, aq, book.orders, done⟩ (Nat.le_refl _)
          obtain ⟨hcount, hmade⟩ := levelRounds_le hs
          simp only [] at hcount hmade
          obtain ⟨brest, hbrest⟩ := List.head?_eq_some_iff.1 hb
          obtain ⟨arest, harest⟩ := List.head?_eq_some_iff.1 ha
          simp only [hs] at h ⊢
          generalize hm : (if s.bidsAtPrice.isEmpty then
            (book.bids.setFront s.bidsAtPrice).erase p
            else book.bids.setFront s.bidsAtPrice) = bids at h ⊢
          generalize hn : (if s.asksAtPrice.isEmpty then
            (book.asks.setFront s.asksAtPrice).erase p'
            else book.asks.setFront s.asksAtPrice) = asks at h ⊢
          obtain ⟨hbflat, hblen, hbnil, -⟩ := writeBack_spec hbrest hm.symm
          obtain ⟨haflat, halen, hanil, -⟩ := writeBack_spec harest hn.symm
          obtain ⟨hlevels, horders, htrades⟩ := ih h
          have hstored : orderCount ⟨bids, asks, s.orders⟩ =
              (s.bidsAtPrice.length + s.asksAtPrice.length) +
                ((flatEntries brest).length +
                  (flatEntries arest).length) := by
            rw [orderCount, hbflat, haflat, List.length_append,
              List.length_append, List.length_map, List.length_map]
            omega
          have hgone : levelCount ⟨bids, asks, s.orders⟩ + 1 ≤
              levelCount book := by
            unfold levelCount
            -- One of the two deques is empty, so its level is gone.
            rcases hend with hnil | hnil
            · have := hbnil hnil
              simp only []
              omega
            · have := hanil hnil
              simp only []
              omega
          have hbefore := orderCount_of_entries hbrest harest
          refine ⟨by omega, by omega, by omega⟩

/-! ## One call -/

/-- `operator[]` makes one entry at most. -/
theorem length_upsertEntries_le {κ β : Type*} (r : κ → κ → Prop)
    [DecidableRel r] (k : κ) (f : Option β → β) (l : List (κ × β)) :
    (upsertEntries r k f l).length ≤ l.length + 1 := by
  induction l with
  | nil => simp [upsertEntries]
  | cons x rest ih =>
      obtain ⟨k', v⟩ := x
      rw [upsertEntries]
      split
      · simp
      · split
        · simp only [List.length_cons]
          omega
        · simp

theorem orderCount_insert (book : Orderbook) (priority : Nat) (order : Order) :
    orderCount (book.insertOrder priority order) = orderCount book + 1 := by
  unfold orderCount insertOrder
  cases order.isBuy with
  | true =>
      simp only [if_true, SortedMap.flat_pushBack, List.orderedInsert_length]
      omega
  | false =>
      simp only [Bool.false_eq_true, if_false, SortedMap.flat_pushBack,
        List.orderedInsert_length]
      omega

theorem levelCount_insert (book : Orderbook) (priority : Nat) (order : Order) :
    levelCount (book.insertOrder priority order) ≤ levelCount book + 1 := by
  unfold levelCount insertOrder
  cases order.isBuy with
  | true =>
      have := length_upsertEntries_le (fun p q : Int => p > q) order.level
        (fun q : Option (List Order) => q.getD [] ++ [order]) book.bids.entries
      simp only [if_true, SortedMap.pushBack, SortedMap.upsert]
      omega
  | false =>
      have := length_upsertEntries_le (fun p q : Int => p < q) order.level
        (fun q : Option (List Order) => q.getD [] ++ [order]) book.asks.entries
      simp only [Bool.false_eq_true, if_false, SortedMap.pushBack,
        SortedMap.upsert]
      omega

/-- What a call costs and what it is charged. -/
theorem step_rounds (s : Orderbook × Nat) (op : Op) :
    (rounds s op).1 + levelCount (step s op).1.1 ≤
        acceptedOrders s op + levelCount s.1 ∧
      (rounds s op).2 + orderCount (step s op).1.1 ≤
        acceptedOrders s op + orderCount s.1 ∧
      (answerTrades (step s op).2).length ≤ (rounds s op).2 := by
  obtain ⟨book, curr⟩ := s
  cases op with
  | cancel orderId =>
      refine ⟨le_of_eq ?_, le_of_eq ?_, le_refl 0⟩
      · show 0 + levelCount (book.cancelOrder orderId) = 0 + levelCount book
        rw [levelCount, cancelOrder_bids, cancelOrder_asks, levelCount]
      · show 0 + orderCount (book.cancelOrder orderId) = 0 + orderCount book
        rw [orderCount, cancelOrder_bids, cancelOrder_asks, orderCount]
  | add order =>
      simp only [step, rounds, acceptedOrders]
      cases hc : book.orders.contains order.orderId with
      | true =>
          rw [addOrder_rejected hc]
          simp [answerTrades]
      | false =>
          obtain ⟨book', trades, hmatch, -, -, -⟩ :=
            matchOrders_sweep (book.insertOrder curr order)
          have hadd : book.addOrder curr order =
              ((book', curr + 1), .ok trades) := by
            simp only [addOrder, hc, Bool.false_eq_true, if_false, hmatch]
          obtain ⟨hlevels, horders, htrades⟩ := loopRounds_le hmatch
          have hcount := orderCount_insert book curr order
          have hlevel := levelCount_insert book curr order
          rw [hadd]
          simp only [Bool.false_eq_true, if_false, matchRounds, answerTrades]
          rw [List.length_nil, Nat.zero_add] at htrades
          refine ⟨by omega, by omega, htrades⟩

/-! ## Every run -/

/-- The trades in some answers. -/
def tradeCount (answers : List (Except Fault Trades)) : ℕ :=
  (answers.map (fun a => (answerTrades a).length)).sum

theorem tradeCount_run (s : Orderbook × Nat) (ops : List Op) :
    tradeCount (runOut step s ops) ≤
      runTotal step (fun s op => (rounds s op).2) s ops := by
  induction ops generalizing s with
  | nil => exact le_refl 0
  | cons op ops ih =>
      rw [runOut_cons, runTotal_cons, tradeCount, List.map_cons, List.sum_cons]
      exact Nat.add_le_add (step_rounds s op).2.2 (ih _)

/-- In any run from an empty book the rounds of the outer loop and the levels in
the book at the end are together at most the orders that were accepted; so are
the rounds of the inner loop and the orders in the book; and no more trades are
returned than the inner loop goes round. -/
theorem run_work (curr : Nat) (ops : List Op) :
    runTotal step (fun s op => (rounds s op).1) (init curr) ops +
        levelCount (runState step (init curr) ops).1 ≤
      runTotal step acceptedOrders (init curr) ops ∧
    runTotal step (fun s op => (rounds s op).2) (init curr) ops +
        orderCount (runState step (init curr) ops).1 ≤
      runTotal step acceptedOrders (init curr) ops ∧
    tradeCount (runOut step (init curr) ops) ≤
      runTotal step (fun s op => (rounds s op).2) (init curr) ops := by
  have hlevels := runTotal_amortized (fun s : Orderbook × Nat => levelCount s.1)
    (I := fun _ => True) (fun s op _ => ⟨trivial, (step_rounds s op).1⟩)
    (trivial : True) ops (s := init curr)
  have horders := runTotal_amortized (fun s : Orderbook × Nat => orderCount s.1)
    (I := fun _ => True) (fun s op _ => ⟨trivial, (step_rounds s op).2.1⟩)
    (trivial : True) ops (s := init curr)
  exact ⟨hlevels, horders, tradeCount_run (init curr) ops⟩

end LearningCpp.Orderbook
