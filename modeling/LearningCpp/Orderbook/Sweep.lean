import LearningCpp.Orderbook.Model

/-!
# The two nested loops are one sweep over two queues

A side of the book, read level by level and front to back, is one queue in
price-time priority. Over that view `match` is a single loop: while the two
front orders cross, one round of the inner loop on them. The level structure
only decides when a level is taken out of its map, which the queues do not
show.

`Sweep` is that loop as a relation, and `matchOrders_sweep` says `match` runs
it, from any book at all: no level has to be non-empty, no order has to have
metadata. The same theorem is the termination argument. A round pops at least
one of the two fronts because a fill takes the smaller quantity, and a pass of
the outer loop erases at least one level, so the two budgets suffice and
`Fill` is never asked for more than there is.
-/

namespace LearningCpp.Orderbook

open LearningCpp.Lib

/-- Resting orders in the order they are matched in, each with the price of
its level. -/
abbrev Queue := List (Int × Order)

/-- An order book as two queues. -/
structure Queues where
  bids : Queue
  asks : Queue
  orders : Metadata

def queues (book : Orderbook) : Queues :=
  ⟨book.bids.flat, book.asks.flat, book.orders⟩

/-- What is left of a front order, at the price it rested at. -/
def atPrice (p : Int) (o : Option Order) : Queue :=
  o.toList.map (fun o => (p, o))

/-- One side is empty or the front prices do not cross. -/
def Queues.Uncrossed (q : Queues) : Prop :=
  ∀ x ∈ q.bids.head?, ∀ y ∈ q.asks.head?, x.1 < y.1

/-- `Sweep q trades q'`: matching from `q` returns `trades` and leaves `q'`. -/
inductive Sweep : Queues → Trades → Queues → Prop where
  | stop {q : Queues} (h : q.Uncrossed) : Sweep q [] q
  | round {p p' : Int} {bid ask : Order} {bids asks : Queue}
      {orders : Metadata} {r : Round} {trades : Trades} {q' : Queues}
      (hcross : ¬ p < p') (hr : matchFront orders bid ask = .ok r)
      (h : Sweep ⟨atPrice p r.bid ++ bids, atPrice p' r.ask ++ asks, r.orders⟩
        trades q') :
      Sweep ⟨(p, bid) :: bids, (p', ask) :: asks, orders⟩
        (r.trade.toList ++ trades) q'

theorem fill_ok {o : Order} {size : Int} (h : size ≤ o.quantity) :
    o.fill size = .ok { o with quantity := o.quantity - size } := by
  rw [Order.fill, if_neg (by omega)]

/-- A round always returns, and takes at least one of the two orders out. -/
theorem matchFront_ok (orders : Metadata) (bid ask : Order) :
    ∃ r, matchFront orders bid ask = .ok r ∧
      (r.bid = none ∨ r.ask = none) := by
  simp only [matchFront]
  split
  · exact ⟨_, rfl, Or.inl rfl⟩
  · split
    · exact ⟨_, rfl, Or.inr rfl⟩
    · rw [fill_ok (Int.min_le_right _ _), fill_ok (Int.min_le_left _ _)]
      refine ⟨_, rfl, ?_⟩
      rcases Int.le_total bid.quantity ask.quantity with hle | hle
      · left
        simp only []
        rw [if_pos (by omega)]
      · right
        simp only []
        rw [if_pos (by omega)]

theorem length_option_toList_le (o : Option Order) : o.toList.length ≤ 1 := by
  cases o <;> simp

/-- The inner loop, given a budget of the two lengths, empties one of the
deques, and what it does is a sweep whatever stands behind the two levels. -/
theorem matchLevel_sweep : ∀ (fuel : Nat) (s : LevelState),
    s.bidsAtPrice.length + s.asksAtPrice.length ≤ fuel →
    ∃ s' trades, matchLevel fuel s = .ok s' ∧
      (s'.bidsAtPrice = [] ∨ s'.asksAtPrice = []) ∧
      s'.trades = s.trades ++ trades ∧
      ∀ (p p' : Int) (bids asks : Queue) (more : Trades) (q' : Queues),
        ¬ p < p' →
        Sweep ⟨s'.bidsAtPrice.map (fun o => (p, o)) ++ bids,
          s'.asksAtPrice.map (fun o => (p', o)) ++ asks, s'.orders⟩ more q' →
        Sweep ⟨s.bidsAtPrice.map (fun o => (p, o)) ++ bids,
          s.asksAtPrice.map (fun o => (p', o)) ++ asks, s.orders⟩
          (trades ++ more) q' := by
  intro fuel
  induction fuel with
  | zero =>
      intro s hfuel
      have hb : s.bidsAtPrice = [] := List.length_eq_zero_iff.1 (by omega)
      refine ⟨s, [], ?_, Or.inl hb, by simp, fun _ _ _ _ _ _ _ h => h⟩
      rw [matchLevel, hb]
  | succ fuel ih =>
      intro s hfuel
      obtain ⟨bq, aq, orders, done⟩ := s
      match bq, aq with
      | [], _ =>
          exact ⟨_, [], by rw [matchLevel], Or.inl rfl, by simp,
            fun _ _ _ _ _ _ _ h => h⟩
      | _ :: _, [] =>
          exact ⟨_, [], by rw [matchLevel], Or.inr rfl, by simp,
            fun _ _ _ _ _ _ _ h => h⟩
      | bid :: bq, ask :: aq =>
          obtain ⟨r, hr, hpop⟩ := matchFront_ok orders bid ask
          have hlen : (r.bid.toList ++ bq).length + (r.ask.toList ++ aq).length
              ≤ fuel := by
            have hb := length_option_toList_le r.bid
            have ha := length_option_toList_le r.ask
            simp only [List.length_cons] at hfuel
            rw [List.length_append, List.length_append]
            rcases hpop with hnone | hnone
            · rw [hnone]; simp only [Option.toList_none, List.length_nil]; omega
            · rw [hnone]; simp only [Option.toList_none, List.length_nil]; omega
          obtain ⟨s', trades, hs', hend, htrades, hsweep⟩ :=
            ih ⟨r.bid.toList ++ bq, r.ask.toList ++ aq, r.orders,
              done ++ r.trade.toList⟩ hlen
          refine ⟨s', r.trade.toList ++ trades, ?_, hend, ?_, ?_⟩
          · simp only [matchLevel, hr, hs']
          · rw [htrades, List.append_assoc]
          · intro p p' bids asks more q' hcross h
            have h' := hsweep p p' bids asks more q' hcross h
            simp only [List.map_append, List.append_assoc] at h'
            rw [List.append_assoc]
            exact Sweep.round hcross hr h'

/-- The best levels do not cross, counting every order still in a deque. -/
def BestUncrossed (book : Orderbook) : Prop :=
  ∀ x ∈ book.bids.front?, ∀ y ∈ book.asks.front?, x.1 < y.1

/-- No level of either side holds an empty deque. -/
def NoEmptyLevel (book : Orderbook) : Prop :=
  book.bids.NoEmpty ∧ book.asks.NoEmpty

/-- A front level written back has the leftover queue in front of the other
levels, and one level less when nothing is left over. -/
theorem writeBack_spec {r : Int → Int → Prop} [Std.Irrefl r]
    {m m' : SortedMap r (List Order)} {p : Int} {q : List Order}
    {rest : List (Int × List Order)} (h : m.entries = (p, q) :: rest)
    {q' : List Order}
    (hm' : m' = if q'.isEmpty then (m.setFront q').erase p
      else m.setFront q') :
    m'.flat = q'.map (fun o => (p, o)) ++ flatEntries rest ∧
      m'.entries.length ≤ m.entries.length ∧
      (q' = [] → m'.entries.length + 1 ≤ m.entries.length) ∧
      (m.NoEmpty → m'.NoEmpty) := by
  have he : m'.entries = if q'.isEmpty then rest else (p, q') :: rest := by
    rw [hm']; exact SortedMap.entries_writeBack h q'
  match q' with
  | [] =>
      simp only [List.isEmpty_nil, if_true] at he
      refine ⟨by simp [SortedMap.flat, he], by simp [he, h], ?_, ?_⟩
      · intro _; simp [he, h]
      · intro hne e hmem
        rw [he] at hmem
        exact hne e (by rw [h]; exact List.mem_cons_of_mem _ hmem)
  | o :: q' =>
      simp only [List.isEmpty_cons, Bool.false_eq_true, if_false] at he
      refine ⟨by simp [SortedMap.flat, he], by simp [he, h], by simp, ?_⟩
      intro hne e hmem
      rw [he] at hmem
      rcases List.mem_cons.1 hmem with rfl | hmem
      · exact List.cons_ne_nil _ _
      · exact hne e (by rw [h]; exact List.mem_cons_of_mem _ hmem)

theorem flat_of_entries {r : Int → Int → Prop}
    {m : SortedMap r (List Order)} {p : Int} {q : List Order}
    {rest : List (Int × List Order)} (h : m.entries = (p, q) :: rest) :
    m.flat = q.map (fun o => (p, o)) ++ flatEntries rest := by
  rw [SortedMap.flat, h, flatEntries_cons]

/-- The front order of a side is no better than its best level. -/
theorem front_flat_le {r : Int → Int → Prop} {m : SortedMap r (List Order)}
    {p : Int} {q : List Order} (h : m.front? = some (p, q))
    {x : Int × Order} (hx : x ∈ m.flat) : x.1 = p ∨ r p x.1 := by
  obtain ⟨q', hq', _⟩ := mem_flatEntries.1 hx
  obtain ⟨rest, hrest⟩ := List.head?_eq_some_iff.1 h
  have hs := m.sorted
  rw [hrest] at hs hq'
  rcases List.mem_cons.1 hq' with heq | hmem
  · exact Or.inl (Prod.mk.inj heq).1
  · exact Or.inr ((List.pairwise_cons.1 hs).1 _ hmem)

theorem uncrossed_of_best {book : Orderbook} (h : BestUncrossed book) :
    (queues book).Uncrossed := by
  intro x hx y hy
  have hxm := List.mem_of_mem_head? hx
  have hym := List.mem_of_mem_head? hy
  match hb : book.bids.front?, ha : book.asks.front? with
  | none, _ =>
      have hnil := List.head?_eq_none_iff.1 hb
      simp [queues, SortedMap.flat, hnil] at hxm
  | _, none =>
      have hnil := List.head?_eq_none_iff.1 ha
      simp [queues, SortedMap.flat, hnil] at hym
  | some (p, _), some (p', _) =>
      have hlt : p < p' := h _ hb _ ha
      have hpx := front_flat_le hb hxm
      have hpy := front_flat_le ha hym
      omega

/-- The outer loop, given a budget of the two numbers of levels. -/
theorem matchLoop_sweep : ∀ (fuel : Nat) (book : Orderbook) (done : Trades),
    book.bids.entries.length + book.asks.entries.length ≤ fuel →
    ∃ book' trades, matchLoop fuel book done = .ok (book', done ++ trades) ∧
      Sweep (queues book) trades (queues book') ∧ BestUncrossed book' ∧
      (NoEmptyLevel book → NoEmptyLevel book') := by
  intro fuel
  induction fuel with
  | zero =>
      intro book done hfuel
      have hb : book.bids.front? = none :=
        List.head?_eq_none_iff.2 (List.length_eq_zero_iff.1 (by omega))
      have hbest : BestUncrossed book := by
        intro x hx; rw [hb] at hx; cases hx
      refine ⟨book, [], ?_, .stop (uncrossed_of_best hbest), hbest, id⟩
      rw [matchLoop, hb]
      simp
  | succ fuel ih =>
      intro book done hfuel
      match hb : book.bids.front?, ha : book.asks.front? with
      | none, _ =>
          have hbest : BestUncrossed book := by
            intro x hx; rw [hb] at hx; cases hx
          refine ⟨book, [], ?_, .stop (uncrossed_of_best hbest), hbest, id⟩
          rw [matchLoop, hb]
          simp
      | some _, none =>
          have hbest : BestUncrossed book := by
            intro x _ y hy; rw [ha] at hy; cases hy
          refine ⟨book, [], ?_, .stop (uncrossed_of_best hbest), hbest, id⟩
          rw [matchLoop, hb, ha]
          simp
      | some (p, bq), some (p', aq) =>
          by_cases hlt : p < p'
          · have hbest : BestUncrossed book := by
              intro x hx y hy
              rw [hb] at hx; rw [ha] at hy
              cases hx; cases hy
              exact hlt
            refine ⟨book, [], ?_, .stop (uncrossed_of_best hbest), hbest, id⟩
            rw [matchLoop, hb, ha]
            simp [hlt]
          · obtain ⟨s, ts, hs, hend, hts, hsweep⟩ :=
              matchLevel_sweep (bq.length + aq.length)
                ⟨bq, aq, book.orders, done⟩ (Nat.le_refl _)
            obtain ⟨brest, hbrest⟩ := List.head?_eq_some_iff.1 hb
            obtain ⟨arest, harest⟩ := List.head?_eq_some_iff.1 ha
            generalize hm : (if s.bidsAtPrice.isEmpty then
              (book.bids.setFront s.bidsAtPrice).erase p
              else book.bids.setFront s.bidsAtPrice) = bids
            generalize hn : (if s.asksAtPrice.isEmpty then
              (book.asks.setFront s.asksAtPrice).erase p'
              else book.asks.setFront s.asksAtPrice) = asks
            obtain ⟨hbflat, hblen, hbnil, hbne⟩ := writeBack_spec hbrest hm.symm
            obtain ⟨haflat, halen, hanil, hane⟩ := writeBack_spec harest hn.symm
            obtain ⟨book', ts', hloop, hsweep', hbest, hne⟩ :=
              ih ⟨bids, asks, s.orders⟩ s.trades (by
                -- One of the two deques is empty, so its level is gone.
                rcases hend with hnil | hnil
                · have := hbnil hnil; simp only []; omega
                · have := hanil hnil; simp only []; omega)
            refine ⟨book', ts ++ ts', ?_, ?_, hbest, ?_⟩
            · rw [matchLoop, hb, ha]
              simp only [hlt, if_false, hs, hm, hn]
              rw [hloop, hts, List.append_assoc]
            · have h := hsweep p p' (flatEntries brest) (flatEntries arest)
                ts' (queues book') hlt
              simp only [queues, hbflat, haflat] at hsweep' ⊢
              rw [flat_of_entries hbrest, flat_of_entries harest]
              exact h hsweep'
            · intro h
              exact hne ⟨hbne h.1, hane h.2⟩

/-- `match` returns from any book, its trades and the queues it leaves are
those of a sweep, the best levels end up uncrossed, and it leaves no empty
level behind that was not there before. -/
theorem matchOrders_sweep (book : Orderbook) :
    ∃ book' trades, book.matchOrders = .ok (book', trades) ∧
      Sweep (queues book) trades (queues book') ∧ BestUncrossed book' ∧
      (NoEmptyLevel book → NoEmptyLevel book') :=
  matchLoop_sweep _ book [] (Nat.le_refl _)

/-! ## `match` returns

The budgets the model gives the two loops are bookkeeping: an outer loop that
has returned returns the same on any larger one. -/

theorem matchLoop_mono {fuel : Nat} : ∀ {fuel' : Nat} {book : Orderbook}
    {done : Trades} {res : Orderbook × Trades},
    matchLoop fuel book done = .ok res → fuel ≤ fuel' →
    matchLoop fuel' book done = .ok res := by
  induction fuel with
  | zero =>
      intro fuel' book done res h _
      rw [matchLoop] at h ⊢
      match hb : book.bids.front?, ha : book.asks.front? with
      | none, _ => rw [hb] at h; exact h
      | some _, none => rw [hb, ha] at h; exact h
      | some (p, bq), some (p', aq) =>
          rw [hb, ha] at h
          simp only [] at h ⊢
          split at h
          · next hlt => rw [if_pos hlt]; exact h
          · cases h
  | succ fuel ih =>
      intro fuel' book done res h hle
      obtain ⟨more, rfl⟩ := Nat.exists_eq_add_of_le' hle
      have hsucc : more + (fuel + 1) = (more + fuel) + 1 := by omega
      rw [hsucc, matchLoop]
      rw [matchLoop] at h
      match hb : book.bids.front?, ha : book.asks.front? with
      | none, _ => rw [hb] at h; exact h
      | some _, none => rw [hb, ha] at h; exact h
      | some (p, bq), some (p', aq) =>
          rw [hb, ha] at h
          simp only [] at h ⊢
          split at h
          · next hlt => rw [if_pos hlt]; exact h
          · next hlt =>
              rw [if_neg hlt]
              split at h
              · cases h
              · exact ih h (by omega)

/-- From any book at all `match` returns: `Fill` does not throw, no loop goes
on for ever, and in the end a side is empty or the best bid is below the best
ask. How much more budget the loop is given makes no difference. -/
theorem matchOrders_returns (book : Orderbook) :
    ∃ book' trades, book.matchOrders = .ok (book', trades) ∧
      (∀ fuel, book.bids.entries.length + book.asks.entries.length ≤ fuel →
        matchLoop fuel book [] = .ok (book', trades)) ∧
      (book'.bids.entries = [] ∨ book'.asks.entries = [] ∨
        ∃ bid ask, book'.bids.front? = some bid ∧
          book'.asks.front? = some ask ∧ bid.1 < ask.1) := by
  obtain ⟨book', trades, hmatch, _, hbest, _⟩ := matchOrders_sweep book
  refine ⟨book', trades, hmatch, fun fuel hle => matchLoop_mono hmatch hle, ?_⟩
  match hb : book'.bids.entries, ha : book'.asks.entries with
  | [], _ => exact Or.inl rfl
  | _ :: _, [] => exact Or.inr (Or.inl rfl)
  | bid :: _, ask :: _ =>
      have hbid : book'.bids.front? = some bid := by
        rw [SortedMap.front?, hb, List.head?_cons]
      have hask : book'.asks.front? = some ask := by
        rw [SortedMap.front?, ha, List.head?_cons]
      exact Or.inr (Or.inr
        ⟨bid, ask, hbid, hask, hbest bid hbid ask hask⟩)

end LearningCpp.Orderbook
