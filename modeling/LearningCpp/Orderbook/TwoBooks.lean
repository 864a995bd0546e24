import LearningCpp.Orderbook.Reachable

/-!
# Books that share one counter

`curr_priority_` is static, so every order book of the process draws its
priorities from the same 64-bit counter, and the numbers one book stores
depend on what the others were asked. No answer does. `match` only compares
priorities of one book with each other, and those two runs of a book assign in
the same order whatever happens to the counter between its calls.

The relation `Alike` is what two such runs have in common: the same queues and
the same metadata, the priorities renumbered without changing their order.
Every call keeps it, as long as the counter does not wrap in either run. When
it does not, the 64 bits make no difference to a single book either, and
`noWrap_run` is where the results about unbounded counters come back to the
code's own.
-/

namespace LearningCpp.Orderbook

open LearningCpp.Lib

/-- One call to a book when the counter is a `size_t`. -/
def wordStep (s : Orderbook × Nat) (op : Op) :
    (Orderbook × Nat) × Except Fault Trades :=
  let r := step s op
  ((r.1.1, r.1.2 % 2 ^ 64), r.2)

/-- The books of one process and the counter they share. -/
structure Process (κ : Type*) where
  book : κ → Orderbook
  currPriority : Nat

variable {κ : Type*}

/-- Any number of fresh books, the counter being at `curr`. -/
def Process.fresh (curr : Nat) : Process κ := ⟨fun _ => .empty, curr⟩

/-- A call to one of the books, answered under the book's name. -/
def Process.call [DecidableEq κ] (s : Process κ) (c : κ × Op) :
    Process κ × (κ × Except Fault Trades) :=
  let r := wordStep (s.book c.1, s.currPriority) c.2
  (⟨Function.update s.book c.1 r.1.1, r.1.2⟩, (c.1, r.2))

/-- No call of a run takes the counter down. -/
def NoWrap {σ ι ο : Type*} (step : σ → ι → σ × ο) (counter : σ → Nat) :
    σ → List ι → Prop
  | _, [] => True
  | s, i :: is =>
      counter s ≤ counter (step s i).1 ∧ NoWrap step counter (step s i).1 is

instance NoWrap.decidable {σ ι ο : Type*} (step : σ → ι → σ × ο)
    (counter : σ → Nat) : ∀ s is, Decidable (NoWrap step counter s is)
  | _, [] => inferInstanceAs (Decidable True)
  | s, i :: is =>
      have := NoWrap.decidable step counter (step s i).1 is
      inferInstanceAs (Decidable (_ ∧ _))

/-- What is said to or by one book in a list of tagged calls or answers. -/
def only [DecidableEq κ] {α : Type*} (x : κ) (l : List (κ × α)) : List α :=
  (l.filter (fun c => c.1 = x)).map Prod.snd

section Only

variable [DecidableEq κ] {α : Type*}

theorem only_cons_self {x : κ} {c : κ × α} (h : c.1 = x)
    (l : List (κ × α)) : only x (c :: l) = c.2 :: only x l := by
  simp [only, h]

theorem only_cons_of_ne {x : κ} {c : κ × α} (h : c.1 ≠ x)
    (l : List (κ × α)) : only x (c :: l) = only x l := by
  simp [only, h]

end Only

/-! ## A counter that does not wrap is unbounded -/

theorem step_counter (s : Orderbook × Nat) (op : Op) :
    (step s op).1.2 = s.2 ∨ (step s op).1.2 = s.2 + 1 := by
  obtain ⟨book, curr⟩ := s
  cases op with
  | cancel orderId => exact Or.inl rfl
  | add order =>
      simp only [step]
      cases hc : book.orders.contains order.orderId with
      | true => rw [addOrder_rejected hc]; exact Or.inl rfl
      | false =>
          obtain ⟨book', trades, hadd, _⟩ := addOrder_spec curr hc
          rw [hadd]
          exact Or.inr rfl

/-- A call that does not take the counter down does the same unbounded. -/
theorem wordStep_eq {s : Orderbook × Nat} {op : Op}
    (h : s.2 ≤ (wordStep s op).1.2) : wordStep s op = step s op := by
  have hcounter := step_counter s op
  have hmod : (step s op).1.2 % 2 ^ 64 = (step s op).1.2 := by
    simp only [wordStep] at h
    omega
  simp only [wordStep, hmod]

/-- A run of one book in which the counter does not wrap is a run with the
unbounded counter. -/
theorem noWrap_run {ops : List Op} : ∀ {s : Orderbook × Nat},
    NoWrap wordStep Prod.snd s ops →
    runState wordStep s ops = runState step s ops ∧
      runOut wordStep s ops = runOut step s ops := by
  induction ops with
  | nil => intro s _; exact ⟨rfl, rfl⟩
  | cons op ops ih =>
      intro s h
      obtain ⟨hstep, hrest⟩ := h
      have heq := wordStep_eq hstep
      obtain ⟨hstate, hout⟩ := ih hrest
      rw [runState_cons, runState_cons, runOut_cons, runOut_cons, hstate,
        hout, heq]
      exact ⟨rfl, rfl⟩

/-! ## The same up to renumbering -/

/-- Metadata without its number. -/
def unnumbered (m : OrderMetadata) : OrderMetadata := { m with priority := 0 }

/-- The same queues, and metadata that differs in the priorities only. -/
structure Renumbered (q q' : Queues) : Prop where
  bids : q.bids = q'.bids
  asks : q.asks = q'.asks
  entry : ∀ i, (q.orders i).map unnumbered = (q'.orders i).map unnumbered

/-- The same queues, and metadata that differs in the priorities only, which
are in the same order. -/
structure Alike (q q' : Queues) : Prop where
  bids : q.bids = q'.bids
  asks : q.asks = q'.asks
  entry : ∀ i, (q.orders i).map unnumbered = (q'.orders i).map unnumbered
  order : ∀ i j m n, q.orders i = some m → q.orders j = some n →
    (priorityOf q.orders i < priorityOf q.orders j ↔
      priorityOf q'.orders i < priorityOf q'.orders j)

theorem Alike.refl (q : Queues) : Alike q q :=
  ⟨rfl, rfl, fun _ => rfl, fun _ _ _ _ _ _ => Iff.rfl⟩

theorem Alike.renumbered {q q' : Queues} (h : Alike q q') :
    Renumbered q q' := ⟨h.bids, h.asks, h.entry⟩

theorem unnumbered_eq_iff {m m' : OrderMetadata} :
    unnumbered m = unnumbered m' ↔
      m.level = m'.level ∧ m.canceled = m'.canceled := by
  simp [unnumbered]

theorem priorityOf_of_some {orders : Metadata} {i : Id} {m : OrderMetadata}
    (h : orders i = some m) : priorityOf orders i = m.priority := by
  rw [priorityOf, h]; rfl

namespace Renumbered

variable {q q' : Queues}

theorem side (h : Renumbered q q') (s : Bool) : q.side s = q'.side s := by
  cases s with
  | true => exact h.bids
  | false => exact h.asks

theorem contains (h : Renumbered q q') (i : Id) :
    q'.orders.contains i = q.orders.contains i := by
  have he := congrArg Option.isSome (h.entry i)
  rw [Option.isSome_map, Option.isSome_map] at he
  exact he.symm

/-- The entry the other run has for the same id. -/
theorem entry_some (h : Renumbered q q') {i : Id} {m : OrderMetadata}
    (hm : q.orders i = some m) :
    ∃ m', q'.orders i = some m' ∧ m.level = m'.level ∧
      m.canceled = m'.canceled := by
  have he := h.entry i
  rw [hm, Option.map_some, eq_comm, Option.map_eq_some_iff] at he
  obtain ⟨m', hm', heq⟩ := he
  exact ⟨m', hm', unnumbered_eq_iff.1 heq.symm⟩

theorem entry_none (h : Renumbered q q') {i : Id}
    (hi : q.orders i = none) : q'.orders i = none := by
  have hc := h.contains i
  rw [UnorderedMap.contains_eq_false.2 hi] at hc
  exact UnorderedMap.contains_eq_false.1 hc

theorem insert (h : Renumbered q q') (next next' : Nat) (order : Order) :
    Renumbered (q.insert next order) (q'.insert next' order) where
  bids := by simp only [Queues.insert, h.bids]
  asks := by simp only [Queues.insert, h.asks]
  entry := by
    intro i
    rw [Queues.insert_orders, Queues.insert_orders, UnorderedMap.set_apply,
      UnorderedMap.set_apply]
    split
    · rfl
    · exact h.entry i

theorem cancel (h : Renumbered q q') (orderId : Id) :
    Renumbered (q.cancel orderId) (q'.cancel orderId) where
  bids := h.bids
  asks := h.asks
  entry := by
    intro i
    rw [Queues.cancel_orders, Queues.cancel_orders, markCanceled_apply,
      markCanceled_apply]
    cases hm : q.orders i with
    | none => rw [h.entry_none hm]
    | some m =>
        obtain ⟨m', hm', hl, hc⟩ := h.entry_some hm
        rw [hm', Option.map_some, Option.map_some, Option.map_some,
          Option.map_some, Option.some_inj, unnumbered_eq_iff]
        split
        · exact ⟨hl, rfl⟩
        · exact ⟨hl, hc⟩

theorem settle_entry {orders orders' : Metadata}
    (h : ∀ i, (orders i).map unnumbered = (orders' i).map unnumbered)
    (o : Order) (size : Int) (i : Id) :
    (settle orders o size i).map unnumbered =
      (settle orders' o size i).map unnumbered := by
  simp only [settle_apply]
  split
  · rfl
  · exact h i

/-- One round does the same in both runs, if the two front orders compare the
same. -/
theorem round {p p' : Int} {bid ask : Order} {bids asks : Queue}
    {orders orders' : Metadata} {r r' : Round} {next : Nat}
    (hq : WF ⟨(p, bid) :: bids, (p', ask) :: asks, orders⟩ next)
    (h : Renumbered ⟨(p, bid) :: bids, (p', ask) :: asks, orders⟩
      ⟨(p, bid) :: bids, (p', ask) :: asks, orders'⟩)
    (hlt : priorityOf orders bid.orderId < priorityOf orders ask.orderId ↔
      priorityOf orders' bid.orderId < priorityOf orders' ask.orderId)
    (hgt : priorityOf orders ask.orderId < priorityOf orders bid.orderId ↔
      priorityOf orders' ask.orderId < priorityOf orders' bid.orderId)
    (hr : matchFront orders bid ask = .ok r)
    (hr' : matchFront orders' bid ask = .ok r') :
    r.trade = r'.trade ∧
      Renumbered ⟨atPrice p r.bid ++ bids, atPrice p' r.ask ++ asks, r.orders⟩
        ⟨atPrice p r'.bid ++ bids, atPrice p' r'.ask ++ asks, r'.orders⟩ := by
  obtain ⟨_, _, mb, hb, _⟩ := hq.entry true (p, bid) List.mem_cons_self
  obtain ⟨_, _, ma, ha, _⟩ := hq.entry false (p', ask) List.mem_cons_self
  obtain ⟨mb', hb', hbl, hbc⟩ := h.entry_some hb
  obtain ⟨ma', ha', hal, hac⟩ := h.entry_some ha
  rw [priorityOf_of_some hb, priorityOf_of_some ha, priorityOf_of_some hb',
    priorityOf_of_some ha'] at hlt hgt
  cases hc : mb.canceled with
  | true =>
      rw [matchFront_discardBid hb hc] at hr
      rw [matchFront_discardBid hb' (by rw [← hbc, hc])] at hr'
      cases hr
      cases hr'
      exact ⟨rfl, rfl, rfl, h.entry⟩
  | false =>
      have hc' : mb'.canceled = false := by rw [← hbc, hc]
      cases hd : ma.canceled with
      | true =>
          rw [matchFront_discardAsk hb ha hc hd] at hr
          rw [matchFront_discardAsk hb' ha' hc' (by rw [← hac, hd])] at hr'
          cases hr
          cases hr'
          exact ⟨rfl, rfl, rfl, h.entry⟩
      | false =>
          rw [matchFront_trade hb ha hc hd] at hr
          rw [matchFront_trade hb' ha' hc' (by rw [← hac, hd])] at hr'
          cases hr
          cases hr'
          refine ⟨?_, rfl, rfl, ?_⟩
          · simp only [tradeRound, frontTrade, gt_iff_lt, hlt, hgt, hbl, hal]
          · exact settle_entry
              (settle_entry h.entry bid (min bid.quantity ask.quantity)) ask
              (min bid.quantity ask.quantity)

end Renumbered

/-- A bid and an ask that cross have their priorities in the same order in
both runs. -/
def ComparesAlike (q q' : Queues) : Prop :=
  ∀ x ∈ q.bids, ∀ y ∈ q.asks, ¬ x.1 < y.1 →
    (priorityOf q.orders x.2.orderId < priorityOf q.orders y.2.orderId ↔
      priorityOf q'.orders x.2.orderId < priorityOf q'.orders y.2.orderId) ∧
    (priorityOf q.orders y.2.orderId < priorityOf q.orders x.2.orderId ↔
      priorityOf q'.orders y.2.orderId < priorityOf q'.orders x.2.orderId)

/-- Matching gives no order that still rests another number. -/
theorem ComparesAlike.shrinks {q q' q₁ q₁' : Queues}
    (h : ComparesAlike q q') (hs : Shrinks q q₁) (hs' : Shrinks q' q₁')
    (h₁ : Renumbered q₁ q₁') : ComparesAlike q₁ q₁' := by
  have hkept : ∀ {s : Bool} {x : Int × Order}, x ∈ q₁.side s →
      ∃ z ∈ q.side s, x.1 = z.1 ∧
        priorityOf q₁.orders x.2.orderId = priorityOf q.orders z.2.orderId ∧
        priorityOf q₁'.orders x.2.orderId =
          priorityOf q'.orders z.2.orderId := by
    intro s x hx
    obtain ⟨z, hz, hid⟩ := hs.mem hx
    have hx' : x ∈ q₁'.side s := by
      rw [← h₁.side]
      exact hx
    refine ⟨z, hz, (ident_eq_iff.1 hid).1.symm, ?_, ?_⟩
    · rw [priorityOf, hs.kept x (Queues.mem_resting.2 ⟨s, hx⟩),
        ident_orderId hid]
      rfl
    · rw [priorityOf, hs'.kept x (Queues.mem_resting.2 ⟨s, hx'⟩),
        ident_orderId hid]
      rfl
  intro x hx y hy hcross
  obtain ⟨z, hz, hzp, hzo, hzo'⟩ := hkept (s := true) hx
  obtain ⟨w, hw, hwp, hwo, hwo'⟩ := hkept (s := false) hy
  rw [hzp, hwp] at hcross
  rw [hzo, hzo', hwo, hwo']
  exact h z hz w hw hcross

/-- A whole sweep does the same in both runs. -/
theorem sweep_renumbered {q q₁ : Queues} {ts : Trades} (hs : Sweep q ts q₁) :
    ∀ {q' q₁' : Queues} {ts' : Trades} {next next' : Nat}, WF q next →
      WF q' next' → Renumbered q q' → ComparesAlike q q' →
      Sweep q' ts' q₁' → ts = ts' ∧ Renumbered q₁ q₁' := by
  induction hs with
  | stop hstop =>
      intro q' q₁' ts' next next' hq hq' h _ hs'
      have hstop' : q'.Uncrossed := by
        intro x hx y hy
        rw [← h.bids] at hx
        rw [← h.asks] at hy
        exact hstop x hx y hy
      cases hs' with
      | stop _ => exact ⟨rfl, h⟩
      | round hcross _ _ => exact absurd (hstop' _ rfl _ rfl) hcross
  | @round p p' bid ask bids asks orders r ts q₁ hcross hr _ ih =>
      intro q' q₁' ts' next next' hq hq' h hcmp hs'
      obtain ⟨bids', asks', orders'⟩ := q'
      obtain rfl : _ = bids' := h.bids
      obtain rfl : _ = asks' := h.asks
      cases hs' with
      | stop hstop => exact absurd (hstop _ rfl _ rfl) hcross
      | round _ hr' hs' =>
          have hshrink := round_shrinks hq hr
          have hshrink' := round_shrinks hq' hr'
          obtain ⟨hlt, hgt⟩ := hcmp (p, bid) List.mem_cons_self (p', ask)
            List.mem_cons_self hcross
          obtain ⟨htrade, hround⟩ := h.round hq hlt hgt hr hr'
          obtain ⟨hts, hend⟩ := ih (hshrink.wf hq) (hshrink'.wf hq') hround
            (hcmp.shrinks hshrink hshrink' hround) hs'
          rw [htrade, hts]
          exact ⟨rfl, hend⟩

/-- A new order is the youngest in both runs. -/
theorem Alike.insert {q q' : Queues} {next next' : Nat} (hq : WF q next)
    (hq' : WF q' next') (h : Alike q q') (order : Order) :
    Alike (q.insert next order) (q'.insert next' order) where
  bids := by simp only [Queues.insert, h.bids]
  asks := by simp only [Queues.insert, h.asks]
  entry := (h.renumbered.insert next next' order).entry
  order := by
    intro i j m n hm hn
    rw [Queues.insert_orders, UnorderedMap.set_apply] at hm hn
    rw [Queues.insert_orders, Queues.insert_orders, priorityOf_set,
      priorityOf_set, priorityOf_set, priorityOf_set]
    -- What was there before has a smaller number than the counter.
    have hlt : ∀ i m, q.orders i = some m →
        priorityOf q.orders i < next ∧ priorityOf q'.orders i < next' := by
      intro i m hm
      obtain ⟨m', hm', _⟩ := h.renumbered.entry_some hm
      rw [priorityOf_of_some hm, priorityOf_of_some hm']
      exact ⟨hq.counter i m hm, hq'.counter i m' hm'⟩
    split at hm <;> split at hn
    · next hi hj => simp only [hi, hj, if_true, Nat.lt_irrefl]
    · next hi hj =>
        have h₁ := hlt j n hn
        simp only [hi, hj, if_true, if_false]
        omega
    · next hi hj =>
        have h₁ := hlt i m hm
        simp only [hi, hj, if_true, if_false]
        omega
    · next hi hj =>
        simp only [hi, hj, if_false]
        exact h.order i j m n hm hn

theorem Alike.cancel {q q' : Queues} (h : Alike q q') (orderId : Id) :
    Alike (q.cancel orderId) (q'.cancel orderId) where
  bids := h.bids
  asks := h.asks
  entry := (h.renumbered.cancel orderId).entry
  order := by
    intro i j m n hm hn
    obtain ⟨m₀, hm₀, _⟩ := markCanceled_some hm
    obtain ⟨n₀, hn₀, _⟩ := markCanceled_some hn
    simp only [Queues.cancel_orders, priorityOf_markCanceled]
    exact h.order i j m₀ n₀ hm₀ hn₀

/-- Orders that rest have entries, so the ones that cross compare the same. -/
theorem Alike.comparesAlike {q q' : Queues} {next : Nat} (hq : WF q next)
    (h : Alike q q') : ComparesAlike q q' := by
  intro x hx y hy _
  obtain ⟨_, _, mx, hmx, _⟩ := hq.entry true x hx
  obtain ⟨_, _, my, hmy, _⟩ := hq.entry false y hy
  exact ⟨h.order _ _ mx my hmx hmy, h.order _ _ my mx hmy hmx⟩

/-- Matching keeps the order of the priorities. -/
theorem Alike.shrinks {q q' q₁ q₁' : Queues} (h : Alike q q')
    (hs : Shrinks q q₁) (hs' : Shrinks q' q₁') (h₁ : Renumbered q₁ q₁') :
    Alike q₁ q₁' where
  bids := h₁.bids
  asks := h₁.asks
  entry := h₁.entry
  order := by
    have hsame : ∀ {i m}, q₁.orders i = some m → q.orders i = some m ∧
        priorityOf q₁.orders i = priorityOf q.orders i ∧
        priorityOf q₁'.orders i = priorityOf q'.orders i := by
      intro i m hm
      obtain ⟨m', hm', _⟩ := h₁.entry_some hm
      have hold := hs.orders i m hm
      have hold' := hs'.orders i m' hm'
      refine ⟨hold, ?_, ?_⟩
      · rw [priorityOf_of_some hm, priorityOf_of_some hold]
      · rw [priorityOf_of_some hm', priorityOf_of_some hold']
    intro i j m n hm hn
    obtain ⟨hmi, hi, hi'⟩ := hsame hm
    obtain ⟨hnj, hj, hj'⟩ := hsame hn
    rw [hi, hi', hj, hj']
    exact h.order i j m n hmi hnj

/-- One call does. -/
theorem step_alike {s s' : Orderbook × Nat} (hs : Inv s) (hs' : Inv s')
    (h : Alike (queues s.1) (queues s'.1)) (op : Op) :
    Alike (queues (step s op).1.1) (queues (step s' op).1.1) ∧
      (step s op).2 = (step s' op).2 := by
  obtain ⟨book, curr⟩ := s
  obtain ⟨book', curr'⟩ := s'
  cases op with
  | cancel orderId =>
      rw [step, step, queues_cancelOrder, queues_cancelOrder]
      exact ⟨h.cancel orderId, rfl⟩
  | add order =>
      have hcontains : book'.orders.contains order.orderId =
          book.orders.contains order.orderId := h.renumbered.contains _
      simp only [step]
      cases hc : book.orders.contains order.orderId with
      | true =>
          rw [addOrder_rejected hc, addOrder_rejected (hcontains.trans hc)]
          exact ⟨h, rfl⟩
      | false =>
          have hc' := hcontains.trans hc
          obtain ⟨book₁, ts, hadd, hsweep, _⟩ := addOrder_spec curr hc
          obtain ⟨book₁', ts', hadd', hsweep', _⟩ := addOrder_spec curr' hc'
          have hwf := hs.wf.insert (UnorderedMap.contains_eq_false.1 hc)
          have hwf' := hs'.wf.insert (UnorderedMap.contains_eq_false.1 hc')
          have halike := Alike.insert hs.wf hs'.wf h order
          obtain ⟨hts, hend⟩ := sweep_renumbered hsweep hwf hwf'
            halike.renumbered (halike.comparesAlike hwf) hsweep'
          have hend := halike.shrinks (sweep_shrinks hsweep hwf)
            (sweep_shrinks hsweep' hwf') hend
          rw [hadd, hadd', hts]
          exact ⟨hend, rfl⟩

/-! ## Every interleaving -/

theorem WF.mono {q : Queues} {next next' : Nat} (h : WF q next)
    (hle : next ≤ next') : WF q next' :=
  { h with counter := fun i m hm => (h.counter i m hm).trans_le hle }

theorem Inv.mono {book : Orderbook} {curr curr' : Nat} (h : Inv (book, curr))
    (hle : curr ≤ curr') : Inv (book, curr') :=
  ⟨h.wf.mono hle, h.uncrossed, h.noEmpty⟩

variable [DecidableEq κ]

/-- From related states on, one book answers in an interleaved run what it
answers to its own calls alone. -/
theorem interleaved_alone (x : κ) (calls : List (κ × Op)) :
    ∀ {s : Process κ} {t : Orderbook × Nat},
      (∀ y, Inv (s.book y, s.currPriority)) → Inv t →
      Alike (queues (s.book x)) (queues t.1) →
      NoWrap Process.call Process.currPriority s calls →
      NoWrap wordStep Prod.snd t (only x calls) →
      only x (runOut Process.call s calls) =
        runOut wordStep t (only x calls) := by
  induction calls with
  | nil => intro s t _ _ _ _ _; rfl
  | cons c calls ih =>
      intro s t hs ht halike hwrap hwrap'
      obtain ⟨y, op⟩ := c
      obtain ⟨hle, hwrap⟩ := hwrap
      have hstep : wordStep (s.book y, s.currPriority) op =
          step (s.book y, s.currPriority) op := wordStep_eq hle
      have hinv := step_inv (hs y) op
      -- The books that were not called see the counter go up.
      have hs₁ : ∀ z, Inv ((s.call (y, op)).1.book z,
          (s.call (y, op)).1.currPriority) := by
        intro z
        by_cases hz : z = y
        · rw [hz]
          simp only [Process.call, Function.update_self, hstep]
          exact hinv
        · simp only [Process.call, Function.update_of_ne hz]
          exact (hs z).mono hle
      rw [runOut_cons]
      by_cases hy : y = x
      · rw [only_cons_self hy] at hwrap' ⊢
        obtain ⟨hle', hwrap'⟩ := hwrap'
        have hstep' := wordStep_eq hle'
        obtain ⟨halike₁, hout⟩ :=
          step_alike (hs y) ht (by rw [hy]; exact halike) op
        rw [only_cons_self hy, runOut_cons, ih hs₁ ?_ ?_ hwrap hwrap']
        · simp only [Process.call, hstep, hstep', hout]
        · rw [hstep']
          exact step_inv ht op
        · rw [hstep', ← hy]
          simp only [Process.call, Function.update_self, hstep]
          exact halike₁
      · rw [only_cons_of_ne hy] at hwrap' ⊢
        rw [only_cons_of_ne hy]
        refine ih hs₁ ht ?_ hwrap hwrap'
        simp only [Process.call, Function.update_of_ne (Ne.symm hy)]
        exact halike

/-- However the calls of any number of books are interleaved, each book answers
its own calls as it would alone on a fresh book, provided the counter wraps in
neither run. -/
theorem answers_interleaved (curr curr' : Nat) (calls : List (κ × Op)) (x : κ)
    (h : NoWrap Process.call Process.currPriority (.fresh curr) calls)
    (h' : NoWrap wordStep Prod.snd (init curr') (only x calls)) :
    only x (runOut Process.call (.fresh curr) calls) =
      runOut wordStep (init curr') (only x calls) :=
  interleaved_alone x calls (fun _ => inv_init curr) (inv_init curr')
    (.refl _) h h'

/-- Two books, one of them called in between the two calls of the other. -/
theorem answers_interleaved_two :
    only true (runOut Process.call (.fresh 0)
      [(true, .add ⟨1, 10, true, 1⟩), (false, .add ⟨1, 10, true, 1⟩),
        (true, .add ⟨2, 10, false, 1⟩)]) =
    runOut wordStep (init 7) [.add ⟨1, 10, true, 1⟩, .add ⟨2, 10, false, 1⟩] :=
  answers_interleaved 0 7 _ true (by decide) (by decide)

end LearningCpp.Orderbook
