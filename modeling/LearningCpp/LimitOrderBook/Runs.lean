import LearningCpp.LimitOrderBook.Model

/-!
# What the levels hold

Runs of `PlaceOrder` and `CancelOrder`, with a ledger of what was placed and
not yet matched or cancelled, kept from the calls and their answers alone.

An order that rests goes to a copy of its level, so in every state reached the
levels are empty. From that one invariant follows all a call can do:
`PlaceOrder` reads the front of an empty level as soon as the other side has
one, and `CancelOrder` follows an iterator into a list that is gone.
-/

namespace LearningCpp.LimitOrderBook

open LearningCpp.Lib

variable {κ : Type*} [LinearOrder κ]

/-! ## Runs -/

inductive Op (κ : Type*) where
  | place (price : κ) (volume : Int) (client : String) (buy : Bool)
  | cancel (orderid : ℕ)

/-- Volumes are positive. -/
def Op.Positive : Op κ → Prop
  | .place _ volume _ _ => 0 < volume
  | .cancel _ => True

def Op.IsPlace : Op κ → Prop
  | .place .. => True
  | .cancel _ => False

/-- An order that was placed and not cancelled, and what of it no fill has
taken. -/
structure Placed (κ : Type*) where
  id : ℕ
  price : κ
  buy : Bool
  remaining : Int

/-- A fill takes from the order that has waited longest at its price. -/
def Placed.fill (buy : Bool) (fill : Fill κ) : List (Placed κ) → List (Placed κ)
  | [] => []
  | order :: ledger =>
      if order.buy = buy ∧ order.price = fill.price ∧ 0 < order.remaining then
        { order with remaining := order.remaining - fill.matched } :: ledger
      else order :: Placed.fill buy fill ledger

/-- The book and the ledger. -/
structure State (κ : Type*) [LinearOrder κ] where
  book : LimitOrderBook κ
  ledger : List (Placed κ)

def State.call (s : State κ) : Op κ → Except Undefined (State κ)
  | .place price volume client buy =>
      match s.book.placeOrder price volume client buy with
      | .error e => .error e
      | .ok (book, fills, id) =>
          let taken := (fills.map Fill.matched).sum
          let ledger :=
            fills.foldl (fun ledger fill => Placed.fill (!buy) fill ledger)
              s.ledger
          .ok ⟨book, ledger ++ [⟨id, price, buy, volume - taken⟩]⟩
  | .cancel orderid =>
      match s.book.cancelOrder orderid with
      | .error e => .error e
      | .ok (book, result) =>
          if result = 0 then
            .ok ⟨book, s.ledger.filter (fun order => order.id ≠ orderid)⟩
          else .ok ⟨book, s.ledger⟩

/-- A run on an empty book. -/
def run (ops : List (Op κ)) : Except Undefined (State κ) :=
  ops.foldlM State.call ⟨.empty, []⟩

/-- The orders in the queue at a price. -/
def queue (book : LimitOrderBook κ) (price : κ) (buy : Bool) :
    List (Order κ) :=
  if buy then (book.bids.levels.get? price).getD []
  else (book.asks.levels.get? price).getD []

/-! ## The sides -/

namespace Side

variable {r : κ → κ → Prop}

/-- All levels are empty. -/
def Hollow (s : Side r) : Prop := ∀ e ∈ s.levels.entries, e.2 = []

theorem Hollow.get? {s : Side r} (h : s.Hollow) (price : κ) :
    (s.levels.get? price).getD [] = [] := by
  cases hget : s.levels.get? price with
  | none => rfl
  | some q => exact h _ (SortedMap.mem_of_get? hget)

variable [DecidableRel r] [IsStrictTotalOrder κ r]

theorem Hollow.rest {s : Side r} (h : s.Hollow) (client : String) (price : κ)
    (v : Int) (buy : Bool) : (s.rest client price v buy).1.Hollow :=
  value_upsertEntries (P := fun q => q = []) h rfl (fun _ hq => hq)

/-- Without levels there is nothing to match. -/
theorem matchLoop_of_nil {s : Side r} (h : s.levels.entries = [])
    (client : String) (price : κ) (v : Int) :
    s.matchLoop client price v = .ok (s, v, []) := by
  have hfront : s.levels.front? = none := by
    rw [SortedMap.front?, h]
    rfl
  rw [matchLoop]
  split
  · split
    · rfl
    · next hsome =>
        rw [hfront] at hsome
        cases hsome
  · rfl

/-- With empty levels the first round reads the front of one. -/
theorem Hollow.matchLoop {s : Side r} (h : s.Hollow)
    (hne : s.levels.entries ≠ []) (client : String) (price : κ) {v : Int}
    (hv : 0 < v) : s.matchLoop client price v = .error .emptyFront := by
  obtain ⟨⟨level, q⟩, rest, hentries⟩ := List.exists_cons_of_ne_nil hne
  have hfront : s.levels.front? = some (level, q) := by
    rw [SortedMap.front?, hentries]
    rfl
  have hbest : q = [] := h (level, q) (by rw [hentries]; exact .head _)
  subst hbest
  rw [matchLoop_round hfront client price hv]
  rfl

/-- A loop that is defined has changed nothing. -/
theorem Hollow.matchLoop_ok {s s' : Side r} (h : s.Hollow) {client : String}
    {price : κ} {v v' : Int} {fills : List (Fill κ)}
    (hok : s.matchLoop client price v = .ok (s', v', fills)) :
    s' = s ∧ v' = v ∧ fills = [] := by
  have hsame : s.matchLoop client price v = .ok (s, v, []) := by
    by_cases hv : 0 < v
    · by_cases hnil : s.levels.entries = []
      · exact matchLoop_of_nil hnil client price v
      · rw [h.matchLoop hnil client price hv] at hok
        cases hok
    · rw [Side.matchLoop, if_neg hv]
  cases hok.symm.trans hsame
  exact ⟨rfl, rfl, rfl⟩

end Side

/-! ## The book -/

/-- The prices of the levels of a side. -/
def levelPrices (book : LimitOrderBook κ) (buy : Bool) : List κ :=
  if buy then book.bids.levels.entries.map Prod.fst
  else book.asks.levels.entries.map Prod.fst

/-- All levels are empty, and no iterator kept is valid. -/
structure Hollow (book : LimitOrderBook κ) : Prop where
  bids : book.bids.Hollow
  asks : book.asks.Hollow
  gone : ∀ orderid node, book.orders orderid = some node → node.it = .gone

/-- The book after a `PlaceOrder` that meets no level. -/
def rested (book : LimitOrderBook κ) (price : κ) (volume : Int)
    (client : String) (buy : Bool) : LimitOrderBook κ where
  bids := if buy then (book.bids.rest client price volume true).1
    else book.bids
  asks := if buy then book.asks
    else (book.asks.rest client price volume false).1
  orders := book.orders.insert book.orderids ⟨.gone, price, buy⟩
  orderids := book.orderids + 1

theorem cancelOrder_none {book : LimitOrderBook κ} {orderid : ℕ}
    (h : book.orders orderid = none) :
    book.cancelOrder orderid = .ok (book, -1) := by
  simp only [cancelOrder, h]

theorem hollow_empty : Hollow (empty : LimitOrderBook κ) where
  bids := fun _ he => absurd he List.not_mem_nil
  asks := fun _ he => absurd he List.not_mem_nil
  gone := by
    intro orderid node h
    cases h

namespace Hollow

variable {book : LimitOrderBook κ}

theorem queue (h : Hollow book) (price : κ) (buy : Bool) :
    queue book price buy = [] := by
  cases buy with
  | true => exact h.bids.get? price
  | false => exact h.asks.get? price

/-- All that `PlaceOrder` can do to such a book. -/
theorem placeOrder (h : Hollow book) (price : κ) {volume : Int}
    (client : String) (buy : Bool) (hv : 0 < volume) :
    book.placeOrder price volume client buy =
      if levelPrices book (!buy) = [] then
        .ok (rested book price volume client buy, [], book.orderids)
      else .error .emptyFront := by
  have hv0 : volume ≠ 0 := by omega
  cases buy with
  | true =>
      have hlevels : levelPrices book (!true) = [] ↔
          book.asks.levels.entries = [] := List.map_eq_nil_iff
      rw [LimitOrderBook.placeOrder, if_pos rfl, placebid_]
      by_cases hnil : book.asks.levels.entries = []
      · rw [if_pos (hlevels.2 hnil), Side.matchLoop_of_nil hnil]
        simp only [if_pos hv0]
        rfl
      · rw [if_neg (fun h => hnil (hlevels.1 h)),
          h.asks.matchLoop hnil client price hv]
  | false =>
      have hlevels : levelPrices book (!false) = [] ↔
          book.bids.levels.entries = [] := List.map_eq_nil_iff
      rw [LimitOrderBook.placeOrder, if_neg Bool.false_ne_true, placeask_]
      by_cases hnil : book.bids.levels.entries = []
      · rw [if_pos (hlevels.2 hnil), Side.matchLoop_of_nil hnil]
        simp only [if_pos hv0]
        rfl
      · rw [if_neg (fun h => hnil (hlevels.1 h)),
          h.bids.matchLoop hnil client price hv]

/-- To a stored order the iterator that was kept is gone. -/
theorem cancelOrder_some (h : Hollow book) {orderid : ℕ} {node : OrderNode κ}
    (hnode : book.orders orderid = some node) :
    book.cancelOrder orderid = .error .dangling := by
  have hgone := h.gone orderid node hnode
  simp only [LimitOrderBook.cancelOrder, hnode, hgone]
  cases node.buy with
  | true => rfl
  | false => rfl

/-- All that `CancelOrder` can do to such a book. -/
theorem cancelOrder (h : Hollow book) (orderid : ℕ) :
    book.cancelOrder orderid = .ok (book, -1) ∨
      book.cancelOrder orderid = .error .dangling := by
  cases hnode : book.orders orderid with
  | none => exact Or.inl (cancelOrder_none hnode)
  | some node => exact Or.inr (h.cancelOrder_some hnode)

theorem rested (h : Hollow book) (price : κ) (volume : Int) (client : String)
    (buy : Bool) : Hollow (rested book price volume client buy) where
  bids := by
    cases buy with
    | true => exact h.bids.rest client price volume true
    | false => exact h.bids
  asks := by
    cases buy with
    | true => exact h.asks
    | false => exact h.asks.rest client price volume false
  gone := by
    intro orderid node hnode
    simp only [LimitOrderBook.rested, UnorderedMap.insert] at hnode
    split at hnode
    · exact h.gone orderid node hnode
    · rw [UnorderedMap.set_apply] at hnode
      split at hnode
      · rw [← Option.some.inj hnode]
      · exact h.gone orderid node hnode

/-- What a `PlaceOrder` that is defined does to such a book, whatever the
volume. -/
theorem placeOrder_ok (h : Hollow book) {price : κ} {volume : Int}
    {client : String} {buy : Bool} {book' : LimitOrderBook κ}
    {fills : List (Fill κ)} {id : ℕ}
    (hok : book.placeOrder price volume client buy = .ok (book', fills, id)) :
    fills = [] ∧ id = book.orderids ∧
      ((volume ≠ 0 ∧
          book' = LimitOrderBook.rested book price volume client buy) ∨
        (volume = 0 ∧ book' = { book with orderids := book.orderids + 1 })) := by
  cases buy with
  | true =>
      rw [LimitOrderBook.placeOrder, if_pos rfl, placebid_] at hok
      cases hloop : book.asks.matchLoop client price volume with
      | error e =>
          rw [hloop] at hok
          cases hok
      | ok result =>
          obtain ⟨asks, v, lines⟩ := result
          obtain ⟨rfl, rfl, rfl⟩ := h.asks.matchLoop_ok hloop
          rw [hloop] at hok
          by_cases hv : v ≠ 0
          · simp only [if_pos hv] at hok
            obtain ⟨hbook, hrest⟩ := Prod.mk.inj (Except.ok.inj hok)
            obtain ⟨hfills, hid⟩ := Prod.mk.inj hrest
            exact ⟨hfills.symm, hid.symm, Or.inl ⟨hv, hbook.symm⟩⟩
          · simp only [if_neg hv] at hok
            obtain ⟨hbook, hrest⟩ := Prod.mk.inj (Except.ok.inj hok)
            obtain ⟨hfills, hid⟩ := Prod.mk.inj hrest
            exact ⟨hfills.symm, hid.symm,
              Or.inr ⟨not_not.1 hv, hbook.symm⟩⟩
  | false =>
      rw [LimitOrderBook.placeOrder, if_neg Bool.false_ne_true, placeask_] at hok
      cases hloop : book.bids.matchLoop client price volume with
      | error e =>
          rw [hloop] at hok
          cases hok
      | ok result =>
          obtain ⟨bids, v, lines⟩ := result
          obtain ⟨rfl, rfl, rfl⟩ := h.bids.matchLoop_ok hloop
          rw [hloop] at hok
          by_cases hv : v ≠ 0
          · simp only [if_pos hv] at hok
            obtain ⟨hbook, hrest⟩ := Prod.mk.inj (Except.ok.inj hok)
            obtain ⟨hfills, hid⟩ := Prod.mk.inj hrest
            exact ⟨hfills.symm, hid.symm, Or.inl ⟨hv, hbook.symm⟩⟩
          · simp only [if_neg hv] at hok
            obtain ⟨hbook, hrest⟩ := Prod.mk.inj (Except.ok.inj hok)
            obtain ⟨hfills, hid⟩ := Prod.mk.inj hrest
            exact ⟨hfills.symm, hid.symm,
              Or.inr ⟨not_not.1 hv, hbook.symm⟩⟩

/-- Whatever the volume, an order leaves such a book such. -/
theorem of_placeOrder (h : Hollow book) {price : κ} {volume : Int}
    {client : String} {buy : Bool} {book' : LimitOrderBook κ}
    {fills : List (Fill κ)} {id : ℕ}
    (hok : book.placeOrder price volume client buy = .ok (book', fills, id)) :
    Hollow book' := by
  obtain ⟨_, _, ⟨_, rfl⟩ | ⟨_, rfl⟩⟩ := h.placeOrder_ok hok
  · exact h.rested price volume client buy
  · exact ⟨h.bids, h.asks, h.gone⟩

/-- Every call that is defined leaves such a book such. -/
theorem call {s s' : State κ} (h : Hollow s.book) {op : Op κ}
    (hcall : s.call op = .ok s') : Hollow s'.book := by
  cases op with
  | place price v client buy =>
      rw [State.call] at hcall
      split at hcall
      · cases hcall
      · next hplace =>
          rw [← Except.ok.inj hcall]
          exact h.of_placeOrder hplace
  | cancel orderid =>
      rcases h.cancelOrder orderid with hok | herror
      · simp only [State.call, hok] at hcall
        rw [← Except.ok.inj hcall]
        exact h
      · simp only [State.call, herror] at hcall
        cases hcall

end Hollow

/-! ## The books reached -/

theorem run_concat (ops : List (Op κ)) (op : Op κ) :
    run (ops ++ [op]) = (run ops).bind (fun s => s.call op) := by
  simp only [run, List.foldlM_append, List.foldlM_cons, List.foldlM_nil,
    bind_pure]
  rfl

/-- What holds at first, and after a call if it held before, holds wherever a
run ends. -/
theorem run_induction {P : List (Op κ) → State κ → Prop}
    (hnil : P [] ⟨.empty, []⟩)
    (hcall : ∀ ops s op s', P ops s → s.call op = .ok s' → P (ops ++ [op]) s')
    {ops : List (Op κ)} {s : State κ} (hrun : run ops = .ok s) : P ops s := by
  induction ops using List.reverseRecOn generalizing s with
  | nil =>
      rw [← Except.ok.inj hrun]
      exact hnil
  | append_singleton ops op ih =>
      rw [run_concat] at hrun
      cases hbefore : run ops with
      | error e =>
          rw [hbefore] at hrun
          cases hrun
      | ok t =>
          rw [hbefore] at hrun
          exact hcall ops t op s (ih hbefore) hrun

/-- The first order, which rests. -/
theorem run_place (price : κ) {volume : Int} (client : String) (buy : Bool)
    (hv : 0 < volume) :
    run [Op.place price volume client buy] =
      .ok ⟨rested .empty price volume client buy,
        [⟨0, price, buy, volume⟩]⟩ := by
  have hnone : levelPrices (.empty : LimitOrderBook κ) (!buy) = [] := by
    cases buy <;> rfl
  have hid : (.empty : LimitOrderBook κ).orderids = 0 := rfl
  have hplace := hollow_empty.placeOrder price client buy hv
  rw [if_pos hnone, hid] at hplace
  have hcall : State.call ⟨.empty, []⟩ (Op.place price volume client buy) =
      .ok ⟨rested .empty price volume client buy,
        [⟨0, price, buy, volume⟩]⟩ := by
    rw [State.call, hplace]
    simp
  exact (run_concat [] _).trans hcall

/-- In every book reached the levels are empty. -/
theorem hollow_run {ops : List (Op κ)} {s : State κ}
    (hrun : run ops = .ok s) : Hollow s.book :=
  run_induction (P := fun _ s => Hollow s.book) hollow_empty
    (fun _ _ _ _ h hcall => h.call hcall) hrun

end LearningCpp.LimitOrderBook
