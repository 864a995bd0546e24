import LearningCpp.LimitOrderBook.Runs

/-!
# Cancelling an order

`CancelOrder` is to take a resting order out of its queue and off the volume
of its price, and to answer -1 to every other id. Which orders rest is read off
the ledger of the run.

The second half the code does: an id is in `orders_` exactly if its order
rests, in every state reached. The first half it never does. What is stored
with the id is the end of the copy of the level that the order went to, and
`cancelorder_` begins by reading through it.
-/

namespace LearningCpp.LimitOrderBook

open LearningCpp.Lib

variable {κ : Type*} [LinearOrder κ]

/-- The order was placed, and some of it is neither matched nor cancelled. -/
def Resting (s : State κ) (order : Placed κ) : Prop :=
  order ∈ s.ledger ∧ order.remaining ≠ 0

/-- The resting orders before it in its queue. -/
def ahead (s : State κ) (order : Placed κ) : List (Placed κ) :=
  s.ledger.filter (fun o => o.price = order.price ∧ o.buy = order.buy ∧
    o.remaining ≠ 0 ∧ o.id < order.id)

/-- The order is taken out of its queue, and what was left of it off the volume
of its price; nothing else changes. -/
structure TakenOut (s : State κ) (order : Placed κ)
    (book : LimitOrderBook κ) : Prop where
  queued : ∃ o, (queue s.book order.price order.buy)[(ahead s order).length]? =
    some o ∧ o.volume = order.remaining
  removed : queue book order.price order.buy =
    (queue s.book order.price order.buy).eraseIdx (ahead s order).length
  others : ∀ price buy, ¬ (price = order.price ∧ buy = order.buy) →
    queue book price buy = queue s.book price buy
  volumes : ∀ price buy, (book.getPriceVolume price buy).2 =
    (s.book.getPriceVolume price buy).2 -
      if price = order.price ∧ buy = order.buy then order.remaining else 0

/-- What `CancelOrder` is to do with an id. -/
structure CancelsExactly (s : State κ) (orderid : ℕ) : Prop where
  resting : ∀ order, Resting s order → order.id = orderid →
    ∃ book, s.book.cancelOrder orderid = .ok (book, 0) ∧ TakenOut s order book
  other : (∀ order, Resting s order → order.id ≠ orderid) →
    s.book.cancelOrder orderid = .ok (s.book, -1)

/-! ## The ids that are stored -/

/-- The ids in `orders_` are those of the resting orders. -/
structure Kept (s : State κ) : Prop where
  hollow : Hollow s.book
  stored : ∀ id, (∃ node, s.book.orders id = some node) ↔
    ∃ order, Resting s order ∧ order.id = id
  fresh : ∀ order ∈ s.ledger, order.id < s.book.orderids

theorem kept_empty : Kept (⟨.empty, []⟩ : State κ) where
  hollow := hollow_empty
  stored := by
    intro id
    constructor
    · rintro ⟨node, hnode⟩
      cases hnode
    · rintro ⟨order, ⟨hmem, _⟩, _⟩
      cases hmem
  fresh := fun _ horder => absurd horder List.not_mem_nil

namespace Kept

variable {s s' : State κ}

/-- The id an order is given is not stored yet. -/
theorem orderids_free (h : Kept s) :
    s.book.orders s.book.orderids = none := by
  by_contra hne
  obtain ⟨node, hnode⟩ := Option.ne_none_iff_exists'.1 hne
  obtain ⟨order, ⟨hmem, _⟩, hid⟩ := (h.stored _).1 ⟨node, hnode⟩
  exact (h.fresh order hmem).ne hid

theorem place (h : Kept s) {price : κ} {volume : Int} {client : String}
    {buy : Bool} (hcall : s.call (.place price volume client buy) = .ok s') :
    Kept s' := by
  rw [State.call] at hcall
  split at hcall
  · cases hcall
  · next book fills id hplace =>
      obtain ⟨rfl, rfl, hbook⟩ := h.hollow.placeOrder_ok hplace
      have hhollow := h.hollow.of_placeOrder hplace
      obtain rfl := Except.ok.inj hcall
      have hfresh : ∀ order ∈ s.ledger ++
          [⟨s.book.orderids, price, buy, volume - 0⟩],
          order.id < s.book.orderids + 1 := by
        intro order horder
        rcases List.mem_append.1 horder with hmem | hmem
        · exact Nat.lt_succ_of_lt (h.fresh order hmem)
        · rw [List.mem_singleton.1 hmem]
          exact Nat.lt_succ_self _
      have hresting : ∀ id, (∃ order : Placed κ, (order ∈ s.ledger ++
          [⟨s.book.orderids, price, buy, volume - 0⟩] ∧
            order.remaining ≠ 0) ∧ order.id = id) ↔
          (∃ order, Resting s order ∧ order.id = id) ∨
            (volume ≠ 0 ∧ s.book.orderids = id) := by
        intro id
        simp only [List.mem_append, List.mem_singleton, Resting]
        constructor
        · rintro ⟨order, ⟨hmem | rfl, hne⟩, hid⟩
          · exact Or.inl ⟨order, ⟨hmem, hne⟩, hid⟩
          · exact Or.inr ⟨by simpa using hne, hid⟩
        · rintro (⟨order, ⟨hmem, hne⟩, hid⟩ | ⟨hv, hid⟩)
          · exact ⟨order, ⟨Or.inl hmem, hne⟩, hid⟩
          · exact ⟨_, ⟨Or.inr rfl, by simpa using hv⟩, hid⟩
      rcases hbook with ⟨hv, rfl⟩ | ⟨hv, rfl⟩
      · refine ⟨hhollow, ?_, hfresh⟩
        intro id
        refine Iff.trans ?_ (hresting id).symm
        have hfree := UnorderedMap.contains_eq_false.2 h.orderids_free
        simp only [rested, UnorderedMap.insert_of_not_contains hfree,
          UnorderedMap.set_apply, ← h.stored id]
        by_cases hid : id = s.book.orderids
        · simp [hid, hv]
        · simp [hid, Ne.symm hid]
      · refine ⟨hhollow, ?_, hfresh⟩
        intro id
        refine Iff.trans ?_ (hresting id).symm
        simp only [hv, ne_eq, not_true_eq_false, false_and, or_false]
        exact h.stored id

theorem call (h : Kept s) {op : Op κ} (hcall : s.call op = .ok s') :
    Kept s' := by
  cases op with
  | place price volume client buy => exact h.place hcall
  | cancel orderid =>
      rcases h.hollow.cancelOrder orderid with hok | herror
      · simp only [State.call, hok] at hcall
        rw [← Except.ok.inj hcall]
        exact h
      · simp only [State.call, herror] at hcall
        cases hcall

/-- A resting order cannot be cancelled. -/
theorem cancelOrder_resting (h : Kept s) {order : Placed κ}
    (horder : Resting s order) :
    s.book.cancelOrder order.id = .error .dangling := by
  obtain ⟨node, hnode⟩ := (h.stored order.id).2 ⟨order, horder, rfl⟩
  exact h.hollow.cancelOrder_some hnode

theorem cancelOrder_other (h : Kept s) {orderid : ℕ}
    (hnone : ∀ order, Resting s order → order.id ≠ orderid) :
    s.book.cancelOrder orderid = .ok (s.book, -1) := by
  refine cancelOrder_none ?_
  by_contra hne
  obtain ⟨node, hnode⟩ := Option.ne_none_iff_exists'.1 hne
  obtain ⟨order, horder, hid⟩ := (h.stored orderid).1 ⟨node, hnode⟩
  exact hnone order horder hid

end Kept

theorem kept_run {ops : List (Op κ)} {s : State κ} (hrun : run ops = .ok s) :
    Kept s :=
  run_induction (P := fun _ s => Kept s) kept_empty
    (fun _ _ _ _ h hcall => h.call hcall) hrun

/-- **`CancelOrder` does with an id what it is to do if and only if no resting
order has it**; with the id of a resting order it reads through an iterator
into a list that is gone. -/
theorem cancelsExactly_iff {ops : List (Op κ)} {s : State κ}
    (hrun : run ops = .ok s) (orderid : ℕ) :
    (CancelsExactly s orderid ↔
        ∀ order, Resting s order → order.id ≠ orderid) ∧
      ∀ order, Resting s order →
        s.book.cancelOrder order.id = .error .dangling := by
  have hkept := kept_run hrun
  refine ⟨⟨?_, ?_⟩, fun order => hkept.cancelOrder_resting⟩
  · intro hexact order horder hid
    obtain ⟨book, hok, _⟩ := hexact.resting order horder hid
    rw [← hid, hkept.cancelOrder_resting horder] at hok
    cases hok
  · intro hnone
    exact ⟨fun order horder hid => absurd hid (hnone order horder),
      hkept.cancelOrder_other⟩

/-- The book after one bid, with the ledger. -/
def oneBid : State Int :=
  ⟨rested .empty 10 5 "alice" true, [⟨0, 10, true, 5⟩]⟩

theorem run_oneBid : run [Op.place (10 : Int) 5 "alice" true] = .ok oneBid :=
  run_place 10 "alice" true (by omega)

theorem cancelsExactly_iff_oneBid :
    (CancelsExactly oneBid 1 ↔
        ∀ order, Resting oneBid order → order.id ≠ 1) ∧
      ∀ order, Resting oneBid order →
        oneBid.book.cancelOrder order.id = .error .dangling :=
  cancelsExactly_iff run_oneBid 1

/-- One bid, which rests, and its cancellation. -/
theorem cancel_oneBid :
    Resting oneBid ⟨0, 10, true, 5⟩ ∧
      oneBid.book.cancelOrder 0 = .error .dangling ∧
      ¬ CancelsExactly oneBid 0 := by
  have hresting : Resting oneBid ⟨0, 10, true, 5⟩ :=
    ⟨List.mem_singleton.2 rfl, by decide⟩
  have hcancel := (kept_run run_oneBid).cancelOrder_resting hresting
  refine ⟨hresting, hcancel, ?_⟩
  intro hexact
  obtain ⟨book, hok, _⟩ := hexact.resting _ hresting rfl
  rw [hcancel] at hok
  cases hok

end LearningCpp.LimitOrderBook
