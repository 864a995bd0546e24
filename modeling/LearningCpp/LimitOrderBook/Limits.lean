import LearningCpp.LimitOrderBook.Runs

/-!
# Limit prices

What a `PlaceOrder` that respects its limit does, and when the code does it. The
matching loop has no look at the limit, and it takes the front of a level that
is empty in every book there is, so all depends on whether the other side has
any level.
-/

namespace LearningCpp.LimitOrderBook

open LearningCpp.Lib

variable {κ : Type*} [LinearOrder κ]

/-- A run of calls ends in the book. -/
def Reachable (book : LimitOrderBook κ) : Prop :=
  ∃ (ops : List (Op κ)) (s : State κ), run ops = .ok s ∧ s.book = book

/-- A price is not worse than the limit of a bid, or of an ask. -/
def Within (buy : Bool) (limit price : κ) : Prop :=
  if buy then price ≤ limit else limit ≤ price

/-- A side is the same in both books. -/
def SameSide (buy : Bool) (book book' : LimitOrderBook κ) : Prop :=
  if buy then book'.bids = book.bids else book'.asks = book.asks

/-- The order goes to the back of its queue. -/
def Rests (book book' : LimitOrderBook κ) (price : κ) (volume : Int)
    (client : String) (buy : Bool) : Prop :=
  queue book' price buy =
    queue book price buy ++ [⟨client, price, volume, buy⟩]

/-- `PlaceOrder` respects the limit of the order. -/
structure RespectsLimit (book : LimitOrderBook κ) (price : κ) (volume : Int)
    (client : String) (buy : Bool) : Prop where
  /-- It does not take the front of an empty level. -/
  front : book.placeOrder price volume client buy ≠ .error .emptyFront
  /-- It matches with no resting order whose price is worse. -/
  within : ∀ book' fills id,
    book.placeOrder price volume client buy = .ok (book', fills, id) →
      ∀ fill ∈ fills, Within buy price fill.price
  /-- If the best price of the other side is worse, the order rests. -/
  rests : ∀ best ∈ (levelPrices book (!buy)).head?, ¬ Within buy price best →
    ∃ book' fills id,
      book.placeOrder price volume client buy = .ok (book', fills, id) ∧
        SameSide (!buy) book book' ∧ Rests book book' price volume client buy

theorem Reachable.hollow {book : LimitOrderBook κ} (h : Reachable book) :
    Hollow book := by
  obtain ⟨ops, s, hrun, hbook⟩ := h
  rw [← hbook]
  exact hollow_run hrun

/-- What the code does with an order when the book is hollow. -/
theorem Hollow.respectsLimit_iff {book : LimitOrderBook κ} (h : Hollow book)
    (price : κ) {volume : Int} (client : String) (buy : Bool)
    (hv : 0 < volume) :
    RespectsLimit book price volume client buy ↔
      levelPrices book (!buy) = [] := by
  have hplace := h.placeOrder price client buy hv
  constructor
  · intro hrespects
    by_contra hlevel
    rw [if_neg hlevel] at hplace
    exact hrespects.front hplace
  · intro hnil
    rw [if_pos hnil] at hplace
    constructor
    case front =>
      rw [hplace]
      intro herror
      cases herror
    case within =>
      intro book' fills id hok fill hfill
      rw [hplace] at hok
      obtain ⟨_, hrest⟩ := Prod.mk.inj (Except.ok.inj hok)
      rw [← (Prod.mk.inj hrest).1] at hfill
      cases hfill
    case rests =>
      intro best hbest
      rw [hnil] at hbest
      cases hbest

/-- If the levels did hold orders, the limit would still not be looked at: a
volume less than the first order's is matched at the price of that order. -/
theorem Side.matchLoop_within_first {r : κ → κ → Prop} [DecidableRel r]
    [IsStrictTotalOrder κ r] {s : Side r} {level : κ} {order : Order κ}
    {q : List (Order κ)} (hfront : s.levels.front? = some (level, order :: q))
    (client : String) (price : κ) {volume : Int} (hv : 0 < volume)
    (hless : volume < order.volume) :
    s.matchLoop client price volume =
      .ok (⟨s.levels.setFront
          ({ order with volume := order.volume - volume } :: q), s.volumes⟩, 0,
        [⟨client, volume, order.price, order.client⟩]) := by
  have hround : s.matchBest client price volume (level, order :: q) =
      .ok (⟨s.levels.setFront
          ({ order with volume := order.volume - volume } :: q), s.volumes⟩, 0,
        ⟨client, volume, order.price, order.client⟩) := by
    have hmatched : min volume order.volume = volume := min_eq_left hless.le
    have hleft : order.volume - volume ≠ 0 := by omega
    simp only [matchBest, hmatched, Int.sub_self, if_neg hleft]
  rw [matchLoop_round hfront client price hv, hround]
  simp only [matchLoop_zero]

/-- No order is in its queue after it was placed. -/
theorem Hollow.not_rests {book book' : LimitOrderBook κ} (h : Hollow book)
    {price : κ} {volume : Int} {client : String} {buy : Bool}
    (hv : 0 < volume) {fills : List (Fill κ)} {id : ℕ}
    (hok : book.placeOrder price volume client buy = .ok (book', fills, id)) :
    ¬ Rests book book' price volume client buy := by
  rw [h.placeOrder price client buy hv] at hok
  split at hok
  · have hbook := (Prod.mk.inj (Except.ok.inj hok)).1
    have hafter := (h.rested price volume client buy).queue price buy
    rw [hbook] at hafter
    rw [Rests, hafter, h.queue]
    exact List.cons_ne_nil _ _ ∘ Eq.symm
  · cases hok

/-- **`PlaceOrder` respects the limit if and only if the other side has no
level**; and even then the order does not get into its queue. -/
theorem placeOrder_respectsLimit_iff {book : LimitOrderBook κ}
    (hbook : Reachable book) (price : κ) {volume : Int} (client : String)
    (buy : Bool) (hv : 0 < volume) :
    (RespectsLimit book price volume client buy ↔
        levelPrices book (!buy) = []) ∧
      ∀ book' fills id,
        book.placeOrder price volume client buy = .ok (book', fills, id) →
          ¬ Rests book book' price volume client buy :=
  ⟨hbook.hollow.respectsLimit_iff price client buy hv,
    fun _ _ _ hok => hbook.hollow.not_rests hv hok⟩

theorem reachable_empty : Reachable (empty : LimitOrderBook κ) :=
  ⟨[], _, rfl, rfl⟩

theorem placeOrder_respectsLimit_iff_empty :
    (RespectsLimit (empty : LimitOrderBook Int) 10 5 "alice" true ↔
        levelPrices (empty : LimitOrderBook Int) (!true) = []) ∧
      ∀ book' fills id,
        (empty : LimitOrderBook Int).placeOrder 10 5 "alice" true =
            .ok (book', fills, id) →
          ¬ Rests empty book' 10 5 "alice" true :=
  placeOrder_respectsLimit_iff reachable_empty 10 "alice" true (by omega)

/-- An ask at 10, and then a bid at 9, which does not cross: the front of the
empty level at 10 is read. -/
theorem not_respectsLimit_bid_below_ask :
    ∃ book : LimitOrderBook Int, Reachable book ∧
      levelPrices book (!true) = [10] ∧ ¬ Within true (9 : Int) 10 ∧
      book.placeOrder 9 5 "bob" true = .error .emptyFront ∧
      ¬ RespectsLimit book 9 5 "bob" true := by
  have hpos : (0 : Int) < 5 := by omega
  have hhollow := (hollow_empty (κ := Int)).rested 10 5 "alice" false
  have hplace := hhollow.placeOrder 9 "bob" true hpos
  have hlevels :
      levelPrices (rested (empty : LimitOrderBook Int) 10 5 "alice" false)
        (!true) = [10] := rfl
  rw [hlevels, if_neg (List.cons_ne_nil _ _)] at hplace
  refine ⟨_, ⟨[.place 10 5 "alice" false], _, run_place 10 "alice" false hpos,
    rfl⟩, hlevels, by simp [Within], hplace, ?_⟩
  exact fun h => h.front hplace

end LearningCpp.LimitOrderBook
