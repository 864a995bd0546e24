import LearningCpp.Lib.SortedMap
import LearningCpp.Lib.UnorderedMap

/-!
# The limit order book

`leetcode/stl_datastructures/lbo.cpp`, function by function. A side of the book
is `bids_` with `bidvolumes_`, or `asks_` with `askvolumes_`; what the code has
once for each is here a definition about a side, and the two functions of the
source are that definition applied to their sides.

What goes wrong at run time is an error here: reading the first order of an
empty list, reading through an iterator into a list that is gone, and erasing
from a list an iterator that is not into it. Prices are of any linear order.
Volumes and ids are integers that do not wrap.

`orders_.emplace` is given the iterator, the price and the side where it takes
one `OrderNode`; it is modelled as putting in the node made of the three.
-/

namespace LearningCpp.LimitOrderBook

open LearningCpp.Lib

variable {κ : Type*}

structure Order (κ : Type*) where
  client : String
  price : κ
  volume : Int
  buy : Bool
deriving DecidableEq

/-- The iterators there are: to the first order of a level of the book, and
into a list that was destroyed when the function that made it returned. -/
inductive Iterator (κ : Type*) where
  | first (level : κ)
  | gone
deriving DecidableEq

structure OrderNode (κ : Type*) where
  it : Iterator κ
  price : κ
  buy : Bool
deriving DecidableEq

/-- A line the matching prints. -/
structure Fill (κ : Type*) where
  client : String
  matched : Int
  price : κ
  /-- The client of the resting order. -/
  other : String
deriving DecidableEq

/-- What is undefined. -/
inductive Undefined where
  | emptyFront
  | dangling
  | foreignErase
deriving DecidableEq

/-- `bids_` and `bidvolumes_`, or `asks_` and `askvolumes_`. -/
structure Side (r : κ → κ → Prop) where
  levels : SortedMap r (List (Order κ))
  volumes : UnorderedMap κ Int

namespace Side

variable [DecidableEq κ] {r : κ → κ → Prop}

def empty : Side r := ⟨.empty, .empty⟩

/-- The order an iterator is to. -/
def deref (s : Side r) : Iterator κ → Except Undefined (Order κ)
  | .first level =>
      match s.levels.get? level with
      | some (order :: _) => .ok order
      | _ => .error .emptyFront
  | .gone => .error .dangling

/-- `volumes[price] += volume`. -/
def addVolume (s : Side r) (price : κ) (volume : Int) : Side r :=
  let (old, volumes) := s.volumes.subscript price
  { s with volumes := volumes.set price (old + volume) }

variable [DecidableRel r] [IsStrictTotalOrder κ r]

/-- `cancelorder_` on its side. `operator[]` makes the level if there is none
at that price. -/
def cancelorder_ (s : Side r) (it : Iterator κ) (price : κ) :
    Except Undefined (Side r) :=
  match s.deref it with
  | .error e => .error e
  | .ok order =>
      let s := s.addVolume price (-order.volume)
      if it = .first price then
        .ok { s with levels := s.levels.upsert price
                      (fun level => (level.getD []).tail) }
      else .error .foreignErase

/-- The body of the matching loop, with the level `begin()` is at. -/
def matchBest (s : Side r) (client : String) (price : κ) (volume : Int) :
    κ × List (Order κ) → Except Undefined (Side r × Int × Fill κ)
  | (_, []) => .error .emptyFront
  | (level, bestorder :: rest) =>
      let matched := min volume bestorder.volume
      let volume := volume - matched
      let bestorder :=
        { bestorder with volume := bestorder.volume - matched }
      let s := { s with levels := s.levels.setFront (bestorder :: rest) }
      let fill : Fill κ :=
        ⟨client, matched, bestorder.price, bestorder.client⟩
      if bestorder.volume = 0 then
        match s.cancelorder_ (.first level) price with
        | .error e => .error e
        | .ok s => .ok (s, volume, fill)
      else .ok (s, volume, fill)

/-- The number of orders in the levels. -/
def count (s : Side r) : ℕ := s.levels.flat.length

/-! A round of the loop takes a whole order off, or uses the volume up. -/

theorem cancelorder_first {s s' : Side r} {level price : κ}
    {order : Order κ} {q : List (Order κ)}
    {rest : List (κ × List (Order κ))}
    (hentries : s.levels.entries = (level, order :: q) :: rest)
    (h : s.cancelorder_ (.first level) price = .ok s') :
    level = price ∧ s'.levels.entries = (level, q) :: rest := by
  have hget : s.levels.get? level = some (order :: q) := by
    simp [SortedMap.get?, hentries]
  have hderef : s.deref (.first level) = .ok order := by
    simp only [deref, hget]
  simp only [cancelorder_, hderef] at h
  split at h
  · next hlevel =>
      have heq : level = price := Iterator.first.inj hlevel
      refine ⟨heq, ?_⟩
      rw [← Except.ok.inj h, ← heq]
      simp only [SortedMap.upsert, addVolume, hentries]
      exact upsertEntries_front _ _ _ _
  · cases h

theorem matchBest_decreases {s s' : Side r} {client : String} {price : κ}
    {volume volume' : Int} {best : κ × List (Order κ)} {fill : Fill κ}
    (hfront : s.levels.front? = some best)
    (h : s.matchBest client price volume best = .ok (s', volume', fill)) :
    s'.count < s.count ∨ (s'.count = s.count ∧ volume' = 0) := by
  obtain ⟨level, q⟩ := best
  obtain ⟨rest, hentries⟩ := List.head?_eq_some_iff.1 hfront
  cases q with
  | nil => cases h
  | cons bestorder q =>
      have hcount := SortedMap.length_flat hentries
      simp only [matchBest] at h
      split at h
      · split at h
        · cases h
        · next s'' hcancel =>
            obtain ⟨hs, _⟩ := Prod.mk.inj (Except.ok.inj h)
            obtain ⟨_, hleft⟩ := cancelorder_first
              (SortedMap.setFront_entries hentries) hcancel
            left
            rw [← hs, count, count, SortedMap.length_flat hleft, hcount,
              List.length_cons]
            omega
      · next hnonzero =>
          obtain ⟨hs, hrest⟩ := Prod.mk.inj (Except.ok.inj h)
          obtain ⟨hvolume, _⟩ := Prod.mk.inj hrest
          right
          constructor
          · rw [← hs, count, count, SortedMap.length_flat (SortedMap.setFront_entries hentries),
              hcount, List.length_cons, List.length_cons]
          · omega

/-- `while (volume > 0 && !levels.empty())`: the side that is left, the volume
that is left, and the lines printed. -/
def matchLoop (s : Side r) (client : String) (price : κ) (volume : Int) :
    Except Undefined (Side r × Int × List (Fill κ)) :=
  if volume > 0 then
    match _hfront : s.levels.front? with
    | none => .ok (s, volume, [])
    | some best =>
        match _hround : s.matchBest client price volume best with
        | .error e => .error e
        | .ok (s, volume, fill) =>
            match s.matchLoop client price volume with
            | .error e => .error e
            | .ok (s, volume, fills) => .ok (s, volume, fill :: fills)
  else .ok (s, volume, [])
termination_by (s.count, volume.toNat)
decreasing_by
  rcases matchBest_decreases _hfront _hround with hless | ⟨hsame, hzero⟩
  · exact Prod.Lex.left _ _ hless
  · rw [hsame, hzero]
    exact Prod.Lex.right _ (by omega)

/-- One round, and the rest of the loop. -/
theorem matchLoop_round {s : Side r} {best : κ × List (Order κ)}
    (hfront : s.levels.front? = some best) (client : String) (price : κ)
    {v : Int} (hv : 0 < v) :
    s.matchLoop client price v =
      match s.matchBest client price v best with
      | .error e => .error e
      | .ok (s, v, fill) =>
          match s.matchLoop client price v with
          | .error e => .error e
          | .ok (s, v, fills) => .ok (s, v, fill :: fills) := by
  rw [matchLoop, if_pos hv]
  split
  · next hnone =>
      rw [hfront] at hnone
      cases hnone
  · next b hsome =>
      obtain rfl : best = b := Option.some.inj (hfront.symm.trans hsome)
      split
      · next herror => rw [herror]
      · next hok => rw [hok]

/-- After a volume is used up there are no more rounds. -/
theorem matchLoop_zero (s : Side r) (client : String) (price : κ) :
    s.matchLoop client price 0 = .ok (s, 0, []) := by
  rw [matchLoop, if_neg (lt_irrefl (0 : Int))]

/-- What is done with the volume that is left: `auto list = levels[price]` is
a copy, which gets the order; the level in the book does not. -/
def rest (s : Side r) (client : String) (price : κ) (volume : Int)
    (buy : Bool) : Side r × List (Order κ) :=
  let levels := s.levels.upsert price (fun level => level.getD [])
  let list := (levels.get? price).getD [] ++ [⟨client, price, volume, buy⟩]
  (({ s with levels } : Side r).addVolume price volume, list)

end Side

end LearningCpp.LimitOrderBook

namespace LearningCpp

open LearningCpp.Lib LearningCpp.LimitOrderBook

structure LimitOrderBook (κ : Type*) [LinearOrder κ] where
  bids : Side (fun p q : κ => p > q)
  asks : Side (fun p q : κ => p < q)
  orders : UnorderedMap ℕ (OrderNode κ)
  orderids : ℕ

namespace LimitOrderBook

variable {κ : Type*} [LinearOrder κ]

def empty : LimitOrderBook κ := ⟨.empty, .empty, .empty, 0⟩

/-- `cancelorder_`. -/
def cancelorder_ (book : LimitOrderBook κ) (it : Iterator κ) (price : κ)
    (buy : Bool) : Except Undefined (LimitOrderBook κ) :=
  if buy then
    match book.bids.cancelorder_ it price with
    | .error e => .error e
    | .ok bids => .ok { book with bids }
  else
    match book.asks.cancelorder_ it price with
    | .error e => .error e
    | .ok asks => .ok { book with asks }

/-- `placebid_`. The iterator it returns is to the end of the copy. -/
def placebid_ (book : LimitOrderBook κ) (price : κ) (volume : Int)
    (client : String) : Except Undefined
      (LimitOrderBook κ × Option (Iterator κ) × List (Fill κ)) :=
  match book.asks.matchLoop client price volume with
  | .error e => .error e
  | .ok (asks, volume, fills) =>
      if volume ≠ 0 then
        let (bids, _) := book.bids.rest client price volume true
        .ok ({ book with bids, asks }, some .gone, fills)
      else .ok ({ book with asks }, none, fills)

/-- `placeask_`. -/
def placeask_ (book : LimitOrderBook κ) (price : κ) (volume : Int)
    (client : String) : Except Undefined
      (LimitOrderBook κ × Option (Iterator κ) × List (Fill κ)) :=
  match book.bids.matchLoop client price volume with
  | .error e => .error e
  | .ok (bids, volume, fills) =>
      if volume ≠ 0 then
        let (asks, _) := book.asks.rest client price volume false
        .ok ({ book with bids, asks }, some .gone, fills)
      else .ok ({ book with bids }, none, fills)

/-- `PlaceOrder`: the book, the lines printed and the id. -/
def placeOrder (book : LimitOrderBook κ) (price : κ) (volume : Int)
    (client : String) (buy : Bool) :
    Except Undefined (LimitOrderBook κ × List (Fill κ) × ℕ) :=
  match (if buy then book.placebid_ price volume client
      else book.placeask_ price volume client) with
  | .error e => .error e
  | .ok (book, none, fills) =>
      .ok ({ book with orderids := book.orderids + 1 }, fills, book.orderids)
  | .ok (book, some it, fills) =>
      .ok ({ book with
              orders := book.orders.insert book.orderids ⟨it, price, buy⟩
              orderids := book.orderids + 1 }, fills, book.orderids)

/-- `CancelOrder`. -/
def cancelOrder (book : LimitOrderBook κ) (orderid : ℕ) :
    Except Undefined (LimitOrderBook κ × Int) :=
  match book.orders orderid with
  | none => .ok (book, -1)
  | some node =>
      match book.cancelorder_ node.it node.price node.buy with
      | .error e => .error e
      | .ok book => .ok (book, 0)

/-- `GetPriceVolume`, which makes the entry if there is none. -/
def getPriceVolume (book : LimitOrderBook κ) (price : κ) (buy : Bool) :
    LimitOrderBook κ × Int :=
  if buy then
    let (volume, volumes) := book.bids.volumes.subscript price
    ({ book with bids := { book.bids with volumes } }, volume)
  else
    let (volume, volumes) := book.asks.volumes.subscript price
    ({ book with asks := { book.asks with volumes } }, volume)

end LimitOrderBook

end LearningCpp
