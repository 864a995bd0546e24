import LearningCpp.Lib.Run
import LearningCpp.Lib.SortedMap
import LearningCpp.Lib.UnorderedMap

/-!
# The order book

`get_cracked/coding/orderbook.cpp`, function by function. The two sides are
maps from a price to the deque of orders resting there, `bids_` sorted with
`std::greater` and `asks_` with `std::less`; `orders_` keeps for each id the
level it rests at, its priority and whether it was cancelled. Cancelling only
sets the flag, and `match` throws the order away when it meets it.

Prices and ids are only ever compared, so a `Price` is an `Int` and an `Id` a
`Nat`. A `Quantity` and the priority counter are integers that do not wrap;
`TwoBooks` puts the counter back into its 64 bits and says what that takes.
-/

namespace LearningCpp.Orderbook

open LearningCpp.Lib

abbrev Id := Nat

structure Order where
  orderId : Id
  level : Int
  isBuy : Bool
  quantity : Int
deriving DecidableEq, Repr

structure Trade where
  orderIdA : Id
  /-- The aggressor's id. -/
  orderIdB : Id
  aggressorOrderId : Id
  aggressorIsBuy : Bool
  level : Int
  size : Int
deriving DecidableEq, Repr

abbrev Trades := List Trade

structure OrderMetadata where
  level : Int
  priority : Nat
  canceled : Bool
deriving DecidableEq, Repr

instance : Inhabited OrderMetadata := ⟨⟨0, 0, false⟩⟩

/-- The ways out of a call that are not a return: the exception `Fill`
throws, and the budget of a loop running out before the loop does. -/
inductive Fault where
  | logicError (what : String)
  | outOfFuel
deriving DecidableEq, Repr

/-- `Fill`. Quantities are exact integers: the program's `int` as long as no
difference leaves its range, as none does between positive quantities. -/
def Order.fill (o : Order) (size : Int) : Except Fault Order :=
  if size > o.quantity then
    .error (.logicError "Fill size is greater than existing quantity")
  else .ok { o with quantity := o.quantity - size }

abbrev Metadata := UnorderedMap Id OrderMetadata

abbrev Bids := SortedMap (fun p q : Int => p > q) (List Order)
abbrev Asks := SortedMap (fun p q : Int => p < q) (List Order)

end LearningCpp.Orderbook

namespace LearningCpp

open LearningCpp.Orderbook

structure Orderbook where
  bids : Bids
  asks : Asks
  orders : Metadata

namespace Orderbook

open LearningCpp.Lib

def empty : Orderbook := ⟨.empty, .empty, .empty⟩

/-- What one round of the inner loop leaves of the two front orders (`none`
where it pops one), the metadata, and the trade it makes if it makes one. -/
structure Round where
  bid : Option Order
  ask : Option Order
  orders : Metadata
  trade : Option Trade

/-- One round of the inner loop of `match`, on the two front orders. -/
def matchFront (orders : Metadata) (bid ask : Order) : Except Fault Round :=
  let (bidMeta, orders) := orders.subscript bid.orderId
  if bidMeta.canceled then .ok ⟨none, some ask, orders, none⟩
  else
    let (askMeta, orders) := orders.subscript ask.orderId
    if askMeta.canceled then .ok ⟨some bid, none, orders, none⟩
    else
      let (bidMeta, orders) := orders.subscript bid.orderId
      let (askMeta, orders) := orders.subscript ask.orderId
      let aggressorId :=
        if bidMeta.priority > askMeta.priority then bid.orderId
        else ask.orderId
      let existingId :=
        if bidMeta.priority < askMeta.priority then bid.orderId
        else ask.orderId
      let fillSize := min bid.quantity ask.quantity
      let (existingMeta, orders) := orders.subscript existingId
      match ask.fill fillSize with
      | .error e => .error e
      | .ok ask =>
        match bid.fill fillSize with
        | .error e => .error e
        | .ok bid =>
          let trade : Trade :=
            { orderIdA := existingId, orderIdB := aggressorId
              aggressorOrderId := aggressorId
              aggressorIsBuy := aggressorId == bid.orderId
              level := existingMeta.level, size := fillSize }
          let orders :=
            if bid.quantity = 0 then orders.erase bid.orderId else orders
          let orders :=
            if ask.quantity = 0 then orders.erase ask.orderId else orders
          .ok
            { bid := if bid.quantity = 0 then none else some bid
              ask := if ask.quantity = 0 then none else some ask
              orders, trade := some trade }

/-- What the inner loop works on: the deques of the two best levels, the
metadata and the trades so far. -/
structure LevelState where
  bidsAtPrice : List Order
  asksAtPrice : List Order
  orders : Metadata
  trades : Trades

/-- The inner loop of `match`. -/
def matchLevel : Nat → LevelState → Except Fault LevelState
  | fuel, s =>
    match s.bidsAtPrice, s.asksAtPrice with
    | bid :: bids, ask :: asks =>
      match fuel with
      | 0 => .error .outOfFuel
      | fuel + 1 =>
        match matchFront s.orders bid ask with
        | .error e => .error e
        | .ok r =>
          matchLevel fuel
            { bidsAtPrice := r.bid.toList ++ bids
              asksAtPrice := r.ask.toList ++ asks
              orders := r.orders
              trades := s.trades ++ r.trade.toList }
    | _, _ => .ok s

/-- The outer loop of `match`. Every round empties at least one deque, so
their lengths bound the inner loop. -/
def matchLoop : Nat → Orderbook → Trades → Except Fault (Orderbook × Trades)
  | fuel, book, trades =>
    match book.bids.front?, book.asks.front? with
    | some (bidPrice, bidsAtPrice), some (askPrice, asksAtPrice) =>
      if bidPrice < askPrice then .ok (book, trades)
      else
        match fuel with
        | 0 => .error .outOfFuel
        | fuel + 1 =>
          match matchLevel (bidsAtPrice.length + asksAtPrice.length)
              ⟨bidsAtPrice, asksAtPrice, book.orders, trades⟩ with
          | .error e => .error e
          | .ok s =>
            let bids :=
              if s.bidsAtPrice.isEmpty then
                (book.bids.setFront s.bidsAtPrice).erase bidPrice
              else book.bids.setFront s.bidsAtPrice
            let asks :=
              if s.asksAtPrice.isEmpty then
                (book.asks.setFront s.asksAtPrice).erase askPrice
              else book.asks.setFront s.asksAtPrice
            matchLoop fuel ⟨bids, asks, s.orders⟩ s.trades
    | _, _ => .ok (book, trades)

/-- `Orderbook::match`. -/
def matchOrders (book : Orderbook) :
    Except Fault (Orderbook × Trades) :=
  matchLoop (book.bids.entries.length + book.asks.entries.length) book []

/-- `bids_[order.Level()].push_back(order)`, or the same on the asks, and the
new entry of `orders_`. -/
def insertOrder (book : Orderbook) (priority : Nat) (order : Order) :
    Orderbook where
  bids :=
    if order.isBuy then book.bids.pushBack order.level order else book.bids
  asks :=
    if order.isBuy then book.asks else book.asks.pushBack order.level order
  orders := book.orders.insert order.orderId ⟨order.level, priority, false⟩

/-- `Orderbook::AddOrder`. The counter is static in the class, so it is not
part of the book. -/
def addOrder (book : Orderbook) (currPriority : Nat)
    (order : Order) : (Orderbook × Nat) × Except Fault Trades :=
  if book.orders.contains order.orderId then ((book, currPriority), .ok [])
  else
    let book := book.insertOrder currPriority order
    match book.matchOrders with
    | .error e => ((book, currPriority + 1), .error e)
    | .ok (book, trades) => ((book, currPriority + 1), .ok trades)

/-- `Orderbook::CancelOrder`. -/
def cancelOrder (book : Orderbook) (orderId : Id) : Orderbook :=
  if !book.orders.contains orderId then book
  else
    let (orderMeta, orders) := book.orders.subscript orderId
    { book with orders := orders.set orderId { orderMeta with canceled := true } }

/-- A call to the book. -/
inductive Op where
  | add (order : Order)
  | cancel (orderId : Id)
deriving DecidableEq, Repr

/-- One book and the counter, as a call changes them. `CancelOrder` returns
nothing, which is answered here like the empty `Trades`. -/
def step (s : Orderbook × Nat) : Op → (Orderbook × Nat) × Except Fault Trades
  | .add order => s.1.addOrder s.2 order
  | .cancel orderId => ((s.1.cancelOrder orderId, s.2), .ok [])

/-- A fresh book, made when the counter of the process is at `curr`. -/
def init (curr : Nat) : Orderbook × Nat := (.empty, curr)

end Orderbook

end LearningCpp
