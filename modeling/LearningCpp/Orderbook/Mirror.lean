import LearningCpp.Orderbook.Market

/-!
# The two sides are treated alike

`match` writes the bids and the asks out: which deque is read first, which
order a comparison of priorities picks, which of two fills is called. None of
it shows. If buyers become sellers and every price its negative, the book
returns the same trades with the roles exchanged.

On the market this is seen at once, because it has one definition for both
sides; `run_mirror` is what it says about the book.
-/

namespace LearningCpp.Orderbook

open LearningCpp.Lib

def Order.mirror (o : Order) : Order :=
  { o with level := -o.level, isBuy := !o.isBuy }

def Trade.mirror (t : Trade) : Trade :=
  { t with aggressorIsBuy := !t.aggressorIsBuy, level := -t.level }

def Offer.mirror (a : Offer) : Offer := { a with level := -a.level }

end LearningCpp.Orderbook

namespace LearningCpp

open LearningCpp.Orderbook LearningCpp.Lib

def Orderbook.Op.mirror : Orderbook.Op → Orderbook.Op
  | .add order => .add order.mirror
  | .cancel orderId => .cancel orderId

namespace Market

def mirror (m : Market) : Market where
  offers := fun b => (m.offers (!b)).map (Prod.map Offer.mirror id)
  withdrawn := m.withdrawn

theorem mirror_empty : empty.mirror = empty := rfl

@[simp] theorem mirror_withdrawn (m : Market) :
    m.mirror.withdrawn = m.withdrawn := rfl

theorem mirror_offers (m : Market) (b : Bool) :
    m.mirror.offers (!b) = (m.offers b).map (Prod.map Offer.mirror id) := by
  simp only [mirror, Bool.not_not]

theorem better_mirror (s : Bool) (p p' : Int) :
    better (!s) (-p) (-p') ↔ better s p p' := by
  cases s <;> simp only [better, Bool.not_true, Bool.not_false] <;> omega

theorem crosses_mirror (s : Bool) (p p' : Int) :
    crosses (!s) (-p) (-p') ↔ crosses s p p' := by
  cases s <;> simp only [crosses, Bool.not_true, Bool.not_false] <;> omega

theorem within_mirror (order : Order) :
    within order.mirror ∘ Prod.map Offer.mirror id = within order :=
  funext fun x => decide_eq_decide.2
    (crosses_mirror order.isBuy order.level x.1.level)

theorem knows_mirror (m : Market) (orderId : Id) :
    m.mirror.knows orderId = m.knows orderId := by
  have hids : ∀ offers : Offers,
      (offers.map (Prod.map Offer.mirror id)).any
          (fun x => x.1.orderId = orderId) =
        offers.any (fun x => x.1.orderId = orderId) := fun offers => by
    rw [List.any_map]
    rfl
  simp only [knows, List.any_append]
  rw [show m.mirror.offers true = _ from m.mirror_offers false,
    show m.mirror.offers false = _ from m.mirror_offers true, hids, hids,
    Bool.or_comm ((m.offers false).any _)]
  rfl

theorem demand_mirror (m : Market) (order : Order) :
    m.mirror.demand order.mirror =
      ⟨(m.demand order).taken.map (Prod.map Offer.mirror id),
        (m.demand order).unmet,
        (m.demand order).kept.map (Prod.map Offer.mirror id)⟩ := by
  rw [demand, demand, ← serve_map, show order.mirror.isBuy = !order.isBuy from rfl,
    mirror_offers, List.takeWhile_map, within_mirror]
  rfl

theorem rest_mirror (order : Order) (unmet : Option Int) (offers : Offers) :
    rest order.mirror unmet (offers.map (Prod.map Offer.mirror id)) =
      (rest order unmet offers).map (Prod.map Offer.mirror id) := by
  cases unmet with
  | none => rfl
  | some n =>
      refine (List.map_orderedInsert
        (fun x y => better order.isBuy x.1.level y.1.level)
        (fun x y => better (!order.isBuy) x.1.level y.1.level)
        (Prod.map Offer.mirror id) offers (⟨order.orderId, order.level⟩, n)
        ?_ ?_).symm
      · exact fun x _ => (better_mirror order.isBuy x.1.level order.level).symm
      · exact fun x _ => (better_mirror order.isBuy order.level x.1.level).symm

theorem add_mirror (m : Market) (order : Order) :
    m.mirror.add order.mirror =
      ((m.add order).1.mirror, (m.add order).2.map Trade.mirror) := by
  have hknows : m.mirror.knows order.mirror.orderId = m.knows order.orderId :=
    m.knows_mirror order.orderId
  rw [add, add, hknows]
  by_cases hk : m.knows order.orderId = true
  · rw [if_pos hk, if_pos hk]
    rfl
  · rw [if_neg hk, if_neg hk, demand_mirror]
    refine Prod.ext (market_ext ?_ (fun _ => rfl)) ?_
    · intro b
      obtain ⟨b, rfl⟩ : ∃ c, b = !c := ⟨!b, (Bool.not_not b).symm⟩
      rw [mirror_offers]
      simp only [mirror_offers]
      by_cases hb : b = order.isBuy
      · have hb' : (!b) = order.mirror.isBuy := congrArg not hb
        rw [if_pos hb, if_pos hb', rest_mirror]
      · have hb' : (!b) ≠ order.mirror.isBuy := fun h => hb (Bool.not_inj h)
        rw [if_neg hb, if_neg hb', List.dropWhile_map, within_mirror,
          List.map_append]
    · simp only [List.map_map]
      rfl

theorem cancel_mirror (m : Market) (orderId : Id) :
    m.mirror.cancel orderId = (m.cancel orderId).mirror := by
  refine market_ext ?_ ?_
  · intro b
    simp only [cancel, mirror, List.filter_map]
    rfl
  · intro i
    simp only [cancel, mirror_withdrawn, knows_mirror]

theorem step_mirror (m : Market) (op : Orderbook.Op) :
    m.mirror.step op.mirror =
      ((m.step op).1.mirror, (m.step op).2.map Trade.mirror) := by
  cases op with
  | add order => exact m.add_mirror order
  | cancel orderId => exact Prod.ext (m.cancel_mirror orderId) rfl

end Market

namespace Orderbook

/-- **Buyers and sellers exchanged**: with every order on the other side and
every price negative, the calls of any run return the same trades with the
roles exchanged, and the market left is the other one's mirror image. -/
theorem run_mirror (curr : Nat) (ops : List Op) :
    runOut step (init curr) (ops.map Op.mirror) =
        (runOut step (init curr) ops).map
          (Except.map (List.map Trade.mirror)) ∧
      market (runState step (init curr) (ops.map Op.mirror)).1 =
        (market (runState step (init curr) ops).1).mirror := by
  obtain ⟨hout, hstate⟩ := run_market curr ops
  obtain ⟨hout', hstate'⟩ := run_market curr (ops.map Op.mirror)
  obtain ⟨hmapState, hmapOut⟩ := run_map Market.step Op.mirror .empty ops
  have hmirror : runState (fun m op => Market.step m (Op.mirror op)) .empty ops =
        (runState Market.step .empty ops).mirror ∧
      runOut (fun m op => Market.step m (Op.mirror op)) .empty ops =
        (runOut Market.step .empty ops).map (List.map Trade.mirror) := by
    refine run_simulation_map (R := fun m' m : Market => m' = m.mirror) ?_
      Market.mirror_empty.symm ops
    rintro m' m op rfl
    rw [m.step_mirror op]
    exact ⟨rfl, rfl⟩
  rw [hout, hout', hstate, hstate', hmapState, hmapOut, hmirror.1, hmirror.2,
    List.map_map, List.map_map]
  exact ⟨rfl, rfl⟩

end Orderbook

end LearningCpp
