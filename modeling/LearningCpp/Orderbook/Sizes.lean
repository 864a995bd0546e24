import LearningCpp.Orderbook.Priority

/-!
# Sizes that are not positive

A `Quantity` is an `int` and nothing looks at its sign: the constructor and
`AddOrder` take any, and `Fill` refuses only sizes above what is left. A size
that is not positive passes, and taking it off leaves the order with as much
as before or more.

The size of a round is the smaller of the two quantities, so it takes one
order of no positive quantity that trades. Which calls have one trade can be
read off the book before the call: the incoming order, if anything crosses it,
or an order opposite that it comes to. `positiveSizes_iff` says a run trades
only positive sizes, and lets no quantity grow, if and only if none of its
calls does.
-/

namespace LearningCpp.Orderbook

open LearningCpp.Lib

/-- The orders in the book when `match` begins. -/
def present (s : Orderbook × Nat) : Op → List Order
  | .add order =>
      if s.1.orders.contains order.orderId then stored s.1
      else order :: stored s.1
  | .cancel _ => stored s.1

/-- The call trades positive sizes only and leaves no order with more than it
had. -/
structure PositiveSizes (s : Orderbook × Nat) (op : Op) : Prop where
  trades : ∀ trades, (step s op).2 = .ok trades → ∀ t ∈ trades, 0 < t.size
  stored : ∀ o ∈ stored (step s op).1.1, ∀ o' ∈ present s op,
    o'.orderId = o.orderId → o.quantity ≤ o'.quantity

/-- Wherever the incoming order gets down the queue opposite, filling the
orders `ahead` of `x`, there is a positive quantity on either side. -/
def MeetsPositive (order : Order) (opp : Queue) : Prop :=
  ∀ ahead x behind, opp = ahead ++ x :: behind →
    (∀ y ∈ ahead ++ [x], crosses order.isBuy order.level y.1) →
    (∀ y ∈ ahead, 0 < y.2.quantity) →
    (ahead = [] ∨ (ahead.map (fun y => y.2.quantity)).sum < order.quantity) →
    0 < order.quantity ∧ 0 < x.2.quantity

/-- An accepted order meets only positive quantities, its own included. -/
def TradesPositive (book : Orderbook) : Op → Prop
  | .add order => book.orders.contains order.orderId = false →
      MeetsPositive order (liveOpposite book order.isBuy)
  | .cancel _ => True

/-! ## The walk -/

theorem meetsPositive_of_not_crosses {o : Order} {opp : Queue}
    (h : ∀ y ∈ opp, ¬ crosses o.isBuy o.level y.1) : MeetsPositive o opp := by
  rintro ahead x behind rfl hcross _ _
  exact absurd (hcross x (by simp)) (h x (by simp))

/-- Going past the first order opposite leaves that much less to fill. -/
theorem meetsPositive_cons {o : Order} {x : Int × Order} {opp : Queue}
    (hc : crosses o.isBuy o.level x.1) :
    MeetsPositive o (x :: opp) ↔ 0 < o.quantity ∧ 0 < x.2.quantity ∧
      (x.2.quantity < o.quantity →
        MeetsPositive { o with quantity := o.quantity - x.2.quantity }
          opp) := by
  constructor
  · intro h
    obtain ⟨ho, hx⟩ := h [] x opp rfl (by simpa using hc) (by simp)
      (Or.inl rfl)
    refine ⟨ho, hx, ?_⟩
    intro hlt ahead y behind hopp hcross hpos hsum
    obtain ⟨_, hy⟩ := h (x :: ahead) y behind (by rw [hopp, List.cons_append])
      (List.forall_mem_cons.2 ⟨hc, hcross⟩)
      (List.forall_mem_cons.2 ⟨hx, hpos⟩)
      (Or.inr (by
        rw [List.map_cons, List.sum_cons]
        rcases hsum with rfl | hsum
        · simpa using hlt
        · simp only [] at hsum
          omega))
    exact ⟨by simp only []; omega, hy⟩
  · rintro ⟨ho, hx, h⟩ ahead y behind hopp hcross hpos hsum
    match ahead with
    | [] =>
        obtain ⟨rfl, _⟩ := List.cons.inj hopp
        exact ⟨ho, hx⟩
    | z :: ahead =>
        obtain ⟨rfl, rfl⟩ := List.cons.inj hopp
        rw [List.cons_append, List.forall_mem_cons] at hcross
        rw [List.forall_mem_cons] at hpos
        simp only [List.map_cons, List.sum_cons, List.cons_ne_nil,
          false_or] at hsum
        have hrest : 0 ≤ (ahead.map (fun y => y.2.quantity)).sum :=
          List.sum_nonneg (List.forall_mem_map.2
            (fun y hy => (hpos.2 y hy).le))
        refine ⟨ho, (h (by omega) ahead y behind rfl hcross.2 hpos.2
          (Or.inr ?_)).2⟩
        simp only []
        omega

/-- The walk of an accepted order that stands at the front of its side trades
positive sizes only if and only if it meets only positive quantities. -/
theorem sweep_sizes {rest : Queue} {q' : Queues} {next : Nat}
    {mo : OrderMetadata} : ∀ (opp : Queue) (q : Queues) (o : Order)
      (ts : Trades), AtFront q next o mo rest opp → Sweep q ts q' →
      ((∀ t ∈ ts, 0 < t.size) ↔
        MeetsPositive o (opp.filter (fun x => live q.orders x.2))) := by
  intro opp
  induction opp with
  | nil =>
      intro q o ts h hsweep
      cases h.walk hsweep with
      | stop hq hstop =>
          exact iff_of_true (by simp)
            (meetsPositive_of_not_crosses (by simp))
  | cons x opp ih =>
      intro q o ts h hsweep
      -- The front opposite is first among the live orders if it is met.
      have hcons : ∀ {mx : OrderMetadata},
          q.orders x.2.orderId = some mx → mx.canceled = false →
          (x :: opp).filter (fun x => live q.orders x.2) =
            x :: opp.filter (fun x => live q.orders x.2) := by
        intro mx hmx hcx
        refine List.filter_cons_of_pos ?_
        simp [live_of_some hmx, hcx]
      cases h.walk hsweep with
      | stop hq hstop =>
          have hno := not_crosses_of_head h.wf
            (by rw [h.opposite]; exact hstop)
          rw [h.opposite] at hno
          exact iff_of_true (by simp) (meetsPositive_of_not_crosses
            (fun y hy => hno y (List.mem_of_mem_filter hy)))
      | discard hc hmx hcx hs hpos h₁ hsweep₁ =>
          rw [ih _ o ts h₁ hsweep₁, h₁.filter_live hs,
            List.filter_cons_of_neg (by simp [live_of_some hmx, hcx])]
      | filled hc hmx hcx hle hhit =>
          have hsize : (hitTrade o.isBuy o x.2).size = o.quantity :=
            Int.min_eq_left hle
          rw [hcons hmx hcx, meetsPositive_cons hc, List.forall_mem_singleton,
            hsize]
          constructor
          · exact fun ho => ⟨ho, by omega, fun hlt => by omega⟩
          · exact fun h => h.1
      | fills hc hmx hcx hlt hhit hpos h₁ hsweep₁ =>
          have hsize : (hitTrade o.isBuy o x.2).size = x.2.quantity :=
            Int.min_eq_right (by omega)
          rw [hcons hmx hcx, meetsPositive_cons hc, List.forall_mem_cons,
            ih _ _ _ h₁ hsweep₁, h₁.filter_live hhit.shrinks, hsize]
          constructor
          · exact fun h => ⟨by omega, h.1, fun _ => h.2⟩
          · exact fun h => ⟨h.2.1, h.2.2 hlt⟩

/-! ## Quantities -/

/-- Trades of positive size only take away. -/
theorem sweep_quantity {q q' : Queues} {ts : Trades} {next : Nat}
    (h : Sweep q ts q') (hq : WF q next) (hsizes : ∀ t ∈ ts, 0 < t.size) :
    ∀ x ∈ q'.resting, ∃ y ∈ q.resting, ident y = ident x ∧
      x.2.quantity ≤ y.2.quantity := by
  induction h with
  | stop _ => exact fun x hx => ⟨x, hx, rfl, le_rfl⟩
  | @round p p' bid ask bids asks orders r ts q' hcross hr _ ih =>
      rw [List.forall_mem_append] at hsizes
      intro z hz
      obtain ⟨x, hx, hid, hle⟩ :=
        ih ((round_shrinks hq hr).wf hq) hsizes.2 z hz
      obtain ⟨_, _, mb, hb, _⟩ := hq.entry true (p, bid) List.mem_cons_self
      obtain ⟨_, _, ma, ha, _⟩ := hq.entry false (p', ask) List.mem_cons_self
      have hround : ∃ y ∈ (⟨(p, bid) :: bids, (p', ask) :: asks, orders⟩ :
          Queues).resting, ident y = ident x ∧
            x.2.quantity ≤ y.2.quantity := by
        simp only [Queues.resting, List.mem_append] at hx ⊢
        rcases matchFront_cases hb ha hr with ⟨_, rfl⟩ | ⟨_, _, rfl⟩ |
          ⟨_, _, rfl⟩
        · rcases hx with (hx | hx) | hx
          · cases hx
          · exact ⟨x, Or.inl (List.mem_cons_of_mem _ hx), rfl, le_rfl⟩
          · exact ⟨x, Or.inr (List.mem_append.2 hx), rfl, le_rfl⟩
        · rcases hx with hx | (hx | hx)
          · exact ⟨x, Or.inl (List.mem_append.2 hx), rfl, le_rfl⟩
          · cases hx
          · exact ⟨x, Or.inr (List.mem_cons_of_mem _ hx), rfl, le_rfl⟩
        · have hsize : 0 < min bid.quantity ask.quantity :=
            hsizes.1 (frontTrade bid ask mb ma) (by simp [tradeRound])
          -- What is left of a front order is that order with less.
          have hleft : ∀ {p : Int} {o : Order},
              x ∈ atPrice p
                (leftover o (min bid.quantity ask.quantity)) →
              ident (p, o) = ident x ∧ x.2.quantity ≤ o.quantity := by
            intro p o hx
            obtain ⟨_, rfl⟩ := mem_atPrice_leftover hx
            refine ⟨rfl, ?_⟩
            simp only []
            omega
          rcases hx with (hx | hx) | (hx | hx)
          · exact ⟨_, Or.inl List.mem_cons_self, hleft hx⟩
          · exact ⟨x, Or.inl (List.mem_cons_of_mem _ hx), rfl, le_rfl⟩
          · exact ⟨_, Or.inr List.mem_cons_self, hleft hx⟩
          · exact ⟨x, Or.inr (List.mem_cons_of_mem _ hx), rfl, le_rfl⟩
      obtain ⟨y, hy, hyid, hyle⟩ := hround
      exact ⟨y, hy, hyid.trans hid, hle.trans hyle⟩

/-- The orders present are those the sweep of an accepted order starts
from. -/
theorem mem_present_add {book : Orderbook} {curr : Nat} {order o : Order}
    (hc : book.orders.contains order.orderId = false) :
    o ∈ present (book, curr) (.add order) ↔
      ∃ p, (p, o) ∈ ((queues book).insert curr order).resting := by
  have hmem := fun p => (resting_insert_perm (queues book) curr
    order).mem_iff (a := (p, o))
  simp only [present, hc, Bool.false_eq_true, if_false, stored_eq, hmem,
    List.mem_cons, List.mem_map, Prod.mk.injEq, Prod.exists]
  constructor
  · rintro (rfl | ⟨p, o', ho, rfl⟩)
    · exact ⟨o.level, Or.inl ⟨rfl, rfl⟩⟩
    · exact ⟨p, Or.inr ho⟩
  · rintro ⟨p, ⟨_, rfl⟩ | ho⟩
    · exact Or.inl rfl
    · exact Or.inr ⟨p, o, ho, rfl⟩

theorem WF.eq_of_orderId {q : Queues} {next : Nat} (hq : WF q next)
    {x y : Int × Order} (hx : x ∈ q.resting) (hy : y ∈ q.resting)
    (h : x.2.orderId = y.2.orderId) : x = y :=
  List.inj_on_of_nodup_map hq.ids hx hy h

theorem positiveSizes_of_same {s : Orderbook × Nat} (hs : Inv s) {op : Op}
    (hout : (step s op).2 = .ok [])
    (hstored : stored (step s op).1.1 = stored s.1)
    (hpresent : present s op = stored s.1) : PositiveSizes s op where
  trades := by
    intro trades h t ht
    rw [hout] at h
    rw [← Except.ok.inj h] at ht
    cases ht
  stored := by
    intro o ho o' ho' hid
    rw [hstored, stored_eq, List.mem_map] at ho
    rw [hpresent, stored_eq, List.mem_map] at ho'
    obtain ⟨x, hx, rfl⟩ := ho
    obtain ⟨y, hy, rfl⟩ := ho'
    rw [hs.wf.eq_of_orderId hy hx hid]

theorem step_positiveSizes {s : Orderbook × Nat} (hs : Inv s) (op : Op) :
    PositiveSizes s op ↔ TradesPositive s.1 op := by
  obtain ⟨book, curr⟩ := s
  cases op with
  | cancel orderId =>
      refine iff_of_true (positiveSizes_of_same hs rfl ?_ rfl) trivial
      rw [stored_eq, stored_eq, step, queues_cancelOrder]
      rfl
  | add order =>
      simp only [TradesPositive]
      cases hc : book.orders.contains order.orderId with
      | true =>
          have hstep : step (book, curr) (.add order) =
              ((book, curr), .ok []) := addOrder_rejected hc
          refine iff_of_true (positiveSizes_of_same hs ?_ ?_ ?_) (by simp)
          · rw [hstep]
          · rw [hstep]
          · simp [present, hc]
      | false =>
          obtain ⟨book', trades, hadd, hsweep, _, _⟩ := addOrder_spec curr hc
          have hnone := UnorderedMap.contains_eq_false.1 hc
          have hwf := hs.wf.insert hnone
          have hstep : step (book, curr) (.add order) =
              ((book', curr + 1), .ok trades) := hadd
          -- The trades alone decide, since they are what changes quantities.
          have hsizes : PositiveSizes (book, curr) (.add order) ↔
              ∀ t ∈ trades, 0 < t.size := by
            constructor
            · intro h
              exact h.trades trades (by rw [hstep])
            · intro h
              constructor
              · intro trades' htrades
                rw [hstep] at htrades
                rw [← Except.ok.inj htrades]
                exact h
              · intro o ho o' ho' hid
                rw [hstep, stored_eq, List.mem_map] at ho
                obtain ⟨x, hx, rfl⟩ := ho
                obtain ⟨p, ho'⟩ := (mem_present_add hc).1 ho'
                obtain ⟨y, hy, hyid, hle⟩ := sweep_quantity hsweep hwf h x hx
                have hyo : y.2.orderId = o'.orderId :=
                  (ident_orderId hyid).trans hid.symm
                rw [hwf.eq_of_orderId hy ho' hyo] at hle
                exact hle
          have hkept : (liveOpposite book order.isBuy) =
              ((queues book).side (!order.isBuy)).filter (fun x =>
                live ((queues book).insert curr order).orders x.2) :=
            (List.filter_congr (fun x hx => live_congr
              (hs.wf.insert_kept hnone curr hx))).symm
          rw [hsizes, hkept]
          simp only [forall_true_left]
          by_cases hcross : ∀ y ∈ ((queues book).side (!order.isBuy)).head?,
              ¬ crosses order.isBuy order.level y.1
          · obtain ⟨rfl, _⟩ := hsweep.of_uncrossed (uncrossed_insert
              (uncrossed_of_best hs.uncrossed) hcross curr)
            exact iff_of_true (by simp) (meetsPositive_of_not_crosses
              (fun y hy => not_crosses_of_head hs.wf hcross y
                (List.mem_of_mem_filter hy)))
          · exact sweep_sizes _ _ order trades (hs.atFront hnone hcross)
              hsweep

/-- A run trades only positive sizes, and no call of it leaves an order with
more than it had, if and only if no call has an order trade whose quantity is
not positive. -/
theorem positiveSizes_iff (curr : Nat) (ops : List Op) :
    (∀ pre op, pre ++ [op] <+: ops →
      PositiveSizes (runState step (init curr) pre) op) ↔
      ∀ pre op, pre ++ [op] <+: ops →
        TradesPositive (runState step (init curr) pre).1 op :=
  forall_congr' (fun pre => forall_congr' (fun op => imp_congr_right
    (fun _ => step_positiveSizes (reachable_inv curr pre) op)))

/-- A bid of quantity -2 meets an ask of 3: the trade has size -2, and the ask
is left with 5. -/
theorem positiveSizes_negative :
    ¬ PositiveSizes (runState step (init 0) [.add ⟨1, 10, false, 3⟩])
      (.add ⟨2, 10, true, -2⟩) ∧
    stored (step (runState step (init 0) [.add ⟨1, 10, false, 3⟩])
      (.add ⟨2, 10, true, -2⟩)).1.1 = [⟨1, 10, false, 5⟩] := by
  refine ⟨fun h => ?_, by decide⟩
  exact absurd (h.trades [⟨1, 2, 2, true, 10, -2⟩] (by decide) _
    List.mem_cons_self) (by decide)

end LearningCpp.Orderbook
