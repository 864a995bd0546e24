import LearningCpp.Orderbook.Market

/-!
# An order in two parts

An order and the same order sent as two smaller ones, one right after the
other: the resting orders opposite cannot tell the difference. Each of them
gives the same amount, the offers that are left are the same, and what rests
of the two parts stands where the rest of the one order would stand and is as
much.

On the market this is the law that serving a sum leaves what serving its two
parts in turn leaves. What has to be seen is that the second part meets the
offers the first one left, no more and no less.
-/

namespace LearningCpp.Orderbook

open LearningCpp.Lib

/-- What an order that was resting gives in some trades. -/
def givenBy (orderId : Id) (trades : Trades) : Int :=
  ((trades.filter (fun t => t.orderIdA = orderId)).map Trade.size).sum

theorem givenBy_append (orderId : Id) (trades trades' : Trades) :
    givenBy orderId (trades ++ trades') =
      givenBy orderId trades + givenBy orderId trades' := by
  simp only [givenBy, List.filter_append, List.map_append, List.sum_append]

theorem givenBy_hit (orderId : Id) (order : Order) (taken : Offers) :
    givenBy orderId (taken.map (Market.hit order)) =
      amountOf (fun a => a.orderId = orderId) taken := by
  rw [givenBy, List.filter_map, List.map_map]
  rfl

/-- What rests of an order, if anything. -/
def resting (orderId : Id) (level : Int) (unmet : Option Int) : Offers :=
  (unmet.map (fun n => ((⟨orderId, level⟩, n) : Offer × Int))).toList

end LearningCpp.Orderbook

namespace LearningCpp

open LearningCpp.Orderbook LearningCpp.Lib

namespace Market

theorem knows_iff {m : Market} {i : Id} : m.knows i = true ↔
    m.withdrawn i = true ∨ ∃ b, ∃ x ∈ m.offers b, x.1.orderId = i := by
  rw [knows, Bool.or_eq_true, List.any_eq_true]
  simp only [List.mem_append, decide_eq_true_eq, Bool.exists_bool]
  constructor
  · rintro (h | ⟨x, hx | hx, hi⟩)
    · exact Or.inl h
    · exact Or.inr (Or.inr ⟨x, hx, hi⟩)
    · exact Or.inr (Or.inl ⟨x, hx, hi⟩)
  · rintro (h | ⟨x, hx, hi⟩ | ⟨x, hx, hi⟩)
    · exact Or.inl h
    · exact Or.inr ⟨x, Or.inr hx, hi⟩
    · exact Or.inr ⟨x, Or.inl hx, hi⟩

theorem mem_rest {order : Order} {unmet : Option Int} {offers : Offers}
    {x : Offer × Int} (h : x ∈ rest order unmet offers) :
    x ∈ offers ∨ x.1.orderId = order.orderId := by
  cases unmet with
  | none => exact Or.inl h
  | some n =>
      rcases (List.mem_orderedInsert _).1 h with rfl | h
      · exact Or.inr rfl
      · exact Or.inl h

/-- What a demand keeps was offered before, perhaps in a larger amount. -/
theorem mem_kept {m : Market} {order : Order} {x : Offer × Int}
    (h : x ∈ (m.demand order).kept) :
    ∃ y ∈ (m.offers (!order.isBuy)).takeWhile (within order), y.1 = x.1 :=
  List.mem_map.1 ((kept_sublist _ _).subset (List.mem_map_of_mem h))

theorem add_accepted (m : Market) (order : Order)
    (h : m.knows order.orderId = false) :
    (m.add order).2 = (m.demand order).taken.map (hit order) ∧
      (m.add order).1.withdrawn = m.withdrawn ∧
      (m.add order).1.offers order.isBuy =
        rest order (m.demand order).unmet (m.offers order.isBuy) ∧
      (m.add order).1.offers (!order.isBuy) = (m.demand order).kept ++
        (m.offers (!order.isBuy)).dropWhile (within order) := by
  have hne : (!order.isBuy) ≠ order.isBuy := by cases order.isBuy <;> simp
  rw [add, if_neg (by rw [h]; exact Bool.false_ne_true)]
  exact ⟨rfl, rfl, if_pos rfl, if_neg hne⟩

/-- An accepted order makes no other id known. -/
theorem knows_of_add {m : Market} {order : Order}
    (h : m.knows order.orderId = false) {i : Id}
    (hi : (m.add order).1.knows i = true) :
    m.knows i = true ∨ i = order.orderId := by
  obtain ⟨_, hwithdrawn, hside, hopposite⟩ := add_accepted _ _ h
  rcases knows_iff.1 hi with hi | ⟨b, x, hx, rfl⟩
  · rw [hwithdrawn] at hi
    exact Or.inl (knows_iff.2 (Or.inl hi))
  · by_cases hb : b = order.isBuy
    · rw [hb, hside] at hx
      rcases mem_rest hx with hx | hx
      · exact Or.inl (knows_iff.2 (Or.inr ⟨_, x, hx, rfl⟩))
      · exact Or.inr hx
    · rw [Bool.eq_not.2 hb, hopposite] at hx
      left
      rcases List.mem_append.1 hx with hx | hx
      · obtain ⟨y, hy, hyx⟩ := mem_kept hx
        exact knows_iff.2 (Or.inr ⟨_, y, (List.takeWhile_prefix _).subset hy,
          congrArg Offer.orderId hyx⟩)
      · exact knows_iff.2
          (Or.inr ⟨_, x, (List.dropWhile_suffix _).subset hx, rfl⟩)

section Split

variable {m : Market} {i j k : Id} {p : Int} {s : Bool} {x y : Int}

/-- The offers the second part can reach are those the first one kept. -/
theorem demand_second (hi : m.knows i = false) :
    (m.add ⟨i, p, s, x⟩).1.demand ⟨j, p, s, y⟩ =
      serve y (m.demand ⟨i, p, s, x⟩).kept ∧
      ((m.add ⟨i, p, s, x⟩).1.offers (!s)).dropWhile
          (within ⟨j, p, s, y⟩) =
        (m.offers (!s)).dropWhile (within ⟨i, p, s, x⟩) := by
  obtain ⟨_, _, _, hopposite⟩ :=
    add_accepted m ⟨i, p, s, x⟩ hi
  have hwithin : within ⟨j, p, s, y⟩ = within ⟨i, p, s, x⟩ := rfl
  have hkept : ∀ z ∈ (m.demand ⟨i, p, s, x⟩).kept,
      within ⟨i, p, s, x⟩ z = true := by
    intro z hz
    obtain ⟨w, hw, hwz⟩ := mem_kept hz
    have hw := List.mem_takeWhile_imp hw
    rw [within, hwz] at hw
    exact hw
  have hbehind : ((m.offers (!s)).dropWhile
      (within ⟨i, p, s, x⟩)).takeWhile (within ⟨i, p, s, x⟩) = [] :=
    List.takeWhile_eq_nil_iff.2 (fun h => List.dropWhile_get_zero_not _ _ h)
  simp only [] at hopposite
  rw [demand, hwithin, hopposite, List.takeWhile_append_of_pos hkept, hbehind,
    List.append_nil, List.dropWhile_append_of_pos hkept,
    List.dropWhile_idempotent]
  exact ⟨rfl, rfl⟩

/-- The two parts leave the offers opposite as the one order does, and each
offer gives the same. -/
theorem split_opposite (hy : 0 < y) (hi : m.knows i = false)
    (hj : (m.add ⟨i, p, s, x⟩).1.knows j = false)
    (hk : m.knows k = false) :
    ((m.add ⟨i, p, s, x⟩).1.add ⟨j, p, s, y⟩).1.offers (!s) =
        (m.add ⟨k, p, s, x + y⟩).1.offers (!s) ∧
      ∀ l, givenBy l ((m.add ⟨i, p, s, x⟩).2 ++
          ((m.add ⟨i, p, s, x⟩).1.add ⟨j, p, s, y⟩).2) =
        givenBy l (m.add ⟨k, p, s, x + y⟩).2 := by
  obtain ⟨hdemand, hbehind⟩ :=
    demand_second (j := j) (p := p) (s := s) (x := x) (y := y) hi
  obtain ⟨hta, _, _, _⟩ := add_accepted m ⟨i, p, s, x⟩ hi
  obtain ⟨htb, _, _, hob⟩ := add_accepted _ ⟨j, p, s, y⟩ hj
  obtain ⟨htc, _, _, hoc⟩ :=
    add_accepted m ⟨k, p, s, x + y⟩ hk
  have hwhole : m.demand ⟨k, p, s, x + y⟩ = serve (x + y)
      ((m.offers (!s)).takeWhile (within ⟨i, p, s, x⟩)) := rfl
  have hfirst : m.demand ⟨i, p, s, x⟩ = serve x
      ((m.offers (!s)).takeWhile (within ⟨i, p, s, x⟩)) := rfl
  rw [hdemand, hbehind] at hob
  rw [hwhole, kept_serve_add hy] at hoc
  refine ⟨hob.trans hoc.symm, fun l => ?_⟩
  rw [givenBy_append, hta, htb, htc, givenBy_hit, givenBy_hit, givenBy_hit,
    hdemand, hwhole, amountOf_taken_add _ hy, hfirst]

end Split

/-! ## What rests -/

/-- Whether an offer is served before an order that joins its side. -/
def before (order : Order) (x : Offer × Int) : Bool :=
  !decide (better order.isBuy order.level x.1.level)

theorem rest_eq (order : Order) (unmet : Option Int) (offers : Offers) :
    rest order unmet offers = offers.takeWhile (before order) ++
      resting order.orderId order.level unmet ++
        offers.dropWhile (before order) := by
  cases unmet with
  | none =>
      show offers = _
      rw [resting, Option.map_none, Option.toList_none, List.append_nil,
        List.takeWhile_append_dropWhile]
  | some n =>
      rw [rest, List.orderedInsert_eq_take_drop, List.append_assoc]
      simp only [decide_not]
      rfl

/-- Behind an order of its price another one comes right after it. -/
theorem rest_rest (i j : Id) (p : Int) (s : Bool) (x y : Int)
    (unmet unmet' : Option Int) (offers : Offers) :
    rest ⟨j, p, s, y⟩ unmet' (rest ⟨i, p, s, x⟩ unmet offers) =
      offers.takeWhile (before ⟨i, p, s, x⟩) ++
        (resting i p unmet ++ resting j p unmet') ++
          offers.dropWhile (before ⟨i, p, s, x⟩) := by
  have hbefore : before ⟨j, p, s, y⟩ = before ⟨i, p, s, x⟩ := rfl
  have hahead : ∀ z ∈ offers.takeWhile (before ⟨i, p, s, x⟩) ++
      resting i p unmet, before ⟨i, p, s, x⟩ z = true := by
    intro z hz
    rcases List.mem_append.1 hz with hz | hz
    · exact List.mem_takeWhile_imp hz
    · obtain ⟨n, _, rfl⟩ := Option.map_eq_some_iff.1 (Option.mem_toList.1 hz)
      rw [before, Bool.not_eq_true', decide_eq_false_iff_not]
      exact better_irrefl
  have hbehind : (offers.dropWhile (before ⟨i, p, s, x⟩)).takeWhile
      (before ⟨i, p, s, x⟩) = [] :=
    List.takeWhile_eq_nil_iff.2 (fun h => List.dropWhile_get_zero_not _ _ h)
  rw [rest_eq ⟨j, p, s, y⟩, hbefore, rest_eq ⟨i, p, s, x⟩,
    List.takeWhile_append_of_pos hahead, hbehind, List.append_nil,
    List.dropWhile_append_of_pos hahead, List.dropWhile_idempotent]
  simp only [List.append_assoc]

end Market

namespace Orderbook

/-- **An order in two parts.** After any run, an order of a quantity `x + y`
and two orders of `x` and of `y` at its price, one right after the other: all
are accepted, every order opposite gives the same in both cases and is left
with the same, and at one place of their own side stands what is left of the
two, or of the one, which is as much. -/
theorem split_order (curr : Nat) (ops : List Op) {i j k : Id} (p : Int)
    (s : Bool) (x : Int) {y : Int} (hy : 0 < y) (hij : i ≠ j)
    (hi : (runState step (init curr) ops).1.orders.contains i = false)
    (hj : (runState step (init curr) ops).1.orders.contains j = false)
    (hk : (runState step (init curr) ops).1.orders.contains k = false) :
    ∃ s₁ s₂ s₃ ta tb tc,
      step (runState step (init curr) ops) (.add ⟨i, p, s, x⟩) =
        (s₁, .ok ta) ∧
      step s₁ (.add ⟨j, p, s, y⟩) = (s₂, .ok tb) ∧
      step (runState step (init curr) ops) (.add ⟨k, p, s, x + y⟩) =
        (s₃, .ok tc) ∧
      (∀ l, givenBy l (ta ++ tb) = givenBy l tc) ∧
      (market s₂.1).offers (!s) = (market s₃.1).offers (!s) ∧
      ∃ ahead behind u v w,
        (market (runState step (init curr) ops).1).offers s =
          ahead ++ behind ∧
        (market s₂.1).offers s =
          ahead ++ (resting i p u ++ resting j p v) ++ behind ∧
        (market s₃.1).offers s = ahead ++ resting k p w ++ behind ∧
        u.getD 0 + v.getD 0 = w.getD 0 := by
  have hinv := reachable_inv curr ops
  have hkeyed := reachable_keyed curr ops
  generalize runState step (init curr) ops = s₀ at hinv hkeyed hi hj hk ⊢
  rw [← knows_market hinv hkeyed] at hi hj hk
  have hinv₁ := step_inv hinv (.add ⟨i, p, s, x⟩)
  have hkeyed₁ := step_keyed hinv hkeyed (.add ⟨i, p, s, x⟩)
  obtain ⟨hm₁, ha₁⟩ := step_market hinv hkeyed (.add ⟨i, p, s, x⟩)
  obtain ⟨hm₂, ha₂⟩ := step_market hinv₁ hkeyed₁ (.add ⟨j, p, s, y⟩)
  obtain ⟨hm₃, ha₃⟩ := step_market hinv hkeyed (.add ⟨k, p, s, x + y⟩)
  rw [hm₁] at hm₂ ha₂
  simp only [Market.step] at hm₁ hm₂ hm₃ ha₁ ha₂ ha₃
  generalize market s₀.1 = m at hi hj hk hm₁ hm₂ hm₃ ha₁ ha₂ ha₃ ⊢
  have hj₁ : (m.add ⟨i, p, s, x⟩).1.knows j = false := by
    by_contra h
    rcases Market.knows_of_add hi (Bool.not_eq_false _ ▸ h) with h | h
    · rw [hj] at h
      cases h
    · exact hij h.symm
  obtain ⟨hopposite, hgiven⟩ :=
    Market.split_opposite (p := p) (s := s) (x := x) hy hi hj₁ hk
  refine ⟨_, _, _, _, _, _, Prod.ext rfl ha₁, Prod.ext rfl ha₂,
    Prod.ext rfl ha₃, hgiven, by rw [hm₂, hm₃]; exact hopposite, ?_⟩
  obtain ⟨_, _, hs₁, _⟩ :=
    Market.add_accepted m ⟨i, p, s, x⟩ hi
  obtain ⟨_, _, hs₂, _⟩ :=
    Market.add_accepted _ ⟨j, p, s, y⟩ hj₁
  obtain ⟨_, _, hs₃, _⟩ :=
    Market.add_accepted m ⟨k, p, s, x + y⟩ hk
  obtain ⟨hdemand, _⟩ :=
    Market.demand_second (j := j) (p := p) (s := s) (x := x) (y := y) hi
  refine ⟨(m.offers s).takeWhile (Market.before ⟨i, p, s, x⟩),
    (m.offers s).dropWhile (Market.before ⟨i, p, s, x⟩),
    (m.demand ⟨i, p, s, x⟩).unmet,
    ((m.add ⟨i, p, s, x⟩).1.demand ⟨j, p, s, y⟩).unmet,
    (m.demand ⟨k, p, s, x + y⟩).unmet,
    (List.takeWhile_append_dropWhile).symm, ?_, ?_, ?_⟩
  · rw [hm₂, hs₂, hs₁]
    exact Market.rest_rest i j p s x y _ _ _
  · rw [hm₃, hs₃]
    exact Market.rest_eq ⟨k, p, s, x + y⟩ _ _
  · rw [hdemand]
    exact (unmet_serve_add hy x
      ((m.offers (!s)).takeWhile (Market.within ⟨i, p, s, x⟩))).symm

/-- A bid of 5 against asks of 3 and of 4, and a bid of 2 with one of 3 after
it: the first ask gives 3 in both cases, the second 2. -/
theorem split_order_two : ∃ s₁ s₂ s₃ ta tb tc,
    step (runState step (init 0)
      [.add ⟨1, 100, false, 3⟩, .add ⟨2, 101, false, 4⟩])
      (.add ⟨3, 101, true, 2⟩) = (s₁, .ok ta) ∧
    step s₁ (.add ⟨4, 101, true, 3⟩) = (s₂, .ok tb) ∧
    step (runState step (init 0)
      [.add ⟨1, 100, false, 3⟩, .add ⟨2, 101, false, 4⟩])
      (.add ⟨5, 101, true, 2 + 3⟩) = (s₃, .ok tc) ∧
    ∀ l, givenBy l (ta ++ tb) = givenBy l tc := by
  obtain ⟨s₁, s₂, s₃, ta, tb, tc, h₁, h₂, h₃, hgiven, _⟩ := split_order 0
    [.add ⟨1, 100, false, 3⟩, .add ⟨2, 101, false, 4⟩] (i := 3) (j := 4)
    (k := 5) 101 true 2 (by decide : (0 : Int) < 3) (by decide) (by decide)
    (by decide) (by decide)
  exact ⟨s₁, s₂, s₃, ta, tb, tc, h₁, h₂, h₃, hgiven⟩

end Orderbook

end LearningCpp
