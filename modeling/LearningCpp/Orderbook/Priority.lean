import LearningCpp.Orderbook.Reachable

/-!
# Price-time priority

What an accepted order does to the other side. Before the call the book is
uncrossed, so an order that crosses the best price opposite is better than
every order of its own side: it stands alone at the front, and it carries the
youngest priority. From there on it is the aggressor of every round, and the
sweep walks down the opposite queue, dropping cancelled orders and filling
each live one completely before it reaches the next. `AtFront` is the
invariant of that walk, and `Walk` the ways it can begin.

The lemmas take the side of the incoming order as a parameter. The code writes
the two sides out, and `sweep_aggressor` is where that is undone.
-/

namespace LearningCpp.Orderbook

open LearningCpp.Lib

/-- An order of side `s` with limit `p` trades at the opposite price `p'`. -/
def crosses : Bool → Int → Int → Prop
  | true, p, p' => p' ≤ p
  | false, p, p' => p ≤ p'

theorem uncrossed_iff {q : Queues} (s : Bool) : q.Uncrossed ↔
    ∀ x ∈ (q.side s).head?, ∀ y ∈ (q.side (!s)).head?,
      ¬ crosses s x.1 y.1 := by
  cases s with
  | true =>
      simp only [Queues.Uncrossed, Queues.side, Bool.not_true, crosses, not_le]
  | false =>
      simp only [Queues.Uncrossed, Queues.side, Bool.not_false, crosses,
        not_le]
      exact ⟨fun h x hx y hy => h y hy x hx, fun h x hx y hy => h y hy x hx⟩

theorem crosses_of_better {s : Bool} {p p' y : Int} (h : better s p p')
    (hc : crosses s p' y) : crosses s p y := by
  cases s <;> simp only [better, crosses] at h hc ⊢ <;> omega

theorem crosses_of_opposite {s : Bool} {p y y' : Int}
    (h : y = y' ∨ better (!s) y y') (hc : crosses s p y') :
    crosses s p y := by
  cases s <;> simp only [Bool.not_true, Bool.not_false, better, crosses]
    at h hc ⊢ <;> omega

theorem better_of_crosses {s : Bool} {p p' y : Int} (h : crosses s p y)
    (h' : ¬ crosses s p' y) : better s p p' := by
  cases s <;> simp only [better, crosses] at h h' ⊢ <;> omega

theorem WF.head_price {q : Queues} {next : Nat} (hq : WF q next) {s : Bool}
    {x y : Int × Order} {l : Queue} (hl : q.side s = y :: l)
    (hx : x ∈ q.side s) : y.1 = x.1 ∨ better s y.1 x.1 := by
  have hp := hq.price s
  rw [hl] at hx hp
  rcases List.mem_cons.1 hx with rfl | hx
  · exact Or.inl rfl
  · exact (List.pairwise_cons.1 hp).1 x hx

/-- If the front of the other side does not cross, nothing there does. -/
theorem not_crosses_of_head {q : Queues} {next : Nat} (hq : WF q next)
    {s : Bool} {p : Int}
    (h : ∀ y ∈ (q.side (!s)).head?, ¬ crosses s p y.1) :
    ∀ y ∈ q.side (!s), ¬ crosses s p y.1 := by
  intro y hy hc
  match hl : q.side (!s) with
  | [] => rw [hl] at hy; cases hy
  | z :: l =>
      have hz := hq.head_price hl hy
      exact h z (by rw [hl]; rfl) (crosses_of_opposite hz hc)

/-- In an uncrossed book no two orders of different sides cross. -/
theorem Queues.Uncrossed.all {q : Queues} {next : Nat} (hq : WF q next)
    (h : q.Uncrossed) (s : Bool) :
    ∀ x ∈ q.side s, ∀ y ∈ q.side (!s), ¬ crosses s x.1 y.1 := by
  intro x hx y hy hc
  match hl : q.side s with
  | [] => rw [hl] at hx; cases hx
  | z :: l =>
      refine not_crosses_of_head hq (p := z.1) ?_ y hy ?_
      · exact (uncrossed_iff s).1 h z (by rw [hl]; rfl)
      · rcases hq.head_price hl hx with heq | hlt
        · rw [heq]; exact hc
        · exact crosses_of_better hlt hc

theorem Sweep.of_uncrossed {q q' : Queues} {ts : Trades} (h : Sweep q ts q')
    (hu : q.Uncrossed) : ts = [] ∧ q' = q := by
  cases h with
  | stop _ => exact ⟨rfl, rfl⟩
  | round hcross _ _ => exact absurd (hu _ rfl _ rfl) hcross

/-! ## The aggressor's view of a round -/

/-- The trade in which `o`, of side `s`, hits the resting order `x`. -/
def hitTrade (s : Bool) (o x : Order) : Trade where
  orderIdA := x.orderId
  orderIdB := o.orderId
  aggressorOrderId := o.orderId
  aggressorIsBuy := s
  level := x.level
  size := min o.quantity x.quantity

/-- When the youngest order stands live at the front of its side, a sweep
stops because nothing crosses it, or discards a cancelled order opposite, or
makes it hit the front order there. -/
theorem sweep_aggressor {q q' : Queues} {ts : Trades} {next : Nat} {s : Bool}
    {p : Int} {o : Order} {rest : Queue} {mo : OrderMetadata}
    (hq : WF q next) (hside : q.side s = (p, o) :: rest)
    (hmo : q.orders o.orderId = some mo) (hlive : mo.canceled = false)
    (hprio : ∀ y ∈ q.side (!s),
      priorityOf q.orders y.2.orderId < mo.priority)
    (h : Sweep q ts q') :
    (ts = [] ∧ q' = q ∧ ∀ y ∈ (q.side (!s)).head?, ¬ crosses s p y.1) ∨
    ∃ x opp mx q₁ ts₁, q.side (!s) = x :: opp ∧ crosses s p x.1 ∧
      q.orders x.2.orderId = some mx ∧ Shrinks q q₁ ∧
      (q.Positive → q₁.Positive) ∧ Sweep q₁ ts₁ q' ∧
      ((mx.canceled = true ∧ ts = ts₁ ∧ q₁.side s = q.side s ∧
          q₁.side (!s) = opp) ∨
        (mx.canceled = false ∧ ts = hitTrade s o x.2 :: ts₁ ∧
          q₁.side s =
            atPrice p (leftover o (min o.quantity x.2.quantity)) ++ rest ∧
          q₁.side (!s) =
            atPrice x.1 (leftover x.2 (min o.quantity x.2.quantity)) ++
              opp)) := by
  cases h with
  | stop hstop =>
      refine Or.inl ⟨rfl, rfl, ?_⟩
      exact (uncrossed_iff s).1 hstop (p, o) (by rw [hside]; rfl)
  | @round b a bid ask bids asks orders r ts₁ _ hcross hr h₁ =>
      right
      have hshrink := round_shrinks hq hr
      have hpositive := fun hpos => round_positive hq hpos hr
      obtain ⟨hbl, _, mb, hb, hmb⟩ :=
        hq.entry true (b, bid) List.mem_cons_self
      obtain ⟨hal, _, ma, ha, hma⟩ :=
        hq.entry false (a, ask) List.mem_cons_self
      have hcases := matchFront_cases hb ha hr
      cases s with
      | true =>
          simp only [Queues.side, List.cons.injEq, Prod.mk.injEq] at hside
          obtain ⟨⟨rfl, rfl⟩, rfl⟩ := hside
          obtain rfl : mb = mo := Option.some.inj (hb.symm.trans hmo)
          have hlt : ma.priority < mb.priority := by
            have h := hprio (a, ask) List.mem_cons_self
            simp only [priorityOf] at h ha
            rw [ha] at h
            exact h
          refine ⟨(a, ask), asks, ma, _, ts₁, rfl, not_lt.1 hcross, ha,
            hshrink, hpositive, h₁, ?_⟩
          rcases hcases with ⟨hbc, _⟩ | ⟨_, hac, rfl⟩ | ⟨_, hac, rfl⟩
          · rw [hlive] at hbc; cases hbc
          · exact Or.inl ⟨hac, rfl, rfl, rfl⟩
          · refine Or.inr ⟨hac, ?_, rfl, rfl⟩
            have hnlt : ¬ mb.priority < ma.priority := by omega
            have hal : ask.level = a := hal
            simp [tradeRound, frontTrade, hitTrade, hlt, hnlt, hma, hal]
      | false =>
          simp only [Queues.side, List.cons.injEq, Prod.mk.injEq] at hside
          obtain ⟨⟨rfl, rfl⟩, rfl⟩ := hside
          obtain rfl : ma = mo := Option.some.inj (ha.symm.trans hmo)
          have hlt : mb.priority < ma.priority := by
            have h := hprio (b, bid) List.mem_cons_self
            simp only [priorityOf] at h hb
            rw [hb] at h
            exact h
          have hne : ask.orderId ≠ bid.orderId := hq.front_ne.symm
          refine ⟨(b, bid), bids, mb, _, ts₁, rfl, not_lt.1 hcross, hb,
            hshrink, hpositive, h₁, ?_⟩
          rcases hcases with ⟨hbc, rfl⟩ | ⟨_, hac, _⟩ | ⟨hbc, _, rfl⟩
          · exact Or.inl ⟨hbc, rfl, rfl, rfl⟩
          · rw [hlive] at hac; cases hac
          · rw [Int.min_comm]
            refine Or.inr ⟨hbc, ?_, rfl, rfl⟩
            have hnlt : ¬ ma.priority < mb.priority := by omega
            have hbl : bid.level = b := hbl
            simp [tradeRound, frontTrade, hitTrade, hlt, hnlt, hmb, hbl, hne,
              Int.min_comm]

/-! ## The walk down the other side -/

/-- `t` is the trade in which the incoming `o` hits the resting order `x`. -/
structure HitBy (o : Order) (x : Int × Order) (t : Trade) : Prop where
  aggressor : t.aggressorOrderId = o.orderId
  orderIdB : t.orderIdB = o.orderId
  isBuy : t.aggressorIsBuy = o.isBuy
  orderIdA : t.orderIdA = x.2.orderId
  level : t.level = x.2.level
  price : crosses o.isBuy o.level t.level
  sizePos : 0 < t.size
  sizeLe : t.size ≤ x.2.quantity

theorem hitBy_hitTrade {o x : Order} {p : Int} (hx : x.level = p)
    (hc : crosses o.isBuy o.level p) (ho : 0 < o.quantity)
    (hxq : 0 < x.quantity) : HitBy o (p, x) (hitTrade o.isBuy o x) where
  aggressor := rfl
  orderIdB := rfl
  isBuy := rfl
  orderIdA := rfl
  level := rfl
  price := by rw [hitTrade, hx]; exact hc
  sizePos := lt_min ho hxq
  sizeLe := Int.min_le_right _ _

theorem leftover_none {o : Order} {size : Int} (h : size = o.quantity) :
    leftover o size = none := if_pos (by omega)

theorem leftover_some {o : Order} {size : Int} (h : size ≠ o.quantity) :
    leftover o size = some { o with quantity := o.quantity - size } :=
  if_neg (by omega)

/-- Taking one completely filled order more in front. -/
theorem map_dropLast_cons {x : Int × Order} {t : Trade} {hit : Queue}
    {ts : Trades} (hlen : hit.length = ts.length) (hx : t.size = x.2.quantity)
    (h : ts.dropLast.map Trade.size =
      hit.dropLast.map (fun x => x.2.quantity)) :
    (t :: ts).dropLast.map Trade.size =
      (x :: hit).dropLast.map (fun x => x.2.quantity) := by
  match hit, ts with
  | [], [] => rfl
  | [], _ :: _ => simp at hlen
  | _ :: _, [] => simp at hlen
  | y :: hit, u :: ts =>
      rw [List.dropLast_cons_of_ne_nil (List.cons_ne_nil _ _),
        List.dropLast_cons_of_ne_nil (List.cons_ne_nil _ _), List.map_cons,
        List.map_cons, h, hx]

/-- The accepted order `o` stands live at the front of its side and is younger
than all of `opp` opposite, and what is behind it does not cross. -/
structure AtFront (q : Queues) (next : Nat) (o : Order) (mo : OrderMetadata)
    (rest opp : Queue) : Prop where
  wf : WF q next
  side : q.side o.isBuy = (o.level, o) :: rest
  opposite : q.side (!o.isBuy) = opp
  entry : q.orders o.orderId = some mo
  notCanceled : mo.canceled = false
  youngest : ∀ y ∈ opp, priorityOf q.orders y.2.orderId < mo.priority
  behind : ∀ x ∈ rest, ∀ y ∈ opp, ¬ crosses o.isBuy x.1 y.1

/-- The order keeps its place as long as some of it is left. -/
theorem AtFront.next {q q₁ : Queues} {next : Nat} {o : Order}
    {mo : OrderMetadata} {rest opp : Queue} {x : Int × Order} {n : Int}
    (h : AtFront q next o mo rest (x :: opp)) (hs : Shrinks q q₁)
    (hside : q₁.side o.isBuy =
      (o.level, { o with quantity := n }) :: rest)
    (hopp : q₁.side (!o.isBuy) = opp) :
    AtFront q₁ next { o with quantity := n } mo rest opp where
  wf := hs.wf h.wf
  side := hside
  opposite := hopp
  entry := by
    rw [← h.entry]
    exact hs.kept (o.level, { o with quantity := n })
      (Queues.mem_resting.2 ⟨o.isBuy, by rw [hside]; exact List.mem_cons_self⟩)
  notCanceled := h.notCanceled
  youngest := by
    intro y hy
    rw [priorityOf, hs.kept y
      (Queues.mem_resting.2 ⟨!o.isBuy, by rw [hopp]; exact hy⟩), ← priorityOf]
    exact h.youngest y (List.mem_cons_of_mem _ hy)
  behind := fun a ha y hy => h.behind a ha y (List.mem_cons_of_mem _ hy)

/-- The queues after the round in which `o` hits `x`, the front opposite. -/
structure Hits (q q₁ : Queues) (o : Order) (x : Int × Order)
    (rest opp : Queue) : Prop where
  shrinks : Shrinks q q₁
  side : q₁.side o.isBuy =
    atPrice o.level (leftover o (min o.quantity x.2.quantity)) ++ rest
  opposite : q₁.side (!o.isBuy) =
    atPrice x.1 (leftover x.2 (min o.quantity x.2.quantity)) ++ opp

/-- How the sweep of `o` down the queue opposite begins. -/
inductive Walk (q : Queues) (next : Nat) (o : Order) (mo : OrderMetadata)
    (rest : Queue) (q' : Queues) : Queue → Trades → Prop
  | stop {opp : Queue} (hq : q' = q)
      (hstop : ∀ y ∈ opp.head?, ¬ crosses o.isBuy o.level y.1) :
      Walk q next o mo rest q' opp []
  | discard {x : Int × Order} {opp : Queue} {ts : Trades} {mx : OrderMetadata}
      {q₁ : Queues} (hc : crosses o.isBuy o.level x.1)
      (hmx : q.orders x.2.orderId = some mx) (hcx : mx.canceled = true)
      (hs : Shrinks q q₁) (hpos : q.Positive → q₁.Positive)
      (h₁ : AtFront q₁ next o mo rest opp) (hsweep : Sweep q₁ ts q') :
      Walk q next o mo rest q' (x :: opp) ts
  | filled {x : Int × Order} {opp : Queue} {mx : OrderMetadata}
      (hc : crosses o.isBuy o.level x.1)
      (hmx : q.orders x.2.orderId = some mx) (hcx : mx.canceled = false)
      (hle : o.quantity ≤ x.2.quantity) (hhit : Hits q q' o x rest opp) :
      Walk q next o mo rest q' (x :: opp) [hitTrade o.isBuy o x.2]
  | fills {x : Int × Order} {opp : Queue} {ts : Trades} {mx : OrderMetadata}
      {q₁ : Queues} (hc : crosses o.isBuy o.level x.1)
      (hmx : q.orders x.2.orderId = some mx) (hcx : mx.canceled = false)
      (hlt : x.2.quantity < o.quantity) (hhit : Hits q q₁ o x rest opp)
      (hpos : q.Positive → q₁.Positive)
      (h₁ : AtFront q₁ next
        { o with quantity := o.quantity - x.2.quantity } mo rest opp)
      (hsweep : Sweep q₁ ts q') :
      Walk q next o mo rest q' (x :: opp) (hitTrade o.isBuy o x.2 :: ts)

/-- With the aggressor filled, nothing that is left crosses. -/
theorem AtFront.uncrossed {q q₁ : Queues} {next : Nat} {o : Order}
    {mo : OrderMetadata} {rest opp : Queue} {x : Int × Order}
    (h : AtFront q next o mo rest (x :: opp))
    (hhit : Hits q q₁ o x rest opp) (hle : o.quantity ≤ x.2.quantity) :
    q₁.Uncrossed := by
  have hside := hhit.side
  rw [Int.min_eq_left hle, leftover_none rfl] at hside
  refine (uncrossed_iff o.isBuy).2 ?_
  intro a ha y hy
  have ha' := List.mem_of_mem_head? ha
  have hy' := List.mem_of_mem_head? hy
  rw [hside] at ha'
  rw [hhit.opposite] at hy'
  rcases List.mem_append.1 hy' with hy' | hy'
  · rw [(mem_atPrice_leftover hy').2]
    exact h.behind a ha' x List.mem_cons_self
  · exact h.behind a ha' y (List.mem_cons_of_mem _ hy')

theorem AtFront.walk {q q' : Queues} {ts : Trades} {next : Nat} {o : Order}
    {mo : OrderMetadata} {rest opp : Queue}
    (h : AtFront q next o mo rest opp) (hsweep : Sweep q ts q') :
    Walk q next o mo rest q' opp ts := by
  have hyoung : ∀ y ∈ q.side (!o.isBuy),
      priorityOf q.orders y.2.orderId < mo.priority := by
    rw [h.opposite]
    exact h.youngest
  rcases sweep_aggressor h.wf h.side h.entry h.notCanceled hyoung hsweep with
    ⟨rfl, hq, hstop⟩ | ⟨x, opp', mx, q₁, ts₁, hx, hc, hmx, hshrink, hpos, h₁,
      hround⟩
  · rw [h.opposite] at hstop
    exact .stop hq hstop
  · rw [h.opposite] at hx
    subst hx
    rcases hround with ⟨hcx, rfl, hs₁, ho₁⟩ | ⟨hcx, rfl, hs₁, ho₁⟩
    · rw [h.side] at hs₁
      exact .discard hc hmx hcx hshrink hpos
        (h.next (n := o.quantity) hshrink hs₁ ho₁) h₁
    · have hhit : Hits q q₁ o x rest opp' := ⟨hshrink, hs₁, ho₁⟩
      by_cases hle : o.quantity ≤ x.2.quantity
      · -- The incoming order is filled, and what was behind it does not
        -- cross.
        obtain ⟨rfl, rfl⟩ := h₁.of_uncrossed (h.uncrossed hhit hle)
        exact .filled hc hmx hcx hle hhit
      · -- The resting order is filled and the walk goes on behind it.
        have hmin : min o.quantity x.2.quantity = x.2.quantity := by omega
        rw [hmin, leftover_some (by omega)] at hs₁
        rw [hmin, leftover_none rfl] at ho₁
        exact .fills hc hmx hcx (by omega) hhit hpos
          (h.next hshrink hs₁ ho₁) h₁

/-- A round changes no flag in what is left opposite. -/
theorem AtFront.filter_live {q q₁ : Queues} {next : Nat} {o : Order}
    {mo : OrderMetadata} {rest opp : Queue}
    (h : AtFront q₁ next o mo rest opp) (hs : Shrinks q q₁) :
    opp.filter (fun x => live q₁.orders x.2) =
      opp.filter (fun x => live q.orders x.2) :=
  hs.filter_live (s := !o.isBuy) (by rw [h.opposite]; exact fun _ h => h)

/-- The walk of an accepted order `o` that stands at the front of its side,
down the queue `opp` opposite. -/
theorem sweep_hits {rest : Queue} {q' : Queues} {next : Nat}
    {mo : OrderMetadata} : ∀ (opp : Queue) (q : Queues) (o : Order)
      (ts : Trades), AtFront q next o mo rest opp → q.Positive →
      Sweep q ts q' →
      ∃ hit, hit <+: opp.filter (fun x => live q.orders x.2) ∧
        List.Forall₂ (HitBy o) hit ts ∧
        ts.dropLast.map Trade.size =
          hit.dropLast.map (fun x => x.2.quantity) ∧
        ((ts.map Trade.size).sum = o.quantity ∨
          ∀ y ∈ q'.side (!o.isBuy), ¬ crosses o.isBuy o.level y.1) := by
  intro opp
  induction opp with
  | nil =>
      intro q o ts h hpos hsweep
      cases h.walk hsweep with
      | stop hq hstop =>
          subst hq
          exact ⟨[], List.nil_prefix, .nil, rfl, Or.inr
            (not_crosses_of_head h.wf (by rw [h.opposite]; exact hstop))⟩
  | cons x opp ih =>
      intro q o ts h hpos hsweep
      have ho : 0 < o.quantity := hpos (o.level, o) (Queues.mem_resting.2
        ⟨o.isBuy, by rw [h.side]; exact List.mem_cons_self⟩)
      have hxm : x ∈ q.side (!o.isBuy) := by
        rw [h.opposite]
        exact List.mem_cons_self
      have hxq : 0 < x.2.quantity := hpos x (Queues.mem_resting.2 ⟨_, hxm⟩)
      obtain ⟨hxl, _⟩ := h.wf.entry _ x hxm
      -- The front opposite is first among the live orders if it is hit.
      have hcons : ∀ {mx : OrderMetadata},
          q.orders x.2.orderId = some mx → mx.canceled = false →
          (x :: opp).filter (fun x => live q.orders x.2) =
            x :: opp.filter (fun x => live q.orders x.2) := by
        intro mx hmx hcx
        refine List.filter_cons_of_pos ?_
        rw [live_of_some hmx, hcx]
        rfl
      cases h.walk hsweep with
      | stop hq hstop =>
          subst hq
          exact ⟨[], List.nil_prefix, .nil, rfl, Or.inr
            (not_crosses_of_head h.wf (by rw [h.opposite]; exact hstop))⟩
      | discard hc hmx hcx hs hpos₁ h₁ hsweep₁ =>
          obtain ⟨hit, hpre, hall, hsize, hend⟩ :=
            ih _ o ts h₁ (hpos₁ hpos) hsweep₁
          refine ⟨hit, ?_, hall, hsize, hend⟩
          have hdead : live q.orders x.2 = false := by
            rw [live_of_some hmx, hcx]
            rfl
          rw [List.filter_cons_of_neg (by simp [hdead]), ← h₁.filter_live hs]
          exact hpre
      | filled hc hmx hcx hle hhit =>
          rw [hcons hmx hcx]
          refine ⟨[x], ⟨_, rfl⟩, .cons (hitBy_hitTrade hxl hc ho hxq) .nil, rfl,
            Or.inl ?_⟩
          simp [hitTrade, Int.min_eq_left hle]
      | @fills _ _ ts₁ _ _ hc hmx hcx hlt hhit hpos₁ h₁ hsweep₁ =>
          have hmin : min o.quantity x.2.quantity = x.2.quantity := by omega
          obtain ⟨hit, hpre, hall, hsize, hend⟩ :=
            ih _ _ ts₁ h₁ (hpos₁ hpos) hsweep₁
          have hall' : List.Forall₂ (HitBy o) hit ts₁ :=
            hall.imp (fun _ _ h => ⟨h.1, h.2, h.3, h.4, h.5, h.6, h.7, h.8⟩)
          rw [hcons hmx hcx, ← h₁.filter_live hhit.shrinks]
          refine ⟨x :: hit, (List.prefix_cons_inj x).2 hpre,
            .cons (hitBy_hitTrade hxl hc ho hxq) hall', ?_, ?_⟩
          · exact map_dropLast_cons hall.length_eq hmin hsize
          · refine hend.imp ?_ id
            intro hsum
            rw [List.map_cons, List.sum_cons, hsum]
            simp only [hitTrade, hmin]
            omega

/-! ## An accepted order -/

/-- The resting orders an order of side `isBuy` can hit, cancelled ones left
out, in the order it would hit them. -/
def liveOpposite (book : Orderbook) (isBuy : Bool) : Queue :=
  ((queues book).side (!isBuy)).filter (fun x => live book.orders x.2)

/-- Best price first and, within a price, first accepted first. -/
theorem WF.liveOpposite_pairwise {book : Orderbook} {next : Nat}
    (hq : WF (queues book) next) (isBuy : Bool) :
    (liveOpposite book isBuy).Pairwise (fun x y =>
      better (!isBuy) x.1 y.1 ∨ (x.1 = y.1 ∧
        priorityOf book.orders x.2.orderId <
          priorityOf book.orders y.2.orderId)) := by
  refine List.Pairwise.filter _ ?_
  refine ((hq.price (!isBuy)).and (hq.time (!isBuy))).imp ?_
  rintro x y ⟨heq | hlt, htime⟩
  · exact Or.inr ⟨heq, htime heq⟩
  · exact Or.inl hlt

/-- An order that crosses the front opposite goes to the front of its side. -/
theorem side_insert_of_crosses {q : Queues} {next : Nat} (hq : WF q next)
    (hu : q.Uncrossed) {order : Order} {y : Int × Order}
    (hy : y ∈ q.side (!order.isBuy))
    (hc : crosses order.isBuy order.level y.1) (priority : Nat) :
    (q.insert priority order).side order.isBuy =
      (order.level, order) :: q.side order.isBuy := by
  rw [Queues.side_insert, if_pos rfl]
  refine orderedInsert_of_forall ?_
  intro x hx
  exact better_of_crosses hc (hu.all hq _ x hx y hy)

theorem side_insert_opposite (q : Queues) (priority : Nat) (order : Order) :
    (q.insert priority order).side (!order.isBuy) =
      q.side (!order.isBuy) := by
  rw [Queues.side_insert, if_neg (by cases order.isBuy <;> simp)]

/-- An order that does not cross the front opposite leaves the queues
uncrossed. -/
theorem uncrossed_insert {q : Queues} (hu : q.Uncrossed) {order : Order}
    (hc : ∀ y ∈ (q.side (!order.isBuy)).head?,
      ¬ crosses order.isBuy order.level y.1) (priority : Nat) :
    (q.insert priority order).Uncrossed := by
  refine (uncrossed_iff order.isBuy).2 ?_
  intro x hx y hy
  rw [side_insert_opposite] at hy
  rw [Queues.side_insert, if_pos rfl] at hx
  match hl : q.side order.isBuy with
  | [] =>
      rw [hl] at hx
      cases hx
      exact hc y hy
  | z :: l =>
      rw [hl, List.orderedInsert_cons] at hx
      split at hx
      · cases hx
        exact hc y hy
      · cases hx
        exact (uncrossed_iff order.isBuy).1 hu _ (by rw [hl]; rfl) y hy

/-- An accepted order that crosses the front opposite stands at the front of
its side. -/
theorem Inv.atFront {book : Orderbook} {curr : Nat} (hs : Inv (book, curr))
    {order : Order} (hnone : book.orders order.orderId = none)
    (hc : ¬ ∀ y ∈ ((queues book).side (!order.isBuy)).head?,
      ¬ crosses order.isBuy order.level y.1) :
    AtFront ((queues book).insert curr order) (curr + 1) order
      ⟨order.level, curr, false⟩ ((queues book).side order.isBuy)
      ((queues book).side (!order.isBuy)) := by
  have hu : (queues book).Uncrossed := uncrossed_of_best hs.uncrossed
  obtain ⟨y, hy, hc⟩ : ∃ y ∈ ((queues book).side (!order.isBuy)).head?,
      crosses order.isBuy order.level y.1 := by
    by_contra hno
    exact hc (fun y hy h => hno ⟨y, hy, h⟩)
  constructor
  case wf => exact hs.wf.insert hnone
  case side =>
    exact side_insert_of_crosses hs.wf hu (List.mem_of_mem_head? hy) hc curr
  case opposite => exact side_insert_opposite _ _ _
  case entry => exact insert_entry _ _ _
  case notCanceled => rfl
  case youngest =>
    intro x hx
    rw [priorityOf, hs.wf.insert_kept hnone curr hx]
    exact hs.wf.priorityOf_lt hx
  case behind => exact hu.all hs.wf order.isBuy

/-- Price-time priority and price protection. An order accepted by a book
that was only given positive quantities hits an initial part `hit` of the
live orders opposite, best price first and first come first within a price,
fills all of them but perhaps the last completely, and ends up filled itself
or with nothing left opposite that its limit allows. -/
theorem addOrder_priceTime (curr : Nat) (ops : List Op)
    (hops : ∀ order, .add order ∈ ops → 0 < order.quantity) (order : Order)
    (hpos : 0 < order.quantity)
    (hfree : (runState step (init curr) ops).1.orders.contains
      order.orderId = false) :
    ∃ s' trades hit,
      step (runState step (init curr) ops) (.add order) = (s', .ok trades) ∧
      (liveOpposite (runState step (init curr) ops).1 order.isBuy).Pairwise
        (fun x y => better (!order.isBuy) x.1 y.1 ∨ (x.1 = y.1 ∧
          priorityOf (runState step (init curr) ops).1.orders x.2.orderId <
          priorityOf (runState step (init curr) ops).1.orders y.2.orderId)) ∧
      hit <+: liveOpposite (runState step (init curr) ops).1 order.isBuy ∧
      List.Forall₂ (HitBy order) hit trades ∧
      trades.dropLast.map Trade.size =
        hit.dropLast.map (fun x => x.2.quantity) ∧
      ((trades.map Trade.size).sum = order.quantity ∨
        ∀ y ∈ liveOpposite s'.1 order.isBuy,
          ¬ crosses order.isBuy order.level y.1) := by
  have hinv := reachable_inv curr ops
  have hpositive : (queues (runState step (init curr) ops).1).Positive := by
    refine reachable_positive curr ?_
    intro op hop
    cases op with
    | add o => exact hops o hop
    | cancel _ => trivial
  generalize runState step (init curr) ops = s at hinv hpositive hfree ⊢
  obtain ⟨book, next⟩ := s
  obtain ⟨book', trades, hadd, hsweep, _, _⟩ := addOrder_spec next hfree
  have hnone := UnorderedMap.contains_eq_false.1 hfree
  have hu : (queues book).Uncrossed := uncrossed_of_best hinv.uncrossed
  refine ⟨(book', next + 1), trades, ?_⟩
  simp only [step]
  by_cases hc : ∀ y ∈ ((queues book).side (!order.isBuy)).head?,
      ¬ crosses order.isBuy order.level y.1
  · -- Nothing crosses: no trade.
    obtain ⟨rfl, hq'⟩ := hsweep.of_uncrossed (uncrossed_insert hu hc next)
    refine ⟨[], hadd, hinv.wf.liveOpposite_pairwise _, List.nil_prefix, .nil,
      rfl, Or.inr ?_⟩
    intro y hy
    have hy' := List.mem_of_mem_filter hy
    rw [hq', side_insert_opposite] at hy'
    exact not_crosses_of_head hinv.wf hc y hy'
  · obtain ⟨hit, hpre, hall, hsize, hend⟩ :=
      sweep_hits _ _ order trades (hinv.atFront hnone hc)
        (positive_insert hpositive next hpos) hsweep
    refine ⟨hit, hadd, hinv.wf.liveOpposite_pairwise _, ?_, hall, hsize,
      hend.imp id ?_⟩
    · rw [List.filter_congr (fun x hx => live_congr
        (hinv.wf.insert_kept hnone next hx))] at hpre
      exact hpre
    · intro hnc y hy
      exact hnc y (List.mem_of_mem_filter hy)

/-- A buy of 4 meets two sells: 2 at 99, then 2 of the 3 at 100. -/
theorem addOrder_priceTime_two : ∃ s' trades hit,
    step (runState step (init 0)
        [.add ⟨1, 100, false, 3⟩, .add ⟨2, 99, false, 2⟩])
      (.add ⟨3, 100, true, 4⟩) = (s', .ok trades) ∧
    List.Forall₂ (HitBy ⟨3, 100, true, 4⟩) hit trades := by
  obtain ⟨s', trades, hit, hstep, _, _, hall, _⟩ := addOrder_priceTime 0
    [.add ⟨1, 100, false, 3⟩, .add ⟨2, 99, false, 2⟩] (by simp)
    ⟨3, 100, true, 4⟩ (by decide) (by decide)
  exact ⟨s', trades, hit, hstep, hall⟩

end LearningCpp.Orderbook
