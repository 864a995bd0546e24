import LearningCpp.LimitOrderBook.Runs

/-!
# Volumes and queues

The volume of a price is to be that of its queue, and what is unmatched of the
orders placed there. In a run that is defined the levels stay empty while the
volumes count all that was ever placed, so the two differ from the first
`PlaceOrder` on.
-/

namespace LearningCpp.LimitOrderBook

open LearningCpp.Lib

variable {κ : Type*} [LinearOrder κ]

/-- The sum of what is unmatched of the orders at a price. -/
def unmatched (ledger : List (Placed κ)) (price : κ) (buy : Bool) : Int :=
  ((ledger.filter (fun order => order.price = price ∧ order.buy = buy)).map
    Placed.remaining).sum

/-- At every price of either side, the volume the book answers is that in its
queue, and that is what is unmatched of the orders placed. -/
def State.VolumesMatch (s : State κ) : Prop :=
  ∀ price buy,
    (s.book.getPriceVolume price buy).2 =
        ((queue s.book price buy).map Order.volume).sum ∧
      ((queue s.book price buy).map Order.volume).sum =
        unmatched s.ledger price buy

/-! ## What a call does to the volumes -/

namespace Side

variable {r : κ → κ → Prop}

/-- The volume at a price. -/
def volume (s : Side r) (price : κ) : Int := (s.volumes.subscript price).1

theorem addVolume_volume (s : Side r) (price p : κ) (v : Int) :
    (s.addVolume price v).volume p =
      s.volume p + if price = p then v else 0 := by
  have hset : (s.addVolume price v).volumes =
      s.volumes.set price (s.volume price + v) :=
    UnorderedMap.subscript_set s.volumes price (s.volume price + v)
  unfold volume at hset ⊢
  rw [hset, UnorderedMap.subscript_fst, UnorderedMap.subscript_fst,
    UnorderedMap.subscript_fst, UnorderedMap.set_apply]
  by_cases hp : p = price
  · rw [if_pos hp, if_pos hp.symm, hp, Option.getD_some]
  · rw [if_neg hp, if_neg (Ne.symm hp), Int.add_zero]

variable [DecidableRel r] [IsStrictTotalOrder κ r]

theorem rest_volume (s : Side r) (client : String) (price p : κ) (v : Int)
    (buy : Bool) : (s.rest client price v buy).1.volume p =
      s.volume p + if price = p then v else 0 :=
  addVolume_volume { s with levels := _ } price p v

end Side

theorem getPriceVolume_rested (book : LimitOrderBook κ) (price p : κ)
    (volume : Int) (client : String) (buy b : Bool) :
    ((rested book price volume client buy).getPriceVolume p b).2 =
      (book.getPriceVolume p b).2 +
        if price = p ∧ buy = b then volume else 0 := by
  cases buy with
  | true =>
      cases b with
      | true =>
          simp only [and_true]
          exact book.bids.rest_volume client price p volume true
      | false =>
          simp only [Bool.true_eq_false, and_false, if_false, Int.add_zero]
          rfl
  | false =>
      cases b with
      | true =>
          simp only [Bool.false_eq_true, and_false, if_false, Int.add_zero]
          rfl
      | false =>
          simp only [and_true]
          exact book.asks.rest_volume client price p volume false

/-! ## Whole runs -/

/-- The volume of the orders placed at a price. -/
def placedVolume (price : κ) (buy : Bool) : List (Op κ) → Int
  | [] => 0
  | .place p volume _ b :: ops =>
      (if p = price ∧ b = buy then volume else 0) + placedVolume price buy ops
  | .cancel _ :: ops => placedVolume price buy ops

theorem placedVolume_append (price : κ) (buy : Bool) (ops ops' : List (Op κ)) :
    placedVolume price buy (ops ++ ops') =
      placedVolume price buy ops + placedVolume price buy ops' := by
  induction ops with
  | nil => exact (Int.zero_add _).symm
  | cons op ops ih =>
      cases op with
      | place => simp only [List.cons_append, placedVolume, ih, Int.add_assoc]
      | cancel => exact ih

theorem placedVolume_nonneg (price : κ) (buy : Bool) {ops : List (Op κ)}
    (hpos : ∀ op ∈ ops, op.Positive) : 0 ≤ placedVolume price buy ops := by
  induction ops with
  | nil => exact le_refl 0
  | cons op ops ih =>
      obtain ⟨hop, hrest⟩ := List.forall_mem_cons.1 hpos
      have hle := ih hrest
      cases op with
      | place p v client b =>
          have hv : 0 < v := hop
          simp only [placedVolume]
          split
          · omega
          · omega
      | cancel => exact hle

/-- A price at which something was placed. -/
theorem placedVolume_pos {price : κ} {v : Int} {client : String} {buy : Bool}
    {ops : List (Op κ)} (hpos : ∀ op ∈ ops, op.Positive)
    (hop : .place price v client buy ∈ ops) :
    0 < placedVolume price buy ops := by
  obtain ⟨before, after, heq⟩ := List.append_of_mem hop
  have hv : 0 < v := hpos _ hop
  rw [heq] at hpos
  have hbefore := placedVolume_nonneg price buy
    (fun op h => hpos op (List.mem_append_left _ h))
  have hafter := placedVolume_nonneg price buy
    (fun op h => hpos op (List.mem_append_right _ (List.mem_cons_of_mem _ h)))
  rw [heq, placedVolume_append, placedVolume, if_pos ⟨rfl, rfl⟩]
  omega

/-- What holds after the calls of a run. -/
structure After (ops : List (Op κ)) (s : State κ) : Prop where
  hollow : Hollow s.book
  volume : ∀ price buy,
    (s.book.getPriceVolume price buy).2 = placedVolume price buy ops
  ledger : ∀ price buy,
    unmatched s.ledger price buy = placedVolume price buy ops

theorem after_nil : After [] (⟨.empty, []⟩ : State κ) where
  hollow := hollow_empty
  volume := by
    intro price buy
    cases buy with
    | true => rfl
    | false => rfl
  ledger := fun _ _ => rfl

theorem After.call {ops : List (Op κ)} {s s' : State κ} {op : Op κ}
    (h : After ops s) (hop : op.Positive) (hcall : s.call op = .ok s') :
    After (ops ++ [op]) s' := by
  cases op with
  | place price v client buy =>
      rw [State.call] at hcall
      split at hcall
      · cases hcall
      · next book fills id hplace =>
          rw [← Except.ok.inj hcall]
          obtain ⟨rfl, _, ⟨_, rfl⟩ | ⟨hzero, _⟩⟩ :=
            h.hollow.placeOrder_ok hplace
          · refine ⟨h.hollow.rested price v client buy, ?_, ?_⟩
            · intro p b
              rw [getPriceVolume_rested, h.volume, placedVolume_append]
              simp only [placedVolume, Int.add_zero]
            · intro p b
              rw [placedVolume_append, ← h.ledger]
              simp only [unmatched, List.foldl_nil, List.filter_append,
                List.map_append, List.sum_append, placedVolume, Int.add_zero,
                List.map_nil, List.sum_nil, Int.sub_zero]
              by_cases hp : price = p ∧ buy = b
              · simp [hp]
              · simp [hp]
          · exact absurd hzero hop.ne'
  | cancel orderid =>
      have hsame : ∀ p b,
          placedVolume p b (ops ++ [.cancel orderid]) = placedVolume p b ops :=
        fun p b => by rw [placedVolume_append]; exact Int.add_zero _
      rcases h.hollow.cancelOrder orderid with hok | herror
      · simp only [State.call, hok] at hcall
        rw [← Except.ok.inj hcall]
        exact ⟨h.hollow, fun p b => (h.volume p b).trans (hsame p b).symm,
          fun p b => (h.ledger p b).trans (hsame p b).symm⟩
      · simp only [State.call, herror] at hcall
        cases hcall

/-- Every run that is defined ends like that. -/
theorem after_run {ops : List (Op κ)} (hpos : ∀ op ∈ ops, op.Positive)
    {s : State κ} (hrun : run ops = .ok s) : After ops s := by
  refine run_induction (P := fun ops s =>
    (∀ op ∈ ops, op.Positive) → After ops s) (fun _ => after_nil) ?_ hrun hpos
  intro ops s op s' ih hcall hpos
  have hbefore : ∀ op ∈ ops, op.Positive :=
    fun op h => hpos op (List.mem_append_left _ h)
  exact (ih hbefore).call (hpos op (by simp)) hcall

theorem placedVolume_eq_zero {ops : List (Op κ)}
    (hnone : ∀ op ∈ ops, ¬ op.IsPlace) (price : κ) (buy : Bool) :
    placedVolume price buy ops = 0 := by
  induction ops with
  | nil => rfl
  | cons op ops ih =>
      obtain ⟨hop, hrest⟩ := List.forall_mem_cons.1 hnone
      cases op with
      | place => exact absurd trivial hop
      | cancel => exact ih hrest

theorem After.match_iff {ops : List (Op κ)} {s : State κ}
    (h : After ops s) (hpos : ∀ op ∈ ops, op.Positive) :
    s.VolumesMatch ↔ ∀ op ∈ ops, ¬ op.IsPlace := by
  constructor
  · intro hmatch op hop hplace
    cases op with
    | place price v client buy =>
        have hvolume := (hmatch price buy).1
        rw [h.volume, h.hollow.queue] at hvolume
        exact (placedVolume_pos hpos hop).ne' hvolume
    | cancel => exact hplace
  · intro hnone price buy
    rw [h.volume, h.ledger, h.hollow.queue, placedVolume_eq_zero hnone]
    exact ⟨rfl, rfl⟩

theorem run_of_no_place {ops : List (Op κ)}
    (hnone : ∀ op ∈ ops, ¬ op.IsPlace) :
    run ops = .ok ⟨.empty, []⟩ := by
  induction ops using List.reverseRecOn with
  | nil => rfl
  | append_singleton ops op ih =>
      have hop := hnone op (by simp)
      rw [run_concat, ih (fun op h => hnone op (List.mem_append_left _ h))]
      cases op with
      | place => exact absurd trivial hop
      | cancel => rfl

/-- **The volumes match the queues after every operation of a sequence if and
only if no order is placed in it**: an order that rests is counted at its price
and is not in the queue. -/
theorem volumesMatch_iff (ops : List (Op κ))
    (hpos : ∀ op ∈ ops, op.Positive) :
    (∀ before, before <+: ops →
        ∃ s, run before = .ok s ∧ s.VolumesMatch) ↔
      ∀ op ∈ ops, ¬ op.IsPlace := by
  constructor
  · intro h
    obtain ⟨s, hrun, hmatch⟩ := h ops List.prefix_rfl
    exact ((after_run hpos hrun).match_iff hpos).1 hmatch
  · intro hnone before hbefore
    have hless : ∀ op ∈ before, ¬ op.IsPlace :=
      fun op hop => hnone op (hbefore.subset hop)
    have hrun := run_of_no_place hless
    refine ⟨_, hrun, ?_⟩
    have hposBefore : ∀ op ∈ before, op.Positive :=
      fun op hop => hpos op (hbefore.subset hop)
    exact ((after_run hposBefore hrun).match_iff hposBefore).2 hless

theorem volumesMatch_iff_bid :
    (∀ before, before <+: [Op.place (10 : Int) 5 "alice" true, .cancel 1] →
        ∃ s, run before = .ok s ∧ s.VolumesMatch) ↔
      ∀ op ∈ [Op.place (10 : Int) 5 "alice" true, .cancel 1], ¬ op.IsPlace :=
  volumesMatch_iff _ (by simp [Op.Positive])

/-- One bid in an empty book: its volume is counted, and the queue is empty. -/
theorem volumes_differ_bid :
    ∃ s, run [Op.place (10 : Int) 5 "alice" true] = .ok s ∧
      (s.book.getPriceVolume 10 true).2 = 5 ∧ queue s.book 10 true = [] ∧
      unmatched s.ledger 10 true = 5 ∧ ¬ s.VolumesMatch := by
  have hpos : ∀ op ∈ [Op.place (10 : Int) 5 "alice" true], op.Positive := by
    simp [Op.Positive]
  have hrun := run_place (10 : Int) "alice" true (show (0 : Int) < 5 by omega)
  have hafter := after_run hpos hrun
  refine ⟨_, hrun, hafter.volume 10 true, hafter.hollow.queue 10 true,
    hafter.ledger 10 true, ?_⟩
  intro hmatch
  exact (hafter.match_iff hpos).1 hmatch _ (.head _) trivial

end LearningCpp.LimitOrderBook
