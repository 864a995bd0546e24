import LearningCpp.SegmentTree.Readings

/-!
# What a segment tree costs

The calls of the two recursions and the nodes there are, on any tree a run can
reach. A halving argument does all of it: the two halves of an interval of at
most `2 ^ (h + 1)` positions have at most `2 ^ h`.

An `insert_` goes down one path. A `query_` may go down both sides of a node,
but once only: below the node where it parts, each side asks for one end of its
interval, and of the two halves of such an interval one is covered or outside,
where the recursion stops. So the calls are four for each level.

Nodes are made by inserts alone, along their path, and one by a `grow`; and
there is no node that is not an interval of the cuts, so however long the run,
there are fewer than twice as many as positions.
-/

namespace LearningCpp.SegmentTree

open LearningCpp.Lib

variable {T : Type*}

/-- How often `query_` is called for a query. -/
def NodePtr.queryCalls : NodePtr T → (low high left right : Int) → ℕ
  | .null, _, _, _, _ => 1
  | .node _ l r, low, high, left, right =>
    if right < low ∨ high < left then 1
    else if left ≤ low ∧ high ≤ right then 1
    else
      1 + l.queryCalls low (midpoint low high) left right +
        r.queryCalls (midpoint low high + 1) high left right

/-- How often `insert_` is called for an insert. -/
def insertCalls (low high : Int) (hle : low ≤ high) (index : Int) : ℕ :=
  if heq : low = high then 1
  else
    have hmid := midpoint_bounds (lt_of_le_of_ne hle heq)
    if index ≤ midpoint low high then
      1 + insertCalls low (midpoint low high) hmid.1 index
    else
      1 + insertCalls (midpoint low high + 1) high
        (Int.add_one_le_of_lt hmid.2) index
termination_by (high + 1 - low).toNat
decreasing_by all_goals omega

/-- The nodes there are. -/
def NodePtr.nodes : NodePtr T → ℕ
  | .null => 0
  | .node _ l r => 1 + l.nodes + r.nodes

/-! ## One call -/

section Calls

variable {node : NodePtr T} {low high left right : Int} {h : ℕ}

/-- Both halves of an interval are half as long. -/
theorem halves_fit
    (hfit : high - low + 1 ≤ 2 ^ (h + 1)) :
    midpoint low high - low + 1 ≤ 2 ^ h ∧ high - midpoint low high ≤ 2 ^ h := by
  rw [pow_succ] at hfit
  unfold midpoint
  omega

/-- An interval of more than one position takes a level. -/
theorem level_of_lt (hlt : low < high) (hfit : high - low + 1 ≤ 2 ^ h) :
    ∃ k, h = k + 1 := by
  cases h with
  | zero =>
      rw [pow_zero] at hfit
      omega
  | succ k => exact ⟨k, rfl⟩

theorem queryCalls_outside (hout : right < low ∨ high < left) :
    node.queryCalls low high left right = 1 := by
  cases node with
  | null => rfl
  | node val l r => rw [NodePtr.queryCalls, if_pos hout]

theorem queryCalls_inside (hin : left ≤ low ∧ high ≤ right) :
    node.queryCalls low high left right = 1 := by
  cases node with
  | null => rfl
  | node val l r =>
      rw [NodePtr.queryCalls, if_pos hin, ite_self]

/-- A query for one end of the interval goes on in one half only. -/
theorem queryCalls_end (hle : low ≤ high) (hend : left ≤ low ∨ high ≤ right)
    (hfit : high - low + 1 ≤ 2 ^ h) :
    node.queryCalls low high left right ≤ 2 * h + 1 := by
  induction node generalizing low high h with
  | null =>
      rw [NodePtr.queryCalls]
      omega
  | node val l r ihl ihr =>
      by_cases hout : right < low ∨ high < left
      · rw [queryCalls_outside hout]
        omega
      by_cases hin : left ≤ low ∧ high ≤ right
      · rw [queryCalls_inside hin]
        omega
      rw [NodePtr.queryCalls, if_neg hout, if_neg hin]
      have hlt : low < high := by omega
      obtain ⟨k, rfl⟩ := level_of_lt hlt hfit
      have hmid := midpoint_bounds hlt
      obtain ⟨hfl, hfr⟩ := halves_fit hfit
      rcases hend with hleft | hright
      · rcases le_or_gt right (midpoint low high) with hr | hr
        · have hgo := ihl (h := k) hmid.1 (.inl hleft) hfl
          have hstop : r.queryCalls (midpoint low high + 1) high left right = 1 :=
            queryCalls_outside (.inl (by omega))
          omega
        · have hstop : l.queryCalls low (midpoint low high) left right = 1 :=
            queryCalls_inside ⟨hleft, by omega⟩
          have hgo : r.queryCalls (midpoint low high + 1) high left right ≤
              2 * k + 1 := ihr (by omega) (.inl (by omega)) (by omega)
          omega
      · rcases le_or_gt left (midpoint low high) with hl | hl
        · have hgo := ihl (h := k) hmid.1 (.inr (by omega)) hfl
          have hstop : r.queryCalls (midpoint low high + 1) high left right = 1 :=
            queryCalls_inside ⟨by omega, hright⟩
          omega
        · have hstop : l.queryCalls low (midpoint low high) left right = 1 :=
            queryCalls_outside (.inr hl)
          have hgo : r.queryCalls (midpoint low high + 1) high left right ≤
              2 * k + 1 := ihr (by omega) (.inr hright) (by omega)
          omega

/-- A query goes down one path to where it parts, and then down two. -/
theorem queryCalls_le (hle : low ≤ high) (hfit : high - low + 1 ≤ 2 ^ h) :
    node.queryCalls low high left right ≤ 4 * h + 1 := by
  induction node generalizing low high h with
  | null =>
      rw [NodePtr.queryCalls]
      omega
  | node val l r ihl ihr =>
      by_cases hout : right < low ∨ high < left
      · rw [queryCalls_outside hout]
        omega
      by_cases hin : left ≤ low ∧ high ≤ right
      · rw [queryCalls_inside hin]
        omega
      rw [NodePtr.queryCalls, if_neg hout, if_neg hin]
      have hlt : low < high := by omega
      obtain ⟨k, rfl⟩ := level_of_lt hlt hfit
      have hmid := midpoint_bounds hlt
      obtain ⟨hfl, hfr⟩ := halves_fit hfit
      rcases le_or_gt right (midpoint low high) with hr | hr
      · have hgo := ihl (h := k) hmid.1 hfl
        have hstop : r.queryCalls (midpoint low high + 1) high left right = 1 :=
          queryCalls_outside (.inl (by omega))
        omega
      rcases le_or_gt left (midpoint low high) with hl | hl
      · have hgol : l.queryCalls low (midpoint low high) left right ≤
            2 * k + 1 := queryCalls_end hmid.1 (.inr (by omega)) hfl
        have hgor : r.queryCalls (midpoint low high + 1) high left right ≤
            2 * k + 1 := queryCalls_end (by omega) (.inl (by omega)) (by omega)
        omega
      · have hstop : l.queryCalls low (midpoint low high) left right = 1 :=
          queryCalls_outside (.inr hl)
        have hgo : r.queryCalls (midpoint low high + 1) high left right ≤
            4 * k + 1 := ihr (by omega) (by omega)
        omega

theorem insertCalls_le {index : Int} (hle : low ≤ high)
    (hfit : high - low + 1 ≤ 2 ^ h) :
    insertCalls low high hle index ≤ h + 1 := by
  induction h generalizing low high with
  | zero =>
      rw [pow_zero] at hfit
      rw [insertCalls, dif_pos (by omega)]
  | succ k ih =>
      rw [insertCalls]
      split
      · omega
      · next hne =>
          have hlt : low < high := by omega
          have hmid := midpoint_bounds hlt
          obtain ⟨hfl, hfr⟩ := halves_fit hfit
          split
          · have hgo : insertCalls low (midpoint low high) hmid.1 index ≤
                k + 1 := ih hmid.1 hfl
            show 1 + insertCalls low (midpoint low high) hmid.1 index ≤ _
            omega
          · have hgo : insertCalls (midpoint low high + 1) high (by omega)
                index ≤ k + 1 := ih (by omega) (by omega)
            show 1 + insertCalls (midpoint low high + 1) high (by omega)
              index ≤ _
            omega

/-! ## The nodes -/

/-- Every node is an interval of the cuts, and those of one position have no
children. -/
theorem Holds.nodes_le {identity : T} {combine : T → T → T} {a : Int → T}
    (h : Holds identity combine a node low high) (hle : low ≤ high) :
    (node.nodes : Int) ≤ 2 * (high - low) + 1 := by
  induction h with
  | null _ =>
      rw [NodePtr.nodes]
      omega
  | leaf =>
      simp only [NodePtr.nodes]
      omega
  | inner hlt _ _ ihl ihr =>
      have hmid := midpoint_bounds hlt
      have hl := ihl hmid.1
      have hr := ihr (by omega)
      rw [NodePtr.nodes]
      omega

/-- An insert makes no more nodes than it makes calls. -/
theorem nodes_insert (identity : T) (combine : T → T → T) {index : Int}
    {value : T} (hle : low ≤ high) :
    (node.insert_ identity combine low high hle index value).nodes ≤
      node.nodes + insertCalls low high hle index := by
  induction hn : (high - low).toNat using Nat.strong_induction_on
    generalizing node low high with
  | _ n ih =>
      have hmake : ∀ val l r, node.orMake identity = (val, l, r) →
          1 + l.nodes + r.nodes ≤ node.nodes + 1 := by
        intro val l r hval
        cases node with
        | null => cases hval; rfl
        | node val' l' r' => cases hval; rw [NodePtr.nodes]; omega
      rw [NodePtr.insert_, insertCalls]
      rcases hval : node.orMake identity with ⟨val, l, r⟩
      have hbound := hmake val l r hval
      simp only []
      split
      · rw [NodePtr.nodes]
        exact hbound
      · next hne =>
          have hlt : low < high := by omega
          have hmid := midpoint_bounds hlt
          split
          · have hgo : (l.insert_ identity combine low (midpoint low high)
                hmid.1 index value).nodes ≤
                  l.nodes + insertCalls low (midpoint low high) hmid.1
                    index := ih _ (by omega) hmid.1 rfl
            rw [NodePtr.nodes]
            omega
          · have hgo : (r.insert_ identity combine (midpoint low high + 1)
                high (by omega) index value).nodes ≤
                  r.nodes + insertCalls (midpoint low high + 1) high
                    (by omega) index := ih _ (by omega) (by omega) rfl
            rw [NodePtr.nodes]
            omega

end Calls

/-! ## Every run -/

/-- The levels below the root, over as many positions. -/
def height (size : Int) : ℕ := Nat.clog 2 size.toNat

theorem fits_height {size : Int} (h : 1 ≤ size) :
    size - 1 - 0 + 1 ≤ 2 ^ height size := by
  have hpow : size.toNat ≤ 2 ^ height size :=
    Nat.le_pow_clog (by decide) size.toNat
  have hcast : (size.toNat : Int) ≤ ((2 ^ height size : ℕ) : Int) :=
    Int.ofNat_le.2 hpow
  rw [Int.toNat_of_nonneg (by omega), Nat.cast_pow, Nat.cast_ofNat] at hcast
  omega

theorem height_mono {size size' : Int} (h : size ≤ size') :
    height size ≤ height size' :=
  Nat.clog_mono_right 2 (Int.toNat_le_toNat h)

/-- The inserts among some calls. -/
def inserts (ops : List (Op T)) : ℕ := ops.countP (fun op => !op.isGrow)

/-- What one call that returns adds to the nodes. -/
theorem step_nodes {t : SegmentTree T} (hsize : 1 ≤ t.size) {op : Op T}
    (h : (step t op).2.isOk = true) :
    (step t op).1.root.nodes ≤
      t.root.nodes + if op.isGrow then 1 else height t.size + 1 := by
  have hinsert : ∀ (index : Int) (value : T) (t' : SegmentTree T),
      t.insert index value = .ok t' →
      t'.root.nodes ≤ t.root.nodes + (height t.size + 1) := by
    intro index value t' hrun
    rw [SegmentTree.insert] at hrun
    split at hrun
    · cases hrun
    · cases hrun
      have hle : (0 : Int) ≤ t.size - 1 := by omega
      have hnodes : (t.root.insert_ t.identity t.combine 0 (t.size - 1) hle
          index value).nodes ≤
            t.root.nodes + insertCalls 0 (t.size - 1) hle index :=
        nodes_insert t.identity t.combine hle
      have hcalls : insertCalls 0 (t.size - 1) hle index ≤
          height t.size + 1 := insertCalls_le hle (fits_height hsize)
      exact hnodes.trans (Nat.add_le_add_left hcalls _)
  unfold step at h ⊢
  split
  · next t' hrun =>
      cases op with
      | insert index value => exact hinsert index value t' hrun
      | update index value => exact hinsert index value t' hrun
      | grow =>
          rw [Op.run, grow] at hrun
          split at hrun
          · cases hrun
          · cases hrun
            show 1 + t.root.nodes + 0 ≤ t.root.nodes + 1
            omega
  · next e hrun =>
      rw [hrun] at h
      cases h

theorem size_le_run {t : SegmentTree T} {a : Int → T} (ha : Represents t a)
    (ops : List (Op T)) : t.size ≤ (runState step t ops).size := by
  obtain ⟨-, hsize, -, -⟩ := run_represents ops ha
  rw [hsize]
  have hone : (1 : Int) ≤ 2 ^ grows (accepted t ops) :=
    one_le_pow₀ (by decide)
  exact le_mul_of_one_le_right (by linarith [ha.size]) hone

theorem run_nodes (ops : List (Op T)) : ∀ {t : SegmentTree T} {a : Int → T},
    Represents t a →
    (runState step t ops).root.nodes ≤ t.root.nodes +
      ((height (runState step t ops).size + 1) * inserts (accepted t ops) +
        grows (accepted t ops)) := by
  induction ops with
  | nil => exact fun _ => Nat.le_add_right _ _
  | cons op ops ih =>
      intro t a ha
      rw [runState_cons, accepted]
      cases hok : (step t op).2.isOk with
      | false =>
          rw [step_rejected hok]
          exact ih ha
      | true =>
          obtain ⟨ha', hsize, -, -⟩ := step_ok ha hok
          have hstep := step_nodes ha.size hok
          have hrest := ih ha'
          have hheight : height t.size ≤
              height (runState step (step t op).1 ops).size := by
            refine height_mono (le_trans ?_ (size_le_run ha' ops))
            rw [hsize]
            split <;> linarith [ha.size]
          rw [if_pos rfl, inserts, grows, List.countP_cons, List.countP_cons,
            Nat.mul_add]
          rw [inserts, grows] at hrest
          cases hgrow : op.isGrow with
          | true =>
              rw [hgrow, if_pos rfl] at hstep
              simp only [Bool.not_true, Bool.false_eq_true, if_false, if_true]
              omega
          | false =>
              rw [hgrow, if_neg Bool.false_ne_true] at hstep
              simp only [Bool.not_false, Bool.false_eq_true, if_false, if_true]
              omega

/-- On the tree of any run an insert makes at most one call for each level and
one more, a query four for each level and one more, and the nodes are fewer than
twice the positions, and at most as many as the calls of all inserts and one for
each `grow`. -/
theorem run_cost {n : Int} (hn : 1 ≤ n) (identity : T) (combine : T → T → T)
    (ops : List (Op T)) : ∃ t₀, make n identity combine = .ok t₀ ∧
      ∃ hle : 0 ≤ (runState step t₀ ops).size - 1,
      (∀ index, insertCalls 0 ((runState step t₀ ops).size - 1) hle index ≤
        height (runState step t₀ ops).size + 1) ∧
      (∀ left right, (runState step t₀ ops).root.queryCalls 0
          ((runState step t₀ ops).size - 1) left right ≤
        4 * height (runState step t₀ ops).size + 1) ∧
      ((runState step t₀ ops).root.nodes : Int) <
        2 * (runState step t₀ ops).size ∧
      (runState step t₀ ops).root.nodes ≤
        (height (runState step t₀ ops).size + 1) *
            inserts (accepted t₀ ops) + grows (accepted t₀ ops) := by
  have hmade := make_represents hn identity combine
  obtain ⟨hrep, -, -, -⟩ := run_represents ops hmade
  have hsize := hrep.size
  have hle : 0 ≤ (runState step ⟨n, identity, combine, .null⟩ ops).size - 1 := by
    omega
  refine ⟨_, if_neg (by omega), hle, ?_, ?_, ?_, ?_⟩
  · exact fun index => insertCalls_le hle (fits_height hsize)
  · exact fun left right => queryCalls_le hle (fits_height hsize)
  · have hnodes := hrep.root.nodes_le hle
    omega
  · have hnodes := run_nodes ops hmade
    rw [NodePtr.nodes, Nat.zero_add] at hnodes
    exact hnodes

/-- Three positions grown to six. -/
theorem run_cost_grown : ∃ t₀, make 3 0 (· + · : ℕ → ℕ → ℕ) = .ok t₀ ∧
    (runState step t₀ [.insert 2 7, .grow, .insert 4 1]).root.nodes ≤
      (height (runState step t₀ [.insert 2 7, .grow, .insert 4 1]).size + 1) *
          inserts (accepted t₀ [.insert 2 7, .grow, .insert 4 1]) +
        grows (accepted t₀ [.insert 2 7, .grow, .insert 4 1]) := by
  obtain ⟨t₀, hmake, -, -, -, -, hnodes⟩ :=
    run_cost (by decide : (1 : Int) ≤ 3) 0 (· + · : ℕ → ℕ → ℕ)
      [.insert 2 7, .grow, .insert 4 1]
  exact ⟨t₀, hmake, hnodes⟩

end LearningCpp.SegmentTree
