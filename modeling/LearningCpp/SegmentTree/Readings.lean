import LearningCpp.Lib.Fold
import LearningCpp.SegmentTree.Model

/-!
# A segment tree is an array

What the tree stands for is one value at each position, and a query is the
combination of the values of an interval in order. `Holds` ties a node to the
interval it is asked about: a missing node to an interval of identities, a leaf
to its one value, an inner node to the two halves the midpoint makes.

Two facts carry the refinement. A node's value is the combination along its
interval, whatever the interval; and the interval of the old root is the left
half of the new one, because the midpoint of `0` and `2n - 1` is `n - 1`, also
when `n` is not a power of two.
-/

namespace LearningCpp.SegmentTree

open LearningCpp.Lib

variable {T : Type*}

/-- `Holds identity combine a node low high`: below `node` are the values of
`a` from `low` to `high`. -/
inductive Holds (identity : T) (combine : T → T → T) (a : Int → T) :
    NodePtr T → Int → Int → Prop where
  | null {low high : Int} (h : ∀ i, low ≤ i → i ≤ high → a i = identity) :
      Holds identity combine a .null low high
  | leaf {i : Int} : Holds identity combine a (.node (a i) .null .null) i i
  | inner {low high : Int} {left right : NodePtr T} (hlt : low < high)
      (hleft : Holds identity combine a left low (midpoint low high))
      (hright : Holds identity combine a right (midpoint low high + 1) high) :
      Holds identity combine a
        (.node (combine (left.valueOf identity) (right.valueOf identity))
          left right) low high

section Holds

variable {identity : T} {combine : T → T → T} {a a' : Int → T}
  {node : NodePtr T} {low high : Int}

theorem Holds.congr (h : Holds identity combine a node low high)
    (ha : ∀ i, low ≤ i → i ≤ high → a' i = a i) :
    Holds identity combine a' node low high := by
  induction h with
  | null h =>
      refine .null ?_
      intro i hl hh
      rw [ha i hl hh]
      exact h i hl hh
  | @leaf i =>
      have hi := ha i (Int.le_refl i) (Int.le_refl i)
      rw [← hi]
      exact .leaf
  | inner hlt _ _ ihl ihr =>
      have hmid := midpoint_bounds hlt
      refine .inner hlt (ihl ?_) (ihr ?_)
      · intro i hl hh
        exact ha i hl (by omega)
      · intro i hl hh
        exact ha i (by omega) hh

/-- An inner node of the interval over two nodes that hold its halves. -/
theorem Holds.children (h : Holds identity combine a node low high)
    (hlt : low < high) {val : T} {left right : NodePtr T}
    (hmake : node.orMake identity = (val, left, right)) :
    Holds identity combine a left low (midpoint low high) ∧
      Holds identity combine a right (midpoint low high + 1) high := by
  have hmid := midpoint_bounds hlt
  cases h with
  | null h =>
      cases hmake
      refine ⟨.null ?_, .null ?_⟩
      · intro i hl hh
        exact h i hl (by omega)
      · intro i hl hh
        exact h i (by omega) hh
  | leaf => omega
  | inner _ hleft hright =>
      cases hmake
      exact ⟨hleft, hright⟩

theorem Holds.leaf_children {i : Int} (h : Holds identity combine a node i i)
    {val : T} {left right : NodePtr T}
    (hmake : node.orMake identity = (val, left, right)) :
    left = .null ∧ right = .null := by
  cases h with
  | null _ => cases hmake; exact ⟨rfl, rfl⟩
  | leaf => cases hmake; exact ⟨rfl, rfl⟩
  | inner hlt _ _ => omega

/-- `insert_` writes one position. -/
theorem Holds.insert_ {index : Int} {value : T} :
    ∀ {node : NodePtr T} {low high : Int} (hle : low ≤ high),
      Holds identity combine a node low high → low ≤ index → index ≤ high →
      Holds identity combine (Function.update a index value)
        (node.insert_ identity combine low high hle index value) low high := by
  intro node low high hle
  -- The recursion of `insert_` is on the length of the interval.
  induction hn : (high - low).toNat using Nat.strong_induction_on
    generalizing node low high with
  | _ n ih =>
      intro h hlow hhigh
      rw [NodePtr.insert_]
      match hmake : node.orMake identity with
      | (val, left, right) =>
          simp only []
          split
          · next heq =>
              subst heq
              obtain ⟨rfl, rfl⟩ := h.leaf_children hmake
              obtain rfl : index = low := by omega
              have hleaf : Holds identity combine
                  (Function.update a index value)
                  (.node (Function.update a index value index) .null .null)
                  index index := .leaf
              rw [Function.update_self] at hleaf
              exact hleaf
          · next hne =>
              have hlt : low < high := by omega
              have hmid := midpoint_bounds hlt
              obtain ⟨hleft, hright⟩ := h.children hlt hmake
              split
              · next hi =>
                  refine .inner hlt ?_ (hright.congr ?_)
                  · exact ih _ (by omega) hmid.1 rfl hleft hlow hi
                  · intro i hl _
                    exact Function.update_of_ne (by omega) _ _
              · next hi =>
                  refine .inner hlt (hleft.congr ?_) ?_
                  · intro i _ hh
                    exact Function.update_of_ne (by omega) _ _
                  · exact ih _ (by omega) (by omega) rfl hright (by omega)
                      hhigh

variable (hlaws : MonoidLaws combine identity)

include hlaws

/-- The value of a node is the combination along its interval. -/
theorem Holds.valueOf (h : Holds identity combine a node low high)
    (hle : low ≤ high) : node.valueOf identity =
      leftToRight combine identity ((span low high).map a) := by
  induction h with
  | null h =>
      rw [leftToRight_identity hlaws]
      · rfl
      · intro x hx
        obtain ⟨i, hi, rfl⟩ := List.mem_map.1 hx
        obtain ⟨hl, hh⟩ := mem_span.1 hi
        exact h i hl hh
  | leaf => rw [span_self]; rfl
  | inner hlt _ _ ihl ihr =>
      have hmid := midpoint_bounds hlt
      rw [span_append (by omega) (Int.le_of_lt hmid.2), List.map_append,
        leftToRight_append hlaws, ← ihl hmid.1, ← ihr (by omega)]
      rfl

/-- `query_` combines the part of the interval it is asked about. -/
theorem Holds.query_ (h : Holds identity combine a node low high)
    (hle : low ≤ high) (left right : Int) :
    node.query_ identity combine low high left right =
      leftToRight combine identity
        (((span low high).filter (fun i => left ≤ i ∧ i ≤ right)).map a) := by
  have hval := h.valueOf hlaws hle
  -- The two early returns: nothing of the interval, or all of it.
  have hnone : ∀ {low high : Int}, right < low ∨ high < left →
      (span low high).filter (fun i => left ≤ i ∧ i ≤ right) = [] := by
    intro low high hout
    refine List.filter_eq_nil_iff.2 ?_
    intro i hi
    have := mem_span.1 hi
    simp only [decide_eq_true_eq]
    omega
  have hall : ∀ {low high : Int}, left ≤ low ∧ high ≤ right →
      (span low high).filter (fun i => left ≤ i ∧ i ≤ right) =
        span low high := by
    intro low high hin
    refine List.filter_eq_self.2 ?_
    intro i hi
    have := mem_span.1 hi
    simp only [decide_eq_true_eq]
    omega
  induction h with
  | null h =>
      rw [leftToRight_identity hlaws]
      · rfl
      · intro x hx
        obtain ⟨i, hi, rfl⟩ := List.mem_map.1 hx
        obtain ⟨hl, hh⟩ := mem_span.1 (List.mem_of_mem_filter hi)
        exact h i hl hh
  | @leaf i =>
      rw [NodePtr.query_]
      split
      · next hout => rw [hnone hout]; rfl
      · next hout => rw [if_pos (by omega), hall (by omega), span_self]; rfl
  | inner hlt hleft hright ihl ihr =>
      have hmid := midpoint_bounds hlt
      rw [NodePtr.query_]
      split
      · next hout => rw [hnone hout]; rfl
      · split
        · next hin => rw [hall hin]; exact hval
        · rw [ihl hmid.1 (hleft.valueOf hlaws hmid.1),
            ihr (by omega) (hright.valueOf hlaws (by omega)),
            ← leftToRight_append hlaws, ← List.map_append,
            ← List.filter_append,
            ← span_append (by omega) (Int.le_of_lt hmid.2)]

end Holds

/-! ## The calls -/

/-- The tree stands for `a` at its positions and for the identity beyond. -/
structure Represents (t : SegmentTree T) (a : Int → T) : Prop where
  size : 1 ≤ t.size
  root : Holds t.identity t.combine a t.root 0 (t.size - 1)
  beyond : ∀ i, t.size ≤ i → a i = t.identity

/-- What a call that returns makes of the array. -/
def Op.write (a : Int → T) : Op T → Int → T
  | .insert index value => Function.update a index value
  | .update index value => Function.update a index value
  | .grow => a

def Op.isGrow : Op T → Bool
  | .grow => true
  | _ => false

/-- The calls that return rather than throw. -/
def Op.Allowed (t : SegmentTree T) : Op T → Prop
  | .insert index _ => 0 ≤ index ∧ index < t.size
  | .update index _ => 0 ≤ index ∧ index < t.size
  | .grow => t.size ≤ intMax / 2

theorem insert_isOk {t : SegmentTree T} {index : Int} {value : T} :
    (t.insert index value).isOk = true ↔ 0 ≤ index ∧ index < t.size := by
  unfold SegmentTree.insert
  split
  · next h => exact iff_of_false (fun h' => by cases h') (by omega)
  · next h => exact iff_of_true rfl (by omega)

theorem step_isOk {t : SegmentTree T} {op : Op T} :
    (step t op).2.isOk = true ↔ op.Allowed t := by
  have hstep : (step t op).2.isOk = (op.run t).isOk := by
    unfold step
    split
    · next h => rw [h]; rfl
    · next h => rw [h]; rfl
  rw [hstep]
  cases op with
  | insert index value => exact insert_isOk
  | update index value => exact insert_isOk
  | grow =>
      show t.grow.isOk = true ↔ t.size ≤ intMax / 2
      unfold grow
      split
      · next h => exact iff_of_false (fun h' => by cases h') (by omega)
      · next h => exact iff_of_true rfl (by omega)

/-- A call that throws changes nothing. -/
theorem step_rejected {t : SegmentTree T} {op : Op T}
    (h : (step t op).2.isOk = false) : (step t op).1 = t := by
  unfold step at h ⊢
  split
  · next hok => rw [hok] at h; cases h
  · rfl

theorem insert_ok {t t' : SegmentTree T} {a : Int → T} {index : Int}
    {value : T} (ha : Represents t a) (h : t.insert index value = .ok t') :
    Represents t' (Function.update a index value) ∧ t'.size = t.size ∧
      t'.identity = t.identity ∧ t'.combine = t.combine := by
  unfold SegmentTree.insert at h
  split at h
  · cases h
  · next hin =>
      cases h
      refine ⟨⟨ha.size, ?_, ?_⟩, rfl, rfl, rfl⟩
      · exact ha.root.insert_ _ (by omega) (by omega)
      · intro i hi
        have hi : t.size ≤ i := hi
        rw [Function.update_of_ne (by omega)]
        exact ha.beyond i hi

/-- The old root's interval is the left half of the new root's. -/
theorem midpoint_grow (n : Int) : midpoint 0 (n * 2 - 1) = n - 1 := by
  unfold midpoint
  omega

theorem grow_ok {t t' : SegmentTree T} {a : Int → T} (ha : Represents t a)
    (h : t.grow = .ok t') : Represents t' a ∧ t'.size = t.size * 2 ∧
      t'.identity = t.identity ∧ t'.combine = t.combine := by
  have hsize := ha.size
  unfold grow at h
  split at h
  · cases h
  · cases h
    refine ⟨⟨?_, ?_, ?_⟩, rfl, rfl, rfl⟩
    · show 1 ≤ t.size * 2
      omega
    · refine .inner ?_ ?_ (.null ?_)
      · show 0 < t.size * 2 - 1
        omega
      · show Holds _ _ _ _ 0 (midpoint 0 (t.size * 2 - 1))
        rw [midpoint_grow]
        exact ha.root
      · intro i hi _
        have hi : midpoint 0 (t.size * 2 - 1) + 1 ≤ i := hi
        rw [midpoint_grow] at hi
        exact ha.beyond i (by omega)
    · intro i hi
      have hi : t.size * 2 ≤ i := hi
      exact ha.beyond i (by omega)

/-- What a call that returns does to the array and to the size. -/
theorem step_ok {t : SegmentTree T} {a : Int → T} (ha : Represents t a)
    {op : Op T} (h : (step t op).2.isOk = true) :
    Represents (step t op).1 (op.write a) ∧
      (step t op).1.size = (if op.isGrow then t.size * 2 else t.size) ∧
      (step t op).1.identity = t.identity ∧
      (step t op).1.combine = t.combine := by
  unfold step at h ⊢
  split
  · next t' hrun =>
      cases op with
      | insert index value => exact insert_ok ha hrun
      | update index value => exact insert_ok ha hrun
      | grow => exact grow_ok ha hrun
  · next e hrun =>
      rw [hrun] at h
      cases h

/-! ## Every run -/

/-- The calls of a run that returned. -/
def accepted : SegmentTree T → List (Op T) → List (Op T)
  | _, [] => []
  | t, op :: ops =>
      if (step t op).2.isOk then op :: accepted (step t op).1 ops
      else accepted (step t op).1 ops

/-- The value a call inserts at a position. -/
def Op.valueAt (i : Int) : Op T → Option T
  | .insert index value => if index = i then some value else none
  | .update index value => if index = i then some value else none
  | .grow => none

/-- The last value some calls inserted at `i`, or `d` if none did. -/
def lastInserted (d : T) (i : Int) (ops : List (Op T)) : T :=
  (ops.filterMap (Op.valueAt i)).getLastD d

/-- How many calls were `grow`. -/
def grows (ops : List (Op T)) : Nat := ops.countP Op.isGrow

theorem lastInserted_cons (a : Int → T) (i : Int) (op : Op T)
    (ops : List (Op T)) :
    lastInserted (a i) i (op :: ops) = lastInserted (op.write a i) i ops := by
  unfold lastInserted
  cases hv : op.valueAt i with
  | none =>
      rw [List.filterMap_cons_none hv]
      cases op with
      | grow => rfl
      | insert index value =>
          have hi : index ≠ i := by
            intro h
            simp [Op.valueAt, h] at hv
          rw [Op.write, Function.update_of_ne (Ne.symm hi)]
      | update index value =>
          have hi : index ≠ i := by
            intro h
            simp [Op.valueAt, h] at hv
          rw [Op.write, Function.update_of_ne (Ne.symm hi)]
  | some v =>
      rw [List.filterMap_cons_some hv, List.getLastD_cons]
      cases op with
      | grow => cases hv
      | insert index value =>
          rw [Op.valueAt, Option.ite_none_right_eq_some] at hv
          obtain ⟨rfl, hv⟩ := hv
          rw [Op.write, Function.update_self, Option.some.inj hv]
      | update index value =>
          rw [Op.valueAt, Option.ite_none_right_eq_some] at hv
          obtain ⟨rfl, hv⟩ := hv
          rw [Op.write, Function.update_self, Option.some.inj hv]

theorem run_represents (ops : List (Op T)) : ∀ {t : SegmentTree T}
    {a : Int → T}, Represents t a →
    Represents (runState step t ops)
        (fun i => lastInserted (a i) i (accepted t ops)) ∧
      (runState step t ops).size = t.size * 2 ^ grows (accepted t ops) ∧
      (runState step t ops).identity = t.identity ∧
      (runState step t ops).combine = t.combine := by
  induction ops with
  | nil =>
      intro t a ha
      refine ⟨ha, ?_, rfl, rfl⟩
      show t.size = t.size * 2 ^ 0
      omega
  | cons op ops ih =>
      intro t a ha
      rw [runState_cons, accepted]
      cases hok : (step t op).2.isOk with
      | false =>
          rw [step_rejected hok]
          exact ih ha
      | true =>
          obtain ⟨ha', hsize, hid, hcomb⟩ := step_ok ha hok
          obtain ⟨hrep, hsize', hid', hcomb'⟩ := ih ha'
          rw [if_pos rfl]
          refine ⟨?_, ?_, hid'.trans hid, hcomb'.trans hcomb⟩
          · simp only [lastInserted_cons]
            exact hrep
          · rw [hsize', hsize, grows, grows, List.countP_cons]
            cases op.isGrow with
            | true =>
                rw [if_pos rfl, if_pos rfl, pow_succ', mul_assoc]
            | false => simp

theorem make_represents {n : Int} (hn : 1 ≤ n) (identity : T)
    (combine : T → T → T) :
    Represents ⟨n, identity, combine, .null⟩ (fun _ => identity) where
  size := hn
  root := .null (fun _ _ _ => rfl)
  beyond := fun _ _ => rfl

/-- A query is the combination of the readings from `left` to `right`. -/
theorem Represents.query {t : SegmentTree T} {a : Int → T}
    (ha : Represents t a) (hlaws : MonoidLaws t.combine t.identity)
    {left right : Int} (hl : 0 ≤ left) (hlr : left ≤ right)
    (hr : right < t.size) : t.query left right =
      .ok (leftToRight t.combine t.identity ((span left right).map a)) := by
  rw [SegmentTree.query, if_neg (by omega),
    ha.root.query_ hlaws (by omega), filter_span hl (by omega) (by omega)]

/-- The check of `grow` keeps every size an `int`. -/
theorem run_size_le {t : SegmentTree T} (h : t.size ≤ intMax)
    (ops : List (Op T)) : (runState step t ops).size ≤ intMax := by
  refine runState_invariant (P := fun t : SegmentTree T => t.size ≤ intMax)
    (A := fun _ => True) ?_ h (fun _ _ => trivial)
  intro t op ht _
  cases hok : (step t op).2.isOk with
  | false => rw [step_rejected hok]; exact ht
  | true =>
      unfold step at hok ⊢
      split
      · next t' hrun =>
          cases op with
          | grow =>
              rw [Op.run, grow] at hrun
              split at hrun
              · cases hrun
              · cases hrun
                show t.size * 2 ≤ intMax
                unfold intMax at *
                omega
          | insert index value =>
              rw [Op.run, SegmentTree.insert] at hrun
              split at hrun
              · cases hrun
              · cases hrun
                exact ht
          | update index value =>
              rw [Op.run, SegmentTree.update, SegmentTree.insert] at hrun
              split at hrun
              · cases hrun
              · cases hrun
                exact ht
      · exact ht

/-- Whatever was inserted and however the tree grew, its size is the initial
one doubled as often as it grew, and a query combines, in order, the last value
inserted at each position of its interval. -/
theorem query_run {identity : T} {combine : T → T → T}
    (hlaws : MonoidLaws combine identity) {n : Int} (hn : 1 ≤ n)
    (ops : List (Op T)) : ∃ t₀, make n identity combine = .ok t₀ ∧
      (runState step t₀ ops).size = n * 2 ^ grows (accepted t₀ ops) ∧
      ∀ left right, 0 ≤ left → left ≤ right →
        right < (runState step t₀ ops).size →
        (runState step t₀ ops).query left right =
          .ok (leftToRight combine identity ((span left right).map
            (fun i => lastInserted identity i (accepted t₀ ops)))) := by
  refine ⟨⟨n, identity, combine, .null⟩, if_neg (by omega), ?_⟩
  obtain ⟨hrep, hsize, hid, hcomb⟩ :=
    run_represents ops (make_represents hn identity combine)
  refine ⟨hsize, ?_⟩
  intro left right hl hlr hr
  have hquery := hrep.query (by rw [hid, hcomb]; exact hlaws) hl hlr hr
  rw [hquery, hid, hcomb]

/-- Strings under concatenation, on three positions grown to six. -/
theorem query_run_grown : ∃ t₀, make 3 "" (· ++ ·) = .ok t₀ ∧
    (runState step t₀
      [.insert 2 "b", .insert 0 "a", .grow, .insert 7 "z",
        .update 5 "c"]).query 0 5 = .ok "abc" := by
  have hlaws : MonoidLaws (· ++ ·) "" :=
    ⟨fun _ _ _ => String.append_assoc, fun _ => String.empty_append,
      fun _ => String.append_empty⟩
  obtain ⟨t₀, hmake, hsize, hquery⟩ := query_run hlaws
    (by decide : (1 : Int) ≤ 3) [.insert 2 "b", .insert 0 "a", .grow,
      .insert 7 "z", .update 5 "c"]
  cases hmake
  exact ⟨_, rfl, hquery 0 5 (by decide) (by decide) (by rw [hsize]; decide)⟩

end LearningCpp.SegmentTree
