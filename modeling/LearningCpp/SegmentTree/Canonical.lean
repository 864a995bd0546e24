import LearningCpp.SegmentTree.Readings

/-!
# The tree is a canonical form of its history

Which nodes there are, and what each holds, is settled by two things: the last
value inserted at each position, and how often the tree grew. A node of the
part the tree was made with exists when some position below it was written. The
nodes `grow` put on top exist always, one for each call, on the way from the
root to the first position.

No law of the operation is used: an inner node holds the operation applied to
what its children hold, in every tree a run can reach, and that already leaves
one tree.
-/

namespace LearningCpp.SegmentTree

open LearningCpp.Lib

variable {T : Type*}

/-- Some position of the interval was written. -/
def Written (w : Int → Option T) (low high : Int) : Prop :=
  ∃ i, low ≤ i ∧ i ≤ high ∧ (w i).isSome = true

/-- `Canonical identity combine w depth node low high`: `node` is the node of
the interval after the values `w` were written, `depth` of the nodes on its
left edge having been put there by `grow`. -/
inductive Canonical (identity : T) (combine : T → T → T)
    (w : Int → Option T) : Nat → NodePtr T → Int → Int → Prop where
  | null {low high : Int} (h : ¬ Written w low high) :
      Canonical identity combine w 0 .null low high
  | leaf {i : Int} {v : T} (h : w i = some v) :
      Canonical identity combine w 0 (.node v .null .null) i i
  | inner {depth : Nat} {low high : Int} {left right : NodePtr T}
      (hlt : low < high) (hmade : 0 < depth ∨ Written w low high)
      (hleft : Canonical identity combine w (depth - 1) left low
        (midpoint low high))
      (hright : Canonical identity combine w 0 right (midpoint low high + 1)
        high) :
      Canonical identity combine w depth
        (.node (combine (left.valueOf identity) (right.valueOf identity))
          left right) low high

section Canonical

variable {identity : T} {combine : T → T → T} {w w' : Int → Option T}
  {depth : Nat} {node node' : NodePtr T} {low high : Int}

theorem Written.congr (h : Written w low high)
    (hw : ∀ i, low ≤ i → i ≤ high → w' i = w i) : Written w' low high := by
  obtain ⟨i, hl, hh, hi⟩ := h
  refine ⟨i, hl, hh, ?_⟩
  rw [hw i hl hh]
  exact hi

theorem written_update {index : Int} {value : T} (hl : low ≤ index)
    (hh : index ≤ high) :
    Written (Function.update w index (some value)) low high := by
  refine ⟨index, hl, hh, ?_⟩
  rw [Function.update_self]
  rfl

/-- There is one such node. -/
theorem Canonical.unique (h : Canonical identity combine w depth node low high)
    (h' : Canonical identity combine w depth node' low high) :
    node = node' := by
  induction h generalizing node' with
  | null hnone =>
      cases h' with
      | null _ => rfl
      | leaf hv =>
          refine absurd ⟨_, Int.le_refl _, Int.le_refl _, ?_⟩ hnone
          rw [hv]
          rfl
      | inner _ hmade _ _ =>
          rcases hmade with hmade | hmade
          · omega
          · exact absurd hmade hnone
  | leaf hv =>
      cases h' with
      | null hnone =>
          refine absurd ⟨_, Int.le_refl _, Int.le_refl _, ?_⟩ hnone
          rw [hv]
          rfl
      | leaf hv' =>
          rw [hv] at hv'
          cases hv'
          rfl
      | inner hlt _ _ _ => omega
  | inner hlt hmade _ _ ihl ihr =>
      cases h' with
      | null hnone =>
          rcases hmade with hmade | hmade
          · omega
          · exact absurd hmade hnone
      | leaf _ => omega
      | inner _ _ hleft' hright' => rw [ihl hleft', ihr hright']

theorem Canonical.congr (h : Canonical identity combine w depth node low high)
    (hw : ∀ i, low ≤ i → i ≤ high → w' i = w i) :
    Canonical identity combine w' depth node low high := by
  induction h with
  | null hnone =>
      refine .null ?_
      intro hwritten
      exact hnone (hwritten.congr (fun i hl hh => (hw i hl hh).symm))
  | leaf hv =>
      refine .leaf ?_
      rw [hw _ (Int.le_refl _) (Int.le_refl _)]
      exact hv
  | inner hlt hmade _ _ ihl ihr =>
      have hmid := midpoint_bounds hlt
      refine .inner hlt (hmade.imp_right (·.congr hw)) (ihl ?_) (ihr ?_)
      · intro i hl hh
        exact hw i hl (by omega)
      · intro i hl hh
        exact hw i (by omega) hh

/-- The children `insert_` goes on with, made or found. -/
theorem Canonical.children
    (h : Canonical identity combine w depth node low high) (hlt : low < high)
    {val : T} {left right : NodePtr T}
    (hmake : node.orMake identity = (val, left, right)) :
    Canonical identity combine w (depth - 1) left low (midpoint low high) ∧
      Canonical identity combine w 0 right (midpoint low high + 1) high := by
  have hmid := midpoint_bounds hlt
  cases h with
  | null hnone =>
      cases hmake
      refine ⟨.null ?_, .null ?_⟩
      · rintro ⟨i, hl, hh, hi⟩
        exact hnone ⟨i, hl, by omega, hi⟩
      · rintro ⟨i, hl, hh, hi⟩
        exact hnone ⟨i, by omega, hh, hi⟩
  | leaf _ => omega
  | inner _ _ hleft hright =>
      cases hmake
      exact ⟨hleft, hright⟩

theorem Canonical.leaf_children {i : Int}
    (h : Canonical identity combine w depth node i i) {val : T}
    {left right : NodePtr T}
    (hmake : node.orMake identity = (val, left, right)) :
    depth = 0 ∧ left = .null ∧ right = .null := by
  cases h with
  | null _ => cases hmake; exact ⟨rfl, rfl, rfl⟩
  | leaf _ => cases hmake; exact ⟨rfl, rfl, rfl⟩
  | inner hlt _ _ _ => omega

/-- `insert_` keeps the form, whatever it passes through. -/
theorem Canonical.insert_ {index : Int} {value : T} :
    ∀ {depth : Nat} {node : NodePtr T} {low high : Int} (hle : low ≤ high),
      Canonical identity combine w depth node low high → low ≤ index →
      index ≤ high →
      Canonical identity combine (Function.update w index (some value)) depth
        (node.insert_ identity combine low high hle index value) low high := by
  intro depth node low high hle
  -- As for `Holds`, along the recursion of `insert_`.
  induction hn : (high - low).toNat using Nat.strong_induction_on
    generalizing depth node low high with
  | _ n ih =>
      intro h hlow hhigh
      rw [NodePtr.insert_]
      rcases hmake : node.orMake identity with ⟨val, left, right⟩
      simp only []
      split
      · next heq =>
          subst heq
          obtain ⟨rfl, rfl, rfl⟩ := h.leaf_children hmake
          obtain rfl : index = low := by omega
          exact .leaf (Function.update_self _ _ _)
      · next hne =>
          have hlt : low < high := by omega
          have hmid := midpoint_bounds hlt
          obtain ⟨hleft, hright⟩ := h.children hlt hmake
          have hmade : Written (Function.update w index (some value))
              low high := written_update hlow hhigh
          split
          · next hi =>
              refine .inner hlt (.inr hmade) ?_ (hright.congr ?_)
              · exact ih _ (by omega) hmid.1 rfl hleft hlow hi
              · intro i hl _
                exact Function.update_of_ne (by omega) _ _
          · next hi =>
              refine .inner hlt (.inr hmade) (hleft.congr ?_) ?_
              · intro i _ hh
                exact Function.update_of_ne (by omega) _ _
              · exact ih _ (by omega) (by omega) rfl hright (by omega)
                  hhigh

end Canonical

/-! ## The calls -/

/-- What a call that returns makes of the values written. -/
def Op.record (w : Int → Option T) : Op T → Int → Option T
  | .insert index value => Function.update w index (some value)
  | .update index value => Function.update w index (some value)
  | .grow => w

/-- `t` is what is left of a history that wrote `w` and grew `depth` times. -/
structure Remains (t : SegmentTree T) (depth : Nat) (w : Int → Option T) :
    Prop where
  size : 1 ≤ t.size
  root : Canonical t.identity t.combine w depth t.root 0 (t.size - 1)
  beyond : ∀ i, t.size ≤ i → w i = none

theorem Remains.root_unique {t t' : SegmentTree T} {depth : Nat}
    {w : Int → Option T} (h : Remains t depth w) (h' : Remains t' depth w)
    (hsize : t'.size = t.size) (hid : t'.identity = t.identity)
    (hcomb : t'.combine = t.combine) : t' = t := by
  obtain ⟨size, identity, combine, root⟩ := t
  obtain ⟨size', identity', combine', root'⟩ := t'
  cases hsize
  cases hid
  cases hcomb
  have hroot : root = root' := h.root.unique h'.root
  rw [hroot]

theorem Remains.insert_ok {t t' : SegmentTree T} {depth : Nat}
    {w : Int → Option T} {index : Int} {value : T} (h : Remains t depth w)
    (hrun : t.insert index value = .ok t') :
    Remains t' depth (Function.update w index (some value)) ∧
      t'.size = t.size ∧ t'.identity = t.identity ∧
      t'.combine = t.combine := by
  unfold SegmentTree.insert at hrun
  split at hrun
  · cases hrun
  · next hin =>
      cases hrun
      refine ⟨⟨h.size, ?_, ?_⟩, rfl, rfl, rfl⟩
      · exact h.root.insert_ _ (by omega) (by omega)
      · intro i hi
        have hi : t.size ≤ i := hi
        rw [Function.update_of_ne (by omega)]
        exact h.beyond i hi

theorem Remains.grow_ok {t t' : SegmentTree T} {depth : Nat}
    {w : Int → Option T} (h : Remains t depth w) (hrun : t.grow = .ok t') :
    Remains t' (depth + 1) w ∧ t'.size = t.size * 2 ∧
      t'.identity = t.identity ∧ t'.combine = t.combine := by
  have hsize := h.size
  unfold grow at hrun
  split at hrun
  · cases hrun
  · cases hrun
    refine ⟨⟨?_, ?_, ?_⟩, rfl, rfl, rfl⟩
    · show 1 ≤ t.size * 2
      omega
    · refine .inner ?_ (.inl (by omega)) ?_ (.null ?_)
      · show 0 < t.size * 2 - 1
        omega
      · show Canonical _ _ _ depth _ 0 (midpoint 0 (t.size * 2 - 1))
        rw [midpoint_grow]
        exact h.root
      · rintro ⟨i, hi, _, hsome⟩
        have hi : midpoint 0 (t.size * 2 - 1) + 1 ≤ i := hi
        rw [midpoint_grow] at hi
        rw [h.beyond i (by omega)] at hsome
        cases hsome
    · intro i hi
      have hi : t.size * 2 ≤ i := hi
      exact h.beyond i (by omega)

theorem Remains.step_ok {t : SegmentTree T} {depth : Nat}
    {w : Int → Option T} (h : Remains t depth w) {op : Op T}
    (hok : (step t op).2.isOk = true) :
    Remains (step t op).1 (if op.isGrow then depth + 1 else depth)
        (op.record w) ∧
      (step t op).1.size = (if op.isGrow then t.size * 2 else t.size) ∧
      (step t op).1.identity = t.identity ∧
      (step t op).1.combine = t.combine := by
  unfold step at hok ⊢
  split
  · next t' hrun =>
      cases op with
      | insert index value => exact h.insert_ok hrun
      | update index value => exact h.insert_ok hrun
      | grow => exact h.grow_ok hrun
  · next e hrun =>
      rw [hrun] at hok
      cases hok

/-! ## Every run -/

/-- The value some calls left at `i`, if they wrote there. -/
def lastWritten (i : Int) (ops : List (Op T)) : Option T :=
  (ops.filterMap (Op.valueAt i)).getLast?

theorem lastWritten_cons (w : Int → Option T) (i : Int) (op : Op T)
    (ops : List (Op T)) :
    (lastWritten i (op :: ops)).or (w i) =
      (lastWritten i ops).or (op.record w i) := by
  have hwrite : op.record w i = (op.valueAt i).or (w i) := by
    cases op with
    | grow => rfl
    | insert index value =>
        rw [Op.record, Op.valueAt, Function.update_apply]
        split_ifs <;> first | rfl | omega
    | update index value =>
        rw [Op.record, Op.valueAt, Function.update_apply]
        split_ifs <;> first | rfl | omega
  rw [hwrite, lastWritten, lastWritten]
  cases hv : op.valueAt i with
  | none => rw [List.filterMap_cons_none hv, Option.none_or]
  | some v =>
      rw [List.filterMap_cons_some hv, List.getLast?_cons]
      cases (ops.filterMap (Op.valueAt i)).getLast? with
      | none => rfl
      | some v' => rfl

/-- A run of calls that return leaves what it wrote last, and one node on the
left edge for each `grow`. -/
theorem Remains.run (ops : List (Op T)) : ∀ {t : SegmentTree T} {depth : Nat}
    {w : Int → Option T}, Remains t depth w →
    (∀ o ∈ runOut step t ops, o.isOk = true) →
    Remains (runState step t ops) (depth + grows ops)
        (fun i => (lastWritten i ops).or (w i)) ∧
      (runState step t ops).size = t.size * 2 ^ grows ops ∧
      (runState step t ops).identity = t.identity ∧
      (runState step t ops).combine = t.combine := by
  induction ops with
  | nil =>
      intro t depth w h _
      refine ⟨h, ?_, rfl, rfl⟩
      show t.size = t.size * 2 ^ 0
      omega
  | cons op ops ih =>
      intro t depth w h hok
      rw [runOut_cons, List.forall_mem_cons] at hok
      obtain ⟨h', hsize, hid, hcomb⟩ := h.step_ok hok.1
      obtain ⟨hrem, hsize', hid', hcomb'⟩ := ih h' hok.2
      have hgrows : grows (op :: ops) =
          grows ops + if op.isGrow then 1 else 0 := List.countP_cons
      rw [runState_cons, hgrows]
      refine ⟨?_, ?_, hid'.trans hid, hcomb'.trans hcomb⟩
      · have hdepth : (if op.isGrow then depth + 1 else depth) + grows ops =
            depth + (grows ops + if op.isGrow then 1 else 0) := by
          split <;> omega
        simp only [lastWritten_cons, ← hdepth]
        exact hrem
      · rw [hsize', hsize]
        cases op.isGrow with
        | true => rw [if_pos rfl, if_pos rfl, pow_succ', mul_assoc]
        | false => rfl

theorem make_remains {n : Int} (hn : 1 ≤ n) (identity : T)
    (combine : T → T → T) :
    Remains ⟨n, identity, combine, .null⟩ 0 (fun _ => none) where
  size := hn
  root := by
    refine .null ?_
    rintro ⟨i, _, _, hi⟩
    cases hi
  beyond := fun _ _ => rfl

/-! ## Two orders of two calls -/

section Orders

variable {t : SegmentTree T} {depth : Nat} {w : Int → Option T}

/-- A call that returns, on a tree of a history. -/
theorem insert_eq_ok {index : Int} (h : 0 ≤ index ∧ index < t.size)
    (value : T) : ∃ t', t.insert index value = .ok t' := by
  rw [SegmentTree.insert, dif_neg (by omega)]
  exact ⟨_, rfl⟩

theorem insert_eq_error {index : Int} (h : ¬ (0 ≤ index ∧ index < t.size))
    (value : T) :
    t.insert index value = .error (.outOfRange "Invalid index") := by
  rw [SegmentTree.insert, dif_pos (by omega)]

/-- Inserts at different positions commute, also when one of them throws. -/
theorem Remains.insert_comm (h : Remains t depth w) {i j : Int} (hij : i ≠ j)
    (v v' : T) : (t.insert i v).bind (·.insert j v') =
      (t.insert j v').bind (·.insert i v) := by
  by_cases hi : 0 ≤ i ∧ i < t.size
  · obtain ⟨ti, hti⟩ := insert_eq_ok hi v
    obtain ⟨hi₁, hsi, hidi, hci⟩ := h.insert_ok hti
    rw [hti, Except.bind]
    by_cases hj : 0 ≤ j ∧ j < t.size
    · obtain ⟨tj, htj⟩ := insert_eq_ok hj v'
      obtain ⟨hj₁, hsj, hidj, hcj⟩ := h.insert_ok htj
      obtain ⟨tij, htij⟩ := insert_eq_ok (t := ti) (hsi ▸ hj) v'
      obtain ⟨tji, htji⟩ := insert_eq_ok (t := tj) (hsj ▸ hi) v
      obtain ⟨hij₁, hsij, hidij, hcij⟩ := hi₁.insert_ok htij
      obtain ⟨hji₁, hsji, hidji, hcji⟩ := hj₁.insert_ok htji
      rw [Function.update_comm hij] at hij₁
      rw [htj, Except.bind, htij, htji]
      refine congrArg Except.ok (hji₁.root_unique hij₁ ?_ ?_ ?_)
      · rw [hsij, hsi, hsji, hsj]
      · rw [hidij, hidi, hidji, hidj]
      · rw [hcij, hci, hcji, hcj]
    · rw [insert_eq_error hj, Except.bind, insert_eq_error (hsi ▸ hj)]
  · rw [insert_eq_error hi, Except.bind]
    by_cases hj : 0 ≤ j ∧ j < t.size
    · obtain ⟨tj, htj⟩ := insert_eq_ok hj v'
      obtain ⟨_, hsj, _, _⟩ := h.insert_ok htj
      rw [htj, Except.bind, insert_eq_error (hsj ▸ hi)]
    · rw [insert_eq_error hj, Except.bind]

/-- The later of two inserts at a position leaves no trace of the earlier. -/
theorem Remains.insert_insert (h : Remains t depth w) (i : Int) (v v' : T) :
    (t.insert i v).bind (·.insert i v') = t.insert i v' := by
  by_cases hi : 0 ≤ i ∧ i < t.size
  · obtain ⟨t₁, ht₁⟩ := insert_eq_ok hi v
    obtain ⟨t₂, ht₂⟩ := insert_eq_ok hi v'
    obtain ⟨h₁, hs₁, hid₁, hc₁⟩ := h.insert_ok ht₁
    obtain ⟨h₂, hs₂, hid₂, hc₂⟩ := h.insert_ok ht₂
    obtain ⟨t₃, ht₃⟩ := insert_eq_ok (t := t₁) (hs₁ ▸ hi) v'
    obtain ⟨h₃, hs₃, hid₃, hc₃⟩ := h₁.insert_ok ht₃
    rw [Function.update_idem] at h₃
    rw [ht₁, Except.bind, ht₂, ht₃]
    refine congrArg Except.ok (h₂.root_unique h₃ ?_ ?_ ?_)
    · rw [hs₃, hs₁, hs₂]
    · rw [hid₃, hid₁, hid₂]
    · rw [hc₃, hc₁, hc₂]
  · rw [insert_eq_error hi, insert_eq_error hi, Except.bind]

theorem grow_eq_ok (h : t.size ≤ intMax / 2) : ∃ t', t.grow = .ok t' := by
  rw [grow, if_neg (by omega)]
  exact ⟨_, rfl⟩

theorem grow_eq_error (h : ¬ t.size ≤ intMax / 2) :
    t.grow = .error (.lengthError "Tree capacity is too large") := by
  rw [grow, if_pos (by omega)]

/-- An insert at a position there is already commutes with `grow`. -/
theorem Remains.insert_grow (h : Remains t depth w) {i : Int} (hi : 0 ≤ i)
    (hsize : i < t.size) (v : T) :
    (t.insert i v).bind (·.grow) = t.grow.bind (·.insert i v) := by
  obtain ⟨ti, hti⟩ := insert_eq_ok ⟨hi, hsize⟩ v
  obtain ⟨hi₁, hsi, hidi, hci⟩ := h.insert_ok hti
  rw [hti, Except.bind]
  by_cases hg : t.size ≤ intMax / 2
  · obtain ⟨tg, htg⟩ := grow_eq_ok hg
    obtain ⟨hg₁, hsg, hidg, hcg⟩ := h.grow_ok htg
    obtain ⟨tig, htig⟩ := grow_eq_ok (t := ti) (hsi ▸ hg)
    obtain ⟨tgi, htgi⟩ := insert_eq_ok (t := tg) ⟨hi, by omega⟩ v
    obtain ⟨hig₁, hsig, hidig, hcig⟩ := hi₁.grow_ok htig
    obtain ⟨hgi₁, hsgi, hidgi, hcgi⟩ := hg₁.insert_ok htgi
    rw [htg, Except.bind, htig, htgi]
    refine congrArg Except.ok (hgi₁.root_unique hig₁ ?_ ?_ ?_)
    · rw [hsig, hsi, hsgi, hsg]
    · rw [hidig, hidi, hidgi, hidg]
    · rw [hcig, hci, hcgi, hcg]
  · rw [grow_eq_error hg, Except.bind, grow_eq_error (hsi ▸ hg)]

end Orders

/-- Two runs of calls that all return, with equally many `grow` calls and the
same last values at the same positions, leave one and the same tree, whatever
the operation and the identity are. On the tree of such a run, inserts at
different positions commute, a later insert overwrites an earlier one, and an
insert commutes with `grow`. -/
theorem runs_same_tree {n : Int} {identity : T} {combine : T → T → T}
    {t₀ : SegmentTree T} (hmake : make n identity combine = .ok t₀)
    {ops ops' : List (Op T)}
    (hok : ∀ o ∈ runOut step t₀ ops, o.isOk = true)
    (hok' : ∀ o ∈ runOut step t₀ ops', o.isOk = true)
    (hgrows : grows ops = grows ops')
    (hlast : ∀ i, lastWritten i ops = lastWritten i ops') :
    runState step t₀ ops = runState step t₀ ops' ∧
      (∀ i j v v', i ≠ j →
        ((runState step t₀ ops).insert i v).bind (·.insert j v') =
          ((runState step t₀ ops).insert j v').bind (·.insert i v)) ∧
      (∀ i v v',
        ((runState step t₀ ops).insert i v).bind (·.insert i v') =
          (runState step t₀ ops).insert i v') ∧
      (∀ i v, 0 ≤ i → i < (runState step t₀ ops).size →
        ((runState step t₀ ops).insert i v).bind (·.grow) =
          (runState step t₀ ops).grow.bind (·.insert i v)) := by
  have hn : 1 ≤ n := by
    by_contra hn
    rw [make, if_pos (by omega)] at hmake
    cases hmake
  rw [make, if_neg (by omega)] at hmake
  cases hmake
  have h₀ := make_remains hn identity combine
  obtain ⟨h, hsize, hid, hcomb⟩ := h₀.run ops hok
  obtain ⟨h', hsize', hid', hcomb'⟩ := h₀.run ops' hok'
  refine ⟨?_, ?_, ?_, ?_⟩
  · simp only [← hgrows, ← hlast] at h'
    refine h'.root_unique h ?_ ?_ ?_
    · rw [hsize, hsize', hgrows]
    · rw [hid, hid']
    · rw [hcomb, hcomb']
  · intro i j v v' hij
    exact h.insert_comm hij v v'
  · intro i v v'
    exact h.insert_insert i v v'
  · intro i v hi hlt
    exact h.insert_grow hi hlt v

/-- Subtraction, which has no law at all, on three positions: what was written
before the tree grew may as well be written after. -/
theorem runs_same_tree_sub :
    runState step (⟨3, 0, (· - ·), .null⟩ : SegmentTree Int)
        [.insert 2 5, .insert 0 1, .grow, .update 2 7, .insert 4 9] =
      runState step ⟨3, 0, (· - ·), .null⟩
        [.grow, .insert 4 9, .insert 2 7, .insert 0 1] := by
  have hmake : make 3 (0 : Int) (· - ·) = .ok ⟨3, 0, (· - ·), .null⟩ := rfl
  refine (runs_same_tree hmake ?_ ?_ ?_ ?_).1
  · decide
  · decide
  · rfl
  · intro i
    by_cases h₀ : 0 = i
    · subst h₀
      rfl
    · by_cases h₂ : 2 = i
      · subst h₂
        rfl
      · simp [lastWritten, List.filterMap, Op.valueAt, h₀, h₂]

end LearningCpp.SegmentTree
