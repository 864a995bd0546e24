import Mathlib

/-!
# Paths in a binary tree

A node is the list of turns that lead to it from the root, and a path a list of
different nodes of which each is the parent or a child of the next. A path that
comes to the root never comes back, so it is at most two paths that go down
from the children of the root, joined there; a path that does not come to the
root stays in one of the two subtrees. The two equations for the sums along
paths say so.
-/

namespace LearningCpp.Lib

variable {α : Type*}

/-- The value at a node; `false` turns left. -/
def valueAt : BinaryTree α → List Bool → Option α
  | .nil, _ => none
  | .node a _ _, [] => some a
  | .node _ l _, false :: p => valueAt l p
  | .node _ _ r, true :: p => valueAt r p

/-- One of the two nodes is the parent of the other. -/
def Adjacent (p q : List Bool) : Prop := ∃ d, q = p ++ [d] ∨ p = q ++ [d]

/-- A simple path with at least one node. -/
structure IsPath (t : BinaryTree α) (path : List (List Bool)) : Prop where
  nonempty : path ≠ []
  nodes : ∀ p ∈ path, (valueAt t p).isSome
  nodup : path.Nodup
  chain : path.IsChain Adjacent

/-- The sum of the values along a path. -/
def pathSum [AddMonoid α] (t : BinaryTree α) (path : List (List Bool)) : α :=
  (path.filterMap (valueAt t)).sum

/-- The sums along the paths. -/
def PathSums [AddMonoid α] (t : BinaryTree α) : Set α :=
  {x | ∃ path, IsPath t path ∧ pathSum t path = x}

/-- The sums along the paths that start at the root. -/
def DownSums [AddMonoid α] (t : BinaryTree α) : Set α :=
  {x | ∃ path, IsPath t ([] :: path) ∧ pathSum t ([] :: path) = x}

/-- The subtree on one side. -/
def child (l r : BinaryTree α) : Bool → BinaryTree α
  | false => l
  | true => r

variable {t l r : BinaryTree α} {a : α} {d e : Bool} {p q : List Bool}
  {path before after : List (List Bool)}

@[simp] theorem valueAt_cons :
    valueAt (.node a l r) (d :: p) = valueAt (child l r d) p := by
  cases d <;> rfl

theorem Adjacent.symm (h : Adjacent p q) : Adjacent q p := by
  obtain ⟨d, h | h⟩ := h
  · exact ⟨d, .inr h⟩
  · exact ⟨d, .inl h⟩

theorem adjacent_cons : Adjacent (d :: p) (e :: q) ↔ d = e ∧ Adjacent p q := by
  constructor
  · intro h
    obtain ⟨b, h | h⟩ := h
    · cases h
      exact ⟨rfl, b, .inl rfl⟩
    · cases h
      exact ⟨rfl, b, .inr rfl⟩
  · intro h
    obtain ⟨rfl, b, h | h⟩ := h
    · exact ⟨b, .inl (by rw [h]; rfl)⟩
    · exact ⟨b, .inr (by rw [h]; rfl)⟩

theorem adjacent_nil : Adjacent [] q ↔ ∃ d, q = [d] := by
  constructor
  · intro h
    obtain ⟨b, h | h⟩ := h
    · exact ⟨b, h⟩
    · cases q <;> cases h
  · intro h
    obtain ⟨d, rfl⟩ := h
    exact ⟨d, .inl rfl⟩

/-! ## Parts of paths -/

theorem IsPath.reverse (h : IsPath t path) : IsPath t path.reverse where
  nonempty := fun hnil => h.nonempty (List.reverse_eq_nil_iff.1 hnil)
  nodes := fun p hp => h.nodes p (List.mem_reverse.1 hp)
  nodup := List.nodup_reverse.2 h.nodup
  chain := List.isChain_reverse.2 (h.chain.imp (fun _ _ => Adjacent.symm))

theorem IsPath.of_append_right (h : IsPath t (before ++ after))
    (hne : after ≠ []) : IsPath t after where
  nonempty := hne
  nodes := fun p hp => h.nodes p (List.mem_append_right _ hp)
  nodup := (List.nodup_append.1 h.nodup).2.1
  chain := (List.isChain_append.1 h.chain).2.1

theorem IsPath.of_append_left (h : IsPath t (before ++ after))
    (hne : before ≠ []) : IsPath t before := by
  have hreverse := h.reverse
  rw [List.reverse_append] at hreverse
  have hpart := hreverse.of_append_right
    (fun hnil => hne (List.reverse_eq_nil_iff.1 hnil))
  rw [← List.reverse_reverse before]
  exact hpart.reverse

/-- A path in a subtree. -/
theorem isPath_map_cons :
    IsPath (.node a l r) (path.map (d :: ·)) ↔ IsPath (child l r d) path := by
  constructor
  · intro h
    refine ⟨fun hnil => h.nonempty (by rw [hnil]; rfl), ?_,
      List.Nodup.of_map _ h.nodup, ?_⟩
    · intro p hp
      rw [← valueAt_cons]
      exact h.nodes _ (List.mem_map_of_mem hp)
    · exact ((List.isChain_map _).1 h.chain).imp
        (fun _ _ hpq => (adjacent_cons.1 hpq).2)
  · intro h
    refine ⟨fun hnil => h.nonempty (List.map_eq_nil_iff.1 hnil), ?_,
      h.nodup.map (fun _ _ heq => (List.cons.inj heq).2), ?_⟩
    · intro p hp
      obtain ⟨p', hp', heq⟩ := List.mem_map.1 hp
      rw [← heq, valueAt_cons]
      exact h.nodes p' hp'
    · exact (List.isChain_map _).2 (h.chain.imp
        (fun _ _ hpq => adjacent_cons.2 ⟨rfl, hpq⟩))

/-- Nodes other than the root, each next to the one before it, are all on one
side. -/
theorem exists_side (hne : path ≠ []) (hroot : [] ∉ path)
    (hchain : path.IsChain Adjacent) :
    ∃ (d : Bool) (path' : List (List Bool)), path = path'.map (d :: ·) := by
  induction path with
  | nil => exact absurd rfl hne
  | cons p path ih =>
      cases p with
      | nil => exact absurd List.mem_cons_self hroot
      | cons d p =>
          cases path with
          | nil => exact ⟨d, [p], rfl⟩
          | cons q path =>
              obtain ⟨hpq, hrest⟩ := List.isChain_cons_cons.1 hchain
              obtain ⟨e, path', heq⟩ := ih (List.cons_ne_nil _ _)
                (fun h => hroot (List.mem_cons_of_mem _ h)) hrest
              cases path' with
              | nil => cases heq
              | cons q' path' =>
                  rw [List.map_cons] at heq
                  have hq := (List.cons.inj heq).1
                  rw [hq] at hpq
                  refine ⟨d, p :: q' :: path', ?_⟩
                  rw [heq, (adjacent_cons.1 hpq).1]
                  rfl

/-- A path that starts at the root stays there or goes on in a subtree, from
its root. -/
theorem isPath_nil_cons : IsPath (.node a l r) ([] :: path) ↔
    path = [] ∨ ∃ (d : Bool) (path' : List (List Bool)),
      path = ([] :: path').map (d :: ·) ∧ IsPath (child l r d) ([] :: path') := by
  constructor
  · intro h
    by_cases hne : path = []
    · exact .inl hne
    · have hcons : IsPath (.node a l r) ([[]] ++ path) := h
      have hrest := hcons.of_append_right hne
      have hroot := (List.nodup_cons.1 h.nodup).1
      obtain ⟨d, path', heq⟩ := exists_side hne hroot hrest.chain
      subst heq
      cases path' with
      | nil => exact absurd rfl hne
      | cons p path' =>
          have hnext := (List.isChain_cons_cons.1 h.chain).1
          obtain ⟨_, hp⟩ := adjacent_nil.1 hnext
          cases hp
          exact .inr ⟨d, path', rfl, isPath_map_cons.1 hrest⟩
  · intro h
    rcases h with rfl | ⟨d, path', rfl, h⟩
    · exact ⟨List.cons_ne_nil _ _, by simp [valueAt], by simp, by simp⟩
    · have hrest := isPath_map_cons (a := a).2 h
      refine ⟨List.cons_ne_nil _ _, ?_, ?_, ?_⟩
      · intro p hp
        rcases List.mem_cons.1 hp with rfl | hp
        · rfl
        · exact hrest.nodes p hp
      · refine List.nodup_cons.2 ⟨?_, hrest.nodup⟩
        intro hmem
        obtain ⟨_, _, heq⟩ := List.mem_map.1 hmem
        cases heq
      · exact List.isChain_cons_cons.2 ⟨adjacent_nil.2 ⟨d, rfl⟩, hrest.chain⟩

/-- Two paths from the children of the root, joined there. -/
theorem IsPath.join {left right : List (List Bool)}
    (hl : IsPath l ([] :: left)) (hr : IsPath r ([] :: right)) :
    IsPath (.node a l r) ((([] :: left).map (false :: ·)).reverse ++
      [] :: ([] :: right).map (true :: ·)) := by
  have hleft := (isPath_nil_cons (a := a) (l := l) (r := r)).2
    (.inr ⟨false, left, rfl, hl⟩)
  have hright := (isPath_nil_cons (a := a) (l := l) (r := r)).2
    (.inr ⟨true, right, rfl, hr⟩)
  have hlast := hleft.reverse.chain
  rw [List.reverse_cons] at hlast
  refine ⟨by simp, ?_, ?_, ?_⟩
  · intro p hp
    rcases List.mem_append.1 hp with hp | hp
    · exact hleft.nodes p (List.mem_cons_of_mem _ (List.mem_reverse.1 hp))
    · exact hright.nodes p hp
  · refine List.nodup_append.2
      ⟨List.nodup_reverse.2 (List.nodup_cons.1 hleft.nodup).2, hright.nodup, ?_⟩
    intro p hp q hq heq
    obtain ⟨p', _, hp'⟩ := List.mem_map.1 (List.mem_reverse.1 hp)
    rcases List.mem_cons.1 hq with hq | hq
    · rw [← hp', hq] at heq
      cases heq
    · obtain ⟨q', _, hq'⟩ := List.mem_map.1 hq
      rw [← hp', ← hq'] at heq
      cases heq
  · rw [List.isChain_append] at hlast ⊢
    refine ⟨hlast.1, hright.chain, ?_⟩
    intro p hp q hq
    cases hq
    exact hlast.2.2 p hp [] rfl

/-! ## Sums -/

section AddCommMonoid

variable [AddCommMonoid α]

theorem pathSum_append :
    pathSum t (before ++ after) = pathSum t before + pathSum t after := by
  rw [pathSum, List.filterMap_append, List.sum_append]
  rfl

theorem pathSum_reverse (path : List (List Bool)) :
    pathSum t path.reverse = pathSum t path := by
  rw [pathSum, List.filterMap_reverse]
  exact List.sum_reverse _

theorem pathSum_map_cons :
    pathSum (.node a l r) (path.map (d :: ·)) = pathSum (child l r d) path := by
  rw [pathSum, List.filterMap_map]
  simp only [Function.comp_def, valueAt_cons]
  rfl

theorem pathSum_nil_cons :
    pathSum (.node a l r) ([] :: path) = a + pathSum (.node a l r) path :=
  List.sum_cons

theorem pathSums_nil : PathSums (.nil : BinaryTree α) = ∅ := by
  refine Set.eq_empty_of_forall_notMem ?_
  intro x hx
  obtain ⟨path, hpath, _⟩ := hx
  obtain ⟨p, hp⟩ := List.exists_mem_of_ne_nil _ hpath.nonempty
  exact absurd (hpath.nodes p hp) (by simp [valueAt])

theorem downSums_subset : DownSums t ⊆ PathSums t := by
  intro x hx
  obtain ⟨path, hpath, hsum⟩ := hx
  exact ⟨[] :: path, hpath, hsum⟩

theorem downSums_nil : DownSums (.nil : BinaryTree α) = ∅ := by
  refine Set.eq_empty_of_subset_empty ?_
  rw [← pathSums_nil]
  exact downSums_subset

/-- A path from the root: the root alone, or the root and a path from one of
its children. -/
theorem mem_downSums_node {x : α} : x ∈ DownSums (.node a l r) ↔
    x = a ∨ ∃ d, ∃ y ∈ DownSums (child l r d), x = a + y := by
  constructor
  · intro hx
    obtain ⟨path, hpath, hsum⟩ := hx
    rw [pathSum_nil_cons] at hsum
    rcases isPath_nil_cons.1 hpath with rfl | ⟨d, path', rfl, h⟩
    · refine .inl ?_
      rw [← hsum]
      exact add_zero a
    · rw [pathSum_map_cons] at hsum
      exact .inr ⟨d, _, ⟨path', h, rfl⟩, hsum.symm⟩
  · intro hx
    rcases hx with rfl | ⟨d, y, ⟨path, hpath, rfl⟩, rfl⟩
    · exact ⟨[], isPath_nil_cons.2 (.inl rfl), add_zero x⟩
    · refine ⟨_, isPath_nil_cons.2 (.inr ⟨d, path, rfl, hpath⟩), ?_⟩
      rw [pathSum_nil_cons, pathSum_map_cons]

/-- The two parts of a path through the root leave it to different children. -/
theorem pathSum_through_root
    (hpath : IsPath (.node a l r) (before ++ [] :: after)) :
    pathSum (.node a l r) (before ++ [] :: after) ∈ DownSums (.node a l r) ∨
      ∃ y ∈ DownSums l, ∃ z ∈ DownSums r,
        pathSum (.node a l r) (before ++ [] :: after) = y + z + a := by
  have hdown := hpath.of_append_right (List.cons_ne_nil _ _)
  have hup : IsPath (.node a l r) ([] :: before.reverse) := by
    rw [← List.singleton_append, ← List.append_assoc] at hpath
    have hpart := (hpath.of_append_left (by simp)).reverse
    rwa [List.reverse_append] at hpart
  rw [pathSum_append, ← pathSum_reverse before]
  rcases isPath_nil_cons.1 hup with hnil | ⟨e, up, heq, hup'⟩
  · refine .inl ⟨after, hdown, ?_⟩
    rw [hnil]
    exact (zero_add _).symm
  · rcases isPath_nil_cons.1 hdown with hnil | ⟨d, down, heq', hdown'⟩
    · refine .inl ⟨before.reverse, hup, ?_⟩
      rw [hnil, pathSum_nil_cons, pathSum_nil_cons, add_comm]
      exact congrArg _ (add_zero a).symm
    · have hde : d ≠ e := by
        intro hsame
        have hbefore : [e] ∈ before := by
          rw [← List.mem_reverse, heq]
          exact List.mem_cons_self
        have hafter : [e] ∈ [] :: after := by
          rw [heq', hsame]
          exact List.mem_cons_of_mem _ List.mem_cons_self
        exact (List.nodup_append.1 hpath.nodup).2.2 _ hbefore _ hafter rfl
      rw [heq, heq', pathSum_nil_cons, pathSum_map_cons, pathSum_map_cons]
      refine .inr ?_
      cases d with
      | false =>
          cases e with
          | false => exact absurd rfl hde
          | true =>
              exact ⟨_, ⟨down, hdown', rfl⟩, _, ⟨up, hup', rfl⟩, by
                rw [← add_assoc, add_comm _ a, add_comm _ a, add_assoc,
                  add_comm (pathSum _ _)]
                rfl⟩
      | true =>
          cases e with
          | false =>
              exact ⟨_, ⟨up, hup', rfl⟩, _, ⟨down, hdown', rfl⟩, by
                rw [add_comm a, ← add_assoc]
                rfl⟩
          | true => exact absurd rfl hde

/-- A path: in a subtree, or from the root, or from one child of the root to
the other. -/
theorem mem_pathSums_node {x : α} : x ∈ PathSums (.node a l r) ↔
    (∃ d, x ∈ PathSums (child l r d)) ∨ x ∈ DownSums (.node a l r) ∨
      ∃ y ∈ DownSums l, ∃ z ∈ DownSums r, x = y + z + a := by
  constructor
  · intro hx
    obtain ⟨path, hpath, rfl⟩ := hx
    by_cases hroot : [] ∈ path
    · obtain ⟨before, after, rfl⟩ := List.append_of_mem hroot
      exact .inr (pathSum_through_root hpath)
    · obtain ⟨d, path', rfl⟩ := exists_side hpath.nonempty hroot hpath.chain
      refine .inl ⟨d, path', isPath_map_cons.1 hpath, ?_⟩
      rw [pathSum_map_cons]
  · intro hx
    rcases hx with ⟨d, path, hpath, rfl⟩ | hx | ⟨y, ⟨left, hl, rfl⟩, z,
      ⟨right, hr, rfl⟩, rfl⟩
    · exact ⟨_, isPath_map_cons.2 hpath, pathSum_map_cons⟩
    · exact downSums_subset hx
    · refine ⟨_, hl.join hr, ?_⟩
      rw [pathSum_append, pathSum_reverse, pathSum_nil_cons, pathSum_map_cons,
        pathSum_map_cons, add_comm a, ← add_assoc]
      rfl

end AddCommMonoid

end LearningCpp.Lib
