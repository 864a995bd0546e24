import LearningCpp.Lib.Checked
import LearningCpp.Lib.TreePath

/-!
# The greatest path sum of a tree

`leetcode/hard/124.cpp`. `helper` returns the greatest sum along a path that
goes down from a node and keeps the greatest along any path in `best`. What it
returns for no node is 0, which no path has; where it is added up, another
candidate is the same sum without it.

`left_sum + right_sum + node->val` adds the two children first. The sum of the
three is that of a path, but the first sum need not be that of any, and it is
the only one here that can leave the range of an `int` when no path does.
-/

namespace LearningCpp.MaxPathSum

open LearningCpp.Lib

abbrev TreeNode := BinaryTree Int

/-- `helper`: what it returns, and `best`. -/
def helper : TreeNode → Int → Option (Int × Int)
  | .nil, best => some (0, best)
  | .node val left right, best => do
      let (leftSum, best) ← helper left best
      let (rightSum, best) ← helper right best
      let leftPath ← signed 32 (leftSum + val)
      let best := max best leftPath
      let rightPath ← signed 32 (rightSum + val)
      let best := max best rightPath
      let best := max best val
      let children ← signed 32 (leftSum + rightSum)
      let throughPath ← signed 32 (children + val)
      let best := max best throughPath
      return (max leftPath (max rightPath val), best)

/-- `maxPathSum`. -/
def maxPathSum (root : TreeNode) : Option Int :=
  (helper root (-2 ^ 31)).map Prod.snd

/-- At every node the greatest sums along paths down from its two children add
up to an `int`. -/
def ChildrenAdd : TreeNode → Prop
  | .nil => True
  | .node _ left right => ChildrenAdd left ∧ ChildrenAdd right ∧
      ∀ x y, IsGreatest (DownSums left) x → IsGreatest (DownSums right) y →
        Fits 32 (x + y)

/-- What `helper` returns. -/
def Returned (t : TreeNode) (x : Int) : Prop :=
  t = .nil ∧ x = 0 ∨ IsGreatest (DownSums t) x

variable {val leftSum rightSum x : Int} {left right : TreeNode}

/-! ## One node -/

/-- What is returned for a child with the value of the node is the sum of a
path from the node. -/
theorem Returned.add_mem {t : TreeNode} {d : Bool} (h : Returned t x)
    (ht : child left right d = t) :
    x + val ∈ DownSums (.node val left right) := by
  rw [mem_downSums_node]
  rcases h with ⟨_, rfl⟩ | h
  · exact .inl (zero_add val)
  · exact .inr ⟨d, x, ht ▸ h.1, add_comm x val⟩

theorem val_mem : val ∈ DownSums (.node val left right) :=
  mem_downSums_node.2 (.inl rfl)

theorem Returned.le {t : TreeNode} (h : Returned t x) {y : Int}
    (hy : y ∈ DownSums t) : y ≤ x := by
  rcases h with ⟨rfl, _⟩ | h
  · rw [downSums_nil] at hy
    exact hy.elim
  · exact h.2 hy

theorem node_returned (hl : Returned left leftSum)
    (hr : Returned right rightSum) :
    IsGreatest (DownSums (.node val left right))
      (max (leftSum + val) (max (rightSum + val) val)) := by
  constructor
  · rcases max_choice (leftSum + val) (max (rightSum + val) val) with h | h
    · rw [h]
      exact hl.add_mem (d := false) rfl
    · rw [h]
      rcases max_choice (rightSum + val) val with h | h
      · rw [h]
        exact hr.add_mem (d := true) rfl
      · rw [h]
        exact val_mem
  · intro x hx
    rcases mem_downSums_node.1 hx with rfl | ⟨d, y, hy, rfl⟩
    · omega
    · cases d with
      | false =>
          have hle := hl.le hy
          omega
      | true =>
          have hle := hr.le hy
          omega

/-- The sum of the three is the sum of a path. -/
theorem through_mem (hl : Returned left leftSum)
    (hr : Returned right rightSum) :
    leftSum + rightSum + val ∈ PathSums (.node val left right) := by
  rcases hl with ⟨hnil, rfl⟩ | hl'
  · rw [zero_add]
    exact downSums_subset (hr.add_mem (d := true) rfl)
  · rcases hr with ⟨hnil, rfl⟩ | hr'
    · rw [add_zero]
      exact downSums_subset (Returned.add_mem (d := false) (.inr hl') rfl)
    · exact mem_pathSums_node.2
        (.inr (.inr ⟨_, hl'.1, _, hr'.1, rfl⟩))

/-- `best` after a node. -/
theorem best_node (hl : Returned left leftSum) (hr : Returned right rightSum)
    {best best₁ best₂ : Int}
    (h₁ : IsGreatest (insert best (PathSums left)) best₁)
    (h₂ : IsGreatest (insert best₁ (PathSums right)) best₂) :
    IsGreatest (insert best (PathSums (.node val left right)))
      (max (max (max (max best₂ (leftSum + val)) (rightSum + val)) val)
        (leftSum + rightSum + val)) := by
  have hbest : best ≤ best₁ := h₁.2 (Set.mem_insert _ _)
  have hbest₁ : best₁ ≤ best₂ := h₂.2 (Set.mem_insert _ _)
  constructor
  · have hmem₂ : best₂ ∈ insert best (PathSums (.node val left right)) := by
      rcases h₂.1 with rfl | h
      · rcases h₁.1 with rfl | h
        · exact Set.mem_insert _ _
        · exact .inr (mem_pathSums_node.2 (.inl ⟨false, h⟩))
      · exact .inr (mem_pathSums_node.2 (.inl ⟨true, h⟩))
    have hmax : ∀ {x y : Int},
        x ∈ insert best (PathSums (.node val left right)) →
        y ∈ PathSums (.node val left right) →
        max x y ∈ insert best (PathSums (.node val left right)) := by
      intro x y hx hy
      rcases max_choice x y with h | h
      · rw [h]
        exact hx
      · rw [h]
        exact .inr hy
    exact hmax (hmax (hmax (hmax hmem₂
      (downSums_subset (hl.add_mem (d := false) rfl)))
      (downSums_subset (hr.add_mem (d := true) rfl)))
      (downSums_subset val_mem)) (through_mem hl hr)
  · intro x hx
    rcases hx with rfl | hx
    · omega
    · rcases mem_pathSums_node.1 hx with ⟨d, hx⟩ | hx | ⟨y, hy, z, hz, rfl⟩
      · cases d with
        | false =>
            have hle : x ≤ best₁ := h₁.2 (.inr hx)
            omega
        | true =>
            have hle : x ≤ best₂ := h₂.2 (.inr hx)
            omega
      · have hle := (node_returned hl hr).2 hx
        omega
      · have hy := hl.le hy
        have hz := hr.le hz
        omega

/-! ## The tree -/

/-- The only sum that can be too large is that of the children. -/
theorem children_fits (hl : Returned left leftSum)
    (hr : Returned right rightSum)
    (hfits : ∀ x ∈ PathSums (.node val left right), Fits 32 x) :
    Fits 32 (leftSum + rightSum) ↔
      ∀ x y, IsGreatest (DownSums left) x → IsGreatest (DownSums right) y →
        Fits 32 (x + y) := by
  have hchild : ∀ d y, y ∈ DownSums (child left right d) → Fits 32 y :=
    fun d y hy => hfits y
      (mem_pathSums_node.2 (.inl ⟨d, downSums_subset hy⟩))
  rcases hl with ⟨rfl, rfl⟩ | hl
  · constructor
    · intro _ x y hx
      have hmem := hx.1
      rw [downSums_nil] at hmem
      exact hmem.elim
    · intro _
      rw [zero_add]
      rcases hr with ⟨_, rfl⟩ | hr
      · decide
      · exact hchild true _ hr.1
  · rcases hr with ⟨rfl, rfl⟩ | hr
    · constructor
      · intro _ x y _ hy
        have hmem := hy.1
        rw [downSums_nil] at hmem
        exact hmem.elim
      · intro _
        rw [add_zero]
        exact hchild false _ hl.1
    · constructor
      · intro h x y hx hy
        rw [hx.unique hl, hy.unique hr]
        exact h
      · intro h
        exact h _ _ hl hr

/-- A node whose children have been visited. -/
theorem helper_node {best best₁ best₂ : Int}
    (hleft : helper left best = some (leftSum, best₁))
    (hright : helper right best₁ = some (rightSum, best₂))
    (hl : Returned left leftSum) (hr : Returned right rightSum)
    (hfits : ∀ x ∈ PathSums (.node val left right), Fits 32 x) :
    helper (.node val left right) best =
      (signed 32 (leftSum + rightSum)).map (fun children =>
        (max (leftSum + val) (max (rightSum + val) val),
          max (max (max (max best₂ (leftSum + val)) (rightSum + val)) val)
            (children + val))) := by
  have hleftPath := signed_of_fits
    (hfits _ (downSums_subset (hl.add_mem (d := false) rfl)))
  have hrightPath := signed_of_fits
    (hfits _ (downSums_subset (hr.add_mem (d := true) rfl)))
  have hthrough := signed_of_fits (hfits _ (through_mem hl hr))
  rw [helper, hleft, Option.bind_eq_bind, Option.bind_some]
  simp only [hright, hleftPath, hrightPath, Option.bind_some]
  cases hchildren : signed 32 (leftSum + rightSum) with
  | none => rfl
  | some children =>
      rw [(signed_eq_some_iff.1 hchildren).2]
      show (signed 32 (leftSum + rightSum + val)).bind _ = _
      rw [hthrough]
      rfl

/-- `helper` on a tree no path of which overflows: it gives what it should if
the sums of the children fit, and is undefined otherwise. -/
theorem helper_spec (t : TreeNode) (best : Int)
    (hfits : ∀ x ∈ PathSums t, Fits 32 x) :
    (ChildrenAdd t → ∃ ret best', helper t best = some (ret, best') ∧
      Returned t ret ∧ IsGreatest (insert best (PathSums t)) best') ∧
    (¬ ChildrenAdd t → helper t best = none) := by
  induction t generalizing best with
  | nil =>
      refine ⟨fun _ => ⟨0, best, rfl, .inl ⟨rfl, rfl⟩, ?_⟩,
        fun h => absurd trivial h⟩
      rw [pathSums_nil, insert_empty_eq]
      exact isGreatest_singleton
  | node val left right ihl ihr =>
      have hfitsl : ∀ x ∈ PathSums left, Fits 32 x :=
        fun x hx => hfits x (mem_pathSums_node.2 (.inl ⟨false, hx⟩))
      have hfitsr : ∀ x ∈ PathSums right, Fits 32 x :=
        fun x hx => hfits x (mem_pathSums_node.2 (.inl ⟨true, hx⟩))
      by_cases haddl : ChildrenAdd left
      · obtain ⟨leftSum, best₁, hleft, hl, h₁⟩ := (ihl best hfitsl).1 haddl
        by_cases haddr : ChildrenAdd right
        · obtain ⟨rightSum, best₂, hright, hr, h₂⟩ :=
            (ihr best₁ hfitsr).1 haddr
          rw [helper_node hleft hright hl hr hfits]
          have hiff := children_fits hl hr hfits
          constructor
          · intro hadd
            rw [signed_of_fits (hiff.2 hadd.2.2)]
            exact ⟨_, _, rfl, .inr (node_returned hl hr),
              best_node hl hr h₁ h₂⟩
          · intro hadd
            have hnone : signed 32 (leftSum + rightSum) = none :=
              if_neg (fun h => hadd ⟨haddl, haddr, hiff.1 h⟩)
            rw [hnone]
            rfl
        · refine ⟨fun hadd => absurd hadd.2.1 haddr, fun _ => ?_⟩
          rw [helper, hleft, Option.bind_eq_bind, Option.bind_some]
          simp only [(ihr best₁ hfitsr).2 haddr]
          rfl
      · refine ⟨fun hadd => absurd hadd.1 haddl, fun _ => ?_⟩
        rw [helper, (ihl best hfitsl).2 haddl]
        rfl

/-- **`maxPathSum` is exact** just where the greatest sums down from two
children add up to an `int`. -/
theorem maxPathSum_exact_iff (root : TreeNode) (hroot : root ≠ .nil)
    (hfits : ∀ x ∈ PathSums root, Fits 32 x) :
    (∃ m, maxPathSum root = some m ∧ IsGreatest (PathSums root) m) ↔
      ChildrenAdd root := by
  obtain ⟨hgood, hbad⟩ := helper_spec root (-2 ^ 31) hfits
  constructor
  · intro h
    obtain ⟨m, hm, _⟩ := h
    by_contra hadd
    rw [maxPathSum, hbad hadd] at hm
    cases hm
  · intro hadd
    obtain ⟨ret, best, hrun, hret, hbest⟩ := hgood hadd
    refine ⟨best, by rw [maxPathSum, hrun]; rfl, ?_, ?_⟩
    · rcases hbest.1 with heq | hmem
      · -- then some path has the sum `INT_MIN`, and it is that of all
        have hdown := (hret.resolve_left (fun h => hroot h.1)).1
        have hle : ret ≤ best := hbest.2 (.inr (downSums_subset hdown))
        have hlow := (hfits ret (downSums_subset hdown)).1
        have hsame : best = ret := by omega
        rw [hsame]
        exact downSums_subset hdown
      · exact hmem
    · exact fun x hx => hbest.2 (.inr hx)

/-! ## Three nodes -/

def leaf (a : Int) : TreeNode := .node a .nil .nil

theorem mem_downSums_leaf {a : Int} : x ∈ DownSums (leaf a) ↔ x = a := by
  rw [leaf, mem_downSums_node]
  simp [child, downSums_nil]

theorem mem_pathSums_leaf {a : Int} : x ∈ PathSums (leaf a) ↔ x = a := by
  rw [leaf, mem_pathSums_node, ← leaf, mem_downSums_leaf]
  simp [child, pathSums_nil, downSums_nil]

/-- The paths of a tree of three nodes. -/
theorem mem_pathSums_three {a b : Int} :
    x ∈ PathSums (.node val (leaf a) (leaf b)) ↔
      (x = a ∨ x = b) ∨ (x = val ∨ x = val + a ∨ x = val + b) ∨
        x = a + b + val := by
  rw [mem_pathSums_node, mem_downSums_node]
  simp [child, mem_pathSums_leaf, mem_downSums_leaf]

/-- Two children with sums that add up to an `int`. -/
theorem maxPathSum_exact_iff_three :
    (∃ m, maxPathSum (.node (-10) (leaf 9) (leaf 20)) = some m ∧
      IsGreatest (PathSums (.node (-10) (leaf 9) (leaf 20))) m) ↔
      ChildrenAdd (.node (-10) (leaf 9) (leaf 20)) :=
  maxPathSum_exact_iff _ (by simp) (by
    intro x hx
    rcases mem_pathSums_three.1 hx with (rfl | rfl) | (rfl | rfl | rfl) | rfl
      <;> decide)

/-- Two children whose sums do not. -/
theorem maxPathSum_children_overflow :
    (∀ x ∈ PathSums (.node (-2147483647) (leaf 2147483647) (leaf 2147483647)),
      Fits 32 x) ∧
    ¬ ∃ m, maxPathSum
        (.node (-2147483647) (leaf 2147483647) (leaf 2147483647)) = some m ∧
      IsGreatest (PathSums
        (.node (-2147483647) (leaf 2147483647) (leaf 2147483647))) m := by
  constructor
  · intro x hx
    rcases mem_pathSums_three.1 hx with (rfl | rfl) | (rfl | rfl | rfl) | rfl
      <;> decide
  · intro h
    obtain ⟨m, hm, _⟩ := h
    rw [show maxPathSum _ = none by decide +kernel] at hm
    cases hm

end LearningCpp.MaxPathSum
