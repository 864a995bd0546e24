import LearningCpp.MergeLists.Model

/-!
# What the merge leaves

Of each list a part has been appended and the rest, its chain here, has not.
While the loop runs the heap has the first node of every chain that is not
empty, with the index of the chain, and `lists` points to the second. What is
written into memory is the `next` of a node that has been appended, so the
chains stay as they are.

The loop counts finished lists and never looks whether the heap is empty; the
lists that are not finished are those with a node in it. The `next` of the node
appended last is what it was in its list, so it is null or points to a node
that is still to come, and null when there is none.
-/

namespace LearningCpp.MergeLists

open LearningCpp.Lib

variable {ν : Type} {val : ν → Int}
  {heaps : AnyQueue (Before val)} {s : State heaps} {all : Multiset ν}
  {chains : ℕ → List ν} {queued : Finset ℕ} {out rest : List ν} {n i : ℕ}
  {a : ν}

/-! ## The first nodes -/

/-- The first nodes of some of the chains. -/
def fronts (chains : ℕ → List ν) (queued : Finset ℕ) :
    Multiset (HeapElement ν) :=
  ∑ i ∈ queued, Multiset.ofList
    ((chains i).head?.map (fun a => ⟨a, i⟩)).toList

theorem mem_fronts {e : HeapElement ν} : e ∈ fronts chains queued ↔
    e.index ∈ queued ∧ (chains e.index).head? = some e.node := by
  obtain ⟨a, i⟩ := e
  simp only [fronts, Multiset.mem_sum, Multiset.mem_coe, Option.mem_toList,
    Option.map_eq_some_iff, HeapElement.mk.injEq]
  constructor
  · intro h
    obtain ⟨i', hi', a', ha', rfl, rfl⟩ := h
    exact ⟨hi', ha'⟩
  · intro h
    exact ⟨i, h.1, a, h.2, rfl, rfl⟩

theorem fronts_insert_nil (hi : i ∉ queued) (hnil : chains i = []) :
    fronts chains (insert i queued) = fronts chains queued := by
  rw [fronts, Finset.sum_insert hi, hnil]
  exact zero_add _

theorem fronts_insert_cons (hi : i ∉ queued) (hcons : chains i = a :: rest) :
    fronts chains (insert i queued) = ⟨a, i⟩ ::ₘ fronts chains queued := by
  rw [fronts, Finset.sum_insert hi, hcons]
  exact Multiset.singleton_add _ _

theorem fronts_update (hi : i ∉ queued) :
    fronts (Function.update chains i rest) queued = fronts chains queued := by
  refine Finset.sum_congr rfl ?_
  intro j hj
  have hne : j ≠ i := fun h => hi (h ▸ hj)
  rw [Function.update_of_ne hne]

/-! ## The heap and the lists -/

/-- The chains `queued` are in the heap with their first node; of the others
`lists` has the first. -/
structure Queued (s : State heaps) (chains : ℕ → List ν)
    (queued : Finset ℕ) : Prop where
  heads : ∀ i < s.lists.length, ∃ p, IsList s.next p (chains i) ∧
    s.lists[i]? = some (if i ∈ queued then p.bind s.next else p)
  heap : heaps.contents s.minHeap = fronts chains queued
  finished : s.finishedSubLists + (fronts chains queued).card = queued.card

section Enqueue

@[simp] theorem enqueue_next : (s.enqueue i).next = s.next := by
  unfold State.enqueue
  split <;> rfl

@[simp] theorem enqueue_dummyNext : (s.enqueue i).dummyNext = s.dummyNext := by
  unfold State.enqueue
  split <;> rfl

@[simp] theorem enqueue_currNode : (s.enqueue i).currNode = s.currNode := by
  unfold State.enqueue
  split <;> rfl

@[simp] theorem enqueue_length :
    (s.enqueue i).lists.length = s.lists.length := by
  unfold State.enqueue
  split
  · rfl
  · exact List.length_set

end Enqueue

/-- A chain whose list is enqueued. -/
theorem Queued.enqueue (h : Queued s chains queued) (hi : i < s.lists.length)
    (hnew : i ∉ queued) : Queued (s.enqueue i) chains (insert i queued) := by
  obtain ⟨p, hp, hlist⟩ := h.heads i hi
  rw [if_neg hnew] at hlist
  have hget : s.lists.getD i none = p := by
    rw [List.getD_eq_getElem?_getD, hlist]
    rfl
  have hfinished := h.finished
  unfold State.enqueue
  rw [hget]
  cases hchain : chains i with
  | nil =>
      rw [hchain] at hp
      cases hp
      have hfronts := fronts_insert_nil hnew hchain
      refine ⟨?_, h.heap.trans hfronts.symm, ?_⟩
      · intro j hj
        by_cases hji : j = i
        · subst hji
          exact ⟨none, by rw [hchain]; rfl,
            hlist.trans (congrArg some (if_pos (Finset.mem_insert_self _ _)).symm)⟩
        · obtain ⟨p, hp, hlist⟩ := h.heads j hj
          simp only [Finset.mem_insert, hji, false_or]
          exact ⟨p, hp, hlist⟩
      · rw [hfronts, Finset.card_insert_of_notMem hnew]
        simp only
        omega
  | cons a rest =>
      rw [hchain] at hp
      obtain ⟨rfl, hrest⟩ := hp
      have hfronts := fronts_insert_cons hnew hchain
      refine ⟨?_, ?_, ?_⟩
      · intro j hj
        simp only [List.length_set] at hj
        by_cases hji : j = i
        · subst hji
          refine ⟨some a, by rw [hchain]; exact ⟨rfl, hrest⟩, ?_⟩
          rw [if_pos (Finset.mem_insert_self _ _), List.getElem?_set_self hi]
          rfl
        · obtain ⟨p, hp, hlist⟩ := h.heads j hj
          simp only [Finset.mem_insert, hji, false_or]
          exact ⟨p, hp, (List.getElem?_set_ne (fun h => hji h.symm)).trans hlist⟩
      · rw [hfronts, ← h.heap]
        exact heaps.contents_push _ _
      · rw [hfronts, Finset.card_insert_of_notMem hnew, Multiset.card_cons]
        simp only
        omega

/-- The first loop. -/
theorem queued_first (heaps : AnyQueue (Before val)) {next : ν → Option ν}
    {lists : List (Option ν)}
    (hheads : ∀ i < lists.length, ∃ p, IsList next p (chains i) ∧
      lists[i]? = some p) (m : ℕ) (hm : m ≤ lists.length) :
    ∃ s, (List.range m).foldl State.enqueue
        (⟨next, lists, heaps.empty, 0, none, none⟩ : State heaps) = s ∧
      Queued s chains (Finset.range m) ∧ s.next = next ∧
      s.dummyNext = none ∧ s.currNode = none ∧
      s.lists.length = lists.length := by
  induction m with
  | zero =>
      refine ⟨_, rfl, ⟨?_, heaps.contents_empty, rfl⟩, rfl, rfl, rfl, rfl⟩
      simpa using hheads
  | succ m ih =>
      obtain ⟨s, hs, h, hnext, hdummy, hcurr, hlength⟩ := ih (by omega)
      refine ⟨s.enqueue m, ?_, ?_, ?_, ?_, ?_, ?_⟩
      · rw [List.range_succ, List.foldl_append, hs]
        rfl
      · rw [Finset.range_add_one]
        exact h.enqueue (by omega) Finset.notMem_range_self
      · rw [enqueue_next, hnext]
      · rw [enqueue_dummyNext, hdummy]
      · rw [enqueue_currNode, hcurr]
      · rw [enqueue_length, hlength]

/-! ## What has been appended -/

/-- The nodes are those appended, in order and before the others, and those of
the chains. -/
structure Split (val : ν → Int) (all : Multiset ν) (n : ℕ)
    (chains : ℕ → List ν) (out : List ν) : Prop where
  nodes : (out : Multiset ν) + ∑ i ∈ Finset.range n, (chains i : Multiset ν) =
    all
  nodup : all.Nodup
  sorted : ∀ i < n, (chains i).Pairwise (KeyLE val)
  merged : out.Pairwise (KeyLE val)
  below : ∀ a ∈ out, ∀ i < n, ∀ b ∈ chains i, val a ≤ val b

theorem Split.out_nodup (h : Split val all n chains out) : out.Nodup := by
  have hle : (out : Multiset ν) ≤ all := h.nodes ▸ Multiset.le_add_right _ _
  exact Multiset.coe_nodup.1 (Multiset.nodup_of_le hle h.nodup)

theorem Split.card_le (h : Split val all n chains out) :
    out.length ≤ all.card := by
  rw [← h.nodes, Multiset.card_add, Multiset.coe_card]
  exact Nat.le_add_right _ _

/-- A node that has been appended is in no chain. -/
theorem Split.ne (h : Split val all n chains out) {b : ν} (ha : a ∈ out)
    (hi : i < n) (hb : b ∈ chains i) : b ≠ a := by
  have hnodup := h.nodup
  rw [← h.nodes, Multiset.nodup_add] at hnodup
  intro heq
  subst heq
  refine Multiset.disjoint_left.1 hnodup.2.2 (Multiset.mem_coe.2 ha) ?_
  exact Multiset.mem_sum.2 ⟨i, Finset.mem_range.2 hi, Multiset.mem_coe.2 hb⟩

/-- A node no greater than the first nodes is no greater than any. -/
theorem Split.least (h : Split val all n chains out)
    (hleast : ∀ j < n, ∀ b ∈ (chains j).head?, val a ≤ val b) :
    ∀ j < n, ∀ b ∈ chains j, val a ≤ val b := by
  intro j hj b hb
  have hsorted := h.sorted j hj
  cases hj' : chains j with
  | nil =>
      rw [hj'] at hb
      cases hb
  | cons c cs =>
      have hc := hleast j hj c (by rw [hj']; rfl)
      rw [hj'] at hb hsorted
      rcases List.mem_cons.1 hb with rfl | hb
      · exact hc
      · exact le_trans hc ((List.pairwise_cons.1 hsorted).1 b hb)

/-- The nodes of the chains, when one loses its first. -/
theorem sum_update (hi : i < n) (hchain : chains i = a :: rest) :
    ∑ j ∈ Finset.range n, (chains j : Multiset ν) = {a} +
      ∑ j ∈ Finset.range n,
        (Function.update chains i rest j : Multiset ν) := by
  have hmem := Finset.mem_range.2 hi
  have hrest : ∑ j ∈ (Finset.range n).erase i,
      (Function.update chains i rest j : Multiset ν) =
      ∑ j ∈ (Finset.range n).erase i, (chains j : Multiset ν) := by
    refine Finset.sum_congr rfl ?_
    intro j hj
    rw [Function.update_of_ne (Finset.ne_of_mem_erase hj)]
  rw [← Finset.add_sum_erase (Finset.range n) (fun j => (chains j : Multiset ν))
      hmem,
    ← Finset.add_sum_erase (Finset.range n)
      (fun j => (Function.update chains i rest j : Multiset ν)) hmem,
    hrest, hchain, Function.update_self, ← Multiset.cons_coe,
    ← Multiset.singleton_add, add_assoc]

/-- The first node of a chain that is no greater than any other first node. -/
theorem Split.step (h : Split val all n chains out) (hi : i < n)
    (hchain : chains i = a :: rest)
    (hleast : ∀ j < n, ∀ b ∈ (chains j).head?, val a ≤ val b) :
    Split val all n (Function.update chains i rest) (out ++ [a]) := by
  have hbelow := h.least hleast
  have hsub : ∀ j < n, ∀ b ∈ Function.update chains i rest j,
      b ∈ chains j := by
    intro j _ b hb
    by_cases hji : j = i
    · subst hji
      rw [Function.update_self] at hb
      rw [hchain]
      exact List.mem_cons_of_mem a hb
    · rwa [Function.update_of_ne hji] at hb
  refine ⟨?_, h.nodup, ?_, ?_, ?_⟩
  · rw [← h.nodes, sum_update hi hchain, ← Multiset.coe_add,
      Multiset.coe_singleton, add_assoc]
  · intro j hj
    by_cases hji : j = i
    · subst hji
      have hsorted := h.sorted j hj
      rw [hchain] at hsorted
      rw [Function.update_self]
      exact (List.pairwise_cons.1 hsorted).2
    · rw [Function.update_of_ne hji]
      exact h.sorted j hj
  · refine List.pairwise_append.2
      ⟨h.merged, List.pairwise_singleton _ _, ?_⟩
    intro b hb c hc
    rw [List.mem_singleton.1 hc]
    exact h.below b hb i hi a (by rw [hchain]; exact List.mem_cons_self)
  · intro b hb j hj c hc
    rcases List.mem_append.1 hb with hb | hb
    · exact h.below b hb j hj c (hsub j hj c hc)
    · rw [List.mem_singleton.1 hb]
      exact hbelow j hj c (hsub j hj c hc)

/-- The nodes appended are linked, and the last one does not point back. -/
def Linked (s : State heaps) (n : ℕ) (chains : ℕ → List ν) (out : List ν) :
    Prop :=
  s.currNode = none ∧ out = [] ∧ s.dummyNext = none ∨
    ∃ before curr, s.currNode = some curr ∧ out = before ++ [curr] ∧
      Segment s.next s.dummyNext before (some curr) ∧
      ∀ m, s.next curr = some m → ∃ i < n, m ∈ chains i

theorem Linked.curr_mem (h : Linked s n chains out)
    (hcurr : s.currNode = some a) : a ∈ out := by
  rcases h with ⟨hnone, _⟩ | ⟨before, curr, hsome, hout, _⟩
  · rw [hnone] at hcurr
    cases hcurr
  · rw [hsome] at hcurr
    cases hcurr
    rw [hout]
    exact List.mem_append_right _ (List.mem_singleton_self _)

theorem Linked.enqueue (h : Linked s n chains out) (i : ℕ) :
    Linked (s.enqueue i) n chains out := by
  unfold Linked
  rw [enqueue_currNode, enqueue_dummyNext, enqueue_next]
  exact h

/-- Where the loop is. -/
structure Merging (all : Multiset ν) (s : State heaps) (chains : ℕ → List ν)
    (out : List ν) : Prop where
  queued : Queued s chains (Finset.range s.lists.length)
  split : Split val all s.lists.length chains out
  linked : Linked s s.lists.length chains out

/-- The element at the top is the first node of its chain, with the least
value. -/
theorem Merging.top (h : Merging all s chains out) {e : HeapElement ν}
    (htop : heaps.top? s.minHeap = some e) :
    e.index < s.lists.length ∧ (∃ rest, chains e.index = e.node :: rest) ∧
      ∀ j < s.lists.length, ∀ b ∈ (chains j).head?, val e.node ≤ val b := by
  have hheap := h.queued.heap
  have hmem : e ∈ fronts chains (Finset.range s.lists.length) := by
    rw [← hheap, heaps.contents_top _ _ htop]
    exact Multiset.mem_cons_self _ _
  obtain ⟨hindex, hhead⟩ := mem_fronts.1 hmem
  refine ⟨Finset.mem_range.1 hindex, ?_, ?_⟩
  · obtain ⟨rest, hrest⟩ := List.head?_eq_some_iff.1 hhead
    exact ⟨rest, hrest⟩
  · intro j hj b hb
    refine heaps.top_before _ _ htop ⟨b, j⟩ ?_
    rw [hheap]
    exact mem_fronts.2 ⟨Finset.mem_range.2 hj, hb⟩

/-- The node at the top taken out of its chain. -/
theorem Merging.pop (h : Merging all s chains out) {e : HeapElement ν}
    (htop : heaps.top? s.minHeap = some e)
    (hchain : chains e.index = e.node :: rest) :
    Queued { s with minHeap := heaps.pop s.minHeap }
      (Function.update chains e.index rest)
      ((Finset.range s.lists.length).erase e.index) := by
  obtain ⟨hindex, _, _⟩ := h.top htop
  have hout := Finset.notMem_erase e.index (Finset.range s.lists.length)
  have hinsert := Finset.insert_erase (Finset.mem_range.2 hindex)
  have hfronts := fronts_insert_cons hout hchain
  have hfinished := h.queued.finished
  rw [hinsert] at hfronts
  rw [← hinsert, Finset.card_insert_of_notMem hout, hinsert, hfronts,
    Multiset.card_cons] at hfinished
  refine ⟨?_, ?_, ?_⟩
  · intro j hj
    obtain ⟨p, hp, hlist⟩ := h.queued.heads j hj
    rw [if_pos (Finset.mem_range.2 hj)] at hlist
    by_cases hji : j = e.index
    · subst hji
      rw [hchain] at hp
      obtain ⟨rfl, hrest⟩ := hp
      refine ⟨s.next e.node, ?_, ?_⟩
      · rw [Function.update_self]
        exact hrest
      · rw [if_neg hout]
        exact hlist
    · refine ⟨p, ?_, ?_⟩
      · rw [Function.update_of_ne hji]
        exact hp
      · have hj := Finset.mem_range.2 hj
        rw [if_pos (Finset.mem_erase.2 ⟨hji, hj⟩)]
        exact hlist
  · have hheap := h.queued.heap
    rw [hfronts, heaps.contents_top _ _ htop] at hheap
    rw [fronts_update hout]
    exact (Multiset.cons_inj_right _).1 hheap
  · rw [fronts_update hout]
    simp only
    omega

/-- When all lists are finished all nodes have been appended. -/
theorem Merging.done (h : Merging all s chains out)
    (hdone : s.finishedSubLists = s.lists.length) :
    (out : Multiset ν) = all ∧ IsList s.next s.dummyNext out := by
  have hnone : ∀ i < s.lists.length, chains i = [] := by
    have hfinished := h.queued.finished
    rw [Finset.card_range] at hfinished
    have hempty : fronts chains (Finset.range s.lists.length) = 0 :=
      Multiset.card_eq_zero.1 (by omega)
    intro i hi
    cases hchain : chains i with
    | nil => rfl
    | cons a rest =>
        have hmem : (⟨a, i⟩ : HeapElement ν) ∈
            fronts chains (Finset.range s.lists.length) :=
          mem_fronts.2 ⟨Finset.mem_range.2 hi, by rw [hchain]; rfl⟩
        rw [hempty] at hmem
        exact absurd hmem (Multiset.notMem_zero _)
  refine ⟨?_, ?_⟩
  · rw [← h.split.nodes, Finset.sum_eq_zero, add_zero]
    intro i hi
    rw [hnone i (Finset.mem_range.1 hi)]
    rfl
  · rcases h.linked with ⟨_, hout, hdummy⟩ |
      ⟨before, curr, _, hout, hseg, hnext⟩
    · rw [hout, hdummy]
      rfl
    · rw [hout]
      refine segment_concat.2 ⟨hseg, ?_⟩
      cases hcurr : s.next curr with
      | none => rfl
      | some m =>
          obtain ⟨i, hi, hm⟩ := hnext m hcurr
          rw [hnone i hi] at hm
          cases hm

theorem sum_getD (l : List (List ν)) :
    ∑ i ∈ Finset.range l.length, (l.getD i [] : Multiset ν) =
      (l.flatten : Multiset ν) := by
  induction l with
  | nil => rfl
  | cons chain l ih =>
      rw [List.length_cons, Finset.sum_range_succ', List.flatten_cons,
        ← Multiset.coe_add, ← ih, add_comm]
      rfl

variable [DecidableEq ν]

/-- Writing to a node that is in no chain. -/
theorem Queued.append (h : Queued s chains queued)
    (hcurr : ∀ curr, s.currNode = some curr →
      ∀ j < s.lists.length, curr ∉ chains j) (a : ν) :
    Queued (s.append a) chains queued := by
  unfold State.append
  cases hnode : s.currNode with
  | none => exact ⟨h.heads, h.heap, h.finished⟩
  | some curr =>
      refine ⟨?_, h.heap, h.finished⟩
      intro j hj
      obtain ⟨p, hp, hlist⟩ := h.heads j hj
      have hsame : ∀ b ∈ chains j,
          Function.update s.next curr (some a) b = s.next b := by
        intro b hb
        refine Function.update_of_ne ?_ _ _
        intro heq
        exact hcurr curr hnode j hj (heq ▸ hb)
      refine ⟨p, hp.congr hsame, ?_⟩
      rw [hlist]
      have hbind : p.bind (Function.update s.next curr (some a)) =
          p.bind s.next := by
        cases p with
        | none => rfl
        | some b => exact hsame b (List.mem_of_mem_head? hp.head?.symm)
      rw [hbind]

/-- The node appended is the last one. -/
theorem Linked.append {chains' : ℕ → List ν} (h : Linked s n chains out)
    (hnodup : out.Nodup) (hnew : a ∉ out)
    (hnext : ∀ m, s.next a = some m → ∃ i < n, m ∈ chains' i) :
    Linked (s.append a) n chains' (out ++ [a]) := by
  unfold State.append
  rcases h with ⟨hcurr, hout, hdummy⟩ | ⟨before, curr, hcurr, hout, hseg, _⟩
  · rw [hcurr, hout]
    exact .inr ⟨[], a, rfl, rfl, rfl, hnext⟩
  · subst hout
    rw [hcurr]
    have hne : a ≠ curr := by
      intro heq
      exact hnew (List.mem_append_right _ (heq ▸ List.mem_singleton_self a))
    refine .inr ⟨before ++ [curr], a, rfl, rfl, segment_concat.2 ⟨?_, ?_⟩, ?_⟩
    · refine hseg.congr ?_
      intro b hb
      refine Function.update_of_ne ?_ _ _
      exact (List.nodup_append.1 hnodup).2.2 b hb curr (List.mem_singleton_self _)
    · exact Function.update_self _ _ _
    · intro m hm
      refine hnext m ?_
      rw [← hm]
      exact (Function.update_of_ne hne _ _).symm

@[simp] theorem append_lists : (s.append a).lists = s.lists := by
  unfold State.append
  split <;> rfl

/-- One turn of the second loop: there is a node at the top, and it is
appended. -/
theorem Merging.turn (h : Merging all s chains out)
    (hleft : s.finishedSubLists ≠ s.lists.length) :
    ∃ s' chains' a, s.turn = some s' ∧ Merging all s' chains' (out ++ [a]) := by
  cases htop : heaps.top? s.minHeap with
  | none =>
      -- a list that is not finished has a node in the heap
      have hfinished := h.queued.finished
      rw [← h.queued.heap, heaps.top_none _ htop, Multiset.card_zero,
        Finset.card_range] at hfinished
      exact absurd hfinished hleft
  | some e =>
      obtain ⟨hindex, ⟨rest, hchain⟩, hleast⟩ := h.top htop
      have hmem : e.node ∈ chains e.index := by
        rw [hchain]
        exact List.mem_cons_self
      have hnew : e.node ∉ out :=
        fun hout => h.split.ne hout hindex hmem rfl
      have hnext : ∀ m, s.next e.node = some m →
          ∃ i < s.lists.length, m ∈ Function.update chains e.index rest i := by
        intro m hm
        obtain ⟨p, hp, _⟩ := h.queued.heads e.index hindex
        rw [hchain] at hp
        obtain ⟨_, hrest⟩ := hp
        rw [hm] at hrest
        refine ⟨e.index, hindex, ?_⟩
        rw [Function.update_self]
        exact List.mem_of_mem_head? (IsList.head? hrest).symm
      have hsplit := h.split.step hindex hchain hleast
      have hpop := h.pop htop hchain
      have hlinked : Linked { s with minHeap := heaps.pop s.minHeap }
        s.lists.length chains out := h.linked
      have hlinked' := hlinked.append h.split.out_nodup hnew hnext
      have hqueued := hpop.append (by
        intro curr hcurr j hj hmem
        have hout := List.mem_append_left [e.node] (h.linked.curr_mem hcurr)
        exact hsplit.ne hout hj hmem rfl) e.node
      have hlength : (State.append { s with minHeap := heaps.pop s.minHeap }
          e.node).lists.length = s.lists.length := by
        rw [append_lists]
      have henqueue := hqueued.enqueue (by rw [hlength]; exact hindex)
        (Finset.notMem_erase _ _)
      rw [Finset.insert_erase (Finset.mem_range.2 hindex)] at henqueue
      have hturn : s.turn =
          some ((State.append { s with minHeap := heaps.pop s.minHeap }
            e.node).enqueue e.index) := by
        unfold State.turn
        rw [htop]
      refine ⟨_, Function.update chains e.index rest, e.node, hturn, ?_⟩
      refine ⟨?_, ?_, ?_⟩
      · rw [enqueue_length, hlength]
        exact henqueue
      · rw [enqueue_length, hlength]
        exact hsplit
      · rw [enqueue_length, hlength]
        exact hlinked'.enqueue e.index

/-- The second loop ends, with all lists finished, after as many turns as there
are nodes left. -/
theorem Merging.loop (k : ℕ) (h : Merging all s chains out)
    (hk : out.length + k = all.card) :
    ∃ s' chains' out', (∀ fuel, k < fuel → s.loop fuel = some s') ∧
      Merging all s' chains' out' ∧
      s'.finishedSubLists = s'.lists.length := by
  induction k generalizing s chains out with
  | zero =>
      by_cases hleft : s.finishedSubLists ≠ s.lists.length
      · -- a turn would append one more node than there are
        obtain ⟨s', chains', a, _, h'⟩ := h.turn hleft
        have hcard := h'.split.card_le
        rw [List.length_append, List.length_singleton] at hcard
        omega
      · refine ⟨s, chains, out, ?_, h, not_not.1 hleft⟩
        intro fuel hfuel
        cases fuel with
        | zero => exact absurd hfuel (lt_irrefl 0)
        | succ fuel => rw [State.loop, if_neg hleft]
  | succ k ih =>
      by_cases hleft : s.finishedSubLists ≠ s.lists.length
      · obtain ⟨s', chains', a, hturn, h'⟩ := h.turn hleft
        obtain ⟨s'', chains'', out'', hloop, h'', hdone⟩ := ih h' (by
          rw [List.length_append, List.length_singleton]
          omega)
        refine ⟨s'', chains'', out'', ?_, h'', hdone⟩
        intro fuel hfuel
        cases fuel with
        | zero => exact absurd hfuel (Nat.not_lt_zero _)
        | succ fuel =>
            rw [State.loop, if_pos hleft, hturn]
            exact hloop fuel (by omega)
      · refine ⟨s, chains, out, ?_, h, not_not.1 hleft⟩
        intro fuel hfuel
        cases fuel with
        | zero => exact absurd hfuel (Nat.not_lt_zero _)
        | succ fuel => rw [State.loop, if_neg hleft]

/-- **`mergeKLists` merges**: with any queue and enough fuel it ends, without
taking the top of an empty heap, and leaves a null-terminated list of all nodes
in order. -/
theorem mergeKLists_merges (heaps : AnyQueue (Before val))
    (next : ν → Option ν) (lists : List (Option ν)) (chains : List (List ν))
    (hlists : List.Forall₂ (IsList next) lists chains)
    (hdisjoint : chains.flatten.Nodup)
    (hsorted : ∀ chain ∈ chains, chain.Pairwise (KeyLE val)) :
    ∃ head next' merged,
      (∀ fuel, chains.flatten.length < fuel →
        mergeKLists heaps fuel next lists = some (head, next')) ∧
      IsList next' head merged ∧ merged.Perm chains.flatten ∧
      merged.Pairwise (KeyLE val) := by
  have hlength := hlists.length_eq
  have hheads : ∀ i < lists.length, ∃ p,
      IsList next p (chains.getD i []) ∧ lists[i]? = some p := by
    intro i hi
    refine ⟨lists[i], ?_, List.getElem?_eq_getElem hi⟩
    rw [List.getD_eq_getElem _ _ (hlength ▸ hi)]
    exact hlists.get hi (hlength ▸ hi)
  obtain ⟨s, hfirst, hqueued, hnext, hdummy, hcurr, hlen⟩ :=
    queued_first heaps hheads lists.length (le_refl _)
  have hsplit : Split val (chains.flatten : Multiset ν) s.lists.length
      (fun i => chains.getD i []) [] := by
    refine ⟨?_, Multiset.coe_nodup.2 hdisjoint, ?_, .nil, by simp⟩
    · rw [hlen, hlength, sum_getD]
      exact zero_add _
    · intro i hi
      rw [hlen, hlength] at hi
      rw [List.getD_eq_getElem _ _ hi]
      exact hsorted _ (List.getElem_mem hi)
  have hstart : Merging (chains.flatten : Multiset ν) s
      (fun i => chains.getD i []) [] := by
    refine ⟨?_, hsplit, .inl ⟨hcurr, rfl, hdummy⟩⟩
    rw [hlen]
    exact hqueued
  obtain ⟨s', chains', out, hloop, h, hdone⟩ :=
    hstart.loop chains.flatten.length (by simp)
  obtain ⟨hall, hlist⟩ := h.done hdone
  refine ⟨s'.dummyNext, s'.next, out, ?_, hlist, Multiset.coe_eq_coe.1 hall,
    h.split.merged⟩
  intro fuel hfuel
  unfold mergeKLists
  simp only [hfirst, hloop fuel hfuel, Option.map_some]

/-- Two lists and a null list between them. -/
theorem mergeKLists_merges_three :
    ∃ head next' merged,
      (∀ fuel, ([[0, 1], [], [2]] : List (List ℕ)).flatten.length < fuel →
        mergeKLists (.sorted (Before (fun i : ℕ => [1, 4, 2].getD i 0))) fuel
          (fun i => if i = 0 then some 1 else none) [some 0, none, some 2] =
            some (head, next')) ∧
      IsList next' head merged ∧
      merged.Perm ([[0, 1], [], [2]] : List (List ℕ)).flatten ∧
      merged.Pairwise (KeyLE (fun i : ℕ => ([1, 4, 2] : List Int).getD i 0)) :=
  mergeKLists_merges _ _ _ [[0, 1], [], [2]] (by simp) (by simp) (by simp [KeyLE])

end LearningCpp.MergeLists
