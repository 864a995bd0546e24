import LearningCpp.Lib.PriorityQueue
import LearningCpp.Lib.Unordered

/-!
# The most frequent numbers

`leetcode/medium/347.cpp`: every number goes into a heap with how often it
occurs, and what the heap gives first is the answer. The comparison of the heap
looks at the counts alone, so which of several equally frequent numbers comes
first is up to the heap and to the order of the loop over the hash map; both
are parameters, and what is proved holds for all of them.

`k` is an `int` the loop counts down to zero. Counts are integers that do not
wrap.
-/

namespace LearningCpp.TopK

open LearningCpp.Lib

/-! ## The code -/

/-- `Comparator`, as what comes to the top before what: of two entries one that
is not less frequent. -/
def MoreFrequent (x y : Int × Int) : Prop := y.1 ≤ x.1

instance : DecidableRel MoreFrequent := fun x y =>
  inferInstanceAs (Decidable (y.1 ≤ x.1))

instance : Std.Total MoreFrequent := ⟨fun x y => le_total y.1 x.1⟩

instance : IsTrans (Int × Int) MoreFrequent :=
  ⟨fun _ _ _ hxy hyz => le_trans hyz hxy⟩

instance : Std.Refl MoreFrequent := ⟨fun x => le_refl x.1⟩

/-- `counts`. -/
def counts (nums : List Int) : AList (fun _ : Int => Int) :=
  nums.foldl (fun counts n => modifyAt counts n 0 (· + 1)) ∅

/-- `max_freqs`. -/
def maxFreqs (visit : Visit (Σ _ : Int, Int)) (q : AnyQueue MoreFrequent)
    (nums : List Int) : q.Queue :=
  (visit.order (counts nums).entries).foldl
    (fun heap c => q.push heap (c.2, c.1)) q.empty

/-- `while (k)`. `top` of an empty queue is undefined. -/
def loop (q : AnyQueue MoreFrequent) (heap : q.Queue) (k : Int)
    (out : List Int) : Option (List Int) :=
  if k = 0 then some out
  else
    match _h : q.top? heap with
    | none => none
    | some c => loop q (q.pop heap) (k - 1) (out ++ [c.2])
termination_by (q.contents heap).card
decreasing_by
  rw [q.contents_top heap c _h, Multiset.card_cons]
  exact Nat.lt_succ_self _

def topKFrequent (visit : Visit (Σ _ : Int, Int)) (q : AnyQueue MoreFrequent)
    (nums : List Int) (k : Int) : Option (List Int) :=
  loop q (maxFreqs visit q nums) k []

/-! ## The loop -/

section Loop

variable (q : AnyQueue MoreFrequent)

theorem loop_of_neg {heap : q.Queue} {k : Int} (hk : k < 0) (out : List Int) :
    loop q heap k out = none := by
  generalize hn : (q.contents heap).card = n
  induction n generalizing heap k out with
  | zero =>
      rw [loop, if_neg hk.ne]
      split
      · rfl
      · next c hc =>
          rw [q.contents_top heap c hc, Multiset.card_cons] at hn
          cases hn
  | succ n ih =>
      rw [loop, if_neg hk.ne]
      split
      · rfl
      · next c hc =>
          rw [q.contents_top heap c hc, Multiset.card_cons] at hn
          exact ih (by omega) _ (Nat.succ.inj hn)

theorem loop_eq (n : ℕ) (heap : q.Queue) (out : List Int) :
    loop q heap n out =
      (q.popTimes n heap).map (fun s => out ++ s.1.map Prod.snd) := by
  induction n generalizing heap out with
  | zero =>
      rw [loop, if_pos Nat.cast_zero, AnyQueue.popTimes, Option.map_some,
        List.map_nil, List.append_nil]
  | succ n ih =>
      rw [loop, if_neg (by omega), AnyQueue.popTimes]
      split
      · next htop => rw [htop]; rfl
      · next c htop =>
          rw [htop, show ((n + 1 : ℕ) : Int) - 1 = n by omega, ih,
            Option.map_map]
          simp only [Function.comp_def, List.map_cons, List.append_assoc,
            List.singleton_append]

end Loop

/-! ## The heap -/

theorem lookup_counts (nums : List Int) (x : Int) :
    (counts nums).lookup x =
      if x ∈ nums then some (nums.count x : Int) else none := by
  induction nums using List.reverseRecOn with
  | nil => exact AList.lookup_empty x
  | append_singleton nums a ih =>
      rw [counts, List.foldl_append, List.foldl_cons, List.foldl_nil,
        ← counts, lookup_modifyAt, List.count_append]
      by_cases hx : x = a
      · subst hx
        rw [if_pos rfl, ih, if_pos (List.mem_append_right _ (.head _))]
        by_cases hmem : x ∈ nums
        · simp [hmem]
        · simp [hmem, List.count_eq_zero_of_not_mem hmem]
      · rw [if_neg hx, ih]
        have hone : [a].count x = 0 := by
          rw [List.count_singleton, if_neg (by simpa using Ne.symm hx)]
        simp [hx, hone]

theorem contents_maxFreqs (visit : Visit (Σ _ : Int, Int))
    (q : AnyQueue MoreFrequent) (nums : List Int) :
    q.contents (maxFreqs visit q nums) =
      ↑((visit.order (counts nums).entries).map (fun c => (c.2, c.1))) := by
  unfold maxFreqs
  generalize visit.order (counts nums).entries = l
  have hfold : ∀ heap : q.Queue, q.contents
      (l.foldl (fun heap c => q.push heap (c.2, c.1)) heap) =
        ↑(l.map (fun c => (c.2, c.1))) + q.contents heap := by
    induction l with
    | nil => exact fun heap => (zero_add _).symm
    | cons c l ih =>
        intro heap
        rw [List.foldl_cons, ih, q.contents_push, List.map_cons,
          ← Multiset.cons_coe, Multiset.cons_add, Multiset.add_cons]
  rw [hfold, q.contents_empty, add_zero]

/-- Each number that occurs is in the heap with how often it does, once. -/
theorem mem_maxFreqs {visit : Visit (Σ _ : Int, Int)}
    {q : AnyQueue MoreFrequent} {nums : List Int} {c : Int × Int} :
    c ∈ q.contents (maxFreqs visit q nums) ↔
      c.2 ∈ nums ∧ c.1 = nums.count c.2 := by
  rw [contents_maxFreqs, Multiset.mem_coe, List.mem_map]
  constructor
  · rintro ⟨⟨x, n⟩, hmem, rfl⟩
    have hlookup := visit.mem_order.1 hmem
    rw [lookup_counts] at hlookup
    split at hlookup
    · next hx => exact ⟨hx, (Option.some.inj hlookup).symm⟩
    · cases hlookup
  · rintro ⟨hx, hn⟩
    refine ⟨⟨c.2, c.1⟩, visit.mem_order.2 ?_, rfl⟩
    rw [lookup_counts, if_pos hx, hn]

theorem numbers_maxFreqs (visit : Visit (Σ _ : Int, Int))
    (q : AnyQueue MoreFrequent) (nums : List Int) :
    (q.contents (maxFreqs visit q nums)).map Prod.snd = ↑nums.dedup := by
  have hkeys : ((q.contents (maxFreqs visit q nums)).map Prod.snd) =
      ↑((visit.order (counts nums).entries).map Sigma.fst) := by
    rw [contents_maxFreqs, Multiset.map_coe, List.map_map]
    rfl
  refine (Multiset.Nodup.ext ?_ ?_).2 ?_
  · rw [hkeys]
    exact visit.nodup_keys (counts nums)
  · exact List.nodup_dedup nums
  · intro x
    rw [Multiset.mem_map, Multiset.mem_coe, List.mem_dedup]
    constructor
    · rintro ⟨c, hc, rfl⟩
      exact (mem_maxFreqs.1 hc).1
    · exact fun hx => ⟨(nums.count x, x), mem_maxFreqs.2 ⟨hx, rfl⟩, rfl⟩

/-! ## The answer -/

/-- The most frequent numbers, the most frequent first. -/
structure MostFrequent (nums : List Int) (k : ℕ) (out : List Int) : Prop where
  length : out.length = k
  nodup : out.Nodup
  occur : ∀ x ∈ out, x ∈ nums
  sorted : out.Pairwise (fun x y => nums.count y ≤ nums.count x)
  most : ∀ x ∈ out, ∀ y ∈ nums, y ∉ out → nums.count y ≤ nums.count x

/-- **The call is defined if and only if** `k` is not negative and not more
than the different numbers there are; and then, whatever heap and hash map,
the answer is `k` different numbers, the most frequent first, and none that is
left out is more frequent. -/
theorem topKFrequent_exact (visit : Visit (Σ _ : Int, Int))
    (q : AnyQueue MoreFrequent) (nums : List Int) (k : Int) :
    (0 ≤ k ∧ k ≤ nums.dedup.length → ∃ out,
        topKFrequent visit q nums k = some out ∧
          MostFrequent nums k.toNat out) ∧
      (¬ (0 ≤ k ∧ k ≤ nums.dedup.length) →
        topKFrequent visit q nums k = none) := by
  have hnumbers := numbers_maxFreqs visit q nums
  have hcard : (q.contents (maxFreqs visit q nums)).card = nums.dedup.length := by
    rw [← Multiset.card_map Prod.snd, hnumbers, Multiset.coe_card]
  constructor
  · rintro ⟨hk, hle⟩
    obtain ⟨n, rfl⟩ := Int.eq_ofNat_of_zero_le hk
    obtain ⟨l, heap, hpop, hlength, hcontents, hsorted, hleft⟩ :=
      q.popTimes_of_le
        (show n ≤ (q.contents (maxFreqs visit q nums)).card by omega)
    refine ⟨l.map Prod.snd, ?_, ?_⟩
    · rw [topKFrequent, loop_eq, hpop]
      rfl
    · have hmem : ∀ c ∈ l, c.2 ∈ nums ∧ c.1 = nums.count c.2 := by
        intro c hc
        have hin : c ∈ q.contents (maxFreqs visit q nums) := by
          rw [hcontents]
          exact Multiset.mem_add.2 (Or.inl hc)
        exact mem_maxFreqs.1 hin
      constructor
      case length => rw [List.length_map, hlength]; rfl
      case nodup =>
        have hdedup : (q.contents (maxFreqs visit q nums)).map Prod.snd =
            ↑(l.map Prod.snd) + (q.contents heap).map Prod.snd := by
          rw [hcontents, Multiset.map_add, Multiset.map_coe]
        rw [hnumbers] at hdedup
        have hnodup := Multiset.coe_nodup.2 (List.nodup_dedup nums)
        rw [hdedup] at hnodup
        exact Multiset.coe_nodup.1 (Multiset.nodup_of_le
          (Multiset.le_add_right _ _) hnodup)
      case occur =>
        intro x hx
        obtain ⟨c, hc, rfl⟩ := List.mem_map.1 hx
        exact (hmem c hc).1
      case sorted =>
        refine List.pairwise_map.2 (hsorted.imp_of_mem ?_)
        intro c d hc hd hcd
        have hcd : d.1 ≤ c.1 := hcd
        rw [(hmem c hc).2, (hmem d hd).2] at hcd
        exact Int.ofNat_le.1 hcd
      case most =>
        intro x hx y hy hno
        obtain ⟨c, hc, rfl⟩ := List.mem_map.1 hx
        have hin : ((nums.count y : Int), y) ∈
            q.contents (maxFreqs visit q nums) := mem_maxFreqs.2 ⟨hy, rfl⟩
        rw [hcontents] at hin
        rcases Multiset.mem_add.1 hin with hin | hin
        · exact absurd (List.mem_map_of_mem (Multiset.mem_coe.1 hin)) hno
        · have hle : (nums.count y : Int) ≤ c.1 := hleft c hc _ hin
          rw [(hmem c hc).2] at hle
          exact Int.ofNat_le.1 hle
  · intro hk
    by_cases hneg : k < 0
    · exact loop_of_neg q hneg []
    · obtain ⟨n, rfl⟩ := Int.eq_ofNat_of_zero_le (not_lt.1 hneg)
      rw [topKFrequent, loop_eq, q.popTimes_of_lt (by omega)]
      rfl

example : topKFrequent .inOrder (.sorted MoreFrequent) [1, 1, 1, 2, 2, 3] 2 =
    some [1, 2] :=
  (loop_eq _ 2 _ []).trans (by decide)

end LearningCpp.TopK
