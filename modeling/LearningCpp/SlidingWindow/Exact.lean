import LearningCpp.Lib.Window

/-!
# The maximum of a sliding window

`leetcode/hard/239.cpp`. The deque has the candidates for the maximum of the
window that ends at the position the loops have come to. The first loop lets in
the positions of the first window but the last; the second lets one in, drops
those the window has left behind, and reads the front.

The deque is empty neither there nor in the conditions of the inner loops,
which ask first. `i-k+1` is written `i + 1 - k`: for the first window `i-k` is
one less than the least `size_t`, and the sum is 0 again. Positions fit into
the `int`s of the deque.
-/

namespace LearningCpp.SlidingWindow

open LearningCpp.Lib

variable (nums : List Int) (k : ℕ)

/-- `nums[j]`, where there is one. -/
def value (j : ℕ) : Int := nums.getD j 0

/-- The inner loop at the back, and the push after it. -/
def push (dq : List ℕ) (i : ℕ) : List ℕ :=
  dq.rdropWhile (fun back => decide (value nums back ≤ value nums i)) ++ [i]

/-- The body of the second loop: the deque and `out`, unless the front of an
empty deque is read. -/
def slide (s : List ℕ × List Int) (i : ℕ) : Option (List ℕ × List Int) :=
  let (dq, out) := s
  let dq := dq.dropWhile (fun front => decide (front < i + 1 - k))
  let dq := push nums dq i
  match dq.head? with
  | none => none
  | some front => some (dq, out.set (i + 1 - k) (value nums front))

/-- `maxSlidingWindow`. -/
def maxSlidingWindow : Option (List Int) :=
  let out := List.replicate (nums.length - k + 1) 0
  let dq := (List.range (k - 1)).foldl (push nums) []
  ((List.range' (k - 1) (nums.length - (k - 1))).foldlM (slide nums k)
    (dq, out)).map Prod.snd

variable {nums} {k}

/-- The entries of `out` for the windows that end before `i` are final. -/
def Filled (nums : List Int) (k : ℕ) (out : List Int) (i : ℕ) : Prop :=
  ∀ w v, w + k ≤ i → out[w]? = some v →
    IsGreatest {x | ∃ j, w ≤ j ∧ j < w + k ∧ value nums j = x} v

/-- The first loop. -/
theorem first_candidates (nums : List Int) (m : ℕ) :
    Candidates (value nums) ((List.range m).foldl (push nums) []) 0 m := by
  induction m with
  | zero => exact .nil 0
  | succ m ih =>
      rw [List.range_succ, List.foldl_append]
      exact ih.enter (Nat.zero_le m)

/-- One turn of the second loop. -/
theorem slide_spec {dq : List ℕ} {out : List Int} {i : ℕ}
    (h : Candidates (value nums) dq (i - k) i) (hk : 1 ≤ k) (hi : k ≤ i + 1)
    (hout : Filled nums k out i) :
    ∃ dq' out', slide nums k (dq, out) i = some (dq', out') ∧
      Candidates (value nums) dq' (i + 1 - k) (i + 1) ∧
      Filled nums k out' (i + 1) ∧ out'.length = out.length := by
  have hnext := (h.expire (show i - k ≤ i + 1 - k by omega)).enter (by omega)
  unfold slide
  change Candidates _ (push nums _ i) _ _ at hnext
  simp only
  generalize push nums (dq.dropWhile _) i = dq' at hnext ⊢
  cases dq' with
  | nil =>
      -- the window is not empty, so something in the deque covers it
      obtain ⟨d, hd, _⟩ := hnext.covers i (by omega) (by omega)
      exact absurd hd List.not_mem_nil
  | cons front rest =>
      refine ⟨front :: rest, _, rfl, hnext, ?_, List.length_set⟩
      intro w v hw hv
      by_cases hlast : i + 1 - k = w
      · subst hlast
        have hgreatest := hnext.front
        rw [List.getElem?_set_self'] at hv
        obtain ⟨_, _, heq⟩ := Option.map_eq_some_iff.1 hv
        rw [Nat.sub_add_cancel hi, ← heq]
        exact hgreatest
      · rw [List.getElem?_set_ne hlast] at hv
        exact hout w v (by omega) hv

/-- The second loop. -/
theorem slides_spec (m i : ℕ) (dq : List ℕ) (out : List Int)
    (h : Candidates (value nums) dq (i - k) i) (hk : 1 ≤ k) (hi : k ≤ i + 1)
    (hout : Filled nums k out i) :
    ∃ dq' out', (List.range' i m).foldlM (slide nums k) (dq, out) =
        some (dq', out') ∧
      Filled nums k out' (i + m) ∧ out'.length = out.length := by
  induction m generalizing i dq out with
  | zero => exact ⟨dq, out, rfl, hout, rfl⟩
  | succ m ih =>
      obtain ⟨dq', out', hslide, h', hout', hlen⟩ := slide_spec h hk hi hout
      have hlow : i + 1 - k = i - (k - 1) := by omega
      obtain ⟨dq'', out'', hrun, hout'', hlen'⟩ := ih (i + 1) dq' out' h' (by omega) hout'
      refine ⟨dq'', out'', ?_, ?_, hlen'.trans hlen⟩
      · rw [List.range'_succ, List.foldlM_cons, hslide]
        exact hrun
      · rw [Nat.add_right_comm] at hout''
        exact hout''

/-- **`maxSlidingWindow` is exact**: it reads no front of an empty deque, and
the result has one entry for each window, its maximum. -/
theorem maxSlidingWindow_exact (nums : List Int) (k : ℕ) (hk : 1 ≤ k)
    (hlen : k ≤ nums.length) :
    ∃ out, maxSlidingWindow nums k = some out ∧
      out.length = nums.length - k + 1 ∧
      ∀ w v, out[w]? = some v →
        IsGreatest {x | ∃ j, w ≤ j ∧ j ≤ w + k - 1 ∧ nums[j]? = some x} v := by
  have hfirst := first_candidates nums (k - 1)
  rw [show 0 = k - 1 - k by omega] at hfirst
  obtain ⟨dq, out, hrun, hout, hlength⟩ := slides_spec
    (nums.length - (k - 1)) (k - 1) _ (List.replicate (nums.length - k + 1) 0)
    hfirst hk (by omega) (fun w v hw => absurd hw (by omega))
  rw [List.length_replicate] at hlength
  refine ⟨out, ?_, hlength, ?_⟩
  · unfold maxSlidingWindow
    simp only [hrun, Option.map_some]
  · intro w v hv
    have hw := (List.getElem?_eq_some_iff.1 hv).1
    have hgreatest := hout w v (by omega) hv
    have hset : {x | ∃ j, w ≤ j ∧ j ≤ w + k - 1 ∧ nums[j]? = some x} =
        {x | ∃ j, w ≤ j ∧ j < w + k ∧ value nums j = x} := by
      ext x
      refine exists_congr ?_
      intro j
      rw [show j ≤ w + k - 1 ↔ j < w + k by omega]
      refine and_congr_right (fun _ => and_congr_right (fun hj => ?_))
      have hin : j < nums.length := by omega
      rw [value, List.getD_eq_getElem?_getD, List.getElem?_eq_getElem hin,
        Option.getD_some]
      exact Option.some_inj
    rw [hset]
    exact hgreatest

/-- Windows of three, with a value that stays in front of all. -/
theorem maxSlidingWindow_exact_three :
    IsGreatest {x | ∃ j, 2 ≤ j ∧ j ≤ 2 + 3 - 1 ∧
      ([1, 3, -1, -3, 5, 3] : List Int)[j]? = some x} 5 := by
  obtain ⟨out, hout, _, hmax⟩ := maxSlidingWindow_exact [1, 3, -1, -3, 5, 3] 3
    (by decide) (by decide)
  refine hmax 2 5 ?_
  rw [show maxSlidingWindow [1, 3, -1, -3, 5, 3] 3 = some [3, 3, 5, 5] by
    decide +kernel] at hout
  rw [← Option.some.inj hout]
  rfl

end LearningCpp.SlidingWindow
