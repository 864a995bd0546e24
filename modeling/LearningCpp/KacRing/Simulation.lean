import LearningCpp.KacRing.Model
import LearningCpp.Lib.Rotation

/-!
# The table is the ring

The ring itself is a colour at each of `N` positions, all of them moved on at
once, and the colours that leave a marked position flipped. It is a rotation
with weights `1` and `-1`, so it comes back to itself after two laps whatever
is marked, and the table the constructor saves for the first two laps answers
for every later step.

The code rotates in place, one position at a time into a second vector, and
the inner loop's invariant is that the positions already written are those
behind the index. `Shows` ties the vector to the ring's positions.
-/

namespace LearningCpp.KacRing

open LearningCpp.Lib Finset

variable {N : ℕ}

/-- One step of the ring: every ball moves to the next position and changes
its colour if it leaves a marked one. -/
def ringStep (marked : List ℕ) (c : ZMod N → ℤ) : ZMod N → ℤ :=
  fun p => if (p - 1).val ∈ marked then -c (p - 1) else c (p - 1)

/-- The ring after `t` steps, all balls being white at first. -/
def ring (N : ℕ) (marked : List ℕ) (t : ℕ) : ZMod N → ℤ :=
  (ringStep marked)^[t] (fun _ => 1)

/-- The mean colour after `t` steps. -/
def mean (N : ℕ) [NeZero N] (marked : List ℕ) (t : ℕ) : ℚ :=
  (∑ p, ring N marked t p : ℤ) / N

/-- The weight of a position. -/
def sign (marked : List ℕ) (p : ZMod N) : ℤ :=
  if p.val ∈ marked then -1 else 1

theorem ringStep_eq_rotate (marked : List ℕ) :
    ringStep (N := N) marked = rotate (sign marked) := by
  funext c p
  unfold ringStep rotate sign
  split
  · rw [neg_one_mul]
  · rw [one_mul]

theorem sign_mul_self (marked : List ℕ) (p : ZMod N) :
    sign marked p * sign marked p = 1 := by
  unfold sign
  split <;> rfl

theorem ring_succ (marked : List ℕ) (t : ℕ) :
    ring N marked (t + 1) = ringStep marked (ring N marked t) :=
  Function.iterate_succ_apply' _ _ _

theorem mean_mod [NeZero N] (marked : List ℕ) (t : ℕ) :
    mean N marked (t % (N * 2)) = mean N marked t := by
  unfold mean ring
  rw [ringStep_eq_rotate, Nat.mul_comm N 2,
    rotate_iterate_mod (sign_mul_self marked)]

/-! ## The inner loop -/

theorem getD_set {α : Type*} (l : List α) (i j : ℕ) (a d : α) :
    (l.set i a).getD j d = if i = j ∧ i < l.length then a else l.getD j d := by
  rw [List.getD_eq_getElem?_getD, List.getD_eq_getElem?_getD,
    List.getElem?_set]
  by_cases hij : i = j
  · subst hij
    by_cases hlt : i < l.length
    · simp [hlt]
    · simp [hlt]
  · simp [hij]

/-- The marks of the constructor are the marked positions. -/
theorem isMarked_getD {marked : List ℕ} (hm : ∀ i ∈ marked, i < N) (i : ℕ) :
    (isMarked N marked).getD i false = decide (i ∈ marked) := by
  have hfold : ∀ (marked : List ℕ) (m : List Bool), m.length = N →
      (∀ i ∈ marked, i < N) →
      (marked.foldl (fun m i => m.set i true) m).getD i false =
        (m.getD i false || decide (i ∈ marked)) := by
    intro marked
    induction marked with
    | nil => intro m _ _; simp
    | cons j marked ih =>
        intro m hlen hj
        have hjN := hj j List.mem_cons_self
        rw [List.foldl_cons, ih _ (by rw [List.length_set]; exact hlen)
          (fun k hk => hj k (List.mem_cons_of_mem _ hk)), getD_set, hlen]
        by_cases hij : j = i
        · simp [hij, hij ▸ hjN]
        · simp [hij, Ne.symm hij]
  rw [isMarked, hfold marked _ List.length_replicate hm]
  rw [List.getD_eq_getElem?_getD, List.getElem?_replicate]
  split <;> rfl

/-- A vector that holds the colours of the ring. -/
def Shows (balls : List ℤ) (c : ZMod N → ℤ) : Prop :=
  balls.length = N ∧ ∀ p : ZMod N, balls.getD p.val 0 = c p

theorem ringStep_natCast (marked : List ℕ) (c : ZMod N → ℤ) {i : ℕ}
    (hi : i < N) : ringStep marked c ((i : ZMod N) + 1) =
      if i ∈ marked then -c i else c i := by
  unfold ringStep
  rw [add_sub_cancel_right, ZMod.val_natCast_of_lt hi]

/-- The inner loop after `n` of its rounds: the colours of the first `n`
positions are summed and stand one position further. -/
theorem inner_rounds {marked : List ℕ} (hm : ∀ i ∈ marked, i < N)
    {balls next : List ℤ} {c : ZMod N → ℤ} (hballs : Shows balls c)
    (hnext : next.length = N) (n : ℕ) : n ≤ N →
    let s := (List.range n).foldl
      (innerBody N (isMarked N marked) balls) ⟨0, next⟩
    s.nextTotal = ∑ i ∈ range n, ringStep marked c ((i : ZMod N) + 1) ∧
      s.next.length = N ∧
      ∀ i < n, s.next.getD ((i + 1) % N) 0 =
        ringStep marked c ((i : ZMod N) + 1) := by
  induction n with
  | zero =>
      intro _
      exact ⟨rfl, hnext, fun i hi => absurd hi (Nat.not_lt_zero i)⟩
  | succ n ih =>
      intro hn
      obtain ⟨htotal, hlen, hread⟩ := ih (by omega)
      have hcolor : (if (isMarked N marked).getD n false then
          -balls.getD n 0 else balls.getD n 0) =
          ringStep marked c ((n : ZMod N) + 1) := by
        have hball := hballs.2 (n : ZMod N)
        rw [ZMod.val_natCast_of_lt (by omega)] at hball
        rw [isMarked_getD hm, hball, ringStep_natCast marked c (by omega)]
        simp only [decide_eq_true_eq]
      simp only [List.range_succ, List.foldl_append, List.foldl_cons,
        List.foldl_nil]
      rw [innerBody]
      simp only [hcolor]
      refine ⟨?_, ?_, ?_⟩
      · rw [sum_range_succ, htotal]
      · rw [List.length_set, hlen]
      · intro i hi
        rw [getD_set, hlen]
        by_cases hin : i = n
        · rw [hin, if_pos ⟨rfl, Nat.mod_lt _ (by omega)⟩]
        · -- An earlier position is not the one written now: it is not
          -- zero, and not as far.
          have hne : (n + 1) % N ≠ (i + 1) % N := by
            rw [Nat.mod_eq_of_lt (by omega : i + 1 < N)]
            rcases Nat.lt_or_ge (n + 1) N with hlt | hge
            · rw [Nat.mod_eq_of_lt hlt]
              omega
            · obtain rfl : N = n + 1 := by omega
              rw [Nat.mod_self]
              omega
          rw [if_neg (fun h => hne h.1)]
          exact hread i (by omega)

/-- The inner loop is one step of the ring, and sums it. -/
theorem inner_loop [NeZero N] {marked : List ℕ} (hm : ∀ i ∈ marked, i < N)
    {balls next : List ℤ} {c : ZMod N → ℤ} (hballs : Shows balls c)
    (hnext : next.length = N) :
    let s := (List.range N).foldl
      (innerBody N (isMarked N marked) balls) ⟨0, next⟩
    s.nextTotal = ∑ p, ringStep marked c p ∧
      Shows s.next (ringStep marked c) := by
  obtain ⟨htotal, hlen, hread⟩ :=
    inner_rounds hm hballs hnext N (Nat.le_refl N)
  refine ⟨?_, hlen, ?_⟩
  · rw [htotal, sum_range_zmod (fun p => ringStep marked c (p + 1))]
    exact Equiv.sum_comp (Equiv.addRight (1 : ZMod N)) (ringStep marked c)
  · intro p
    have hp : (((p - 1).val : ℕ) : ZMod N) + 1 = p := by
      rw [ZMod.natCast_zmod_val, sub_add_cancel]
    have hval : ((p - 1).val + 1) % N = p.val := by
      rw [← ZMod.val_natCast, Nat.cast_add, Nat.cast_one, hp]
    have h := hread (p - 1).val (ZMod.val_lt _)
    rw [hval, hp] at h
    exact h

/-! ## The outer loop -/

/-- The outer loop after `t` of its rounds: `balls` shows the ring after `t`
steps, and the table is filled up to there. -/
theorem outer_rounds [NeZero N] {marked : List ℕ} (hm : ∀ i ∈ marked, i < N)
    (t : ℕ) : t ≤ N * 2 →
    let s := (List.range t).foldl (outerBody N (isMarked N marked)) (locals N)
    Shows s.balls (ring N marked t) ∧ s.next.length = N ∧
      s.total = ∑ p, ring N marked t p ∧ s.saved.length = N * 2 ∧
      ∀ i < t, s.saved.getD i 0 = mean N marked i := by
  induction t with
  | zero =>
      intro _
      refine ⟨⟨List.length_replicate, ?_⟩, List.length_replicate, ?_,
        List.length_replicate, fun i hi => absurd hi (Nat.not_lt_zero i)⟩
      · intro p
        rw [List.range_zero, List.foldl_nil, locals,
          List.getD_eq_getElem?_getD, List.getElem?_replicate,
          if_pos (ZMod.val_lt p)]
        rfl
      · show (N : ℤ) = ∑ p : ZMod N, (1 : ℤ)
        rw [sum_const, card_univ, ZMod.card, nsmul_eq_mul, mul_one]
  | succ t ih =>
      intro ht
      obtain ⟨hballs, hnext, htotal, hlen, hsaved⟩ := ih (by omega)
      simp only [List.range_succ, List.foldl_append, List.foldl_cons,
        List.foldl_nil]
      obtain ⟨htotal', hballs'⟩ := inner_loop hm hballs hnext
      rw [outerBody, ring_succ]
      refine ⟨hballs', hballs'.1, htotal', ?_, ?_⟩
      · rw [List.length_set, hlen]
      · intro i hi
        rw [getD_set, hlen]
        by_cases hit : t = i
        · rw [if_pos ⟨hit, by omega⟩, htotal, ← hit, mean]
        · rw [if_neg (fun h => hit h.1)]
          exact hsaved i (by omega)

theorem make_saved [NeZero N] {marked : List ℕ} (hm : ∀ i ∈ marked, i < N)
    {t : ℕ} (ht : t < N * 2) :
    (make N marked).saved.getD t 0 = mean N marked t :=
  (outer_rounds hm (N * 2) (Nat.le_refl _)).2.2.2.2 t ht

/-! ## The calls -/

/-- The number of steps a call asks for. -/
def Op.steps : Op → ℕ
  | .step => 1
  | .kstep k => k.toNat

/-- A number of steps that is not negative and fits in a `long long`. -/
def Op.Forward : Op → Prop
  | .step => True
  | .kstep k => 0 ≤ k ∧ k < 2 ^ 63

/-- The `size_t` sums do not wrap, so the index counts the steps modulo the
period. -/
theorem call_currStep {r : KacRing} {op : Op} (hop : op.Forward)
    (hcurr : r.currStep < r.period) (hperiod : r.period ≤ 2 ^ 31 - 1) :
    (call r op).1 =
      { r with currStep := (r.currStep + op.steps) % r.period } := by
  cases op with
  | step =>
      have hwrap : (r.currStep + 1) % 2 ^ 64 = r.currStep + 1 := by omega
      rw [call, KacRing.step, hwrap]
      rfl
  | kstep k =>
      obtain ⟨hk, hk'⟩ := hop
      have hsize : toSize k = k.toNat := by
        unfold toSize
        omega
      have hwrap : (r.currStep + k.toNat) % 2 ^ 64 = r.currStep + k.toNat := by
        omega
      rw [call, KacRing.kstep, hsize, hwrap]
      rfl

theorem run_currStep {ops : List Op} : ∀ {r : KacRing},
    (∀ op ∈ ops, op.Forward) → r.currStep < r.period →
    r.period ≤ 2 ^ 31 - 1 →
    runState call r ops = { r with
      currStep := (r.currStep + (ops.map Op.steps).sum) % r.period } := by
  induction ops with
  | nil =>
      intro r _ hcurr _
      rw [runState_nil, List.map_nil, List.sum_nil, Nat.add_zero,
        Nat.mod_eq_of_lt hcurr]
  | cons op ops ih =>
      intro r hops hcurr hperiod
      have hop := call_currStep (hops op List.mem_cons_self) hcurr hperiod
      have hpos : 0 < r.period := by omega
      have hrest := ih (r := (call r op).1)
        (fun o ho => hops o (List.mem_cons_of_mem _ ho))
        (by rw [hop]; exact Nat.mod_lt _ hpos) (by rw [hop]; exact hperiod)
      rw [runState_cons, hrest, hop, List.map_cons, List.sum_cons]
      simp only [Nat.mod_add_mod, Nat.add_assoc]

/-- After any calls that ask for `T` steps in all, `color` is the mean colour
of the ring after `T` steps. -/
theorem color_run (N : ℕ) [NeZero N] (hN : N * 2 ≤ 2 ^ 31 - 1)
    (marked : List ℕ) (hm : ∀ i ∈ marked, i < N) (ops : List Op)
    (hops : ∀ k, .kstep k ∈ ops → 0 ≤ k ∧ k < 2 ^ 63) :
    (runState call (make N marked) ops).color =
      mean N marked (ops.map Op.steps).sum := by
  have hpos := NeZero.pos N
  have hforward : ∀ op ∈ ops, op.Forward := by
    intro op hop
    cases op with
    | step => trivial
    | kstep k => exact hops k hop
  rw [run_currStep hforward (show 0 < N * 2 by omega) hN, color]
  show (make N marked).saved.getD ((0 + _) % (N * 2)) 0 = _
  rw [Nat.zero_add, make_saved hm (Nat.mod_lt _ (by omega)), mean_mod]

/-- One lap of a ring of three with a position marked twice, by way of a step
count far beyond the table. -/
theorem color_run_lap : (runState call (make 3 [1, 1])
    [.kstep 6000000000000000000, .step, .kstep 2]).color =
      mean 3 [1, 1] 6000000000000000003 := by
  refine color_run 3 (by decide) [1, 1] (by decide) _ ?_
  intro k hk
  simp only [List.mem_cons, Op.kstep.injEq, List.not_mem_nil, or_false,
    reduceCtorEq, false_or] at hk
  omega

end LearningCpp.KacRing
