import LearningCpp.Lib.PairRemoval
import Mathlib.Order.Bounds.Basic
import Mathlib.Tactic.NormNum.Basic
import Mathlib.Tactic.Linarith

/-!
# The maximum gain of removing pairs

`leetcode/medium/1717.cpp`. The code removes every `ab` with a stack in one
pass, then every `ba` of what is left, or the other way round when `ba` is
worth at least as much. The theorem says that no sequence of removals, in
whatever order, gains more.

A string is the list of its characters. Points and counts are integers that do
not wrap.
-/

namespace LearningCpp.MaximumGain

open LearningCpp.Lib

/-- The body of the loop over the characters. The stack has its back first. -/
def removeStep (substring : Char × Char) (state : List Char × ℕ) (c : Char) :
    List Char × ℕ :=
  let (stack, numRemoved) := state
  if c = substring.2 then
    let peek := stack.head?.getD '?'
    if peek = substring.1 then (stack.tail, numRemoved + 1)
    else (c :: stack, numRemoved)
  else (c :: stack, numRemoved)

/-- `remove_substring`: what is left and the number of removals. -/
def removeSubstring (str : List Char) (substring : Char × Char) :
    List Char × ℕ :=
  let (stack, numRemoved) := str.foldl (removeStep substring) ([], 0)
  (stack.reverse, numRemoved)

/-- `maximumGain`. -/
def maximumGain (s : List Char) (x y : Int) : Int :=
  if x > y then
    let removed1 := removeSubstring s ('a', 'b')
    let removed2 := removeSubstring removed1.1 ('b', 'a')
    removed1.2 * x + removed2.2 * y
  else
    let removed1 := removeSubstring s ('b', 'a')
    let removed2 := removeSubstring removed1.1 ('a', 'b')
    removed1.2 * y + removed2.2 * x

/-! ## The stack pass

Between two characters the stack has no pair in it, and is the string read so
far with as many pairs removed as are counted. -/

theorem removeStep_nil (a b c : Char) (n : ℕ) :
    removeStep (a, b) ([], n) c =
      if c = b then if '?' = a then ([], n + 1) else ([c], n)
      else ([c], n) := rfl

theorem removeStep_cons (a b c top : Char) (rest : List Char) (n : ℕ) :
    removeStep (a, b) (top :: rest, n) c =
      if c = b then if top = a then (rest, n + 1) else (c :: top :: rest, n)
      else (c :: top :: rest, n) := rfl

/-- The step either stacks the character, which makes no pair, or removes it
with the top. -/
theorem removeStep_cases {a b : Char} (ha : a ≠ '?') (stack : List Char)
    (n : ℕ) (c : Char) :
    (∃ rest, stack = a :: rest ∧ c = b ∧
      removeStep (a, b) (stack, n) c = (rest, n + 1)) ∨
    ((∀ top ∈ stack.head?, ¬ (top = a ∧ c = b)) ∧
      removeStep (a, b) (stack, n) c = (c :: stack, n)) := by
  cases stack with
  | nil =>
      right
      refine ⟨by simp, ?_⟩
      rw [removeStep_nil, if_neg ha.symm, ite_self]
  | cons top rest =>
      rw [removeStep_cons]
      by_cases hpair : top = a ∧ c = b
      · left
        refine ⟨rest, by rw [hpair.1], hpair.2, ?_⟩
        rw [if_pos hpair.2, if_pos hpair.1]
      · right
        refine ⟨by simpa using hpair, ?_⟩
        split
        · next hc => rw [if_neg (fun htop => hpair ⟨htop, hc⟩)]
        · rfl

theorem removes_foldl {a b : Char} (ha : a ≠ '?') (str stack : List Char)
    (n : ℕ) (hstack : NoPair a b stack.reverse) :
    ∃ k stack', str.foldl (removeStep (a, b)) (stack, n) = (stack', n + k) ∧
      NoPair a b stack'.reverse ∧
      Removes a b (stack.reverse ++ str) k 0 stack'.reverse := by
  induction str generalizing stack n with
  | nil =>
      refine ⟨0, stack, rfl, hstack, ?_⟩
      rw [List.append_nil]
      exact .done _
  | cons c str ih =>
      obtain ⟨rest, htop, hc, hstep⟩ | ⟨hnone, hstep⟩ :=
        removeStep_cases (b := b) ha stack n c
      · subst htop hc
        rw [List.reverse_cons] at hstack ⊢
        obtain ⟨k, stack', hrun, hleft, hremoves⟩ :=
          ih rest (n + 1) hstack.left_of_append
        refine ⟨k + 1, stack', ?_, hleft, ?_⟩
        · rw [List.foldl_cons, hstep, hrun, Nat.add_assoc, Nat.add_comm 1]
        · rw [List.append_assoc]
          exact .ab _ _ hremoves
      · have hcons : NoPair a b (c :: stack).reverse :=
          List.isChain_reverse.2
            (List.isChain_cons.2 ⟨hnone, List.isChain_reverse.1 hstack⟩)
        obtain ⟨k, stack', hrun, hleft, hremoves⟩ := ih (c :: stack) n hcons
        refine ⟨k, stack', ?_, hleft, ?_⟩
        · rw [List.foldl_cons, hstep, hrun]
        · rw [List.reverse_cons, List.append_assoc] at hremoves
          exact hremoves

/-- `remove_substring` removes its pair, and nothing else, until there is none
left. -/
theorem removeSubstring_spec {a b : Char} (ha : a ≠ '?') (str : List Char) :
    Removes a b str (removeSubstring str (a, b)).2 0
        (removeSubstring str (a, b)).1 ∧
      NoPair a b (removeSubstring str (a, b)).1 := by
  obtain ⟨k, stack', hrun, hleft, hremoves⟩ :=
    removes_foldl (b := b) ha str [] 0 List.isChain_nil
  rw [Nat.zero_add] at hrun
  simp only [removeSubstring, hrun]
  exact ⟨hremoves, hleft⟩

/-! ## The two passes -/

/-- What sequences of removals gain. -/
def gains (s : List Char) (x y : Int) : Set Int :=
  {gain | ∃ p q t, Removes 'a' 'b' s p q t ∧ gain = p * x + q * y}

/-- With the dearer pair no fewer times and pairs no fewer times, a sequence
gains no less. -/
theorem gain_le {x y : Int} {p q P Q : ℕ} (hy : 0 ≤ y) (hyx : y ≤ x)
    (hp : p ≤ P) (hpq : p + q ≤ P + Q) :
    (p : Int) * x + q * y ≤ P * x + Q * y := by
  have hpInt : (0 : Int) ≤ (P : Int) - p := by omega
  have hpqInt : (0 : Int) ≤ (P : Int) + Q - (p + q) := by omega
  have hdear := mul_nonneg hpInt (sub_nonneg.2 hyx)
  have hrest := mul_nonneg hpqInt hy
  linarith

/-- Both passes over a string, the dearer pair first. -/
theorem passes_isGreatest {a b : Char} (hab : a ≠ b) (ha : a ≠ '?')
    (hb : b ≠ '?') (s : List Char) {x y : Int} (hy : 0 ≤ y) (hyx : y ≤ x) :
    IsGreatest {gain : Int | ∃ (p q : ℕ) (t : List Char),
        Removes a b s p q t ∧ gain = p * x + q * y}
      ((removeSubstring s (a, b)).2 * x +
        (removeSubstring (removeSubstring s (a, b)).1 (b, a)).2 * y) := by
  obtain ⟨hfirst, hnone⟩ := removeSubstring_spec (b := b) ha s
  obtain ⟨hsecond, hnone'⟩ := removeSubstring_spec (b := a) hb
    (removeSubstring s (a, b)).1
  constructor
  · refine ⟨_, _, _, hfirst.trans hsecond.swap, ?_⟩
    rw [Nat.add_zero, Nat.zero_add]
  · intro gain hgain
    obtain ⟨p, q, t, hremoves, heq⟩ := hgain
    obtain ⟨hp, hpq⟩ :=
      Removes.exhaustive_ge hab hfirst hnone hsecond.swap hnone' hremoves
    rw [heq]
    exact gain_le hy hyx hp hpq

theorem gains_swap (s : List Char) (x y : Int) :
    gains s x y = {gain : Int | ∃ (p q : ℕ) (t : List Char),
      Removes 'b' 'a' s p q t ∧ gain = p * y + q * x} := by
  ext gain
  constructor
  · intro ⟨p, q, t, hremoves, heq⟩
    exact ⟨q, p, t, hremoves.swap, by rw [heq, Int.add_comm]⟩
  · intro ⟨p, q, t, hremoves, heq⟩
    exact ⟨q, p, t, hremoves.swap, by rw [heq, Int.add_comm]⟩

/-- **`maximumGain` is optimal**: some sequence of removals gains what it
returns, and none gains more. -/
theorem maximumGain_isGreatest (s : List Char) (x y : Int) (hx : 0 ≤ x)
    (hy : 0 ≤ y) : IsGreatest (gains s x y) (maximumGain s x y) := by
  rw [maximumGain]
  split
  · next hxy =>
      exact passes_isGreatest (by simp) (by simp) (by simp) s hy (by omega)
  · next hxy =>
      rw [gains_swap]
      exact passes_isGreatest (by simp) (by simp) (by simp) s hx (by omega)

/-- The second example of the problem. -/
theorem maximumGain_isGreatest_aabbaaxybbaabb :
    IsGreatest (gains "aabbaaxybbaabb".toList 5 4) 20 := by
  have h := maximumGain_isGreatest "aabbaaxybbaabb".toList 5 4
    (by omega) (by omega)
  rwa [show maximumGain "aabbaaxybbaabb".toList 5 4 = 20 by decide] at h

end LearningCpp.MaximumGain
