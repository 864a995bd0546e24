import Mathlib

/-!
# Loops over a list

An invariant that says what a loop has done in terms of the elements it has
been through. A step may use where in the list it is taken: which elements come
before and which after.
-/

namespace LearningCpp.Lib

variable {σ ι : Type*} {P : List ι → σ → Prop}

theorem foldl_through {f : σ → ι → σ} {s : σ} (l : List ι) (hs : P [] s)
    (hstep : ∀ before i after s, l = before ++ i :: after → P before s →
      P (before ++ [i]) (f s i)) : P l (l.foldl f s) := by
  induction l using List.reverseRecOn with
  | nil => exact hs
  | append_singleton l i ih =>
      rw [List.foldl_append]
      refine hstep l i [] _ rfl (ih ?_)
      intro before j after s heq
      refine hstep before j (after ++ [i]) s ?_
      rw [heq, List.append_assoc, List.cons_append]

/-- A loop that may end in something undefined, and does not. -/
theorem foldlM_through {f : σ → ι → Option σ} {s : σ} (l : List ι)
    (hs : P [] s)
    (hstep : ∀ before i after s, l = before ++ i :: after → P before s →
      ∃ s', f s i = some s' ∧ P (before ++ [i]) s') :
    ∃ s', l.foldlM f s = some s' ∧ P l s' := by
  induction l using List.reverseRecOn with
  | nil => exact ⟨s, rfl, hs⟩
  | append_singleton l i ih =>
      obtain ⟨s₁, hrun, hs₁⟩ := ih (by
        intro before j after s heq
        refine hstep before j (after ++ [i]) s ?_
        rw [heq, List.append_assoc, List.cons_append])
      obtain ⟨s₂, hlast, hs₂⟩ := hstep l i [] s₁ rfl hs₁
      refine ⟨s₂, ?_, hs₂⟩
      rw [List.foldlM_append, hrun, Option.bind_eq_bind, Option.bind_some,
        List.foldlM_cons, hlast]
      rfl

section Exact

variable {f : σ → ℕ → Option σ} {g : ℕ → σ} {c : ℕ → Prop}

/-- A loop over the numbers up to some other one that is defined exactly if
every turn meets a condition, and of which it is known where each turn begins
if all before did. -/
theorem foldlM_range_exact {n : ℕ} {s : σ}
    (hstep : ∀ k < n, c k → f (g k) k = some (g (k + 1)))
    (hstuck : ∀ k < n, ¬ c k → f (g k) k = none) :
    (List.range n).foldlM f (g 0) = some s ↔ (∀ k < n, c k) ∧ s = g n := by
  induction n generalizing s with
  | zero =>
      rw [List.range_zero, List.foldlM_nil, Option.pure_def, Option.some.injEq]
      exact ⟨fun h => ⟨by simp, h.symm⟩, fun h => h.2.symm⟩
  | succ n ih =>
      have ih : ∀ {s : σ}, (List.range n).foldlM f (g 0) = some s ↔
          (∀ k < n, c k) ∧ s = g n :=
        ih (fun k hk => hstep k (Nat.lt_succ_of_lt hk))
          (fun k hk => hstuck k (Nat.lt_succ_of_lt hk))
      rw [List.range_succ, List.foldlM_append, Option.bind_eq_bind,
        Option.bind_eq_some_iff]
      simp only [List.foldlM_cons, List.foldlM_nil, bind_pure]
      constructor
      · rintro ⟨s₁, hs₁, hlast⟩
        obtain ⟨hc, rfl⟩ := ih.1 hs₁
        by_cases hn : c n
        · rw [hstep n (Nat.lt_succ_self n) hn] at hlast
          refine ⟨fun k hk => ?_, (Option.some.inj hlast).symm⟩
          rcases Nat.lt_succ_iff_lt_or_eq.1 hk with hk | rfl
          · exact hc k hk
          · exact hn
        · rw [hstuck n (Nat.lt_succ_self n) hn] at hlast
          cases hlast
      · rintro ⟨hc, rfl⟩
        exact ⟨g n, ih.2 ⟨fun k hk => hc k (Nat.lt_succ_of_lt hk), rfl⟩,
          hstep n (Nat.lt_succ_self n) (hc n (Nat.lt_succ_self n))⟩

/-- The same for the numbers in the other direction. -/
theorem foldlM_range_reverse_exact {n : ℕ} {s : σ}
    (hstep : ∀ k < n, c k → f (g (k + 1)) k = some (g k))
    (hstuck : ∀ k < n, ¬ c k → f (g (k + 1)) k = none) :
    (List.range n).reverse.foldlM f (g n) = some s ↔
      (∀ k < n, c k) ∧ s = g 0 := by
  induction n with
  | zero =>
      rw [List.range_zero, List.reverse_nil, List.foldlM_nil, Option.pure_def,
        Option.some.injEq]
      exact ⟨fun h => ⟨by simp, h.symm⟩, fun h => h.2.symm⟩
  | succ n ih =>
      have ih := ih (fun k hk => hstep k (Nat.lt_succ_of_lt hk))
        (fun k hk => hstuck k (Nat.lt_succ_of_lt hk))
      rw [List.range_succ, List.reverse_concat, List.foldlM_cons,
        Option.bind_eq_bind, Option.bind_eq_some_iff]
      by_cases hn : c n
      · rw [hstep n (Nat.lt_succ_self n) hn]
        constructor
        · rintro ⟨s₁, hs₁, hrest⟩
          obtain rfl : g n = s₁ := Option.some.inj hs₁
          obtain ⟨hc, hs⟩ := ih.1 hrest
          refine ⟨fun k hk => ?_, hs⟩
          rcases Nat.lt_succ_iff_lt_or_eq.1 hk with hk | rfl
          · exact hc k hk
          · exact hn
        · rintro ⟨hc, hs⟩
          exact ⟨g n, rfl, ih.2 ⟨fun k hk => hc k (Nat.lt_succ_of_lt hk), hs⟩⟩
      · rw [hstuck n (Nat.lt_succ_self n) hn]
        constructor
        · rintro ⟨s₁, hs₁, _⟩
          cases hs₁
        · rintro ⟨hc, _⟩
          exact absurd (hc n (Nat.lt_succ_self n)) hn

end Exact

/-- Two loops, one inside the other. -/
theorem foldlM_product {κ : Type*} {f : σ → ι → κ → Option σ} (l : List ι)
    (m : List κ) (s : σ) :
    l.foldlM (fun s i => m.foldlM (fun s k => f s i k) s) s =
      (l.flatMap (fun i => m.map (fun k => (i, k)))).foldlM
        (fun s c => f s c.1 c.2) s := by
  induction l generalizing s with
  | nil => rfl
  | cons i l ih =>
      rw [List.foldlM_cons, List.flatMap_cons, List.foldlM_append,
        List.foldlM_map]
      exact congrArg _ (funext ih)

/-- Where an element of a sorted list is, seen from another one. -/
theorem mem_before_of_pairwise {r : ι → ι → Prop} {before after : List ι}
    {i j : ι} (h : (before ++ i :: after).Pairwise r)
    (hj : j ∈ before ++ i :: after) (hne : j ≠ i) (hr : ¬ r i j) :
    j ∈ before := by
  rcases List.mem_append.1 hj with hbefore | hafter
  · exact hbefore
  · rcases List.mem_cons.1 hafter with heq | hafter
    · exact absurd heq hne
    · have hcons := (List.pairwise_append.1 h).2.1
      exact absurd ((List.pairwise_cons.1 hcons).1 j hafter) hr

theorem not_mem_before_of_pairwise {r : ι → ι → Prop} {before after : List ι}
    {i : ι} (h : (before ++ i :: after).Pairwise r) (hr : ¬ r i i) :
    i ∉ before :=
  fun hi => hr ((List.pairwise_append.1 h).2.2 i hi i List.mem_cons_self)

end LearningCpp.Lib
