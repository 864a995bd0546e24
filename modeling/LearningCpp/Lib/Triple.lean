import LearningCpp.Lib.Program

/-!
# Pre- and postconditions

Partial correctness. A triple is about the runs of a program that are defined:
from a state with the precondition they end with one postcondition where they
return, and with another where they throw. It says nothing of a state the
program is undefined in, so an invariant can be carried through runs of which
nobody knows yet that they are defined.
-/

namespace LearningCpp.Lib.Program

universe u v

variable {σ : Type u} {ε : Type v} {α β : Type}

structure Triple (P : σ → Prop) (c : Program σ ε α) (Q : α → σ → Prop)
    (E : ε → σ → Prop) : Prop where
  returns : ∀ {s a s'}, P s → Returns c s a s' → Q a s'
  throws : ∀ {s e s'}, P s → Throws c s e s' → E e s'

/-- The program keeps an invariant, however it ends. -/
abbrev Keeps (I : σ → Prop) (c : Program σ ε α) : Prop :=
  Triple I c (fun _ => I) (fun _ => I)

section Rules

variable {P P' : σ → Prop} {c : Program σ ε α} {f : α → Program σ ε β}
  {Q Q' : α → σ → Prop} {R : β → σ → Prop} {E F : ε → σ → Prop}
  {handler : Program σ ε Unit}

theorem read_cases {g : σ → Option α} {s s' : σ} {r : Except ε α}
    (h : (read g : Program σ ε α) s = some (r, s')) :
    ∃ a, g s = some a ∧ r = .ok a ∧ s' = s := by
  obtain ⟨a, ha, heq⟩ := Option.map_eq_some_iff.1 h
  cases heq
  exact ⟨a, ha, rfl, rfl⟩

theorem update_cases {g : σ → Option σ} {s s' : σ} {r : Except ε Unit}
    (h : (update g : Program σ ε Unit) s = some (r, s')) :
    r = .ok () ∧ g s = some s' := by
  obtain ⟨t, ht, heq⟩ := Option.map_eq_some_iff.1 h
  cases heq
  exact ⟨rfl, ht⟩

theorem bind_read_cases {g : σ → Option α} {s s' : σ} {r : Except ε β}
    (h : (read g >>= f : Program σ ε β) s = some (r, s')) :
    ∃ a, g s = some a ∧ f a s = some (r, s') := by
  rcases bind_cases h with ⟨a, t, ha, hf⟩ | ⟨e, he, _⟩
  · obtain ⟨a', hg, heq, rfl⟩ := read_cases ha
    cases heq
    exact ⟨a, hg, hf⟩
  · obtain ⟨_, _, heq, _⟩ := read_cases he
    cases heq

theorem bind_update_cases {g : σ → Option σ} {f : Unit → Program σ ε β}
    {s s' : σ} {r : Except ε β}
    (h : (update g >>= f : Program σ ε β) s = some (r, s')) :
    ∃ t, g s = some t ∧ f () t = some (r, s') := by
  rcases bind_cases h with ⟨a, t, ha, hf⟩ | ⟨e, he, _⟩
  · exact ⟨t, (update_cases ha).2, hf⟩
  · obtain ⟨heq, _⟩ := update_cases he
    cases heq

theorem Triple.weaken (h : Triple P c Q E) (hP : ∀ s, P' s → P s)
    (hQ : ∀ a s, Q a s → Q' a s) (hE : ∀ e s, E e s → F e s) :
    Triple P' c Q' F :=
  ⟨fun hs hc => hQ _ _ (h.returns (hP _ hs) hc),
    fun hs hc => hE _ _ (h.throws (hP _ hs) hc)⟩

theorem Triple.exists_pre {ι : Type*} {P : ι → σ → Prop}
    (h : ∀ i, Triple (P i) c Q E) : Triple (fun s => ∃ i, P i s) c Q E where
  returns := by
    intro s a s' hs hc
    obtain ⟨i, hs⟩ := hs
    exact (h i).returns hs hc
  throws := by
    intro s e s' hs hc
    obtain ⟨i, hs⟩ := hs
    exact (h i).throws hs hc

theorem Triple.pure_pre {p : Prop} (h : p → Triple P c Q E) :
    Triple (fun s => p ∧ P s) c Q E :=
  ⟨fun hs hc => (h hs.1).returns hs.2 hc,
    fun hs hc => (h hs.1).throws hs.2 hc⟩

theorem Triple.of_cases (h : ∀ s r s', P s → c s = some (r, s') →
    (∃ a, r = .ok a ∧ Q a s') ∨ ∃ e, r = .error e ∧ E e s') :
    Triple P c Q E where
  returns := by
    intro s a s' hs hc
    rcases h s (.ok a) s' hs hc with ⟨a', heq, hQ⟩ | ⟨e, heq, _⟩
    · cases heq
      exact hQ
    · cases heq
  throws := by
    intro s e s' hs hc
    rcases h s (.error e) s' hs hc with ⟨a, heq, _⟩ | ⟨e', heq, hE⟩
    · cases heq
    · cases heq
      exact hE

theorem Triple.pure {a : α} (h : ∀ s, P s → Q a s) :
    Triple P (pure a : Program σ ε α) Q E where
  returns := by
    intro s a' s' hs hc
    cases hc
    exact h s hs
  throws := by
    intro s e s' _ hc
    cases hc

theorem Triple.undefined : Triple P (undefined : Program σ ε α) Q E where
  returns := by
    intro s a s' _ hc
    cases hc
  throws := by
    intro s e s' _ hc
    cases hc

theorem Triple.throw {e : ε} (h : ∀ s, P s → E e s) :
    Triple P (throw e : Program σ ε α) Q E where
  returns := by
    intro s a s' _ hc
    cases hc
  throws := by
    intro s e' s' hs hc
    cases hc
    exact h s hs

theorem Triple.read {g : σ → Option α}
    (h : ∀ s a, P s → g s = some a → Q a s) :
    Triple P (read g : Program σ ε α) Q E where
  returns := by
    intro s a s' hs hc
    obtain ⟨a', ha, heq, rfl⟩ := read_cases hc
    cases heq
    exact h s' a hs ha
  throws := by
    intro s e s' _ hc
    obtain ⟨_, _, heq, _⟩ := read_cases hc
    cases heq

theorem Triple.update {g : σ → Option σ} {Q : Unit → σ → Prop}
    (h : ∀ s s', P s → g s = some s' → Q () s') :
    Triple P (update g : Program σ ε Unit) Q E where
  returns := by
    intro s a s' hs hc
    exact h s s' hs (update_cases hc).2
  throws := by
    intro s e s' _ hc
    obtain ⟨heq, _⟩ := update_cases hc
    cases heq

theorem Triple.bind (hc : Triple P c Q E) (hf : ∀ a, Triple (Q a) (f a) R E) :
    Triple P (c >>= f) R E where
  returns := by
    intro s b s' hs h
    rcases bind_cases h with ⟨a, t, ha, hb⟩ | ⟨e, _, heq⟩
    · exact (hf a).returns (hc.returns hs ha) hb
    · cases heq
  throws := by
    intro s e s' hs h
    rcases bind_cases h with ⟨a, t, ha, hb⟩ | ⟨e', he, heq⟩
    · exact (hf a).throws (hc.returns hs ha) hb
    · cases heq
      exact hc.throws hs he

theorem Triple.rethrow (hc : Triple P c Q F)
    (hh : ∀ e, Triple (F e) handler (fun _ => E e) E) :
    Triple P (rethrow c handler) Q E where
  returns := by
    intro s a s' hs h
    unfold Returns Program.rethrow at h
    split at h
    · cases h
    · next b t hb =>
        cases h
        exact hc.returns hs hb
    · next e t _ =>
        rcases bind_cases h with ⟨_, _, _, hthrow⟩ | ⟨_, _, heq⟩
        · cases hthrow
        · cases heq
  throws := by
    intro s e s' hs h
    unfold Throws Program.rethrow at h
    split at h
    · cases h
    · cases h
    · next e' t he =>
        have hE := hc.throws hs he
        rcases bind_cases h with ⟨_, t', hhandler, hthrow⟩ | ⟨e'', hw, heq⟩
        · cases hthrow
          exact (hh e).returns hE hhandler
        · cases heq
          exact (hh e').throws hE hw

theorem Triple.ensuring (hc : Triple P c Q F)
    (hQ : ∀ a, Triple (Q a) handler (fun _ => Q' a) E)
    (hE : ∀ e, Triple (F e) handler (fun _ => E e) E) :
    Triple P (ensuring c handler) Q' E :=
  (hc.rethrow hE).bind fun a => (hQ a).bind fun _ => .pure fun _ hs => hs

theorem Triple.ite {p : Prop} [Decidable p] {c' : Program σ ε α}
    (hp : p → Triple P c Q E) (hn : ¬ p → Triple P c' Q E) :
    Triple P (if p then c else c') Q E := by
  split
  · next h => exact hp h
  · next h => exact hn h

/-- A loop with an invariant for each of its rounds. -/
theorem Triple.forFrom {f : ℕ → Program σ ε Unit} {I : ℕ → σ → Prop} (n : ℕ) :
    ∀ start, (∀ i, start ≤ i → i < start + n →
      Triple (I i) (f i) (fun _ => I (i + 1)) E) →
      Triple (I start) (Program.forFrom f start n) (fun _ => I (start + n))
        E := by
  induction n with
  | zero => exact fun _ _ => .pure fun _ hs => hs
  | succ n ih =>
      intro start hbody
      have hfirst := hbody start (Nat.le_refl _) (by omega)
      have hrest := ih (start + 1)
        (fun i hi hn => hbody i (by omega) (by omega))
      rw [show start + 1 + n = start + (n + 1) by omega] at hrest
      exact hfirst.bind fun _ => hrest

theorem Triple.forUpto {f : ℕ → Program σ ε Unit} {I : ℕ → σ → Prop} {n : ℕ}
    (hbody : ∀ i, i < n → Triple (I i) (f i) (fun _ => I (i + 1)) E) :
    Triple (I 0) (Program.forUpto n f) (fun _ => I n) E := by
  have h := Triple.forFrom (I := I) n 0 (fun i _ hi => hbody i (by omega))
  rw [Nat.zero_add] at h
  exact h

end Rules

end LearningCpp.Lib.Program
