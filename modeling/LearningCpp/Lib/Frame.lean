import LearningCpp.Lib.Triple

/-!
# Two ways to know a run from another one

One program extends another if it does the same wherever that one is defined:
more fuel, for instance, never changes an answer. A change to the state frames a
program if the program, run after the change, does what it did without it and
the change is still there at the end.
-/

namespace LearningCpp.Lib.Program

universe u v

variable {σ : Type u} {ε : Type v} {α β : Type} {c c' : Program σ ε α}
  {f f' : α → Program σ ε β} {s s' : σ}

/-! ## Extension -/

def Extends (c c' : Program σ ε α) : Prop :=
  ∀ s r s', c s = some (r, s') → c' s = some (r, s')

theorem Extends.refl (c : Program σ ε α) : Extends c c := fun _ _ _ h => h

theorem Extends.undefined : Extends (undefined : Program σ ε α) c := by
  intro s r s' h
  cases h

theorem Extends.bind (hc : Extends c c') (hf : ∀ a, Extends (f a) (f' a)) :
    Extends (c >>= f) (c' >>= f') := by
  intro s r s' h
  rcases bind_cases h with ⟨a, t, ha, hb⟩ | ⟨e, he, rfl⟩
  · have ha' : Returns c' s a t := hc _ _ _ ha
    rw [bind_returns ha']
    exact hf a _ _ _ hb
  · have he' : Throws c' s e s' := hc _ _ _ he
    exact he'.bind

theorem Extends.bind_left (hc : Extends c c') :
    Extends (c >>= f) (c' >>= f) := hc.bind fun a => .refl (f a)

theorem Extends.bind_right (hf : ∀ a, Extends (f a) (f' a)) :
    Extends (c >>= f) (c >>= f') := (Extends.refl c).bind hf

theorem Extends.rethrow {handler handler' : Program σ ε Unit}
    (hc : Extends c c') (hh : Extends handler handler') :
    Extends (rethrow c handler) (rethrow c' handler') := by
  intro s r s' h
  unfold Program.rethrow at h ⊢
  split at h
  · cases h
  · next a t ha =>
      rw [hc _ _ _ ha]
      exact h
  · next e t he =>
      rw [hc _ _ _ he]
      exact hh.bind_left _ _ _ h

/-! ## Frames -/

/-- As long as `P` holds, the program does not see the change `g`. -/
structure Framed (P : σ → Prop) (g : σ → σ) (c : Program σ ε α) : Prop where
  keeps : ∀ {s r s'}, P s → c s = some (r, s') → P s'
  commutes : ∀ {s r s'}, P s → c s = some (r, s') → c (g s) = some (r, g s')

variable {P : σ → Prop} {g : σ → σ}

theorem Framed.pure (a : α) :
    Framed P g (Pure.pure a : Program σ ε α) where
  keeps := by
    intro s r s' hs h
    cases h
    exact hs
  commutes := by
    intro s r s' _ h
    cases h
    rfl

theorem Framed.undefined : Framed P g (undefined : Program σ ε α) where
  keeps := by
    intro s r s' _ h
    cases h
  commutes := by
    intro s r s' _ h
    cases h

theorem Framed.read {k : σ → Option α}
    (hk : ∀ s a, P s → k s = some a → k (g s) = some a) :
    Framed P g (read k : Program σ ε α) where
  keeps := by
    intro s r s' hs h
    obtain ⟨a, _, _, rfl⟩ := read_cases h
    exact hs
  commutes := by
    intro s r s' hs h
    obtain ⟨a, ha, rfl, rfl⟩ := read_cases h
    exact Returns.read (hk _ a hs ha)

theorem Framed.update {k : σ → Option σ}
    (hk : ∀ s s', P s → k s = some s' → P s' ∧ k (g s) = some (g s')) :
    Framed P g (update k : Program σ ε Unit) where
  keeps := by
    intro s r s' hs h
    exact (hk s s' hs (update_cases h).2).1
  commutes := by
    intro s r s' hs h
    obtain ⟨rfl, hs'⟩ := update_cases h
    exact Returns.update (hk s s' hs hs').2

theorem Framed.bind (hc : Framed P g c) (hf : ∀ a, Framed P g (f a)) :
    Framed P g (c >>= f) where
  keeps := by
    intro s r s' hs h
    rcases bind_cases h with ⟨a, t, ha, hb⟩ | ⟨e, he, _⟩
    · exact (hf a).keeps (hc.keeps hs ha) hb
    · exact hc.keeps hs he
  commutes := by
    intro s r s' hs h
    rcases bind_cases h with ⟨a, t, ha, hb⟩ | ⟨e, he, rfl⟩
    · have ha' : Returns c (g s) a (g t) := hc.commutes hs ha
      rw [bind_returns ha']
      exact (hf a).commutes (hc.keeps hs ha) hb
    · have he' : Throws c (g s) e (g s') := hc.commutes hs he
      exact he'.bind

end LearningCpp.Lib.Program
