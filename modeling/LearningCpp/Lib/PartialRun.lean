import Mathlib

/-!
# Runs of a component whose calls may be undefined

The counterpart of `Lib.Run` for a program with undefined behaviour: a call
either takes the object from one state to the next and answers, or has no
meaning at all, and then neither has a run that makes it.

Two components agree on a call if it is undefined for both, or defined for both
with the same answer. What ties them together call by call ties them together
over runs, in both directions: the one is defined exactly where the other is.
-/

namespace LearningCpp.Lib

variable {σ τ ι ο α : Type*}

/-- The state a run of calls ends in and what it answered, if every call of it
is defined. -/
def runPartial (step : σ → ι → Option (σ × ο)) :
    σ → List ι → Option (σ × List ο)
  | s, [] => some (s, [])
  | s, i :: is =>
    match step s i with
    | none => none
    | some (s', o) =>
      match runPartial step s' is with
      | none => none
      | some (t, os) => some (t, o :: os)

@[simp] theorem runPartial_nil (step : σ → ι → Option (σ × ο)) (s : σ) :
    runPartial step s [] = some (s, []) := rfl

theorem runPartial_cons_of_none {step : σ → ι → Option (σ × ο)} {s : σ} {i : ι}
    (h : step s i = none) (is : List ι) :
    runPartial step s (i :: is) = none := by
  rw [runPartial, h]

theorem runPartial_cons_of_some {step : σ → ι → Option (σ × ο)} {s s' : σ}
    {i : ι} {o : ο} (h : step s i = some (s', o)) (is : List ι) :
    runPartial step s (i :: is) =
      (runPartial step s' is).map (fun r => (r.1, o :: r.2)) := by
  rw [runPartial, h]
  show (match runPartial step s' is with
    | none => none
    | some (t, os) => some (t, o :: os)) = _
  cases runPartial step s' is <;> rfl

/-- A defined run, taken apart at its first call. -/
theorem runPartial_cons_eq_some {step : σ → ι → Option (σ × ο)} {s t : σ}
    {i : ι} {is : List ι} {os : List ο}
    (h : runPartial step s (i :: is) = some (t, os)) :
    ∃ s' o os', step s i = some (s', o) ∧
      runPartial step s' is = some (t, os') ∧ os = o :: os' := by
  cases hi : step s i with
  | none => rw [runPartial_cons_of_none hi] at h; cases h
  | some r =>
      obtain ⟨s', o⟩ := r
      rw [runPartial_cons_of_some hi] at h
      obtain ⟨⟨t', os'⟩, hr, hrest⟩ := Option.map_eq_some_iff.1 h
      cases hrest
      exact ⟨s', o, os', rfl, hr, rfl⟩

/-- Both are undefined, or both are defined with the same answer, in states that
are related. -/
def Agree (R : σ → τ → Prop) : Option (σ × α) → Option (τ × α) → Prop :=
  Option.Rel (fun x y => x.2 = y.2 ∧ R x.1 y.1)

theorem Agree.none {R : σ → τ → Prop} :
    Agree R (none : Option (σ × α)) none := Option.Rel.none

theorem Agree.some {R : σ → τ → Prop} {s : σ} {t : τ} (h : R s t) (a : α) :
    Agree R (some (s, a)) (some (t, a)) := Option.Rel.some ⟨rfl, h⟩

theorem Agree.elim {R : σ → τ → Prop} {x : Option (σ × α)}
    {y : Option (τ × α)} (h : Agree R x y) :
    (x = Option.none ∧ y = Option.none) ∨
      ∃ s t a, x = Option.some (s, a) ∧ y = Option.some (t, a) ∧ R s t := by
  rcases h with ⟨⟨hout, hR⟩⟩ | -
  · next a b =>
    obtain ⟨s, a⟩ := a
    obtain ⟨t, b⟩ := b
    cases hout
    exact .inr ⟨s, t, a, rfl, rfl, hR⟩
  · exact .inl ⟨rfl, rfl⟩

/-- The answer of a computation with no answer of its own. -/
theorem Agree.answer {R : σ → τ → Prop} {x : Option σ} {y : Option τ}
    (h : Option.Rel R x y) (a : α) :
    Agree R (x.map (·, a)) (y.map (·, a)) := by
  rcases h with hR | -
  · exact .some hR a
  · exact .none

/-- Components that agree on every call agree on every run. -/
theorem runPartial_agree {step : σ → ι → Option (σ × ο)}
    {step' : τ → ι → Option (τ × ο)} {R : σ → τ → Prop}
    (hstep : ∀ s t i, R s t → Agree R (step s i) (step' t i))
    {s : σ} {t : τ} (h : R s t) (is : List ι) :
    Agree R (runPartial step s is) (runPartial step' t is) := by
  induction is generalizing s t with
  | nil => exact .some h []
  | cons i is ih =>
      rcases (hstep s t i h).elim with ⟨hi, hi'⟩ | ⟨s', t', o, hi, hi', hR⟩
      · rw [runPartial_cons_of_none hi, runPartial_cons_of_none hi']
        exact .none
      · rw [runPartial_cons_of_some hi, runPartial_cons_of_some hi']
        rcases (ih hR).elim with ⟨hr, hr'⟩ | ⟨u, v, os, hr, hr', hR'⟩
        · rw [hr, hr']
          exact .none
        · rw [hr, hr']
          exact .some hR' (o :: os)

end LearningCpp.Lib
