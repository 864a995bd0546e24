import LearningCpp.Lib.Run

/-!
# Runs that lose their meaning

A program with undefined behaviour is modelled in two parts: a step that is
total and notes in the state what it has accessed, and a condition on the state
that says the accesses were allowed. The program is the step guarded by the
condition; after a step that breaks it there is no state.

What is asked of the steps of such a run, and what is said of them, is about the
states it reaches: `AlongPartial` stops where the run does.
-/

namespace LearningCpp.Lib

variable {σ ι : Type*}

/-- Every step of a run meets a condition on the state it is made in, as far as
the run has a meaning. -/
def AlongPartial (step : σ → ι → Option σ) (A : σ → ι → Prop) :
    σ → List ι → Prop
  | _, [] => True
  | s, i :: is => A s i ∧ (step s i).elim True fun s => AlongPartial step A s is

instance instDecidableAlongPartial {step : σ → ι → Option σ}
    {A : σ → ι → Prop} [∀ s i, Decidable (A s i)] :
    ∀ (s : σ) (is : List ι), Decidable (AlongPartial step A s is)
  | _, [] => inferInstanceAs (Decidable True)
  | s, i :: is =>
      have : Decidable ((step s i).elim True
          fun s => AlongPartial step A s is) :=
        match step s i with
        | none => inferInstanceAs (Decidable True)
        | some s' => instDecidableAlongPartial s' is
      inferInstanceAs (Decidable (A s i ∧ _))

section Partial

variable {step : σ → ι → Option σ} {A B : σ → ι → Prop} {I P : σ → Prop}
  {s s' t : σ} {i : ι} {is js : List ι}

theorem alongPartial_cons (hstep : step s i = some s') :
    AlongPartial step A s (i :: is) ↔ A s i ∧ AlongPartial step A s' is := by
  rw [AlongPartial, hstep]
  rfl

theorem foldlM_cons_some (hstep : step s i = some s') :
    (i :: is).foldlM step s = is.foldlM step s' := by
  rw [List.foldlM_cons, hstep]
  rfl

theorem foldlM_cons_none (hstep : step s i = none) :
    (i :: is).foldlM step s = none := by
  rw [List.foldlM_cons, hstep]
  rfl

theorem AlongPartial.and_forall {C : ι → Prop} (h : AlongPartial step A s is)
    (hC : ∀ i ∈ is, C i) :
    AlongPartial step (fun s i => A s i ∧ C i) s is := by
  induction is generalizing s with
  | nil => trivial
  | cons i is ih =>
      rw [List.forall_mem_cons] at hC
      refine ⟨⟨h.1, hC.1⟩, ?_⟩
      cases hstep : step s i with
      | none => trivial
      | some s' => exact ih ((alongPartial_cons hstep).1 h).2 hC.2

theorem AlongPartial.of_append (h : AlongPartial step A s (is ++ js)) :
    AlongPartial step A s is := by
  induction is generalizing s with
  | nil => trivial
  | cons i is ih =>
      refine ⟨h.1, ?_⟩
      cases hstep : step s i with
      | none => trivial
      | some s' => exact ih ((alongPartial_cons hstep).1 h).2

/-- An invariant every step that meets the condition keeps holds wherever a run
of such steps ends. -/
theorem AlongPartial.invariant
    (hstep : ∀ s i s', I s → A s i → step s i = some s' → I s') (hs : I s)
    (his : AlongPartial step A s is) (hrun : is.foldlM step s = some t) :
    I t := by
  induction is generalizing s with
  | nil => cases hrun; exact hs
  | cons i is ih =>
      cases hi : step s i with
      | none => rw [foldlM_cons_none hi] at hrun; cases hrun
      | some s' =>
          rw [foldlM_cons_some hi] at hrun
          obtain ⟨hA, hrest⟩ := (alongPartial_cons hi).1 his
          exact ih (hstep s i s' hs hA hi) hrest hrun

/-- If a step has a result with the property exactly if the state had it and
the step meets a condition, so has a run whose steps all meet it, and only
then. -/
theorem AlongPartial.run_iff
    (hinv : ∀ s i s', I s → A s i → step s i = some s' → I s')
    (hstep : ∀ s i, I s → A s i →
      ((∃ s', step s i = some s' ∧ P s') ↔ P s ∧ B s i))
    (hs : I s) (his : AlongPartial step A s is) :
    (∃ t, is.foldlM step s = some t ∧ P t) ↔
      P s ∧ AlongPartial step B s is := by
  induction is generalizing s with
  | nil =>
      constructor
      · rintro ⟨t, ht, hP⟩
        cases ht
        exact ⟨hP, trivial⟩
      · exact fun h => ⟨s, rfl, h.1⟩
  | cons i is ih =>
      have hiff := hstep s i hs his.1
      cases hi : step s i with
      | none =>
          rw [foldlM_cons_none hi]
          constructor
          · rintro ⟨t, ht, _⟩
            cases ht
          · rintro ⟨hP, hB⟩
            obtain ⟨s', hs', _⟩ := hiff.2 ⟨hP, hB.1⟩
            rw [hi] at hs'
            cases hs'
      | some s' =>
          obtain ⟨hA, hrest⟩ := (alongPartial_cons hi).1 his
          have hstepped : P s' ↔ P s ∧ B s i := by
            rw [← hiff, hi]
            simp
          rw [foldlM_cons_some hi, ih (hinv s i s' hs hA hi) hrest, hstepped,
            alongPartial_cons hi, and_assoc]

/-- A run has a result exactly if each of its steps has. -/
theorem AlongPartial.defined_iff
    (hinv : ∀ s i s', I s → A s i → step s i = some s' → I s')
    (hstep : ∀ s i, I s → A s i → ((∃ s', step s i = some s') ↔ B s i))
    (hs : I s) (his : AlongPartial step A s is) :
    (∃ t, is.foldlM step s = some t) ↔ AlongPartial step B s is := by
  have hiff := his.run_iff (P := fun _ => True) (B := B) hinv
    (fun s i hs hi => by simpa using hstep s i hs hi) hs
  simpa using hiff

end Partial

/-! ## Guarded steps -/

variable {step : σ → ι → σ} {ok : σ → Prop} [DecidablePred ok]
  {A : σ → ι → Prop} {s s' t : σ} {i : ι} {is : List ι}

/-- The step, where it leaves an allowed state. -/
def guarded (step : σ → ι → σ) (ok : σ → Prop) [DecidablePred ok] (s : σ)
    (i : ι) : Option σ :=
  if ok (step s i) then some (step s i) else none

theorem guarded_eq_some_iff :
    guarded step ok s i = some s' ↔ ok (step s i) ∧ step s i = s' := by
  unfold guarded
  split
  · next h => rw [Option.some.injEq, and_iff_right h]
  · next h => exact iff_of_false (fun h' => by cases h') (fun h' => h h'.1)

/-- A run that keeps its meaning is one of the total step. -/
theorem guarded_run (hrun : is.foldlM (guarded step ok) s = some t) :
    is.foldl step s = t := by
  induction is generalizing s with
  | nil => cases hrun; rfl
  | cons i is ih =>
      cases hi : guarded step ok s i with
      | none => rw [foldlM_cons_none hi] at hrun; cases hrun
      | some s' =>
          rw [foldlM_cons_some hi] at hrun
          obtain ⟨-, rfl⟩ := guarded_eq_some_iff.1 hi
          exact ih hrun

/-- If a forbidden state is left for none that is allowed, a run has a meaning
exactly if it ends in an allowed state. -/
theorem guarded_run_iff (hmono : ∀ s i, ok (step s i) → ok s) (hs : ok s) :
    is.foldlM (guarded step ok) s = some t ↔
      ok (is.foldl step s) ∧ is.foldl step s = t := by
  induction is generalizing s with
  | nil =>
      rw [List.foldlM_nil, List.foldl_nil, and_iff_right hs]
      exact Option.some_inj
  | cons i is ih =>
      rw [List.foldl_cons]
      by_cases hok : ok (step s i)
      · rw [foldlM_cons_some (guarded_eq_some_iff.2 ⟨hok, rfl⟩), ih hok]
      · rw [foldlM_cons_none (if_neg hok)]
        exact iff_of_false (fun h => by cases h)
          (fun h => hok (of_foldl hmono h.1))

/-- What is asked of its steps is then asked of every step. -/
theorem AlongPartial.along (h : AlongPartial (guarded step ok) A s is)
    (hrun : is.foldlM (guarded step ok) s = some t) : Along step A s is := by
  induction is generalizing s with
  | nil => trivial
  | cons i is ih =>
      cases hi : guarded step ok s i with
      | none => rw [foldlM_cons_none hi] at hrun; cases hrun
      | some s' =>
          rw [foldlM_cons_some hi] at hrun
          obtain ⟨hA, hrest⟩ := (alongPartial_cons hi).1 h
          obtain ⟨-, rfl⟩ := guarded_eq_some_iff.1 hi
          exact ⟨hA, ih hrest hrun⟩

end LearningCpp.Lib
