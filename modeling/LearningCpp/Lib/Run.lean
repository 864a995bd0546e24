import Mathlib

/-!
# Runs of a component that answers calls

Most of the programs here are one object with a few member functions: a call
takes the object from one state to the next and returns an answer. This file
is what such components share, with no component in it. A run is a list of
calls; what it ends in is `runState`, what it answered is `runOut`.

Two facts carry nearly every result about whole runs. An invariant every call
keeps holds in every state reached; and two components a relation ties
together call by call cannot be told apart by their answers.
-/

namespace LearningCpp.Lib

variable {σ τ ι κ ο : Type*}

/-- The state a run of calls ends in. -/
def runState (step : σ → ι → σ × ο) : σ → List ι → σ
  | s, [] => s
  | s, i :: is => runState step (step s i).1 is

/-- The answers of a run, one for each call. -/
def runOut (step : σ → ι → σ × ο) : σ → List ι → List ο
  | _, [] => []
  | s, i :: is => (step s i).2 :: runOut step (step s i).1 is

@[simp] theorem runState_nil (step : σ → ι → σ × ο) (s : σ) :
    runState step s [] = s := rfl

@[simp] theorem runState_cons (step : σ → ι → σ × ο) (s : σ) (i : ι)
    (is : List ι) :
    runState step s (i :: is) = runState step (step s i).1 is := rfl

@[simp] theorem runOut_nil (step : σ → ι → σ × ο) (s : σ) :
    runOut step s [] = [] := rfl

@[simp] theorem runOut_cons (step : σ → ι → σ × ο) (s : σ) (i : ι)
    (is : List ι) :
    runOut step s (i :: is) = (step s i).2 :: runOut step (step s i).1 is :=
  rfl

theorem runState_append (step : σ → ι → σ × ο) (s : σ) (is js : List ι) :
    runState step s (is ++ js) = runState step (runState step s is) js := by
  induction is generalizing s with
  | nil => rfl
  | cons i is ih => exact ih (step s i).1

theorem runState_concat (step : σ → ι → σ × ο) (s : σ) (is : List ι) (i : ι) :
    runState step s (is ++ [i]) = (step (runState step s is) i).1 := by
  rw [runState_append, runState_cons, runState_nil]

theorem runOut_concat (step : σ → ι → σ × ο) (s : σ) (is : List ι) (i : ι) :
    runOut step s (is ++ [i]) =
      runOut step s is ++ [(step (runState step s is) i).2] := by
  induction is generalizing s with
  | nil => rfl
  | cons j is ih => exact congrArg _ (ih (step s j).1)

theorem run_map {ι' : Type*} (step : σ → ι → σ × ο) (f : ι' → ι) (s : σ)
    (is : List ι') :
    runState step s (is.map f) = runState (fun s i => step s (f i)) s is ∧
      runOut step s (is.map f) = runOut (fun s i => step s (f i)) s is := by
  induction is generalizing s with
  | nil => exact ⟨rfl, rfl⟩
  | cons i is ih =>
      obtain ⟨hstate, hout⟩ := ih (step s (f i)).1
      exact ⟨hstate, congrArg _ hout⟩

/-- An invariant every allowed call keeps holds wherever a run of allowed
calls ends. -/
theorem runState_invariant {step : σ → ι → σ × ο} {P : σ → Prop}
    {A : ι → Prop} (hstep : ∀ s i, P s → A i → P (step s i).1)
    {s : σ} (hs : P s) {is : List ι} (his : ∀ i ∈ is, A i) :
    P (runState step s is) := by
  induction is generalizing s with
  | nil => exact hs
  | cons i is ih =>
      exact ih (hstep s i hs (his i (by simp)))
        (fun j hj => his j (by simp [hj]))

/-- An invariant the calls of a run keep, each in the state it is made in,
holds after every one of them. -/
theorem runState_prefixes {step : σ → ι → σ × ο} {P : σ → Prop}
    {A : σ → ι → Prop} (hstep : ∀ s i, P s → A s i → P (step s i).1) {s : σ}
    (hs : P s) {is : List ι}
    (his : ∀ p i, p ++ [i] <+: is → A (runState step s p) i) :
    ∀ p, p <+: is → P (runState step s p) := by
  intro p
  induction p using List.reverseRecOn with
  | nil => exact fun _ => hs
  | append_singleton p i ih =>
      intro hp
      rw [runState_concat]
      exact hstep _ i (ih ((List.prefix_append p [i]).trans hp)) (his p i hp)

/-- If a call keeps a property exactly under some condition, a run has it after
every call exactly if each of its calls meets the condition. -/
theorem runState_prefixes_iff {step : σ → ι → σ × ο} {I P : σ → Prop}
    {A : σ → ι → Prop} (hinv : ∀ s i, I s → I (step s i).1)
    (hstep : ∀ s i, I s → P s → (P (step s i).1 ↔ A s i)) {s : σ}
    (hI : I s) (hP : P s) (is : List ι) :
    (∀ p, p <+: is → P (runState step s p)) ↔
      ∀ p i, p ++ [i] <+: is → A (runState step s p) i := by
  constructor
  · intro h p i hp
    have hreached : I (runState step s p) :=
      runState_invariant (A := fun _ => True) (fun s i hs _ => hinv s i hs) hI
        (fun _ _ => trivial)
    have hafter := h _ hp
    rw [runState_concat] at hafter
    exact (hstep _ i hreached
      (h p ((List.prefix_append p [i]).trans hp))).1 hafter
  · intro h p hp
    have hboth := runState_prefixes (P := fun s => I s ∧ P s)
      (fun s i hs hA => ⟨hinv s i hs.1, (hstep s i hs.1 hs.2).2 hA⟩)
      ⟨hI, hP⟩ h p hp
    exact hboth.2

/-- What every answer given in an invariant state satisfies, every answer of
a run satisfies. -/
theorem runOut_invariant {step : σ → ι → σ × ο} {P : σ → Prop} {Q : ο → Prop}
    (hstep : ∀ s i, P s → P (step s i).1 ∧ Q (step s i).2) {s : σ} (hs : P s)
    (is : List ι) : ∀ o ∈ runOut step s is, Q o := by
  induction is generalizing s with
  | nil => intro o ho; cases ho
  | cons i is ih =>
      intro o ho
      rcases List.mem_cons.1 ho with rfl | ho
      · exact (hstep s i hs).2
      · exact ih (hstep s i hs).1 o ho

/-- A relation every call keeps relates the two final states, and if related
states answer alike the two runs do. -/
theorem run_simulation {step : σ → ι → σ × ο} {step' : τ → ι → τ × ο}
    {R : σ → τ → Prop}
    (hstep : ∀ s t i, R s t →
      R (step s i).1 (step' t i).1 ∧ (step s i).2 = (step' t i).2)
    {s : σ} {t : τ} (h : R s t) (is : List ι) :
    R (runState step s is) (runState step' t is) ∧
      runOut step s is = runOut step' t is := by
  induction is generalizing s t with
  | nil => exact ⟨h, rfl⟩
  | cons i is ih =>
      obtain ⟨hR, hout⟩ := hstep s t i h
      obtain ⟨hR', hout'⟩ := ih hR
      exact ⟨hR', by rw [runOut_cons, runOut_cons, hout, hout']⟩

/-- The same where one of the two answers in another form. -/
theorem run_simulation_map {π : Type*} {step : σ → ι → σ × ο}
    {step' : τ → ι → τ × π} {f : π → ο} {R : σ → τ → Prop}
    (hstep : ∀ s t i, R s t →
      R (step s i).1 (step' t i).1 ∧ (step s i).2 = f (step' t i).2)
    {s : σ} {t : τ} (h : R s t) (is : List ι) :
    R (runState step s is) (runState step' t is) ∧
      runOut step s is = (runOut step' t is).map f := by
  induction is generalizing s t with
  | nil => exact ⟨h, rfl⟩
  | cons i is ih =>
      obtain ⟨hR, hout⟩ := hstep s t i h
      obtain ⟨hR', hout'⟩ := ih hR
      exact ⟨hR', by rw [runOut_cons, runOut_cons, List.map_cons, hout, hout']⟩

/-- What no step brings back was there from the start. -/
theorem of_foldl {step : σ → ι → σ} {P : σ → Prop}
    (hstep : ∀ s i, P (step s i) → P s) {is : List ι} :
    ∀ {s : σ}, P (is.foldl step s) → P s := by
  induction is with
  | nil => exact id
  | cons i is ih => exact fun h => hstep _ i (ih h)

/-- Every step of a run meets a condition on the state it is made in. Steps
here answer nothing. -/
def Along (step : σ → ι → σ) (A : σ → ι → Prop) : σ → List ι → Prop
  | _, [] => True
  | s, i :: is => A s i ∧ Along step A (step s i) is

instance instDecidableAlong {step : σ → ι → σ} {A : σ → ι → Prop}
    [∀ s i, Decidable (A s i)] : ∀ (s : σ) (is : List ι), Decidable (Along step A s is)
  | _, [] => inferInstanceAs (Decidable True)
  | s, i :: is =>
      have : Decidable (Along step A (step s i) is) :=
        instDecidableAlong (step s i) is
      inferInstanceAs (Decidable (A s i ∧ Along step A (step s i) is))

theorem along_concat {step : σ → ι → σ} {A : σ → ι → Prop} {is : List ι}
    {i : ι} : ∀ {s : σ}, Along step A s is → A (is.foldl step s) i →
      Along step A s (is ++ [i]) := by
  induction is with
  | nil => exact fun _ h => ⟨h, trivial⟩
  | cons j is ih => exact fun his h => ⟨his.1, ih his.2 h⟩

/-- An invariant every step that meets the condition keeps. -/
theorem Along.invariant {step : σ → ι → σ} {P : σ → Prop}
    {A : σ → ι → Prop} (hstep : ∀ s i, P s → A s i → P (step s i)) {s : σ}
    (hs : P s) {is : List ι} (his : Along step A s is) :
    P (is.foldl step s) := by
  induction is generalizing s with
  | nil => exact hs
  | cons i is ih => exact ih (hstep s i hs his.1) his.2

end LearningCpp.Lib
