import LearningCpp.CustomVector.Steps

/-!
# Runs

Any sequence of operations on any number of vectors is the sequence of list
operations, as far as a caller can see. The sizes the code computes are exact
up to one: `reserve` multiplies its argument by the size of an element, and if
that wraps the block is too small for the pointers into it.
-/

namespace LearningCpp.CustomVector

open LearningCpp.Lib Program

variable {V α : Type} [DecidableEq V] {env : Env α} {s : State V α}
  {L : Lists V α}

/-- The outcomes of the operations, one after the other, and the state after
them. -/
def perform (env : Env α) : List (Op V α) → State V α →
    Option (List (Outcome α) × State V α)
  | [], s => some ([], s)
  | op :: ops, s => do
    let (r, s) ← exec env op s
    let (rs, s) ← perform env ops s
    some (r :: rs, s)

/-- Each operation is allowed when it comes. -/
def AllowedRun (env : Env α) : List (Op V α) → State V α → Prop
  | [], _ => True
  | op :: ops, s => Allowed env s op ∧
    match exec env op s with
    | none => True
    | some (_, s) => AllowedRun env ops s

instance (env : Env α) (s : State V α) (op : Op V α) :
    Decidable (Allowed env s op) :=
  match op with
  | .construct v => inferInstanceAs (Decidable (s.vector v = none))
  | .copyConstruct v other => inferInstanceAs
    (Decidable (s.vector v = none ∧ s.vector other ≠ none))
  | .moveConstruct v other => inferInstanceAs
    (Decidable (s.vector v = none ∧ s.vector other ≠ none))
  | .copyAssign v other => inferInstanceAs (Decidable
    (s.vector v ≠ none ∧ s.vector other ≠ none ∧ s.vector v ≠ some .null))
  | .moveAssign v other => inferInstanceAs (Decidable
    (s.vector v ≠ none ∧ s.vector other ≠ none ∧ s.vector v ≠ some .null))
  | .pushBack v _ => inferInstanceAs (Decidable (s.vector v ≠ none))
  | .pushBackAt v other _ => inferInstanceAs
    (Decidable (s.vector v ≠ none ∧ s.vector other ≠ none))
  | .popBack v => inferInstanceAs (Decidable (s.vector v ≠ none))
  | .clear v => inferInstanceAs (Decidable (s.vector v ≠ none))
  | .reserve v newCapacity => inferInstanceAs
    (Decidable (s.vector v ≠ none ∧ env.sizeof * newCapacity < 2 ^ 64))
  | .at_ v _ => inferInstanceAs (Decidable (s.vector v ≠ none))
  | .getSize v => inferInstanceAs (Decidable (s.vector v ≠ none))
  | .getCapacity v => inferInstanceAs (Decidable (s.vector v ≠ none))
  | .destroy v => inferInstanceAs (Decidable (s.vector v ≠ none))

instance decidableAllowedRun (env : Env α) :
    ∀ (ops : List (Op V α)) (s : State V α), Decidable (AllowedRun env ops s)
  | [], _ => inferInstanceAs (Decidable True)
  | op :: ops, s =>
    have : Decidable (match exec env op s with
        | none => True
        | some (_, s) => AllowedRun env ops s) :=
      match exec env op s with
      | none => inferInstanceAs (Decidable True)
      | some (_, s) => decidableAllowedRun env ops s
    inferInstanceAs (Decidable (_ ∧ _))

/-- A condition holds of each operation when it comes. -/
def Meets (env : Env α) (A : State V α → Op V α → Prop) :
    List (Op V α) → State V α → Prop
  | [], _ => True
  | op :: ops, s => A s op ∧
    match exec env op s with
    | none => True
    | some (_, s) => Meets env A ops s

/-- Every operation of the sequence is defined, and `Q` holds at every
point. -/
def Always (env : Env α) (Q : State V α → Prop) :
    List (Op V α) → State V α → Prop
  | [], s => Q s
  | op :: ops, s => Q s ∧
    ∃ r s', exec env op s = some (r, s') ∧ Always env Q ops s'

instance decidableMeets (env : Env α) (A : State V α → Op V α → Prop)
    [∀ s op, Decidable (A s op)] :
    ∀ (ops : List (Op V α)) (s : State V α), Decidable (Meets env A ops s)
  | [], _ => inferInstanceAs (Decidable True)
  | op :: ops, s =>
    have : Decidable (match exec env op s with
        | none => True
        | some (_, s) => Meets env A ops s) :=
      match exec env op s with
      | none => inferInstanceAs (Decidable True)
      | some (_, s) => decidableMeets env A ops s
    inferInstanceAs (Decidable (_ ∧ _))

/-- An invariant that every operation keeps which meets the condition. -/
theorem Meets.always {A : State V α → Op V α → Prop}
    {I Q : State V α → Prop}
    (hstep : ∀ s op, I s → A s op →
      ∃ r s', exec env op s = some (r, s') ∧ I s')
    (hQ : ∀ s, I s → Q s) {ops : List (Op V α)} :
    ∀ {s : State V α}, I s → Meets env A ops s → Always env Q ops s := by
  induction ops with
  | nil => exact fun hs _ => hQ _ hs
  | cons op ops ih =>
      intro s hs hmeets
      obtain ⟨hop, hrest⟩ := hmeets
      obtain ⟨r, s', hexec, hs'⟩ := hstep s op hs hop
      rw [hexec] at hrest
      exact ⟨hQ s hs, r, s', hexec, ih hs' hrest⟩

theorem Always.mono {Q Q' : State V α → Prop} (hQ : ∀ s, Q s → Q' s)
    {ops : List (Op V α)} :
    ∀ {s : State V α}, Always env Q ops s → Always env Q' ops s := by
  induction ops with
  | nil => exact fun h => hQ _ h
  | cons op ops ih =>
      intro s h
      obtain ⟨hs, r, s', hexec, hrest⟩ := h
      exact ⟨hQ s hs, r, s', hexec, ih hrest⟩

theorem Always.performs {Q : State V α → Prop} {ops : List (Op V α)} :
    ∀ {s : State V α}, Always env Q ops s →
      ∃ rs s', perform env ops s = some (rs, s') ∧ Q s' := by
  induction ops with
  | nil => exact fun h => ⟨[], _, rfl, h⟩
  | cons op ops ih =>
      intro s h
      obtain ⟨_, r, s', hexec, hrest⟩ := h
      obtain ⟨rs, s'', hperform, hQ⟩ := ih hrest
      exact ⟨r :: rs, s'', by simp [perform, hexec, hperform], hQ⟩

/-- What a caller can see of the vectors is what the lists say. -/
structure Observes (s : State V α) (L : Lists V α) : Prop where
  alive : ∀ v, s.vector v = none ↔ L v = none
  getSize : ∀ v l, L v = some l → Returns (getSize v) s l.length s
  at_ : ∀ v l i x, L v = some l → l[i]? = some x →
    ∃ p, Returns (at_ v i) s p s ∧ Returns (load p) s x s
  at_throws : ∀ v l i, L v = some l → l.length ≤ i →
    Throws (CustomVector.at_ v i) s (.outOfRange "Index out of range") s
  getCapacity : ∀ v l, L v = some l →
    ∃ c, Returns (getCapacity v) s c s ∧ l.length ≤ c

/-- Every operation of the sequence is defined, ends as the operation on lists
does or because its storage is refused, and at every point the vectors are
seen as the lists. -/
def Agrees (env : Env α) : List (Op V α) → State V α → Lists V α → Prop
  | [], s, L => Observes s L
  | op :: ops, s, L => Observes s L ∧ ∃ r s' L',
    exec env op s = some (r, s') ∧
    (ListStep op r L L' ∨ Refused env s op ∧ r = .error .badAlloc ∧ L' = L) ∧
    Agrees env ops s' L'

omit [DecidableEq V] in
theorem Represents.observes (h : Represents env s L) : Observes s L where
  alive := by
    intro v
    refine ⟨h.dead v, ?_⟩
    intro hl
    by_contra hv
    obtain ⟨_, l, _, hl', _⟩ := h.list hv
    rw [hl] at hl'
    cases hl'
  getSize := by
    intro v l hl
    obtain ⟨m, hv, hm⟩ := h.members hl
    exact getSize_returns hv hm
  at_ := by
    intro v l i x hl hx
    obtain ⟨m, hv, hm⟩ := h.members hl
    exact at_returns hv hm hx
  at_throws := by
    intro v l i hl hi
    obtain ⟨m, hv, hm⟩ := h.members hl
    exact at_throws hv hm hi
  getCapacity := by
    intro v l hl
    obtain ⟨m, hv, hm⟩ := h.members hl
    exact ⟨m.capacity, getCapacity_returns hv hm, hm.length_le⟩

theorem Represents.agrees (henv : env.NoThrow) (ops : List (Op V α)) :
    ∀ {s : State V α} {L : Lists V α}, Represents env s L →
      AllowedRun env ops s → Agrees env ops s L := by
  induction ops with
  | nil => exact fun h _ => h.observes
  | cons op ops ih =>
      intro s L h hops
      obtain ⟨hop, hrest⟩ := hops
      obtain ⟨r, s', L', hexec, hstep, hrep⟩ := simulates henv h hop
      rw [hexec] at hrest
      exact ⟨h.observes, r, s', L', hexec, hstep, ih hrep hrest⟩

theorem Agrees.performs {ops : List (Op V α)} :
    ∀ {s : State V α} {L : Lists V α}, Agrees env ops s L →
      (perform env ops s).isSome = true := by
  induction ops with
  | nil => exact fun _ => rfl
  | cons op ops ih =>
      intro s L h
      obtain ⟨_, r, s', L', hexec, _, hrest⟩ := h
      obtain ⟨p, hp⟩ := Option.isSome_iff_exists.1 (ih hrest)
      simp [perform, hexec, hp]

/-- The class is what its lists are, over every run that starts with no
vectors. -/
theorem run_refines (henv : env.NoThrow) (ops : List (Op V α))
    (h : AllowedRun env ops .init) : Agrees env ops .init (fun _ => none) :=
  represents_init.agrees henv ops h

/-- `int`, and storage for whatever can be measured. -/
def intEnv : Env ℕ where
  sizeof := 4
  sizeof_pos := by decide
  sizeof_le := by decide
  nothrowMove := true
  movedFrom := id
  copyThrows := fun _ => false
  newThrows := fun _ bytes => decide (maxObject < bytes)
  newThrows_large := by
    intro _ _ h
    exact decide_eq_true h

/-- A vector that grows while one of its own elements is pushed, a copy of zero
capacity, and one that was moved from. -/
theorem run_refines_int : Agrees intEnv
    [.construct 0, .copyConstruct 1 0, .pushBack 0 7, .pushBackAt 0 0 0,
      .pushBack 1 8, .moveConstruct 2 0, .popBack 0, .pushBackAt 0 2 1,
      .copyAssign 1 2, .reserve 1 10, .moveAssign 2 0, .at_ 1 1, .destroy 2]
    (.init : State ℕ ℕ) (fun _ => none) :=
  run_refines (fun _ => rfl) _ (by decide +kernel)

/-- The one way out: the bytes for `2 ^ 62` elements wrap to none, and the
element the vector has is constructed in a block without room. -/
theorem run_refines_wrapped : ¬ Agrees intEnv
    [.construct 0, .pushBack 0 7, .reserve 0 (2 ^ 62)]
    (.init : State ℕ ℕ) (fun _ => none) := by
  intro h
  have hsome := h.performs
  have hnone : perform intEnv [.construct 0, .pushBack 0 7,
      .reserve 0 (2 ^ 62)] (.init : State ℕ ℕ) = none := rfl
  rw [hnone] at hsome
  cases hsome

end LearningCpp.CustomVector
