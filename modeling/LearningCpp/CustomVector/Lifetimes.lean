import LearningCpp.CustomVector.Runs

/-!
# The lifetimes of the elements

At every point of a run the elements that were constructed and not yet
destroyed are those of the vectors, one in each slot below a vector's size and
none anywhere else. Without exceptions this holds of every run. With them it
holds as long as no copy throws behind elements that only the new block has, and
none throws in an assignment that has destroyed elements already.
-/

namespace LearningCpp.CustomVector

open LearningCpp.Lib Program

variable {V α : Type} {env : Env α} {s s' : State V α} {L : Lists V α}
  {v : V}

/-- The elements there are, are those of the vectors. -/
structure Balanced (s : State V α) : Prop where
  getSize : ∀ v m, s.vector v = some m → Returns (getSize v) s m.size s
  /-- `first[0..size)` hold elements, and the rest of the block none. -/
  slots : ∀ v m a, s.vector v = some m → m.first = some a →
    a.slot = 0 ∧ ∃ blk, s.block a.block = some blk ∧
      ∀ i, (blk.slot i).isSome = true ↔ i < m.size
  null : ∀ v m, s.vector v = some m → m.first = none → m.size = 0
  raw : ∀ b blk, s.block b = some blk → ¬ s.Owned b → ∀ i, blk.slot i = none
  alive : ∃ alive : Finset V, (∀ v, v ∈ alive ↔ s.vector v ≠ none) ∧
    s.constructed =
      s.destroyed + ∑ v ∈ alive, (s.vector v).elim 0 Members.size
  done : (∀ v, s.vector v = none) → s.constructed = s.destroyed

/-- A block that is gone, or has no elements. -/
def Raw (k : Option (Block α)) : Prop := ∀ blk ∈ k, ∀ i, blk.slot i = none

theorem raw_none : Raw (none : Option (Block α)) := by
  rintro blk hblk
  cases hblk

theorem raw_nil (c : ℕ) : Raw (some (Block.of c ([] : List α))) := by
  rintro blk hblk i
  cases hblk
  rfl

/-- The state represents lists, and nothing is lost. -/
def Accounted (env : Env α) (s : State V α) : Prop :=
  ∃ L, Represents env s L ∧ Books Raw s L 0

theorem accounted_init : Accounted env (State.init : State V α) :=
  ⟨fun _ => none, represents_init, books_init raw_none⟩

theorem Represents.size_eq (h : Represents env s L) (v : V) :
    L.size v = (s.vector v).elim 0 Members.size := by
  cases hv : s.vector v with
  | none => exact Lists.size_none (h.dead v hv)
  | some m =>
      obtain ⟨l, hl, hm⟩ := h.holds v m hv
      rw [Lists.size_of hl]
      exact hm.size_eq.symm

theorem Represents.alive_iff (h : Represents env s L) (v : V) :
    s.vector v ≠ none ↔ L v ≠ none := not_congr (h.observes.alive v)

/-- The sum over any names is the sum over the vectors there are. -/
theorem Accounted.sum [DecidableEq V] (h : Represents env s L)
    {names : Finset V} (hnames : ∀ v, L v ≠ none → v ∈ names) :
    ∃ alive : Finset V, (∀ v, v ∈ alive ↔ s.vector v ≠ none) ∧
      ∑ v ∈ names, L.size v =
        ∑ v ∈ alive, (s.vector v).elim 0 Members.size := by
  refine ⟨names.filter (fun v => s.vector v ≠ none), ?_, ?_⟩
  · intro v
    rw [Finset.mem_filter]
    exact and_iff_right_of_imp (fun hv => hnames v ((h.alive_iff v).1 hv))
  · rw [Finset.sum_filter_of_ne]
    · exact Finset.sum_congr rfl (fun v _ => h.size_eq v)
    · intro v _ hne hv
      rw [hv] at hne
      exact hne rfl

theorem Accounted.balanced (h : Accounted env s) : Balanced s := by
  classical
  obtain ⟨L, hrep, hbooks⟩ := h
  obtain ⟨names, hnames, hsum⟩ := hbooks.balance
  obtain ⟨alive, halive, heq⟩ := Accounted.sum hrep hnames
  have hcount : s.constructed =
      s.destroyed + ∑ v ∈ alive, (s.vector v).elim 0 Members.size := by
    rw [← heq]
    exact hsum
  constructor
  case getSize =>
    intro v m hv
    obtain ⟨l, _, hm⟩ := hrep.holds v m hv
    rw [hm.size_eq]
    exact getSize_returns hv hm
  case slots =>
    intro v m a hv ha
    obtain ⟨l, _, hm⟩ := hrep.holds v m hv
    cases hm with
    | null => cases ha
    | buffer hb _ _ =>
        cases ha
        refine ⟨rfl, _, hb, ?_⟩
        intro i
        show (l[i]?).isSome = true ↔ i < l.length
        simp
  case null =>
    intro v m hv hnone
    obtain ⟨l, _, hm⟩ := hrep.holds v m hv
    cases hm with
    | null => rfl
    | buffer _ _ _ => cases hnone
  case raw =>
    intro b blk hb hnot
    exact hbooks.unowned b hnot blk hb
  case alive => exact ⟨alive, halive, hcount⟩
  case done =>
    intro hgone
    have hempty : alive = ∅ := by
      refine Finset.eq_empty_of_forall_notMem ?_
      intro v hv
      exact (halive v).1 hv (hgone v)
    rw [hempty] at hcount
    exact hcount

variable [DecidableEq V]

/-- One operation that loses and spoils nothing. -/
theorem Accounted.step (h : Accounted env s) {op : Op V α}
    (hop : Permitted env s op) (hspoil : ¬ Spoils env s op)
    (hlose : ¬ Loses env s op) :
    ∃ r s', exec env op s = some (r, s') ∧ Accounted env s' := by
  obtain ⟨L, hrep, hbooks⟩ := h
  obtain ⟨r, s', L', j, hleads⟩ := steps hrep hop hspoil
  have hbooks' := hleads.books raw_none (fun _ => raw_nil) hbooks
  rw [hleads.lost hlose] at hbooks'
  exact ⟨r, s', hleads.run, L', hleads.represents, hbooks'⟩

/-! ## Without exceptions -/

/-- If no copy throws, every run keeps the balance. -/
theorem lifetimes_balance (henv : env.NoThrow) (ops : List (Op V α))
    (h : Meets env (Permitted env) ops .init) :
    Always env Balanced ops .init :=
  h.always
    (fun _ op hs hop => hs.step hop (henv.not_spoils op) (henv.not_loses op))
    (fun _ hs => hs.balanced) accounted_init

instance (env : Env α) (s : State V α) (op : Op V α) :
    Decidable (Permitted env s op) :=
  match op with
  | .copyAssign v other => inferInstanceAs
    (Decidable (s.vector v ≠ none ∧ s.vector other ≠ none))
  | .moveAssign v other => inferInstanceAs
    (Decidable (s.vector v ≠ none ∧ s.vector other ≠ none))
  | .reserve v newCapacity => inferInstanceAs (Decidable
    (s.vector v ≠ none ∧ (env.sizeof * newCapacity < 2 ^ 64 ∨
      env.newThrows s.allocations (sizeT (env.sizeof * newCapacity)) = true)))
  | .construct v => inferInstanceAs (Decidable (Allowed env s (.construct v)))
  | .copyConstruct v other => inferInstanceAs
    (Decidable (Allowed env s (.copyConstruct v other)))
  | .moveConstruct v other => inferInstanceAs
    (Decidable (Allowed env s (.moveConstruct v other)))
  | .pushBack v x => inferInstanceAs
    (Decidable (Allowed env s (.pushBack v x)))
  | .pushBackAt v other index => inferInstanceAs
    (Decidable (Allowed env s (.pushBackAt v other index)))
  | .popBack v => inferInstanceAs (Decidable (Allowed env s (.popBack v)))
  | .clear v => inferInstanceAs (Decidable (Allowed env s (.clear v)))
  | .at_ v index => inferInstanceAs (Decidable (Allowed env s (.at_ v index)))
  | .getSize v => inferInstanceAs (Decidable (Allowed env s (.getSize v)))
  | .getCapacity v => inferInstanceAs
    (Decidable (Allowed env s (.getCapacity v)))
  | .destroy v => inferInstanceAs (Decidable (Allowed env s (.destroy v)))

/-- With assignments to and from a vector that was moved from. -/
theorem lifetimes_balance_int : Always intEnv Balanced
    [.construct 0, .pushBack 0 7, .moveConstruct 1 0, .copyAssign 0 1,
      .copyConstruct 2 1, .pushBackAt 2 1 0, .copyAssign 1 2, .moveAssign 2 1,
      .popBack 2, .reserve 2 10, .copyAssign 2 1, .clear 2, .destroy 0,
      .destroy 1, .destroy 2]
    (.init : State ℕ ℕ) :=
  lifetimes_balance (fun _ => rfl) _ (by decide +kernel)

/-- The bytes for `2 ^ 62` elements wrap to none, and the element the vector
has is constructed outside the block. -/
theorem lifetimes_balance_wrapped : ¬ Always intEnv Balanced
    [.construct 0, .pushBack 0 7, .reserve 0 (2 ^ 62)]
    (.init : State ℕ ℕ) := by
  intro h
  obtain ⟨rs, s', hsome, _⟩ := h.performs
  have hnone : perform intEnv [.construct 0, .pushBack 0 7,
      .reserve 0 (2 ^ 62)] (.init : State ℕ ℕ) = none := rfl
  rw [hnone] at hsome
  cases hsome

/-! ## With exceptions -/

/-- No operation of the run loses or spoils elements. -/
theorem lifetimes_balance_throwing (ops : List (Op V α))
    (h : Meets env (fun s op => Permitted env s op ∧ ¬ Loses env s op ∧
      ¬ Spoils env s op) ops .init) :
    Always env Balanced ops .init :=
  h.always (fun _ _ hs hop => hs.step hop.1 hop.2.2 hop.2.1)
    (fun _ hs => hs.balanced) accounted_init

/-- An element that cannot be moved without a copy, and whose copy number `k`
throws. -/
def throwingEnv (k : ℕ) : Env ℕ :=
  { intEnv with
    nothrowMove := false
    copyThrows := fun i => decide (i = k) }

/-- The `push_back` that grows is thrown out of by the first copy into the new
block, and is tried again. -/
theorem lifetimes_balance_throwing_first : Always (throwingEnv 2) Balanced
    [.construct 0, .pushBack 0 7, .pushBack 0 8, .pushBack 0 8, .destroy 0]
    (.init : State ℕ ℕ) :=
  lifetimes_balance_throwing _ (by decide +kernel)

/-- A copy throws when one element is in the new block of a `reserve`. That
element is never destroyed. -/
theorem lifetimes_balance_throwing_second : ¬ Always (throwingEnv 5) Balanced
    [.construct (), .pushBack () 7, .pushBack () 8, .reserve () 10,
      .destroy ()]
    (.init : State Unit ℕ) := by
  intro h
  obtain ⟨rs, s', hperform, hbalanced⟩ := h.performs
  have hend : (perform (throwingEnv 5) [.construct (), .pushBack () 7,
      .pushBack () 8, .reserve () 10, .destroy ()]
      (.init : State Unit ℕ)).map
        (fun p => (p.2.vector (), p.2.constructed, p.2.destroyed)) =
      some (none, 5, 4) := by decide +kernel
  rw [hperform, Option.map_some, Option.some.injEq, Prod.mk.injEq,
    Prod.mk.injEq] at hend
  obtain ⟨hgone, hconstructed, hdestroyed⟩ :
      s'.vector () = none ∧ s'.constructed = 5 ∧ s'.destroyed = 4 := hend
  have hdone := hbalanced.done (fun _ => hgone)
  omega

end LearningCpp.CustomVector
