import LearningCpp.CustomVector.Lifetimes

/-!
# The storage blocks

`copy_from` swaps the members of a vector with those of the new block and never
releases what it swapped out. For a constructor that is a null pointer; for an
assignment it is the block the target had. In every run without such an
assignment the blocks that are outstanding are those of the vectors.
-/

namespace LearningCpp.CustomVector

open LearningCpp.Lib Program

variable {V α : Type} {env : Env α} {s : State V α}

/-- The blocks that were not deleted are what the vectors' `first` point to, no
two of them to the same. -/
structure Released (s : State V α) : Prop where
  outstanding : {a : Address | a.slot = 0 ∧ s.block a.block ≠ none} =
    {a | ∃ v m, s.vector v = some m ∧ m.first = some a}
  distinct : ∀ v w m m' a, s.vector v = some m → s.vector w = some m' →
    m.first = some a → m'.first = some a → v = w

/-- The state represents lists, and a block without an owner is gone. -/
def Tidy (env : Env α) (s : State V α) : Prop :=
  ∃ L lost, Represents env s L ∧ Books (· = none) s L lost

theorem tidy_init : Tidy env (State.init : State V α) :=
  ⟨fun _ => none, 0, represents_init, books_init rfl⟩

theorem Tidy.released (h : Tidy env s) : Released s := by
  obtain ⟨L, lost, hrep, hbooks⟩ := h
  refine ⟨?_, ?_⟩
  · ext a
    constructor
    · rintro ⟨hslot, hblock⟩
      obtain ⟨v, m, a', hv, ha', hb⟩ : s.Owned a.block := by
        by_contra hnot
        exact hblock (hbooks.unowned _ hnot)
      obtain ⟨l, _, hm⟩ := hrep.holds v m hv
      refine ⟨v, m, hv, ?_⟩
      cases hm with
      | null => cases ha'
      | buffer _ _ _ =>
          cases ha'
          obtain ⟨b, i⟩ := a
          cases hb
          cases hslot
          rfl
    · rintro ⟨v, m, hv, ha⟩
      obtain ⟨l, _, hm⟩ := hrep.holds v m hv
      cases hm with
      | null => cases ha
      | buffer hb _ _ =>
          cases ha
          exact ⟨rfl, by simp [hb]⟩
  · intro v w m m' a hv hw ha ha'
    by_contra hne
    exact hrep.apart v w m m' hne hv hw a ha a ha' rfl

variable [DecidableEq V]

theorem Tidy.step (h : Tidy env s) {op : Op V α} (hop : Permitted env s op)
    (hspoil : ¬ Spoils env s op) (hleak : ¬ Leaks env s op) :
    ∃ r s', exec env op s = some (r, s') ∧ Tidy env s' := by
  obtain ⟨L, lost, hrep, hbooks⟩ := h
  obtain ⟨r, s', L', j, hleads⟩ := steps hrep hop hspoil
  exact ⟨r, s', hleads.run, L', lost + j, hleads.represents,
    hleads.books rfl (fun hleaks => absurd hleaks hleak) hbooks⟩

/-- No assignment of the run takes a block from its target without releasing
it. -/
theorem blocks_released (henv : env.NoThrow) (ops : List (Op V α))
    (h : Meets env (fun s op => Permitted env s op ∧ ¬ Leaks env s op) ops
      .init) :
    Always env Released ops .init :=
  h.always (fun _ op hs hop => hs.step hop.1 (henv.not_spoils op) hop.2)
    (fun _ hs => hs.released) tidy_init

/-- Blocks are passed on by a growth, two moves and an assignment to what was
moved from. -/
theorem blocks_released_int : Always intEnv Released
    [.construct 0, .pushBack 0 7, .pushBackAt 0 0 0, .copyConstruct 1 0,
      .moveConstruct 2 0, .copyAssign 0 2, .moveAssign 2 1, .reserve 2 10,
      .clear 2, .destroy 0, .destroy 1, .destroy 2]
    (.init : State ℕ ℕ) :=
  blocks_released (fun _ => rfl) _ (by decide +kernel)

/-- Of the three blocks one belongs to no vector after the assignment. -/
theorem blocks_released_assigned : ¬ Always intEnv Released
    [.construct false, .construct true, .copyAssign false true]
    (.init : State Bool ℕ) := by
  intro h
  obtain ⟨rs, s', hperform, hreleased⟩ := h.performs
  have hend : (perform intEnv [.construct false, .construct true,
      .copyAssign false true] (.init : State Bool ℕ)).map
        (fun p => ((p.2.block 0).isSome, p.2.vector false, p.2.vector true)) =
      some (true, some (.of 2 0 0), some (.of 1 0 1)) := by decide +kernel
  rw [hperform, Option.map_some, Option.some.injEq, Prod.mk.injEq,
    Prod.mk.injEq] at hend
  obtain ⟨hblock, hfalse, htrue⟩ : (s'.block 0).isSome = true ∧
      s'.vector false = some (.of 2 0 0) ∧
      s'.vector true = some (.of 1 0 1) := hend
  have hmem : (⟨0, 0⟩ : Address) ∈
      {a : Address | a.slot = 0 ∧ s'.block a.block ≠ none} :=
    ⟨rfl, Option.isSome_iff_ne_none.1 hblock⟩
  rw [hreleased.outstanding] at hmem
  obtain ⟨v, m, hv, ha⟩ := hmem
  cases v with
  | false =>
      rw [hfalse] at hv
      cases hv
      cases ha
  | true =>
      rw [htrue] at hv
      cases hv
      cases ha

end LearningCpp.CustomVector
