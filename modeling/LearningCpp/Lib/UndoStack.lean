import Mathlib

/-!
# Undo stacks

A value that is changed together with a stack of records, each of which says
how to take one change back. Undoing may fail. The question such a design has
to answer is whether the records on the stack can be undone from the present
value, and what that gives; a record alone does not say, because what it does
depends on the value it meets.

`Unwinds` is the answer as a relation, and `Above` its form for runs: the
present value unwinds to that of an earlier moment, as long as the stack of that
moment has not been cut into. `UnwindsIn` asks in addition that every value on
the way down be a good one.
-/

namespace LearningCpp.Lib

variable {σ κ : Type*} {undo : κ → σ → Option σ}

/-- Undoing the records one after the other takes `s` to `base`. -/
inductive Unwinds (undo : κ → σ → Option σ) : σ → List κ → σ → Prop where
  | nil {s : σ} : Unwinds undo s [] s
  | cons {k : κ} {ks : List κ} {s s' base : σ} (hk : undo k s = some s')
      (h : Unwinds undo s' ks base) : Unwinds undo s (k :: ks) base

theorem Unwinds.head {k : κ} {ks : List κ} {s base : σ}
    (h : Unwinds undo s (k :: ks) base) :
    ∃ s', undo k s = some s' ∧ Unwinds undo s' ks base := by
  cases h with
  | cons hk h => exact ⟨_, hk, h⟩

/-- The records can be undone one after the other, and all values on the way
satisfy `P`. -/
inductive UnwindsIn (undo : κ → σ → Option σ) (P : σ → Prop) :
    σ → List κ → Prop where
  | nil {s : σ} (hs : P s) : UnwindsIn undo P s []
  | cons {k : κ} {ks : List κ} {s s' : σ} (hs : P s) (hk : undo k s = some s')
      (h : UnwindsIn undo P s' ks) : UnwindsIn undo P s (k :: ks)

section UnwindsIn

variable {P : σ → Prop}

theorem UnwindsIn.here {ks : List κ} {s : σ} (h : UnwindsIn undo P s ks) :
    P s := by
  cases h with
  | nil hs => exact hs
  | cons hs _ _ => exact hs

theorem UnwindsIn.head {k : κ} {ks : List κ} {s : σ}
    (h : UnwindsIn undo P s (k :: ks)) :
    ∃ s', undo k s = some s' ∧ UnwindsIn undo P s' ks := by
  cases h with
  | cons _ hk h => exact ⟨_, hk, h⟩

end UnwindsIn

/-- What may happen to a value and its stack: a change that can be undone, or
the undoing of the latest. -/
inductive Changes (undo : κ → σ → Option σ) :
    σ × List κ → σ × List κ → Prop where
  | none {s : σ} {ks : List κ} : Changes undo (s, ks) (s, ks)
  | push {k : κ} {ks : List κ} {s s' : σ} (hk : undo k s' = some s) :
      Changes undo (s, ks) (s', k :: ks)
  | pop {k : κ} {ks : List κ} {s s' : σ} (hk : undo k s = some s') :
      Changes undo (s, k :: ks) (s', ks)

/-- The present value is some undoable changes away from `base`. -/
def Above (undo : κ → σ → Option σ) (base s : σ × List κ) : Prop :=
  ∃ since, s.2 = since ++ base.2 ∧ Unwinds undo s.1 since base.1

theorem Above.refl (base : σ × List κ) : Above undo base base :=
  ⟨[], rfl, .nil⟩

theorem Above.step {base s s' : σ × List κ} (h : Above undo base s)
    (hs : Changes undo s s') (hkept : base.2 <:+ s'.2) :
    Above undo base s' := by
  obtain ⟨since, hstack, hunwinds⟩ := h
  cases hs with
  | none => exact ⟨since, hstack, hunwinds⟩
  | push hk => exact ⟨_ :: since, congrArg _ hstack, .cons hk hunwinds⟩
  | @pop k ks s s' hk =>
      cases since with
      | nil =>
          -- The record undone would be one of the earlier moment's.
          have hstack : k :: ks = base.2 := hstack
          have hlen : base.2.length ≤ ks.length := hkept.length_le
          rw [← hstack, List.length_cons] at hlen
          omega
      | cons k' since =>
          cases hstack
          obtain ⟨s'', hk', h⟩ := hunwinds.head
          rw [hk] at hk'
          cases hk'
          exact ⟨since, rfl, h⟩

end LearningCpp.Lib
