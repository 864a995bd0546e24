import Mathlib

/-!
# Tables that are filled once

A table together with the accesses made to it. A program that fills one cell
after the other, from cells it has filled before, reads no cell that is still
to be written; the invariant says so in terms of the cells that are done.
-/

namespace LearningCpp.Lib

variable {κ β : Type*}

/-- An access to a cell, with the value read or written. -/
inductive Access (κ β : Type*) where
  | read (cell : κ) (value : β)
  | write (cell : κ) (value : β)

def Access.cell : Access κ β → κ
  | .read cell _ => cell
  | .write cell _ => cell

/-- A table and the accesses made to it, in their order. -/
structure Memo (κ β : Type*) where
  table : κ → β
  accesses : List (Access κ β)

namespace Memo

/-- A table with one value in all cells. -/
def fill (value : β) : Memo κ β := ⟨fun _ => value, []⟩

def read (m : Memo κ β) (cell : κ) : β × Memo κ β :=
  (m.table cell,
    { m with accesses := m.accesses ++ [.read cell (m.table cell)] })

def write [DecidableEq κ] (m : Memo κ β) (cell : κ) (value : β) : Memo κ β where
  table := Function.update m.table cell value
  accesses := m.accesses ++ [.write cell value]

/-- What is read is what the cell has in the end, and the cell is not written
to afterwards. -/
def ReadsFinal (m : Memo κ β) : Prop :=
  ∀ before cell value after,
    m.accesses = before ++ .read cell value :: after →
      m.table cell = value ∧ ∀ value', .write cell value' ∉ after

/-- The cells that are done have their values, and only they were accessed. -/
structure Settled (value : κ → β) (done : κ → Prop) (m : Memo κ β) : Prop where
  values : ∀ cell, done cell → m.table cell = value cell
  touched : ∀ a ∈ m.accesses, done a.cell
  reads : ∀ cell v, .read cell v ∈ m.accesses → v = value cell
  order : m.accesses.Pairwise (fun a b => ∀ cell v v',
    a = .read cell v → b ≠ .write cell v')

variable {value : κ → β} {done : κ → Prop} {m : Memo κ β} {cell : κ}

theorem Settled.fill (v : β) (hnone : ∀ cell, ¬ done cell) :
    Settled value done (fill v) where
  values := fun cell h => absurd h (hnone cell)
  touched := fun _ h => absurd h List.not_mem_nil
  reads := fun _ _ h => absurd h List.not_mem_nil
  order := .nil

/-- Reading a cell that is done. -/
theorem Settled.read (h : Settled value done m) (hcell : done cell) :
    (m.read cell).1 = value cell ∧ Settled value done (m.read cell).2 := by
  refine ⟨h.values cell hcell, h.values, ?_, ?_, ?_⟩
  · intro a ha
    rcases List.mem_append.1 ha with ha | ha
    · exact h.touched a ha
    · rw [List.mem_singleton.1 ha]
      exact hcell
  · intro c v hv
    rcases List.mem_append.1 hv with hv | hv
    · exact h.reads c v hv
    · cases List.mem_singleton.1 hv
      exact h.values cell hcell
  · refine List.pairwise_append.2 ⟨h.order, List.pairwise_singleton _ _, ?_⟩
    intro a _ b hb c v v' _ heq
    rw [List.mem_singleton.1 hb] at heq
    cases heq

/-- A cell that is left as it is is done. -/
theorem Settled.leave (h : Settled value done m) {done' : κ → Prop}
    (hdone : ∀ c, done' c ↔ done c ∨ c = cell)
    (hvalue : m.table cell = value cell) : Settled value done' m where
  values := by
    intro c hc
    rcases (hdone c).1 hc with hc | heq
    · exact h.values c hc
    · rw [heq]
      exact hvalue
  touched := fun a ha => (hdone _).2 (.inl (h.touched a ha))
  reads := h.reads
  order := h.order

/-- Writing its value to a cell that is not done yet. -/
theorem Settled.write [DecidableEq κ] (h : Settled value done m)
    (hnew : ¬ done cell) {done' : κ → Prop}
    (hdone : ∀ c, done' c ↔ done c ∨ c = cell) :
    Settled value done' (m.write cell (value cell)) where
  values := by
    intro c hc
    by_cases heq : c = cell
    · rw [heq]
      exact Function.update_self _ _ _
    · refine (Function.update_of_ne heq _ _).trans (h.values c ?_)
      exact ((hdone c).1 hc).resolve_right heq
  touched := by
    intro a ha
    rcases List.mem_append.1 ha with ha | ha
    · exact (hdone _).2 (.inl (h.touched a ha))
    · rw [List.mem_singleton.1 ha]
      exact (hdone cell).2 (.inr rfl)
  reads := by
    intro c v hv
    rcases List.mem_append.1 hv with hv | hv
    · exact h.reads c v hv
    · cases List.mem_singleton.1 hv
  order := by
    refine List.pairwise_append.2 ⟨h.order, List.pairwise_singleton _ _, ?_⟩
    intro a ha b hb c v v' hread hwrite
    rw [List.mem_singleton.1 hb] at hwrite
    cases hwrite
    -- the cell was not done, so it was not read before
    rw [hread] at ha
    exact hnew (h.touched _ ha)

theorem Settled.readsFinal (h : Settled value done m) : m.ReadsFinal := by
  intro before cell v after heq
  have hmem : .read cell v ∈ m.accesses := by
    rw [heq]
    exact List.mem_append_right _ List.mem_cons_self
  constructor
  · rw [h.reads cell v hmem]
    exact h.values cell (h.touched _ hmem)
  · intro v' hv'
    have horder := h.order
    rw [heq] at horder
    have hafter := (List.pairwise_cons.1 (List.pairwise_append.1 horder).2.1).1
    exact hafter _ hv' cell v v' rfl rfl

end Memo

end LearningCpp.Lib
