import Mathlib

/-!
# Relations without cycles

Taking edges away keeps a relation free of cycles. Adding one keeps it so if its
end does not lead back to its start.
-/

namespace LearningCpp.Lib

open Relation

variable {α : Type*} {r r' : α → α → Prop} {a b : α}

def Acyclic (r : α → α → Prop) : Prop := ∀ x, ¬ TransGen r x x

theorem Acyclic.mono (h : Acyclic r) (hr : ∀ x y, r' x y → r x y) :
    Acyclic r' := fun x hx => h x (TransGen.mono hr x x hx)

/-- A rank that grows along the edges. -/
theorem Acyclic.of_rank {β : Type*} [Preorder β] (rank : α → β)
    (hr : ∀ x y, r x y → rank x < rank y) : Acyclic r := by
  intro x hx
  have hlt : ∀ {x y}, TransGen r x y → rank x < rank y := by
    intro x y hxy
    induction hxy with
    | single hxy => exact hr _ _ hxy
    | tail _ hyz ih => exact ih.trans (hr _ _ hyz)
  exact lt_irrefl _ (hlt hx)

theorem Acyclic.not_reaches (h : Acyclic r) (hab : r a b) :
    ¬ ReflTransGen r b a := fun hba => h a (.head' hab hba)

/-- A path in the relation with an edge more uses that edge at most once, if it
does not lead back. -/
theorem transGen_add_edge (hba : ¬ ReflTransGen r b a) {x y : α}
    (h : TransGen (fun x y => r x y ∨ (x = a ∧ y = b)) x y) :
    TransGen r x y ∨ (ReflTransGen r x a ∧ ReflTransGen r b y) := by
  induction h with
  | single hxy =>
      rcases hxy with hxy | ⟨rfl, rfl⟩
      · exact .inl (.single hxy)
      · exact .inr ⟨.refl, .refl⟩
  | tail _ hyz ih =>
      rcases hyz with hyz | ⟨rfl, rfl⟩
      · rcases ih with hxy | ⟨hxa, hby⟩
        · exact .inl (hxy.tail hyz)
        · exact .inr ⟨hxa, hby.tail hyz⟩
      · rcases ih with hxy | ⟨_, hby⟩
        · exact .inr ⟨hxy.to_reflTransGen, .refl⟩
        · exact absurd hby hba

theorem Acyclic.add_edge (h : Acyclic r) (hba : ¬ ReflTransGen r b a) :
    Acyclic (fun x y => r x y ∨ (x = a ∧ y = b)) := by
  intro x hx
  rcases transGen_add_edge hba hx with hx | ⟨hxa, hbx⟩
  · exact h x hx
  · exact hba (hbx.trans hxa)

/-- Induction along the edges, among finitely many. -/
theorem Acyclic.induction (h : Acyclic r) {S : Set α} (hS : S.Finite)
    {P : α → Prop} (step : ∀ x ∈ S, (∀ y ∈ S, r y x → P y) → P x) :
    ∀ x ∈ S, P x := by
  have hirrefl : Std.Irrefl (TransGen r) := ⟨h⟩
  have htrans : IsTrans α (TransGen r) := ⟨fun _ _ _ => TransGen.trans⟩
  have horder : IsStrictOrder α (TransGen r) := ⟨⟩
  have hwf : S.WellFoundedOn (TransGen r) := hS.wellFoundedOn
  intro x hx
  exact hwf.induction hx fun x hx ih =>
    step x hx fun y hy hyx => ih y hy (.single hyx)

end LearningCpp.Lib
