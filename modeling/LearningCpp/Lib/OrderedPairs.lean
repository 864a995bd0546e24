import Mathlib

/-!
# Pairs of positions by their letters

How many pairs of positions there are, the first before the second in some
order, that have two given letters. A position that comes after all others
adds one pair for each of them that has the first letter, if it has the second
itself.
-/

namespace LearningCpp.Lib

variable {ι κ : Type*} [DecidableEq κ] (r : ι → ι → Prop)
  [DecidableRel r] (letter : ι → κ)

/-- The pairs themselves. -/
def pairSet (positions : Finset ι) (j k : κ) : Finset (ι × ι) :=
  (positions ×ˢ positions).filter
    (fun p => r p.1 p.2 ∧ letter p.1 = j ∧ letter p.2 = k)

/-- The positions with a letter. -/
def letterCount (positions : Finset ι) (j : κ) : ℕ :=
  (positions.filter (fun i => letter i = j)).card

variable {r letter} {positions : Finset ι} {i : ι} {j k : κ}

theorem mem_pairSet {p : ι × ι} :
    p ∈ pairSet r letter positions j k ↔
      p.1 ∈ positions ∧ p.2 ∈ positions ∧ r p.1 p.2 ∧ letter p.1 = j ∧
        letter p.2 = k := by
  simp only [pairSet, Finset.mem_filter, Finset.mem_product, and_assoc]

@[simp] theorem pairSet_empty : pairSet r letter ∅ j k = ∅ := rfl

variable [DecidableEq ι]

theorem letterCount_insert (hi : i ∉ positions) :
    letterCount letter (insert i positions) j =
      letterCount letter positions j + if letter i = j then 1 else 0 := by
  rw [letterCount, Finset.filter_insert]
  split
  · rw [Finset.card_insert_of_notMem]
    · rfl
    · exact fun h => hi (Finset.mem_of_mem_filter i h)
  · rfl

/-- A position after all others. -/
theorem card_pairSet_insert (hlast : ∀ a ∈ positions, r a i ∧ ¬ r i a)
    (hi : ¬ r i i) :
    (pairSet r letter (insert i positions) j k).card =
      (pairSet r letter positions j k).card +
        if letter i = k then letterCount letter positions j else 0 := by
  have hnew : i ∉ positions := fun h => hi (hlast i h).1
  by_cases hk : letter i = k
  · rw [if_pos hk, letterCount,
      ← Finset.card_image_of_injective (positions.filter _)
        (Prod.mk_left_injective i), ← Finset.card_union_of_disjoint]
    · refine congrArg Finset.card ?_
      ext p
      obtain ⟨a, b⟩ := p
      simp only [mem_pairSet, Finset.mem_insert, Finset.mem_union,
        Finset.mem_image, Finset.mem_filter, Prod.mk.injEq]
      constructor
      · intro h
        obtain ⟨ha, hb, hab, hj, hk'⟩ := h
        rcases ha with rfl | ha
        · rcases hb with rfl | hb
          · exact absurd hab hi
          · exact absurd hab (hlast b hb).2
        · rcases hb with rfl | hb
          · exact .inr ⟨a, ⟨ha, hj⟩, rfl, rfl⟩
          · exact .inl ⟨ha, hb, hab, hj, hk'⟩
      · intro h
        rcases h with ⟨ha, hb, h⟩ | ⟨c, ⟨hc, hj⟩, rfl, rfl⟩
        · exact ⟨.inr ha, .inr hb, h⟩
        · exact ⟨.inr hc, .inl rfl, (hlast c hc).1, hj, hk⟩
    · refine Finset.disjoint_left.2 ?_
      intro p hp himage
      obtain ⟨c, _, heq⟩ := Finset.mem_image.1 himage
      rw [← heq] at hp
      exact hnew (mem_pairSet.1 hp).2.1
  · rw [if_neg hk, Nat.add_zero]
    refine congrArg Finset.card ?_
    ext p
    obtain ⟨a, b⟩ := p
    simp only [mem_pairSet, Finset.mem_insert]
    constructor
    · intro h
      obtain ⟨ha, hb, hab, hj, hk'⟩ := h
      rcases hb with rfl | hb
      · exact absurd hk' hk
      · rcases ha with rfl | ha
        · exact absurd hab (hlast b hb).2
        · exact ⟨ha, hb, hab, hj, hk'⟩
    · intro h
      exact ⟨.inr h.1, .inr h.2.1, h.2.2⟩

/-- Twice the pairs are no more than the pairs of different positions. -/
theorem two_mul_card_pairSet_le (hasymm : ∀ a b, r a b → ¬ r b a)
    {all : Finset ι} (hall : positions ⊆ all) :
    2 * (pairSet r letter positions j k).card ≤
      all.card * all.card - all.card := by
  have hsub : pairSet r letter positions j k ∪
      (pairSet r letter positions j k).image Prod.swap ⊆ all.offDiag := by
    intro p hp
    rw [Finset.mem_offDiag]
    rcases Finset.mem_union.1 hp with h | h
    · obtain ⟨ha, hb, hab, _⟩ := mem_pairSet.1 h
      refine ⟨hall ha, hall hb, ?_⟩
      intro heq
      rw [heq] at hab
      exact hasymm _ _ hab hab
    · obtain ⟨q, hq, heq⟩ := Finset.mem_image.1 h
      obtain ⟨ha, hb, hab, _⟩ := mem_pairSet.1 hq
      rw [← heq]
      refine ⟨hall hb, hall ha, ?_⟩
      intro heq
      rw [Prod.fst_swap, Prod.snd_swap] at heq
      rw [heq] at hab
      exact hasymm _ _ hab hab
  have hdisjoint : Disjoint (pairSet r letter positions j k)
      ((pairSet r letter positions j k).image Prod.swap) := by
    refine Finset.disjoint_left.2 ?_
    intro p hp himage
    obtain ⟨q, hq, heq⟩ := Finset.mem_image.1 himage
    rw [← heq] at hp
    exact hasymm _ _ (mem_pairSet.1 hp).2.2.1 (mem_pairSet.1 hq).2.2.1
  have hcard := Finset.card_le_card hsub
  rw [Finset.card_union_of_disjoint hdisjoint,
    Finset.card_image_of_injective _ Prod.swap_injective,
    Finset.offDiag_card] at hcard
  omega

end LearningCpp.Lib
