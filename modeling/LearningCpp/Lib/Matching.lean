import Mathlib

/-!
# Matchings along an order

Demands and offers of one ordered type, where an offer meets the demands that
are no greater. A matching pairs some of them, each at most once; demands and
offers are multisets, so equal ones are told apart by how many there are.

The least offer decides the next step. If it does not meet the least demand it
meets none and can be dropped; if it does, some greatest matching pairs these
two, because whatever else they are paired with can be paired instead.
-/

namespace LearningCpp.Lib

/-- An element of a multiset with one more, taken out of where it comes from
if it comes from anywhere. -/
theorem map_le_cons {α β : Type*} {f : α → β} {m : Multiset α} {b : β}
    {s : Multiset β} (h : m.map f ≤ b ::ₘ s) :
    m.map f ≤ s ∨ ∃ a m', m = a ::ₘ m' ∧ f a = b ∧ m'.map f ≤ s := by
  by_cases hb : b ∈ m.map f
  · obtain ⟨a, ha, heq⟩ := Multiset.mem_map.1 hb
    obtain ⟨m', hm'⟩ := Multiset.exists_cons_of_mem ha
    refine .inr ⟨a, m', hm', heq, ?_⟩
    rw [hm', Multiset.map_cons, heq] at h
    exact (Multiset.cons_le_cons_iff b).1 h
  · exact .inl ((Multiset.le_cons_of_notMem hb).1 h)

variable {τ : Type*} [Preorder τ]

/-- Pairs of a demand and an offer that meets it. -/
structure Matching (demands offers : Multiset τ) (pairs : Multiset (τ × τ)) :
    Prop where
  demands : pairs.map Prod.fst ≤ demands
  offers : pairs.map Prod.snd ≤ offers
  meets : ∀ pair ∈ pairs, pair.1 ≤ pair.2

/-- The most pairs there can be. -/
def MostPairs (demands offers : Multiset τ) (n : ℕ) : Prop :=
  IsGreatest {k | ∃ pairs, Matching demands offers pairs ∧ pairs.card = k} n

variable {demands offers : Multiset τ} {pairs : Multiset (τ × τ)} {d o : τ}
  {n : ℕ}

theorem mostPairs_of_demands_nil : MostPairs (0 : Multiset τ) offers 0 := by
  constructor
  · exact ⟨0, ⟨Multiset.zero_le _, Multiset.zero_le _, by simp⟩, rfl⟩
  · intro k hk
    obtain ⟨pairs, hpairs, hcard⟩ := hk
    have hle := Multiset.card_le_card hpairs.demands
    rw [Multiset.card_map, Multiset.card_zero] at hle
    omega

theorem mostPairs_of_offers_nil : MostPairs demands (0 : Multiset τ) 0 := by
  constructor
  · exact ⟨0, ⟨Multiset.zero_le _, Multiset.zero_le _, by simp⟩, rfl⟩
  · intro k hk
    obtain ⟨pairs, hpairs, hcard⟩ := hk
    have hle := Multiset.card_le_card hpairs.offers
    rw [Multiset.card_map, Multiset.card_zero] at hle
    omega

/-- An offer that meets no demand is dropped. -/
theorem MostPairs.skip (hnone : ∀ d ∈ demands, ¬ d ≤ o)
    (h : MostPairs demands offers n) : MostPairs demands (o ::ₘ offers) n := by
  constructor
  · obtain ⟨pairs, hpairs, hcard⟩ := h.1
    exact ⟨pairs, { hpairs with
      offers := hpairs.offers.trans (Multiset.le_cons_self _ _) }, hcard⟩
  · intro k hk
    obtain ⟨pairs, hpairs, hcard⟩ := hk
    refine h.2 ⟨pairs, { hpairs with offers := ?_ }, hcard⟩
    rcases map_le_cons hpairs.offers with hle | ⟨pair, rest, hrest, heq, _⟩
    · exact hle
    · -- the offer would be paired with a demand it does not meet
      subst hrest
      have hmem := Multiset.mem_cons_self pair rest
      have hdemand := Multiset.mem_of_le hpairs.demands
        (Multiset.mem_map_of_mem Prod.fst hmem)
      refine absurd ?_ (hnone pair.1 hdemand)
      rw [← heq]
      exact hpairs.meets pair hmem

/-- Without the first demand and the least offer a matching loses at most one
pair. -/
theorem Matching.uncons (h : Matching (d ::ₘ demands) (o ::ₘ offers) pairs)
    (hleast : ∀ o' ∈ offers, o ≤ o') :
    ∃ pairs', Matching demands offers pairs' ∧ pairs.card ≤ pairs'.card + 1 := by
  rcases map_le_cons h.demands with hdemands | ⟨a, rest, hrest, _, hdemands⟩
  · -- the demand is in no pair, so only the offer's pair is lost
    rcases map_le_cons h.offers with hoffers | ⟨b, rest, hrest, _, hoffers⟩
    · exact ⟨pairs, ⟨hdemands, hoffers, h.meets⟩, Nat.le_succ _⟩
    · subst hrest
      refine ⟨rest, ⟨?_, hoffers, ?_⟩, (Multiset.card_cons b rest).le⟩
      · rw [Multiset.map_cons] at hdemands
        exact (Multiset.le_cons_self _ _).trans hdemands
      · exact fun pair hpair => h.meets pair (Multiset.mem_cons_of_mem hpair)
  · subst hrest
    have hmeets : ∀ pair ∈ rest, pair.1 ≤ pair.2 :=
      fun pair hpair => h.meets pair (Multiset.mem_cons_of_mem hpair)
    rcases map_le_cons h.offers with hoffers | ⟨b, rest', hrest', hb, hoffers⟩
    · refine ⟨rest, ⟨hdemands, ?_, hmeets⟩, (Multiset.card_cons a rest).le⟩
      rw [Multiset.map_cons] at hoffers
      exact (Multiset.le_cons_self _ _).trans hoffers
    · rcases Multiset.cons_eq_cons.1 hrest' with ⟨_, heq⟩ | ⟨_, other, ha, hother⟩
      · rw [heq] at hdemands hmeets ⊢
        exact ⟨rest', ⟨hdemands, hoffers, hmeets⟩, (Multiset.card_cons a rest').le⟩
      · -- the demand of the offer's pair takes over the first demand's offer
        subst ha hother
        rw [Multiset.map_cons] at hdemands hoffers
        have hoffer : a.2 ∈ offers :=
          Multiset.mem_of_le hoffers (Multiset.mem_cons_self _ _)
        refine ⟨(b.1, a.2) ::ₘ other, ⟨?_, ?_, ?_⟩, ?_⟩
        · rw [Multiset.map_cons]
          exact hdemands
        · rw [Multiset.map_cons]
          exact hoffers
        · intro pair hpair
          rcases Multiset.mem_cons.1 hpair with heq | hpair
          · rw [heq]
            have hpaired := hmeets b (Multiset.mem_cons_self _ _)
            rw [hb] at hpaired
            exact hpaired.trans (hleast a.2 hoffer)
          · exact hmeets pair (Multiset.mem_cons_of_mem hpair)
        · rw [Multiset.card_cons, Multiset.card_cons, Multiset.card_cons]

/-- An offer that is the least and meets a demand is paired with it. -/
theorem MostPairs.pair (hmeets : d ≤ o) (hleast : ∀ o' ∈ offers, o ≤ o')
    (h : MostPairs demands offers n) :
    MostPairs (d ::ₘ demands) (o ::ₘ offers) (n + 1) := by
  constructor
  · obtain ⟨pairs, hpairs, hcard⟩ := h.1
    refine ⟨(d, o) ::ₘ pairs, ⟨?_, ?_, ?_⟩, ?_⟩
    · rw [Multiset.map_cons]
      exact Multiset.cons_le_cons d hpairs.demands
    · rw [Multiset.map_cons]
      exact Multiset.cons_le_cons o hpairs.offers
    · intro pair hpair
      rcases Multiset.mem_cons.1 hpair with heq | hpair
      · rw [heq]
        exact hmeets
      · exact hpairs.meets pair hpair
    · rw [Multiset.card_cons, hcard]
  · intro k hk
    obtain ⟨pairs, hpairs, hcard⟩ := hk
    obtain ⟨pairs', hpairs', hle⟩ := hpairs.uncons hleast
    have hmost := h.2 ⟨pairs', hpairs', rfl⟩
    omega

end LearningCpp.Lib
