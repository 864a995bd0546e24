import LearningCpp.Lib.Matching

/-!
# Players and trainers

`leetcode/medium/2410.cpp`. Players and trainers are gone through in
increasing order, and the next player is matched with the first trainer that
is good enough.

What is left of the two sorted lists is all the loop depends on. Its next
trainer is the least there is, and its next player the least there is, so each
turn is one of the two rules for the least offer. `out` and the indices do not
pass `INT_MAX`.
-/

namespace LearningCpp.Players

open LearningCpp.Lib

/-- The loop, on the players from `players_index` on and the trainers from
`trainers_index` on. -/
def loop (out : ℕ) : List Int → List Int → ℕ
  | player :: players, trainer :: trainers =>
      if player ≤ trainer then loop (out + 1) players trainers
      else loop out (player :: players) trainers
  | _, _ => out

/-- `matchPlayersAndTrainers`. -/
def matchPlayersAndTrainers (players trainers : List Int) : ℕ :=
  loop 0 (players.insertionSort (· ≤ ·)) (trainers.insertionSort (· ≤ ·))

/-- The loop adds the most pairs of what is left. -/
theorem loop_mostPairs (players trainers : List Int) (out : ℕ)
    (hplayers : players.Pairwise (· ≤ ·))
    (htrainers : trainers.Pairwise (· ≤ ·)) :
    ∃ n, loop out players trainers = out + n ∧
      MostPairs (players : Multiset Int) trainers n := by
  induction trainers generalizing players out with
  | nil =>
      refine ⟨0, ?_, mostPairs_of_offers_nil⟩
      cases players <;> rfl
  | cons trainer trainers ih =>
      obtain ⟨hleast, hrest⟩ := List.pairwise_cons.1 htrainers
      cases players with
      | nil => exact ⟨0, rfl, mostPairs_of_demands_nil⟩
      | cons player players =>
          obtain ⟨hfirst, hothers⟩ := List.pairwise_cons.1 hplayers
          rw [loop]
          split
          · next hmeets =>
              obtain ⟨n, hloop, hmost⟩ := ih players (out + 1) hothers hrest
              refine ⟨n + 1, ?_, hmost.pair hmeets hleast⟩
              rw [hloop]
              omega
          · next hless =>
              obtain ⟨n, hloop, hmost⟩ := ih _ out hplayers hrest
              refine ⟨n, hloop, hmost.skip ?_⟩
              intro p hp hle
              rcases List.mem_cons.1 hp with heq | hp
              · exact hless (heq ▸ hle)
              · exact hless (le_trans (hfirst p hp) hle)

/-- **`matchPlayersAndTrainers` is optimal**: some matching has as many pairs,
and none has more. -/
theorem matchPlayersAndTrainers_isGreatest (players trainers : List Int) :
    IsGreatest {k | ∃ pairs, Matching (players : Multiset Int) trainers pairs ∧
      pairs.card = k} (matchPlayersAndTrainers players trainers) := by
  obtain ⟨n, hloop, hmost⟩ := loop_mostPairs
    (players.insertionSort (· ≤ ·)) (trainers.insertionSort (· ≤ ·)) 0
    (List.pairwise_insertionSort _ players)
    (List.pairwise_insertionSort _ trainers)
  rw [Multiset.coe_eq_coe.2 (List.perm_insertionSort _ players),
    Multiset.coe_eq_coe.2 (List.perm_insertionSort _ trainers)] at hmost
  rw [matchPlayersAndTrainers, hloop, Nat.zero_add]
  exact hmost

example : matchPlayersAndTrainers [4, 7, 9] [8, 2, 5, 8] = 2 := by decide

end LearningCpp.Players
