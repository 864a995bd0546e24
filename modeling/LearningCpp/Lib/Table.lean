import Mathlib

/-!
# Tables with a count

An array of which the first `n` entries are in use. Entries are added at the
end; one is removed by copying the last entry over it, which changes the order
of the others and nothing else.
-/

namespace LearningCpp.Lib

variable {α : Type*} {f g : ℕ → α} {n : ℕ}

/-- The first `n` entries. -/
def entries (f : ℕ → α) (n : ℕ) : List α := (List.range n).map f

@[simp] theorem length_entries : (entries f n).length = n := by
  simp [entries]

theorem mem_entries {a : α} : a ∈ entries f n ↔ ∃ k < n, f k = a := by
  simp [entries]

theorem getElem_entries {k : ℕ} (hk : k < (entries f n).length) :
    (entries f n)[k] = f k := by
  simp [entries]

theorem entries_succ : entries f (n + 1) = entries f n ++ [f n] := by
  simp [entries, List.range_succ]

theorem entries_congr (h : ∀ k < n, f k = g k) : entries f n = entries g n := by
  refine List.map_congr_left ?_
  intro k hk
  exact h k (List.mem_range.1 hk)

/-- An entry added at the end. -/
theorem entries_push (a : α) :
    entries (Function.update f n a) (n + 1) = entries f n ++ [a] := by
  rw [entries_succ, Function.update_self]
  refine congrArg (· ++ [a]) (entries_congr ?_)
  intro k hk
  exact Function.update_of_ne (by omega) _ _

/-- The last entry copied over entry `j`: that one is lost and no other. -/
theorem swapRemove_perm {j : ℕ} (hj : j < n + 1) :
    (f j :: entries (Function.update f j (f n)) n).Perm
      (entries f (n + 1)) := by
  have hlast : (entries f (n + 1)).Perm (f n :: entries f n) := by
    rw [entries_succ]
    exact List.perm_append_singleton _ _
  refine List.Perm.trans ?_ hlast.symm
  rcases Nat.lt_succ_iff_lt_or_eq.1 hj with hlt | rfl
  · have hrange : (List.range n).Perm (j :: (List.range n).erase j) :=
      List.perm_cons_erase (List.mem_range.2 hlt)
    -- Away from `j` the copy changes nothing.
    have hrest : ((List.range n).erase j).map (Function.update f j (f n)) =
        ((List.range n).erase j).map f := by
      refine List.map_congr_left ?_
      intro k hk
      have hne := ((List.nodup_range).mem_erase_iff.1 hk).1
      exact Function.update_of_ne hne _ _
    have hnew := hrange.map (Function.update f j (f n))
    have hold := hrange.map f
    rw [List.map_cons, Function.update_self, hrest] at hnew
    calc List.Perm (f j :: entries (Function.update f j (f n)) n)
          (f j :: f n :: ((List.range n).erase j).map f) := hnew.cons _
      List.Perm _ (f n :: f j :: ((List.range n).erase j).map f) :=
        .swap _ _ _
      List.Perm _ (f n :: entries f n) := hold.symm.cons _
  · refine List.Perm.of_eq (congrArg _ (entries_congr ?_))
    intro k hk
    exact Function.update_of_ne (by omega) _ _

end LearningCpp.Lib
