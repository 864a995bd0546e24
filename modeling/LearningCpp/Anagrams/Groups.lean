import LearningCpp.Anagrams.Model

/-!
# Grouping and testing agree

Both programs count letters, so both are about how often each letter occurs: a
string's tally. Over the 26 letters the tally says how often any character
occurs, so two strings have the same one exactly if one is a permutation of the
other. What is left to show of the grouping is that grouping by any key neither
loses nor splits anything, which is a fact about the loop and not about letters.
-/

namespace LearningCpp.Anagrams

open LearningCpp.Lib

/-- A string over `'a'..'z'`. -/
def Letters (s : Text) : Prop := ∀ c ∈ s, 'a' ≤ c ∧ c ≤ 'z'

instance (s : Text) : Decidable (Letters s) :=
  inferInstanceAs (Decidable (∀ c ∈ s, _))

/-- How often each letter occurs. -/
def tally (s : Text) : Counts := fun i =>
  s.countP (fun c => decide (index c = some i))

theorem exists_index {c : Char} (h : 'a' ≤ c ∧ c ≤ 'z') :
    ∃ i, index c = some i := by
  have hlow : 97 ≤ c.toNat := h.1
  have hhigh : c.toNat ≤ 122 := h.2
  have hin : 'a'.toNat ≤ c.toNat ∧ c.toNat - 'a'.toNat < 26 := by
    show 97 ≤ c.toNat ∧ c.toNat - 97 < 26
    omega
  exact ⟨_, dif_pos hin⟩

theorem index_injective {c c' : Char} {i : Fin 26} (h : index c = some i)
    (h' : index c' = some i) : c = c' := by
  unfold index at h h'
  split at h
  · next hin =>
      split at h'
      · next hin' =>
          cases h
          have heq := congrArg Fin.val (Option.some.inj h')
          simp only at heq
          have hnat : c'.toNat = c.toNat := by omega
          exact (Char.toNat_inj.1 hnat).symm
      · cases h'
  · cases h

/-- A loop over the letters of a string. -/
theorem foldlM_add {s : Text} (hs : Letters s) (by_ : Int) (counts : Counts) :
    s.foldlM (add by_) counts = some (fun i => counts i + by_ * tally s i) := by
  induction s generalizing counts with
  | nil =>
      refine congrArg some (funext fun i => ?_)
      simp [tally]
  | cons c s ih =>
      obtain ⟨hc, hs⟩ := List.forall_mem_cons.1 hs
      obtain ⟨j, hj⟩ := exists_index hc
      rw [List.foldlM_cons, add, hj]
      refine (ih hs _).trans (congrArg some (funext fun i => ?_))
      have hstep : tally (c :: s) i = tally s i + if j = i then 1 else 0 := by
        unfold tally
        rw [List.countP_cons, hj]
        simp only [Option.some.injEq, decide_eq_true_eq]
        split
        · rfl
        · rfl
      rw [hstep]
      by_cases hi : i = j
      · subst hi
        rw [Function.update_self, if_pos rfl]
        ring
      · rw [Function.update_of_ne hi, if_neg (Ne.symm hi), add_zero]

/-- A letter occurs as often as its place in the tally says. -/
theorem tally_index {c : Char} {i : Fin 26} (h : index c = some i)
    (s : Text) : tally s i = s.count c := by
  unfold tally List.count
  congr 1
  refine List.countP_congr ?_
  intro c' _
  rw [decide_eq_true_eq, beq_iff_eq]
  constructor
  · intro h'
    exact index_injective h' h
  · rintro rfl
    exact h

/-- The strings with a string's tally are its permutations. -/
theorem tally_eq_iff {s t : Text} (hs : Letters s) (ht : Letters t) :
    tally s = tally t ↔ t.Perm s := by
  constructor
  · intro h
    rw [List.perm_iff_count]
    intro c
    by_cases hc : 'a' ≤ c ∧ c ≤ 'z'
    · obtain ⟨i, hi⟩ := exists_index hc
      have hcount := congrFun h i
      rw [tally_index hi, tally_index hi] at hcount
      exact (Nat.cast_injective hcount).symm
    · rw [List.count_eq_zero_of_not_mem (fun hmem => hc (ht c hmem)),
        List.count_eq_zero_of_not_mem (fun hmem => hc (hs c hmem))]
  · intro h
    funext i
    exact congrArg Nat.cast (h.countP_eq _).symm

/-- `isAnagram` decides whether the second string is a permutation of the
first. -/
theorem isAnagram_eq {s t : Text} (hs : Letters s) (ht : Letters t) :
    isAnagram s t = some (decide (t.Perm s)) := by
  have hzero : (∀ i, (0 : Counts) i + 1 * tally s i + -1 * tally t i = 0) ↔
      t.Perm s := by
    rw [← tally_eq_iff hs ht, funext_iff]
    refine forall_congr' fun i => ?_
    show 0 + 1 * tally s i + -1 * tally t i = 0 ↔ _
    constructor
    · intro h
      omega
    · intro h
      omega
  unfold isAnagram
  rw [foldlM_add hs]
  show (do
    let chars ← t.foldlM (add (-1)) (fun i => (0 : Counts) i + 1 * tally s i)
    some (decide (∀ i, chars i = 0))) = _
  rw [foldlM_add ht]
  exact congrArg some (decide_eq_decide.2 hzero)

/-! ## The groups -/

/-- The loop groups the strings by their tallies. -/
theorem foldlM_addToGroup {strs : List Text} (h : ∀ s ∈ strs, Letters s)
    (groups : AList (fun _ : Counts => List Text)) :
    strs.foldlM addToGroup groups =
      some (strs.foldl
        (fun groups s => modifyAt groups (tally s) [] (· ++ [s])) groups) := by
  induction strs generalizing groups with
  | nil => rfl
  | cons s strs ih =>
      obtain ⟨hs, hstrs⟩ := List.forall_mem_cons.1 h
      have hcounts : s.foldlM (add 1) 0 = some (tally s) := by
        rw [foldlM_add hs]
        refine congrArg some (funext fun i => ?_)
        show 0 + 1 * tally s i = tally s i
        omega
      rw [List.foldlM_cons, addToGroup, hcounts]
      exact ih hstrs _

/-- An entry a loop over the groups comes to: a tally, and the strings with that
tally. -/
theorem mem_groups (visit : Visit (Σ _ : Counts, List Text))
    {strs : List Text} {e : Σ _ : Counts, List Text}
    (he : e ∈ visit.order (groupBy tally strs).entries) :
    e.2 ≠ [] ∧ ∀ s ∈ e.2, s ∈ strs ∧ tally s = e.1 := by
  have hlookup : (groupBy tally strs).lookup e.1 = some e.2 :=
    visit.mem_order.1 he
  rw [lookup_groupBy] at hlookup
  split at hlookup
  · cases hlookup
  · next hne =>
      rw [← Option.some.inj hlookup]
      refine ⟨hne, ?_⟩
      intro s hs
      obtain ⟨hs, htally⟩ := List.mem_filter.1 hs
      exact ⟨hs, of_decide_eq_true htally⟩

/-- The groups are not empty and together are the strings, and two strings are
in the same group exactly if `isAnagram` says so, which it does exactly for
permutations. -/
theorem groupAnagrams_isAnagram (visit : Visit (Σ _ : Counts, List Text))
    {strs : List Text} (h : ∀ s ∈ strs, Letters s) :
    ∃ out : List (List Text), groupAnagrams visit strs = some out ∧
      (∀ group ∈ out, group ≠ []) ∧ out.flatten.Perm strs ∧
      (∀ (a b : ℕ) (group group' : List Text),
        out[a]? = some group → out[b]? = some group' →
        ∀ s ∈ group, ∀ t ∈ group', (a = b ↔ isAnagram s t = some true)) ∧
      ∀ s ∈ strs, ∀ t ∈ strs, isAnagram s t = some (decide (t.Perm s)) := by
  have hgroups : groupAnagrams visit strs =
      some ((visit.order (groupBy tally strs).entries).map Sigma.snd) := by
    unfold groupAnagrams
    rw [foldlM_addToGroup h]
    rfl
  have hanagram : ∀ s ∈ strs, ∀ t ∈ strs,
      isAnagram s t = some (decide (t.Perm s)) :=
    fun s hs t ht => isAnagram_eq (h s hs) (h t ht)
  refine ⟨_, hgroups, ?_, ?_, ?_, hanagram⟩
  · intro group hgroup
    obtain ⟨e, he, rfl⟩ := List.mem_map.1 hgroup
    exact (mem_groups visit he).1
  · exact ((visit.perm _).map _).flatten.trans (groupBy_flatten strs)
  · intro a b group group' ha hb s hs t ht
    rw [List.getElem?_map] at ha hb
    obtain ⟨e, hea, rfl⟩ := Option.map_eq_some_iff.1 ha
    obtain ⟨e', heb, rfl⟩ := Option.map_eq_some_iff.1 hb
    obtain ⟨hs, hkey⟩ :=
      (mem_groups visit (List.mem_of_getElem? hea)).2 s hs
    obtain ⟨ht, hkey'⟩ :=
      (mem_groups visit (List.mem_of_getElem? heb)).2 t ht
    rw [hanagram s hs t ht, Option.some.injEq, decide_eq_true_eq,
      ← tally_eq_iff (h s hs) (h t ht), hkey, hkey']
    constructor
    · rintro rfl
      rw [hea] at heb
      rw [Option.some.inj heb]
    · intro heq
      -- The keys are gone through once each.
      have hnodup := visit.nodup_keys (groupBy tally strs)
      refine (List.getElem?_inj ?_ hnodup).1 ?_
      · rw [List.length_map]
        exact (List.getElem?_eq_some_iff.1 hea).1
      · rw [List.getElem?_map, List.getElem?_map, hea, heb, Option.map_some,
          Option.map_some, heq]

/-- Three strings, two of them anagrams of each other. -/
theorem groupAnagrams_isAnagram_three : ∃ out : List (List Text),
    groupAnagrams .inOrder [['a', 'b'], ['c'], ['b', 'a']] = some out ∧
      out.flatten.Perm [['a', 'b'], ['c'], ['b', 'a']] := by
  have hletters : ∀ s ∈ [['a', 'b'], ['c'], ['b', 'a']], Letters s := by
    simp [Letters]
  obtain ⟨out, hout, _, hperm, _⟩ :=
    groupAnagrams_isAnagram .inOrder hletters
  exact ⟨out, hout, hperm⟩

end LearningCpp.Anagrams
