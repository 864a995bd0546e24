import Mathlib

/-!
# Orders the standard leaves open

A loop over a hash map goes through the entries in an order no standard fixes,
and `std::sort` puts elements that its comparison does not tell apart in any
order. A program that does either is modelled with the order as a parameter,
about which is known what the standard says; what is proved then holds for
every implementation.
-/

namespace LearningCpp.Lib

variable {κ β α : Type*}

/-- An order in which a loop goes through the elements of a container. -/
structure Visit (α : Type*) where
  order : List α → List α
  perm : ∀ l, (order l).Perm l

/-- The order they are in. -/
def Visit.inOrder : Visit α := ⟨id, fun _ => .refl _⟩

/-- A sorting function for a comparison, of which `r` is the negated converse:
no element comes before one that is less. -/
structure Sorting (r : α → α → Prop) where
  sort : List α → List α
  perm : ∀ l, (sort l).Perm l
  sorted : ∀ l, (sort l).Pairwise r

/-- Insertion sort. -/
def Sorting.insertion (r : α → α → Prop) [DecidableRel r] [Std.Total r]
    [IsTrans α r] : Sorting r where
  sort := List.insertionSort r
  perm := List.perm_insertionSort r
  sorted := List.pairwise_insertionSort r

/-- Sorting by a key. -/
def KeyLE [LE β] (key : α → β) (a b : α) : Prop := key a ≤ key b

section KeyLE

variable [LinearOrder β] (key : α → β)

instance : DecidableRel (KeyLE key) := fun a b =>
  inferInstanceAs (Decidable (key a ≤ key b))

instance : Std.Total (KeyLE key) := ⟨fun a b => le_total (key a) (key b)⟩

instance : IsTrans α (KeyLE key) := ⟨fun _ _ _ => le_trans⟩

instance : Std.Refl (KeyLE key) := ⟨fun a => le_refl (key a)⟩

end KeyLE

/-! ## Hash maps to go through

The entries of a hash map one can loop over are those of an association list. -/

/-- `m[k]` with what is then done to the value it refers to, which is `d` if it
has just been put there. -/
def modifyAt [DecidableEq κ] (m : AList (fun _ : κ => β)) (k : κ) (d : β)
    (f : β → β) : AList (fun _ : κ => β) :=
  m.insert k (f ((m.lookup k).getD d))

theorem lookup_modifyAt [DecidableEq κ] (m : AList (fun _ : κ => β))
    (k k' : κ) (d : β) (f : β → β) :
    (modifyAt m k d f).lookup k' =
      if k' = k then some (f ((m.lookup k).getD d)) else m.lookup k' := by
  unfold modifyAt
  by_cases h : k' = k
  · rw [h, if_pos rfl, AList.lookup_insert]
  · rw [if_neg h, AList.lookup_insert_ne h]

/-- The entries a loop goes through are those that can be looked up. -/
theorem Visit.mem_order [DecidableEq κ] (v : Visit (Σ _ : κ, β))
    {m : AList (fun _ : κ => β)} {k : κ} {b : β} :
    ⟨k, b⟩ ∈ v.order m.entries ↔ m.lookup k = some b := by
  rw [(v.perm _).mem_iff]
  exact AList.mem_lookup_iff.symm

/-- It goes through each key once. -/
theorem Visit.nodup_keys (v : Visit (Σ _ : κ, β))
    (m : AList (fun _ : κ => β)) :
    ((v.order m.entries).map Sigma.fst).Nodup :=
  ((v.perm _).map _).nodup_iff.2 m.nodupKeys

/-- The entry written to, and the others. -/
theorem modifyAt_entries [DecidableEq κ] (m : AList (fun _ : κ => β)) (k : κ)
    (d : β) (f : β → β) : ∃ others,
      (modifyAt m k d f).entries = ⟨k, f ((m.lookup k).getD d)⟩ :: others ∧
        m.entries.Perm
          ((m.lookup k).toList.map (fun b => (⟨k, b⟩ : Σ _ : κ, β)) ++
            others) := by
  refine ⟨m.entries.kerase k, AList.entries_insert, ?_⟩
  by_cases hk : k ∈ m.entries.keys
  · obtain ⟨b, before, after, _, hentries, hothers⟩ := List.exists_of_kerase hk
    have hlookup : m.lookup k = some b := by
      rw [← Option.mem_def, AList.mem_lookup_iff, hentries]
      simp
    rw [hlookup, hothers, hentries]
    exact List.perm_middle
  · have hlookup : m.lookup k = none := AList.lookup_eq_none.2 hk
    rw [hlookup, List.kerase_of_notMem_keys hk]
    exact .refl _

/-! ## Grouping -/

/-- The elements of a list by a key, as a loop with `groups[key].push_back`
groups them. -/
def groupBy [DecidableEq κ] (key : α → κ) (l : List α) :
    AList (fun _ : κ => List α) :=
  l.foldl (fun groups a => modifyAt groups (key a) [] (· ++ [a])) ∅

variable [DecidableEq κ] {key : α → κ}

theorem groupBy_concat (l : List α) (a : α) :
    groupBy key (l ++ [a]) =
      modifyAt (groupBy key l) (key a) [] (· ++ [a]) := by
  unfold groupBy
  rw [List.foldl_append]
  rfl

/-- The group of a key are the elements with that key, in their order. -/
theorem lookup_groupBy (l : List α) (k : κ) :
    (groupBy key l).lookup k =
      if l.filter (fun a => decide (key a = k)) = [] then none
      else some (l.filter (fun a => decide (key a = k))) := by
  induction l using List.reverseRecOn with
  | nil => exact AList.lookup_empty k
  | append_singleton l a ih =>
      rw [groupBy_concat, lookup_modifyAt, List.filter_append]
      by_cases hk : k = key a
      · subst hk
        rw [if_pos rfl, ih]
        split
        · next hnil => simp [hnil]
        · simp
      · rw [if_neg hk, ih]
        have hnone : [a].filter (fun a => decide (key a = k)) = [] :=
          List.filter_eq_nil_iff.2 (by simpa using fun h => hk h.symm)
        rw [hnone, List.append_nil]

/-- The groups together are the elements. -/
theorem groupBy_flatten (l : List α) :
    ((groupBy key l).entries.map Sigma.snd).flatten.Perm l := by
  induction l using List.reverseRecOn with
  | nil => exact .refl _
  | append_singleton l a ih =>
      obtain ⟨others, hentries, hperm⟩ :=
        modifyAt_entries (groupBy key l) (key a) [] (· ++ [a])
      rw [groupBy_concat, hentries]
      have hold := (hperm.map Sigma.snd).flatten.symm.trans ih
      generalize (groupBy key l).lookup (key a) = group at hold ⊢
      have hgroup : (group.toList.map
          (fun b => (⟨key a, b⟩ : Σ _ : κ, List α))).map Sigma.snd =
          group.toList := by
        rw [List.map_map]
        exact List.map_id _
      rw [List.map_append, hgroup] at hold
      have hflatten : (group.toList ++ others.map Sigma.snd).flatten =
          group.getD [] ++ (others.map Sigma.snd).flatten := by
        cases group with
        | none => rfl
        | some g => rfl
      rw [hflatten] at hold
      show ((group.getD [] ++ [a]) ++ (others.map Sigma.snd).flatten).Perm _
      rw [List.append_assoc]
      refine (List.perm_middle.trans (hold.cons a)).trans ?_
      exact (List.perm_append_singleton a l).symm

end LearningCpp.Lib
