import LearningCpp.AutoPtr.Refinement

/-!
# What a program with owning pointers has in memory

Two accounts of a whole run. Where no `new` of a copy assignment throws, no
handle is ever left with the address of an object that is gone, and then the
only way to undefined behaviour is to read through a handle that holds nothing.

And in any run the objects that are there are those handles own and those a copy
construction lost, one for each whose assignment threw after its `new`.
-/

namespace LearningCpp.AutoPtr

open Lib

variable {κ V : Type*}

/-- A copy assignment whose `new` throws, after its `delete`. -/
def Call.spoils : Call κ V → Bool
  | .copyAssign _ _ .newThrows => true
  | _ => false

/-- A copy construction that got its object and then threw. -/
def lost : Call κ V × Answer V → Bool
  | (.copyConstruct _ _ (.assignThrows _), .threw) => true
  | _ => false

/-! ## No handle dangles -/

def Slots.Sound (s : Slots κ V) : Prop :=
  ∀ k, Slot.dangles (s.slot k) = false

section Sound

variable [DecidableEq κ] {s : Slots κ V}

theorem Slots.Sound.put (hs : s.Sound) (k : κ) {x : Option (Slot V)}
    (hx : Slot.dangles x = false) : (s.put k x).Sound := by
  intro j
  rcases eq_or_ne j k with rfl | hne
  · rw [Slots.put_slot_self, hx]
  · rw [Slots.put_slot_of_ne _ hne]
    exact hs j

theorem Slots.Sound.transfer (hs : s.Sound) (k a : κ) :
    (s.transfer k a).Sound := (hs.put k (hs a)).put a rfl

/-- What a call that spoils nothing leaves is sound again. -/
theorem Slots.Sound.exec (hs : s.Sound) {c : Call κ V} (hc : c.spoils = false)
    {t : Slots κ V} {o : Answer V} (h : s.exec c = some (t, o)) : t.Sound := by
  cases c with
  | makeNull k => cases h; exact hs.put k rfl
  | adopt k v => cases h; exact hs.put k rfl
  | copyConstruct k a fate =>
      cases fate with
      | newThrows => cases h; exact hs
      | assignThrows left =>
          simp only [Slots.exec, Slots.copyConstruct] at h
          split at h
          · cases h
          · cases h; exact hs
      | copies =>
          simp only [Slots.exec, Slots.copyConstruct] at h
          split at h
          · cases h
          · cases h; exact hs.put k rfl
  | moveConstruct k a => cases h; exact hs.transfer k a
  | copyAssign k a fate =>
      simp only [Slots.exec, Slots.copyAssign, hs k, Bool.false_eq_true,
        if_false] at h
      split at h
      · cases h; exact hs
      split at h
      · cases hc
      · cases h; exact hs.put k rfl
      · cases h; exact hs.put k rfl
      · cases h
  | moveAssign k a =>
      simp only [Slots.exec, Slots.moveAssign, hs k, Bool.false_eq_true,
        if_false] at h
      split at h
      · cases h; exact hs
      · cases h; exact hs.transfer k a
  | destroy k =>
      simp only [Slots.exec, Slots.destroy, hs k, Bool.false_eq_true,
        if_false] at h
      cases h
      exact hs.put k rfl
  | read k =>
      simp only [Slots.exec, Slots.read] at h
      split at h
      · cases h
      · cases h; exact hs
  | write k v =>
      simp only [Slots.exec, Slots.write] at h
      split at h
      · cases h
      · cases h; exact hs.put k rfl
  | isnull k => cases h; exact hs
  | custom_swap tmp a b => cases h; exact fun j => hs _

theorem Slots.Sound.step (hs : s.Sound) {c : Call κ V} (hc : c.spoils = false)
    {t : Slots κ V} {o : Answer V} (h : s.step c = some (t, o)) : t.Sound := by
  unfold Slots.step at h
  split at h
  · exact hs.exec hc h
  · cases h; exact hs

end Sound

section Programs

variable [DecidableEq κ] {blank : V} {calls : List (Call κ V)}
  {m : Memory κ V} {os : List (Answer V)}

/-- The slots at the end of a run. -/
theorem slots_of_run
    (h : runPartial (Memory.step blank) Memory.empty calls = some (m, os)) :
    ∃ s, runPartial Slots.step Slots.empty calls = some (s, os) ∧
      Holds m s := by
  rcases (autoPtr_refines blank calls).elim with
    ⟨hnone, -⟩ | ⟨m', s, os', hm, hs, hholds⟩
  · rw [h] at hnone
    cases hnone
  · rw [h] at hm
    cases hm
    exact ⟨s, hs, hholds⟩

end Programs

section Programs

variable [DecidableEq κ] {blank : V} {calls : List (Call κ V)}
  {m : Memory κ V} {os : List (Answer V)}

theorem Slots.exec_leaked {s t : Slots κ V} {c : Call κ V} {o : Answer V}
    (h : s.exec c = some (t, o)) :
    t.leaked = s.leaked + if lost (c, o) then 1 else 0 := by
  cases c with
  | makeNull k => cases h; rfl
  | adopt k v => cases h; rfl
  | copyConstruct k a fate =>
      cases fate with
      | newThrows => cases h; rfl
      | assignThrows left =>
          simp only [Slots.exec, Slots.copyConstruct] at h
          split at h
          · cases h
          · cases h; rfl
      | copies =>
          simp only [Slots.exec, Slots.copyConstruct] at h
          split at h
          · cases h
          · cases h; rfl
  | moveConstruct k a => cases h; rfl
  | copyAssign k a fate =>
      simp only [Slots.exec, Slots.copyAssign] at h
      split at h
      · cases h; rfl
      split at h
      · cases h
      split at h
      · cases h
        unfold Slots.spoil
        split <;> rfl
      · cases h; rfl
      · cases h; rfl
      · cases h
  | moveAssign k a =>
      obtain ⟨u, hu, hrest⟩ := Option.map_eq_some_iff.1 h
      cases hrest
      unfold Slots.moveAssign at hu
      split at hu
      · cases hu; rfl
      split at hu
      · cases hu
      · cases hu; rfl
  | destroy k =>
      obtain ⟨u, hu, hrest⟩ := Option.map_eq_some_iff.1 h
      cases hrest
      unfold Slots.destroy at hu
      split at hu
      · cases hu
      · cases hu; rfl
  | read k =>
      simp only [Slots.exec, Slots.read] at h
      split at h
      · cases h
      · cases h; rfl
  | write k v =>
      obtain ⟨u, hu, hrest⟩ := Option.map_eq_some_iff.1 h
      cases hrest
      unfold Slots.write at hu
      split at hu
      · cases hu
      · cases hu; rfl
  | isnull k => cases h; rfl
  | custom_swap tmp a b => cases h; rfl

theorem Slots.run_leaked {s t : Slots κ V} {calls : List (Call κ V)}
    {os : List (Answer V)}
    (h : runPartial Slots.step s calls = some (t, os)) :
    t.leaked = s.leaked + (calls.zip os).countP lost := by
  induction calls generalizing s os with
  | nil => cases h; rfl
  | cons c calls ih =>
      obtain ⟨u, o, os', hstep, hrun, rfl⟩ := runPartial_cons_eq_some h
      have hleaked : u.leaked = s.leaked + if lost (c, o) then 1 else 0 := by
        unfold Slots.step at hstep
        split at hstep
        · exact Slots.exec_leaked hstep
        · cases hstep
          unfold lost
          split
          · next heq => cases heq
          · rfl
      rw [ih hrun, hleaked, List.zip_cons_cons, List.countP_cons]
      omega

omit [DecidableEq κ] in
/-- The objects that are there are those that handles own and those that were
lost. -/
theorem Holds.encard_objects {s : Slots κ V} (h : Holds m s) :
    {o | m.object o ≠ none}.encard =
      {k | ∃ v, s.slot k = some (.value v)}.encard + s.leaked := by
  obtain ⟨F, hcard, hF⟩ := h.lost
  have howner : ∀ k v, s.slot k = some (.value v) →
      ∃ o, m.pointer k = some o ∧ m.object o = some v := by
    intro k v hk
    have hd := h.deref k
    rw [hk] at hd
    obtain ⟨o, ho, hov⟩ := Option.bind_eq_some_iff.1 hd
    exact ⟨o, ho, hov⟩
  let K := {k | ∃ v, s.slot k = some (.value v)}
  let address : κ → ℕ := fun k => (m.pointer k).getD 0
  have hsplit : {o | m.object o ≠ none} = address '' K ∪ (F : Set ℕ) := by
    ext o
    simp only [Set.mem_ofPred_eq, Set.mem_union, Finset.mem_coe, hF]
    constructor
    · intro ho
      by_cases hex : ∃ k, m.pointer k = some o
      · obtain ⟨k, hk⟩ := hex
        refine .inl ⟨k, ?_, by show (m.pointer k).getD 0 = o; rw [hk]; rfl⟩
        obtain ⟨v, hv⟩ := Option.ne_none_iff_exists'.1 ho
        refine ⟨v, Slot.value?_eq_some ?_⟩
        rw [← h.deref k, hk]
        exact hv
      · exact .inr ⟨ho, fun k hk => hex ⟨k, hk⟩⟩
    · rintro (⟨k, ⟨v, hv⟩, rfl⟩ | ho)
      · obtain ⟨o, ho, hov⟩ := howner k v hv
        show m.object ((m.pointer k).getD 0) ≠ none
        rw [ho, Option.getD_some, hov]
        exact Option.some_ne_none v
      · exact ho.1
  have hdisj : Disjoint (address '' K) (F : Set ℕ) := by
    rw [Set.disjoint_left]
    rintro o ⟨k, ⟨v, hv⟩, rfl⟩ ho
    obtain ⟨o, hk, -⟩ := howner k v hv
    refine ((hF _).1 (Finset.mem_coe.1 ho)).2 k ?_
    show m.pointer k = some ((m.pointer k).getD 0)
    rw [hk, Option.getD_some]
  have hinj : Set.InjOn address K := by
    rintro k ⟨v, hv⟩ k' ⟨v', hv'⟩ heq
    obtain ⟨o, ho, -⟩ := howner k v hv
    obtain ⟨o', ho', -⟩ := howner k' v' hv'
    have hoo : o = o' := by
      have : (m.pointer k).getD 0 = (m.pointer k').getD 0 := heq
      rwa [ho, ho', Option.getD_some, Option.getD_some] at this
    exact h.owner k k' o ho (by rw [ho', hoo])
  rw [hsplit, Set.encard_union_eq hdisj, hinj.encard_image,
    Set.encard_coe_eq_coe_finsetCard, hcard]

/-- After any run the objects in memory are as many as handles own, and one
more for each copy construction that threw after its `new`. -/
theorem objects_of_run (blank : V) (calls : List (Call κ V))
    (m : Memory κ V) (os : List (Answer V))
    (h : runPartial (Memory.step blank) Memory.empty calls = some (m, os)) :
    {o | m.object o ≠ none}.encard =
      {k | m.deref (m.pointer k) ≠ none}.encard +
        (calls.zip os).countP lost := by
  obtain ⟨s, hs, hholds⟩ := slots_of_run h
  have hleaked := Slots.run_leaked hs
  have hown : {k | ∃ v, s.slot k = some (.value v)} =
      {k | m.deref (m.pointer k) ≠ none} := by
    ext k
    simp only [Set.mem_ofPred_eq]
    rw [hholds.deref k]
    constructor
    · rintro ⟨v, hv⟩
      rw [hv]
      exact Option.some_ne_none v
    · intro hv
      obtain ⟨v, hv⟩ := Option.ne_none_iff_exists'.1 hv
      exact ⟨v, Slot.value?_eq_some hv⟩
  rw [hholds.encard_objects, hown, hleaked]
  simp [Slots.empty]

end Programs

/-- A copy whose assignment throws, and then the end of the handle copied
from. -/
theorem objects_of_run_lost :
    ∃ (m : Memory ℕ ℕ) (os : List (Answer ℕ)),
      runPartial (Memory.step 0) Memory.empty
        [.adopt 0 7, .copyConstruct 1 0 (.assignThrows 9), .destroy 0] =
          some (m, os) ∧
      {o | m.object o ≠ none}.encard =
        {k | m.deref (m.pointer k) ≠ none}.encard + 1 := by
  refine ⟨_, _, rfl, ?_⟩
  rw [← Nat.cast_one]
  exact objects_of_run 0
    [.adopt 0 7, .copyConstruct 1 0 (.assignThrows 9), .destroy 0] _ _ rfl

end LearningCpp.AutoPtr
