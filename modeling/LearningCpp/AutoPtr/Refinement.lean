import LearningCpp.AutoPtr.Holds

/-!
# The owning pointer is a place for a value

Member by member the memory and the slots agree: both are undefined, or both
answer the same and the memory still holds the slots. So do runs, and it is a
refinement in both directions: a run through memory is undefined exactly where
the run of the slots is.

`custom_swap` is the one call with an inside. Its three moves are transfers
between handles of which one is empty each time, so no `delete` in them meets an
object, also where what is swapped dangles or is one handle with itself.
-/

namespace LearningCpp.AutoPtr

open Lib

variable {κ V : Type*}

variable [DecidableEq κ] {m : Memory κ V} {s : Slots κ V} {k a b : κ}

theorem Slot.value?_eq_some {x : Option (Slot V)} {v : V}
    (h : Slot.value? x = some v) : x = some (.value v) := by
  rcases x with - | - | w | -
  · cases h
  · cases h
  · cases h
    rfl
  · cases h

theorem Slots.value?_spoil : Slot.value? ((s.spoil k).slot k) = none := by
  unfold Slots.spoil
  split
  · rw [Slots.put_slot_self]
    rfl
  · next hk =>
      cases hv : Slot.value? (s.slot k) with
      | none => rfl
      | some v => exact absurd (Slot.value?_eq_some hv) (hk v)

theorem Slots.spoil_slot_of_ne (h : a ≠ k) :
    (s.spoil k).slot a = s.slot a := by
  unfold Slots.spoil
  split
  · exact Slots.put_slot_of_ne s h
  · rfl

theorem Slots.put_spoil (x : Option (Slot V)) :
    (s.spoil k).put k x = s.put k x := by
  unfold Slots.spoil
  split
  · unfold Slots.put
    rw [Function.update_idem]
  · rfl

theorem Slots.transfer_spoil (h : k ≠ a) :
    (s.spoil k).transfer k a = s.transfer k a := by
  unfold Slots.transfer
  rw [Slots.spoil_slot_of_ne h.symm, Slots.put_spoil]

/-- `delete _ptr` is defined unless the handle dangles, and spoils the slot. -/
theorem Holds.delete (h : Holds m s) (k : κ) :
    (Slot.dangles (s.slot k) = true ∧ m.delete (m.pointer k) = none) ∨
      ∃ m', Slot.dangles (s.slot k) = false ∧
        m.delete (m.pointer k) = some m' ∧ Holds m' (s.spoil k) ∧
        m'.ptr = m.ptr := by
  unfold Memory.delete Slots.spoil
  have hslot := h.slot k
  rcases hp : m.ptr k with - | - | o
  · have hpk : m.pointer k = none := by rw [Memory.pointer, hp]; rfl
    rw [hslot, hp, hpk]
    exact .inr ⟨m, rfl, rfl, h, rfl⟩
  · have hpk : m.pointer k = none := by rw [Memory.pointer, hp]; rfl
    rw [hslot, hp, hpk]
    exact .inr ⟨m, rfl, rfl, h, rfl⟩
  · have hpk : m.pointer k = some o := by rw [Memory.pointer, hp]; rfl
    rw [hslot, hp, hpk, Option.map_some, Memory.view]
    cases ho : m.object o with
    | none => exact .inl ⟨rfl, by simp only [ho]⟩
    | some v =>
        refine .inr ⟨_, rfl, ?_, h.update hpk ho none, rfl⟩
        simp only [ho]

/-- `_ptr = new T; *_ptr = *a._ptr;`, up to what the new object is given. -/
theorem Holds.newCopy (h : Holds m s) (blank : V) (hak : a ≠ k)
    (hk : Slot.value? (s.slot k) = none) :
    let m' := (m.new blank).2.setPtr k (some (some m.made))
    m'.deref (m'.pointer a) = Slot.value? (s.slot a) ∧
      ∀ v, Holds (m'.store m.made v) (s.put k (some (.value v))) := by
  intro m'
  have h' : Holds m' (s.put k (some (.value blank))) := h.install blank hk
  constructor
  · rw [h'.deref a, Slots.put_slot_of_ne _ hak]
  · intro v
    have hp : m'.pointer k = some m.made := Memory.setPtr_pointer_self
    have ho : m'.object m.made = some blank := Function.update_self _ _ _
    have hstored := h'.update hp ho (some v)
    rw [show (s.put k (some (.value blank))).put k
      (some (Slot.ofObject (some v))) = s.put k (some (.value v)) by
        unfold Slots.put
        rw [Function.update_idem]
        rfl] at hstored
    exact hstored

/-- A copy whose assignment throws, from a handle that has a value. -/
theorem Holds.newCopy_assignThrows (h : Holds m s) (blank left : V)
    (hak : a ≠ k) (hk : Slot.value? (s.slot k) = none) :
    (Slot.value? (s.slot a) = none ∧
        m.newCopy blank k a (.assignThrows left) = none) ∨
      ∃ v m', Slot.value? (s.slot a) = some v ∧
        m.newCopy blank k a (.assignThrows left) = some (m', true) ∧
        Holds m' (s.put k (some (.value left))) := by
  obtain ⟨hread, hstore⟩ := h.newCopy blank hak hk
  simp only [Memory.newCopy, Memory.new] at hread hstore ⊢
  rw [hread]
  cases Slot.value? (s.slot a) with
  | none => exact .inl ⟨rfl, rfl⟩
  | some v => exact .inr ⟨v, _, rfl, rfl, hstore left⟩

/-- A copy that succeeds. -/
theorem Holds.newCopy_copies (h : Holds m s) (blank : V)
    (hak : a ≠ k) (hk : Slot.value? (s.slot k) = none) :
    (Slot.value? (s.slot a) = none ∧ m.newCopy blank k a .copies = none) ∨
      ∃ v m', Slot.value? (s.slot a) = some v ∧
        m.newCopy blank k a .copies = some (m', false) ∧
        Holds m' (s.put k (some (.value v))) := by
  obtain ⟨hread, hstore⟩ := h.newCopy blank hak hk
  simp only [Memory.newCopy, Memory.new] at hread hstore ⊢
  rw [hread]
  cases Slot.value? (s.slot a) with
  | none => exact .inl ⟨rfl, rfl⟩
  | some v => exact .inr ⟨v, _, rfl, rfl, hstore v⟩

theorem Slots.put_put (x y : Option (Slot V)) :
    (s.put k x).put k y = s.put k y := by
  unfold Slots.put
  rw [Function.update_idem]

omit [DecidableEq κ] in
theorem Holds.slot_eq_none (h : Holds m s) (hk : (m.ptr k).isSome = false) :
    s.slot k = none := by
  rw [h.slot k,
    Option.isNone_iff_eq_none.1 (Option.isSome_eq_false_iff.1 hk)]
  rfl

theorem Holds.copyConstruct (h : Holds m s) (blank : V) (fate : Fate V)
    (hk : (m.ptr k).isSome = false) (ha : (m.ptr a).isSome = true) :
    Agree Holds (m.copyConstruct blank k a fate)
      (s.copyConstruct k a fate) := by
  have hak : a ≠ k := by
    rintro rfl
    rw [hk] at ha
    cases ha
  have hsk := h.slot_eq_none hk
  have hundo : s.put k none = s := by rw [← hsk, Slots.put_self]
  have hnull : Slot.value? ((s.put k (some .null)).slot k) = none := by
    rw [Slots.put_slot_self]
    rfl
  have h0 : Holds (m.setPtr k (some none)) (s.put k (some .null)) :=
    h.forget rfl (by rw [hsk]; rfl)
  have hsa : (s.put k (some .null)).slot a = s.slot a :=
    Slots.put_slot_of_ne s hak
  unfold Memory.copyConstruct Slots.copyConstruct
  cases fate with
  | newThrows =>
      have hgone := h0.forget (p := none) rfl hnull
      rw [Option.map_none, Slots.put_put, hundo] at hgone
      exact .some hgone _
  | assignThrows left =>
      rcases h0.newCopy_assignThrows blank left hak hnull with
        ⟨hv, hnew⟩ | ⟨v, m', hv, hnew, hm'⟩
      · rw [hsa] at hv
        simp only [hv, hnew]
        exact .none
      · have hlost := hm'.lose (Slots.put_slot_self _)
        simp only [Slots.put_put, hundo, Slots.put_leaked] at hlost
        rw [hsa] at hv
        simp only [hv, hnew]
        exact .some hlost _
  | copies =>
      rcases h0.newCopy_copies blank hak hnull with
        ⟨hv, hnew⟩ | ⟨v, m', hv, hnew, hm'⟩
      · rw [hsa] at hv
        simp only [hv, hnew]
        exact .none
      · rw [Slots.put_put] at hm'
        rw [hsa] at hv
        simp only [hv, hnew]
        exact .some hm' _

theorem Holds.copyAssign (h : Holds m s) (blank : V) (fate : Fate V) (k a : κ) :
    Agree Holds (m.copyAssign blank k a fate) (s.copyAssign k a fate) := by
  unfold Memory.copyAssign Slots.copyAssign
  by_cases hak : a = k
  · rw [if_pos hak, if_pos hak]
    exact .some h _
  rw [if_neg hak, if_neg hak]
  rcases h.delete k with ⟨hd, hdel⟩ | ⟨m', hd, hdel, hm', -⟩
  · simp only [hd, hdel, if_true]
    exact .none
  simp only [hd, hdel, Bool.false_eq_true, if_false]
  have hsa : (s.spoil k).slot a = s.slot a := Slots.spoil_slot_of_ne hak
  cases fate with
  | newThrows => exact .some hm' _
  | assignThrows left =>
      rcases hm'.newCopy_assignThrows blank left hak Slots.value?_spoil with
        ⟨hv, hnew⟩ | ⟨v, m'', hv, hnew, hm''⟩
      · rw [hsa] at hv
        simp only [hv, hnew]
        exact .none
      · rw [Slots.put_spoil] at hm''
        rw [hsa] at hv
        simp only [hv, hnew]
        exact .some hm'' _
  | copies =>
      rcases hm'.newCopy_copies blank hak Slots.value?_spoil with
        ⟨hv, hnew⟩ | ⟨v, m'', hv, hnew, hm''⟩
      · rw [hsa] at hv
        simp only [hv, hnew]
        exact .none
      · rw [Slots.put_spoil] at hm''
        rw [hsa] at hv
        simp only [hv, hnew]
        exact .some hm'' _

theorem Holds.moveAssign (h : Holds m s) (k : κ)
    (ha : (m.ptr a).isSome = true) :
    Option.Rel Holds (m.moveAssign k a) (s.moveAssign k a) := by
  unfold Memory.moveAssign Slots.moveAssign
  by_cases hak : a = k
  · rw [if_pos hak, if_pos hak]
    exact .some h
  rw [if_neg hak, if_neg hak]
  rcases h.delete k with ⟨hd, hdel⟩ | ⟨m', hd, hdel, hm', hptr⟩
  · simp only [hd, hdel, if_true]
    exact .none
  simp only [hd, hdel, Bool.false_eq_true, if_false]
  have hmoved := hm'.transfer (Ne.symm hak) (by rw [hptr, ha])
    Slots.value?_spoil
  rw [Slots.transfer_spoil (Ne.symm hak)] at hmoved
  exact .some hmoved

theorem Holds.destroy (h : Holds m s) (k : κ) :
    Option.Rel Holds (m.destroy k) (s.destroy k) := by
  unfold Memory.destroy Slots.destroy
  rcases h.delete k with ⟨hd, hdel⟩ | ⟨m', hd, hdel, hm', -⟩
  · simp only [hd, hdel, if_true]
    exact .none
  · simp only [hd, hdel, Bool.false_eq_true, if_false]
    have hgone := hm'.forget (p := none) rfl Slots.value?_spoil
    rw [Option.map_none, Slots.put_spoil] at hgone
    exact .some hgone

omit [DecidableEq κ] in
theorem Holds.read (h : Holds m s) (k : κ) :
    Agree Holds (m.read k) (s.read k) := by
  unfold Memory.read Slots.read
  rw [h.deref k]
  cases Slot.value? (s.slot k) with
  | none => exact .none
  | some v => exact .some h _

theorem Holds.write (h : Holds m s) (k : κ) (v : V) :
    Option.Rel Holds (m.write k v) (s.write k v) := by
  have hd := h.deref k
  unfold Memory.write Slots.write
  rw [← hd]
  cases hp : m.pointer k with
  | none => exact .none
  | some o =>
      simp only [Memory.deref, Option.bind_some]
      cases ho : m.object o with
      | none => exact .none
      | some _ => exact .some (h.update hp ho (some v))

omit [DecidableEq κ] in
theorem Holds.isSome_ptr (h : Holds m s) (k : κ) :
    (m.ptr k).isSome = (s.slot k).isSome := by
  rw [h.slot k, Option.isSome_map]

/-! ## The swap -/

/-- Moving into an empty handle deletes nothing. -/
theorem Slots.moveAssign_of_null (h : s.slot k = some .null) :
    s.moveAssign k a = some (if a = k then s else s.transfer k a) := by
  unfold Slots.moveAssign
  rw [h]
  split <;> rfl

theorem Slots.destroy_of_null (h : s.slot k = some .null) :
    s.destroy k = some (s.put k none) := by
  unfold Slots.destroy
  rw [h]
  rfl

/-- What the three moves and the end of the local variable come to. -/
theorem Slots.three_moves {tmp : κ} (htmp : s.slot tmp = none)
    (ha : tmp ≠ a) (hb : tmp ≠ b) :
    ((if b = a then s.transfer tmp a
      else (s.transfer tmp a).transfer a b).transfer b tmp).put tmp none =
      s.exchange a b := by
  have hslot : ∀ x y : Slots κ V, x.leaked = y.leaked →
      (∀ j, x.slot j = y.slot j) → x = y := by
    intro x y hl hj
    cases x
    cases y
    cases hl
    cases funext hj
    rfl
  refine hslot _ _ ?_ fun j => ?_
  · split <;> rfl
  show _ = s.slot (Equiv.swap a b j)
  rcases eq_or_ne j tmp with rfl | hjt
  · rw [Slots.put_slot_self, Equiv.swap_apply_of_ne_of_ne ha hb, htmp]
  rw [Slots.put_slot_of_ne _ hjt]
  rcases eq_or_ne j b with rfl | hjb
  · rw [Slots.transfer_slot_target _ hjt, Equiv.swap_apply_right]
    split
    · exact Slots.transfer_slot_target _ ha
    · rw [Slots.transfer_slot_of_ne _ ha hb]
      exact Slots.transfer_slot_target _ ha
  rw [Slots.transfer_slot_of_ne _ hjb hjt]
  rcases eq_or_ne j a with rfl | hja
  · rw [if_neg hjb.symm, Slots.transfer_slot_target _ hjb,
      Slots.transfer_slot_of_ne _ hb.symm hjb.symm, Equiv.swap_apply_left]
  · rw [Equiv.swap_apply_of_ne_of_ne hja hjb]
    split
    · exact Slots.transfer_slot_of_ne _ hjt hja
    · rw [Slots.transfer_slot_of_ne _ hja hjb,
        Slots.transfer_slot_of_ne _ hjt hja]

theorem rel_some {α β : Type*} {R : α → β → Prop} {x : Option α} {y : β}
    (h : Option.Rel R x (some y)) : ∃ a, x = some a ∧ R a y := by
  cases h with
  | some hR => exact ⟨_, rfl, hR⟩

/-- The swap is defined whatever the two handles hold, and exchanges it. -/
theorem Holds.custom_swap (h : Holds m s) {tmp : κ}
    (htmp : (m.ptr tmp).isSome = false) (ha : (m.ptr a).isSome = true)
    (hb : (m.ptr b).isSome = true) :
    ∃ m', m.custom_swap tmp a b = some m' ∧ Holds m' (s.exchange a b) := by
  have hta : tmp ≠ a := by
    rintro rfl
    rw [htmp] at ha
    cases ha
  have htb : tmp ≠ b := by
    rintro rfl
    rw [htmp] at hb
    cases hb
  have hst := h.slot_eq_none htmp
  -- `T tmp { std::move(a) };`
  have h1 : Holds (m.moveConstruct tmp a) (s.transfer tmp a) :=
    h.transfer hta ha (by rw [hst]; rfl)
  have hb1 : ((m.moveConstruct tmp a).ptr b).isSome = true := by
    rw [h1.isSome_ptr]
    rcases eq_or_ne b a with rfl | hba
    · rw [Slots.transfer_slot_source]
      rfl
    · rw [Slots.transfer_slot_of_ne _ htb.symm hba, ← h.isSome_ptr, hb]
  -- `a = std::move(b);`
  have hrel2 := h1.moveAssign a hb1
  rw [Slots.moveAssign_of_null (Slots.transfer_slot_source _)] at hrel2
  obtain ⟨m2, hm2, h2⟩ := rel_some hrel2
  have hnull : (if b = a then s.transfer tmp a
      else (s.transfer tmp a).transfer a b).slot b = some .null := by
    split
    · next hba =>
        rw [hba]
        exact Slots.transfer_slot_source _
    · exact Slots.transfer_slot_source _
  have htmp2 : (m2.ptr tmp).isSome = true := by
    rw [h2.isSome_ptr]
    have h1tmp : ((s.transfer tmp a).slot tmp).isSome = true := by
      rw [Slots.transfer_slot_target _ hta, ← h.isSome_ptr, ha]
    split
    · exact h1tmp
    · rw [Slots.transfer_slot_of_ne _ hta htb]
      exact h1tmp
  -- `b = std::move(tmp);`
  have hrel3 := h2.moveAssign b htmp2
  rw [Slots.moveAssign_of_null hnull, if_neg htb] at hrel3
  obtain ⟨m3, hm3, h3⟩ := rel_some hrel3
  have hrel4 := h3.destroy tmp
  rw [Slots.destroy_of_null (Slots.transfer_slot_source _),
    Slots.three_moves hst hta htb] at hrel4
  obtain ⟨m4, hm4, h4⟩ := rel_some hrel4
  refine ⟨m4, ?_, h4⟩
  unfold Memory.custom_swap
  simp only [hm2, hm3, hm4]

/-! ## Runs -/

theorem Holds.exec (h : Holds m s) (blank : V) (c : Call κ V)
    (hc : c.inScope (fun k => (m.ptr k).isSome) = true) :
    Agree Holds (m.exec blank c) (s.exec c) := by
  cases c with
  | makeNull k =>
      have hk : (m.ptr k).isSome = false := by simpa [Call.inScope] using hc
      have hsk := h.slot_eq_none hk
      exact .some (h.forget rfl (by rw [hsk]; rfl)) _
  | adopt k v =>
      have hk : (m.ptr k).isSome = false := by simpa [Call.inScope] using hc
      have hsk := h.slot_eq_none hk
      exact .some (h.install v (by rw [hsk]; rfl)) _
  | copyConstruct k a fate =>
      obtain ⟨hk, ha⟩ : (m.ptr k).isSome = false ∧ (m.ptr a).isSome = true := by
        simpa [Call.inScope] using hc
      exact h.copyConstruct blank fate hk ha
  | moveConstruct k a =>
      obtain ⟨hk, ha⟩ : (m.ptr k).isSome = false ∧ (m.ptr a).isSome = true := by
        simpa [Call.inScope] using hc
      have hka : k ≠ a := by
        rintro rfl
        rw [hk] at ha
        cases ha
      have hsk := h.slot_eq_none hk
      exact .some (h.transfer hka ha (by rw [hsk]; rfl)) _
  | copyAssign k a fate => exact h.copyAssign blank fate k a
  | moveAssign k a =>
      obtain ⟨-, ha⟩ : (m.ptr k).isSome = true ∧ (m.ptr a).isSome = true := by
        simpa [Call.inScope] using hc
      exact .answer (h.moveAssign k ha) _
  | destroy k => exact .answer (h.destroy k) _
  | read k => exact h.read k
  | write k v => exact .answer (h.write k v) _
  | isnull k =>
      show Agree Holds (some (m, Answer.null (m.isnull k)))
        (some (s, Answer.null (s.isnull k)))
      rw [h.isnull hc]
      exact .some h _
  | custom_swap tmp a b =>
      obtain ⟨⟨htmp, ha⟩, hb⟩ : ((m.ptr tmp).isSome = false ∧
          (m.ptr a).isSome = true) ∧ (m.ptr b).isSome = true := by
        simpa [Call.inScope] using hc
      obtain ⟨m', hm', h'⟩ := h.custom_swap htmp ha hb
      show Agree Holds ((m.custom_swap tmp a b).map _) _
      rw [hm']
      exact .some h' _

theorem Holds.step (h : Holds m s) (blank : V) (c : Call κ V) :
    Agree Holds (m.step blank c) (s.step c) := by
  unfold Memory.step Slots.step
  rw [h.alive]
  split
  · next hc => exact h.exec blank c hc
  · exact .some h _

/-- Every run of handles through memory is the run of their slots: undefined
together, and answering alike. -/
theorem autoPtr_refines (blank : V) (calls : List (Call κ V)) :
    Agree Holds (runPartial (Memory.step blank) Memory.empty calls)
      (runPartial Slots.step Slots.empty calls) :=
  runPartial_agree (fun _ _ c h => h.step blank c) Holds.empty calls

end LearningCpp.AutoPtr
