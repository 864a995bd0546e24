import LearningCpp.SharedGraph.Heap

/-!
# New objects

`new T` makes an object nobody refers to, and the first handle of an object gets
a block of its own.
-/

namespace LearningCpp.SharedGraph

open LearningCpp.Lib Program
open LearningCpp.SharedPtr (Life SharedPointer)
open LearningCpp.UniquePtr (Layout)

variable {H O B : Type} {L : Layout H O} {s : State H O B} {h k : H}
  {p : SharedPointer O B} {o : O} {pointer : Option O} {b : B}

section Object

variable [DecidableEq O]

/-- The state after `new T`. -/
def State.newObject (L : Layout H O) (s : State H O B) (o : O) :
    State H O B :=
  { s with
    object := Function.update s.object o .alive
    handle := fun h => if L.home h = some o then some .null else s.handle h }

theorem alive_newObject {x : O} :
    (s.newObject L o).object x = .alive ↔ x = o ∨ s.object x = .alive := by
  unfold State.newObject
  rcases eq_or_ne x o with rfl | hne
  · simp
  · simp [hne]

theorem newObject_field (hh : L.home h = some o) :
    (s.newObject L o).handle h = some .null := if_pos hh

theorem newObject_of_ne (hh : L.home h ≠ some o) :
    (s.newObject L o).handle h = s.handle h := if_neg hh

omit [DecidableEq O] in
/-- The fields of the object were not there before. -/
theorem Heap.no_fields (hs : Heap L s ∅ none) (ho : s.object o = .unborn)
    (hh : L.home h = some o) : s.handle h = none := by
  by_contra hne
  rcases hs.home h o hh hne with hlive | hmem
  · rw [ho] at hlive
    cases hlive
  · exact hmem

theorem newObject_values (hh : (s.newObject L o).handle h = some p) :
    p = .null ∨ s.handle h = some p := by
  by_cases hho : L.home h = some o
  · rw [newObject_field hho] at hh
    cases hh
    exact .inl rfl
  · exact .inr (newObject_of_ne hho ▸ hh)

theorem Heap.newObject_handle (hs : Heap L s ∅ none) (ho : s.object o = .unborn)
    (hp : SharedPointer.null ≠ p) :
    (s.newObject L o).handle h = some p ↔ s.handle h = some p := by
  constructor
  · exact fun hh => (newObject_values hh).resolve_left hp.symm
  · intro hh
    rw [newObject_of_ne ?_]
    · exact hh
    · intro hho
      rw [hs.no_fields ho hho] at hh
      cases hh

theorem Heap.newObject (hs : Heap L s ∅ none) (ho : s.object o = .unborn) :
    Heap L (s.newObject L o) ∅ (some o) := by
  have hdead : s.object o ≠ .alive := by simp [ho]
  refine ⟨?_, ?_, ?_, ?_, ?_, ?_, ?_, ?_⟩
  · intro x o' hx ho'
    by_cases hxo : L.home x = some o
    · simp [newObject_field hxo]
    · rw [newObject_of_ne hxo]
      refine hs.fields x o' hx ((alive_newObject.1 ho').resolve_left ?_)
      rintro rfl
      exact hxo hx
  · intro x o' hx hne
    by_cases hxo : L.home x = some o
    · cases hx.symm.trans hxo
      exact .inl (alive_newObject.2 (.inl rfl))
    · rw [newObject_of_ne hxo] at hne
      exact (hs.home x o' hx hne).imp_left fun h => alive_newObject.2 (.inr h)
  · intro x o' cb hx
    obtain ⟨hlive, b, rfl, hcount⟩ :=
      hs.full x o' cb ((hs.newObject_handle ho (by simp)).1 hx)
    refine ⟨alive_newObject.2 (.inr hlive), b, rfl, ?_⟩
    rw [encard_congr fun y => hs.newObject_handle ho (by simp)]
    exact hcount
  · intro x p b hx
    exact hs.block x p b ((hs.newObject_handle ho (by simp)).1 hx)
  · refine hs.agree_of_values fun x p hx => ?_
    exact (newObject_values hx).imp_right fun hx => ⟨x, hx⟩
  · intro o' ho'
    rcases alive_newObject.1 ho' with rfl | hlive
    · exact .inl rfl
    · obtain ⟨x, hx⟩ := (hs.owner o' hlive).resolve_left (by simp)
      obtain ⟨cb, hcb⟩ := handle_of_ptr hx
      have hcb' := (hs.newObject_handle ho (by simp)).2 hcb
      exact .inr ⟨x, ptr_of_handle hcb'⟩
  · intro o' ho'
    cases ho'
    refine ⟨alive_newObject.2 (.inl rfl), fun x hx => ?_⟩
    obtain ⟨cb, hcb⟩ := handle_of_ptr hx
    have hcb' := (hs.newObject_handle ho (by simp)).1 hcb
    exact hdead (hs.full x o cb hcb').1
  · refine (hs.finite.insert o).subset fun x hx => ?_
    exact alive_newObject.1 hx

end Object

variable [DecidableEq H] [DecidableEq B]

/-- The state when a raw pointer has become a handle. -/
def State.attach (s : State H O B) (h : H) (pointer : Option O) (b : B) :
    State H O B :=
  { s.setHandle h (some ⟨pointer, some b⟩) with
    block := Function.update s.block b .alive
    count := Function.update s.count b 1 }

@[simp] theorem attach_self :
    (s.attach h pointer b).handle h = some ⟨pointer, some b⟩ :=
  setHandle_self _ _ _

theorem attach_of_ne (hk : k ≠ h) :
    (s.attach h pointer b).handle k = s.handle k := setHandle_of_ne s hk _

omit [DecidableEq H] [DecidableEq B] in
theorem Heap.block_ne (hs : Heap L s ∅ pointer) (hb : s.block b = .unborn)
    {ptr : Option O} {b' : B} (hk : s.handle k = some ⟨ptr, some b'⟩) :
    b' ≠ b := by
  intro heq
  have hlive := hs.block k ptr b' hk
  rw [heq, hb] at hlive
  cases hlive

omit [DecidableEq H] [DecidableEq B] in
/-- No handle agrees with the pair of the pointer and the new block. -/
theorem Heap.attach_lone (hs : Heap L s ∅ pointer) (hb : s.block b = .unborn)
    (hk : s.handle k = some p) :
    ¬ ((p.ptr ≠ none ∧ p.ptr = pointer) ∨ (p.cb ≠ none ∧ p.cb = some b)) := by
  obtain ⟨ptr, cb⟩ := p
  intro hagree
  rcases hagree with ⟨hsome, heq⟩ | ⟨_, heq⟩
  · obtain ⟨o, ho⟩ := Option.ne_none_iff_exists'.1 hsome
    exact (hs.loose o (heq ▸ ho)).2 k ((ptr_of_handle hk).trans ho)
  · cases heq
    exact hs.block_ne hb hk rfl

theorem Heap.attach_full (hs : Heap L s ∅ pointer) (hh : s.handle h = none)
    (hb : s.block b = .unborn) {cb : Option B}
    (hk : (s.attach h pointer b).handle k = some ⟨some o, cb⟩) :
    s.object o = .alive ∧ ∃ b', cb = some b' ∧
      {x | (s.attach h pointer b).handle x =
        some ⟨some o, some b'⟩}.encard = (s.attach h pointer b).count b' := by
  by_cases hkh : k = h
  · rw [hkh, attach_self] at hk
    cases hk
    refine ⟨(hs.loose o rfl).1, b, rfl, ?_⟩
    have hset : {x | (s.attach h (some o) b).handle x =
        some ⟨some o, some b⟩} = {h} := by
      ext x
      refine ⟨fun hx => ?_, fun hx => ?_⟩
      · by_contra hxh
        have hx' : s.handle x = some ⟨some o, some b⟩ :=
          (attach_of_ne hxh).symm.trans hx
        exact hs.block_ne hb hx' rfl
      · cases hx
        exact attach_self
    have hone : (s.attach h (some o) b).count b = 1 :=
      Function.update_self _ _ _
    rw [hset, Set.encard_singleton, hone]
    rfl
  · rw [attach_of_ne hkh] at hk
    obtain ⟨hlive, b', rfl, hcount⟩ := hs.full k o cb hk
    have hb' := hs.block_ne hb hk
    have hsame : (s.attach h pointer b).count b' = s.count b' :=
      Function.update_of_ne hb' _ _
    refine ⟨hlive, b', rfl, ?_⟩
    rw [hsame, ← hcount]
    refine encard_congr fun x => ?_
    by_cases hxh : x = h
    · rw [hxh, attach_self, hh]
      refine iff_of_false ?_ (by simp)
      intro heq
      cases heq
      exact hb' rfl
    · rw [attach_of_ne hxh]

theorem Heap.attach_agree (hs : Heap L s ∅ pointer) (hb : s.block b = .unborn)
    (x x' : H) (p p' : SharedPointer O B)
    (hx : (s.attach h pointer b).handle x = some p)
    (hx' : (s.attach h pointer b).handle x' = some p')
    (hagree : (p.ptr ≠ none ∧ p.ptr = p'.ptr) ∨ (p.cb ≠ none ∧ p.cb = p'.cb)) :
    p = p' := by
  by_cases hxh : x = h
  · rw [hxh, attach_self] at hx
    cases hx
    by_cases hxh' : x' = h
    · rw [hxh', attach_self] at hx'
      exact Option.some.inj hx'
    · rw [attach_of_ne hxh'] at hx'
      refine absurd (hagree.imp ?_ ?_) (hs.attach_lone hb hx')
      · exact fun h => ⟨h.2 ▸ h.1, h.2.symm⟩
      · exact fun h => ⟨h.2 ▸ h.1, h.2.symm⟩
  · rw [attach_of_ne hxh] at hx
    by_cases hxh' : x' = h
    · rw [hxh', attach_self] at hx'
      cases hx'
      exact absurd hagree (hs.attach_lone hb hx)
    · rw [attach_of_ne hxh'] at hx'
      exact hs.agree x x' p p' hx hx' hagree

/-- The first handle of an object, with a block of its own. -/
theorem Heap.attach (hs : Heap L s ∅ pointer) (hh : s.handle h = none)
    (hhome : L.home h = none) (hb : s.block b = .unborn) :
    Heap L (s.attach h pointer b) ∅ none where
  fields := by
    intro x o hx ho
    by_cases hxh : x = h
    · simp [hxh]
    · rw [attach_of_ne hxh]
      exact hs.fields x o hx ho
  home := by
    intro x o hx hlive
    have hxh : x ≠ h := by
      rintro rfl
      rw [hhome] at hx
      cases hx
    rw [attach_of_ne hxh] at hlive
    exact hs.home x o hx hlive
  full := fun _ _ _ hx => hs.attach_full hh hb hx
  block := by
    intro x ptr b' hx
    by_cases hxh : x = h
    · rw [hxh, attach_self] at hx
      cases hx
      exact Function.update_self _ _ _
    · rw [attach_of_ne hxh] at hx
      exact (Function.update_of_ne (hs.block_ne hb hx) _ _).trans
        (hs.block x ptr b' hx)
  agree := hs.attach_agree hb
  owner := by
    intro o ho
    rcases hs.owner o ho with rfl | ⟨x, hx⟩
    · exact .inr ⟨h, ptr_of_handle attach_self⟩
    · obtain ⟨cb, hcb⟩ := handle_of_ptr hx
      have hxh : x ≠ h := by
        rintro rfl
        rw [hh] at hcb
        cases hcb
      exact .inr ⟨x, ptr_of_handle ((attach_of_ne hxh).trans hcb)⟩
  loose := fun _ ho => by cases ho
  finite := hs.finite

theorem attach_eq :
    ({ (s.setHandle h (some p)).setCount b 1 with
      block := Function.update s.block b .alive } : State H O B).setHandle h
        (some ⟨pointer, some b⟩) = s.attach h pointer b := by
  unfold State.attach State.setHandle State.setCount
  simp only [Function.update_idem]

end LearningCpp.SharedGraph
