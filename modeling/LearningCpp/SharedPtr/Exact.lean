import LearningCpp.SharedPtr.Runs

/-!
# Reference counting is exact

What the invariant says to a caller, in every state the threads can reach: no
thread ever locks, reads or deletes what is gone; a count that nobody is working
on is the number of handles; a block and an object live exactly as long as a
handle refers to them, and are deleted once.
-/

namespace LearningCpp.SharedPtr

open LearningCpp.Lib

variable {τ H O B : Type*} [DecidableEq H] {m : B → Option O}
  {s : State τ H O B}

/-- An operation on the block is under way: a copy that was not counted yet, or
a release that is not over. -/
def InFlight (s : State τ H O B) (b : B) : Prop :=
  (∃ h, Pending s h ∧ s.cb h = some b) ∨
    ∃ t, (∃ o, (s.thread t).frame = .decrementing o (some b)) ∨
      (s.thread t).frame.Deletes b

/-- A thread is about to make a handle for the object, or releases one. -/
def ObjectInFlight (s : State τ H O B) (o : O) : Prop :=
  ∃ t, Carries (s.thread t) o ∨
    (∃ cb, (s.thread t).frame = .decrementing o cb) ∨
      ∃ cb, (s.thread t).frame = .deletingObject o cb

/-- A handle that has a block is full. -/
theorem Inv.full_of_cb (hs : Inv m s) {h : H} {b : B} (hcb : s.cb h = some b) :
    ∃ o, s.handle h = some ⟨some o, some b⟩ ∧ m b = some o := by
  obtain ⟨p, hp, hpb⟩ := Option.bind_eq_some_iff.1 hcb
  rcases hs.full h p hp with hfull | ⟨t, u, hf⟩
  · rcases hfull with rfl | ⟨o, b', rfl, hm⟩
    · cases hpb
    · cases hpb
      exact ⟨o, hp, hm⟩
  · obtain ⟨o, hraw, _⟩ := hs.fits_frame hf
    rw [hp] at hraw
    cases hraw
    cases hpb

/-- A handle's block is counted, even while the handle itself is not: then it
is the source of the copy that is. -/
theorem Inv.alive_of_cb (hs : Inv m s) {h : H} {b : B}
    (hcb : s.cb h = some b) : 0 < s.count b ∧ s.block b = .alive := by
  by_cases hp : Pending s h
  · obtain ⟨t, other, hframe⟩ := hp
    obtain ⟨hne, heq, _⟩ := hs.fits_frame hframe
    refine hs.alive_of_owns (x := .inl other) ⟨?_, ?_⟩
    · rw [← hcb, State.cb, State.cb, heq]
    · refine hs.not_pending (Or.inr
        (mem_reads_of_frame hframe List.mem_cons_self)) ?_
      intro o hf
      rw [hframe] at hf
      exact hne (Frame.incrementing.inj hf).1
  · exact hs.alive_of_owns (x := .inl h) ⟨hcb, hp⟩

theorem Inv.alive_of_ptr (hs : Inv m s) {h : H} {o : O}
    (hptr : s.ptr h = some o) : s.object o = .alive := by
  obtain ⟨p, hp, hpo⟩ := Option.bind_eq_some_iff.1 hptr
  rcases hs.full h p hp with hfull | ⟨t, u, hf⟩
  · rcases hfull with rfl | ⟨o', b, rfl, hm⟩
    · cases hpo
    · cases hpo
      have hcb : s.cb h = some b := cb_of_handle hp
      exact hs.object_alive (x := .block b) ⟨hm, (hs.alive_of_cb hcb).1⟩
  · obtain ⟨o', hraw, _⟩ := hs.fits_frame hf
    rw [hp] at hraw
    cases hraw
    cases hpo
    exact hs.object_alive (x := .handle h) hp

/-- Who holds a counted block: a handle, or a thread that releases one. -/
theorem Inv.holder_of_count (hs : Inv m s) {b : B} (hpos : 0 < s.count b) :
    (∃ h, s.cb h = some b) ∨
      ∃ t o, (s.thread t).frame = .decrementing o (some b) := by
  obtain ⟨x, hx⟩ := exists_of_encard_eq (hs.counts b) hpos
  cases x with
  | inl h => exact Or.inl ⟨h, hx.1⟩
  | inr t => exact Or.inr ⟨t, hx⟩

theorem Inv.holder_of_block (hs : Inv m s) {b : B} (hb : s.block b = .alive) :
    (∃ h, s.cb h = some b) ∨ InFlight s b := by
  have hone := hs.blocks b
  rw [if_pos hb] at hone
  obtain ⟨x, hx⟩ := exists_of_encard_eq (n := 1) hone one_pos
  cases x with
  | none =>
      refine (hs.holder_of_count hx).imp_right ?_
      intro h
      obtain ⟨t, o, h⟩ := h
      exact Or.inr ⟨t, Or.inl ⟨o, h⟩⟩
  | some t => exact Or.inr (Or.inr ⟨t, Or.inr hx⟩)

theorem Inv.holder_of_object (hs : Inv m s) {o : O}
    (ho : s.object o = .alive) : (∃ h, s.ptr h = some o) ∨
      ObjectInFlight s o := by
  have hone := hs.objects o
  rw [if_pos ho] at hone
  obtain ⟨x, hx⟩ := exists_of_encard_eq (n := 1) hone one_pos
  cases x with
  | caller t => exact Or.inr ⟨t, Or.inl hx⟩
  | handle h =>
      refine Or.inl ⟨h, ?_⟩
      rw [State.ptr, show s.handle h = _ from hx]
      rfl
  | block b =>
      obtain ⟨hm, hpos⟩ := hx
      rcases hs.holder_of_count hpos with ⟨h, hcb⟩ | ⟨t, o', hf⟩
      · obtain ⟨o', hp, hm'⟩ := hs.full_of_cb hcb
        rw [hm] at hm'
        refine Or.inl ⟨h, ?_⟩
        rw [State.ptr, hp]
        exact hm'.symm
      · obtain ⟨⟨b', hb, hm'⟩, _⟩ := hs.fits_frame hf
        rw [← Option.some.inj hb, hm] at hm'
        rw [← Option.some.inj hm'] at hf
        exact Or.inr ⟨t, Or.inr (Or.inl ⟨some b, hf⟩)⟩
  | deleter t => exact Or.inr ⟨t, Or.inr (Or.inr hx)⟩

theorem Inv.count_quiet (hs : Inv m s) {b : B} (hb : ¬ InFlight s b) :
    {h | s.cb h = some b}.encard = s.count b := by
  have himage : {x | Owns s b x} = Sum.inl '' {h | s.cb h = some b} := by
    ext x
    cases x with
    | inl h =>
        rw [Sum.inl_injective.mem_set_image]
        refine and_iff_left_of_imp ?_
        intro hcb hp
        exact hb (Or.inl ⟨h, hp, hcb⟩)
    | inr t =>
        refine iff_of_false (fun hx => ?_) (by simp)
        exact hb (Or.inr ⟨t, Or.inl hx⟩)
  rw [← hs.counts b, himage, Sum.inl_injective.encard_image]

variable [DecidableEq τ] [DecidableEq O] [DecidableEq B]

/-- What the class promises in a state, and from it on. -/
structure Exact (s : State τ H O B) : Prop where
  /-- No thread locks, reads or deletes what is not there. -/
  defined : ∀ t, ¬ Stuck s t
  count : ∀ b, ¬ InFlight s b →
    {h | s.cb h = some b}.encard = s.count b
  getCount : ∀ h p b, s.handle h = some p → p.cb = some b →
    s.getCount p = some (s.count b)
  /-- The handles of a block share its object. -/
  shared : ∀ h h' b, s.cb h = some b → s.cb h' = some b →
    s.ptr h = s.ptr h' ∧ s.ptr h ≠ none
  block : ∀ b, ¬ InFlight s b →
    (s.block b = .alive ↔ ∃ h, s.cb h = some b)
  object : ∀ o, ¬ ObjectInFlight s o →
    (s.object o = .alive ↔ ∃ h, s.ptr h = some o)
  /-- Nothing a handle still refers to has been deleted. -/
  block_kept : ∀ h b, s.cb h = some b → s.block b = .alive
  object_kept : ∀ h o, s.ptr h = some o → s.object o = .alive
  /-- What was there and is not referred to any more has been deleted. -/
  released : ∀ s', Relation.ReflTransGen (Step Op.NonNull) s s' →
    (∀ b, s.block b ≠ .unborn → ¬ InFlight s' b → (∀ h, s'.cb h ≠ some b) →
      s'.block b = .deleted) ∧
    ∀ o, s.object o ≠ .unborn → ¬ ObjectInFlight s' o →
      (∀ h, s'.ptr h ≠ some o) → s'.object o = .deleted
  /-- And is deleted only once. -/
  once : ∀ s', Relation.ReflTransGen (Step Op.NonNull) s s' →
    (∀ b, s.block b = .deleted → s'.block b = .deleted) ∧
    ∀ o, s.object o = .deleted → s'.object o = .deleted

/-- Reference counting is exact, in whatever order any number of threads take
their steps. -/
theorem reachable_exact (h : Reachable Op.NonNull s) : Exact s := by
  obtain ⟨m, hs⟩ := inv_reachable h
  refine ⟨?_, fun b hb => hs.count_quiet hb, ?_, ?_, ?_, ?_,
    fun h b hcb => (hs.alive_of_cb hcb).2, fun h o => hs.alive_of_ptr, ?_, ?_⟩
  · intro t hstuck
    rcases hstuck with ⟨hframe, hnone⟩ | ⟨c, rest, hframe, hcode, hnone⟩
    · obtain ⟨s', hs', _⟩ := hs.resume hframe
      rw [hnone] at hs'
      cases hs'
    · obtain ⟨s', hs', _⟩ := hs.call hframe hcode
      rw [hnone] at hs'
      cases hs'
  · intro h p b hp hpb
    have hcb : s.cb h = some b := by rw [cb_of_handle hp]; exact hpb
    simp only [State.getCount, hpb, (hs.alive_of_cb hcb).2, if_true]
  · intro h h' b hcb hcb'
    obtain ⟨o, hp, hm⟩ := hs.full_of_cb hcb
    obtain ⟨o', hp', hm'⟩ := hs.full_of_cb hcb'
    rw [hm] at hm'
    rw [State.ptr, State.ptr, hp, hp']
    exact ⟨hm', by simp⟩
  · intro b hb
    refine ⟨fun halive => (hs.holder_of_block halive).resolve_right hb, ?_⟩
    intro hcb
    obtain ⟨h, hcb⟩ := hcb
    exact (hs.alive_of_cb hcb).2
  · intro o ho
    refine ⟨fun halive => (hs.holder_of_object halive).resolve_right ho, ?_⟩
    intro hptr
    obtain ⟨h, hptr⟩ := hptr
    exact hs.alive_of_ptr hptr
  · intro s' hrun
    obtain ⟨m', hs'⟩ := inv_reachable (h.trans hrun)
    have hages := run_ages hrun
    constructor
    · intro b hb hquiet hnone
      refine Life.deleted_of_not (hages.1 b) hb ?_
      intro halive
      rcases hs'.holder_of_block halive with ⟨h, hcb⟩ | hflight
      · exact hnone h hcb
      · exact hquiet hflight
    · intro o ho hquiet hnone
      refine Life.deleted_of_not (hages.2 o) ho ?_
      intro halive
      rcases hs'.holder_of_object halive with ⟨h, hptr⟩ | hflight
      · exact hnone h hptr
      · exact hquiet hflight
  · intro s' hrun
    have hages := run_ages hrun
    constructor
    · intro b hb
      have hb' := hages.1 b
      rw [hb] at hb'
      exact hb'
    · intro o ho
      have ho' := hages.2 o
      rw [ho] at ho'
      exact ho'

/-- One thread makes an object shared, and another one is in the middle of
copying it: the count is behind the handles, and nothing is lost. -/
theorem reachable_exact_copying : ∃ s : State Bool ℕ ℕ ℕ, Exact s ∧
    s.count 5 = 1 ∧ s.cb 0 = some 5 ∧ s.cb 1 = some 5 ∧ InFlight s 5 := by
  refine ⟨_, reachable_exact (Relation.ReflTransGen.tail (.tail (.tail (.tail
    (.tail (.tail .refl
      (.start true (.fromPointer 0 (some 3)) trivial ?_))
      (.call true rfl rfl rfl))
      (.alloc true 5 rfl rfl))
      (.start false (.copy 1 0) trivial ?_))
      (.call false rfl rfl rfl))
      (.call false rfl rfl rfl)), rfl, rfl, rfl, Or.inl ⟨1, ⟨false, 0, rfl⟩, rfl⟩⟩
  · refine ⟨⟨rfl, rfl⟩, ?_, fun _ _ => rfl, by decide, fun _ _ => rfl, ?_, ?_⟩
    · intro h hh; cases hh
    · exact fun _ _ _ _ => ⟨List.not_mem_nil, List.not_mem_nil⟩
    · exact fun _ _ _ _ => List.not_mem_nil
  · refine ⟨⟨rfl, rfl⟩, ?_, ?_, by decide, ?_, ?_, ?_⟩
    · intro h hh
      obtain rfl := List.mem_singleton.1 hh
      simp [State.alloc, State.goto, State.setHandle]
    · intro h hh
      obtain rfl := List.mem_singleton.1 hh
      rfl
    · intro p hp; cases hp
    · intro t' ht' h hh
      cases t' with
      | false => exact absurd rfl ht'
      | true => exact ⟨List.not_mem_nil, List.not_mem_nil⟩
    · intro t' ht' h hh
      cases t' with
      | false => exact absurd rfl ht'
      | true => exact List.not_mem_nil

end LearningCpp.SharedPtr
