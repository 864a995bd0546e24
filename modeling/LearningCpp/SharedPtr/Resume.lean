import LearningCpp.SharedPtr.Steps

/-!
# The locked steps and the deletions

The steps inside `copy_and_increment`, `release` and the constructor. These are
the ones that change a count or the life of a block or an object, and each of
them acts on something the thread's frame holds: the increment finds the block
kept alive by the source of the copy, the decrement by the reference the thread
took with it, and what is deleted has the thread as its only keeper.
-/

namespace LearningCpp.SharedPtr

open LearningCpp.Lib

variable {τ H O B : Type*} {m : B → Option O} {s s' : State τ H O B} {t : τ}
  {th : Thread H O B}

theorem Inv.fits_frame [DecidableEq H] (hs : Inv m s) {f : Frame H O B}
    (hframe : (s.thread t).frame = f) :
    Thread.Fits m s.handle ⟨f, (s.thread t).code, (s.thread t).count⟩ := by
  have h := hs.fits t
  rw [← hframe]
  exact h

theorem mem_writes_of_frame {f : Frame H O B}
    (hframe : (s.thread t).frame = f) {h : H} (hh : h ∈ f.writes) :
    h ∈ (s.thread t).writes := by
  refine List.mem_append_left _ ?_
  rw [hframe]
  exact hh

theorem mem_reads_of_frame {f : Frame H O B}
    (hframe : (s.thread t).frame = f) {h : H} (hh : h ∈ f.reads) :
    h ∈ (s.thread t).reads := by
  refine List.mem_append_left _ ?_
  rw [hframe]
  exact hh

variable [DecidableEq τ] [DecidableEq H]

/-- A step that finishes a frame or goes on to one that names no handle, and
changes no handle. -/
theorem Inv.after_frame (hs : Inv m s)
    (hthread : s'.thread = Function.update s.thread t th)
    (hcode : th.code = (s.thread t).code) (hhandle : s'.handle = s.handle)
    (halloc : ∀ h u, (s.thread t).frame ≠ .allocating h u)
    (hwrites : th.frame.writes = []) (hreads : th.frame.reads = [])
    (hfits : th.Fits m s.handle)
    (hunborn : ∀ b, s'.block b = .unborn → s.block b = .unborn)
    (hcounts : ∀ b, {x | Owns s' b x}.encard = s'.count b)
    (hblocks : ∀ b, {x | HoldsBlock s' b x}.encard =
      if s'.block b = .alive then 1 else 0)
    (hobjects : ∀ o, {x | HoldsObject s' m o x}.encard =
      if s'.object o = .alive then 1 else 0) : Inv m s' := by
  refine hs.next hthread ?_ (fun _ _ h => h) (hs.apart_of_subset ?_ ?_) ?_ ?_
    (fun b hb => hs.unborn b (hunborn b hb)) hcounts hblocks hobjects
  · intro h _
    rw [hhandle]
  · intro h hh
    rw [Thread.writes, hwrites, hcode] at hh
    exact List.mem_append_right _ hh
  · intro h hh
    rw [Thread.reads, hreads, hcode] at hh
    exact List.mem_append_right _ hh
  · intro h hh p hp
    rw [hhandle] at hp
    exact Or.inl (hs.full_of_mem (Or.inl hh) (halloc h) hp)
  · rw [hhandle]
    exact hfits

/-! ## The locked increment -/

/-- The copy becomes a reference of its own. -/
theorem Inv.counts_increment [DecidableEq B] (hs : Inv m s) {h other : H}
    {b₀ : B} (hframe : (s.thread t).frame = .incrementing h other)
    (hcb : s.cb h = some b₀)
    (hthread : s'.thread = Function.update s.thread t th)
    (hth : th.frame = .idle)
    (hcount : s'.count = Function.update s.count b₀ (s.count b₀ + 1))
    (hhandle : s'.handle = s.handle) (b : B) :
    {x | Owns s' b x}.encard = s'.count b := by
  have hh : h ∈ (s.thread t).writes :=
    mem_writes_of_frame hframe List.mem_cons_self
  have hcb' : ∀ k, s'.cb k = s.cb k := by
    intro k
    rw [State.cb, hhandle]
    rfl
  have hpending : ∀ k, Pending s' k ↔ Pending s k ∧ k ≠ h := by
    intro k
    constructor
    · intro hk
      obtain ⟨t', o, hk⟩ := hk
      have ht' : t' ≠ t := by
        intro ht'
        rw [ht', thread_self hthread, hth] at hk
        cases hk
      rw [thread_other hthread ht'] at hk
      refine ⟨⟨t', o, hk⟩, ?_⟩
      intro hkh
      rw [hkh] at hk
      exact (hs.apart t t' ht' h hh).1
        (mem_writes_of_frame hk List.mem_cons_self)
    · intro hk
      obtain ⟨⟨t', o, hk⟩, hkh⟩ := hk
      have ht' : t' ≠ t := by
        intro ht'
        rw [ht', hframe] at hk
        exact hkh (Frame.incrementing.inj hk).1.symm
      refine ⟨t', o, ?_⟩
      rw [thread_other hthread ht']
      exact hk
  have hothers : ∀ b k, k ≠ h →
      (Owns s' b (.inl k) ↔ Owns s b (.inl k)) := by
    intro b k hk
    exact owns_handle (hcb' k) ((hpending k).trans (and_iff_left hk))
  have hdecrementing : ∀ b t', Owns s' b (.inr t') ↔ Owns s b (.inr t') := by
    intro b
    refine owns_thread hthread ?_
    intro o
    rw [hth, hframe]
    exact iff_of_false (fun hf => by cases hf) (fun hf => by cases hf)
  rw [hcount]
  by_cases hb : b = b₀
  · subst hb
    rw [Function.update_self]
    refine encard_gain (a := (.inl h : H ⊕ τ))
      (fun hx => hx.2 ⟨t, other, hframe⟩) ?_ (hs.counts b)
    intro x
    cases x with
    | inl k =>
        by_cases hk : k = h
        · refine iff_of_true ⟨?_, ?_⟩ (Or.inl (by rw [hk]))
          · rw [hcb', hk]
            exact hcb
          · rw [hpending]
            exact fun hx => hx.2 hk
        · rw [or_iff_right (fun hx => hk (Sum.inl.inj hx))]
          exact hothers b k hk
    | inr t' =>
        rw [or_iff_right (fun hx => by cases hx)]
        exact hdecrementing b t'
  · rw [Function.update_of_ne hb, ← hs.counts b]
    refine encard_congr ?_
    intro x
    cases x with
    | inl k =>
        by_cases hk : k = h
        · -- The copy is of another block.
          have hno : s.cb k ≠ some b := by
            rw [hk, hcb]
            exact fun hbb => hb (Option.some.inj hbb).symm
          refine iff_of_false (fun hx => ?_) (fun hx => hno hx.1)
          exact hno (by rw [← hcb' k]; exact hx.1)
        · exact hothers b k hk
    | inr t' => exact hdecrementing b t'

theorem Inv.resume_incrementing [DecidableEq O] [DecidableEq B]
    (hs : Inv m s) {h other : H}
    (hframe : (s.thread t).frame = .incrementing h other) :
    ∃ s', s.resume t = some s' ∧ Inv m s' := by
  obtain ⟨hne, heq, ⟨p, b, hp⟩, hfit⟩ := hs.fits_frame hframe
  have hcb : s.cb h = some b := cb_of_handle hp
  -- The source of the copy is what keeps the block alive.
  have hother : Owns s b (.inl other) := by
    refine ⟨?_, hs.not_pending (Or.inr
      (mem_reads_of_frame hframe List.mem_cons_self)) ?_⟩
    · rw [← hcb, State.cb, State.cb, heq]
    · intro o hf
      rw [hframe] at hf
      exact hne (Frame.incrementing.inj hf).1
  obtain ⟨hpos, halive⟩ := hs.alive_of_owns hother
  have hpositive : ∀ b', 0 < Function.update s.count b (s.count b + 1) b' ↔
      0 < s.count b' := by
    intro b'
    by_cases hb' : b' = b
    · rw [hb', Function.update_self]
      omega
    · rw [Function.update_of_ne hb']
  refine ⟨State.goto { s with
    count := Function.update s.count b (s.count b + 1) } t .idle
    (s.thread t).code, ?_, ?_⟩
  · simp only [State.resume, hframe, hcb, halive, if_true]
  refine hs.after_frame rfl rfl rfl ?_ rfl rfl hfit (fun _ hb => hb)
    (hs.counts_increment hframe hcb rfl rfl rfl rfl)
    (blocks_same (s := s) rfl hpositive rfl ?_ hs.blocks)
    (objects_same (s := s) rfl (fun _ _ => Iff.rfl) hpositive rfl
      (fun _ => Iff.rfl) ?_ hs.objects)
  · intro k u hf
    rw [hframe] at hf
    cases hf
  · intro b'
    simp [hframe, Frame.Deletes]
  · intro o
    simp [hframe]

/-! ## The locked decrement -/

/-- The reference the thread holds is gone, and nobody else's. -/
theorem Inv.counts_decrement [DecidableEq B] (hs : Inv m s) {o : O} {b₀ : B}
    (hframe : (s.thread t).frame = .decrementing o (some b₀))
    (hthread : s'.thread = Function.update s.thread t th)
    (hcount : s'.count = Function.update s.count b₀ (s.count b₀ - 1))
    (hhandle : s'.handle = s.handle)
    (hinc : ∀ k o, th.frame ≠ .incrementing k o)
    (hdec : ∀ o b, th.frame ≠ .decrementing o b) (b : B) :
    {x | Owns s' b x}.encard = s'.count b := by
  have hpending : ∀ k, Pending s' k ↔ Pending s k := by
    refine pending_same hthread ?_ hinc
    intro k other hf
    rw [hframe] at hf
    cases hf
  have hhandles : ∀ b k, Owns s' b (.inl k) ↔ Owns s b (.inl k) := by
    intro b k
    refine owns_handle ?_ (hpending k)
    rw [State.cb, hhandle]
    rfl
  have hothers : ∀ b t', t' ≠ t →
      (Owns s' b (.inr t') ↔ Owns s b (.inr t')) := by
    intro b t' ht'
    show (∃ o, (s'.thread t').frame = _) ↔ ∃ o, (s.thread t').frame = _
    rw [thread_other hthread ht']
  have hself : ∀ b, ¬ Owns s' b (.inr t) := by
    intro b hx
    obtain ⟨o, hx⟩ := hx
    rw [thread_self hthread] at hx
    exact hdec o _ hx
  rw [hcount]
  by_cases hb : b = b₀
  · subst hb
    rw [Function.update_self]
    refine encard_lose (a := (.inr t : H ⊕ τ)) ⟨o, hframe⟩ (hself b) ?_
      (hs.counts b)
    intro x hx
    cases x with
    | inl k => exact hhandles b k
    | inr t' => exact hothers b t' (fun heq => hx (by rw [heq]))
  · rw [Function.update_of_ne hb, ← hs.counts b]
    refine encard_congr ?_
    intro x
    cases x with
    | inl k => exact hhandles b k
    | inr t' =>
        by_cases ht' : t' = t
        · rw [ht']
          refine iff_of_false (hself b) ?_
          intro hx
          obtain ⟨o', hx⟩ := hx
          rw [hframe] at hx
          exact hb (Option.some.inj (Frame.decrementing.inj hx).2).symm
        · exact hothers b t' ht'

/-- Who keeps a block whose count falls to zero: the thread that saw it. -/
theorem Inv.blocks_free [DecidableEq B] (hs : Inv m s) {o : O} {b₀ : B}
    (hframe : (s.thread t).frame = .decrementing o (some b₀))
    (hthread : s'.thread = Function.update s.thread t th)
    (hth : th.frame = .deletingObject o (some b₀))
    (hcount : s'.count = Function.update s.count b₀ 0)
    (hblock : s'.block = s.block) (hpos : 0 < s.count b₀) (b : B) :
    {x | HoldsBlock s' b x}.encard =
      if s'.block b = .alive then 1 else 0 := by
  have hothers : ∀ b t', t' ≠ t →
      (HoldsBlock s' b (some t') ↔ HoldsBlock s b (some t')) := by
    intro b t' ht'
    show (s'.thread t').frame.Deletes b ↔ (s.thread t').frame.Deletes b
    rw [thread_other hthread ht']
  rw [hblock, ← hs.blocks b]
  by_cases hb : b = b₀
  · subst hb
    refine encard_exchange (a := (none : Option τ)) (c := some t) ?_ ?_ ?_
    · show 0 < s'.count b ↔ (s.thread t).frame.Deletes b
      rw [hcount, Function.update_self]
      simp [hframe, Frame.Deletes]
    · show (s'.thread t).frame.Deletes b ↔ 0 < s.count b
      rw [thread_self hthread, hth]
      exact iff_of_true (Or.inl ⟨o, rfl⟩) hpos
    · intro x hn ht
      cases x with
      | none => exact absurd rfl hn
      | some t' => exact hothers b t' (fun heq => ht (by rw [heq]))
  · refine encard_congr ?_
    intro x
    cases x with
    | none =>
        show 0 < s'.count b ↔ 0 < s.count b
        rw [hcount, Function.update_of_ne hb]
    | some t' =>
        refine thread_iff hthread (P := fun th => th.frame.Deletes b) ?_ t'
        rw [hth, hframe]
        simp [Frame.Deletes, Ne.symm hb]

/-- The object goes from the block to the thread that is going to delete
both. -/
theorem Inv.objects_free [DecidableEq B] (hs : Inv m s) {o₀ : O} {b₀ : B}
    (hm : m b₀ = some o₀)
    (hframe : (s.thread t).frame = .decrementing o₀ (some b₀))
    (hthread : s'.thread = Function.update s.thread t th)
    (hth : th.frame = .deletingObject o₀ (some b₀))
    (hcode : th.code = (s.thread t).code)
    (hcount : s'.count = Function.update s.count b₀ 0)
    (hhandle : s'.handle = s.handle) (hobject : s'.object = s.object)
    (hpos : 0 < s.count b₀) (o : O) :
    {x | HoldsObject s' m o x}.encard =
      if s'.object o = .alive then 1 else 0 := by
  rw [hobject, ← hs.objects o]
  refine encard_exchange (a := (.block b₀ : Keeper τ H B)) (c := .deleter t)
    ?_ ?_ ?_
  · show (m b₀ = some o ∧ 0 < s'.count b₀) ↔
      ∃ cb, (s.thread t).frame = .deletingObject o cb
    rw [hcount, Function.update_self]
    simp [hframe]
  · show (∃ cb, (s'.thread t).frame = .deletingObject o cb) ↔
      m b₀ = some o ∧ 0 < s.count b₀
    rw [thread_self hthread, hth, hm]
    simp [hpos]
  · intro x hb ht
    cases x with
    | caller t' =>
        refine thread_iff hthread (P := fun th => Carries th o) ?_ t'
        rw [Carries, Carries, hcode]
    | handle k =>
        show s'.handle k = _ ↔ s.handle k = _
        rw [hhandle]
    | block b =>
        have hbb : b ≠ b₀ := fun heq => hb (by rw [heq])
        show (m b = some o ∧ 0 < s'.count b) ↔ (m b = some o ∧ 0 < s.count b)
        rw [hcount, Function.update_of_ne hbb]
    | deleter t' =>
        have htt : t' ≠ t := fun heq => ht (by rw [heq])
        show (∃ cb, (s'.thread t').frame = _) ↔ ∃ cb, (s.thread t').frame = _
        rw [thread_other hthread htt]

/-- `release`: the thread gives its reference up, and if that was the last one
it is the one to delete. -/
theorem Inv.resume_decrementing [DecidableEq O] [DecidableEq B]
    (hs : Inv m s) {o : O} {cb : Option B}
    (hframe : (s.thread t).frame = .decrementing o cb) :
    ∃ s', s.resume t = some s' ∧ Inv m s' := by
  obtain ⟨⟨b, rfl, hm⟩, hfit⟩ := hs.fits_frame hframe
  have howns : Owns s b (.inr t) := ⟨o, hframe⟩
  obtain ⟨hpos, halive⟩ := hs.alive_of_owns howns
  refine ⟨State.goto { s with
    count := Function.update s.count b (s.count b - 1) } t
    (if s.count b - 1 = 0 then .deletingObject o (some b) else .idle)
    (s.thread t).code, ?_, ?_⟩
  · simp only [State.resume, hframe, halive, if_true]
  have halloc : ∀ h u, (s.thread t).frame ≠ .allocating h u := by
    intro h u hf
    rw [hframe] at hf
    cases hf
  by_cases hzero : s.count b - 1 = 0
  · have hupdate : Function.update s.count b (s.count b - 1) =
        Function.update s.count b 0 := by rw [hzero]
    rw [if_pos hzero]
    refine hs.after_frame rfl rfl rfl halloc rfl rfl ⟨⟨b, rfl, hm⟩, hfit⟩
      (fun _ hb => hb)
      (hs.counts_decrement hframe rfl rfl rfl ?_ ?_)
      (hs.blocks_free hframe rfl rfl hupdate rfl hpos)
      (hs.objects_free hm hframe rfl rfl rfl hupdate rfl rfl hpos)
    · intro k other hf; cases hf
    · intro o' b' hf; cases hf
  · have hpositive : ∀ b', 0 < Function.update s.count b (s.count b - 1) b' ↔
        0 < s.count b' := by
      intro b'
      by_cases hb' : b' = b
      · rw [hb', Function.update_self]
        omega
      · rw [Function.update_of_ne hb']
    rw [if_neg hzero]
    refine hs.after_frame rfl rfl rfl halloc rfl rfl hfit (fun _ hb => hb)
      (hs.counts_decrement hframe rfl rfl rfl ?_ ?_)
      (blocks_same (s := s) rfl hpositive rfl ?_ hs.blocks)
      (objects_same (s := s) rfl (fun _ _ => Iff.rfl) hpositive rfl
        (fun _ => Iff.rfl) ?_ hs.objects)
    · intro k other hf; cases hf
    · intro o' b' hf; cases hf
    · intro b'
      simp [hframe, Frame.Deletes]
    · intro o'
      simp [hframe]

/-! ## The deletions -/

omit [DecidableEq τ] in
theorem Inv.object_alive (hs : Inv m s) {o : O} {x : Keeper τ H B}
    (hx : HoldsObject s m o x) : s.object o = .alive := by
  by_contra hdead
  have hzero := hs.objects o
  rw [if_neg hdead] at hzero
  exact not_of_encard_eq_zero hzero x hx

omit [DecidableEq τ] in
theorem Inv.block_alive (hs : Inv m s) {b : B} {x : Option τ}
    (hx : HoldsBlock s b x) : s.block b = .alive := by
  by_contra hdead
  have hzero := hs.blocks b
  rw [if_neg hdead] at hzero
  exact not_of_encard_eq_zero hzero x hx

omit [DecidableEq τ] in
/-- The one who deletes an object was its only keeper. -/
theorem Inv.objects_delete [DecidableEq O] (hs : Inv m s) {o₀ : O}
    {x₀ : Keeper τ H B} (hx₀ : HoldsObject s m o₀ x₀)
    (hobject : s'.object = Function.update s.object o₀ .deleted)
    (hother : ∀ o x, o ≠ o₀ → (HoldsObject s' m o x ↔ HoldsObject s m o x))
    (hlost : ∀ x, HoldsObject s' m o₀ x → HoldsObject s m o₀ x ∧ x ≠ x₀)
    (o : O) :
    {x | HoldsObject s' m o x}.encard =
      if s'.object o = .alive then 1 else 0 := by
  rw [hobject]
  by_cases ho : o = o₀
  · subst ho
    have hone := hs.objects o
    rw [if_pos (hs.object_alive hx₀)] at hone
    rw [Function.update_self, if_neg (by simp)]
    refine encard_eq_zero_of_not ?_
    intro x hx
    exact (hlost x hx).2 (eq_of_encard_le_one hone.le (hlost x hx).1 hx₀)
  · rw [Function.update_of_ne ho, ← hs.objects o]
    exact encard_congr (fun x => hother o x ho)

theorem Inv.resume_deletingObject [DecidableEq O] [DecidableEq B]
    (hs : Inv m s) {o : O} {cb : Option B}
    (hframe : (s.thread t).frame = .deletingObject o cb) :
    ∃ s', s.resume t = some s' ∧ Inv m s' := by
  obtain ⟨⟨b, rfl, hm⟩, hfit⟩ := hs.fits_frame hframe
  have hkeeps : HoldsObject s m o (.deleter t) := ⟨some b, hframe⟩
  refine ⟨State.goto { s with
    object := Function.update s.object o .deleted } t (.deletingBlock (some b))
    (s.thread t).code, ?_, ?_⟩
  · simp only [State.resume, State.deleteObject, hframe,
      hs.object_alive hkeeps, if_true, Option.map_some]
  have hdeleter : ∀ o' t', HoldsObject (State.goto { s with
      object := Function.update s.object o .deleted } t
      (.deletingBlock (some b)) (s.thread t).code) m o' (.deleter t') ↔
      HoldsObject s m o' (.deleter t') ∧ t' ≠ t := by
    intro o' t'
    show (∃ cb, (Function.update s.thread t _ t').frame = _) ↔ _
    by_cases ht' : t' = t
    · rw [ht', Function.update_self]
      simp
    · rw [Function.update_of_ne ht', and_iff_left ht']
      exact Iff.rfl
  have hcaller : ∀ o' t', HoldsObject (State.goto { s with
      object := Function.update s.object o .deleted } t
      (.deletingBlock (some b)) (s.thread t).code) m o' (.caller t') ↔
      HoldsObject s m o' (.caller t') := by
    intro o' t'
    refine thread_iff (s := s) rfl (P := fun th => Carries th o') ?_ t'
    exact Iff.rfl
  refine hs.after_frame rfl rfl rfl ?_ rfl rfl ⟨⟨b, rfl⟩, hfit⟩
    (fun _ hb => hb) (counts_same (s := s) rfl (fun _ => rfl) rfl ?_ ?_ ?_
      hs.counts)
    (blocks_same (s := s) rfl (fun _ => Iff.rfl) rfl ?_ hs.blocks)
    (hs.objects_delete hkeeps rfl ?_ ?_)
  · intro h u hf
    rw [hframe] at hf
    cases hf
  · intro k other hf
    rw [hframe] at hf
    cases hf
  · intro k other hf
    cases hf
  · intro o' b'
    simp [hframe]
  · intro b'
    simp [hframe, Frame.Deletes]
  · intro o' x ho'
    cases x with
    | caller t' => exact hcaller o' t'
    | handle k => exact Iff.rfl
    | block b' => exact Iff.rfl
    | deleter t' =>
        rw [hdeleter, and_iff_left_of_imp]
        intro hx ht'
        obtain ⟨cb, hx⟩ := hx
        rw [ht', hframe] at hx
        exact ho' (Frame.deletingObject.inj hx).1.symm
  · intro x hx
    cases x with
    | caller t' => exact ⟨(hcaller o t').1 hx, by simp⟩
    | handle k => exact ⟨hx, by simp⟩
    | block b' => exact ⟨hx, by simp⟩
    | deleter t' =>
        rw [hdeleter] at hx
        exact ⟨hx.1, fun heq => hx.2 (Keeper.deleter.inj heq)⟩

theorem Inv.resume_deletingBlock [DecidableEq O] [DecidableEq B]
    (hs : Inv m s) {cb : Option B}
    (hframe : (s.thread t).frame = .deletingBlock cb) :
    ∃ s', s.resume t = some s' ∧ Inv m s' := by
  obtain ⟨⟨b, rfl⟩, hfit⟩ := hs.fits_frame hframe
  have hkeeps : HoldsBlock s b (some t) := Or.inr hframe
  have halive := hs.block_alive hkeeps
  refine ⟨State.goto { s with
    block := Function.update s.block b .deleted } t .idle (s.thread t).code,
    ?_, ?_⟩
  · simp only [State.resume, hframe, halive, if_true]
  refine hs.after_frame rfl rfl rfl ?_ rfl rfl hfit ?_
    (counts_same (s := s) rfl (fun _ => rfl) rfl ?_ ?_ ?_ hs.counts) ?_
    (objects_same (s := s) rfl (fun _ _ => Iff.rfl) (fun _ => Iff.rfl) rfl
      (fun _ => Iff.rfl) ?_ hs.objects)
  · intro h u hf
    rw [hframe] at hf
    cases hf
  · intro b' hb'
    have hb' : Function.update s.block b .deleted b' = .unborn := hb'
    have hne : b' ≠ b := by
      intro heq
      rw [heq, Function.update_self] at hb'
      cases hb'
    rw [Function.update_of_ne hne] at hb'
    exact hb'
  · intro k other hf
    rw [hframe] at hf
    cases hf
  · intro k other hf
    cases hf
  · intro o b'
    simp [hframe]
  · intro b'
    show _ = if Function.update s.block b .deleted b' = .alive then _ else _
    have hothers : ∀ t', t' ≠ t → (HoldsBlock (State.goto { s with
        block := Function.update s.block b .deleted } t .idle
        (s.thread t).code) b' (some t') ↔ HoldsBlock s b' (some t')) := by
      intro t' ht'
      show (Function.update s.thread t _ t').frame.Deletes b' ↔ _
      rw [Function.update_of_ne ht']
      exact Iff.rfl
    have hself : ¬ HoldsBlock (State.goto { s with
        block := Function.update s.block b .deleted } t .idle
        (s.thread t).code) b' (some t) := by
      show ¬ (Function.update s.thread t _ t).frame.Deletes b'
      rw [Function.update_self]
      simp [Frame.Deletes]
    by_cases hb' : b' = b
    · subst hb'
      have hone := hs.blocks b'
      rw [if_pos halive] at hone
      rw [Function.update_self, if_neg (by simp)]
      refine encard_eq_zero_of_not ?_
      intro x hx
      cases x with
      | none =>
          -- The count would be a second keeper.
          have heq := eq_of_encard_le_one hone.le (show HoldsBlock s b' none
            from hx) hkeeps
          cases heq
      | some t' =>
          by_cases ht' : t' = t
          · rw [ht'] at hx
            exact hself hx
          · have heq := eq_of_encard_le_one hone.le ((hothers t' ht').1 hx)
              hkeeps
            exact ht' (Option.some.inj heq)
    · rw [Function.update_of_ne hb', ← hs.blocks b']
      refine encard_congr ?_
      intro x
      cases x with
      | none => exact Iff.rfl
      | some t' =>
          by_cases ht' : t' = t
          · rw [ht']
            refine iff_of_false hself ?_
            show ¬ (s.thread t).frame.Deletes b'
            rw [hframe]
            simp [Frame.Deletes, Ne.symm hb']
          · exact hothers t' ht'
  · intro o
    simp [hframe]

/-! ## The allocation -/

omit [DecidableEq H] in
/-- What is left of a failed constructor adopts nothing. -/
theorem not_carries_unwind (u : Option H) (n : ℕ) (o : O) :
    ¬ Carries (⟨.idle, u.elim [] destructor, n⟩ : Thread H O B) o := by
  refine not_carries ?_ o
  cases u with
  | none => simp
  | some x => simp [destructor, Call.isAdopt]

/-- A failed constructor deletes the object that only its handle had. -/
theorem Inv.objects_fail [DecidableEq O] (hs : Inv m s) {h : H}
    {u : Option H} {o₀ : O} (hframe : (s.thread t).frame = .allocating h u)
    (hp : s.handle h = some ⟨some o₀, none⟩)
    (hcode : ∀ c ∈ (s.thread t).code, c.isAdopt = false)
    (hthread : s'.thread = Function.update s.thread t th)
    (hth : th.frame = .idle) (hcarries : ∀ o, ¬ Carries th o)
    (hhandle : s'.handle = Function.update s.handle h none)
    (hcount : s'.count = s.count)
    (hobject : s'.object = Function.update s.object o₀ .deleted) (o : O) :
    {x | HoldsObject s' m o x}.encard =
      if s'.object o = .alive then 1 else 0 := by
  have hcaller : ∀ o t', HoldsObject s' m o (.caller t') ↔
      HoldsObject s m o (.caller t') := by
    intro o t'
    refine thread_iff hthread (P := fun th => Carries th o) ?_ t'
    exact iff_of_false (hcarries o) (not_carries hcode o)
  have hhandles : ∀ o k, HoldsObject s' m o (.handle k) ↔
      HoldsObject s m o (.handle k) ∧ k ≠ h := by
    intro o k
    show s'.handle k = _ ↔ s.handle k = _ ∧ k ≠ h
    rw [hhandle]
    by_cases hk : k = h
    · rw [hk, Function.update_self]
      simp
    · rw [Function.update_of_ne hk, and_iff_left hk]
  have hblock : ∀ o b, HoldsObject s' m o (.block b) ↔
      HoldsObject s m o (.block b) := by
    intro o b
    show (m b = some o ∧ 0 < s'.count b) ↔ (m b = some o ∧ 0 < s.count b)
    rw [hcount]
  have hdeleter : ∀ o t', HoldsObject s' m o (.deleter t') ↔
      HoldsObject s m o (.deleter t') := by
    intro o t'
    refine thread_iff hthread (P := fun th =>
      ∃ cb, th.frame = .deletingObject o cb) ?_ t'
    simp [hframe, hth]
  have hkeeps : HoldsObject s m o₀ (.handle h) := hp
  refine hs.objects_delete hkeeps hobject ?_ ?_ o
  · intro o x ho
    cases x with
    | caller t' => exact hcaller o t'
    | handle k =>
        rw [hhandles, and_iff_left_of_imp]
        intro hx hk
        have hx : s.handle k = some ⟨some o, none⟩ := hx
        rw [hk, hp] at hx
        cases hx
        exact ho rfl
    | block b => exact hblock o b
    | deleter t' => exact hdeleter o t'
  · intro x hx
    cases x with
    | caller t' => exact ⟨(hcaller o₀ t').1 hx, by simp⟩
    | handle k =>
        rw [hhandles] at hx
        exact ⟨hx.1, fun heq => hx.2 (Keeper.handle.inj heq)⟩
    | block b => exact ⟨(hblock o₀ b).1 hx, by simp⟩
    | deleter t' => exact ⟨(hdeleter o₀ t').1 hx, by simp⟩

/-- The constructor fails: the object it was given is deleted, there is no
handle, and the caller's local is next. -/
theorem Inv.resume_allocating [DecidableEq O] [DecidableEq B]
    (hs : Inv m s) {h : H} {u : Option H}
    (hframe : (s.thread t).frame = .allocating h u) :
    ∃ s', s.resume t = some s' ∧ Inv m s' := by
  obtain ⟨o, hp, hu, hcode, _⟩ := hs.fits_frame hframe
  have hkeeps : HoldsObject s m o (.handle h) := hp
  have hcb : s.cb h = none := cb_of_handle hp
  refine ⟨State.goto { s with
    handle := Function.update s.handle h none
    object := Function.update s.object o .deleted } t .idle
    (u.elim [] destructor), ?_, ?_⟩
  · simp only [State.resume, State.deleteObject, hframe, hp,
      hs.object_alive hkeeps, if_true, Option.map_some]
    rfl
  refine hs.next rfl ?_ (fun _ _ h => h) (hs.apart_of_subset ?_ ?_) ?_ ?_
    hs.unborn (counts_same (s := s) rfl ?_ rfl ?_ ?_ ?_ hs.counts)
    (blocks_same (s := s) rfl (fun _ => Iff.rfl) rfl ?_ hs.blocks)
    (hs.objects_fail hframe hp hcode rfl rfl (not_carries_unwind u _) rfl rfl
      rfl)
  · intro k hk
    refine Function.update_of_ne ?_ _ _
    intro heq
    rw [heq] at hk
    exact hk (mem_writes_of_frame hframe List.mem_cons_self)
  · intro k hk
    refine mem_writes_of_frame hframe (List.mem_cons_of_mem _ ?_)
    cases u with
    | none => cases hk
    | some x =>
        simpa [Thread.writes, Frame.writes, destructor, Call.writes] using hk
  · intro k hk
    cases u with
    | none => cases hk
    | some x =>
        simp [Thread.reads, Frame.reads, destructor, Call.reads] at hk
  · intro k hk p hp
    have hp : Function.update s.handle h none k = some p := hp
    have hkh : k ≠ h := by
      intro heq
      rw [heq, Function.update_self] at hp
      cases hp
    rw [Function.update_of_ne hkh] at hp
    refine Or.inl (hs.full_of_mem (Or.inl hk) ?_ hp)
    intro u' hf
    rw [hframe] at hf
    exact hkh (Frame.allocating.inj hf).1.symm
  · cases u with
    | none => trivial
    | some x =>
        have hx := hu x rfl
        have hxh : x ≠ h := by
          intro heq
          rw [heq, hp] at hx
          cases hx
        refine ⟨?_, Function.update_self _ _ _, trivial⟩
        show Function.update s.handle h none x ≠ none
        rw [Function.update_of_ne hxh, hx]
        simp
  · intro k
    show (Function.update s.handle h none k).bind _ = s.cb k
    by_cases hk : k = h
    · rw [hk, Function.update_self, hcb]
      rfl
    · rw [Function.update_of_ne hk]
      rfl
  · intro k other hf
    rw [hframe] at hf
    cases hf
  · intro k other hf
    cases hf
  · intro o' b
    simp [hframe]
  · intro b
    simp [hframe, Frame.Deletes]

omit [DecidableEq τ] in
/-- A block that was not made yet has nothing. -/
theorem Inv.count_unborn (hs : Inv m s) {b : B} (hb : s.block b = .unborn) :
    s.count b = 0 := by
  by_contra hne
  have hpos : HoldsBlock s b (none : Option τ) := Nat.pos_of_ne_zero hne
  rw [hs.block_alive hpos] at hb
  cases hb

section Alloc

variable [DecidableEq B] {h : H} {u : Option H} {b : B}
  {o : O}

theorem alloc_handle (hp : s.handle h = some ⟨some o, none⟩) :
    (s.alloc t h b).handle =
      Function.update s.handle h (some ⟨some o, some b⟩) := by
  show Function.update s.handle h ((s.handle h).map _) = _
  rw [hp]
  rfl

theorem alloc_count_self : (s.alloc t h b).count b = 1 :=
  Function.update_self _ _ _

theorem alloc_count_ne {b' : B} (hb : b' ≠ b) :
    (s.alloc t h b).count b' = s.count b' := Function.update_of_ne hb _ _

theorem alloc_block_self : (s.alloc t h b).block b = .alive :=
  Function.update_self _ _ _

theorem alloc_block_ne {b' : B} (hb : b' ≠ b) :
    (s.alloc t h b).block b' = s.block b' := Function.update_of_ne hb _ _

/-- The new block has one reference, the handle. -/
theorem Inv.counts_alloc (hs : Inv m s)
    (hframe : (s.thread t).frame = .allocating h u)
    (hb : s.block b = .unborn) (hp : s.handle h = some ⟨some o, none⟩)
    (b' : B) :
    {x | Owns (s.alloc t h b) b' x}.encard = (s.alloc t h b).count b' := by
  have hh : h ∈ (s.thread t).writes :=
    mem_writes_of_frame hframe List.mem_cons_self
  have hold : ∀ k other, (s.thread t).frame ≠ .incrementing k other := by
    intro k other hf
    rw [hframe] at hf
    cases hf
  have hpending : ∀ k, Pending (s.alloc t h b) k ↔ Pending s k := by
    refine pending_same (s := s) rfl hold ?_
    intro k other hf
    cases hf
  have hreleasing : ∀ t', Owns (s.alloc t h b) b' (.inr t') ↔
      Owns s b' (.inr t') := by
    refine owns_thread (s := s) rfl ?_
    intro o'
    simp [hframe]
  have hothers : ∀ k, k ≠ h → (Owns (s.alloc t h b) b' (.inl k) ↔
      Owns s b' (.inl k)) := by
    intro k hk
    refine owns_handle ?_ (hpending k)
    rw [State.cb, alloc_handle hp, Function.update_of_ne hk]
    rfl
  have hthis : Owns (s.alloc t h b) b' (.inl h) ↔ b' = b := by
    show (_ ∧ ¬ Pending _ h) ↔ b' = b
    rw [hpending, State.cb, alloc_handle hp, Function.update_self,
      and_iff_left (hs.not_pending (Or.inl hh) (hold h))]
    exact ⟨fun hx => (Option.some.inj hx).symm, fun hx => congrArg _ hx.symm⟩
  have hnot : ¬ Owns s b' (.inl h) := by
    intro hx
    have hx := hx.1
    rw [cb_of_handle hp] at hx
    cases hx
  by_cases hb' : b' = b
  · have hnone := hs.counts b'
    rw [hb', hs.count_unborn hb] at hnone
    rw [hb', alloc_count_self]
    rw [hb'] at hnot hthis hothers hreleasing
    refine encard_gain (a := (.inl h : H ⊕ τ)) hnot ?_ hnone
    intro x
    cases x with
    | inl k =>
        by_cases hk : k = h
        · rw [hk]
          exact iff_of_true (hthis.2 rfl) (Or.inl rfl)
        · rw [or_iff_right (fun hx => hk (Sum.inl.inj hx))]
          exact hothers k hk
    | inr t' =>
        rw [or_iff_right (fun hx => by cases hx)]
        exact hreleasing t'
  · rw [alloc_count_ne hb', ← hs.counts b']
    refine encard_congr ?_
    intro x
    cases x with
    | inl k =>
        by_cases hk : k = h
        · rw [hk]
          exact iff_of_false (fun hx => hb' (hthis.1 hx)) hnot
        · exact hothers k hk
    | inr t' => exact hreleasing t'

/-- And is kept by its count. -/
theorem Inv.blocks_alloc (hs : Inv m s)
    (hframe : (s.thread t).frame = .allocating h u)
    (hb : s.block b = .unborn) (b' : B) :
    {x | HoldsBlock (s.alloc t h b) b' x}.encard =
      if (s.alloc t h b).block b' = .alive then 1 else 0 := by
  have hdeletes : ∀ b' t', HoldsBlock (s.alloc t h b) b' (some t') ↔
      HoldsBlock s b' (some t') := by
    intro b' t'
    refine thread_iff (s := s) rfl (P := fun th => th.frame.Deletes b') ?_ t'
    simp [hframe, Frame.Deletes]
  by_cases hb' : b' = b
  · have hnone := hs.blocks b
    rw [if_neg (by rw [hb]; simp)] at hnone
    rw [hb', if_pos alloc_block_self]
    refine encard_gain (n := 0) (a := (none : Option τ)) ?_ ?_ hnone
    · exact not_of_encard_eq_zero hnone none
    · intro x
      cases x with
      | none =>
          refine iff_of_true ?_ (Or.inl rfl)
          show 0 < (s.alloc t h b).count b
          rw [alloc_count_self]
          omega
      | some t' =>
          rw [or_iff_right (by simp)]
          exact hdeletes b t'
  · rw [alloc_block_ne hb', ← hs.blocks b']
    refine encard_congr ?_
    intro x
    cases x with
    | none =>
        show 0 < (s.alloc t h b).count b' ↔ 0 < s.count b'
        rw [alloc_count_ne hb']
    | some t' => exact hdeletes b' t'

/-- The object goes from the handle to the block. -/
theorem Inv.objects_alloc (hs : Inv m s)
    (hframe : (s.thread t).frame = .allocating h u)
    (hb : s.block b = .unborn) (hp : s.handle h = some ⟨some o, none⟩)
    (o' : O) :
    {x | HoldsObject (s.alloc t h b) (Function.update m b (some o)) o'
      x}.encard = if s.object o' = .alive then 1 else 0 := by
  rw [← hs.objects o']
  refine encard_exchange (a := (.handle h : Keeper τ H B)) (c := .block b)
    ?_ ?_ ?_
  · show (s.alloc t h b).handle h = some ⟨some o', none⟩ ↔
      m b = some o' ∧ 0 < s.count b
    rw [alloc_handle hp, Function.update_self, hs.unborn b hb]
    simp
  · show (Function.update m b (some o) b = some o' ∧
      0 < (s.alloc t h b).count b) ↔ s.handle h = some ⟨some o', none⟩
    rw [Function.update_self, alloc_count_self, hp]
    simp
  · intro x hxh hxb
    cases x with
    | caller t' =>
        refine thread_iff (s := s) rfl (P := fun th => Carries th o') ?_ t'
        exact Iff.rfl
    | handle k =>
        have hkh : k ≠ h := fun heq => hxh (by rw [heq])
        show (s.alloc t h b).handle k = _ ↔ s.handle k = _
        rw [alloc_handle hp, Function.update_of_ne hkh]
    | block b' =>
        have hbb : b' ≠ b := fun heq => hxb (by rw [heq])
        show (Function.update m b (some o) b' = some o' ∧
          0 < (s.alloc t h b).count b') ↔ (m b' = some o' ∧ 0 < s.count b')
        rw [Function.update_of_ne hbb, alloc_count_ne hbb]
    | deleter t' =>
        refine thread_iff (s := s) rfl (P := fun th =>
          ∃ cb, th.frame = .deletingObject o' cb) ?_ t'
        simp [hframe]

/-- The constructor gets its block, and from here on the object is the
block's. -/
theorem Inv.alloc (hs : Inv m s)
    (hframe : (s.thread t).frame = .allocating h u)
    (hb : s.block b = .unborn) :
    ∃ o, Inv (Function.update m b (some o)) (s.alloc t h b) := by
  obtain ⟨o, hp, _, _, hfit⟩ := hs.fits_frame hframe
  have hh : h ∈ (s.thread t).writes :=
    mem_writes_of_frame hframe List.mem_cons_self
  have hm : ∀ b' o', m b' = some o' →
      Function.update m b (some o) b' = some o' := by
    intro b' o' hb'
    have hne : b' ≠ b := by
      intro heq
      rw [heq, hs.unborn b hb] at hb'
      cases hb'
    rw [Function.update_of_ne hne]
    exact hb'
  refine ⟨o, hs.next rfl ?_ hm (hs.apart_of_subset ?_ ?_) ?_ ?_ ?_
    (hs.counts_alloc hframe hb hp) (hs.blocks_alloc hframe hb)
    (hs.objects_alloc hframe hb hp)⟩
  · intro k hk
    rw [alloc_handle hp]
    refine Function.update_of_ne ?_ _ _
    intro heq
    rw [heq] at hk
    exact hk hh
  · exact fun k hk => List.mem_append_right _ hk
  · exact fun k hk => List.mem_append_right _ hk
  · intro k hk p hpk
    rw [alloc_handle hp] at hpk
    by_cases hkh : k = h
    · rw [hkh, Function.update_self] at hpk
      refine Or.inl (Or.inr ⟨o, b, (Option.some.inj hpk).symm, ?_⟩)
      exact Function.update_self _ _ _
    · rw [Function.update_of_ne hkh] at hpk
      refine Or.inl ((hs.full_of_mem (Or.inl hk) ?_ hpk).imp_right ?_)
      · intro u' hf
        rw [hframe] at hf
        exact hkh (Frame.allocating.inj hf).1.symm
      · intro hx
        obtain ⟨o', b', hx, hb'⟩ := hx
        exact ⟨o', b', hx, hm b' o' hb'⟩
  · rw [alloc_handle hp]
    exact hfit b
  · intro b' hb'
    have hne : b' ≠ b := by
      intro heq
      rw [heq, alloc_block_self] at hb'
      cases hb'
    rw [alloc_block_ne hne] at hb'
    rw [Function.update_of_ne hne]
    exact hs.unborn b' hb'

end Alloc

/-- Every step inside a frame is defined and keeps the invariant. -/
theorem Inv.resume [DecidableEq O] [DecidableEq B] (hs : Inv m s)
    (hframe : (s.thread t).frame ≠ .idle) :
    ∃ s', s.resume t = some s' ∧ Inv m s' := by
  cases hf : (s.thread t).frame with
  | idle => exact absurd hf hframe
  | allocating h u => exact hs.resume_allocating hf
  | incrementing h other => exact hs.resume_incrementing hf
  | decrementing o cb => exact hs.resume_decrementing hf
  | deletingObject o cb => exact hs.resume_deletingObject hf
  | deletingBlock cb => exact hs.resume_deletingBlock hf

end LearningCpp.SharedPtr
