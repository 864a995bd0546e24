import LearningCpp.SharedPtr.Invariant

/-!
# Every step keeps the count exact

One lemma for each step of the code, with the same two parts: the step is
defined, so nothing that was deleted is locked, read or deleted again, and the
invariant holds after it. What a step does to the holders is stated where it
happens: `copy_and_increment` and `release` split a change to a handle from
the change to the count, and between the two the reference belongs to nobody
or to the thread.
-/

namespace LearningCpp.SharedPtr

open LearningCpp.Lib

variable {τ H O B : Type*}

/-! ## What a step leaves alone -/

section Frame

variable [DecidableEq τ] {m : B → Option O} {s s' : State τ H O B} {t : τ}
  {th : Thread H O B}

theorem thread_other (hthread : s'.thread = Function.update s.thread t th)
    {t' : τ} (h : t' ≠ t) : s'.thread t' = s.thread t' := by
  rw [hthread, Function.update_of_ne h]

theorem thread_self (hthread : s'.thread = Function.update s.thread t th) :
    s'.thread t = th := by
  rw [hthread, Function.update_self]

/-- A predicate of threads is unchanged if it is for the one that moved. -/
theorem thread_iff (hthread : s'.thread = Function.update s.thread t th)
    {P : Thread H O B → Prop} (h : P th ↔ P (s.thread t)) (t' : τ) :
    P (s'.thread t') ↔ P (s.thread t') := by
  by_cases ht' : t' = t
  · rw [ht', thread_self hthread]
    exact h
  · rw [thread_other hthread ht']

theorem pending_iff (hthread : s'.thread = Function.update s.thread t th)
    {k : H} (hold : ∀ other, (s.thread t).frame ≠ .incrementing k other) :
    Pending s' k ↔ Pending s k ∨ ∃ other, th.frame = .incrementing k other := by
  constructor
  · intro h
    obtain ⟨t', other, h⟩ := h
    by_cases ht' : t' = t
    · rw [ht', thread_self hthread] at h
      exact Or.inr ⟨other, h⟩
    · rw [thread_other hthread ht'] at h
      exact Or.inl ⟨t', other, h⟩
  · intro h
    rcases h with ⟨t', other, h⟩ | ⟨other, h⟩
    · have ht' : t' ≠ t := by
        intro heq
        rw [heq] at h
        exact hold other h
      exact ⟨t', other, by rw [thread_other hthread ht']; exact h⟩
    · exact ⟨t, other, by rw [thread_self hthread]; exact h⟩

/-- No copy becomes pending or is counted in a step that has none to do with
an increment. -/
theorem pending_same (hthread : s'.thread = Function.update s.thread t th)
    (hold : ∀ k o, (s.thread t).frame ≠ .incrementing k o)
    (hnew : ∀ k o, th.frame ≠ .incrementing k o) (k : H) :
    Pending s' k ↔ Pending s k := by
  rw [pending_iff hthread (hold k), or_iff_left]
  intro h
  obtain ⟨other, h⟩ := h
  exact hnew k other h

omit [DecidableEq τ] in
theorem owns_handle {b : B} {k k' : H} (hcb : s'.cb k = s.cb k')
    (hpending : Pending s' k ↔ Pending s k') :
    Owns s' b (.inl k) ↔ Owns s b (.inl k') := by
  show (s'.cb k = some b ∧ ¬ Pending s' k) ↔
    (s.cb k' = some b ∧ ¬ Pending s k')
  rw [hcb, hpending]

theorem owns_thread (hthread : s'.thread = Function.update s.thread t th)
    {b : B} (hdec : ∀ o, th.frame = .decrementing o (some b) ↔
      (s.thread t).frame = .decrementing o (some b)) (t' : τ) :
    Owns s' b (.inr t') ↔ Owns s b (.inr t') := by
  refine exists_congr (fun o => ?_)
  exact thread_iff hthread
    (P := fun th => th.frame = .decrementing o (some b)) (hdec o) t'

/-- The references of a step that moves none. -/
theorem counts_same (hthread : s'.thread = Function.update s.thread t th)
    (hcb : ∀ k, s'.cb k = s.cb k) (hcount : s'.count = s.count)
    (hold : ∀ k o, (s.thread t).frame ≠ .incrementing k o)
    (hnew : ∀ k o, th.frame ≠ .incrementing k o)
    (hdec : ∀ o b, th.frame = .decrementing o b ↔
      (s.thread t).frame = .decrementing o b)
    (h : ∀ b, {x | Owns s b x}.encard = s.count b) (b : B) :
    {x | Owns s' b x}.encard = s'.count b := by
  rw [hcount, ← h b]
  refine encard_congr ?_
  intro x
  cases x with
  | inl k => exact owns_handle (hcb k) (pending_same hthread hold hnew k)
  | inr t' => exact owns_thread hthread (fun o => hdec o (some b)) t'

/-- The thread is on its way to delete the block. -/
def Frame.Deletes (b : B) (f : Frame H O B) : Prop :=
  (∃ o, f = .deletingObject o (some b)) ∨ f = .deletingBlock (some b)

theorem blocks_same (hthread : s'.thread = Function.update s.thread t th)
    (hcount : ∀ b, 0 < s'.count b ↔ 0 < s.count b)
    (hblock : s'.block = s.block)
    (hdel : ∀ b, th.frame.Deletes b ↔ (s.thread t).frame.Deletes b)
    (h : ∀ b, {x | HoldsBlock s b x}.encard =
      if s.block b = .alive then 1 else 0) (b : B) :
    {x | HoldsBlock s' b x}.encard =
      if s'.block b = .alive then 1 else 0 := by
  rw [hblock, ← h b]
  refine encard_congr ?_
  intro x
  cases x with
  | none => exact hcount b
  | some t' =>
      exact thread_iff hthread (P := fun th => th.frame.Deletes b) (hdel b) t'

theorem objects_same (hthread : s'.thread = Function.update s.thread t th)
    (hraw : ∀ k o, s'.handle k = some ⟨some o, none⟩ ↔
      s.handle k = some ⟨some o, none⟩)
    (hcount : ∀ b, 0 < s'.count b ↔ 0 < s.count b)
    (hobject : s'.object = s.object)
    (hcarry : ∀ o, Carries th o ↔ Carries (s.thread t) o)
    (hdel : ∀ o, (∃ cb, th.frame = .deletingObject o cb) ↔
      ∃ cb, (s.thread t).frame = .deletingObject o cb)
    (h : ∀ o, {x | HoldsObject s m o x}.encard =
      if s.object o = .alive then 1 else 0) (o : O) :
    {x | HoldsObject s' m o x}.encard =
      if s'.object o = .alive then 1 else 0 := by
  rw [hobject, ← h o]
  refine encard_congr ?_
  intro x
  cases x with
  | caller t' =>
      exact thread_iff hthread (P := fun th => Carries th o) (hcarry o) t'
  | handle k => exact hraw k o
  | block b => exact and_congr_right (fun _ => hcount b)
  | deleter t' =>
      exact thread_iff hthread (P := fun th =>
        ∃ cb, th.frame = .deletingObject o cb) (hdel o) t'

end Frame

variable {m : B → Option O} {s s' : State τ H O B} {t : τ}

/-! ## Calls -/

theorem SharedPointer.Full.ne_raw {p : SharedPointer O B} (h : p.Full m)
    (o : O) : p ≠ ⟨some o, none⟩ := by
  intro hp
  rcases h with rfl | ⟨o', b, rfl, _⟩
  · cases hp
  · cases hp

/-- The pointers of a full handle are set together. -/
theorem SharedPointer.Full.cases {p : SharedPointer O B} (h : p.Full m) :
    (p.ptr = none ∧ p.cb = none) ∨
      ∃ o b, p.ptr = some o ∧ p.cb = some b ∧ m b = some o := by
  rcases h with rfl | ⟨o, b, rfl, hb⟩
  · exact Or.inl ⟨rfl, rfl⟩
  · exact Or.inr ⟨o, b, rfl, rfl, hb⟩

@[simp] theorem cb_setHandle [DecidableEq H] (h k : H)
    (p : Option (SharedPointer O B)) : (s.setHandle h p).cb k =
      if k = h then p.bind SharedPointer.cb else s.cb k := by
  show (Function.update s.handle h p k).bind SharedPointer.cb = _
  rw [Function.update_apply]
  split <;> rfl

@[simp] theorem cb_goto [DecidableEq τ] (f : Frame H O B)
    (code : List (Call H O)) (k : H) : (s.goto t f code).cb k = s.cb k := rfl

theorem cb_of_handle {h : H} {p : Option (SharedPointer O B)}
    (hp : s.handle h = p) : s.cb h = p.bind SharedPointer.cb := by
  rw [State.cb, hp]

section Call

variable {c : Call H O} {rest : List (Call H O)}

theorem not_carries {th : Thread H O B}
    (h : ∀ c ∈ th.code, c.isAdopt = false) (o : O) : ¬ Carries th o := by
  intro hc
  obtain ⟨k, u, hmem⟩ := hc
  cases h _ hmem

theorem mem_writes_of_head (hcode : (s.thread t).code = c :: rest) {h : H}
    (hh : h ∈ c.writes) : h ∈ (s.thread t).writes := by
  refine List.mem_append_right _ ?_
  rw [hcode]
  exact List.mem_flatMap.2 ⟨c, List.mem_cons_self, hh⟩

theorem mem_reads_of_head (hcode : (s.thread t).code = c :: rest) {h : H}
    (hh : h ∈ c.reads) : h ∈ (s.thread t).reads := by
  refine List.mem_append_right _ ?_
  rw [hcode]
  exact List.mem_flatMap.2 ⟨c, List.mem_cons_self, hh⟩

theorem mem_writes_tail (hcode : (s.thread t).code = c :: rest) {h : H}
    (hh : h ∈ rest.flatMap Call.writes) : h ∈ (s.thread t).writes := by
  refine List.mem_append_right _ ?_
  rw [hcode, List.flatMap_cons]
  exact List.mem_append_right _ hh

theorem mem_reads_tail (hcode : (s.thread t).code = c :: rest) {h : H}
    (hh : h ∈ rest.flatMap Call.reads) : h ∈ (s.thread t).reads := by
  refine List.mem_append_right _ ?_
  rw [hcode, List.flatMap_cons]
  exact List.mem_append_right _ hh

variable [DecidableEq H]

/-- An idle thread can make the calls it has left. -/
theorem Inv.fits_code (hs : Inv m s) (hframe : (s.thread t).frame = .idle)
    (hcode : (s.thread t).code = c :: rest) :
    SharedPtr.Fits s.handle (c :: rest) := by
  have h := hs.fits t
  rw [Thread.Fits, hframe, hcode] at h
  exact h

variable [DecidableEq τ]

/-- A call that adopts no object and deletes nothing, given what it leaves of
the handles and who holds references then. -/
theorem Inv.after_call (hs : Inv m s) (hframe : (s.thread t).frame = .idle)
    (hcode : (s.thread t).code = c :: rest) (hadopt : c.isAdopt = false)
    {th : Thread H O B}
    (hthread : s'.thread = Function.update s.thread t th)
    (hrest : th.code = rest)
    (hwrites : ∀ h ∈ th.frame.writes, h ∈ c.writes)
    (hreads : ∀ h ∈ th.frame.reads, h ∈ c.reads)
    (hcount : s'.count = s.count) (hblock : s'.block = s.block)
    (hobject : s'.object = s.object)
    (hhandle : ∀ h, h ∉ c.writes → s'.handle h = s.handle h)
    (hdel : ∀ o b, th.frame ≠ .deletingObject o b)
    (hdel' : ∀ b, th.frame ≠ .deletingBlock b)
    (hfull : ∀ h ∈ c.writes, ∀ p, s'.handle h = some p → p.Full m)
    (hfits : th.Fits m s'.handle)
    (hcounts : ∀ b, {x | Owns s' b x}.encard = s.count b) : Inv m s' := by
  have hold : ∀ h ∈ c.writes, ∀ p, s.handle h = some p → p.Full m :=
    fun h hh p hp =>
      hs.full_of_idle hframe (Or.inl (mem_writes_of_head hcode hh)) hp
  refine hs.next hthread ?_ (fun _ _ h => h) (hs.apart_of_subset ?_ ?_) ?_
    hfits ?_ ?_ (blocks_same hthread ?_ hblock ?_ hs.blocks)
    (objects_same hthread ?_ ?_ hobject ?_ ?_ hs.objects)
  · intro h hh
    exact hhandle h (fun hc => hh (mem_writes_of_head hcode hc))
  · intro h hh
    rcases List.mem_append.1 hh with hh | hh
    · exact mem_writes_of_head hcode (hwrites h hh)
    · rw [hrest] at hh
      exact mem_writes_tail hcode hh
  · intro h hh
    rcases List.mem_append.1 hh with hh | hh
    · exact mem_reads_of_head hcode (hreads h hh)
    · rw [hrest] at hh
      exact mem_reads_tail hcode hh
  · intro h hh p hp
    by_cases hc : h ∈ c.writes
    · exact Or.inl (hfull h hc p hp)
    · rw [hhandle h hc] at hp
      exact Or.inl (hs.full_of_idle hframe (Or.inl hh) hp)
  · intro b hb
    rw [hblock] at hb
    exact hs.unborn b hb
  · intro b
    rw [hcount]
    exact hcounts b
  · intro b
    rw [hcount]
  · intro b
    rw [hframe]
    refine iff_of_false ?_ ?_
    · rintro (⟨o, ho⟩ | hb)
      · exact hdel o _ ho
      · exact hdel' _ hb
    · rintro (⟨o, ho⟩ | hb)
      · cases ho
      · cases hb
  · intro k o
    by_cases hc : k ∈ c.writes
    · refine iff_of_false (fun hk => ?_) (fun hk => ?_)
      · exact (hfull k hc _ hk).ne_raw o rfl
      · exact (hold k hc _ hk).ne_raw o rfl
    · rw [hhandle k hc]
  · intro b
    rw [hcount]
  · intro o
    have hne : ∀ h u, c ≠ .adopt h (some o) u := by
      rintro h u rfl
      cases hadopt
    rw [Carries, Carries, hrest, hcode]
    refine exists_congr (fun h => exists_congr (fun u => ?_))
    rw [List.mem_cons]
    exact ⟨Or.inr, fun hmem => hmem.resolve_left (hne h u).symm⟩
  · intro o
    rw [hframe]
    refine iff_of_false ?_ ?_
    · rintro ⟨cb, h⟩
      exact hdel o cb h
    · rintro ⟨cb, h⟩
      cases h

/-- Between two idle states the holders are those of the handles' blocks. -/
theorem Inv.counts_idle (hs : Inv m s) {th : Thread H O B}
    (hthread : s'.thread = Function.update s.thread t th)
    (hframe : (s.thread t).frame = .idle) (hnew : th.frame = .idle)
    (hcount : s'.count = s.count) (hcb : ∀ k, s'.cb k = s.cb k) (b : B) :
    {x | Owns s' b x}.encard = s.count b := by
  rw [← hcount]
  refine counts_same hthread hcb hcount ?_ ?_ ?_ hs.counts b
  · intro k o h
    rw [hframe] at h
    cases h
  · intro k o h
    rw [hnew] at h
    cases h
  · intro o b
    rw [hframe, hnew]

/-- Two handles trade blocks. -/
theorem Inv.counts_trade (hs : Inv m s) {th : Thread H O B}
    (hthread : s'.thread = Function.update s.thread t th)
    (hframe : (s.thread t).frame = .idle) (hnew : th.frame = .idle)
    {h other : H} (hh : h ∈ (s.thread t).writes)
    (ho : other ∈ (s.thread t).writes) (hcb : s'.cb h = s.cb other)
    (hcb' : s'.cb other = s.cb h)
    (hk : ∀ k, k ≠ h → k ≠ other → s'.cb k = s.cb k) (b : B) :
    {x | Owns s' b x}.encard = s.count b := by
  have hnot : ∀ k o, (s.thread t).frame ≠ .incrementing k o := by
    intro k o h
    rw [hframe] at h
    cases h
  have hpend : ∀ k, Pending s' k ↔ Pending s k := by
    refine pending_same hthread hnot ?_
    intro k o h
    rw [hnew] at h
    cases h
  have hph := hs.not_pending (Or.inl hh) (hnot h)
  have hpo := hs.not_pending (Or.inl ho) (hnot other)
  have howns : ∀ k k', ¬ Pending s k → ¬ Pending s k' →
      s'.cb k = s.cb k' → (Owns s' b (.inl k) ↔ Owns s b (.inl k')) := by
    intro k k' hpk hpk' hc
    exact owns_handle hc ((hpend k).trans (iff_of_false hpk hpk'))
  rw [← hs.counts b]
  refine encard_exchange (a := (.inl h : H ⊕ τ)) (c := .inl other)
    (howns h other hph hpo hcb) (howns other h hpo hph hcb') ?_
  intro x hxh hxo
  cases x with
  | inl k =>
      have hkh : k ≠ h := fun heq => hxh (by rw [heq])
      have hko : k ≠ other := fun heq => hxo (by rw [heq])
      exact owns_handle (hk k hkh hko) (hpend k)
  | inr t' =>
      refine owns_thread hthread ?_ t'
      intro o
      rw [hframe, hnew]

/-- A call that is over in one step and only changed handles. -/
theorem Inv.after_idle (hs : Inv m s) (hframe : (s.thread t).frame = .idle)
    (hcode : (s.thread t).code = c :: rest) (hadopt : c.isAdopt = false)
    {g : H → Option (SharedPointer O B)}
    (hg : ∀ h, h ∉ c.writes → g h = s.handle h)
    (hfull : ∀ h ∈ c.writes, ∀ p, g h = some p → p.Full m)
    (hfits : SharedPtr.Fits g rest)
    (hcounts : ∀ b,
      {x | Owns (State.goto { s with handle := g } t .idle rest) b x}.encard =
        s.count b) :
    Inv m (State.goto { s with handle := g } t .idle rest) := by
  refine hs.after_call hframe hcode hadopt rfl rfl ?_ ?_ rfl rfl rfl hg ?_ ?_
    hfull hfits hcounts
  · intro h hh; cases hh
  · intro h hh; cases hh
  · intro o b hf; cases hf
  · intro b hf; cases hf

theorem full_null : (SharedPointer.null : SharedPointer O B).Full m :=
  Or.inl rfl

/-- A handle that has no block before the call and none after it. -/
theorem Inv.after_null (hs : Inv m s)
    (hframe : (s.thread t).frame = .idle)
    (hcode : (s.thread t).code = c :: rest) (hadopt : c.isAdopt = false)
    {h : H} (hwrites : c.writes = [h]) (hcb : s.cb h = none)
    {p : Option (SharedPointer O B)} (hp : ∀ q, p = some q → q = .null)
    (hfits : SharedPtr.Fits (Function.update s.handle h p) rest) :
    Inv m ((s.setHandle h p).goto t .idle rest) := by
  have hnone : p.bind SharedPointer.cb = none := by
    cases p with
    | none => rfl
    | some q => rw [hp q rfl]; rfl
  refine hs.after_idle hframe hcode hadopt ?_ ?_ hfits
    (hs.counts_idle rfl hframe rfl rfl ?_)
  · intro k hk
    rw [hwrites] at hk
    exact Function.update_of_ne (List.ne_of_not_mem_cons hk) _ _
  · intro k hk q hq
    rw [hwrites] at hk
    rw [List.mem_singleton.1 hk, Function.update_self] at hq
    exact Or.inl (hp q hq)
  · intro k
    show ((s.setHandle h p).goto t .idle rest).cb k = s.cb k
    rw [cb_goto, cb_setHandle]
    split
    · next heq => rw [heq, hcb, hnone]
    · rfl

theorem Inv.call_construct (hs : Inv m s)
    (hframe : (s.thread t).frame = .idle) {h : H}
    (hcode : (s.thread t).code = .construct h :: rest) :
    ∃ s', s.call t (.construct h) rest = some s' ∧ Inv m s' := by
  obtain ⟨hnone, hfit⟩ := hs.fits_code hframe hcode
  refine ⟨(s.setHandle h (some .null)).goto t .idle rest, ?_, ?_⟩
  · simp only [State.call, hnone]
  · exact hs.after_null hframe hcode rfl rfl (cb_of_handle hnone)
      (fun q hq => (Option.some.inj hq).symm) hfit

theorem Inv.call_destruct (hs : Inv m s)
    (hframe : (s.thread t).frame = .idle) {h : H}
    (hcode : (s.thread t).code = .destruct h :: rest) :
    ∃ s', s.call t (.destruct h) rest = some s' ∧ Inv m s' := by
  obtain ⟨hnull, hfit⟩ := hs.fits_code hframe hcode
  refine ⟨(s.setHandle h none).goto t .idle rest, ?_, ?_⟩
  · simp only [State.call, hnull]
  · exact hs.after_null hframe hcode rfl rfl (cb_of_handle hnull)
      (fun q hq => by cases hq) hfit

/-- Two handles get each other's block, as by `swap` or by `steal` into a null
handle. -/
theorem Inv.after_trade (hs : Inv m s)
    (hframe : (s.thread t).frame = .idle)
    (hcode : (s.thread t).code = c :: rest) (hadopt : c.isAdopt = false)
    {h other : H} (hwrites : c.writes = [h, other]) (hne : h ≠ other)
    {p p' : SharedPointer O B} (hp : p.Full m) (hp' : p'.Full m)
    (hcb : p.cb = s.cb other) (hcb' : p'.cb = s.cb h)
    (hfits : SharedPtr.Fits (Function.update (Function.update s.handle h
      (some p)) other (some p')) rest) :
    Inv m (((s.setHandle h (some p)).setHandle other (some p')).goto t .idle
      rest) := by
  have hh : h ∈ (s.thread t).writes :=
    mem_writes_of_head hcode (by simp [hwrites])
  have ho : other ∈ (s.thread t).writes :=
    mem_writes_of_head hcode (by simp [hwrites])
  refine hs.after_idle hframe hcode hadopt ?_ ?_ hfits
    (hs.counts_trade rfl hframe rfl hh ho ?_ ?_ ?_)
  · intro k hk
    have hko : k ≠ other := fun heq => hk (by simp [hwrites, heq])
    have hkh : k ≠ h := fun heq => hk (by simp [hwrites, heq])
    rw [Function.update_of_ne hko]
    exact Function.update_of_ne hkh _ _
  · intro k hk q hq
    by_cases hko : k = other
    · rw [hko, Function.update_self] at hq
      rw [← Option.some.inj hq]
      exact hp'
    · rw [Function.update_of_ne hko] at hq
      have hkh : k = h := by simpa [hwrites, hko] using hk
      have hq : Function.update s.handle h (some p) k = some q := hq
      rw [hkh, Function.update_self] at hq
      rw [← Option.some.inj hq]
      exact hp
  · show (((s.setHandle h (some p)).setHandle other (some p')).goto t
      .idle rest).cb h = s.cb other
    rw [cb_goto, cb_setHandle, if_neg hne, cb_setHandle, if_pos rfl]
    exact hcb
  · show (((s.setHandle h (some p)).setHandle other (some p')).goto t
      .idle rest).cb other = s.cb h
    rw [cb_goto, cb_setHandle, if_pos rfl]
    exact hcb'
  · intro k hkh hko
    show (((s.setHandle h (some p)).setHandle other (some p')).goto t
      .idle rest).cb k = s.cb k
    rw [cb_goto, cb_setHandle, if_neg hko, cb_setHandle, if_neg hkh]

theorem Inv.call_steal (hs : Inv m s)
    (hframe : (s.thread t).frame = .idle) {h other : H}
    (hcode : (s.thread t).code = .steal h other :: rest) :
    ∃ s', s.call t (.steal h other) rest = some s' ∧ Inv m s' := by
  obtain ⟨hnull, hlive, hne, hfit⟩ := hs.fits_code hframe hcode
  obtain ⟨p, hp⟩ := Option.ne_none_iff_exists'.1 hlive
  rw [hp] at hfit
  have ho : other ∈ (s.thread t).writes :=
    mem_writes_of_head hcode (by simp [Call.writes])
  refine ⟨((s.setHandle h (some p)).setHandle other (some .null)).goto t .idle
    rest, ?_, ?_⟩
  · simp only [State.call, hnull, hp]
  · refine hs.after_trade hframe hcode rfl rfl hne
      (hs.full_of_idle hframe (Or.inl ho) hp) full_null ?_ ?_ hfit
    · rw [cb_of_handle hp]; rfl
    · rw [cb_of_handle hnull]; rfl

theorem Inv.call_swap (hs : Inv m s)
    (hframe : (s.thread t).frame = .idle) {h other : H}
    (hcode : (s.thread t).code = .swap h other :: rest) :
    ∃ s', s.call t (.swap h other) rest = some s' ∧ Inv m s' := by
  obtain ⟨hlive, hlive', hne, hfit⟩ := hs.fits_code hframe hcode
  obtain ⟨p, hp⟩ := Option.ne_none_iff_exists'.1 hlive
  obtain ⟨p', hp'⟩ := Option.ne_none_iff_exists'.1 hlive'
  rw [hp, hp'] at hfit
  have hh : h ∈ (s.thread t).writes :=
    mem_writes_of_head hcode List.mem_cons_self
  have ho : other ∈ (s.thread t).writes :=
    mem_writes_of_head hcode (by simp [Call.writes])
  refine ⟨((s.setHandle h (some p')).setHandle other (some p)).goto t .idle
    rest, ?_, ?_⟩
  · simp only [State.call, hp, hp']
  · refine hs.after_trade hframe hcode rfl rfl hne
      (hs.full_of_idle hframe (Or.inl ho) hp')
      (hs.full_of_idle hframe (Or.inl hh) hp) ?_ ?_ hfit
    · rw [cb_of_handle hp']; rfl
    · rw [cb_of_handle hp]; rfl

theorem Inv.call_getCount (hs : Inv m s)
    (hframe : (s.thread t).frame = .idle) {h : H}
    (hcode : (s.thread t).code = .getCount h :: rest) :
    ∃ s', s.call t (.getCount h) rest = some s' ∧ Inv m s' := by
  obtain ⟨hlive, hfit⟩ := hs.fits_code hframe hcode
  obtain ⟨p, hp⟩ := Option.ne_none_iff_exists'.1 hlive
  have hr : h ∈ (s.thread t).reads :=
    mem_reads_of_head hcode List.mem_cons_self
  obtain ⟨n, hn⟩ : ∃ n, s.getCount p = some n := by
    unfold State.getCount
    rcases (hs.full_of_idle hframe (Or.inr hr) hp).cases with
      ⟨_, hcb⟩ | ⟨_, b, _, hcb, _⟩
    · rw [hcb]
      exact ⟨0, rfl⟩
    · -- The handle itself is what keeps the block alive.
      have howns : Owns s b (.inl h) := by
        refine ⟨?_, hs.not_pending_of_idle hframe (Or.inr hr)⟩
        rw [cb_of_handle hp]
        exact hcb
      rw [hcb]
      simp only [(hs.alive_of_owns howns).2, if_true]
      exact ⟨_, rfl⟩
  refine ⟨{ s with
    thread := Function.update s.thread t ⟨.idle, rest, n⟩ }, ?_, ?_⟩
  · simp only [State.call, hp, hn]
  · refine hs.after_call hframe hcode rfl rfl rfl ?_ ?_ rfl rfl rfl
      (fun _ _ => rfl) ?_ ?_ ?_ hfit
      (hs.counts_idle rfl hframe rfl rfl (fun _ => rfl))
    · intro k hk; cases hk
    · intro k hk; cases hk
    · intro o b hf; cases hf
    · intro b hf; cases hf
    · intro k hk; cases hk

/-- A reference goes from the handle to the thread that releases it. -/
theorem Inv.counts_release (hs : Inv m s)
    (hframe : (s.thread t).frame = .idle) {h : H}
    (hh : h ∈ (s.thread t).writes) {o : O} {cb : Option B}
    (hcb : s.cb h = cb) (b : B) :
    {x | Owns ((s.setHandle h (some .null)).goto t (.decrementing o cb) rest)
      b x}.encard = s.count b := by
  have hnot : ∀ k o, (s.thread t).frame ≠ .incrementing k o := by
    intro k o hf
    rw [hframe] at hf
    cases hf
  rw [← hs.counts b]
  refine encard_exchange (a := (.inl h : H ⊕ τ)) (c := .inr t) ?_ ?_ ?_
  · refine iff_of_false (fun hx => ?_) (fun hx => ?_)
    · have hx := hx.1
      rw [cb_goto, cb_setHandle, if_pos rfl] at hx
      cases hx
    · obtain ⟨_, hx⟩ := hx
      rw [hframe] at hx
      cases hx
  · show (∃ o', (Function.update s.thread t _ t).frame =
      .decrementing o' (some b)) ↔ s.cb h = some b ∧ ¬ Pending s h
    rw [Function.update_self, hcb]
    constructor
    · intro hx
      obtain ⟨o', hx⟩ := hx
      refine ⟨?_, hs.not_pending_of_idle hframe (Or.inl hh)⟩
      exact (Frame.decrementing.inj hx).2
    · intro hx
      exact ⟨o, congrArg _ hx.1⟩
  · intro x hxh hxt
    cases x with
    | inl k =>
        have hkh : k ≠ h := fun heq => hxh (by rw [heq])
        refine owns_handle ?_ (pending_same rfl hnot ?_ k)
        · rw [cb_goto, cb_setHandle, if_neg hkh]
        · intro k o hf
          cases hf
    | inr t' =>
        have htt : t' ≠ t := fun heq => hxt (by rw [heq])
        refine exists_congr (fun o' => ?_)
        rw [thread_other rfl htt]
        rfl

/-- `release` up to its lock: the reference goes from the handle to the
thread. -/
theorem Inv.call_release (hs : Inv m s)
    (hframe : (s.thread t).frame = .idle) {h : H}
    (hcode : (s.thread t).code = .release h :: rest) :
    ∃ s', s.call t (.release h) rest = some s' ∧ Inv m s' := by
  obtain ⟨hlive, hfit⟩ := hs.fits_code hframe hcode
  obtain ⟨p, hp⟩ := Option.ne_none_iff_exists'.1 hlive
  have hh : h ∈ (s.thread t).writes :=
    mem_writes_of_head hcode List.mem_cons_self
  have hupdate : ∀ k, k ∉ (Call.release h : Call H O).writes →
      Function.update s.handle h (some .null) k = s.handle k :=
    fun k hk => Function.update_of_ne (List.ne_of_not_mem_cons hk) _ _
  have hnull : ∀ k ∈ (Call.release h : Call H O).writes,
      ∀ q, Function.update s.handle h (some .null) k = some q → q.Full m := by
    intro k hk q hq
    obtain rfl := List.mem_singleton.1 hk
    rw [Function.update_self] at hq
    exact Or.inl (Option.some.inj hq).symm
  rcases (hs.full_of_idle hframe (Or.inl hh) hp).cases with
    ⟨hptr, hcb⟩ | ⟨o, b₀, hptr, hcb, hm⟩
  · refine ⟨(s.setHandle h (some .null)).goto t .idle rest, ?_, ?_⟩
    · simp only [State.call, hp, hptr]
    · exact hs.after_null hframe hcode rfl rfl ((cb_of_handle hp).trans hcb)
        (fun q hq => (Option.some.inj hq).symm) hfit
  · refine ⟨(s.setHandle h (some .null)).goto t (.decrementing o p.cb) rest,
      ?_, ?_⟩
    · simp only [State.call, hp, hptr]
    · refine hs.after_call hframe hcode rfl rfl rfl ?_ ?_ rfl rfl rfl hupdate
        ?_ ?_ hnull ⟨⟨b₀, hcb, hm⟩, hfit⟩ ?_
      · intro k hk; cases hk
      · intro k hk; cases hk
      · intro o b hf; cases hf
      · intro b hf; cases hf
      · exact hs.counts_release hframe hh (cb_of_handle hp)

/-- A copy that is not counted yet is nobody's reference. -/
theorem Inv.counts_copy (hs : Inv m s)
    (hframe : (s.thread t).frame = .idle) {h other : H}
    (hcb : s.cb h = none) {p : Option (SharedPointer O B)} (b : B) :
    {x | Owns ((s.setHandle h p).goto t (.incrementing h other) rest)
      b x}.encard = s.count b := by
  have hnot : ∀ k o, (s.thread t).frame ≠ .incrementing k o := by
    intro k o hf
    rw [hframe] at hf
    cases hf
  rw [← hs.counts b]
  refine encard_congr ?_
  intro x
  cases x with
  | inl k =>
      by_cases hk : k = h
      · refine iff_of_false (fun hx => ?_) (fun hx => ?_)
        · exact hx.2 ((pending_iff rfl (hnot k)).2
            (Or.inr ⟨other, by rw [hk]⟩))
        · have hx := hx.1
          rw [hk, hcb] at hx
          cases hx
      · refine owns_handle ?_ ?_
        · rw [cb_goto, cb_setHandle, if_neg hk]
        · rw [pending_iff rfl (hnot k), or_iff_left]
          intro hf
          obtain ⟨other', hf⟩ := hf
          exact hk (Frame.incrementing.inj hf).1.symm
  | inr t' =>
      refine owns_thread rfl ?_ t'
      intro o
      rw [hframe]
      exact iff_of_false (fun hf => by cases hf) (fun hf => by cases hf)

/-- `copy_and_increment` up to its lock: the pointers are there, and the copy
is nobody's reference yet. -/
theorem Inv.call_copyAndIncrement (hs : Inv m s)
    (hframe : (s.thread t).frame = .idle) {h other : H}
    (hcode : (s.thread t).code = .copyAndIncrement h other :: rest) :
    ∃ s', s.call t (.copyAndIncrement h other) rest = some s' ∧
      Inv m s' := by
  obtain ⟨hnull, hlive, hfit⟩ := hs.fits_code hframe hcode
  obtain ⟨p, hp⟩ := Option.ne_none_iff_exists'.1 hlive
  rw [hp] at hfit
  have hr : other ∈ (s.thread t).reads :=
    mem_reads_of_head hcode List.mem_cons_self
  have hfull := hs.full_of_idle hframe (Or.inr hr) hp
  have hcb : s.cb h = none := cb_of_handle hnull
  have hupdate : ∀ k, k ∉ (Call.copyAndIncrement h other : Call H O).writes →
      Function.update s.handle h (some p) k = s.handle k :=
    fun k hk => Function.update_of_ne (List.ne_of_not_mem_cons hk) _ _
  have hfull' : ∀ k ∈ (Call.copyAndIncrement h other : Call H O).writes,
      ∀ q, Function.update s.handle h (some p) k = some q → q.Full m := by
    intro k hk q hq
    obtain rfl := List.mem_singleton.1 hk
    rw [Function.update_self] at hq
    rw [← Option.some.inj hq]
    exact hfull
  refine ⟨(s.setHandle h (some p)).goto t
    (if p.cb = none then .idle else .incrementing h other) rest,
    by simp only [State.call, hnull, hp], ?_⟩
  rcases hfull with rfl | ⟨o, b₀, rfl, hm⟩
  · rw [if_pos (show (SharedPointer.null : SharedPointer O B).cb = none
      from rfl)]
    exact hs.after_null hframe hcode rfl rfl hcb
      (fun q hq => (Option.some.inj hq).symm) hfit
  · have hne : other ≠ h := by
      rintro rfl
      rw [hnull] at hp
      cases hp
    rw [if_neg (fun hno => by cases hno)]
    refine hs.after_call hframe hcode rfl rfl rfl (fun k hk => hk)
      (fun k hk => hk) rfl rfl rfl hupdate ?_ ?_ hfull' ?_ ?_
    · intro o b hf; cases hf
    · intro b hf; cases hf
    · refine ⟨hne.symm, ?_, ⟨some o, b₀, Function.update_self _ _ _⟩, hfit⟩
      show Function.update s.handle h _ h = Function.update s.handle h _ other
      rw [Function.update_self, Function.update_of_ne hne, hp]
    · exact hs.counts_copy hframe hcb

/-- The object goes from the caller to the handle. -/
theorem Inv.objects_adopt (hs : Inv m s) {h : H} {o : O} {u : Option H}
    (hframe : (s.thread t).frame = .idle)
    (hcode : (s.thread t).code = .adopt h (some o) u :: rest)
    (hnone : s.handle h = none) (hrest : ∀ c ∈ rest, c.isAdopt = false)
    (o' : O) :
    {x | HoldsObject ((s.setHandle h (some ⟨some o, none⟩)).goto t
      (.allocating h u) rest) m o' x}.encard =
      if s.object o' = .alive then 1 else 0 := by
  rw [← hs.objects o']
  refine encard_exchange (a := (.caller t : Keeper τ H B)) (c := .handle h)
    ?_ ?_ ?_
  · refine iff_of_false (fun hx => ?_) (fun hx => ?_)
    · have hx : Carries (Function.update s.thread t _ t) o' := hx
      rw [Function.update_self] at hx
      exact not_carries hrest o' hx
    · have hx : s.handle h = some ⟨some o', none⟩ := hx
      rw [hnone] at hx
      cases hx
  · show Function.update s.handle h _ h = some ⟨some o', none⟩ ↔
      Carries (s.thread t) o'
    rw [Function.update_self, Carries, hcode]
    constructor
    · intro hx
      cases hx
      exact ⟨h, u, List.mem_cons_self⟩
    · intro hx
      obtain ⟨k, u', hx⟩ := hx
      rcases List.mem_cons.1 hx with heq | hx
      · cases heq
        rfl
      · cases hrest _ hx
  · intro x hxt hxh
    cases x with
    | caller t' =>
        have htt : t' ≠ t := fun heq => hxt (by rw [heq])
        show Carries _ o' ↔ Carries _ o'
        rw [thread_other rfl htt]
        rfl
    | handle k =>
        have hkh : k ≠ h := fun heq => hxh (by rw [heq])
        show Function.update s.handle h _ k = _ ↔ s.handle k = _
        rw [Function.update_of_ne hkh]
    | block b => exact Iff.rfl
    | deleter t' =>
        refine thread_iff (s := s) rfl (P := fun th =>
          ∃ cb, th.frame = .deletingObject o' cb) ?_ t'
        rw [hframe]
        constructor
        · intro hf; obtain ⟨_, hf⟩ := hf; cases hf
        · intro hf; obtain ⟨_, hf⟩ := hf; cases hf

/-- The constructor up to the allocation: the object goes from the caller to a
handle without a block. -/
theorem Inv.call_adopt (hs : Inv m s)
    (hframe : (s.thread t).frame = .idle) {h : H} {pointer : Option O}
    {u : Option H} (hcode : (s.thread t).code = .adopt h pointer u :: rest) :
    ∃ s', s.call t (.adopt h pointer u) rest = some s' ∧ Inv m s' := by
  obtain ⟨hnone, hpointer, hu, hrest, hfit⟩ := hs.fits_code hframe hcode
  obtain ⟨o, rfl⟩ := Option.ne_none_iff_exists'.1 hpointer
  have hself : ∀ p : Option (SharedPointer O B),
      Function.update s.handle h p h = p :=
    fun p => Function.update_self h p s.handle
  refine ⟨(s.setHandle h (some ⟨some o, none⟩)).goto t (.allocating h u) rest,
    by simp only [State.call, hnone], ?_⟩
  refine hs.next rfl ?_ (fun _ _ h => h) (hs.apart_of_subset ?_ ?_) ?_ ?_
    hs.unborn ?_
    (blocks_same (s := s) rfl (fun _ => Iff.rfl) rfl ?_ hs.blocks)
    (hs.objects_adopt hframe hcode hnone hrest)
  · intro k hk
    refine Function.update_of_ne ?_ _ _
    rintro rfl
    exact hk (mem_writes_of_head hcode List.mem_cons_self)
  · intro k hk
    rcases List.mem_append.1 hk with hk | hk
    · exact mem_writes_of_head hcode hk
    · exact mem_writes_tail hcode hk
  · intro k hk
    rcases List.mem_append.1 hk with hk | hk
    · cases hk
    · exact mem_reads_tail hcode hk
  · intro k hk p hp
    by_cases hkh : k = h
    · exact Or.inr ⟨u, by rw [hkh]⟩
    · have hp : Function.update s.handle h _ k = some p := hp
      rw [Function.update_of_ne hkh] at hp
      exact Or.inl (hs.full_of_idle hframe (Or.inl hk) hp)
  · refine ⟨o, hself _, ?_, hrest, ?_⟩
    · intro x hx
      have hxh : x ≠ h := by
        rintro rfl
        have hnull := hu x hx
        rw [hnone] at hnull
        cases hnull
      show Function.update s.handle h _ x = some .null
      rw [Function.update_of_ne hxh]
      exact hu x hx
    · intro b
      show SharedPtr.Fits (Function.update (Function.update s.handle h _) h _)
        rest
      rw [Function.update_idem]
      exact hfit b
  · refine counts_same (s := s) rfl ?_ rfl ?_ ?_ ?_ hs.counts
    · intro k
      rw [cb_goto, cb_setHandle]
      split
      · next heq => rw [heq, cb_of_handle hnone]; rfl
      · rfl
    · intro k o' hf
      rw [hframe] at hf
      cases hf
    · intro k o' hf
      cases hf
    · intro o' b
      rw [hframe]
      exact iff_of_false (fun hf => by cases hf) (fun hf => by cases hf)
  · intro b
    rw [hframe]
    refine iff_of_false ?_ ?_
    · rintro (⟨o', hf⟩ | hf)
      · cases hf
      · cases hf
    · rintro (⟨o', hf⟩ | hf)
      · cases hf
      · cases hf

/-- Every call a thread has left is defined and keeps the invariant. -/
theorem Inv.call (hs : Inv m s) (hframe : (s.thread t).frame = .idle)
    (hcode : (s.thread t).code = c :: rest) :
    ∃ s', s.call t c rest = some s' ∧ Inv m s' := by
  cases c with
  | construct h => exact hs.call_construct hframe hcode
  | adopt h p u => exact hs.call_adopt hframe hcode
  | copyAndIncrement h other => exact hs.call_copyAndIncrement hframe hcode
  | release h => exact hs.call_release hframe hcode
  | steal h other => exact hs.call_steal hframe hcode
  | swap h other => exact hs.call_swap hframe hcode
  | destruct h => exact hs.call_destruct hframe hcode
  | getCount h => exact hs.call_getCount hframe hcode

end Call

end LearningCpp.SharedPtr
