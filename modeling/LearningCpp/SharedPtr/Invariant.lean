import LearningCpp.Lib.Token
import LearningCpp.SharedPtr.Model

/-!
# What the count counts

A reference is held by whoever will release it: a handle whose block it is, or
a thread that has taken it out of a handle in `release` and not yet decremented
the count. A copy that has not been counted yet holds nothing. With this the
count is exact in every state, not only between operations, and each step of
the code is one of three things to the holders of a block: two trade places,
one is gained, or one is lost.

Deletion works the same way with one holder. A block is there as long as its
count is positive or a thread is on its way to delete it; an object as long as
it is in a raw pointer, under a block with a positive count, or on its way.

That the code loses no reference on the way, that `steal` overwrites only a null
handle and that only null handles are destroyed, is a matter of what a member
function did just before. `Fits` says that the calls a thread has left, made
one after the other from the handles as they are, respect this.
-/

namespace LearningCpp.SharedPtr

open LearningCpp.Lib

variable {τ H O B : Type*}

/-- Both pointers null, or both set and the block is the one made for the
object. -/
def SharedPointer.Full (m : B → Option O) (p : SharedPointer O B) : Prop :=
  p = .null ∨ ∃ o b, p = ⟨some o, some b⟩ ∧ m b = some o

def Call.isAdopt : Call H O → Bool
  | .adopt _ _ _ => true
  | _ => false

theorem mem_thread_of_call {th : Thread H O B} {c : Call H O}
    (hc : c ∈ th.code) {x : H} (hx : x ∈ c.writes ++ c.reads) :
    x ∈ th.writes ∨ x ∈ th.reads := by
  rcases List.mem_append.1 hx with hx | hx
  · exact Or.inl (List.mem_append_right _ (List.mem_flatMap.2 ⟨c, hc, hx⟩))
  · exact Or.inr (List.mem_append_right _ (List.mem_flatMap.2 ⟨c, hc, hx⟩))

section Fits

variable [DecidableEq H]

/-- The calls can be made from these handles without losing a reference. -/
def Fits (hd : H → Option (SharedPointer O B)) : List (Call H O) → Prop
  | [] => True
  | .construct h :: c =>
    hd h = none ∧ Fits (Function.update hd h (some .null)) c
  | .adopt h p unwind :: c =>
    hd h = none ∧ p ≠ none ∧ (∀ x ∈ unwind, hd x = some .null) ∧
      (∀ x ∈ c, x.isAdopt = false) ∧
      ∀ b, Fits (Function.update hd h (some ⟨p, some b⟩)) c
  | .copyAndIncrement h other :: c =>
    hd h = some .null ∧ hd other ≠ none ∧
      Fits (Function.update hd h (hd other)) c
  | .release h :: c =>
    hd h ≠ none ∧ Fits (Function.update hd h (some .null)) c
  | .steal h other :: c =>
    hd h = some .null ∧ hd other ≠ none ∧ h ≠ other ∧
      Fits (Function.update (Function.update hd h (hd other)) other
        (some .null)) c
  | .swap h other :: c =>
    hd h ≠ none ∧ hd other ≠ none ∧ h ≠ other ∧
      Fits (Function.update (Function.update hd h (hd other)) other (hd h)) c
  | .destruct h :: c =>
    hd h = some .null ∧ Fits (Function.update hd h none) c
  | .getCount h :: c => hd h ≠ none ∧ Fits hd c

/-- Where a thread is inside a call and the calls it has left. -/
def Thread.Fits (m : B → Option O) (hd : H → Option (SharedPointer O B))
    (th : Thread H O B) : Prop :=
  match th.frame with
  | .idle => SharedPtr.Fits hd th.code
  | .allocating h unwind =>
    ∃ p, hd h = some ⟨some p, none⟩ ∧ (∀ x ∈ unwind, hd x = some .null) ∧
      (∀ x ∈ th.code, x.isAdopt = false) ∧
      ∀ b, SharedPtr.Fits (Function.update hd h (some ⟨some p, some b⟩))
        th.code
  | .incrementing h other =>
    h ≠ other ∧ hd h = hd other ∧ (∃ p b, hd h = some ⟨p, some b⟩) ∧
      SharedPtr.Fits hd th.code
  | .decrementing oldPtr oldCb =>
    (∃ b, oldCb = some b ∧ m b = some oldPtr) ∧ SharedPtr.Fits hd th.code
  | .deletingObject oldPtr oldCb =>
    (∃ b, oldCb = some b ∧ m b = some oldPtr) ∧ SharedPtr.Fits hd th.code
  | .deletingBlock oldCb =>
    (∃ b, oldCb = some b) ∧ SharedPtr.Fits hd th.code

theorem update_agree {hd hd' : H → Option (SharedPointer O B)} {l : List H}
    (h : ∀ x ∈ l, hd' x = hd x) (k : H) (v : Option (SharedPointer O B)) :
    ∀ x ∈ l, Function.update hd' k v x = Function.update hd k v x := by
  intro x hx
  by_cases hxk : x = k
  · rw [hxk, Function.update_self, Function.update_self]
  · rw [Function.update_of_ne hxk, Function.update_of_ne hxk]
    exact h x hx

/-- Only the handles the calls name matter. -/
theorem Fits.congr {code : List (Call H O)} :
    ∀ {hd hd' : H → Option (SharedPointer O B)},
      (∀ c ∈ code, ∀ x ∈ c.writes ++ c.reads, hd' x = hd x) →
      Fits hd code → Fits hd' code := by
  induction code with
  | nil => intro _ _ _ _; trivial
  | cons c code ih =>
      intro hd hd' hagree h
      have hhead := hagree c List.mem_cons_self
      have hrest : ∀ x ∈ code.flatMap (fun c => c.writes ++ c.reads),
          hd' x = hd x := by
        intro x hx
        obtain ⟨c', hc', hx⟩ := List.mem_flatMap.1 hx
        exact hagree c' (List.mem_cons_of_mem _ hc') x hx
      have hnext : ∀ {g g' : H → Option (SharedPointer O B)},
          (∀ x ∈ code.flatMap (fun c => c.writes ++ c.reads), g' x = g x) →
          Fits g code → Fits g' code := by
        intro g g' hg
        refine ih ?_
        intro c' hc' x hx
        exact hg x (List.mem_flatMap.2 ⟨c', hc', hx⟩)
      cases c with
      | construct k =>
          obtain ⟨hk, hf⟩ := h
          rw [← hhead k (by simp [Call.writes])] at hk
          exact ⟨hk, hnext (update_agree hrest _ _) hf⟩
      | adopt k p unwind =>
          obtain ⟨hk, hp, hu, ha, hf⟩ := h
          rw [← hhead k (by simp [Call.writes])] at hk
          refine ⟨hk, hp, ?_, ha, fun b => hnext (update_agree hrest _ _) (hf b)⟩
          intro x hx
          rw [hhead x (by simp [Call.writes, Option.mem_def.1 hx])]
          exact hu x hx
      | copyAndIncrement k other =>
          obtain ⟨hk, ho, hf⟩ := h
          have hother := hhead other (by simp [Call.reads])
          rw [← hhead k (by simp [Call.writes])] at hk
          rw [← hother] at ho hf
          exact ⟨hk, ho, hnext (update_agree hrest _ _) hf⟩
      | release k =>
          obtain ⟨hk, hf⟩ := h
          rw [← hhead k (by simp [Call.writes])] at hk
          exact ⟨hk, hnext (update_agree hrest _ _) hf⟩
      | steal k other =>
          obtain ⟨hk, ho, hne, hf⟩ := h
          have hother := hhead other (by simp [Call.writes])
          rw [← hhead k (by simp [Call.writes])] at hk
          rw [← hother] at ho hf
          exact ⟨hk, ho, hne,
            hnext (update_agree (update_agree hrest _ _) _ _) hf⟩
      | swap k other =>
          obtain ⟨hk, ho, hne, hf⟩ := h
          have hother := hhead other (by simp [Call.writes])
          have hself := hhead k (by simp [Call.writes])
          rw [← hself] at hk hf
          rw [← hother] at ho hf
          exact ⟨hk, ho, hne,
            hnext (update_agree (update_agree hrest _ _) _ _) hf⟩
      | destruct k =>
          obtain ⟨hk, hf⟩ := h
          rw [← hhead k (by simp [Call.writes])] at hk
          exact ⟨hk, hnext (update_agree hrest _ _) hf⟩
      | getCount k =>
          obtain ⟨hk, hf⟩ := h
          rw [← hhead k (by simp [Call.reads])] at hk
          exact ⟨hk, hnext hrest hf⟩

/-- So only the handles a thread names matter to it, and the blocks that were
made for objects stay theirs. -/
theorem Thread.Fits.congr {m m' : B → Option O}
    {hd hd' : H → Option (SharedPointer O B)} {th : Thread H O B}
    (hm : ∀ b o, m b = some o → m' b = some o)
    (hagree : ∀ x, x ∈ th.writes ∨ x ∈ th.reads → hd' x = hd x)
    (h : th.Fits m hd) : th.Fits m' hd' := by
  have hcode : ∀ c ∈ th.code, ∀ x ∈ c.writes ++ c.reads, hd' x = hd x :=
    fun c hc x hx => hagree x (mem_thread_of_call hc hx)
  have hnames : ∀ x, x ∈ th.frame.writes ∨ x ∈ th.frame.reads →
      hd' x = hd x := by
    intro x hx
    refine hagree x (hx.imp ?_ ?_)
    · exact List.mem_append_left _
    · exact List.mem_append_left _
  obtain ⟨frame, code, n⟩ := th
  cases frame with
  | idle => exact SharedPtr.Fits.congr hcode h
  | allocating k unwind =>
      obtain ⟨p, hk, hu, ha, hf⟩ := h
      refine ⟨p, ?_, ?_, ha, ?_⟩
      · rw [hnames k (by simp [Frame.writes])]
        exact hk
      · intro x hx
        rw [hnames x (by simp [Frame.writes, Option.mem_def.1 hx])]
        exact hu x hx
      · intro b
        refine (hf b).congr ?_
        intro c hc x hx
        by_cases hxk : x = k
        · rw [hxk, Function.update_self, Function.update_self]
        · rw [Function.update_of_ne hxk, Function.update_of_ne hxk]
          exact hcode c hc x hx
  | incrementing k other =>
      obtain ⟨hne, heq, hk, hf⟩ := h
      have hself := hnames k (by simp [Frame.writes])
      have hother := hnames other (by simp [Frame.reads])
      refine ⟨hne, ?_, ?_, hf.congr hcode⟩
      · show hd' k = hd' other
        rw [hself, hother]
        exact heq
      · show ∃ p b, hd' k = some ⟨p, some b⟩
        rw [hself]
        exact hk
  | decrementing oldPtr oldCb =>
      obtain ⟨⟨b, hb, hmb⟩, hf⟩ := h
      exact ⟨⟨b, hb, hm b _ hmb⟩, hf.congr hcode⟩
  | deletingObject oldPtr oldCb =>
      obtain ⟨⟨b, hb, hmb⟩, hf⟩ := h
      exact ⟨⟨b, hb, hm b _ hmb⟩, hf.congr hcode⟩
  | deletingBlock oldCb =>
      obtain ⟨hb, hf⟩ := h
      exact ⟨hb, hf.congr hcode⟩

end Fits

/-! ## Holders -/

/-- A copy into the handle has not been counted yet. -/
def Pending (s : State τ H O B) (h : H) : Prop :=
  ∃ t other, (s.thread t).frame = .incrementing h other

/-- Who holds a reference to the block `b`. -/
def Owns (s : State τ H O B) (b : B) : H ⊕ τ → Prop
  | .inl h => s.cb h = some b ∧ ¬ Pending s h
  | .inr t => ∃ o, (s.thread t).frame = .decrementing o (some b)

/-- Who keeps the block `b` from being deleted: its count (`none`), or the
thread that is going to delete it. -/
def HoldsBlock (s : State τ H O B) (b : B) : Option τ → Prop
  | none => 0 < s.count b
  | some t => (∃ o, (s.thread t).frame = .deletingObject o (some b)) ∨
      (s.thread t).frame = .deletingBlock (some b)

/-- A thread has been given the object and has not made a handle of it. -/
def Carries (th : Thread H O B) (o : O) : Prop :=
  ∃ h u, .adopt h (some o) u ∈ th.code

/-- Who can keep an object from being deleted. -/
inductive Keeper (τ H B : Type*) where
  | caller (t : τ)
  | handle (h : H)
  | block (b : B)
  | deleter (t : τ)

/-- Who keeps the object `o` from being deleted: the thread that was given it,
the handle it is in until there is a block, the block as long as it is counted,
or the thread that is going to delete it. -/
def HoldsObject (s : State τ H O B) (m : B → Option O) (o : O) :
    Keeper τ H B → Prop
  | .caller t => Carries (s.thread t) o
  | .handle h => s.handle h = some ⟨some o, none⟩
  | .block b => m b = some o ∧ 0 < s.count b
  | .deleter t => ∃ cb, (s.thread t).frame = .deletingObject o cb

/-- What holds in every state, `m` being the objects the blocks were made
for. -/
structure Inv [DecidableEq H] (m : B → Option O) (s : State τ H O B) :
    Prop where
  full : ∀ h p, s.handle h = some p →
    p.Full m ∨ ∃ t u, (s.thread t).frame = .allocating h u
  fits : ∀ t, (s.thread t).Fits m s.handle
  apart : ∀ t t', t' ≠ t → ∀ h ∈ (s.thread t).writes,
    h ∉ (s.thread t').writes ∧ h ∉ (s.thread t').reads
  unborn : ∀ b, s.block b = .unborn → m b = none
  counts : ∀ b, {x | Owns s b x}.encard = s.count b
  blocks : ∀ b, {x | HoldsBlock s b x}.encard =
    if s.block b = .alive then 1 else 0
  objects : ∀ o, {x | HoldsObject s m o x}.encard =
    if s.object o = .alive then 1 else 0

section Inv

variable [DecidableEq H]

section Consequences

variable {m : B → Option O} {s : State τ H O B} {t : τ} {th : Thread H O B}

/-- What a thread still names it may go on naming. -/
theorem Inv.apart_of_subset (hs : Inv m s)
    (hwrites : ∀ h ∈ th.writes, h ∈ (s.thread t).writes)
    (hreads : ∀ h ∈ th.reads, h ∈ (s.thread t).reads) :
    ∀ t', t' ≠ t → (∀ h ∈ th.writes,
      h ∉ (s.thread t').writes ∧ h ∉ (s.thread t').reads) ∧
      ∀ h ∈ th.reads, h ∉ (s.thread t').writes := by
  intro t' ht'
  refine ⟨fun h hh => hs.apart t t' ht' h (hwrites h hh), ?_⟩
  intro h hh hw
  exact (hs.apart t' t (Ne.symm ht') h hw).2 (hreads h hh)

theorem Inv.not_pending (hs : Inv m s) {h : H}
    (hw : h ∈ (s.thread t).writes ∨ h ∈ (s.thread t).reads)
    (hf : ∀ o, (s.thread t).frame ≠ .incrementing h o) : ¬ Pending s h := by
  intro hp
  obtain ⟨t', other, hp⟩ := hp
  have hmem : h ∈ (s.thread t').writes := by
    refine List.mem_append_left _ ?_
    rw [hp]
    exact List.mem_cons_self
  have hne : t ≠ t' := by
    rintro rfl
    exact hf other hp
  have hno := hs.apart t' t hne h hmem
  exact hw.elim hno.1 hno.2

/-- A handle a thread names is not under construction elsewhere. -/
theorem Inv.full_of_mem (hs : Inv m s) {h : H} {p : SharedPointer O B}
    (hw : h ∈ (s.thread t).writes ∨ h ∈ (s.thread t).reads)
    (hf : ∀ u, (s.thread t).frame ≠ .allocating h u)
    (hp : s.handle h = some p) : p.Full m := by
  rcases hs.full h p hp with hfull | ⟨t', u, hu⟩
  · exact hfull
  · have hmem : h ∈ (s.thread t').writes := by
      refine List.mem_append_left _ ?_
      rw [hu]
      exact List.mem_cons_self
    have hne : t ≠ t' := by
      rintro rfl
      exact hf u hu
    have hno := hs.apart t' t hne h hmem
    exact (hw.elim hno.1 hno.2).elim

/-- The handles an idle thread names are full. -/
theorem Inv.full_of_idle (hs : Inv m s) (hframe : (s.thread t).frame = .idle)
    {h : H} {p : SharedPointer O B}
    (hw : h ∈ (s.thread t).writes ∨ h ∈ (s.thread t).reads)
    (hp : s.handle h = some p) : p.Full m := by
  refine hs.full_of_mem hw ?_ hp
  intro u hf
  rw [hframe] at hf
  cases hf

theorem Inv.not_pending_of_idle (hs : Inv m s)
    (hframe : (s.thread t).frame = .idle) {h : H}
    (hw : h ∈ (s.thread t).writes ∨ h ∈ (s.thread t).reads) :
    ¬ Pending s h := by
  refine hs.not_pending hw ?_
  intro o hf
  rw [hframe] at hf
  cases hf

/-- A block somebody holds a reference to is alive. -/
theorem Inv.alive_of_owns (hs : Inv m s) {b : B} {x : H ⊕ τ}
    (hx : Owns s b x) : 0 < s.count b ∧ s.block b = .alive := by
  have hpos := pos_of_encard_eq (hs.counts b) hx
  refine ⟨hpos, ?_⟩
  by_contra hdead
  have hzero := hs.blocks b
  rw [if_neg hdead] at hzero
  exact not_of_encard_eq_zero hzero none hpos

end Consequences

variable [DecidableEq τ]

/-- The state after a step of the thread `t`, given what the step did. -/
theorem Inv.next {m m' : B → Option O} {s s' : State τ H O B} (hs : Inv m s)
    {t : τ} {th : Thread H O B}
    (hthread : s'.thread = Function.update s.thread t th)
    (hhandle : ∀ h, h ∉ (s.thread t).writes → s'.handle h = s.handle h)
    (hm : ∀ b o, m b = some o → m' b = some o)
    (hapart : ∀ t', t' ≠ t → (∀ h ∈ th.writes,
      h ∉ (s.thread t').writes ∧ h ∉ (s.thread t').reads) ∧
      ∀ h ∈ th.reads, h ∉ (s.thread t').writes)
    (hfull : ∀ h ∈ (s.thread t).writes, ∀ p, s'.handle h = some p →
      p.Full m' ∨ ∃ u, th.frame = .allocating h u)
    (hfits : th.Fits m' s'.handle)
    (hunborn : ∀ b, s'.block b = .unborn → m' b = none)
    (hcounts : ∀ b, {x | Owns s' b x}.encard = s'.count b)
    (hblocks : ∀ b, {x | HoldsBlock s' b x}.encard =
      if s'.block b = .alive then 1 else 0)
    (hobjects : ∀ o, {x | HoldsObject s' m' o x}.encard =
      if s'.object o = .alive then 1 else 0) : Inv m' s' := by
  have hself : s'.thread t = th := by rw [hthread, Function.update_self]
  have hother : ∀ t', t' ≠ t → s'.thread t' = s.thread t' := by
    intro t' ht'
    rw [hthread, Function.update_of_ne ht']
  refine ⟨?_, ?_, ?_, hunborn, hcounts, hblocks, hobjects⟩
  · intro h p hp
    by_cases hw : h ∈ (s.thread t).writes
    · refine (hfull h hw p hp).imp_right ?_
      rintro ⟨u, hu⟩
      exact ⟨t, u, by rw [hself]; exact hu⟩
    · rw [hhandle h hw] at hp
      rcases hs.full h p hp with hf | ⟨t', u, hu⟩
      · refine Or.inl (hf.imp_right ?_)
        rintro ⟨o, b, hp, hb⟩
        exact ⟨o, b, hp, hm b o hb⟩
      · have hne : t' ≠ t := by
          rintro rfl
          refine hw (List.mem_append_left _ ?_)
          rw [hu]
          exact List.mem_cons_self
        exact Or.inr ⟨t', u, by rw [hother t' hne]; exact hu⟩
  · intro t'
    by_cases ht' : t' = t
    · rw [ht', hself]
      exact hfits
    · rw [hother t' ht']
      refine (hs.fits t').congr hm ?_
      intro x hx
      refine hhandle x ?_
      intro hw
      have hno := hs.apart t t' ht' x hw
      exact hx.elim hno.1 hno.2
  · intro t₁ t₂ hne h hw
    by_cases h₁ : t₁ = t
    · rw [h₁, hself] at hw
      have h₂ : t₂ ≠ t := by rw [← h₁]; exact hne
      rw [hother t₂ h₂]
      exact (hapart t₂ h₂).1 h hw
    · rw [hother t₁ h₁] at hw
      by_cases h₂ : t₂ = t
      · rw [h₂, hself]
        refine ⟨fun hw' => ?_, fun hr => ?_⟩
        · exact ((hapart t₁ h₁).1 h hw').1 hw
        · exact (hapart t₁ h₁).2 h hr hw
      · rw [hother t₂ h₂]
        exact hs.apart t₁ t₂ hne h hw

end Inv

end LearningCpp.SharedPtr
