import LearningCpp.UniquePtr.Deletion

/-!
# One owner, and one deletion

Every operation is defined at each of its steps and comes to an end: a deletion
kills an object that was alive, of which there are finitely many, and everything
else a step does takes something off the agenda. In all states on the way an
adopted object is in exactly one place.
-/

namespace LearningCpp.UniquePtr

open LearningCpp.Lib

variable {H O : Type*} [DecidableEq H] [DecidableEq O] {L : Layout H O}
  {s s' : State H O}

/-! ## One step -/

def Task.weight : Task H → ℕ
  | .destruct _ => 2
  | .vanish _ => 1

/-- What is left to do, apart from the objects that are alive. -/
def State.weight (s : State H O) : ℕ :=
  (s.agenda.map Task.weight).sum + (if s.resetting.isSome then 1 else 0)

noncomputable def State.alive (s : State H O) : ℕ := {o | s.Alive o}.ncard

/-- The second state has fewer objects, or as many and less to do. -/
def Nearer (s' s : State H O) : Prop :=
  s'.alive < s.alive ∨ (s'.alive = s.alive ∧ s'.weight < s.weight)

omit [DecidableEq H] [DecidableEq O] in
theorem wellFounded_nearer : WellFounded (Nearer : State H O → State H O → Prop)
    := by
  have hlex := InvImage.wf (fun s : State H O => (s.alive, s.weight))
    (WellFounded.prod_lex wellFounded_lt wellFounded_lt :
      WellFounded (Prod.Lex (· < · : ℕ → ℕ → Prop) (· < ·)))
  refine Subrelation.wf ?_ hlex
  intro s' s h
  exact Prod.lex_def.2 h

omit [DecidableEq H] in
theorem deleter_agenda (pointer : Option O) (l rest : List (Task H)) :
    State.deleter L { s with agenda := l } pointer rest =
      s.deleter L pointer rest := by
  cases pointer <;> rfl

omit [DecidableEq H] in
theorem nearer_deleter {k : H} {rest : List (Task H)} {pointer : Option O}
    (h : Inv L { s with agenda := .vanish k :: rest } pointer)
    (hagenda : s.agenda = .destruct k :: rest)
    (hs : s.deleter L pointer (.vanish k :: rest) = some s') :
    Nearer s' s := by
  cases pointer with
  | none =>
      cases hs
      refine .inr ⟨rfl, ?_⟩
      unfold State.weight
      rw [hagenda]
      simp [Task.weight]
  | some o =>
      have ho : s.adopted o = true ∧ s.deletions o = 0 := (h.passed o rfl).1
      rw [State.deleter, if_pos ho] at hs
      have halive : ∀ x, s'.Alive x ↔ x ≠ o ∧ s.Alive x := by
        cases hs
        exact alive_deleted rfl rfl
      refine .inl (Set.ncard_lt_ncard ?_ h.finite)
      refine ⟨fun x hx => ((halive x).1 hx).2, ?_⟩
      intro hall
      exact ((halive o).1 (hall ho)).1 rfl

theorem Inv.step (h : Inv L s none) (hbusy : ¬ s.Idle) :
    ∃ s', s.step L = some s' ∧ Inv L s' none ∧ Nearer s' s := by
  cases hagenda : s.agenda with
  | nil =>
      cases hresetting : s.resetting with
      | none => exact absurd ⟨hagenda, hresetting⟩ hbusy
      | some reset =>
          obtain ⟨k, pointer⟩ := reset
          have hlive : s.handle k ≠ none := by
            refine h.targets k ?_
            rw [State.targets, hagenda, hresetting]
            exact List.mem_cons_self
          obtain ⟨old, hk⟩ := Option.ne_none_iff_exists'.1 hlive
          refine ⟨{ s.setHandle k (some pointer) with resetting := none }, ?_,
            (h.write hagenda hresetting).inv, .inr ⟨rfl, ?_⟩⟩
          · rw [State.step, hagenda, hresetting]
            simp only [hk]
          · simp [State.weight, State.setHandle, hresetting]
  | cons t rest =>
      have hlive : s.handle t.handle ≠ none := by
        refine h.targets t.handle ?_
        rw [State.targets, hagenda]
        exact List.mem_cons_self
      obtain ⟨old, hk⟩ := Option.ne_none_iff_exists'.1 hlive
      cases t with
      | destruct k =>
          have hpassing := h.passing hagenda hk
          obtain ⟨s', hs', hinv, _, _⟩ := hpassing.deleter
          rw [deleter_agenda] at hs'
          refine ⟨s', ?_, hinv, nearer_deleter hpassing hagenda hs'⟩
          rw [State.step, hagenda]
          have hk : s.handle k = some old := hk
          simp only [hk]
          exact hs'
      | vanish k =>
          refine ⟨{ s.setHandle k none with agenda := rest }, ?_,
            h.vanish hagenda, .inr ⟨rfl, ?_⟩⟩
          · rw [State.step, hagenda]
            have hk : s.handle k = some old := hk
            simp only [hk]
          · unfold State.weight
            rw [hagenda, List.map_cons, List.sum_cons]
            refine Nat.add_lt_add_right ?_ _
            exact Nat.lt_add_of_pos_left Nat.one_pos

/-- The steps of an operation that has begun. -/
def Goes (L : Layout H O) : State H O → State H O → Prop :=
  Relation.ReflTransGen (fun s s' => s.step L = some s')

theorem Inv.finishes : ∀ {s : State H O}, Inv L s none →
    ∃ s', Goes L s s' ∧ s'.Idle := by
  intro s
  induction s using wellFounded_nearer.induction with
  | _ s ih =>
      intro h
      by_cases hidle : s.Idle
      · exact ⟨s, .refl, hidle⟩
      · obtain ⟨s₁, hstep, h₁, hnearer⟩ := h.step hidle
        obtain ⟨s', hgoes, hdone⟩ := ih s₁ hnearer h₁
        exact ⟨s', .head hstep hgoes, hdone⟩

/-! ## The beginning of an operation -/

omit [DecidableEq H] in
theorem Quiet.reset {hand : Option O} (h : Quiet L s hand) {k : H}
    (hk : s.handle k ≠ none)
    (hbelow : ∀ c o, L.home k = some c → hand = some o → ¬ Below L s o c) :
    ∃ s', s.reset L k hand = some s' ∧ Inv L s' none ∧
      s'.handle = s.handle ∧ s'.resetting = some (k, hand) := by
  obtain ⟨old, hk⟩ := Option.ne_none_iff_exists'.1 hk
  obtain ⟨s', hs', hinv, hhandle, hresetting⟩ :=
    (h.passing hk hbelow).deleter
  refine ⟨s', ?_, hinv, hhandle, hresetting⟩
  rw [State.reset, hk]
  rw [← hs']
  cases old <;> rfl

omit [DecidableEq H] in
/-- A new object is above nothing. -/
theorem not_below_make (h : Quiet L s none) {o : O} (ho : s.adopted o = false)
    {k : H} (hk : s.handle k ≠ none) {c : O} (hc : L.home k = some c) :
    ¬ Below L (s.make L (some o)) o c := by
  intro hbelow
  rcases Relation.ReflTransGen.cases_head hbelow with rfl | ⟨x, hox, _⟩
  · have halive := (h.fields k o hc).1 hk
    rw [halive.1] at ho
    cases ho
  · obtain ⟨f, hf, hx⟩ := hox
    rw [ptr_eq_some] at hx
    have hx : (if L.home f = some o then some none else s.handle f) =
      some (some x) := hx
    rw [if_pos hf] at hx
    cases hx

omit [DecidableEq H] in
theorem make_handle {pointer : Option O} {k : H} (hk : s.handle k ≠ none) :
    (s.make L pointer).handle k ≠ none := by
  cases pointer with
  | none => exact hk
  | some o =>
      show (if L.home k = some o then some none else s.handle k) ≠ none
      split
      · simp
      · exact hk

theorem Quiet.start (h : Quiet L s none) {op : Op H O} (ha : Allowed L s op) :
    ∃ s' answer, s.start L op = some (s', answer) ∧ Inv L s' none := by
  have hexisting := ha.existing
  have hfresh := ha.fresh
  cases op with
  | construct k =>
      obtain ⟨hk, hhome⟩ := hfresh k rfl
      exact ⟨_, _, rfl, (h.put hk hhome).inv⟩
  | fromPointer k pointer =>
      obtain ⟨hk, hhome⟩ := hfresh k rfl
      have hmake : Quiet L (s.make L pointer) pointer := h.make ha.pointer
      have hk' : (s.make L pointer).handle k = none := by
        cases pointer with
        | none => exact hk
        | some o => exact (if_neg (by simp [hhome])).trans hk
      exact ⟨_, _, rfl, (hmake.put hk' hhome).inv⟩
  | copyConstruct k other => exact ⟨_, _, rfl, h.inv⟩
  | copyAssign k other => exact ⟨_, _, rfl, h.inv⟩
  | moveConstruct k other =>
      obtain ⟨hk, hhome⟩ := hfresh k rfl
      obtain ⟨p, hp⟩ := Option.ne_none_iff_exists'.1
        (hexisting other (by simp [Op.existing]))
      have hne : k ≠ other := by
        rintro rfl
        rw [hk] at hp
        cases hp
      have hk' : (s.setHandle other (some none)).handle k = none :=
        (Function.update_of_ne hne _ _).trans hk
      refine ⟨_, .ok (), ?_, ((h.release hp).put hk' hhome).inv⟩
      rw [State.start, State.release, hp]
      rfl
  | moveAssign k other =>
      by_cases hne : k = other
      · exact ⟨s, .ok (), if_pos hne, h.inv⟩
      · have hk := hexisting k (by simp [Op.existing])
        obtain ⟨p, hp⟩ := Option.ne_none_iff_exists'.1
          (hexisting other (by simp [Op.existing]))
        have hk' : (s.setHandle other (some none)).handle k ≠ none := by
          rw [State.setHandle_of_ne s hne]
          exact hk
        have hptr : ∀ x o, (s.setHandle other (some none)).ptr x = some o →
            s.ptr x = some o := by
          intro x o hx
          rw [ptr_eq_some] at hx ⊢
          rcases eq_or_ne x other with rfl | hxo
          · rw [State.setHandle_self] at hx
            cases hx
          · rw [State.setHandle_of_ne s hxo] at hx
            exact hx
        obtain ⟨s', hs', hinv, _, _⟩ := (h.release hp).reset hk' (by
          intro c o hc ho hbelow
          refine ha.moveAssign k other rfl hne c o hc ?_
            (below_of_ptr hptr hbelow)
          rw [ptr_eq_some, hp, ho])
        refine ⟨s', .ok (), ?_, hinv⟩
        rw [State.start, if_neg hne, State.release, hp]
        simp only [Option.bind_some, hs']
        rfl
  | release k =>
      obtain ⟨p, hp⟩ := Option.ne_none_iff_exists'.1
        (hexisting k (by simp [Op.existing]))
      refine ⟨_, .ok (), ?_, (h.release hp).give.inv⟩
      rw [State.start, State.release, hp]
      rfl
  | reset k pointer =>
      have hk := hexisting k (by simp [Op.existing])
      have hmake : Quiet L (s.make L pointer) pointer := h.make ha.pointer
      obtain ⟨s', hs', hinv, _, _⟩ := hmake.reset (make_handle hk) (by
        rintro c o hc rfl
        exact not_below_make h (ha.pointer o rfl) hk hc)
      refine ⟨s', .ok (), ?_, hinv⟩
      rw [State.start, hs']
      rfl
  | destroy k =>
      have hk := hexisting k (by simp [Op.existing])
      exact ⟨_, _, rfl, h.destroy hk (ha.destroy k rfl)⟩

theorem Inv.of_reachable (h : Reachable L s) : Inv L s none := by
  induction h with
  | refl => exact init_quiet.inv
  | @tail s s' _ hstep ih =>
      cases hstep with
      | start ha hs =>
          obtain ⟨s₁, answer, hs₁, hinv⟩ := (ih.quiet ha.idle).start ha
          rw [hs] at hs₁
          cases hs₁
          exact hinv
      | next hs =>
          have hbusy : ¬ s.Idle := by
            rintro ⟨hagenda, hresetting⟩
            rw [State.step, hagenda, hresetting] at hs
            cases hs
          obtain ⟨s₁, hs₁, hinv, _⟩ := ih.step hbusy
          rw [hs] at hs₁
          cases hs₁
          exact hinv

/-! ## What a move leaves behind -/

omit [DecidableEq H] in
theorem deleter_frame {pointer : Option O} {rest : List (Task H)}
    (hs : s.deleter L pointer rest = some s') :
    s'.handle = s.handle ∧ s'.resetting = s.resetting := by
  cases pointer with
  | none =>
      cases hs
      exact ⟨rfl, rfl⟩
  | some o =>
      rw [State.deleter] at hs
      split at hs
      · cases hs
        exact ⟨rfl, rfl⟩
      · cases hs

/-- A step takes a handle away at most, unless it is the one that ends a
`reset`. -/
theorem step_cases (hs : s.step L = some s') :
    (s'.resetting = s.resetting ∧
      ∀ k, s'.handle k = s.handle k ∨ s'.handle k = none) ∨
    s.agenda = [] ∧ ∃ k pointer, s.resetting = some (k, pointer) ∧
      s' = { s.setHandle k (some pointer) with resetting := none } := by
  rw [State.step] at hs
  split at hs
  · split at hs
    · obtain ⟨hhandle, hresetting⟩ := deleter_frame hs
      exact .inl ⟨hresetting, fun k => .inl (by rw [hhandle])⟩
    · cases hs
  · split at hs
    · next k _ _ _ _ _ =>
        cases hs
        refine .inl ⟨rfl, ?_⟩
        intro x
        rcases eq_or_ne x k with rfl | hne
        · exact .inr (s.setHandle_self x none)
        · exact .inl (s.setHandle_of_ne hne none)
    · cases hs
  · next hagenda =>
      split at hs
      · next k pointer hresetting =>
          split at hs
          · cases hs
            exact .inr ⟨hagenda, k, pointer, hresetting, rfl⟩
          · cases hs
      · cases hs

/-- From the beginning of a `reset` to its end. -/
theorem Goes.reset {k other : H} {pointer : Option O} (h : Goes L s s')
    (hresetting : s.resetting = some (k, pointer)) (hne : k ≠ other)
    (hother : s.handle other = some none) (hidle : s'.Idle) :
    s'.handle k = some pointer ∧
      (s'.handle other = some none ∨ s'.handle other = none) := by
  have hkeeps : (s'.resetting = some (k, pointer) ∨
        (s'.Idle ∧ s'.handle k = some pointer)) ∧
      (s'.handle other = some none ∨ s'.handle other = none) := by
    clear hidle
    induction h with
    | refl => exact ⟨.inl hresetting, .inl hother⟩
    | @tail s₁ s₂ _ hs ih =>
        obtain ⟨hwaits | ⟨⟨hagenda, hnone⟩, _⟩, hother⟩ := ih
        · rcases step_cases hs with ⟨hkept, hhandle⟩ |
            ⟨hagenda, x, p, hx, rfl⟩
          · refine ⟨.inl (hkept.trans hwaits), ?_⟩
            rcases hhandle other with heq | hnone
            · rw [heq]
              exact hother
            · exact .inr hnone
          · rw [hwaits] at hx
            cases hx
            refine ⟨.inr ⟨⟨hagenda, rfl⟩, s₁.setHandle_self k _⟩, ?_⟩
            have hkept : (s₁.setHandle k (some pointer)).handle other =
                s₁.handle other := s₁.setHandle_of_ne hne.symm _
            exact hkept ▸ hother
        · rw [State.step, hagenda, hnone] at hs
          cases hs
  obtain ⟨hwaits | ⟨_, hk⟩, hother⟩ := hkeeps
  · rw [hidle.2] at hwaits
    cases hwaits
  · exact ⟨hk, hother⟩

/-! ## Where an object is -/

inductive Place (H : Type*) where
  | owned (h : H)
  /-- The parameter of the `reset` that will write it to the handle. -/
  | inHand (h : H)
  | handedOut
  | deleted
deriving DecidableEq, Repr

/-- The object is in the place. -/
def State.At (s : State H O) (o : O) : Place H → Prop
  | .owned h => s.Owner h o
  | .inHand h => s.resetting = some (h, some o)
  | .handedOut => s.handedOut o = true
  | .deleted => s.deletions o = 1

omit [DecidableEq H] [DecidableEq O] in
/-- Outside the deleter an object is alive. -/
theorem Inv.alive_iff (h : Inv L s none) {o : O} {place : Place H}
    (hp : s.At o place) : s.Alive o ↔ place ≠ .deleted := by
  cases place with
  | owned k => exact iff_of_true (h.owned k o hp).1 (by simp)
  | inHand k => exact iff_of_true (h.inHand k o hp).1 (by simp)
  | handedOut => exact iff_of_true (h.handedOut o hp) (by simp)
  | deleted =>
      refine iff_of_false ?_ (fun hne => hne rfl)
      rintro ⟨_, hzero⟩
      have hp : s.deletions o = 1 := hp
      rw [hzero] at hp
      cases hp

omit [DecidableEq H] [DecidableEq O] in
theorem Inv.handedOut_iff (h : Inv L s none) {o : O} {place : Place H}
    (hp : s.At o place) (ho : s.Alive o) :
    s.handedOut o = true ↔ place = .handedOut := by
  cases place with
  | owned k => simp [(h.owned k o hp).2]
  | inHand k => simp [(h.inHand k o hp).2.1]
  | handedOut => exact iff_of_true hp rfl
  | deleted => exact absurd rfl ((h.alive_iff hp).1 ho)

omit [DecidableEq H] [DecidableEq O] in
theorem Inv.place_unique (h : Inv L s none) {o : O} {p q : Place H}
    (hp : s.At o p) (hq : s.At o q) : p = q := by
  by_cases ho : s.Alive o
  · by_cases hout : s.handedOut o = true
    · rw [(h.handedOut_iff hp ho).1 hout, (h.handedOut_iff hq ho).1 hout]
    · have hp' := mt (h.handedOut_iff hp ho).2 hout
      have hq' := mt (h.handedOut_iff hq ho).2 hout
      -- A handle, or the hand of the one `reset` there can be.
      cases p with
      | owned k =>
          cases q with
          | owned k' => rw [h.unique k k' o hp hq]
          | inHand k' => exact absurd hp ((h.inHand k' o hq).2.2 k)
          | handedOut => exact absurd rfl hq'
          | deleted => exact absurd rfl ((h.alive_iff hq).1 ho)
      | inHand k =>
          cases q with
          | owned k' => exact absurd hq ((h.inHand k o hp).2.2 k')
          | inHand k' =>
              have hp : s.resetting = some (k, some o) := hp
              have hq : s.resetting = some (k', some o) := hq
              rw [hp] at hq
              cases hq
              rfl
          | handedOut => exact absurd rfl hq'
          | deleted => exact absurd rfl ((h.alive_iff hq).1 ho)
      | handedOut => exact absurd rfl hp'
      | deleted => exact absurd rfl ((h.alive_iff hp).1 ho)
  · have hdeleted : ∀ {p : Place H}, s.At o p → p = .deleted := by
      intro p hp
      by_contra hne
      exact ho ((h.alive_iff hp).2 hne)
    rw [hdeleted hp, hdeleted hq]

omit [DecidableEq H] [DecidableEq O] in
theorem Inv.place (h : Inv L s none) {o : O} (ho : s.adopted o = true) :
    ∃! place, s.At o place := by
  refine existsUnique_of_exists_of_unique ?_ fun _ _ => h.place_unique
  rcases h.deletions o with hzero | ⟨_, hone⟩
  · by_cases hout : s.handedOut o = true
    · exact ⟨.handedOut, hout⟩
    · rcases h.owner o ⟨ho, hzero⟩ (Bool.eq_false_of_not_eq_true hout)
        (by simp) with ⟨k, hk⟩ | ⟨k, hk⟩
      · exact ⟨.inHand k, hk⟩
      · exact ⟨.owned k, hk⟩
  · exact ⟨.deleted, hone⟩

/-! ## The result -/

/-- What holds in a state, and of the operations that may begin in it. -/
structure SingleOwnership (L : Layout H O) (s : State H O) : Prop where
  /-- What is under way goes on, and comes to an end. -/
  step : ¬ s.Idle → ∃ s', s.step L = some s'
  finishes : ∃ s', Goes L s s' ∧ s'.Idle
  start : ∀ op, Allowed L s op → ∃ s' answer, s.start L op = some (s', answer)
  place : ∀ o, s.adopted o = true → ∃! place, s.At o place
  once : ∀ o, s.deletions o ≤ 1
  /-- Between two operations nothing is in hand, and no handle dangles. -/
  inHand : s.Idle → ∀ h o, ¬ s.At o (.inHand h)
  owned : s.Idle → ∀ h o, s.handle h = some (some o) →
    s.adopted o = true ∧ s.At o (.owned h)
  moveConstruct : ∀ h other s' answer,
    Allowed L s (.moveConstruct h other) →
    s.start L (.moveConstruct h other) = some (s', answer) →
    s'.Idle ∧ s'.handle h = s.handle other ∧ s'.handle other = some none
  moveAssign : ∀ h other s₁ s' answer, h ≠ other →
    Allowed L s (.moveAssign h other) →
    s.start L (.moveAssign h other) = some (s₁, answer) →
    Goes L s₁ s' → s'.Idle →
    s'.handle h = s.handle other ∧
      (s'.handle other = some none ∨ s'.handle other = none)
  moveAssign_self : ∀ h, s.start L (.moveAssign h h) = some (s, .ok ())
  copyConstruct : ∀ h other, s.start L (.copyConstruct h other) =
    some (s, .error (.logicError "Can't copy unique_ptr"))
  copyAssign : ∀ h other, s.start L (.copyAssign h other) =
    some (s, .error (.logicError "Can't copy unique_ptr"))

/-- At every point of every run an adopted object is owned by one handle, or
was handed out, or was passed to the deleter once. -/
theorem single_owner (h : Reachable L s) : SingleOwnership L s := by
  have hinv := Inv.of_reachable h
  constructor
  case step =>
    intro hbusy
    obtain ⟨s', hs', _⟩ := hinv.step hbusy
    exact ⟨s', hs'⟩
  case finishes => exact hinv.finishes
  case start =>
    intro op ha
    obtain ⟨s', answer, hs', _⟩ := (hinv.quiet ha.idle).start ha
    exact ⟨s', answer, hs'⟩
  case place => exact fun o => hinv.place
  case once =>
    intro o
    rcases hinv.deletions o with hzero | ⟨_, hone⟩
    · rw [hzero]
      exact Nat.zero_le 1
    · exact hone.le
  case inHand =>
    intro hidle k o hk
    have hk : s.resetting = some (k, some o) := hk
    rw [hidle.2] at hk
    cases hk
  case owned =>
    intro hidle k o hk
    have howner : s.Owner k o := hidle.owner_iff.2 hk
    exact ⟨(hinv.owned k o howner).1.1, howner⟩
  case moveConstruct =>
    intro k other s' answer ha hs
    obtain ⟨p, hp⟩ := Option.ne_none_iff_exists'.1
      (ha.existing other (by simp [Op.existing]))
    have hne : other ≠ k := by
      rintro rfl
      exact ha.existing other (by simp [Op.existing]) (ha.fresh other rfl).1
    rw [State.start, State.release, hp] at hs
    cases hs
    refine ⟨ha.idle, ?_, ?_⟩
    · rw [State.setHandle_self, hp]
    · rw [State.setHandle_of_ne _ hne, State.setHandle_self]
  case moveAssign =>
    intro k other s₁ s' answer hne ha hs hgoes hidle
    obtain ⟨p, hp⟩ := Option.ne_none_iff_exists'.1
      (ha.existing other (by simp [Op.existing]))
    rw [State.start, if_neg hne, State.release, hp] at hs
    obtain ⟨s₂, hs₂, hs⟩ := Option.map_eq_some_iff.1 hs
    cases hs
    rw [State.reset] at hs₂
    split at hs₂
    · obtain ⟨hhandle, hresetting⟩ := deleter_frame hs₂
      rw [hp]
      refine Goes.reset hgoes hresetting hne ?_ hidle
      rw [hhandle]
      exact s.setHandle_self other _
    · cases hs₂
  case moveAssign_self => exact fun h => if_pos rfl
  case copyConstruct => exact fun _ _ => rfl
  case copyAssign => exact fun _ _ => rfl

/-! ## Running it -/

/-- An operation and so many of its steps. -/
def State.perform (L : Layout H O) (s : State H O) (op : Op H O) (n : ℕ) :
    State H O :=
  (fun s => (s.step L).getD s)^[n] (((s.start L op).map Prod.fst).getD s)

theorem Reachable.perform (h : Reachable L s) {op : Op H O}
    (ha : Allowed L s op) (n : ℕ) : Reachable L (s.perform L op n) := by
  have hstep : ∀ {s : State H O}, Reachable L s →
      Reachable L ((s.step L).getD s) := by
    intro s hs
    cases hnext : s.step L with
    | none => exact hs
    | some s' => exact hs.tail (.next hnext)
  refine Nat.rec ?_ (fun n ih => ?_) n
  · show Reachable L (((s.start L op).map Prod.fst).getD s)
    cases hstart : s.start L op with
    | none => exact h
    | some begun => exact h.tail (.start ha hstart)
  · rw [State.perform, Function.iterate_succ_apply']
    exact hstep ih

/-- A list of two nodes. The handle 0 stands alone, and 1 and 2 are the `next`
of the nodes 0 and 1. -/
def nodes : Layout (Fin 3) (Fin 2) where
  home := ![none, some 0, some 1]
  fields := ![[1], [2]]
  mem_fields := by decide
  nodup_fields := by decide

/-- `p = std::move(p->next)` deletes the first node, and with it the handle the
second one came from. -/
theorem single_owner_next : ∃ s, SingleOwnership nodes s ∧ s.Idle ∧
    s.handle 0 = some (some 1) ∧ s.handle 1 = none ∧
    s.handle 2 = some none ∧ s.deletions 0 = 1 := by
  have hnode : Allowed nodes .init (.fromPointer 0 (some 0)) :=
    ⟨⟨rfl, rfl⟩, by decide, by decide, by simp, by decide, by simp⟩
  have hnext : Allowed nodes
      (State.perform nodes .init (.fromPointer 0 (some 0)) 0)
      (.reset 1 (some 1)) :=
    ⟨⟨rfl, rfl⟩, by decide, by decide, by simp, by decide, by simp⟩
  have hmove : Allowed nodes
      ((State.perform nodes .init (.fromPointer 0 (some 0)) 0).perform nodes
        (.reset 1 (some 1)) 1) (.moveAssign 0 1) :=
    ⟨⟨rfl, rfl⟩, by decide, by decide, by simp, by decide, by
      rintro h other heq _ c o hc
      cases heq
      cases hc⟩
  have hinit : Reachable nodes .init := .refl
  exact ⟨_, single_owner (((hinit.perform hnode 0).perform hnext 1).perform
    hmove 3), ⟨rfl, rfl⟩, rfl, rfl, rfl, rfl⟩

end LearningCpp.UniquePtr
