import LearningCpp.Lib.Run
import LearningCpp.SharedPtr.Ledger
import LearningCpp.SharedPtr.Runs

/-!
# One thread and any raw pointer

One thread that uses the class alone, one member function after the other, and
any raw pointer, null included. What it does are the steps of the machine, up to
the end of the function; each call inside keeps the ledger, and the only one that
charges it is `release` of a half null handle.

So the blocks are accounted for until the first such release, and never again
after it.
-/

namespace LearningCpp.SharedPtr

open LearningCpp.Lib

variable {H O B : Type*}

section Machine

variable [DecidableEq H] [DecidableEq O] [DecidableEq B]

/-- The next step of the thread, if it has one. `alloc` is what
`new ControlBlock` returns, if it does not throw. -/
def State.turn (s : State Unit H O B) (alloc : Option B) :
    Option (State Unit H O B) :=
  match (s.thread ()).frame with
  | .idle =>
    match (s.thread ()).code with
    | [] => some s
    | c :: rest => s.call () c rest
  | .allocating h _ =>
    match alloc with
    | some b => some (s.alloc () h b)
    | none => s.resume ()
  | _ => s.resume ()

def State.turns (alloc : Option B) : ℕ → State Unit H O B →
    Option (State Unit H O B)
  | 0, s => some s
  | k + 1, s => (s.turn alloc).bind (State.turns alloc k)

/-- A member function, from its start to its end. None takes more steps. -/
def State.perform (s : State Unit H O B) (op : Op H O) (alloc : Option B) :
    Option (State Unit H O B) := (s.start () op).turns alloc 50

/-- A use of the class: a member function, and what its allocation returns. -/
abbrev Use (H O B : Type*) := Op H O × Option B

/-- A use that would be undefined changes nothing here; there is none. -/
def State.use (s : State Unit H O B) (u : Use H O B) : State Unit H O B :=
  (s.perform u.1 u.2).getD s

/-- The handles are there and the places are free, the raw pointer is null or
fresh from `new`, and so is the block. -/
structure Legal (s : State Unit H O B) (u : Use H O B) : Prop where
  allowed : Allowed s () u.1
  alloc : ∀ b, u.2 = some b → s.block b = .unborn

/-- The handle a use makes give up its pointers. A `reset` whose allocation
throws does not come that far. -/
def target : Use H O B → Option H
  | (.destroy h, _) => some h
  | (.copyAssign h other _, _) => if h = other then none else some h
  | (.moveAssign h other, _) => if h = other then none else some h
  | (.reset h none _ _, _) => some h
  | (.reset h (some _) _ _, some _) => some h
  | _ => none

/-- That handle is half null. -/
def Drops (s : State Unit H O B) (u : Use H O B) : Prop :=
  ∃ h ∈ target u, ∃ b, s.handle h = some ⟨none, some b⟩

/-! ## One call -/

/-- What a call leaves of the handles. -/
def Call.after (alloc : Option B) (hd : H → Option (SharedPointer O B)) :
    Call H O → H → Option (SharedPointer O B)
  | .construct h => Function.update hd h (some .null)
  | .adopt h pointer _ => Function.update hd h (some ⟨pointer, alloc⟩)
  | .copyAndIncrement h other => Function.update hd h (hd other)
  | .release h => Function.update hd h (some .null)
  | .steal h other =>
    Function.update (Function.update hd h (hd other)) other (some .null)
  | .swap h other =>
    Function.update (Function.update hd h (hd other)) other (hd h)
  | .destruct h => Function.update hd h none
  | .getCount _ => hd

/-- The block a call loses a reference of. -/
def Call.loses (hd : H → Option (SharedPointer O B)) : Call H O → Option B
  | .release h =>
    match hd h with
    | some ⟨none, cb⟩ => cb
    | _ => none
  | _ => none

/-- The blocks of the references some calls lose, one after the other, up to an
allocation that throws. -/
def lost (alloc : Option B) : (H → Option (SharedPointer O B)) →
    List (Call H O) → List B
  | _, [] => []
  | hd, c :: code =>
    if c.isAdopt = true ∧ alloc = none then []
    else (c.loses hd).toList ++ lost alloc (c.after alloc hd) code

/-- The lost references charged to the account. -/
def charge (leak : B → ℕ) (bs : List B) : B → ℕ := fun b => leak b + bs.count b

/-- The thread is between two calls, with these left. -/
def At (s : State Unit H O B) (code : List (Call H O)) : Prop :=
  (s.thread ()).frame = .idle ∧ (s.thread ()).code = code

omit [DecidableEq H] [DecidableEq O] [DecidableEq B] in
theorem at_thread {s : State Unit H O B} {code : List (Call H O)} {n : ℕ}
    (h : s.thread = Function.update s.thread () ⟨.idle, code, n⟩) :
    At s code := by
  unfold At
  rw [h, Function.update_self]
  exact ⟨rfl, rfl⟩

theorem turns_add (alloc : Option B) (k n : ℕ) (s : State Unit H O B) :
    s.turns alloc (k + n) = (s.turns alloc k).bind (State.turns alloc n) := by
  induction k generalizing s with
  | zero => rw [Nat.zero_add]; rfl
  | succ k ih =>
      rw [Nat.succ_add, State.turns, State.turns]
      cases s.turn alloc with
      | none => rfl
      | some s' => exact ih s'

/-- A thread that is done stays where it is. -/
theorem turns_done {s : State Unit H O B} (h : At s []) (alloc : Option B)
    (k : ℕ) : s.turns alloc k = some s := by
  induction k with
  | zero => rfl
  | succ k ih =>
      have hturn : s.turn alloc = some s := by
        unfold State.turn
        rw [h.1, h.2]
      rw [State.turns, hturn]
      exact ih

theorem turn_call {s : State Unit H O B} {c : Call H O}
    {rest : List (Call H O)} (h : At s (c :: rest)) (alloc : Option B) :
    s.turn alloc = s.call () c rest := by
  unfold State.turn
  rw [h.1, h.2]

/-- A pointer that no block was made for and no thread has deleted. -/
def Free (m : B → Option O) (s : State Unit H O B) (o : O) : Prop :=
  s.object o = .alive ∧ ∀ b, s.block b = .alive → m b ≠ some o

/-- A call has been made: `s'` is where the thread goes on. -/
structure Made (alloc : Option B) (m : B → Option O) (c : Call H O)
    (rest : List (Call H O)) (s s' : State Unit H O B) : Prop where
  turns : ∃ k ≤ 4, s.turns alloc k = some s'
  goesOn : At s' rest
  handle : s'.handle = c.after alloc s.handle
  unborn : ∀ b, s.block b = .unborn → s'.block b = .unborn
  free : ∀ o, Free m s o → Free m s' o

section Calls

variable {m : B → Option O} {leak : B → ℕ} {s : State Unit H O B}
  {alloc : Option B} {rest : List (Call H O)}

omit [DecidableEq H] [DecidableEq O] in
@[simp] theorem charge_nil : charge leak [] = leak := rfl

/-- A call of one step, which touches no count. -/
theorem made_one {c : Call H O}
    (hat : At s (c :: rest)) {s' : State Unit H O B}
    (hcall : s.call () c rest = some s') (hgoes : At s' rest)
    (hhandle : s'.handle = c.after alloc s.handle)
    (hblock : s'.block = s.block) (hobject : s'.object = s.object) :
    Made alloc m c rest s s' := by
  refine ⟨⟨1, by omega, ?_⟩, hgoes, hhandle, ?_, ?_⟩
  · rw [State.turns, turn_call hat, hcall]
    rfl
  · rw [hblock]
    exact fun _ hb => hb
  · rintro o ⟨ho, hb⟩
    unfold Free
    rw [hblock, hobject]
    exact ⟨ho, hb⟩

omit [DecidableEq O] [DecidableEq B] in
/-- A handle without a block before and after. -/
theorem Ledger.set_null (h : Ledger m leak s) {k : H}
    (hk : s.cb k = none) {p : Option (SharedPointer O B)}
    (hp : ∀ q, p = some q → q = .null) (frame : Frame H O B)
    (code : List (Call H O)) :
    Ledger m leak ((s.setHandle k p).goto () frame code) := by
  have hnone : p.bind SharedPointer.cb = none := by
    cases p with
    | none => rfl
    | some q => rw [hp q rfl]; rfl
  refine h.same_cb ?_ (shape_update h.shape rfl ?_) rfl rfl rfl
  · intro x
    rw [cb_goto, cb_setHandle]
    split
    · next hx => rw [hx, hk, hnone]
    · rfl
  · exact fun q hq => .inl (hp q hq)

theorem Ledger.call_construct (h : Ledger m leak s) (alloc : Option B)
    {k : H}
    (hat : At s (.construct k :: rest)) (hk : s.handle k = none) :
    ∃ s', Made alloc m (.construct k) rest s s' ∧ Ledger m leak s' := by
  have hcall : s.call () (.construct k) rest =
      some ((s.setHandle k (some .null)).goto () .idle rest) := by
    rw [State.call, hk]
  refine ⟨_, made_one hat hcall (at_thread rfl) rfl rfl rfl, ?_⟩
  refine h.set_null (cb_of_handle hk) ?_ .idle rest
  intro q hq
  exact (Option.some.inj hq).symm

theorem Ledger.call_destruct (h : Ledger m leak s) (alloc : Option B)
    {k : H}
    (hat : At s (.destruct k :: rest)) (hk : s.handle k = some .null) :
    ∃ s', Made alloc m (.destruct k) rest s s' ∧ Ledger m leak s' := by
  have hcall : s.call () (.destruct k) rest =
      some ((s.setHandle k none).goto () .idle rest) := by
    rw [State.call, hk]
  refine ⟨_, made_one hat hcall (at_thread rfl) rfl rfl rfl, ?_⟩
  refine h.set_null (cb_of_handle hk) ?_ .idle rest
  intro q hq
  cases hq

theorem Ledger.call_steal (h : Ledger m leak s) (alloc : Option B)
    {k other : H}
    (hat : At s (.steal k other :: rest)) (hk : s.handle k = some .null)
    (ho : s.handle other ≠ none) (hne : k ≠ other) :
    ∃ s', Made alloc m (.steal k other) rest s s' ∧ Ledger m leak s' := by
  obtain ⟨p, hp⟩ := Option.ne_none_iff_exists'.1 ho
  have hcall : s.call () (.steal k other) rest =
      some (((s.setHandle k (some p)).setHandle other (some .null)).goto ()
        .idle rest) := by
    rw [State.call, hk, hp]
  refine ⟨_, made_one hat hcall (at_thread rfl) ?_ rfl rfl, ?_⟩
  · rw [Call.after, hp]
    rfl
  · refine h.trade k other ?_ ?_ ?_ rfl rfl rfl
    · show Function.update (Function.update s.handle k (some p)) other _ k = _
      rw [Function.update_of_ne hne, Function.update_self, hp]
    · exact (Function.update_self _ _ _).trans hk.symm
    · intro x hxk hxo
      show Function.update (Function.update s.handle k (some p)) other _ x = _
      rw [Function.update_of_ne hxo, Function.update_of_ne hxk]

theorem Ledger.call_swap (h : Ledger m leak s) (alloc : Option B)
    {k other : H}
    (hat : At s (.swap k other :: rest)) (hk : s.handle k ≠ none)
    (ho : s.handle other ≠ none) (hne : k ≠ other) :
    ∃ s', Made alloc m (.swap k other) rest s s' ∧ Ledger m leak s' := by
  obtain ⟨p, hp⟩ := Option.ne_none_iff_exists'.1 hk
  obtain ⟨p', hp'⟩ := Option.ne_none_iff_exists'.1 ho
  have hcall : s.call () (.swap k other) rest =
      some (((s.setHandle k (some p')).setHandle other (some p)).goto ()
        .idle rest) := by
    rw [State.call, hp, hp']
  refine ⟨_, made_one hat hcall (at_thread rfl) ?_ rfl rfl, ?_⟩
  · rw [Call.after, hp, hp']
    rfl
  · refine h.trade k other ?_ ?_ ?_ rfl rfl rfl
    · show Function.update (Function.update s.handle k (some p')) other _ k = _
      rw [Function.update_of_ne hne, Function.update_self, hp']
    · exact (Function.update_self _ _ _).trans hp.symm
    · intro x hxk hxo
      show Function.update (Function.update s.handle k (some p')) other _ x = _
      rw [Function.update_of_ne hxo, Function.update_of_ne hxk]

theorem Ledger.call_getCount (h : Ledger m leak s) (alloc : Option B)
    {k : H}
    (hat : At s (.getCount k :: rest)) (hk : s.handle k ≠ none) :
    ∃ s', Made alloc m (.getCount k) rest s s' ∧ Ledger m leak s' := by
  obtain ⟨p, hp⟩ := Option.ne_none_iff_exists'.1 hk
  have hdefined : ∃ n, s.getCount p = some n := by
    unfold State.getCount
    cases hb : p.cb with
    | none => exact ⟨0, rfl⟩
    | some b =>
        have hcb : s.cb k = some b := by
          rw [cb_of_handle hp]
          exact hb
        exact ⟨s.count b, if_pos (h.block_of_cb hcb)⟩
  obtain ⟨n, hn⟩ := hdefined
  have hcall : s.call () (.getCount k) rest = some { s with
      thread := Function.update s.thread () ⟨.idle, rest, n⟩ } := by
    rw [State.call, hp]
    simp only [hn]
  refine ⟨_, made_one hat hcall (at_thread rfl) rfl rfl rfl, ?_⟩
  exact h.congr rfl rfl rfl h.object

theorem Ledger.call_copyAndIncrement (h : Ledger m leak s) (alloc : Option B)
    {k other : H}
    (hat : At s (.copyAndIncrement k other :: rest))
    (hk : s.handle k = some .null) (ho : s.handle other ≠ none) :
    ∃ s', Made alloc m (.copyAndIncrement k other) rest s s' ∧
      Ledger m leak s' := by
  obtain ⟨p, hp⟩ := Option.ne_none_iff_exists'.1 ho
  have hnone : s.cb k = none := cb_of_handle hk
  have hcall : s.call () (.copyAndIncrement k other) rest =
      some ((s.setHandle k (some p)).goto ()
        (if p.cb = none then .idle else .incrementing k other) rest) := by
    rw [State.call, hk, hp]
  have hafter : Function.update s.handle k (some p) =
      Call.after alloc s.handle (.copyAndIncrement k other) := by
    rw [Call.after, hp]
  rcases h.shape other p hp with rfl | ⟨b, rfl⟩
  · -- Nothing to count.
    refine ⟨_, made_one hat hcall (at_thread rfl) hafter rfl rfl, ?_⟩
    refine h.set_null hnone ?_ .idle rest
    intro q hq
    exact (Option.some.inj hq).symm
  · have hb : s.block b = .alive := by
      refine h.block_of_cb (k := other) ?_
      rw [cb_of_handle hp]
      rfl
    obtain ⟨s', hs'⟩ : ∃ s', s' = State.goto
        { s.setHandle k (some ⟨m b, some b⟩) with
          count := Function.update s.count b (s.count b + 1) } () .idle
        rest := ⟨_, rfl⟩
    have hturn : ((s.setHandle k (some ⟨m b, some b⟩)).goto ()
        (.incrementing k other) rest).turn alloc = some s' := by
      rw [hs']
      simp [State.turn, State.resume, State.goto, State.setHandle, State.cb, hb]
    have hturns : s.turns alloc 2 = some s' := by
      rw [State.turns, turn_call hat, hcall, if_neg (by simp)]
      exact (congrArg (Option.bind · some) hturn).trans rfl
    rw [hs'] at hturns
    exact ⟨_, ⟨⟨2, by omega, hturns⟩, at_thread rfl, hafter, fun _ hb => hb,
      fun _ ho => ho⟩, h.gain hnone hb rfl rfl rfl rfl⟩

/-- The last handle of an object: the object and the block are deleted. -/
theorem Ledger.release_last (h : Ledger m leak s) (alloc : Option B) {k : H}
    {o : O} {b : B} (hat : At s (.release k :: rest))
    (hp : s.handle k = some ⟨some o, some b⟩) (hm : m b = some o)
    (hzero : s.count b - 1 = 0) :
    ∃ s', Made alloc m (.release k) rest s s' ∧ Ledger m leak s' := by
  have hcb : s.cb k = some b := cb_of_handle hp
  have hb := h.block_of_cb hcb
  have ho := h.object b o hb hm
  obtain ⟨s₁, hs₁⟩ : ∃ s₁, s₁ = (s.setHandle k (some .null)).goto ()
      (.decrementing o (some b)) rest := ⟨_, rfl⟩
  have hturn₁ : s.turn alloc = some s₁ := by
    rw [turn_call hat, State.call, hp, hs₁]
  obtain ⟨s₂, hs₂⟩ : ∃ s₂, s₂ = { s₁ with
      count := Function.update s.count b (s.count b - 1) } := ⟨_, rfl⟩
  have hturn₂ : s₁.turn alloc =
      some (s₂.goto () (.deletingObject o (some b)) rest) := by
    rw [hs₂, hs₁]
    simp [State.turn, State.resume, State.goto, State.setHandle, hb, hzero]
  obtain ⟨s₃, hs₃⟩ : ∃ s₃, s₃ = { s₂ with
      object := Function.update s.object o .deleted } := ⟨_, rfl⟩
  have hturn₃ : (s₂.goto () (.deletingObject o (some b)) rest).turn alloc =
      some (s₃.goto () (.deletingBlock (some b)) rest) := by
    rw [hs₃, hs₂, hs₁]
    simp [State.turn, State.resume, State.goto, State.setHandle,
      State.deleteObject, ho]
  obtain ⟨s₄, hs₄⟩ : ∃ s₄, s₄ = State.goto { s₃ with
      block := Function.update s.block b .deleted } () .idle rest := ⟨_, rfl⟩
  have hturn₄ : (s₃.goto () (.deletingBlock (some b)) rest).turn alloc =
      some s₄ := by
    rw [hs₄, hs₃, hs₂, hs₁]
    simp [State.turn, State.resume, State.goto, State.setHandle, hb]
  have hturns : s.turns alloc 4 = some s₄ := by
    simp only [State.turns, hturn₁, hturn₂, hturn₃, hturn₄, Option.bind_some]
  rw [hs₄, hs₃, hs₂, hs₁] at hturns
  refine ⟨_, ⟨⟨4, by omega, hturns⟩, at_thread rfl, rfl, ?_, ?_⟩, ?_⟩
  · intro b' hb'
    have hne : b' ≠ b := by
      rintro rfl
      rw [hb] at hb'
      cases hb'
    exact (Function.update_of_ne hne _ _).trans hb'
  · rintro o' ⟨ho', hfree⟩
    have hne : o' ≠ o := by
      rintro rfl
      exact hfree b hb hm
    refine ⟨(Function.update_of_ne hne _ _).trans ho', ?_⟩
    intro b' hb' hm'
    refine hfree b' ?_ hm'
    rcases eq_or_ne b' b with rfl | hne'
    · exact hb
    · exact (Function.update_of_ne hne' _ _).symm.trans hb'
  · exact h.release hcb hm rfl rfl (if_pos hzero).symm (if_pos hzero).symm

/-- A handle of an object that has others: the count goes down. -/
theorem Ledger.release_shared (h : Ledger m leak s) (alloc : Option B) {k : H}
    {o : O} {b : B} (hat : At s (.release k :: rest))
    (hp : s.handle k = some ⟨some o, some b⟩) (hm : m b = some o)
    (hmore : s.count b - 1 ≠ 0) :
    ∃ s', Made alloc m (.release k) rest s s' ∧ Ledger m leak s' := by
  have hcb : s.cb k = some b := cb_of_handle hp
  have hb := h.block_of_cb hcb
  obtain ⟨s₁, hs₁⟩ : ∃ s₁, s₁ = (s.setHandle k (some .null)).goto ()
      (.decrementing o (some b)) rest := ⟨_, rfl⟩
  have hturn₁ : s.turn alloc = some s₁ := by
    rw [turn_call hat, State.call, hp, hs₁]
  obtain ⟨s₂, hs₂⟩ : ∃ s₂, s₂ = { s₁ with
      count := Function.update s.count b (s.count b - 1) } := ⟨_, rfl⟩
  have hturn₂ : s₁.turn alloc = some (s₂.goto () .idle rest) := by
    rw [hs₂, hs₁]
    simp [State.turn, State.resume, State.goto, State.setHandle, hb, hmore]
  have hturns : s.turns alloc 2 = some (s₂.goto () .idle rest) := by
    simp only [State.turns, hturn₁, hturn₂, Option.bind_some]
  rw [hs₂, hs₁] at hturns
  refine ⟨_, ⟨⟨2, by omega, hturns⟩, at_thread rfl, rfl, fun _ hb => hb,
    fun _ ho => ho⟩, ?_⟩
  exact h.release hcb hm rfl rfl (if_neg hmore).symm (if_neg hmore).symm

/-- What `release` leaves, and what it loses. -/
theorem Ledger.call_release (h : Ledger m leak s) (alloc : Option B)
    {k : H}
    (hat : At s (.release k :: rest)) (hk : s.handle k ≠ none) :
    ∃ s', Made alloc m (.release k) rest s s' ∧
      Ledger m (charge leak (Call.loses s.handle
        (.release k : Call H O)).toList) s' := by
  obtain ⟨p, hp⟩ := Option.ne_none_iff_exists'.1 hk
  have hcall : s.call () (.release k) rest =
      some ((s.setHandle k (some .null)).goto () (p.ptr.elim .idle
        fun oldPtr => .decrementing oldPtr p.cb) rest) := by
    cases hptr : p.ptr with
    | none => simp only [State.call, hp, hptr, Option.elim_none]
    | some oldPtr => simp only [State.call, hp, hptr, Option.elim_some]
  rcases h.shape k p hp with rfl | ⟨b, rfl⟩
  · have hlost : Call.loses s.handle (.release k : Call H O) = none := by
      simp only [Call.loses, hp, SharedPointer.null]
    rw [hlost]
    refine ⟨_, made_one hat hcall (at_thread rfl) rfl rfl rfl, ?_⟩
    refine h.set_null (cb_of_handle hp) ?_ .idle rest
    intro q hq
    exact (Option.some.inj hq).symm
  · have hcb : s.cb k = some b := by
      rw [cb_of_handle hp]
      rfl
    cases hm : m b with
    | none =>
        rw [hm] at hcall hp
        have hlost : Call.loses s.handle (.release k : Call H O) = some b := by
          simp only [Call.loses, hp]
        have hcharge : charge leak [b] =
            Function.update leak b (leak b + 1) := by
          funext b'
          rcases eq_or_ne b' b with rfl | hne
          · rw [charge, Function.update_self, List.count_singleton_self]
          · rw [charge, Function.update_of_ne hne,
              List.count_eq_zero_of_not_mem (by simp [hne])]
            rfl
        rw [hlost, Option.toList_some, hcharge]
        refine ⟨_, made_one hat hcall (at_thread rfl) rfl rfl rfl, ?_⟩
        exact h.lose hcb hm rfl rfl rfl rfl
    | some o =>
        rw [hm] at hcall hp
        have hlost : Call.loses s.handle (.release k : Call H O) = none := by
          simp only [Call.loses, hp]
        rw [hlost]
        by_cases hzero : s.count b - 1 = 0
        · exact h.release_last alloc hat hp hm hzero
        · exact h.release_shared alloc hat hp hm hzero

/-- The constructor from a raw pointer, when the allocation returns. -/
theorem Ledger.call_adopt (h : Ledger m leak s) {k : H} {pointer : Option O}
    {unwind : Option H} {b : B} (hat : At s (.adopt k pointer unwind :: rest))
    (hk : s.handle k = none) (hb : s.block b = .unborn)
    (hpointer : ∀ o, pointer = some o → Free m s o) :
    ∃ s', (∃ i ≤ 4, s.turns (some b) i = some s') ∧ At s' rest ∧
      s'.handle = Call.after (some b) s.handle (.adopt k pointer unwind) ∧
      Ledger (Function.update m b pointer) leak s' := by
  obtain ⟨s₁, hs₁⟩ : ∃ s₁, s₁ = (s.setHandle k (some ⟨pointer, none⟩)).goto ()
      (.allocating k unwind) rest := ⟨_, rfl⟩
  have hturn₁ : s.turn (some b) = some s₁ := by
    rw [turn_call hat, State.call, hk, hs₁]
  have hturn₂ : s₁.turn (some b) = some (s₁.alloc () k b) := by
    rw [hs₁]
    simp [State.turn, State.goto]
  have hhandle : (s₁.alloc () k b).handle =
      Function.update s.handle k (some ⟨pointer, some b⟩) := by
    rw [hs₁]
    simp [State.alloc, State.goto, State.setHandle]
  have hcode : At (s₁.alloc () k b) rest := by
    rw [hs₁]
    simp [At, State.alloc, State.goto]
  refine ⟨_, ⟨2, by omega, ?_⟩, hcode, hhandle, ?_⟩
  · simp only [State.turns, hturn₁, hturn₂, Option.bind_some]
  · refine h.adopt (cb_of_handle hk) hb hpointer hhandle ?_ ?_ ?_
    · rw [hs₁]
      rfl
    · rw [hs₁]
      rfl
    · rw [hs₁]
      rfl

/-- The same when the allocation throws: the object goes, and the locals of the
caller are destroyed. -/
theorem Ledger.call_adopt_throws (h : Ledger m leak s) {k : H}
    {pointer : Option O} {unwind : Option H}
    (hat : At s (.adopt k pointer unwind :: rest)) (hk : s.handle k = none)
    (hpointer : ∀ o, pointer = some o → Free m s o) :
    ∃ s', (∃ i ≤ 4, s.turns none i = some s') ∧
      At s' (unwind.elim [] destructor) ∧ s'.handle = s.handle ∧
      Ledger m leak s' := by
  obtain ⟨s₁, hs₁⟩ : ∃ s₁, s₁ = (s.setHandle k (some ⟨pointer, none⟩)).goto ()
      (.allocating k unwind) rest := ⟨_, rfl⟩
  have hturn₁ : s.turn none = some s₁ := by
    rw [turn_call hat, State.call, hk, hs₁]
  have hback : Function.update (Function.update s.handle k
      (some ⟨pointer, none⟩)) k none = s.handle := by
    rw [Function.update_idem, ← hk, Function.update_eq_self]
  cases hp : pointer with
  | none =>
      have hturn₂ : s₁.turn none = some ((s₁.setHandle k none).goto () .idle
          (unwind.elim [] destructor)) := by
        rw [hs₁, hp]
        simp [State.turn, State.resume, State.goto, State.setHandle]
      have hhandle : ((s₁.setHandle k none).goto () .idle
          (unwind.elim [] destructor)).handle = s.handle := by
        rw [hs₁]
        exact hback
      refine ⟨_, ⟨2, by omega, ?_⟩, at_thread rfl, hhandle, ?_⟩
      · simp only [State.turns, hturn₁, hturn₂, Option.bind_some]
      · refine h.congr hhandle ?_ ?_ ?_
        · rw [hs₁]
          rfl
        · rw [hs₁]
          rfl
        · rw [hs₁]
          exact h.object
  | some o =>
      obtain ⟨ho, hfree⟩ := hpointer o hp
      obtain ⟨s₂, hs₂⟩ : ∃ s₂, s₂ = { s₁ with
          object := Function.update s.object o .deleted } := ⟨_, rfl⟩
      have hturn₂ : s₁.turn none = some ((s₂.setHandle k none).goto () .idle
          (unwind.elim [] destructor)) := by
        rw [hs₂, hs₁, hp]
        simp [State.turn, State.resume, State.goto, State.setHandle,
          State.deleteObject, ho]
      have hhandle : ((s₂.setHandle k none).goto () .idle
          (unwind.elim [] destructor)).handle = s.handle := by
        rw [hs₂, hs₁]
        exact hback
      refine ⟨_, ⟨2, by omega, ?_⟩, at_thread rfl, hhandle, ?_⟩
      · simp only [State.turns, hturn₁, hturn₂, Option.bind_some]
      · refine h.congr hhandle ?_ ?_ ?_
        · rw [hs₂, hs₁]
          rfl
        · rw [hs₂, hs₁]
          rfl
        · intro b o' hb hm
          have hne : o' ≠ o := by
            rintro rfl
            exact hfree b hb hm
          rw [hs₂]
          exact (Function.update_of_ne hne _ _).trans (h.object b o' hb hm)

/-- A call that adopts nothing. -/
theorem Ledger.call (h : Ledger m leak s) (alloc : Option B) {c : Call H O}
    (hat : At s (c :: rest)) (hfits : Fits s.handle (c :: rest))
    (hadopt : c.isAdopt = false) :
    ∃ s', Made alloc m c rest s s' ∧ Fits s'.handle rest ∧
      Ledger m (charge leak (c.loses s.handle).toList) s' := by
  cases c with
  | construct k =>
      obtain ⟨hk, hrest⟩ := hfits
      obtain ⟨s', hmade, hs'⟩ := h.call_construct alloc hat hk
      exact ⟨s', hmade, by rw [hmade.handle]; exact hrest, hs'⟩
  | adopt k pointer unwind => cases hadopt
  | copyAndIncrement k other =>
      obtain ⟨hk, ho, hrest⟩ := hfits
      obtain ⟨s', hmade, hs'⟩ :=
        h.call_copyAndIncrement alloc hat hk ho
      exact ⟨s', hmade, by rw [hmade.handle]; exact hrest, hs'⟩
  | release k =>
      obtain ⟨hk, hrest⟩ := hfits
      obtain ⟨s', hmade, hs'⟩ := h.call_release alloc hat hk
      exact ⟨s', hmade, by rw [hmade.handle]; exact hrest, hs'⟩
  | steal k other =>
      obtain ⟨hk, ho, hne, hrest⟩ := hfits
      obtain ⟨s', hmade, hs'⟩ := h.call_steal alloc hat hk ho hne
      exact ⟨s', hmade, by rw [hmade.handle]; exact hrest, hs'⟩
  | swap k other =>
      obtain ⟨hk, ho, hne, hrest⟩ := hfits
      obtain ⟨s', hmade, hs'⟩ := h.call_swap alloc hat hk ho hne
      exact ⟨s', hmade, by rw [hmade.handle]; exact hrest, hs'⟩
  | destruct k =>
      obtain ⟨hk, hrest⟩ := hfits
      obtain ⟨s', hmade, hs'⟩ := h.call_destruct alloc hat hk
      exact ⟨s', hmade, by rw [hmade.handle]; exact hrest, hs'⟩
  | getCount k =>
      obtain ⟨hk, hrest⟩ := hfits
      obtain ⟨s', hmade, hs'⟩ := h.call_getCount alloc hat hk
      exact ⟨s', hmade, by rw [hmade.handle]; exact hrest, hs'⟩

omit [DecidableEq H] [DecidableEq O] in
theorem charge_append (bs bs' : List B) :
    charge (charge leak bs) bs' = charge leak (bs ++ bs') := by
  funext b
  rw [charge, charge, charge, List.count_append, Nat.add_assoc]

omit [DecidableEq O] [DecidableEq B] in
theorem lost_cons {c : Call H O} {code : List (Call H O)}
    {hd : H → Option (SharedPointer O B)} (hadopt : c.isAdopt = false) :
    lost alloc hd (c :: code) =
      (c.loses hd).toList ++ lost alloc (c.after alloc hd) code := by
  rw [lost, if_neg (by simp [hadopt])]

/-- The calls of a member function after its allocation. -/
theorem Ledger.run_code (alloc : Option B) (code : List (Call H O)) :
    ∀ {s : State Unit H O B} {leak : B → ℕ}, Ledger m leak s → At s code →
    Fits s.handle code → (∀ c ∈ code, c.isAdopt = false) →
    ∃ i s', i ≤ 4 * code.length ∧ s.turns alloc i = some s' ∧ At s' [] ∧
      Ledger m (charge leak (lost alloc s.handle code)) s' := by
  induction code with
  | nil =>
      intro s leak h hat _ _
      exact ⟨0, s, by omega, rfl, hat, h⟩
  | cons c code ih =>
      intro s leak h hat hfits hadopt
      rw [List.forall_mem_cons] at hadopt
      obtain ⟨s₁, hmade, hfits₁, h₁⟩ := h.call alloc hat hfits hadopt.1
      obtain ⟨k, hk, hturns₁⟩ := hmade.turns
      obtain ⟨i, s', hi, hturns, hdone, h'⟩ :=
        ih h₁ hmade.goesOn hfits₁ hadopt.2
      refine ⟨k + i, s', ?_, ?_, hdone, ?_⟩
      · rw [List.length_cons]
        omega
      · rw [turns_add, hturns₁]
        exact hturns
      · rw [charge_append, hmade.handle, ← lost_cons hadopt.1] at h'
        exact h'

/-- A member function whose allocation throws, from there on. -/
theorem Ledger.run_throws (h : Ledger m leak s) {k : H} {pointer : Option O}
    {unwind : Option H} (hat : At s (.adopt k pointer unwind :: rest))
    (hk : s.handle k = none) (hunwind : ∀ x ∈ unwind, s.handle x = some .null)
    (hpointer : ∀ o, pointer = some o → Free m s o) :
    ∃ i s', i ≤ 12 ∧ s.turns none i = some s' ∧ At s' [] ∧
      Ledger m leak s' := by
  obtain ⟨s₁, ⟨k', hk', hturns₁⟩, hat₁, hhandle, h₁⟩ :=
    h.call_adopt_throws hat hk hpointer
  cases unwind with
  | none => exact ⟨k', s₁, by omega, hturns₁, hat₁, h₁⟩
  | some x =>
      rw [Option.elim_some] at hat₁
      have hx := hunwind x rfl
      have hfits : Fits s₁.handle (destructor x : List (Call H O)) := by
        rw [hhandle]
        exact ⟨by simp [hx], by simp, trivial⟩
      have hlost : lost (none : Option B) s₁.handle
          (destructor x : List (Call H O)) = [] := by
        rw [hhandle]
        simp [destructor, lost, Call.loses, Call.isAdopt, hx,
          SharedPointer.null]
      obtain ⟨i, s', hi, hturns, hdone, h'⟩ := Ledger.run_code none _ h₁ hat₁
        hfits (by simp [destructor, Call.isAdopt])
      have hlength : (destructor x : List (Call H O)).length = 2 := rfl
      rw [hlost] at h'
      refine ⟨k' + i, s', by omega, ?_, hdone, h'⟩
      rw [turns_add, hturns₁]
      exact hturns

/-- The calls of a member function, whether it allocates or not. -/
theorem Ledger.run_member (alloc : Option B) (code : List (Call H O)) :
    ∀ {s : State Unit H O B} {leak : B → ℕ}, Ledger m leak s → At s code →
    Fits s.handle code → (∀ b, alloc = some b → s.block b = .unborn) →
    (∀ k o unwind, .adopt k (some o) unwind ∈ code → Free m s o) →
    ∃ i s' m', i ≤ 4 * code.length + 8 ∧ s.turns alloc i = some s' ∧
      At s' [] ∧ Ledger m' (charge leak (lost alloc s.handle code)) s' := by
  induction code with
  | nil =>
      intro s leak h hat _ _ _
      exact ⟨0, s, m, by omega, rfl, hat, h⟩
  | cons c code ih =>
      intro s leak h hat hfits hfresh hfree
      rw [List.length_cons]
      cases hadopt : c.isAdopt with
      | false =>
          obtain ⟨s₁, hmade, hfits₁, h₁⟩ := h.call alloc hat hfits hadopt
          obtain ⟨k, hk, hturns₁⟩ := hmade.turns
          obtain ⟨i, s', m', hi, hturns, hdone, h'⟩ :=
            ih h₁ hmade.goesOn hfits₁
              (fun b hb => hmade.unborn b (hfresh b hb))
              (fun k o u hmem => hmade.free o (hfree k o u (.tail _ hmem)))
          refine ⟨k + i, s', m', by omega, ?_, hdone, ?_⟩
          · rw [turns_add, hturns₁]
            exact hturns
          · rw [charge_append, hmade.handle, ← lost_cons hadopt] at h'
            exact h'
      | true =>
          cases c with
          | adopt k pointer unwind =>
              obtain ⟨hk, _, hunwind, hlater, hrest⟩ := hfits
              have hpointer : ∀ o, pointer = some o → Free m s o := by
                rintro o rfl
                exact hfree k o unwind List.mem_cons_self
              cases alloc with
              | none =>
                  obtain ⟨i, s', hi, hturns, hdone, h'⟩ :=
                    h.run_throws hat hk hunwind hpointer
                  refine ⟨i, s', m, by omega, hturns, hdone, ?_⟩
                  rw [lost, if_pos ⟨rfl, rfl⟩]
                  exact h'
              | some b =>
                  obtain ⟨s₁, ⟨k', hk', hturns₁⟩, hat₁, hhandle, h₁⟩ :=
                    h.call_adopt hat hk (hfresh b rfl) hpointer
                  have hfits₁ : Fits s₁.handle code := by
                    rw [hhandle]
                    exact hrest b
                  obtain ⟨i, s', hi, hturns, hdone, h'⟩ :=
                    Ledger.run_code (some b) code h₁ hat₁ hfits₁ hlater
                  refine ⟨k' + i, s', Function.update m b pointer, by omega, ?_,
                    hdone, ?_⟩
                  · rw [turns_add, hturns₁]
                    exact hturns
                  · rw [hhandle] at h'
                    rw [lost, if_neg (by simp)]
                    exact h'
          | _ => cases hadopt

end Calls

/-! ## One member function -/

section Member

variable {m : B → Option O} {leak : B → ℕ} {s : State Unit H O B}
  {u : Use H O B}

/-- The block a use loses a reference of. -/
def Use.loses (s : State Unit H O B) (u : Use H O B) : List B :=
  (target u).elim [] fun h =>
    (Call.loses s.handle (.release h : Call H O)).toList

omit [DecidableEq O] [DecidableEq B] in
theorem drops_iff : Drops s u ↔ ∃ b, b ∈ Use.loses s u := by
  unfold Drops Use.loses
  cases target u with
  | none => simp
  | some h =>
      simp only [Option.mem_def, Option.some.injEq, exists_eq_left',
        Option.elim_some, Option.mem_toList, Call.loses]
      refine exists_congr ?_
      intro b
      constructor
      · intro hb
        rw [hb]
      · intro hb
        split at hb
        · next hb' =>
            rw [hb', hb]
        · cases hb

omit [DecidableEq O] [DecidableEq B] in
/-- A member function releases its target and null handles only. -/
theorem lost_code (h : Legal s u) :
    lost u.2 s.handle u.1.code = Use.loses s u := by
  obtain ⟨op, alloc⟩ := u
  have hfresh := h.allowed.fresh
  have hexisting := h.allowed.existing
  have hnodup := h.allowed.nodup
  cases op with
  | construct k => rfl
  | fromPointer k pointer =>
      simp [Op.code, lost, Use.loses, target, Call.loses]
  | copy k other => rfl
  | move k other => rfl
  | getCount k => rfl
  | destroy k =>
      simp [Op.code, lost, Use.loses, target, destructor, Call.isAdopt]
      rfl
  | moveAssign k other =>
      by_cases hko : k = other
      · simp [Op.code, hko, lost, Use.loses, target]
      · simp [Op.code, hko, lost, Use.loses, target, Call.isAdopt]
        rfl
  | copyAssign k other tmp =>
      by_cases hko : k = other
      · simp [Op.code, hko, lost, Use.loses, target]
      · have hk := hexisting k (by simp [Op.existing])
        have ht := hfresh tmp (by simp [Op.fresh])
        have hkt : k ≠ tmp := fun heq => hk (by rw [heq, ht])
        simp [Op.code, hko, lost, Use.loses, target, destructor, Call.isAdopt,
          Call.loses, Call.after, hkt]
  | reset k pointer tmp arg =>
      have hk := hexisting k (by simp [Op.existing])
      have ht := hfresh tmp (by simp [Op.fresh])
      have ha := hfresh arg (by simp [Op.fresh])
      have hkt : k ≠ tmp := fun heq => hk (by rw [heq, ht])
      have hka : k ≠ arg := fun heq => hk (by rw [heq, ha])
      have hta : tmp ≠ arg := by
        simpa [Op.fresh] using hnodup
      cases pointer with
      | none =>
          simp [Op.code, lost, Use.loses, target, destructor, Call.isAdopt,
            Call.loses, Call.after, hkt]
      | some o =>
          cases alloc with
          | none =>
              simp [Op.code, lost, Use.loses, target, Call.isAdopt, Call.loses]
          | some b =>
              simp [Op.code, lost, Use.loses, target, destructor, Call.isAdopt,
                Call.loses, Call.after, hkt, hka, hta, hta.symm,
                SharedPointer.null]

omit [DecidableEq B] in
/-- The raw pointer a member function is given is no block's. -/
theorem Ledger.start (h : Ledger m leak s) (hu : Legal s u) :
    Ledger m leak (s.start () u.1) ∧ At (s.start () u.1) u.1.code ∧
      ∀ o, u.1.pointer = some o → Free m (s.start () u.1) o := by
  refine ⟨h.congr rfl rfl rfl ?_, at_thread rfl, ?_⟩
  · intro b o hb hm
    show (if u.1.pointer = some o then Life.alive else s.object o) = .alive
    split
    · rfl
    · exact h.object b o hb hm
  · intro o ho
    refine ⟨if_pos ho, ?_⟩
    intro b hb hm
    have hunborn := hu.allowed.pointer o ho
    rw [h.object b o hb hm] at hunborn
    cases hunborn

omit [DecidableEq O] [DecidableEq B] in
theorem length_code_le (op : Op H O) : op.code.length ≤ 9 := by
  cases op with
  | copyAssign h other tmp =>
      rw [Op.code]
      split <;> simp [destructor]
  | moveAssign h other =>
      rw [Op.code]
      split <;> simp
  | reset h pointer tmp arg => cases pointer <;> simp [Op.code, destructor]
  | _ => simp [Op.code, destructor]

/-- A member function returns or throws `std::bad_alloc`, and what it loses is
charged. -/
theorem Ledger.perform (h : Ledger m leak s) (hu : Legal s u) :
    ∃ s' m', s.perform u.1 u.2 = some s' ∧ At s' [] ∧
      Ledger m' (charge leak (Use.loses s u)) s' := by
  obtain ⟨hledger, hat, hfree⟩ := h.start hu
  have hdone : ∀ {i s'}, i ≤ 50 → (s.start () u.1).turns u.2 i = some s' →
      At s' [] → s.perform u.1 u.2 = some s' := by
    intro i s' hi hturns hat'
    obtain ⟨n, hn⟩ := Nat.exists_eq_add_of_le hi
    rw [State.perform, hn, turns_add, hturns]
    exact turns_done hat' u.2 n
  rw [← lost_code hu]
  by_cases hnull : u.1.NonNull
  · have hfits : Fits s.handle u.1.code := op_fits hu.allowed hnull
    have hlength := length_code_le u.1
    have hpointer : ∀ k o unwind, .adopt k (some o) unwind ∈ u.1.code →
        Free m (s.start () u.1) o := by
      intro k o unwind hmem
      have hcarries : Carries (⟨.idle, u.1.code, 0⟩ : Thread H O B) o :=
        ⟨k, unwind, hmem⟩
      exact hfree o (op_carries.1 hcarries)
    obtain ⟨i, s', m', hi, hturns, hat', h'⟩ := Ledger.run_member u.2 _ hledger
      hat hfits hu.alloc hpointer
    exact ⟨s', m', hdone (by omega) hturns hat', hat', h'⟩
  · -- Only the constructor is left, with a null pointer.
    obtain ⟨op, alloc⟩ := u
    cases op with
    | fromPointer k pointer =>
        cases pointer with
        | some o => exact absurd trivial hnull
        | none =>
            have hk := hu.allowed.fresh k (by simp [Op.fresh])
            cases alloc with
            | none =>
                obtain ⟨i, s', hi, hturns, hat', h'⟩ := hledger.run_throws hat
                  hk (by simp) (by simp)
                refine ⟨s', m, hdone (by omega) hturns hat', hat', ?_⟩
                simpa [Op.code, lost, Call.isAdopt] using h'
            | some b =>
                obtain ⟨s', ⟨i, hi, hturns⟩, hat', _, h'⟩ := hledger.call_adopt
                  hat hk (hu.alloc b rfl) (by simp)
                refine ⟨s', Function.update m b none, hdone (by omega) hturns
                  hat', hat', ?_⟩
                simpa [Op.code, lost, Call.loses] using h'
    | _ => exact absurd trivial hnull

end Member

/-! ## Runs -/

/-- The use is defined. -/
def Returns (s : State Unit H O B) (u : Use H O B) : Prop :=
  (s.perform u.1 u.2).isSome = true

theorem Ledger.run (uses : List (Use H O B)) :
    ∀ {s : State Unit H O B} {m : B → Option O} {leak : B → ℕ},
    Ledger m leak s → Along State.use Legal s uses →
    Along State.use Returns s uses ∧
      ((∀ before, before <+: uses → Accounted (before.foldl State.use s)) ↔
        (∀ b, leak b = 0) ∧
          Along State.use (fun s u => ¬ Drops s u) s uses) := by
  induction uses with
  | nil =>
      intro s m leak h _
      refine ⟨trivial, ?_⟩
      rw [← h.accounted_iff_leak]
      constructor
      · intro hall
        exact ⟨hall [] List.prefix_rfl, trivial⟩
      · rintro ⟨ha, _⟩ before hbefore
        rw [List.prefix_nil.1 hbefore]
        exact ha
  | cons u uses ih =>
      intro s m leak h hlegal
      obtain ⟨s', m', hperform, _, h'⟩ := h.perform hlegal.1
      have huse : s.use u = s' := by
        rw [State.use, hperform]
        rfl
      have hnext := hlegal.2
      rw [huse] at hnext
      obtain ⟨hreturns, hiff⟩ := ih h' hnext
      refine ⟨⟨by rw [Returns, hperform]; rfl, by rw [huse]; exact hreturns⟩,
        ?_⟩
      have hcharge : (∀ b, charge leak (Use.loses s u) b = 0) ↔
          (∀ b, leak b = 0) ∧ ¬ Drops s u := by
        rw [drops_iff, not_exists]
        simp only [charge, Nat.add_eq_zero_iff, List.count_eq_zero]
        exact forall_and
      calc (∀ before, before <+: u :: uses →
            Accounted (before.foldl State.use s))
          ↔ Accounted s ∧ ∀ before, before <+: uses →
              Accounted (before.foldl State.use s') := by
            constructor
            · intro hall
              refine ⟨hall [] List.nil_prefix, ?_⟩
              intro before hbefore
              have hu := hall (u :: before) (List.cons_prefix_cons.2
                ⟨rfl, hbefore⟩)
              rw [List.foldl_cons, huse] at hu
              exact hu
            · rintro ⟨ha, hall⟩ before hbefore
              rcases List.prefix_cons_iff.1 hbefore with rfl | ⟨t, rfl, ht⟩
              · exact ha
              · rw [List.foldl_cons, huse]
                exact hall t ht
        _ ↔ (∀ b, leak b = 0) ∧ ((∀ b, leak b = 0) ∧ ¬ Drops s u) ∧
              Along State.use (fun s u => ¬ Drops s u) s' uses := by
            rw [h.accounted_iff_leak, hiff, hcharge]
        _ ↔ (∀ b, leak b = 0) ∧
              Along State.use (fun s u => ¬ Drops s u) s (u :: uses) := by
            rw [Along, huse]
            tauto

omit [DecidableEq H] [DecidableEq O] [DecidableEq B] in
theorem init_ledger : Ledger (fun _ => none) (fun _ => 0)
    (State.init : State Unit H O B) where
  shape := fun _ _ h => by cases h
  count := fun _ h => by cases h
  alive := fun b => by simp [State.init, State.cb]
  leaked := fun _ _ => rfl
  object := fun _ _ h => by cases h
  distinct := fun _ _ _ h => by cases h

omit [DecidableEq O] [DecidableEq B] in
theorem legal_iff {s : State Unit H O B} {u : Use H O B} : Legal s u ↔
    ((s.thread ()).frame = .idle ∧ (s.thread ()).code = []) ∧
      (∀ h ∈ u.1.existing, s.handle h ≠ none) ∧
      (∀ h ∈ u.1.fresh, s.handle h = none) ∧ u.1.fresh.Nodup ∧
      (∀ o ∈ u.1.pointer, s.object o = .unborn) ∧
      ∀ b ∈ u.2, s.block b = .unborn := by
  constructor
  · rintro ⟨h, halloc⟩
    exact ⟨h.idle, h.existing, h.fresh, h.nodup, h.pointer, halloc⟩
  · rintro ⟨hidle, hexisting, hfresh, hnodup, hpointer, halloc⟩
    refine ⟨⟨hidle, hexisting, hfresh, hnodup, hpointer, ?_, ?_⟩, halloc⟩
    · intro t ht
      exact absurd rfl ht
    · intro t ht
      exact absurd rfl ht

instance (s : State Unit H O B) (u : Use H O B) : Decidable (Legal s u) :=
  decidable_of_iff _ legal_iff.symm

instance (s : State Unit H O B) (u : Use H O B) : Decidable (Drops s u) :=
  decidable_of_iff (Use.loses s u ≠ []) (drops_iff.trans
    ⟨fun ⟨_, hb⟩ => List.ne_nil_of_mem hb, List.exists_mem_of_ne_nil _⟩).symm

/-- Whatever one thread does with the class, every member function is defined;
and the blocks are accounted for after each exactly if none was used to make a
half null handle give up its pointers. -/
theorem accounted_iff {uses : List (Use H O B)}
    (hlegal : Along State.use Legal .init uses) :
    Along State.use Returns .init uses ∧
      ((∀ before, before <+: uses →
          Accounted (before.foldl State.use .init)) ↔
        Along State.use (fun s u => ¬ Drops s u) .init uses) := by
  obtain ⟨hreturns, hiff⟩ := init_ledger.run uses hlegal
  refine ⟨hreturns, ?_⟩
  rw [hiff]
  exact and_iff_right (fun _ => rfl)

/-- A null pointer with two handles, one of which moves, and an object with two
that are destroyed. -/
theorem accounted_moved : Along State.use Returns .init
      ([(.fromPointer 0 none, some 0), (.copy 1 0, none), (.move 2 1, none),
        (.fromPointer 3 (some 7), some 1), (.copyAssign 1 3 9, none),
        (.destroy 3, none), (.destroy 1, none)] : List (Use ℕ ℕ ℕ)) ∧
    ∀ before, before <+:
      ([(.fromPointer 0 none, some 0), (.copy 1 0, none), (.move 2 1, none),
        (.fromPointer 3 (some 7), some 1), (.copyAssign 1 3 9, none),
        (.destroy 3, none), (.destroy 1, none)] : List (Use ℕ ℕ ℕ)) →
    Accounted (before.foldl State.use .init) := by
  have hlegal : Along State.use Legal .init
      ([(.fromPointer 0 none, some 0), (.copy 1 0, none), (.move 2 1, none),
        (.fromPointer 3 (some 7), some 1), (.copyAssign 1 3 9, none),
        (.destroy 3, none), (.destroy 1, none)] : List (Use ℕ ℕ ℕ)) := by
    decide
  obtain ⟨hreturns, hiff⟩ := accounted_iff hlegal
  exact ⟨hreturns, hiff.2 (by decide)⟩

/-- The control block of a null pointer is still there after its one handle is
destroyed. -/
theorem accounted_null : Along State.use Legal .init
      ([(.fromPointer 0 none, some 0), (.destroy 0, none)] :
        List (Use ℕ ℕ ℕ)) ∧
    ¬ Accounted (State.use (State.use .init (.fromPointer 0 none, some 0))
      (.destroy 0, none) : State Unit ℕ ℕ ℕ) := by
  refine ⟨by decide, ?_⟩
  intro h
  obtain ⟨s₁, m₁, hperform₁, _, h₁⟩ := init_ledger.perform
    (by decide : Legal .init ((.fromPointer 0 none, some 0) : Use ℕ ℕ ℕ))
  have huse₁ : State.use .init (.fromPointer 0 none, some 0) = s₁ := by
    rw [State.use, hperform₁]
    rfl
  rw [← huse₁] at h₁
  obtain ⟨s₂, m₂, hperform₂, _, h₂⟩ := h₁.perform
    (by decide : Legal _ ((.destroy 0, none) : Use ℕ ℕ ℕ))
  have huse₂ : State.use (State.use .init (.fromPointer 0 none, some 0))
      (.destroy 0, none) = s₂ := by
    rw [State.use, hperform₂]
    rfl
  rw [← huse₂] at h₂
  have hleak := h₂.accounted_iff_leak.1 h 0
  revert hleak
  decide

end Machine

end LearningCpp.SharedPtr
