import LearningCpp.Lib.Token
import LearningCpp.SharedPtr.Model

/-!
# The account of the blocks, with null pointers

A handle made from a null pointer is half null: it has a control block and no
object. Copying looks at the block and counts such a handle; releasing looks at
the object and does not, so the reference is lost and stays counted.

`Ledger` keeps the lost references of a block apart from its handles. Each
change a member function makes to the handles is one of six, and each keeps the
ledger: handles trade pointers or change without getting another block, a copy
is counted, a handle is released with its object or without one, a pointer is
adopted. Nothing brings a lost reference back.
-/

namespace LearningCpp.SharedPtr

open LearningCpp.Lib

variable {H O B : Type*}

/-- The blocks there are, are those some handle refers to, and each counts its
handles. -/
structure Accounted (s : State Unit H O B) : Prop where
  alive : ∀ b, s.block b = .alive ↔ ∃ h, s.cb h = some b
  count : ∀ b, s.block b = .alive →
    {h | s.cb h = some b}.encard = s.count b

/-- The blocks with their counts. `m` is the pointer a block was made for, and
`leak` how many of its references were lost. -/
structure Ledger (m : B → Option O) (leak : B → ℕ) (s : State Unit H O B) :
    Prop where
  shape : ∀ h p, s.handle h = some p → p = .null ∨ ∃ b, p = ⟨m b, some b⟩
  count : ∀ b, s.block b = .alive →
    ∃ n : ℕ, {h | s.cb h = some b}.encard = n ∧ n + leak b = s.count b
  alive : ∀ b, s.block b = .alive ↔ (∃ h, s.cb h = some b) ∨ 0 < leak b
  leaked : ∀ b, 0 < leak b → m b = none
  object : ∀ b o, s.block b = .alive → m b = some o → s.object o = .alive
  distinct : ∀ b b' o, s.block b = .alive → s.block b' = .alive →
    m b = some o → m b' = some o → b = b'

section Ledger

variable {m : B → Option O} {leak : B → ℕ} {s s' : State Unit H O B}

/-- The ledger does not look at the thread. -/
theorem Ledger.congr (h : Ledger m leak s) (hhandle : s'.handle = s.handle)
    (hcount : s'.count = s.count) (hblock : s'.block = s.block)
    (hobject : ∀ b o, s.block b = .alive → m b = some o →
      s'.object o = .alive) : Ledger m leak s' := by
  have hcb : s'.cb = s.cb := by
    unfold State.cb
    rw [hhandle]
  refine ⟨?_, ?_, ?_, h.leaked, ?_, ?_⟩
  · rw [hhandle]
    exact h.shape
  · rw [hblock, hcb, hcount]
    exact h.count
  · rw [hblock, hcb]
    exact h.alive
  · rw [hblock]
    exact hobject
  · rw [hblock]
    exact h.distinct

/-- The account is in order exactly if nothing was lost. -/
theorem Ledger.accounted_iff_leak (h : Ledger m leak s) :
    Accounted s ↔ ∀ b, leak b = 0 := by
  constructor
  · intro ha b
    by_contra hne
    have hb := (h.alive b).2 (.inr (Nat.pos_of_ne_zero hne))
    obtain ⟨n, hn, hsum⟩ := h.count b hb
    rw [ha.count b hb] at hn
    have hn : s.count b = n := by exact_mod_cast hn
    omega
  · intro hleak
    refine ⟨?_, ?_⟩
    · intro b
      rw [h.alive b, hleak b]
      simp
    · intro b hb
      obtain ⟨n, hn, hsum⟩ := h.count b hb
      rw [hn, ← hsum, hleak b]
      rfl

theorem Ledger.block_of_cb (h : Ledger m leak s) {k : H} {b : B}
    (hcb : s.cb k = some b) : s.block b = .alive :=
  (h.alive b).2 (.inl ⟨k, hcb⟩)

theorem Ledger.leak_of_object (h : Ledger m leak s) {b : B} {o : O}
    (hm : m b = some o) : leak b = 0 := by
  by_contra hne
  rw [h.leaked b (Nat.pos_of_ne_zero hne)] at hm
  cases hm

/-! ## Changes to the handles -/

/-- A change that gives no handle another block. -/
theorem Ledger.same_cb (h : Ledger m leak s)
    (hcb : ∀ k, s'.cb k = s.cb k)
    (hshape : ∀ k p, s'.handle k = some p →
      p = .null ∨ ∃ b, p = ⟨m b, some b⟩)
    (hcount : s'.count = s.count) (hblock : s'.block = s.block)
    (hobject : s'.object = s.object) : Ledger m leak s' := by
  have hcb : s'.cb = s.cb := funext hcb
  refine ⟨hshape, ?_, ?_, h.leaked, ?_, ?_⟩
  · rw [hblock, hcb, hcount]
    exact h.count
  · rw [hblock, hcb]
    exact h.alive
  · rw [hblock, hobject]
    exact h.object
  · rw [hblock]
    exact h.distinct

/-- Two handles trade pointers, or one takes those of the other. -/
theorem Ledger.trade (h : Ledger m leak s) (k other : H)
    (hself : s'.handle k = s.handle other)
    (hother : s'.handle other = s.handle k)
    (hrest : ∀ x, x ≠ k → x ≠ other → s'.handle x = s.handle x)
    (hcount : s'.count = s.count) (hblock : s'.block = s.block)
    (hobject : s'.object = s.object) : Ledger m leak s' := by
  have hcb : ∀ {x y}, s'.handle x = s.handle y → s'.cb x = s.cb y := by
    intro x y hxy
    unfold State.cb
    rw [hxy]
  have hexists : ∀ b, (∃ x, s'.cb x = some b) ↔ ∃ x, s.cb x = some b := by
    intro b
    constructor
    · rintro ⟨x, hx⟩
      by_cases hxk : x = k
      · exact ⟨other, by rw [← hcb hself, ← hxk]; exact hx⟩
      · by_cases hxo : x = other
        · exact ⟨k, by rw [← hcb hother, ← hxo]; exact hx⟩
        · exact ⟨x, by rw [← hcb (hrest x hxk hxo)]; exact hx⟩
    · rintro ⟨x, hx⟩
      by_cases hxk : x = k
      · exact ⟨other, by rw [hcb hother, ← hxk]; exact hx⟩
      · by_cases hxo : x = other
        · exact ⟨k, by rw [hcb hself, ← hxo]; exact hx⟩
        · exact ⟨x, by rw [hcb (hrest x hxk hxo)]; exact hx⟩
  refine ⟨?_, ?_, ?_, h.leaked, ?_, ?_⟩
  · intro x p hx
    by_cases hxk : x = k
    · rw [hxk, hself] at hx
      exact h.shape other p hx
    · by_cases hxo : x = other
      · rw [hxo, hother] at hx
        exact h.shape k p hx
      · rw [hrest x hxk hxo] at hx
        exact h.shape x p hx
  · rw [hblock, hcount]
    intro b hb
    obtain ⟨n, hn, hsum⟩ := h.count b hb
    refine ⟨n, ?_, hsum⟩
    rw [← hn]
    refine encard_exchange (a := k) (c := other) ?_ ?_ ?_
    · rw [hcb hself]
    · rw [hcb hother]
    · intro x hxk hxo
      rw [hcb (hrest x hxk hxo)]
  · intro b
    rw [hblock, hexists]
    exact h.alive b
  · rw [hblock, hobject]
    exact h.object
  · rw [hblock]
    exact h.distinct

variable [DecidableEq H] [DecidableEq B] {k : H} {b : B}

omit [DecidableEq B] in
theorem cb_update {p : Option (SharedPointer O B)}
    (hhandle : s'.handle = Function.update s.handle k p) :
    s'.cb k = p.bind SharedPointer.cb ∧ ∀ x, x ≠ k → s'.cb x = s.cb x := by
  unfold State.cb
  rw [hhandle]
  refine ⟨by rw [Function.update_self], ?_⟩
  intro x hx
  rw [Function.update_of_ne hx]

omit [DecidableEq B] in
theorem shape_update {p : Option (SharedPointer O B)}
    (h : ∀ x q, s.handle x = some q → q = .null ∨ ∃ b, q = ⟨m b, some b⟩)
    (hhandle : s'.handle = Function.update s.handle k p)
    (hp : ∀ q, p = some q → q = .null ∨ ∃ b, q = ⟨m b, some b⟩) :
    ∀ x q, s'.handle x = some q → q = .null ∨ ∃ b, q = ⟨m b, some b⟩ := by
  intro x q hx
  rw [hhandle, Function.update_apply] at hx
  split at hx
  · exact hp q hx
  · exact h x q hx

omit [DecidableEq H] [DecidableEq B] in
/-- A block that a handle neither gave up nor took keeps its handles. -/
theorem cb_iff_of_ne {b' : B} (hrest : ∀ x, x ≠ k → s'.cb x = s.cb x)
    (hold : s.cb k ≠ some b') (hnew : s'.cb k ≠ some b') (x : H) :
    s'.cb x = some b' ↔ s.cb x = some b' := by
  by_cases hx : x = k
  · rw [hx]
    exact iff_of_false hnew hold
  · rw [hrest x hx]

omit [DecidableEq H] [DecidableEq B] in
/-- A block whose handles and count stay as they are. -/
theorem Ledger.count_other {b' : B} (h : Ledger m leak s)
    (hb' : s.block b' = .alive)
    (hothers : ∀ x, s'.cb x = some b' ↔ s.cb x = some b')
    (hcount : s'.count b' = s.count b') :
    ∃ n : ℕ, {x | s'.cb x = some b'}.encard = n ∧
      n + leak b' = s'.count b' := by
  obtain ⟨n, hn, hsum⟩ := h.count b' hb'
  refine ⟨n, ?_, ?_⟩
  · rw [← hn]
    exact encard_congr hothers
  · rw [hcount]
    exact hsum

omit [DecidableEq H] [DecidableEq B] in
theorem Ledger.alive_other {b' : B} (h : Ledger m leak s)
    (hblock : s'.block b' = s.block b')
    (hothers : ∀ x, s'.cb x = some b' ↔ s.cb x = some b') :
    s'.block b' = .alive ↔ (∃ x, s'.cb x = some b') ∨ 0 < leak b' := by
  rw [hblock, h.alive b']
  refine or_congr_left (exists_congr ?_)
  exact fun x => (hothers x).symm

/-- A copy that was counted. -/
theorem Ledger.gain (h : Ledger m leak s) (hnone : s.cb k = none)
    (hb : s.block b = .alive)
    (hhandle : s'.handle = Function.update s.handle k (some ⟨m b, some b⟩))
    (hcount : s'.count = Function.update s.count b (s.count b + 1))
    (hblock : s'.block = s.block) (hobject : s'.object = s.object) :
    Ledger m leak s' := by
  obtain ⟨hself, hrest⟩ := cb_update hhandle
  have hself : s'.cb k = some b := hself
  have hothers : ∀ b', b' ≠ b → ∀ x, s'.cb x = some b' ↔ s.cb x = some b' := by
    intro b' hne
    refine cb_iff_of_ne hrest ?_ ?_
    · simp [hnone]
    · simp [hself, hne.symm]
  refine ⟨shape_update h.shape hhandle ?_, ?_, ?_, h.leaked, ?_, ?_⟩
  · intro q hq
    cases hq
    exact .inr ⟨b, rfl⟩
  · intro b' hb'
    rw [hblock] at hb'
    rcases eq_or_ne b' b with rfl | hne
    · obtain ⟨n, hn, hsum⟩ := h.count b' hb'
      refine ⟨n + 1, encard_gain (a := k) ?_ ?_ hn, ?_⟩
      · rw [hnone]
        simp
      · intro x
        by_cases hx : x = k
        · simp [hx, hself]
        · simp [hx, hrest x hx]
      · rw [hcount, Function.update_self]
        omega
    · refine h.count_other hb' (hothers b' hne) ?_
      rw [hcount, Function.update_of_ne hne]
  · intro b'
    by_cases hbb : b' = b
    · rw [hbb, hblock]
      exact iff_of_true hb (.inl ⟨k, hself⟩)
    · exact h.alive_other (congrFun hblock b') (hothers b' hbb)
  · rw [hblock, hobject]
    exact h.object
  · rw [hblock]
    exact h.distinct

/-- A handle with no object is released: its reference stays counted. -/
theorem Ledger.lose (h : Ledger m leak s) (hcb : s.cb k = some b)
    (hm : m b = none)
    (hhandle : s'.handle = Function.update s.handle k (some .null))
    (hcount : s'.count = s.count) (hblock : s'.block = s.block)
    (hobject : s'.object = s.object) :
    Ledger m (Function.update leak b (leak b + 1)) s' := by
  obtain ⟨hself, hrest⟩ := cb_update hhandle
  have hself : s'.cb k = none := hself
  have hothers : ∀ b', b' ≠ b → ∀ x, s'.cb x = some b' ↔ s.cb x = some b' := by
    intro b' hne
    refine cb_iff_of_ne hrest ?_ ?_
    · simp [hcb, hne.symm]
    · simp [hself]
  have hb := h.block_of_cb hcb
  refine ⟨shape_update h.shape hhandle ?_, ?_, ?_, ?_, ?_, ?_⟩
  · intro q hq
    cases hq
    exact .inl rfl
  · intro b' hb'
    rw [hblock] at hb'
    rcases eq_or_ne b' b with rfl | hne
    · obtain ⟨n, hn, hsum⟩ := h.count b' hb'
      have hpos := pos_of_encard_eq hn hcb
      refine ⟨n - 1, encard_lose (a := k) hcb ?_ ?_ hn, ?_⟩
      · rw [hself]
        simp
      · intro x hx
        rw [hrest x hx]
      · rw [hcount, Function.update_self]
        omega
    · rw [Function.update_of_ne hne]
      exact h.count_other hb' (hothers b' hne) (congrFun hcount b')
  · intro b'
    by_cases hbb : b' = b
    · rw [hbb, hblock, Function.update_self]
      exact iff_of_true hb (.inr (Nat.succ_pos _))
    · rw [Function.update_of_ne hbb]
      exact h.alive_other (congrFun hblock b') (hothers b' hbb)
  · intro b' hpos
    by_cases hbb : b' = b
    · rw [hbb]
      exact hm
    · rw [Function.update_of_ne hbb] at hpos
      exact h.leaked b' hpos
  · rw [hblock, hobject]
    exact h.object
  · rw [hblock]
    exact h.distinct

/-- A handle with an object is released, with which the last one takes the
object and the block along. -/
theorem Ledger.release [DecidableEq O] (h : Ledger m leak s) {o : O}
    (hcb : s.cb k = some b) (hm : m b = some o)
    (hhandle : s'.handle = Function.update s.handle k (some .null))
    (hcount : s'.count = Function.update s.count b (s.count b - 1))
    (hblock : s'.block =
      if s.count b - 1 = 0 then Function.update s.block b .deleted
      else s.block)
    (hobject : s'.object =
      if s.count b - 1 = 0 then Function.update s.object o .deleted
      else s.object) : Ledger m leak s' := by
  obtain ⟨hself, hrest⟩ := cb_update hhandle
  have hself : s'.cb k = none := hself
  have hb := h.block_of_cb hcb
  have hleak := h.leak_of_object hm
  obtain ⟨n, hn, hsum⟩ := h.count b hb
  have hpos := pos_of_encard_eq hn hcb
  have hn' : {x | s'.cb x = some b}.encard = (n - 1 : ℕ) := by
    refine encard_lose (a := k) hcb ?_ ?_ hn
    · rw [hself]
      simp
    · intro x hx
      rw [hrest x hx]
  -- The other blocks keep their handles and their lives.
  have hother : ∀ b', b' ≠ b → s'.block b' = s.block b' := by
    intro b' hne
    rw [hblock]
    split
    · exact Function.update_of_ne hne _ _
    · rfl
  have hothers : ∀ b', b' ≠ b → ∀ x, s'.cb x = some b' ↔ s.cb x = some b' := by
    intro b' hne
    refine cb_iff_of_ne hrest ?_ ?_
    · simp [hcb, hne.symm]
    · simp [hself]
  have hself' : s'.block b = .alive ↔ s.count b - 1 ≠ 0 := by
    rw [hblock]
    split
    · next hzero => simp [hzero]
    · next hzero => simp [hzero, hb]
  have hwas : ∀ b', s'.block b' = .alive → s.block b' = .alive := by
    intro b' hb'
    rcases eq_or_ne b' b with rfl | hne
    · exact hb
    · rw [← hother b' hne]
      exact hb'
  refine ⟨shape_update h.shape hhandle ?_, ?_, ?_, h.leaked, ?_, ?_⟩
  · intro q hq
    cases hq
    exact .inl rfl
  · intro b' hb'
    rcases eq_or_ne b' b with rfl | hne
    · refine ⟨n - 1, hn', ?_⟩
      rw [hcount, Function.update_self]
      omega
    · refine h.count_other (hwas b' hb') (hothers b' hne) ?_
      rw [hcount, Function.update_of_ne hne]
  · intro b'
    rcases eq_or_ne b' b with rfl | hne
    · rw [hself', hleak]
      constructor
      · intro hzero
        exact .inl (exists_of_encard_eq hn' (by omega))
      · rintro (⟨x, hx⟩ | hlt)
        · have := pos_of_encard_eq hn' hx
          omega
        · omega
    · exact h.alive_other (hother b' hne) (hothers b' hne)
  · intro b' o' hb' hm'
    have halive := h.object b' o' (hwas b' hb') hm'
    rw [hobject]
    split
    · next hzero =>
        have hbb : b' ≠ b := by
          rintro rfl
          exact hself'.1 hb' hzero
        have hoo : o' ≠ o := by
          rintro rfl
          exact hbb (h.distinct b' b o' (hwas b' hb') hb hm' hm)
        rw [Function.update_of_ne hoo]
        exact halive
    · exact halive
  · intro b₁ b₂ o' h₁ h₂
    exact h.distinct b₁ b₂ o' (hwas b₁ h₁) (hwas b₂ h₂)

/-- A raw pointer gets a handle and a new block. -/
theorem Ledger.adopt (h : Ledger m leak s) {pointer : Option O}
    (hnone : s.cb k = none) (hb : s.block b = .unborn)
    (hpointer : ∀ o, pointer = some o → s.object o = .alive ∧
      ∀ b', s.block b' = .alive → m b' ≠ some o)
    (hhandle : s'.handle = Function.update s.handle k (some ⟨pointer, some b⟩))
    (hcount : s'.count = Function.update s.count b 1)
    (hblock : s'.block = Function.update s.block b .alive)
    (hobject : s'.object = s.object) :
    Ledger (Function.update m b pointer) leak s' := by
  obtain ⟨hself, hrest⟩ := cb_update hhandle
  have hself : s'.cb k = some b := hself
  have hdead : s.block b ≠ .alive := by
    rw [hb]
    simp
  have hfree : ∀ x, s.cb x ≠ some b := fun x hx => hdead (h.block_of_cb hx)
  have hleak : leak b = 0 := by
    by_contra hne
    exact hdead ((h.alive b).2 (.inr (Nat.pos_of_ne_zero hne)))
  have hothers : ∀ b', b' ≠ b → ∀ x, s'.cb x = some b' ↔ s.cb x = some b' := by
    intro b' hne
    refine cb_iff_of_ne hrest ?_ ?_
    · simp [hnone]
    · simp [hself, hne.symm]
  have hother : ∀ b', b' ≠ b → s'.block b' = s.block b' := by
    intro b' hne
    rw [hblock, Function.update_of_ne hne]
  refine ⟨?_, ?_, ?_, ?_, ?_, ?_⟩
  · intro x q hx
    rw [hhandle, Function.update_apply] at hx
    split at hx
    · cases hx
      exact .inr ⟨b, by rw [Function.update_self]⟩
    · rcases h.shape x q hx with rfl | ⟨b', rfl⟩
      · exact .inl rfl
      · have hne : b' ≠ b := by
          rintro rfl
          exact hfree x (by rw [State.cb, hx]; rfl)
        exact .inr ⟨b', by rw [Function.update_of_ne hne]⟩
  · intro b' hb'
    rcases eq_or_ne b' b with rfl | hne
    · refine ⟨1, encard_gain (a := k) (P := fun x => s.cb x = some b')
        (hfree k) ?_ ?_, ?_⟩
      · intro x
        by_cases hx : x = k
        · simp [hx, hself]
        · simp [hx, hrest x hx]
      · exact encard_eq_zero_of_not hfree
      · rw [hcount, Function.update_self]
        omega
    · rw [hother b' hne] at hb'
      refine h.count_other hb' (hothers b' hne) ?_
      rw [hcount, Function.update_of_ne hne]
  · intro b'
    rcases eq_or_ne b' b with rfl | hne
    · rw [hblock, Function.update_self]
      exact iff_of_true rfl (.inl ⟨k, hself⟩)
    · exact h.alive_other (hother b' hne) (hothers b' hne)
  · intro b' hpos
    have hne : b' ≠ b := by
      rintro rfl
      omega
    rw [Function.update_of_ne hne]
    exact h.leaked b' hpos
  · intro b' o hb' hm
    rw [hobject]
    rcases eq_or_ne b' b with rfl | hne
    · rw [Function.update_self] at hm
      exact (hpointer o hm).1
    · rw [hother b' hne] at hb'
      rw [Function.update_of_ne hne] at hm
      exact h.object b' o hb' hm
  · intro b₁ b₂ o h₁ h₂ hm₁ hm₂
    rcases eq_or_ne b₁ b with rfl | hne₁
    · rcases eq_or_ne b₂ b₁ with rfl | hne₂
      · rfl
      · rw [Function.update_self] at hm₁
        rw [Function.update_of_ne hne₂] at hm₂
        rw [hother b₂ hne₂] at h₂
        exact absurd hm₂ ((hpointer o hm₁).2 b₂ h₂)
    · rw [Function.update_of_ne hne₁] at hm₁
      rw [hother b₁ hne₁] at h₁
      rcases eq_or_ne b₂ b with rfl | hne₂
      · rw [Function.update_self] at hm₂
        exact absurd hm₁ ((hpointer o hm₂).2 b₁ h₁)
      · rw [Function.update_of_ne hne₂] at hm₂
        rw [hother b₂ hne₂] at h₂
        exact h.distinct b₁ b₂ o h₁ h₂ hm₁ hm₂

end Ledger

end LearningCpp.SharedPtr
