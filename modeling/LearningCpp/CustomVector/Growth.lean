import LearningCpp.CustomVector.Lifetimes

/-!
# Growing costs a constant for each `push_back`

A `push_back` into a full vector constructs every element again in a block with
twice the room. What pays for that are the calls since the last time: a vector
has a credit of twice its size less its capacity, a `push_back` is charged four
constructions, and what it does not use it leaves as credit. A copy of a whole
vector is charged twice the elements it copies, since it leaves a full block
behind, and nothing where it copies none.

No other operation adds credit: `pop_back` and `clear` use some up, `reserve`
makes room, and a move takes the credit along with the block. So the bound holds
of any run on any number of vectors, also where storage is refused; only the
element copies must not throw, since a growth that is thrown out of costs what
it did and leaves the vector as full as it was.
-/

namespace LearningCpp.CustomVector

open LearningCpp.Lib Program

variable {V α : Type} {env : Env α} {s s' : State V α}
  {L : Lists V α} {v w : V} {m m' : Members} {l l' : List α} {x : α}
  {c k k' q : ℕ}

/-- What a vector has paid ahead for its next growth. -/
def Members.credit (m : Members) : ℕ := 2 * m.size - m.capacity

def State.credit (s : State V α) (v : V) : ℕ :=
  (s.vector v).elim 0 Members.credit

/-- The constructions so far and the credit of all vectors are at most `k`. -/
def Paid (s : State V α) (k : ℕ) : Prop :=
  ∃ names : Finset V, (∀ v, s.vector v ≠ none → v ∈ names) ∧
    s.constructed + ∑ v ∈ names, s.credit v ≤ k

theorem paid_init : Paid (State.init : State V α) 0 :=
  ⟨∅, fun _ hv => absurd rfl hv, le_refl 0⟩

theorem Paid.constructed_le (h : Paid s k) : s.constructed ≤ k := by
  obtain ⟨names, -, hsum⟩ := h
  omega

/-- Only the vectors and the number of constructions matter. -/
theorem Paid.congr (h : Paid s k) (hvector : s'.vector = s.vector)
    (hconstructed : s'.constructed = s.constructed + q) :
    Paid s' (k + q) := by
  obtain ⟨names, hnames, hsum⟩ := h
  have hcredit : s'.credit = s.credit := by
    funext u
    rw [State.credit, State.credit, hvector]
  refine ⟨names, by rw [hvector]; exact hnames, ?_⟩
  rw [hcredit, hconstructed]
  omega

variable [DecidableEq V]

/-- The elements a copy of a whole vector copies: none where the storage is
refused, or where an assignment returns at once. -/
def copiedElements (env : Env α) (s : State V α) (op : Op V α) : ℕ :=
  if Refused env s op then 0 else (batch env s op).elim 0 Prod.snd

/-- The constructions an operation is charged. -/
def charge (env : Env α) (s : State V α) : Op V α → ℕ
  | .pushBack _ _ | .pushBackAt _ _ _ => 4
  | .copyConstruct v other => 2 * copiedElements env s (.copyConstruct v other)
  | .copyAssign v other => 2 * copiedElements env s (.copyAssign v other)
  | .reserve v _ => (s.vector v).elim 0 Members.size
  | _ => 0

theorem copiedElements_eq {op : Op V α} {n : ℕ} (hrequest : request s op = some n)
    (hbatch : batch env s op = some (0, n))
    (hnew : env.newThrows s.allocations (env.sizeof * n) = false) :
    copiedElements env s op = n := by
  have hgranted : ¬ Refused env s op := by
    rintro ⟨n', hn', hrefused⟩
    rw [hrequest] at hn'
    cases hn'
    rw [hnew] at hrefused
    cases hrefused
  rw [copiedElements, if_neg hgranted, hbatch]
  rfl

/-- One vector changes, and what it costs is paid by its old credit and `k'`. -/
theorem Paid.update (h : Paid s k) (mm : Option Members)
    (hvector : s'.vector = Function.update s.vector v mm)
    (hconstructed : s'.constructed = s.constructed + q)
    (hpay : q + mm.elim 0 Members.credit + k ≤ s.credit v + k') :
    Paid s' k' := by
  obtain ⟨names, hnames, hsum⟩ := h
  have hcredit : s'.credit =
      Function.update s.credit v (mm.elim 0 Members.credit) := by
    funext u
    rw [State.credit, hvector]
    rcases eq_or_ne u v with rfl | hu
    · rw [Function.update_self, Function.update_self]
    · rw [Function.update_of_ne hu, Function.update_of_ne hu]
      rfl
  have hinsert : ∑ u ∈ insert v names, s.credit u =
      ∑ u ∈ names, s.credit u := by
    by_cases hv : v ∈ names
    · rw [Finset.insert_eq_of_mem hv]
    · have hnone : s.vector v = none := by
        by_contra hne
        exact hv (hnames v hne)
      have hzero : s.credit v = 0 := by
        rw [State.credit, hnone]
        rfl
      rw [Finset.sum_insert hv, hzero, Nat.zero_add]
  have hself := Finset.mem_insert_self v names
  refine ⟨insert v names, ?_, ?_⟩
  · intro u hu
    rcases eq_or_ne u v with rfl | huv
    · exact hself
    · rw [hvector, Function.update_of_ne huv] at hu
      exact Finset.mem_insert_of_mem (hnames u hu)
  · have hold := Finset.add_sum_erase _ s.credit hself
    rw [hcredit, hconstructed, Finset.sum_update_of_mem hself,
      Finset.sdiff_singleton_eq_erase]
    omega

/-! ## The credit of a vector -/

omit [DecidableEq V] in
theorem credit_of (hv : s.vector v = some m) : s.credit v = m.credit := by
  rw [State.credit, hv]
  rfl

theorem credit_members_of (b n c : ℕ) :
    (Members.of b n c).credit = 2 * n - c := rfl

omit [DecidableEq V] in
theorem Holds.credit_eq (h : Holds env s m l) :
    m.credit = 2 * l.length - m.capacity := by
  rw [Members.credit, h.size_eq]

omit [DecidableEq V] in
theorem Holds.credit_cleared (h : Holds env s m l) : m.cleared.credit = 0 := by
  cases h with
  | null => rfl
  | buffer _ _ _ =>
      show 2 * 0 - _ = 0
      omega

/-! ## One operation -/

/-- The operation is defined and is paid for. -/
def Pays (env : Env α) (op : Op V α) (s : State V α) (k : ℕ) : Prop :=
  ∃ r s', exec env op s = some (r, s') ∧ Paid s' (k + charge env s op)

theorem pays_of_returns {op : Op V α} {a : Value α}
    (h : Returns (exec env op) s a s') (hpaid : Paid s' (k + charge env s op)) :
    Pays env op s k := ⟨.ok a, s', h, hpaid⟩

omit [DecidableEq V] in
theorem Paid.mono (h : Paid s k) (hle : k ≤ k') : Paid s k' := by
  obtain ⟨names, hnames, hsum⟩ := h
  exact ⟨names, hnames, hsum.trans hle⟩

theorem pays_of_same {op : Op V α} {r : Outcome α}
    (h : exec env op s = some (r, s)) (hpaid : Paid s k) :
    Pays env op s k := ⟨r, s, h, hpaid.mono (Nat.le_add_right k _)⟩

/-- The storage is refused, after `q` constructions. -/
theorem pays_of_refused {op : Op V α}
    (h : Throws (exec env op) s .badAlloc (s.tally q q q).refuse)
    (hpaid : Paid s k) (hq : q ≤ charge env s op) : Pays env op s k := by
  have hafter : Paid (s.tally q q q).refuse (k + q) := hpaid.congr rfl rfl
  exact ⟨.error .badAlloc, _, h, hafter.mono (Nat.add_le_add_left hq k)⟩

omit [DecidableEq V] in
theorem Env.NoThrow.copies (henv : env.NoThrow) (k n : ℕ) :
    env.Copies k n := fun i _ => henv (k + i)

theorem pays_construct (hpaid : Paid s k) (hv : s.vector v = none) :
    Pays env (.construct v) s k := by
  cases hnew : env.newThrows s.allocations (env.sizeof * 1) with
  | true =>
      rw [Nat.mul_one] at hnew
      exact pays_of_refused (q := 0) (constructing_fails hv
        (Throws.bind (operatorNew_throws hnew)) rfl (fun _ => rfl)) hpaid
        (Nat.zero_le _)
  | false =>
      refine pays_of_returns (returning_returns (constructing_returns hv
        (defaultConstructor_returns hnew))) ?_
      refine hpaid.update (v := v) (q := 0) (some (.of s.next 0 1)) ?_ rfl
        (Nat.add_le_add_right ?_ _)
      · show Function.update (Function.update s.vector v (some .null)) v
          (some (.of s.next 0 1)) = _
        rw [Function.update_idem]
      · exact Nat.zero_le _

theorem pays_copyConstruct (henv : env.NoThrow) (h : Represents env s L)
    (hpaid : Paid s k) (hv : s.vector v = none) (hw : s.vector w ≠ none) :
    Pays env (.copyConstruct v w) s k := by
  obtain ⟨m', l', hw, hl', hm'⟩ := h.list hw
  have hne : w ≠ v := by
    rintro rfl
    rw [hv] at hw
    cases hw
  have hw' : (s.setVector v (some .null)).vector w = some m' := by
    rw [setVector_vector_ne hne]
    exact hw
  have hsource : Holds env (s.setVector v (some .null)) m' l' :=
    Holds.congr (s := s) (fun _ _ => rfl) hm'
  have hapart : Members.null.Apart m' := by
    intro a ha
    cases ha
  cases hnew : env.newThrows s.allocations (env.sizeof * l'.length) with
  | true =>
      exact pays_of_refused (q := 0) (constructing_fails hv
        (copyFrom_refused hw' hsource hnew) rfl (fun _ => rfl)) hpaid
        (Nat.zero_le _)
  | false =>
      refine pays_of_returns (returning_returns (constructing_returns hv
        (copyFrom_returns (henv.copies _ _) (setVector_vector_self _) .null hw'
          hsource hapart hnew h.next_free))) ?_
      refine hpaid.update (v := v) (q := l'.length)
        (some (.of s.next l'.length l'.length)) ?_ rfl ?_
      · rw [copied_vector]
        exact Function.update_idem _ _ _
      · have hrequest : request s (.copyConstruct v w) = some l'.length := by
          rw [request, hw, Option.map_some, hm'.size_eq]
        have hbatch : batch env s (.copyConstruct v w) = some (0, l'.length) := by
          rw [batch, hw, Option.map_some, hm'.size_eq]
        show l'.length + (2 * l'.length - l'.length) + k ≤
          s.credit v + (k + 2 * copiedElements env s (.copyConstruct v w))
        rw [copiedElements_eq hrequest hbatch hnew]
        omega

/-- A vector takes another one's members, which has none left. -/
theorem Paid.steal (h : Paid s k) (hne : v ≠ w) (hw : s.vector w = some m')
    (hvector : s'.vector = Function.update
      (Function.update s.vector v (some m')) w (some .null))
    (hconstructed : s'.constructed = s.constructed) : Paid s' k := by
  have htaken : Paid (s.setVector v (some m')) (k + m'.credit) := by
    refine h.update (v := v) (q := 0) (some m') rfl rfl ?_
    show 0 + m'.credit + k ≤ s.credit v + (k + m'.credit)
    omega
  refine htaken.update (v := w) (q := 0) (some .null) hvector hconstructed ?_
  have hcredit : (s.setVector v (some m')).credit w = m'.credit :=
    credit_of (by rw [setVector_vector_ne hne.symm, hw])
  show 0 + 0 + (k + m'.credit) ≤ _ + k
  rw [hcredit]
  omega

theorem pays_moveConstruct (h : Represents env s L) (hpaid : Paid s k)
    (hv : s.vector v = none) (hw : s.vector w ≠ none) :
    Pays env (.moveConstruct v w) s k := by
  obtain ⟨m', l', hw, hl', hm'⟩ := h.list hw
  have hne : v ≠ w := by
    rintro rfl
    rw [hv] at hw
    cases hw
  have hw' : (s.setVector v (some .null)).vector w = some m' := by
    rw [setVector_vector_ne hne.symm]
    exact hw
  refine pays_of_returns (returning_returns (constructing_returns hv
    (stealFrom_returns hw'))) ?_
  refine hpaid.steal hne hw ?_ rfl
  rw [setVector_setVector]
  rfl

theorem pays_copyAssign (henv : env.NoThrow) (h : Represents env s L)
    (hpaid : Paid s k) (hv : s.vector v ≠ none) (hw : s.vector w ≠ none) :
    Pays env (.copyAssign v w) s k := by
  obtain ⟨m, l, hv, hl, hm⟩ := h.list hv
  obtain ⟨m', l', hw, hl', hm'⟩ := h.list hw
  by_cases hsame : v = w ∨ m = .null
  · exact pays_of_same (returning_returns (copyAssign_same hv hsame)) hpaid
  obtain ⟨hne, hnull⟩ := not_or.1 hsame
  have hassign := copyAssign_eq (w := w) hv hm hne hnull
  cases hnew : env.newThrows s.allocations (env.sizeof * l'.length) with
  | true =>
      exact pays_of_refused (q := 0) (returning_throws
        (hassign.trans (copyFrom_refused hw hm' hnew))) hpaid (Nat.zero_le _)
  | false =>
      refine pays_of_returns (returning_returns (hassign.trans
        (copyFrom_returns (henv.copies _ _) hv hm hw hm'
          (h.apart v w m m' hne hv hw) hnew h.next_free))) ?_
      refine hpaid.update (v := v) (q := l'.length) _ copied_vector ?_ ?_
      · rw [State.copied, tally_constructed, setBlock_constructed,
          wipe_constructed]
        rfl
      · have hkept : ¬ (v = w ∨ s.vector v = some .null) := by
          rw [hv, Option.some_inj]
          exact hsame
        have hrequest : request s (.copyAssign v w) = some l'.length := by
          rw [request, if_neg hne, hw, Option.map_some, hm'.size_eq]
        have hbatch : batch env s (.copyAssign v w) = some (0, l'.length) := by
          rw [batch, if_neg hkept, hw, Option.map_some, hm'.size_eq]
        show l'.length + (2 * l'.length - l'.length) + k ≤
          s.credit v + (k + 2 * copiedElements env s (.copyAssign v w))
        rw [copiedElements_eq hrequest hbatch hnew]
        omega

theorem pays_moveAssign (h : Represents env s L) (hpaid : Paid s k)
    (hv : s.vector v ≠ none) (hw : s.vector w ≠ none) :
    Pays env (.moveAssign v w) s k := by
  obtain ⟨m, l, hv, hl, hm⟩ := h.list hv
  obtain ⟨m', l', hw, hl', hm'⟩ := h.list hw
  by_cases hsame : v = w ∨ m = .null
  · exact pays_of_same (returning_returns (moveAssign_same hv hsame)) hpaid
  obtain ⟨hne, hnull⟩ := not_or.1 hsame
  have hcleared : Paid (((s.setVector v (some m.cleared)).free m).tally 0 0
      l.length) k := by
    refine hpaid.update (v := v) (q := 0) (some m.cleared) ?_ ?_ ?_
    · rw [tally_vector, free_vector]
      rfl
    · rw [tally_constructed, free_constructed]
      rfl
    · rw [Option.elim_some, hm.credit_cleared]
      omega
  have hsource := (cleared_vector_ne (m := m) (Ne.symm hne) 0 0
    l.length).trans hw
  exact pays_of_returns (returning_returns
    (moveAssign_returns hv hm hw hne hnull)) (hcleared.steal hne hsource rfl rfl)

/-- A `push_back` of whatever refers to `x`. A full vector has saved as many
constructions as it has elements. -/
theorem pushBack_paid (henv : env.NoThrow) (h : Represents env s L)
    (hpaid : Paid s k) (hv : s.vector v = some m) (hm : Holds env s m l)
    {r : Ref α} (hr : Returns (deref r) s x s) :
    (∃ s', Returns (pushBack env v r) s () s' ∧ Paid s' (k + 4)) ∨
      Throws (pushBack env v r) s .badAlloc (s.tally 1 1 1).refuse := by
  have hc : env.copyThrows s.copies = false := henv _
  have hcredit : s.credit v = 2 * l.length - m.capacity :=
    (credit_of hv).trans hm.credit_eq
  by_cases hfull : l.length = m.capacity
  · cases hnew : env.newThrows s.allocations
      (env.sizeof * grown m.capacity) with
    | true => exact .inr (pushBack_refused hc hv hm hfull hnew hr)
    | false =>
        refine .inl ⟨_, pushBack_grows (henv.copies _ _) hv hm hfull hnew
          h.next_free hr, ?_⟩
        refine hpaid.update (v := v) (q := l.length + 2) _ pushed_vector ?_ ?_
        · rw [State.pushed, tally_constructed, free_constructed]
          rfl
        · have hleft : 2 * (l.length + 1) - grown m.capacity ≤ 2 := by
            rw [← hfull, grown]
            split <;> omega
          rw [Option.elim_some, credit_members_of, List.length_append,
            List.length_singleton, hcredit]
          omega
  · cases hm with
    | null => exact absurd rfl hfull
    | @buffer b c _ hb hlen _ =>
        have hroom : l.length < c := Nat.lt_of_le_of_ne hlen hfull
        refine .inl ⟨_, pushBack_room hc hv hb hroom hr, ?_⟩
        refine hpaid.update (v := v) (q := 1) (some (.of b (l.length + 1) c))
          rfl rfl ?_
        have hold : s.credit v = 2 * l.length - c := hcredit
        rw [Option.elim_some, credit_members_of, hold]
        omega

theorem pays_pushBack (henv : env.NoThrow) (h : Represents env s L)
    (hpaid : Paid s k) (hv : s.vector v ≠ none) :
    Pays env (.pushBack v x) s k := by
  obtain ⟨m, l, hv, hl, hm⟩ := h.list hv
  rcases pushBack_paid henv h hpaid hv hm (r := .outside x) .pure with
    ⟨s', hret, hpaid'⟩ | hthrow
  · exact pays_of_returns (returning_returns hret) hpaid'
  · exact pays_of_refused (q := 1) (returning_throws hthrow) hpaid
      (show 1 ≤ 4 by omega)

theorem pays_pushBackAt (henv : env.NoThrow) (h : Represents env s L)
    (hpaid : Paid s k) {i : ℕ} (hv : s.vector v ≠ none)
    (hw : s.vector w ≠ none) : Pays env (.pushBackAt v w i) s k := by
  obtain ⟨m, l, hv, hl, hm⟩ := h.list hv
  obtain ⟨m', l', hw, hl', hm'⟩ := h.list hw
  by_cases hi : i < l'.length
  · obtain ⟨p, hp, hload⟩ :=
      at_returns hw hm' (List.getElem?_eq_getElem hi)
    rcases pushBack_paid henv h hpaid hv hm (r := .slot p) hload with
      ⟨s', hret, hpaid'⟩ | hthrow
    · exact pays_of_returns (returning_returns (hp.bind hret)) hpaid'
    · exact pays_of_refused (q := 1) (returning_throws (hp.bind_throws hthrow))
        hpaid (show 1 ≤ 4 by omega)
  · exact pays_of_same (returning_throws (at_throws hw hm' (by omega)).bind)
      hpaid

theorem pays_popBack (h : Represents env s L) (hpaid : Paid s k)
    (hv : s.vector v ≠ none) : Pays env (.popBack v) s k := by
  obtain ⟨m, l, hv, hl, hm⟩ := h.list hv
  rcases l.eq_nil_or_concat' with rfl | ⟨l, x, rfl⟩
  · exact pays_of_same (returning_throws (popBack_throws hv hm)) hpaid
  · obtain ⟨b, c, rfl, hb, hlen, hc⟩ := hm.exists_buffer (by simp)
    rw [List.length_append, List.length_singleton] at hv
    refine pays_of_returns (returning_returns (popBack_returns hv hb)) ?_
    refine hpaid.update (v := v) (q := 0) (some (.of b l.length c)) rfl rfl ?_
    rw [Option.elim_some, credit_members_of, credit_of hv, credit_members_of]
    omega

theorem pays_clear (h : Represents env s L) (hpaid : Paid s k)
    (hv : s.vector v ≠ none) : Pays env (.clear v) s k := by
  obtain ⟨m, l, hv, hl, hm⟩ := h.list hv
  refine pays_of_returns (returning_returns (clear_returns hv hm)) ?_
  refine hpaid.update (v := v) (q := 0) (some m.cleared) ?_ ?_ ?_
  · rw [tally_vector, wipe_vector]
    rfl
  · rw [tally_constructed, wipe_constructed]
    rfl
  · rw [Option.elim_some, hm.credit_cleared]
    omega

theorem pays_reserve (henv : env.NoThrow) (h : Represents env s L)
    (hpaid : Paid s k) {n : ℕ} (hv : s.vector v ≠ none)
    (hfit : env.sizeof * n < 2 ^ 64 ∨
      env.newThrows s.allocations (sizeT (env.sizeof * n)) = true) :
    Pays env (.reserve v n) s k := by
  obtain ⟨m, l, hv, hl, hm⟩ := h.list hv
  by_cases hn : n ≤ m.capacity
  · exact pays_of_same (returning_returns (reserve_enough hv hm hn)) hpaid
  have hlt : m.capacity < n := by omega
  cases hnew : env.newThrows s.allocations (sizeT (env.sizeof * n)) with
  | true =>
      refine pays_of_refused (q := 0) (returning_throws ?_) hpaid
        (Nat.zero_le _)
      refine (getCapacity_returns hv hm).bind_throws ?_
      rw [if_neg hn]
      exact (getSize_returns hv hm).bind_throws (operatorNew_throws hnew).bind
  | false =>
      have hfit : env.sizeof * n < 2 ^ 64 := by
        refine hfit.resolve_right ?_
        rw [hnew]
        exact Bool.false_ne_true
      rw [sizeT_of_lt hfit] at hnew
      refine pays_of_returns (returning_returns (reserve_grows
        (henv.copies _ _) hv hm hlt hfit hnew h.next_free)) ?_
      refine hpaid.update (v := v) (q := l.length) _ reserved_vector ?_ ?_
      · rw [State.reserved, tally_constructed, free_constructed]
        rfl
      · show l.length + (2 * l.length - n) + k ≤
          s.credit v + (k + (s.vector v).elim 0 Members.size)
        rw [credit_of hv, hm.credit_eq, hv, Option.elim_some, hm.size_eq]
        omega

theorem pays_destroy (h : Represents env s L) (hpaid : Paid s k)
    (hv : s.vector v ≠ none) : Pays env (.destroy v) s k := by
  obtain ⟨m, l, hv, hl, hm⟩ := h.list hv
  have hvanish : Returns (vanish v) (((s.setVector v (some m.cleared)).free
      m).tally 0 0 l.length) () ((((s.setVector v (some m.cleared)).free
        m).tally 0 0 l.length).setVector v none) :=
    Returns.update (by simp)
  refine pays_of_returns (returning_returns
    ((destructor_returns hv hm).bind hvanish)) ?_
  refine hpaid.update (v := v) (q := 0) none ?_ ?_ ?_
  · rw [setVector_tally, tally_vector, free_setVector, free_vector,
      setVector_setVector]
    rfl
  · rw [setVector_tally, tally_constructed, free_setVector, free_constructed]
    rfl
  · show 0 + 0 + k ≤ _
    omega

/-! ## A run -/

/-- Every operation that is permitted is paid for. -/
theorem pays (henv : env.NoThrow) (h : Represents env s L) (hpaid : Paid s k)
    {op : Op V α} (hop : Permitted env s op) : Pays env op s k := by
  cases op with
  | construct v => exact pays_construct hpaid hop
  | copyConstruct v w => exact pays_copyConstruct henv h hpaid hop.1 hop.2
  | moveConstruct v w => exact pays_moveConstruct h hpaid hop.1 hop.2
  | copyAssign v w => exact pays_copyAssign henv h hpaid hop.1 hop.2
  | moveAssign v w => exact pays_moveAssign h hpaid hop.1 hop.2
  | pushBack v x => exact pays_pushBack henv h hpaid hop
  | pushBackAt v w i => exact pays_pushBackAt henv h hpaid hop.1 hop.2
  | popBack v => exact pays_popBack h hpaid hop
  | clear v => exact pays_clear h hpaid hop
  | reserve v n => exact pays_reserve henv h hpaid hop.1 hop.2
  | at_ v i =>
      obtain ⟨m, l, hv, hl, hm⟩ := h.list hop
      by_cases hi : i < l.length
      · obtain ⟨p, hp, hload⟩ :=
          at_returns hv hm (List.getElem?_eq_getElem hi)
        exact pays_of_same (hp.bind (hload.bind .pure)) hpaid
      · exact pays_of_same (at_throws hv hm (by omega)).bind hpaid
  | getSize v =>
      obtain ⟨m, l, hv, hl, hm⟩ := h.list hop
      exact pays_of_same ((getSize_returns hv hm).bind .pure) hpaid
  | getCapacity v =>
      obtain ⟨m, l, hv, hl, hm⟩ := h.list hop
      exact pays_of_same ((getCapacity_returns hv hm).bind .pure) hpaid
  | destroy v => exact pays_destroy h hpaid hop

/-- What the operations of a run are charged, each in the state it is carried
out in. -/
def charges (env : Env α) : List (Op V α) → State V α → ℕ
  | [], _ => 0
  | op :: ops, s => charge env s op +
    (exec env op s).elim 0 fun p => charges env ops p.2

theorem Paid.run (henv : env.NoThrow) (ops : List (Op V α)) :
    ∀ {s : State V α} {L : Lists V α} {k : ℕ}, Represents env s L →
      Paid s k → Meets env (Permitted env) ops s →
      ∃ rs s', perform env ops s = some (rs, s') ∧
        Paid s' (k + charges env ops s) := by
  induction ops with
  | nil => exact fun _ hpaid _ => ⟨[], _, rfl, hpaid⟩
  | cons op ops ih =>
      intro s L k h hpaid hmeets
      obtain ⟨hop, hrest⟩ := hmeets
      obtain ⟨r, s', hexec, hpaid'⟩ := pays henv h hpaid hop
      obtain ⟨r'', s'', L', j, hleads⟩ := steps h hop (henv.not_spoils op)
      have hsame : (r'', s'') = (r, s') :=
        Option.some.inj (hleads.run.symm.trans hexec)
      rw [Prod.mk.injEq] at hsame
      obtain ⟨rfl, rfl⟩ := hsame
      rw [hexec] at hrest
      obtain ⟨rs, s₂, hperform, hlast⟩ := ih hleads.represents hpaid' hrest
      refine ⟨r'' :: rs, s₂, by simp [perform, hexec, hperform], ?_⟩
      rw [charges, hexec, Option.elim_some, ← Nat.add_assoc]
      exact hlast

/-- All constructions of a run are paid by what its operations are charged,
however often its vectors grow. -/
theorem growth_amortized (henv : env.NoThrow) (ops : List (Op V α))
    (h : Meets env (Permitted env) ops .init) :
    ∃ rs s', perform env ops .init = some (rs, s') ∧
      s'.constructed ≤ charges env ops .init := by
  obtain ⟨rs, s', hperform, hpaid⟩ :=
    paid_init.run henv ops represents_init h
  rw [Nat.zero_add] at hpaid
  exact ⟨rs, s', hperform, hpaid.constructed_le⟩

/-- Two vectors that grow, one of them out of a copy without room. -/
theorem growth_amortized_int : ∃ rs s',
    perform intEnv [.construct 0, .pushBack 0 7, .pushBack 0 8,
      .pushBackAt 0 0 1, .copyConstruct 1 0, .pushBack 1 9, .moveAssign 0 1,
      .pushBack 0 4, .pushBack 0 5] (.init : State ℕ ℕ) = some (rs, s') ∧
    s'.constructed ≤ charges intEnv [.construct 0, .pushBack 0 7,
      .pushBack 0 8, .pushBackAt 0 0 1, .copyConstruct 1 0, .pushBack 1 9,
      .moveAssign 0 1, .pushBack 0 4, .pushBack 0 5] (.init : State ℕ ℕ) :=
  growth_amortized (fun _ => rfl) _ (by decide +kernel)

end LearningCpp.CustomVector
