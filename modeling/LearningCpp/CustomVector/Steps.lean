import LearningCpp.CustomVector.Books
import LearningCpp.CustomVector.Refinement

/-!
# One operation

One lemma for each operation, on a state that represents lists: the operation is
defined, how it ends, what lists the state after it represents, and what it has
done to the books. Copies of elements may throw. Two things can then go wrong
that the caller cannot see from the lists. Elements in a new block are lost if a
copy after them throws; and an assignment has destroyed the elements of its
target by the time a copy throws, which spoils the target. The latter is left
out here.
-/

namespace LearningCpp.CustomVector

open LearningCpp.Lib Program

variable {V α : Type} [DecidableEq V] {env : Env α} {s s' : State V α}
  {L L' : Lists V α} {v w : V} {m m' : Members} {l l' : List α} {x : α}
  {b c n : ℕ}

/-! ## What may happen -/

/-- As `Allowed`, with assignments to vectors that were moved from, and with
requests for bytes that wrap, as long as they are refused. -/
def Permitted (env : Env α) (s : State V α) : Op V α → Prop
  | .copyAssign v other => s.vector v ≠ none ∧ s.vector other ≠ none
  | .moveAssign v other => s.vector v ≠ none ∧ s.vector other ≠ none
  | .reserve v newCapacity =>
    s.vector v ≠ none ∧ (env.sizeof * newCapacity < 2 ^ 64 ∨
      env.newThrows s.allocations (sizeT (env.sizeof * newCapacity)) = true)
  | op => Allowed env s op

/-- The copies an operation makes into a new block, as the number of those it
makes before and their own. -/
def batch (env : Env α) (s : State V α) : Op V α → Option (ℕ × ℕ)
  | .copyConstruct _ other => (s.vector other).map fun m => (0, m.size)
  | .copyAssign v other =>
    if v = other ∨ s.vector v = some .null then none
    else (s.vector other).map fun m => (0, m.size)
  | .pushBack v _ =>
    (s.vector v).bind fun m =>
      m.growth.map fun _ => (1, env.relocationCopies m.size)
  | .pushBackAt v other index =>
    (s.vector other).bind fun m =>
      if index < m.size then
        (s.vector v).bind fun m =>
          m.growth.map fun _ => (1, env.relocationCopies m.size)
      else none
  | .reserve v newCapacity =>
    (s.vector v).bind fun m =>
      if m.capacity < newCapacity then some (0, env.relocationCopies m.size)
      else none
  | _ => none

/-- A copy throws when the new block has elements. -/
def Loses (env : Env α) (s : State V α) (op : Op V α) : Prop :=
  ¬ Refused env s op ∧ ∃ k ∈ batch env s op, ∃ j, j < k.2 ∧
    0 < j ∧ env.FailsAfter s.copies (k.1 + j)

/-- A copy throws when the target of the assignment had elements. -/
def Spoils (env : Env α) (s : State V α) : Op V α → Prop
  | .copyAssign v other =>
    v ≠ other ∧ ¬ Refused env s (.copyAssign v other) ∧
      ∃ m ∈ s.vector v, 0 < m.size ∧
      ∃ m' ∈ s.vector other, ∃ j, j < m'.size ∧ env.FailsAfter s.copies j
  | _ => False

/-- A vector that has a block gets another one from `copy_from`. -/
def Leaks (env : Env α) (s : State V α) : Op V α → Prop
  | .copyAssign v other =>
    v ≠ other ∧ s.vector v ≠ some .null ∧
      ¬ Refused env s (.copyAssign v other)
  | _ => False

instance (env : Env α) (k j : ℕ) : Decidable (env.FailsAfter k j) :=
  inferInstanceAs (Decidable ((∀ i, i < j → env.copyThrows (k + i) = false) ∧
    env.copyThrows (k + j) = true))

instance (env : Env α) (s : State V α) (op : Op V α) :
    Decidable (Refused env s op) :=
  inferInstanceAs (Decidable (∃ n ∈ request s op,
    env.newThrows s.allocations (env.sizeof * n) = true))

instance (env : Env α) (s : State V α) (op : Op V α) :
    Decidable (Loses env s op) :=
  inferInstanceAs (Decidable (¬ Refused env s op ∧
    ∃ k ∈ batch env s op, ∃ j, j < k.2 ∧
      0 < j ∧ env.FailsAfter s.copies (k.1 + j)))

instance (env : Env α) (s : State V α) (op : Op V α) :
    Decidable (Spoils env s op) :=
  match op with
  | .copyAssign v other => inferInstanceAs (Decidable
    (v ≠ other ∧ ¬ Refused env s (.copyAssign v other) ∧
      ∃ m ∈ s.vector v, 0 < m.size ∧
      ∃ m' ∈ s.vector other, ∃ j, j < m'.size ∧ env.FailsAfter s.copies j))
  | .construct _ | .copyConstruct _ _ | .moveConstruct _ _ | .moveAssign _ _
  | .pushBack _ _ | .pushBackAt _ _ _ | .popBack _ | .clear _ | .reserve _ _
  | .at_ _ _ | .getSize _ | .getCapacity _ | .destroy _ =>
    inferInstanceAs (Decidable False)

instance (env : Env α) (s : State V α) (op : Op V α) :
    Decidable (Leaks env s op) :=
  match op with
  | .copyAssign v other => inferInstanceAs (Decidable
    (v ≠ other ∧ s.vector v ≠ some .null ∧
      ¬ Refused env s (.copyAssign v other)))
  | .construct _ | .copyConstruct _ _ | .moveConstruct _ _ | .moveAssign _ _
  | .pushBack _ _ | .pushBackAt _ _ _ | .popBack _ | .clear _ | .reserve _ _
  | .at_ _ _ | .getSize _ | .getCapacity _ | .destroy _ =>
    inferInstanceAs (Decidable False)

/-- How an operation ends, with what lists. -/
inductive Ends (env : Env α) (s : State V α) (op : Op V α) :
    Outcome α → Lists V α → Lists V α → Prop where
  | list {r : Outcome α} {L L' : Lists V α} (h : ListStep op r L L') :
      Ends env s op r L L'
  | refused {L : Lists V α} (h : Refused env s op) :
      Ends env s op (.error .badAlloc) L L
  | element {L : Lists V α} {k : ℕ} (h : env.copyThrows (s.copies + k) = true) :
      Ends env s op (.error .element) L L
  /-- An assignment to a vector that was moved from. -/
  | ignored {L : Lists V α} {v other : V}
      (hop : op = .copyAssign v other ∨ op = .moveAssign v other)
      (hne : v ≠ other) (hnull : s.vector v = some .null) :
      Ends env s op (.ok .unit) L L

/-- What an operation does, `j` elements being lost by it. -/
structure Leads (env : Env α) (op : Op V α) (s : State V α) (L : Lists V α)
    (r : Outcome α) (s' : State V α) (L' : Lists V α) (j : ℕ) : Prop where
  run : exec env op s = some (r, s')
  ends : Ends env s op r L L'
  represents : Represents env s' L'
  lost : ¬ Loses env s op → j = 0
  books : ∀ {P : Option (Block α) → Prop} {k : ℕ}, P none →
    (Leaks env s op → ∀ c, P (some (.of c []))) →
    Books P s L k → Books P s' L' (k + j)

def Steps (env : Env α) (op : Op V α) (s : State V α) (L : Lists V α) :
    Prop :=
  ∃ r s' L' j, Leads env op s L r s' L' j

theorem steps_of_returns {op : Op V α} {a : Value α}
    (h : Returns (exec env op) s a s') (hstep : ListStep op (.ok a) L L')
    (hrep : Represents env s' L')
    (hbooks : ∀ {P : Option (Block α) → Prop} {k : ℕ}, P none →
      (Leaks env s op → ∀ c, P (some (.of c []))) →
      Books P s L k → Books P s' L' k) : Steps env op s L :=
  ⟨.ok a, s', L', 0, h, .list hstep, hrep, fun _ => rfl, hbooks⟩

/-- Nothing happens. -/
theorem steps_of_same {op : Op V α} {r : Outcome α}
    (h : exec env op s = some (r, s)) (hstep : ListStep op r L L)
    (hrep : Represents env s L) : Steps env op s L :=
  ⟨r, s, L, 0, h, .list hstep, hrep, fun _ => rfl, fun _ _ hk => hk⟩

theorem steps_of_refused {op : Op V α} {q : ℕ}
    (h : Throws (exec env op) s .badAlloc (s.tally q q q).refuse)
    (hn : request s op = some n)
    (hnew : env.newThrows s.allocations (env.sizeof * n) = true)
    (hrep : Represents env s L) : Steps env op s L :=
  ⟨.error .badAlloc, _, L, 0, h, .refused ⟨n, hn, hnew⟩,
    (hrep.tally q q q).refuse, fun _ => rfl,
    fun _ _ hk => (hk.tally (p := q) (q := q) (r := q) (j := 0) rfl).refuse⟩

/-- A copy throws, and the lists stay. -/
theorem steps_of_element {op : Op V α} {i j : ℕ}
    (h : Throws (exec env op) s .element s')
    (hi : env.copyThrows (s.copies + i) = true) (hrep : Represents env s' L)
    (hlost : ¬ Loses env s op → j = 0)
    (hbooks : ∀ {P : Option (Block α) → Prop} {k : ℕ}, P none →
      Books P s L k → Books P s' L (k + j)) : Steps env op s L :=
  ⟨.error .element, s', L, j, h, .element hi, hrep, hlost,
    fun hnone _ => hbooks hnone⟩

theorem not_refused {op : Op V α} (hn : request s op = some n)
    (hnew : env.newThrows s.allocations (env.sizeof * n) = false) :
    ¬ Refused env s op := by
  rintro ⟨n', hn', hnew'⟩
  rw [hn] at hn'
  cases hn'
  rw [hnew] at hnew'
  cases hnew'

/-- What was lost was in the new block. -/
theorem lost_of_batch {op : Op V α} {k j : ℕ} (hop : ¬ Refused env s op)
    (hbatch : batch env s op = some (k, n)) (hj : j < n)
    (hfails : env.FailsAfter s.copies (k + j)) (h : ¬ Loses env s op) :
    j = 0 := by
  by_contra hne
  exact h ⟨hop, (k, n), hbatch, j, hj, Nat.pos_of_ne_zero hne, hfails⟩

/-! ## Constructors -/

theorem undeclare (hv : s.vector v = none) (k : Option Members) :
    (s.setVector v k).setVector v none = s := by
  rw [setVector_setVector, setVector_same hv]

/-- A constructor that failed leaves no trace in the vectors. -/
theorem constructing_fails {body : Run V α Unit} {e : Exception}
    {f : State V α → State V α} (hv : s.vector v = none)
    (h : Throws body (s.setVector v (some .null)) e
      (f (s.setVector v (some .null))))
    (hvector : (f (s.setVector v (some .null))).vector =
      (s.setVector v (some .null)).vector)
    (hf : ∀ s, (f s).setVector v none = f (s.setVector v none)) :
    Throws (returning (constructing v body)) s e (f s) := by
  have hthrow := constructing_throws hv h (by rw [hvector]; simp)
  rw [hf, undeclare hv] at hthrow
  exact returning_throws hthrow

theorem steps_construct (h : Represents env s L) (hv : s.vector v = none) :
    Steps env (.construct v) s L := by
  have hl := h.dead v hv
  cases hnew : env.newThrows s.allocations (env.sizeof * 1) with
  | true =>
      have hnew' : env.newThrows s.allocations env.sizeof = true := by
        rw [Nat.mul_one] at hnew
        exact hnew
      have hthrow : Throws (exec env (.construct v)) s .badAlloc s.refuse :=
        constructing_fails hv (Throws.bind (operatorNew_throws hnew')) rfl
          (fun _ => rfl)
      exact steps_of_refused (q := 0) hthrow rfl hnew h
  | false =>
      have hrep : Represents env (((s.setVector v (some .null)).allocate
          1).setVector v (some (.of s.next 0 1)))
          (Function.update (Function.update L v (some [])) v (some [])) := by
        refine (h.declared v).inNew (n := 1) (setVector_vector_self _) rfl
          (allocate_block_self 1) (Nat.zero_le _) (env.le_of_new hnew) ?_ rfl
        intro b hb _
        exact allocate_block_ne 1 hb
      rw [Function.update_idem] at hrep
      refine steps_of_returns (returning_returns (constructing_returns hv
        (defaultConstructor_returns hnew))) (.construct hl) hrep ?_
      intro P k _ _ hk
      have hbooks : Books P (((s.setVector v (some .null)).allocate
          1).setVector v (some (.of s.next 0 1)))
          (Function.update (Function.update L v (some [])) v (some [])) k := by
        refine (hk.declared hv hl).inNew (n := 1) (q := 0) (r := 0)
          (setVector_vector_self _) rfl rfl rfl ?_ ?_ ?_
        · rw [Lists.size_of (Function.update_self _ _ _)]
        · intro b hb _
          exact allocate_block_ne 1 hb
        · intro a ha
          cases ha
      rw [Function.update_idem] at hbooks
      exact hbooks

theorem steps_copyConstruct (h : Represents env s L)
    (hv : s.vector v = none) (hw : s.vector w ≠ none) :
    Steps env (.copyConstruct v w) s L := by
  obtain ⟨m', l', hw, hl', hm'⟩ := h.list hw
  have hl := h.dead v hv
  have hne : w ≠ v := by
    rintro rfl
    rw [hv] at hw
    cases hw
  have hw' : (s.setVector v (some .null)).vector w = some m' := by
    rw [setVector_vector_ne hne]
    exact hw
  have hsource : Holds env (s.setVector v (some .null)) m' l' :=
    Holds.congr (s := s) (fun _ _ => rfl) hm'
  have hrequest : request s (.copyConstruct v w) = some l'.length := by
    rw [request, hw, Option.map_some, hm'.size_eq]
  have hapart : Members.null.Apart m' := by
    intro a ha
    cases ha
  cases hnew : env.newThrows s.allocations (env.sizeof * l'.length) with
  | true =>
      have hthrow : Throws (exec env (.copyConstruct v w)) s .badAlloc
          s.refuse := constructing_fails hv (copyFrom_refused hw' hsource hnew)
        rfl (fun _ => rfl)
      exact steps_of_refused (q := 0) hthrow hrequest hnew h
  | false =>
      rcases env.copies_or s.copies l'.length with hcopies | ⟨j, hj, hfails⟩
      · have hrep : Represents env
            ((s.setVector v (some .null)).copied v .null [] l')
            (Function.update (Function.update L v (some [])) v (some l')) :=
          (h.declared v).copied (setVector_vector_self _) hnew
        rw [Function.update_idem] at hrep
        refine steps_of_returns (returning_returns (constructing_returns hv
          (copyFrom_returns hcopies (setVector_vector_self _) .null hw'
            hsource hapart hnew h.next_free))) (.copyConstruct hl hl') hrep ?_
        intro P k _ _ hk
        have hbooks : Books P
            ((s.setVector v (some .null)).copied v .null [] l')
            (Function.update (Function.update L v (some [])) v (some l')) k :=
          (hk.declared hv hl).copied (setVector_vector_self _)
            (Function.update_self _ _ _) (by intro a ha; cases ha)
            (by intro a ha; cases ha)
        rw [Function.update_idem] at hbooks
        exact hbooks
      · have hthrow : Throws (exec env (.copyConstruct v w)) s .element
            (s.abandon.tally (j + 1) j 0) :=
          constructing_fails (f := fun s => s.abandon.tally (j + 1) j 0) hv
            (copyFrom_throws (s := s.setVector v (some .null)) hj hfails
              (setVector_vector_self _) .null hw' hsource hapart hnew
              h.next_free) rfl (fun _ => rfl)
        refine steps_of_element hthrow hfails.2 (h.abandon.tally _ _ _) ?_
          (fun _ hk => hk.abandon.tally (Nat.zero_add j).symm)
        refine lost_of_batch (k := 0) (not_refused hrequest hnew) ?_ hj ?_
        · rw [batch, hw, Option.map_some, hm'.size_eq]
        · rw [Nat.zero_add]
          exact hfails

theorem steps_moveConstruct (h : Represents env s L)
    (hv : s.vector v = none) (hw : s.vector w ≠ none) :
    Steps env (.moveConstruct v w) s L := by
  obtain ⟨m', l', hw, hl', hm'⟩ := h.list hw
  have hne : v ≠ w := by
    rintro rfl
    rw [hv] at hw
    cases hw
  have hw' : (s.setVector v (some .null)).vector w = some m' := by
    rw [setVector_vector_ne hne.symm]
    exact hw
  have hback : (s.setVector v (some .null)).setVector v none = s :=
    undeclare hv _
  have hrep : Represents env
      ((s.setVector v (some .null)).setVector v none) L := by
    rw [hback]
    exact h
  refine steps_of_returns (returning_returns (constructing_returns hv
    (stealFrom_returns hw'))) (.moveConstruct (h.dead v hv) hl')
      (hrep.steal hne hw' hl') ?_
  intro P k _ _ hk
  rw [← hback] at hk
  exact hk.steal hne hw' (h.dead v hv) hl'

/-! ## Assignments -/

/-- Nothing is assigned to the vector itself, nor to one without a block. -/
theorem copyAssign_same (hv : s.vector v = some m)
    (h : v = w ∨ m = .null) : Returns (copyAssign env v w) s () s := by
  by_cases hne : v = w
  · rw [copyAssign, if_pos hne]
    exact .pure
  · obtain rfl := h.resolve_left hne
    rw [copyAssign, if_neg hne]
    exact (initialized_returns hv).bind .pure

theorem moveAssign_same (hv : s.vector v = some m)
    (h : v = w ∨ m = .null) : Returns (moveAssign v w) s () s := by
  by_cases hne : v = w
  · rw [moveAssign, if_pos hne]
    exact .pure
  · obtain rfl := h.resolve_left hne
    rw [moveAssign, if_neg hne]
    exact (initialized_returns hv).bind .pure

/-- Otherwise it is `copy_from`. -/
theorem copyAssign_eq (hv : s.vector v = some m) (h : Holds env s m l)
    (hne : v ≠ w) (hnull : m ≠ .null) :
    copyAssign env v w s = copyFrom env v w s := by
  rw [copyAssign, if_neg hne, bind_returns (initialized_returns hv),
    h.initialized hnull, if_neg (by simp)]

omit [DecidableEq V] in
theorem wipe_nil (h : Holds env s m []) : s.wipe m = s := by
  cases h with
  | null => rfl
  | buffer hb _ _ => exact setBlock_same hb

theorem steps_copyAssign (h : Represents env s L) (hv : s.vector v ≠ none)
    (hw : s.vector w ≠ none) (hspoil : ¬ Spoils env s (.copyAssign v w)) :
    Steps env (.copyAssign v w) s L := by
  obtain ⟨m, l, hv, hl, hm⟩ := h.list hv
  obtain ⟨m', l', hw, hl', hm'⟩ := h.list hw
  have hlive : L v ≠ none := by rw [hl]; simp
  by_cases hne : v = w
  · have hstep : ListStep (.copyAssign v w) (.ok .unit) L
        (Function.update L v (some l')) := .copyAssign hlive hl'
    rw [hne, ← hl', Function.update_eq_self] at hstep
    refine steps_of_same (returning_returns (copyAssign_same hv (.inl hne)))
      ?_ h
    rw [hne]
    exact hstep
  · by_cases hnull : m = .null
    · rw [hnull] at hv
      exact ⟨.ok .unit, s, L, 0, returning_returns
        (copyAssign_same hv (.inr rfl)), .ignored (.inl rfl) hne hv, h,
        fun _ => rfl, fun _ _ hk => hk⟩
    · have hassign := copyAssign_eq (w := w) hv hm hne hnull
      have hapart := h.apart v w m m' hne hv hw
      have hrequest : request s (.copyAssign v w) = some l'.length := by
        rw [request, if_neg hne, hw, Option.map_some, hm'.size_eq]
      have hsome : s.vector v ≠ some .null := by
        rw [hv]
        simpa using hnull
      cases hnew : env.newThrows s.allocations (env.sizeof * l'.length) with
      | true =>
          exact steps_of_refused (q := 0) (returning_throws
            (hassign.trans (copyFrom_refused hw hm' hnew))) hrequest hnew h
      | false =>
          have hgranted := not_refused hrequest hnew
          rcases env.copies_or s.copies l'.length with hcopies |
            ⟨j, hj, hfails⟩
          · refine steps_of_returns (returning_returns (hassign.trans
              (copyFrom_returns hcopies hv hm hw hm' hapart hnew
                h.next_free))) (.copyAssign hlive hl') (h.copied hv hnew) ?_
            intro P k _ hraw hk
            exact hk.copied hv hl (hm.avoids h.next_free)
              (fun _ _ => hraw ⟨hne, hsome, hgranted⟩ _)
          · -- The target had no elements, or it would be spoiled.
            obtain rfl : l = [] := by
              by_contra hl
              refine hspoil ⟨hne, hgranted, m, hv, ?_, m', hw, j, ?_, hfails⟩
              · rw [hm.size_eq]
                exact List.length_pos_iff.2 hl
              · rw [hm'.size_eq]
                exact hj
            have hthrow := copyFrom_throws hj hfails hv hm hw hm' hapart hnew
              h.next_free
            rw [wipe_nil (s := s.abandon) (Holds.congr (s := s)
              (fun _ _ => rfl) hm)] at hthrow
            refine steps_of_element (returning_throws (hassign.trans hthrow))
              hfails.2 (h.abandon.tally _ _ _) ?_
              (fun _ hk => hk.abandon.tally (Nat.zero_add j).symm)
            refine lost_of_batch (k := 0) hgranted ?_ hj ?_
            · rw [batch, if_neg (by simp [hne, hsome]), hw, Option.map_some,
                hm'.size_eq]
            · rw [Nat.zero_add]
              exact hfails

/-- The other vectors after a destructor. -/
theorem cleared_vector_ne (hne : w ≠ v) (p q r : ℕ) :
    (((s.setVector v (some m.cleared)).free m).tally p q r).vector w =
      s.vector w := by
  rw [tally_vector, free_vector, setVector_vector_ne hne]

/-- `v` has given its block up and has that of `w`. -/
def State.taken (s : State V α) (v w : V) (m m' : Members) (l : List α) :
    State V α :=
  ((((s.setVector v (some m.cleared)).free m).tally 0 0 l.length).setVector v
    (some m')).setVector w (some .null)

theorem moveAssign_returns (hv : s.vector v = some m) (hm : Holds env s m l)
    (hw : s.vector w = some m') (hne : v ≠ w) (hnull : m ≠ .null) :
    Returns (moveAssign v w) s () (s.taken v w m m' l) := by
  have hsource := (cleared_vector_ne (m := m) hne.symm 0 0 l.length).trans hw
  rw [moveAssign, if_neg hne]
  refine (initialized_returns hv).bind ?_
  rw [hm.initialized hnull, if_neg (by simp)]
  refine (clear_returns hv hm).bind ?_
  refine Returns.bind (members_returns (m := m.cleared) (by simp)) ?_
  exact (delete_cleared hm).bind (stealFrom_returns hsource)

theorem Represents.taken (h : Represents env s L) (hv : s.vector v = some m)
    (hw : s.vector w = some m') (hl' : L w = some l') (hne : v ≠ w) :
    Represents env (s.taken v w m m' l)
      (Function.update (Function.update L v (some l')) w (some [])) := by
  have hsource := (cleared_vector_ne (m := m) hne.symm 0 0 l.length).trans hw
  have hrep := (h.destroyed hv 0 0 l.length).steal (l := l') hne hsource
    ((Function.update_of_ne hne.symm _ _).trans hl')
  rw [Function.update_idem] at hrep
  exact hrep

theorem Books.taken {P : Option (Block α) → Prop} {k : ℕ}
    (h : Books P s L k) (hP : P none) (hv : s.vector v = some m)
    (hl : L v = some l) (hw : s.vector w = some m') (hl' : L w = some l')
    (hne : v ≠ w) :
    Books P (s.taken v w m m' l)
      (Function.update (Function.update L v (some l')) w (some [])) k := by
  have hsource := (cleared_vector_ne (m := m) hne.symm 0 0 l.length).trans hw
  have hbooks := (h.destroyed hP hv hl).steal (l := l') hne hsource
    (Function.update_self _ _ _)
    ((Function.update_of_ne hne.symm _ _).trans hl')
  rw [Function.update_idem] at hbooks
  exact hbooks

theorem steps_moveAssign (h : Represents env s L) (hv : s.vector v ≠ none)
    (hw : s.vector w ≠ none) : Steps env (.moveAssign v w) s L := by
  obtain ⟨m, l, hv, hl, hm⟩ := h.list hv
  obtain ⟨m', l', hw, hl', hm'⟩ := h.list hw
  have hlive : L v ≠ none := by rw [hl]; simp
  by_cases hne : v = w
  · subst hne
    exact steps_of_same (returning_returns (moveAssign_same hv (.inl rfl)))
      (.moveAssign_self hlive) h
  · by_cases hnull : m = .null
    · rw [hnull] at hv
      exact ⟨.ok .unit, s, L, 0, returning_returns
        (moveAssign_same hv (.inr rfl)), .ignored (.inr rfl) hne hv, h,
        fun _ => rfl, fun _ _ hk => hk⟩
    · exact steps_of_returns (returning_returns
        (moveAssign_returns hv hm hw hne hnull))
        (.moveAssign hne hlive hl') (h.taken hv hw hl' hne)
        (fun hnone _ hk => hk.taken hnone hv hl hw hl' hne)

/-! ## Elements -/

/-- How a `push_back` ends that is thrown out of by a copy, with `j` elements
lost. -/
structure PushFails (env : Env α) (s : State V α) (L : Lists V α) (v : V)
    (m : Members) (r : Ref α) (s' : State V α) (j : ℕ) : Prop where
  run : Throws (pushBack env v r) s .element s'
  copy : ∃ i, env.copyThrows (s.copies + i) = true
  represents : Represents env s' L
  books : ∀ {P : Option (Block α) → Prop} {k : ℕ}, P none →
    Books P s L k → Books P s' L (k + j)
  lost : j = 0 ∨ ∃ n, m.growth = some n ∧
    env.newThrows s.allocations (env.sizeof * n) = false ∧
    j < env.relocationCopies m.size ∧ env.FailsAfter s.copies (1 + j)

/-- A copy that fails while a full vector grows. -/
theorem pushFails_of_grow (h : Represents env s L)
    (hv : s.vector v = some m) (hl : L v = some l) (hm : Holds env s m l)
    {r : Ref α} (hr : Returns (deref r) s x s) (hfull : l.length = m.capacity)
    (hnew : env.newThrows s.allocations
      (env.sizeof * grown m.capacity) = false) {i : ℕ}
    (hi : i < 1 + env.relocationCopies (l.length + 1))
    (hfails : env.FailsAfter s.copies i)
    (hc : env.copyThrows s.copies = false) :
    ∃ s' j, PushFails env s L v m r s' j := by
  have hpos : i ≠ 0 := by
    rintro rfl
    have hthrow : env.copyThrows s.copies = true := hfails.2
    rw [hc] at hthrow
    cases hthrow
  obtain ⟨j, rfl⟩ : ∃ j, i = 1 + j := ⟨i - 1, by omega⟩
  have hmove : env.nothrowMove = false := by
    by_contra hmove
    rw [Env.relocationCopies, if_pos (Bool.eq_true_of_not_eq_false hmove)]
      at hi
    omega
  rw [Env.relocationCopies_eq hmove] at hi
  have hgrowth : m.growth = some (grown m.capacity) := by
    rw [Members.growth, if_pos (hm.full_iff.2 hfull)]
  by_cases hj : j < l.length
  · refine ⟨_, j, pushBack_throws_relocate hmove hj hfails hv hm hfull hnew
      h.next_free hr, ⟨_, hfails.2⟩, h.abandon.tally _ _ _,
      fun _ hk => hk.abandon.tally (Nat.add_comm j 1), .inr ⟨_, hgrowth, hnew,
        ?_, hfails⟩⟩
    rw [Env.relocationCopies_eq hmove, hm.size_eq]
    exact hj
  · obtain rfl : j = l.length := by omega
    exact ⟨_, 0, pushBack_throws_construct hmove hfails hv hm hfull hnew
      h.next_free hr, ⟨_, hfails.2⟩,
      (h.reserved hv hl hm (lt_grown _) hnew).tally _ _ _,
      fun hnone hk => (hk.reserved hnone hv hl).tally rfl, .inl rfl⟩

/-- `push_back` of whatever refers to `x`, also an element of the vector. -/
theorem pushBack_cases (h : Represents env s L) (hv : s.vector v = some m)
    (hl : L v = some l) (hm : Holds env s m l) {r : Ref α}
    (hr : Returns (deref r) s x s) :
    (∃ s', Returns (pushBack env v r) s () s' ∧
      Represents env s' (Function.update L v (some (l ++ [x]))) ∧
      ∀ {P : Option (Block α) → Prop} {k : ℕ}, P none → Books P s L k →
        Books P s' (Function.update L v (some (l ++ [x]))) k) ∨
    (∃ n, m.growth = some n ∧
      env.newThrows s.allocations (env.sizeof * n) = true ∧
      Throws (pushBack env v r) s .badAlloc (s.tally 1 1 1).refuse) ∨
    ∃ s' j, PushFails env s L v m r s' j := by
  cases hc : env.copyThrows s.copies with
  | true =>
      exact .inr (.inr ⟨_, 0, pushBack_throws_copy hc hv hr, ⟨0, hc⟩,
        h.tally 1 0 0, fun _ hk => hk.tally rfl, .inl rfl⟩)
  | false =>
      by_cases hfull : l.length = m.capacity
      · cases hnew : env.newThrows s.allocations
          (env.sizeof * grown m.capacity) with
        | true =>
            refine .inr (.inl ⟨grown m.capacity, ?_, hnew,
              pushBack_refused hc hv hm hfull hnew hr⟩)
            rw [Members.growth, if_pos (hm.full_iff.2 hfull)]
        | false =>
            rcases env.copies_or s.copies
              (1 + env.relocationCopies (l.length + 1)) with hcopies |
              ⟨i, hi, hfails⟩
            · exact .inl ⟨_, pushBack_grows hcopies hv hm hfull hnew
                h.next_free hr, h.pushed hv hm (lt_grown _) hnew,
                fun hnone hk => hk.pushed hnone hv hl⟩
            · exact .inr (.inr (pushFails_of_grow h hv hl hm hr hfull hnew hi
                hfails hc))
      · cases hm with
        | null => exact absurd rfl hfull
        | @buffer b c _ hb hlen hc' =>
            have hroom : l.length < c := Nat.lt_of_le_of_ne hlen hfull
            have hlength : (l ++ [x]).length = l.length + 1 := by simp
            have hrep := h.inPlace (l := l ++ [x]) hv hc' (by omega) 1 1 0
            rw [hlength] at hrep
            refine .inl ⟨_, pushBack_room hc hv hb hroom hr, hrep, ?_⟩
            intro P k _ hk
            have hbooks := hk.inPlace (l := l ++ [x]) (p := 1) (q := 1)
              (r := 0) hv (by rw [Lists.size_of hl, hlength])
            rw [hlength] at hbooks
            exact hbooks

theorem steps_pushBack (h : Represents env s L) (hv : s.vector v ≠ none) :
    Steps env (.pushBack v x) s L := by
  obtain ⟨m, l, hv, hl, hm⟩ := h.list hv
  rcases pushBack_cases h hv hl hm (r := .outside x) .pure with
    ⟨s', hret, hrep, hbooks⟩ | ⟨n, hn, hnew, hthrow⟩ | ⟨s', j, hfails⟩
  · exact steps_of_returns (returning_returns hret) (.pushBack hl) hrep
      (fun hnone _ hk => hbooks hnone hk)
  · refine steps_of_refused (returning_throws hthrow) ?_ hnew h
    rw [request, hv, Option.bind_some, hn]
  · obtain ⟨i, hi⟩ := hfails.copy
    refine steps_of_element (returning_throws hfails.run) hi hfails.represents
      ?_ hfails.books
    intro hnot
    rcases hfails.lost with hzero | ⟨n, hn, hnew, hj, hfail⟩
    · exact hzero
    · refine lost_of_batch (n := env.relocationCopies m.size)
        (not_refused ?_ hnew) ?_ hj hfail hnot
      · rw [request, hv, Option.bind_some, hn]
      · rw [batch, hv, Option.bind_some, hn, Option.map_some]

theorem steps_pushBackAt (h : Represents env s L) {i : ℕ}
    (hv : s.vector v ≠ none) (hw : s.vector w ≠ none) :
    Steps env (.pushBackAt v w i) s L := by
  obtain ⟨m, l, hv, hl, hm⟩ := h.list hv
  obtain ⟨m', l', hw, hl', hm'⟩ := h.list hw
  by_cases hi : i < l'.length
  · have hx := List.getElem?_eq_getElem hi
    obtain ⟨p, hp, hload⟩ := at_returns hw hm' hx
    have hindex : i < m'.size := by
      rw [hm'.size_eq]
      exact hi
    have hrequest : request s (.pushBackAt v w i) = m.growth := by
      rw [request, hw, Option.bind_some, if_pos hindex, hv, Option.bind_some]
    rcases pushBack_cases h hv hl hm (r := .slot p) hload with
      ⟨s', hret, hrep, hbooks⟩ | ⟨n, hn, hnew, hthrow⟩ | ⟨s', j, hfails⟩
    · exact steps_of_returns (returning_returns (hp.bind hret))
        (.pushBackAt hl hl' hx) hrep (fun hnone _ hk => hbooks hnone hk)
    · exact steps_of_refused (returning_throws (hp.bind_throws hthrow))
        (hrequest.trans hn) hnew h
    · obtain ⟨k, hk⟩ := hfails.copy
      refine steps_of_element (returning_throws (hp.bind_throws hfails.run)) hk
        hfails.represents ?_ hfails.books
      intro hnot
      rcases hfails.lost with hzero | ⟨n, hn, hnew, hj, hfail⟩
      · exact hzero
      · refine lost_of_batch (n := env.relocationCopies m.size)
          (not_refused (hrequest.trans hn) hnew) ?_ hj hfail hnot
        rw [batch, hw, Option.bind_some, if_pos hindex, hv, Option.bind_some,
          hn, Option.map_some]
  · have hi : l'.length ≤ i := by omega
    exact steps_of_same (returning_throws (at_throws hw hm' hi).bind)
      (.pushBackAt_throws hl' hi) h

theorem steps_popBack (h : Represents env s L) (hv : s.vector v ≠ none) :
    Steps env (.popBack v) s L := by
  obtain ⟨m, l, hv, hl, hm⟩ := h.list hv
  rcases l.eq_nil_or_concat' with rfl | ⟨l, x, rfl⟩
  · exact steps_of_same (returning_throws (popBack_throws hv hm))
      (.popBack_throws hl) h
  · obtain ⟨b, c, rfl, hb, hlen, hc⟩ := hm.exists_buffer (by simp)
    have hsize : L.size v = l.length + 1 := by
      rw [Lists.size_of hl]
      simp
    rw [List.length_append, List.length_singleton] at hv hlen
    exact steps_of_returns (returning_returns (popBack_returns hv hb))
      (.popBack hl) (h.inPlace hv hc (by omega) 0 0 1)
      (fun _ _ hk => hk.inPlace hv hsize)

theorem steps_clear (h : Represents env s L) (hv : s.vector v ≠ none) :
    Steps env (.clear v) s L := by
  obtain ⟨m, l, hv, hl, hm⟩ := h.list hv
  exact steps_of_returns (returning_returns (clear_returns hv hm))
    (.clear (by rw [hl]; simp)) (h.cleared hv hm)
    (fun _ _ hk => hk.cleared hv hl hm)

/-- The bytes wrap, and the request is refused. -/
theorem steps_reserve_wrapped (h : Represents env s L)
    (hv : s.vector v ≠ none) (hwrap : 2 ^ 64 ≤ env.sizeof * n)
    (hnew : env.newThrows s.allocations (sizeT (env.sizeof * n)) = true) :
    Steps env (.reserve v n) s L := by
  obtain ⟨m, l, hv, hl, hm⟩ := h.list hv
  have hmax := maxObject_lt
  have hlt : m.capacity < n := by
    by_contra hle
    have hbytes := Nat.mul_le_mul_left env.sizeof (Nat.le_of_not_lt hle)
    have hcapacity := hm.capacity_bytes
    omega
  have hthrow : Throws (reserve env v n) s .badAlloc s.refuse := by
    refine (getCapacity_returns hv hm).bind_throws ?_
    rw [if_neg (by omega)]
    refine (getSize_returns hv hm).bind_throws ?_
    exact (operatorNew_throws hnew).bind
  refine steps_of_refused (n := n) (q := 0) (returning_throws hthrow) ?_
    (env.newThrows_large _ _ (by omega)) h
  rw [request, hv, Option.bind_some, if_pos hlt]

theorem steps_reserve (h : Represents env s L) (hv : s.vector v ≠ none)
    (hfit : env.sizeof * n < 2 ^ 64) : Steps env (.reserve v n) s L := by
  obtain ⟨m, l, hv, hl, hm⟩ := h.list hv
  have hlive : L v ≠ none := by rw [hl]; simp
  by_cases hn : n ≤ m.capacity
  · exact steps_of_same (returning_returns (reserve_enough hv hm hn))
      (.reserve hlive) h
  · have hlt : m.capacity < n := by omega
    have hrequest : request s (.reserve v n) = some n := by
      rw [request, hv, Option.bind_some, if_pos hlt]
    cases hnew : env.newThrows s.allocations (env.sizeof * n) with
    | true =>
        exact steps_of_refused (q := 0) (returning_throws
          (reserve_refused hv hm hlt hfit hnew)) hrequest hnew h
    | false =>
        rcases env.copies_or s.copies (env.relocationCopies l.length) with
          hcopies | ⟨j, hj, hfails⟩
        · exact steps_of_returns (returning_returns
            (reserve_grows hcopies hv hm hlt hfit hnew h.next_free))
            (.reserve hlive) (h.reserved hv hl hm hlt hnew)
            (fun hnone _ hk => hk.reserved hnone hv hl)
        · have hmove : env.nothrowMove = false := by
            by_contra hmove
            rw [Env.relocationCopies,
              if_pos (Bool.eq_true_of_not_eq_false hmove)] at hj
            omega
          refine steps_of_element (returning_throws (reserve_throws hmove
            (by rw [Env.relocationCopies_eq hmove] at hj; exact hj) hfails hv
            hm hlt hfit hnew h.next_free)) hfails.2 (h.abandon.tally _ _ _) ?_
            (fun _ hk => hk.abandon.tally (Nat.zero_add j).symm)
          refine lost_of_batch (k := 0) (not_refused hrequest hnew) ?_ hj ?_
          · rw [batch, hv, Option.bind_some, if_pos hlt, hm.size_eq]
          · rw [Nat.zero_add]
            exact hfails

/-! ## Observers and the end -/

theorem steps_at (h : Represents env s L) {i : ℕ} (hv : s.vector v ≠ none) :
    Steps env (.at_ v i) s L := by
  obtain ⟨m, l, hv, hl, hm⟩ := h.list hv
  by_cases hi : i < l.length
  · have hx := List.getElem?_eq_getElem hi
    obtain ⟨p, hp, hload⟩ := at_returns hv hm hx
    exact steps_of_same (hp.bind (hload.bind .pure)) (.at_ hl hx) h
  · have hi : l.length ≤ i := by omega
    exact steps_of_same (at_throws hv hm hi).bind (.at_throws hl hi) h

theorem steps_getSize (h : Represents env s L) (hv : s.vector v ≠ none) :
    Steps env (.getSize v) s L := by
  obtain ⟨m, l, hv, hl, hm⟩ := h.list hv
  exact steps_of_same ((getSize_returns hv hm).bind .pure) (.getSize hl) h

theorem steps_getCapacity (h : Represents env s L) (hv : s.vector v ≠ none) :
    Steps env (.getCapacity v) s L := by
  obtain ⟨m, l, hv, hl, hm⟩ := h.list hv
  exact steps_of_same ((getCapacity_returns hv hm).bind .pure)
    (.getCapacity hl hm.length_le) h

theorem steps_destroy (h : Represents env s L) (hv : s.vector v ≠ none) :
    Steps env (.destroy v) s L := by
  obtain ⟨m, l, hv, hl, hm⟩ := h.list hv
  have hvanish : Returns (vanish v) (((s.setVector v (some m.cleared)).free
      m).tally 0 0 l.length) () ((((s.setVector v (some m.cleared)).free
        m).tally 0 0 l.length).setVector v none) :=
    Returns.update (by simp)
  exact steps_of_returns (returning_returns
    ((destructor_returns hv hm).bind hvanish)) (.destroy (by rw [hl]; simp))
      (h.destroyed hv 0 0 l.length) (fun hnone _ hk => hk.destroyed hnone hv hl)

/-- Every operation that is permitted and spoils nothing. -/
theorem steps (h : Represents env s L) {op : Op V α}
    (hop : Permitted env s op) (hspoil : ¬ Spoils env s op) :
    Steps env op s L := by
  cases op with
  | construct v => exact steps_construct h hop
  | copyConstruct v w => exact steps_copyConstruct h hop.1 hop.2
  | moveConstruct v w => exact steps_moveConstruct h hop.1 hop.2
  | copyAssign v w => exact steps_copyAssign h hop.1 hop.2 hspoil
  | moveAssign v w => exact steps_moveAssign h hop.1 hop.2
  | pushBack v x => exact steps_pushBack h hop
  | pushBackAt v w i => exact steps_pushBackAt h hop.1 hop.2
  | popBack v => exact steps_popBack h hop
  | clear v => exact steps_clear h hop
  | reserve v n =>
      obtain ⟨hv, hfit | hnew⟩ := hop
      · exact steps_reserve h hv hfit
      · rcases Nat.lt_or_ge (env.sizeof * n) (2 ^ 64) with hfit | hwrap
        · exact steps_reserve h hv hfit
        · exact steps_reserve_wrapped h hv hwrap hnew
  | at_ v i => exact steps_at h hop
  | getSize v => exact steps_getSize h hop
  | getCapacity v => exact steps_getCapacity h hop
  | destroy v => exact steps_destroy h hop

omit [DecidableEq V] in
theorem Env.NoThrow.not_fails (henv : env.NoThrow) {k j : ℕ} :
    ¬ env.FailsAfter k j := by
  rintro ⟨_, hthrow⟩
  rw [henv] at hthrow
  cases hthrow

theorem Env.NoThrow.not_loses (henv : env.NoThrow) (op : Op V α) :
    ¬ Loses env s op := by
  rintro ⟨_, _, _, _, _, _, hfails⟩
  exact henv.not_fails hfails

theorem Env.NoThrow.not_spoils (henv : env.NoThrow) (op : Op V α) :
    ¬ Spoils env s op := by
  cases op with
  | copyAssign v other =>
      rintro ⟨_, _, _, _, _, _, _, _, _, hfails⟩
      exact henv.not_fails hfails
  | _ => exact id

omit [DecidableEq V] in
theorem Allowed.permitted {op : Op V α} (h : Allowed env s op) :
    Permitted env s op := by
  cases op with
  | copyAssign v w => exact ⟨h.1, h.2.1⟩
  | moveAssign v w => exact ⟨h.1, h.2.1⟩
  | reserve v n => exact ⟨h.1, .inl h.2⟩
  | _ => exact h

/-- Every operation that is allowed is defined and is the one on lists. -/
theorem simulates (henv : env.NoThrow) (h : Represents env s L)
    {op : Op V α} (hop : Allowed env s op) : Simulates env op s L := by
  obtain ⟨r, s', L', _, hleads⟩ :=
    steps h hop.permitted (henv.not_spoils op)
  refine ⟨r, s', L', hleads.run, ?_, hleads.represents⟩
  cases hleads.ends with
  | list hstep => exact .inl hstep
  | refused hrefused => exact .inr ⟨hrefused, rfl, rfl⟩
  | element hthrow =>
      rw [henv] at hthrow
      cases hthrow
  | ignored hassign _ hnull =>
      -- That is what `Allowed` rules out.
      rcases hassign with rfl | rfl
      · exact absurd hnull hop.2.2
      · exact absurd hnull hop.2.2

end LearningCpp.CustomVector
