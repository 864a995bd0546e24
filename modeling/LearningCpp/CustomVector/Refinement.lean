import LearningCpp.CustomVector.Lists

/-!
# What a refinement of lists is

On a state that represents lists an operation is defined, it ends as the
operation on lists does, and the state after it represents the lists after that.
The one other way to end is that the storage the operation asks for is refused,
and then no list has changed. The lemmas say it of the states operations end in,
one for each kind of change to a vector and its storage.
-/

namespace LearningCpp.CustomVector

open LearningCpp.Lib Program

variable {V α : Type} [DecidableEq V] {env : Env α} {s s' : State V α}
  {L L' : Lists V α} {v w : V} {m m' : Members} {l l' : List α} {x : α}
  {b c n : ℕ}

/-! ## Changes to one vector -/

/-- The elements of a vector change within its block. -/
theorem Represents.inPlace (h : Represents env s L) {k : ℕ}
    (hv : s.vector v = some (.of b k c)) (hc : env.sizeof * c ≤ maxObject)
    (hlen : l.length ≤ c) (p q r : ℕ) :
    Represents env (((s.setVector v (some (.of b l.length c))).setBlock b
      (some (.of c l))).tally p q r) (Function.update L v (some l)) := by
  have hlt : b < s.next := h.block_lt hv rfl
  refine Represents.tally (h.change rfl
    (.buffer (setBlock_block_self _ _) hlen hc) ?_ ?_ ?_) p q r
  · intro b' hb' _
    have hne : b' ≠ b := fun heq => hb' _ hv _ rfl heq.symm
    exact setBlock_block_ne hne _
  · intro a ha
    exact Or.inl ⟨_, hv, ha⟩
  · intro b' hb'
    have hnext : s.next ≤ b' := hb'
    rw [setBlock_block_ne (by omega)]
    exact h.fresh b' hnext

/-- The elements of a vector are in a new block. -/
theorem Represents.inNew (h : Represents env s L) (hv : s.vector v = some m)
    (hvector : s'.vector =
      Function.update s.vector v (some (.of s.next l.length n)))
    (hb : s'.block s.next = some (.of n l)) (hlen : l.length ≤ n)
    (hn : env.sizeof * n ≤ maxObject)
    (hblock : ∀ b, b ≠ s.next → m.Avoids b → s'.block b = s.block b)
    (hnext : s'.next = s.next + 1) :
    Represents env s' (Function.update L v (some l)) := by
  obtain ⟨l₀, _, hm⟩ := h.holds v m hv
  refine h.change hvector (.buffer hb hlen hn) ?_ ?_ ?_
  · intro b hown hlt
    exact hblock b (by omega) (hown m hv)
  · intro a ha
    obtain rfl := Option.some.inj ha
    exact Or.inr (Nat.le_refl _)
  · intro b hge
    rw [hnext] at hge
    have hnone := h.fresh b (by omega)
    rw [hblock b (by omega) (hm.avoids hnone)]
    exact hnone

theorem Env.le_of_new (env : Env α) {k bytes : ℕ}
    (h : env.newThrows k bytes = false) : bytes ≤ maxObject := by
  by_contra hlt
  rw [env.newThrows_large k bytes (by omega)] at h
  cases h

theorem Represents.reserved (h : Represents env s L)
    (hv : s.vector v = some m) (hl : L v = some l) (hm : Holds env s m l)
    (hn : m.capacity < n)
    (hnew : env.newThrows s.allocations (env.sizeof * n) = false) :
    Represents env (s.reserved env v m l n) L := by
  have havoids := hm.avoids h.next_free
  have hlen := hm.length_le
  have hnew : Represents env (s.reserved env v m l n)
      (Function.update L v (some l)) := by
    refine h.inNew (n := n) hv ?_ ?_ (by omega) (env.le_of_new hnew) ?_ ?_
    · exact reserved_vector
    · rw [State.reserved, tally_block, free_block_ne havoids]
      exact setBlock_block_self _ _
    · exact fun _ => reserved_block_ne
    · rw [State.reserved, tally_next, free_next]
      rfl
  rw [← hl, Function.update_eq_self] at hnew
  exact hnew

theorem Represents.pushed (h : Represents env s L)
    (hv : s.vector v = some m) (hm : Holds env s m l)
    (hn : m.capacity < n)
    (hnew : env.newThrows s.allocations (env.sizeof * n) = false) :
    Represents env (s.pushed env v m l x n)
      (Function.update L v (some (l ++ [x]))) := by
  have havoids := hm.avoids h.next_free
  have hlen := hm.length_le
  have hlength : (l ++ [x]).length = l.length + 1 := by simp
  refine h.inNew (n := n) hv ?_ ?_ (by omega) (env.le_of_new hnew) ?_ ?_
  · exact pushed_vector
  · rw [State.pushed, tally_block, free_block_ne havoids]
    exact setBlock_block_self _ _
  · exact fun _ => pushed_block_ne
  · rw [State.pushed, tally_next, free_next]
    rfl

theorem Represents.copied (h : Represents env s L)
    (hv : s.vector v = some m)
    (hnew : env.newThrows s.allocations (env.sizeof * l'.length) = false) :
    Represents env (s.copied v m l l') (Function.update L v (some l')) := by
  refine h.inNew (n := l'.length) hv ?_ ?_ (Nat.le_refl _)
    (env.le_of_new hnew) ?_ ?_
  · exact copied_vector
  · rw [State.copied, tally_block, setBlock_block_self]
  · exact fun _ => copied_block_ne
  · rw [State.copied, tally_next, setBlock_next, wipe_next]
    rfl

theorem Represents.cleared (h : Represents env s L)
    (hv : s.vector v = some m) (hm : Holds env s m l) :
    Represents env (((s.setVector v (some m.cleared)).wipe m).tally 0 0
      l.length) (Function.update L v (some [])) := by
  cases hm with
  | null =>
      have hnull : Represents env (s.setVector v (some .null))
          (Function.update L v (some [])) :=
        h.change rfl .null (fun _ _ _ => rfl) (by intro a ha; cases ha)
          h.fresh
      exact hnull
  | @buffer b c _ hb hlen hc =>
      exact h.inPlace (l := []) hv hc (Nat.zero_le _) 0 0 l.length

/-- The vector is gone once its destructor ran. -/
theorem Represents.destroyed (h : Represents env s L)
    (hv : s.vector v = some m) (p q r : ℕ) :
    Represents env ((((s.setVector v (some m.cleared)).free m).tally p q
      r).setVector v none) (Function.update L v none) := by
  obtain ⟨l, _, hm⟩ := h.holds v m hv
  refine h.remove hv ?_ ?_ ?_
  · rw [setVector_tally, tally_vector, free_setVector, free_vector,
      setVector_setVector]
    rfl
  · intro b hb
    rw [setVector_tally, tally_block, free_setVector, free_block_ne hb]
    rfl
  · intro b hb
    have hb : ((s.setVector v (some m.cleared)).free m).next ≤ b := hb
    rw [free_next] at hb
    have hnone := h.fresh b hb
    rw [setVector_tally, tally_block, free_setVector,
      free_block_ne (hm.avoids hnone)]
    exact hnone

/-! ## One operation -/

/-- The elements a `push_back` asks for. -/
def Members.growth (m : Members) : Option ℕ :=
  if m.last = m.end_ then some (grown m.capacity) else none

/-- The elements an operation asks for storage for, if it does. -/
def request (s : State V α) : Op V α → Option ℕ
  | .construct _ => some 1
  | .copyConstruct _ other => (s.vector other).map Members.size
  | .copyAssign v other =>
    if v = other then none else (s.vector other).map Members.size
  | .pushBack v _ => (s.vector v).bind Members.growth
  | .pushBackAt v other index =>
    (s.vector other).bind fun m =>
      if index < m.size then (s.vector v).bind Members.growth else none
  | .reserve v newCapacity =>
    (s.vector v).bind fun m =>
      if m.capacity < newCapacity then some newCapacity else none
  | _ => none

/-- The storage the operation asks for is refused. -/
def Refused (env : Env α) (s : State V α) (op : Op V α) : Prop :=
  ∃ n, request s op = some n ∧
    env.newThrows s.allocations (env.sizeof * n) = true

/-- The objects an operation names are there, or are not yet; an assignment is
not to a vector that was moved from; and `reserve` is asked for no more bytes
than a `std::size_t` counts. -/
def Allowed (env : Env α) (s : State V α) : Op V α → Prop
  | .construct v => s.vector v = none
  | .copyConstruct v other => s.vector v = none ∧ s.vector other ≠ none
  | .moveConstruct v other => s.vector v = none ∧ s.vector other ≠ none
  | .copyAssign v other =>
    s.vector v ≠ none ∧ s.vector other ≠ none ∧ s.vector v ≠ some .null
  | .moveAssign v other =>
    s.vector v ≠ none ∧ s.vector other ≠ none ∧ s.vector v ≠ some .null
  | .pushBack v _ => s.vector v ≠ none
  | .pushBackAt v other _ => s.vector v ≠ none ∧ s.vector other ≠ none
  | .popBack v => s.vector v ≠ none
  | .clear v => s.vector v ≠ none
  | .reserve v newCapacity =>
    s.vector v ≠ none ∧ env.sizeof * newCapacity < 2 ^ 64
  | .at_ v _ => s.vector v ≠ none
  | .getSize v => s.vector v ≠ none
  | .getCapacity v => s.vector v ≠ none
  | .destroy v => s.vector v ≠ none

/-- The operation is defined and is the one on lists. -/
def Simulates (env : Env α) (op : Op V α) (s : State V α) (L : Lists V α) :
    Prop :=
  ∃ r s' L', exec env op s = some (r, s') ∧
    (ListStep op r L L' ∨ Refused env s op ∧ r = .error .badAlloc ∧ L' = L) ∧
    Represents env s' L'

omit [DecidableEq V] in
theorem returning_returns {c : Run V α Unit} (h : Returns c s () s') :
    Returns (returning c) s .unit s' := h.bind .pure

omit [DecidableEq V] in
theorem returning_throws {c : Run V α Unit} {e : Exception}
    (h : Throws c s e s') : Throws (returning c) s e s' := h.bind

/-! ### Constructors -/

theorem constructing_returns {body : Run V α Unit} (hv : s.vector v = none)
    (h : Returns body (s.setVector v (some .null)) () s') :
    Returns (constructing v body) s () s' :=
  Returns.bind (Returns.update (by simp [hv])) h.rethrow

theorem constructing_throws {body : Run V α Unit} {e : Exception}
    (hv : s.vector v = none)
    (h : Throws body (s.setVector v (some .null)) e s')
    (hv' : s'.vector v ≠ none) :
    Throws (constructing v body) s e (s'.setVector v none) := by
  obtain ⟨m, hm⟩ := Option.ne_none_iff_exists'.1 hv'
  have hvanish : Returns (vanish v) s' () (s'.setVector v none) :=
    Returns.update (by simp [hm])
  exact Returns.bind_throws (Returns.update (by simp [hv]))
    (h.rethrow hvanish)

/-- The members have been initialized. -/
theorem Represents.declared (h : Represents env s L) (v : V) :
    Represents env (s.setVector v (some .null))
      (Function.update L v (some [])) :=
  h.change rfl .null (fun _ _ _ => rfl) (by intro a ha; cases ha) h.fresh

theorem defaultConstructor_returns
    (hnew : env.newThrows s.allocations (env.sizeof * 1) = false) :
    Returns (defaultConstructor env v) s ()
      ((s.allocate 1).setVector v (some (.of s.next 0 1))) := by
  have halloc := operatorNew_returns hnew
  rw [Nat.mul_one] at halloc
  refine halloc.bind ?_
  refine (advance_first (allocate_block_self 1) (Nat.le_refl _)).bind ?_
  exact setMembers_returns _

end LearningCpp.CustomVector
