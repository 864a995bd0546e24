import LearningCpp.CustomVector.Memory

/-!
# What the members of a vector mean

A vector is in one of two states: its three pointers are null, or they point
into a block that holds its elements and has room for `end_ - first` of them, a
zero capacity included. Every member function is run here on a vector in either
state, with copy constructors that do not throw.
-/

namespace LearningCpp.CustomVector

open LearningCpp.Lib Program

variable {V α : Type}

/-- The members of a vector in the block `b`, of size `n` and capacity `c`. -/
def Members.of (b n c : ℕ) : Members := ⟨some ⟨b, 0⟩, some ⟨b, n⟩, some ⟨b, c⟩⟩

def Members.size (m : Members) : ℕ := m.last.elim 0 Address.slot

def Members.capacity (m : Members) : ℕ := m.end_.elim 0 Address.slot

/-- The members hold the elements of `l`. -/
inductive Holds (env : Env α) (s : State V α) : Members → List α → Prop where
  | null : Holds env s .null []
  | buffer {b c : ℕ} {l : List α} (hb : s.block b = some (.of c l))
      (hlen : l.length ≤ c) (hc : env.sizeof * c ≤ maxObject) :
      Holds env s (.of b l.length c) l

/-- The block of the members, if they have one, is released. -/
def State.free (s : State V α) (m : Members) : State V α :=
  match m.first with
  | none => s
  | some a => s.setBlock a.block none

/-- The block of the members, if they have one, has no elements. -/
def State.wipe (s : State V α) (m : Members) : State V α :=
  match m.first with
  | none => s
  | some a => s.setBlock a.block (some (.of m.capacity []))

/-- The members of a vector that was cleared. -/
def Members.cleared (m : Members) : Members := { m with last := m.first }

/-- What a relocation leaves of an element. -/
def Env.left (env : Env α) (x : α) : α :=
  if env.nothrowMove then env.movedFrom x else x

/-- The copies a relocation of `n` elements makes. -/
def Env.relocationCopies (env : Env α) (n : ℕ) : ℕ :=
  if env.nothrowMove then 0 else n

theorem Env.relocationCopies_zero (env : Env α) :
    env.relocationCopies 0 = 0 := by
  simp [Env.relocationCopies]

theorem Env.relocationCopies_mono (env : Env α) {n k : ℕ} (h : n ≤ k) :
    env.relocationCopies n ≤ env.relocationCopies k := by
  unfold Env.relocationCopies
  split
  · exact Nat.le_refl 0
  · exact h

theorem Env.relocationCopies_add (env : Env α) (n k : ℕ) :
    env.relocationCopies n + env.relocationCopies k =
      env.relocationCopies (n + k) := by
  unfold Env.relocationCopies
  split <;> rfl

variable {env : Env α} {s : State V α} {v : V} {m : Members} {l : List α}
  {x : α} {b c i n : ℕ} {d : Block α}

/-- The block of the members, if they have one, is not `b`. -/
def Members.Avoids (m : Members) (b : ℕ) : Prop :=
  ∀ a, m.first = some a → a.block ≠ b

theorem Holds.avoids (h : Holds env s m l) (hb : s.block b = none) :
    m.Avoids b := by
  intro a ha
  cases h with
  | null => cases ha
  | buffer hb' _ _ =>
      obtain rfl := Option.some.inj ha
      intro heq
      rw [← heq] at hb
      rw [hb'] at hb
      cases hb

theorem Holds.exists_buffer (h : Holds env s m l) (hl : l ≠ []) :
    ∃ b c, m = .of b l.length c ∧ s.block b = some (.of c l) ∧
      l.length ≤ c ∧ env.sizeof * c ≤ maxObject := by
  cases h with
  | null => exact absurd rfl hl
  | buffer hb hlen hc => exact ⟨_, _, rfl, hb, hlen, hc⟩

theorem Holds.size_eq (h : Holds env s m l) : m.size = l.length := by
  cases h with
  | null => rfl
  | buffer _ _ _ => rfl

theorem Holds.initialized (h : Holds env s m l) (hm : m ≠ .null) :
    m.first.isSome = true := by
  cases h with
  | null => exact absurd rfl hm
  | buffer _ _ _ => rfl

theorem Holds.length_le (h : Holds env s m l) : l.length ≤ m.capacity := by
  cases h with
  | null => exact Nat.le_refl 0
  | buffer _ hlen _ => exact hlen

theorem Holds.capacity_bytes (h : Holds env s m l) :
    env.sizeof * m.capacity ≤ maxObject := by
  cases h with
  | null => exact Nat.zero_le _
  | buffer _ _ hc => exact hc

theorem Holds.capacity_le (h : Holds env s m l) : m.capacity ≤ maxObject :=
  Nat.le_trans (Nat.le_mul_of_pos_left _ env.sizeof_pos) h.capacity_bytes

/-- Only the block of the members matters. -/
theorem Holds.congr {s' : State V α}
    (hs : ∀ a, m.first = some a → s'.block a.block = s.block a.block)
    (h : Holds env s m l) : Holds env s' m l := by
  cases h with
  | null => exact .null
  | buffer hb hlen hc => exact .buffer ((hs _ rfl).trans hb) hlen hc

theorem free_block_ne (hm : m.Avoids b) : (s.free m).block b = s.block b := by
  unfold State.free
  cases hf : m.first with
  | none => rfl
  | some a => exact setBlock_block_ne (hm a hf).symm _

theorem wipe_block_ne (hm : m.Avoids b) : (s.wipe m).block b = s.block b := by
  unfold State.wipe
  cases hf : m.first with
  | none => rfl
  | some a => exact setBlock_block_ne (hm a hf).symm _

theorem free_block_self {a : Address} (ha : m.first = some a) :
    (s.free m).block a.block = none := by
  unfold State.free
  rw [ha]
  exact setBlock_block_self _ _

theorem wipe_block_self {a : Address} (ha : m.first = some a) :
    (s.wipe m).block a.block = some (.of m.capacity []) := by
  unfold State.wipe
  rw [ha]
  exact setBlock_block_self _ _

theorem free_setBlock (hm : m.Avoids b) (k : Option (Block α)) :
    (s.free m).setBlock b k = (s.setBlock b k).free m := by
  unfold State.free
  cases hf : m.first with
  | none => rfl
  | some a => exact setBlock_comm (hm a hf) _ _

theorem wipe_setBlock (hm : m.Avoids b) (k : Option (Block α)) :
    (s.wipe m).setBlock b k = (s.setBlock b k).wipe m := by
  unfold State.wipe
  cases hf : m.first with
  | none => rfl
  | some a => exact setBlock_comm (hm a hf) _ _

@[simp] theorem free_vector : (s.free m).vector = s.vector := by
  unfold State.free
  cases m.first <;> rfl

@[simp] theorem wipe_vector : (s.wipe m).vector = s.vector := by
  unfold State.wipe
  cases m.first <;> rfl

@[simp] theorem free_next : (s.free m).next = s.next := by
  unfold State.free
  cases m.first <;> rfl

@[simp] theorem wipe_next : (s.wipe m).next = s.next := by
  unfold State.wipe
  cases m.first <;> rfl

@[simp] theorem free_copies : (s.free m).copies = s.copies := by
  unfold State.free
  cases m.first <;> rfl

@[simp] theorem free_constructed : (s.free m).constructed = s.constructed := by
  unfold State.free
  cases m.first <;> rfl

@[simp] theorem free_destroyed : (s.free m).destroyed = s.destroyed := by
  unfold State.free
  cases m.first <;> rfl

@[simp] theorem wipe_constructed :
    (s.wipe m).constructed = s.constructed := by
  unfold State.wipe
  cases m.first <;> rfl

@[simp] theorem wipe_destroyed : (s.wipe m).destroyed = s.destroyed := by
  unfold State.wipe
  cases m.first <;> rfl

@[simp] theorem wipe_copies : (s.wipe m).copies = s.copies := by
  unfold State.wipe
  cases m.first <;> rfl

@[simp] theorem free_tally (p q r : ℕ) :
    (s.tally p q r).free m = (s.free m).tally p q r := by
  unfold State.free
  cases m.first <;> rfl

/-! ## Sizes and elements -/

theorem members_returns (hv : s.vector v = some m) :
    Returns (members v) s m s := Returns.read hv

theorem initialized_returns (hv : s.vector v = some m) :
    Returns (initialized v) s m.first.isSome s :=
  (members_returns hv).bind .pure

theorem getSize_of (hv : s.vector v = some (.of b n c))
    (hb : s.block b = some d) : Returns (getSize v) s n s := by
  refine (initialized_returns hv).bind ?_
  rw [if_neg (by simp [Members.of])]
  exact (members_returns hv).bind (distance_returns hb)

theorem getSize_null (hv : s.vector v = some .null) :
    Returns (getSize v) s 0 s :=
  (initialized_returns hv).bind .pure

theorem getSize_returns (hv : s.vector v = some m) (h : Holds env s m l) :
    Returns (getSize v) s l.length s := by
  cases h with
  | null => exact getSize_null hv
  | buffer hb _ _ => exact getSize_of hv hb

theorem getCapacity_returns (hv : s.vector v = some m) (h : Holds env s m l) :
    Returns (getCapacity v) s m.capacity s := by
  refine (initialized_returns hv).bind ?_
  cases h with
  | null => exact .pure
  | buffer hb _ _ =>
      rw [if_neg (by simp [Members.of])]
      exact (members_returns hv).bind (distance_returns hb)

theorem at_returns (hv : s.vector v = some m) (h : Holds env s m l)
    (hi : l[i]? = some x) :
    ∃ p, Returns (at_ v i) s p s ∧ Returns (load p) s x s := by
  obtain ⟨hlt, _⟩ := List.getElem?_eq_some_iff.1 hi
  cases h with
  | null => cases hi
  | @buffer b c _ hb hlen hc =>
      refine ⟨some ⟨b, i⟩, ?_, load_returns hb hi⟩
      refine (getSize_of hv hb).bind ?_
      rw [if_neg (by omega)]
      exact (members_returns hv).bind
        (advance_first hb (by rw [Block.of_size]; omega))

theorem at_throws (hv : s.vector v = some m) (h : Holds env s m l)
    (hi : l.length ≤ i) :
    Throws (at_ v i) s (.outOfRange "Index out of range") s := by
  refine (getSize_returns hv h).bind_throws ?_
  rw [if_pos hi]
  rfl

/-! ## Removing elements -/

variable [DecidableEq V]

theorem setMembers_returns (m : Members) :
    Returns (setMembers v m) s () (s.setVector v (some m)) := Returns.update rfl

theorem popBack_returns (hv : s.vector v = some (.of b (l.length + 1) c))
    (hb : s.block b = some (.of c (l ++ [x]))) :
    Returns (popBack v) s ()
      (((s.setVector v (some (.of b l.length c))).setBlock b
        (some (.of c l))).tally 0 0 1) := by
  refine (getSize_of hv hb).bind ?_
  rw [if_neg (by omega)]
  refine (members_returns hv).bind ?_
  refine (retreat_returns hb).bind ?_
  refine (setMembers_returns _).bind ?_
  have h := destroyAt_returns (i := l.length) (x := x)
    (s := s.setVector v (some (.of b l.length c))) hb (by simp)
  rw [Block.of_pop] at h
  exact h

theorem popBack_throws (hv : s.vector v = some m) (h : Holds env s m []) :
    Throws (popBack v) s (.outOfRange "No elements added") s :=
  (getSize_returns hv h).bind_throws rfl

theorem setVector_same {k : Option Members} (h : s.vector v = k) :
    s.setVector v k = s := by
  rw [State.setVector, ← h, Function.update_eq_self]

theorem clearLoop_of (l : List α) :
    ∀ {s : State V α}, s.vector v = some (.of b l.length c) →
      s.block b = some (.of c l) →
      Returns (clearLoop v (l.length + 1)) s ()
        (((s.setVector v (some (.of b 0 c))).setBlock b
          (some (.of c []))).tally 0 0 l.length) := by
  induction l using List.reverseRecOn with
  | nil =>
      intro s hv hb
      refine (getSize_of hv hb).bind ?_
      have hv : s.vector v = some (.of b 0 c) := hv
      rw [setVector_same hv, setBlock_same hb]
      exact .pure
  | append_singleton l x ih =>
      intro s hv hb
      rw [List.length_append, List.length_singleton] at hv ⊢
      refine (getSize_of hv hb).bind ?_
      rw [if_neg (by omega)]
      refine (popBack_returns hv hb).bind ?_
      have h := ih (s := ((s.setVector v (some (.of b l.length c))).setBlock b
        (some (.of c l))).tally 0 0 1) (by simp) (by simp)
      simp only [setVector_tally, setVector_setBlock, setVector_setVector,
        setBlock_tally, setBlock_setBlock, tally_tally] at h
      rw [Nat.add_comm 1] at h
      exact h

theorem clear_returns (hv : s.vector v = some m) (h : Holds env s m l) :
    Returns (clear v) s () (((s.setVector v (some m.cleared)).wipe m).tally 0 0
      l.length) := by
  refine (getSize_returns hv h).bind ?_
  cases h with
  | null =>
      refine (getSize_null hv).bind ?_
      show Returns (pure ()) s () (s.setVector v (some .null))
      rw [setVector_same hv]
      exact .pure
  | buffer hb _ _ => exact clearLoop_of l hv hb

/-! ## Growing -/

omit [DecidableEq V] in
/-- `std::move_if_noexcept` copies where a move could throw. -/
theorem constructMoved_returns {b' j : ℕ} {d' : Block α}
    (hc : env.Copies s.copies (env.relocationCopies 1))
    (hsrc : s.block b = some d) (hx : d.slot i = some x)
    (hdst : s.block b' = some d') (hi : j < d'.size)
    (hraw : d'.slot j = none) (hne : b' ≠ b) :
    Returns (constructMoved env (some ⟨b', j⟩) (some ⟨b, i⟩)) s ()
      (((s.setBlock b' (some (d'.set j (some x)))).setBlock b
        (some (d.set i (some (env.left x))))).tally
          (env.relocationCopies 1) 1 0) := by
  have hload := load_returns hsrc hx
  have hsrc' : ∀ k, (s.setBlock b' k).block b = some d := by
    intro k
    rw [setBlock_block_ne hne.symm, hsrc]
  unfold Env.relocationCopies at hc
  unfold constructMoved Env.left Env.relocationCopies
  cases hmove : env.nothrowMove with
  | false =>
      rw [hmove, if_neg Bool.false_ne_true] at hc
      have hcopy := constructCopy_returns (r := .slot (some ⟨b, i⟩))
        (hc.first Nat.one_pos) hload hdst hi hraw
      have hsame : d.set i (some x) = d := Block.set_eq hx (fun _ _ => rfl)
      simp only [Bool.false_eq_true, if_false, hsame]
      rw [setBlock_same (hsrc' _)]
      exact hcopy
  | true =>
      simp only [if_true]
      refine hload.bind ((constructAt_returns (x := x) hdst hi hraw).bind ?_)
      exact moveOut_returns (s := (s.setBlock b' _).tally 0 1 0) (hsrc' _) hx

omit [DecidableEq V] in
/-- The loop that destroys all elements of a vector, as `reserve` and
`copy_from` have it. -/
theorem destroyLoop_returns {k : ℕ} (hv : s.vector v = some (.of b k c))
    (hb : s.block b = some (.of c l)) (hc : l.length ≤ c) :
    Returns (forUpto l.length fun i => do
      let m ← members v
      destroyAt (← advance m.first i)) s ()
      ((s.setBlock b (some (.of c []))).tally 0 0 l.length) := by
  have h := Returns.forUpto (n := l.length) (f := fun i => do
    let m ← members v
    destroyAt (← advance m.first i))
    (g := fun i => (s.setBlock b (some (.upto c i (fun _ => none) l))).tally
      0 0 i) ?_
  · rw [Block.upto_zero, Block.upto_none, setBlock_same hb] at h
    exact h
  · intro i hi
    have hx := List.getElem?_eq_getElem hi
    have hold : ((s.setBlock b (some (.upto c i (fun _ => none) l))).tally
        0 0 i).block b = some (.upto c i (fun _ => none) l) := by
      rw [tally_block, setBlock_block_self]
    refine Returns.bind (members_returns (m := .of b k c) hv) ?_
    refine (advance_first hold (by rw [Block.upto_size]; omega)).bind ?_
    have h := destroyAt_returns (i := i) hold
      (by rw [Block.upto_slot_self]; exact hx)
    rw [Block.upto_succ c (fun _ => none) hx, setBlock_tally,
      setBlock_setBlock, tally_tally] at h
    exact h

/-- The first `i` elements of `l` are in the block `b'` and are moved from, or
copied, in `b`. -/
def State.relocated (env : Env α) (s : State V α) (b c b' n : ℕ)
    (l : List α) (i : ℕ) : State V α :=
  ((s.setBlock b' (some (.of n (l.take i)))).setBlock b
    (some (.upto c i (fun x => some (env.left x)) l))).tally
      (env.relocationCopies i) i 0

omit [DecidableEq V] in
theorem relocated_new {b' : ℕ} (hne : b' ≠ b) (i : ℕ) :
    (s.relocated env b c b' n l i).block b' = some (.of n (l.take i)) := by
  rw [State.relocated, tally_block, setBlock_block_ne hne, setBlock_block_self]

omit [DecidableEq V] in
theorem relocated_old (b' i : ℕ) :
    (s.relocated env b c b' n l i).block b =
      some (.upto c i (fun x => some (env.left x)) l) := by
  rw [State.relocated, tally_block, setBlock_block_self]

omit [DecidableEq V] in
theorem relocated_zero {b' : ℕ} (hb : s.block b = some (.of c l))
    (hb' : s.block b' = some (.of n [])) :
    s.relocated env b c b' n l 0 = s := by
  rw [State.relocated, List.take_zero, Block.upto_zero,
    Env.relocationCopies_zero, tally_zero, setBlock_same hb', setBlock_same hb]

omit [DecidableEq V] in
/-- One round of the loop of `reserve` that moves or copies over the existing
elements. -/
theorem moveLoop_round {b' : ℕ} (hi : i < l.length)
    (hcopies : env.Copies (s.copies + env.relocationCopies i)
      (env.relocationCopies 1))
    (hv : s.vector v = some (.of b l.length c)) (hc : l.length ≤ c)
    (hn : l.length ≤ n) (hne : b' ≠ b) :
    Returns (do
      let m ← members v
      constructMoved env (← advance (some ⟨b', 0⟩) i) (← advance m.first i))
      (s.relocated env b c b' n l i) ()
      (s.relocated env b c b' n l (i + 1)) := by
  have hx := List.getElem?_eq_getElem hi
  have hlen : (l.take i).length = i := List.length_take_of_le (by omega)
  have hnew : (s.relocated env b c b' n l i).block b' =
      some (.of n (l.take i)) := relocated_new hne i
  have hold : (s.relocated env b c b' n l i).block b =
      some (.upto c i (fun x => some (env.left x)) l) := relocated_old b' i
  refine Returns.bind (members_returns (m := .of b l.length c) hv) ?_
  refine (advance_first hnew (by rw [Block.of_size]; omega)).bind ?_
  refine (advance_first hold (by rw [Block.upto_size]; omega)).bind ?_
  have h := constructMoved_returns (x := l[i]) (i := i) (j := i) hcopies
    hold (by rw [Block.upto_slot_self]; exact hx) hnew
    (by rw [Block.of_size]; omega)
    (by rw [Block.of_slot, List.getElem?_eq_none (by omega)]) hne
  rw [Block.of_take_succ n hx,
    Block.upto_succ c (fun x => some (env.left x)) hx, State.relocated,
    setBlock_tally, setBlock_tally, setBlock_comm hne.symm, setBlock_setBlock,
    setBlock_setBlock, tally_tally, Env.relocationCopies_add] at h
  exact h

omit [DecidableEq V] in
/-- The whole loop. -/
theorem moveLoop_returns {b' : ℕ}
    (hcopies : env.Copies s.copies (env.relocationCopies l.length))
    (hv : s.vector v = some (.of b l.length c))
    (hb : s.block b = some (.of c l)) (hb' : s.block b' = some (.of n []))
    (hc : l.length ≤ c) (hn : l.length ≤ n) (hne : b' ≠ b) :
    Returns (forUpto l.length fun i => do
      let m ← members v
      constructMoved env (← advance (some ⟨b', 0⟩) i) (← advance m.first i)) s
      () (((s.setBlock b' (some (.of n l))).setBlock b
        (some (.of c (l.map env.left)))).tally
          (env.relocationCopies l.length) l.length 0) := by
  have h := Returns.forUpto (n := l.length) (f := fun i => do
    let m ← members v
    constructMoved env (← advance (some ⟨b', 0⟩) i) (← advance m.first i))
    (g := s.relocated env b c b' n l) ?_
  · rw [relocated_zero hb hb', State.relocated, List.take_length,
      Block.upto_some] at h
    exact h
  · intro i hi
    refine moveLoop_round hi (hcopies.part ?_) hv hc hn hne
    rw [Env.relocationCopies_add]
    exact env.relocationCopies_mono hi

omit [DecidableEq V] in
/-- `reserve` up to the swaps: the elements are in the new block, and the old
one has none. -/
theorem relocate_returns {b' : ℕ}
    (hcopies : env.Copies s.copies (env.relocationCopies l.length))
    (hv : s.vector v = some (.of b l.length c))
    (hb : s.block b = some (.of c l)) (hb' : s.block b' = some (.of n []))
    (hc : l.length ≤ c) (hn : l.length ≤ n) (hne : b' ≠ b) :
    Returns (relocate env v l.length (some ⟨b', 0⟩)) s ()
      (((s.setBlock b' (some (.of n l))).setBlock b (some (.of c []))).tally
        (env.relocationCopies l.length) l.length l.length) := by
  have hlen : (l.map env.left).length = l.length := List.length_map _
  have hdestroy := destroyLoop_returns (l := l.map env.left) (v := v)
    (k := l.length) (c := c) (b := b)
    (s := ((s.setBlock b' (some (.of n l))).setBlock b
      (some (.of c (l.map env.left)))).tally (env.relocationCopies l.length)
        l.length 0) hv (by simp) (by omega)
  rw [hlen, setBlock_tally, setBlock_setBlock, tally_tally] at hdestroy
  refine (moveLoop_returns hcopies hv hb hb' hc hn hne).bind ?_
  simpa using hdestroy

@[simp] theorem free_setVector (k : Option Members) :
    (s.free m).setVector v k = (s.setVector v k).free m := by
  unfold State.free
  cases m.first <;> rfl

@[simp] theorem wipe_setVector (k : Option Members) :
    (s.wipe m).setVector v k = (s.setVector v k).wipe m := by
  unfold State.wipe
  cases m.first <;> rfl

theorem reserve_enough (hv : s.vector v = some m) (h : Holds env s m l)
    (hn : n ≤ m.capacity) : Returns (reserve env v n) s () s := by
  refine (getCapacity_returns hv h).bind ?_
  rw [if_pos hn]
  exact .pure

theorem sizeT_of_lt (h : n < 2 ^ 64) : sizeT n = n := Nat.mod_eq_of_lt h

theorem reserve_refused (hv : s.vector v = some m) (h : Holds env s m l)
    (hn : m.capacity < n) (hfit : env.sizeof * n < 2 ^ 64)
    (hnew : env.newThrows s.allocations (env.sizeof * n) = true) :
    Throws (reserve env v n) s .badAlloc s.refuse := by
  refine (getCapacity_returns hv h).bind_throws ?_
  rw [if_neg (by omega)]
  refine (getSize_returns hv h).bind_throws ?_
  rw [sizeT_of_lt hfit]
  exact (operatorNew_throws hnew).bind

/-- The elements of `v` are in a new block with room for `n`, the old one is
released. -/
def State.reserved (env : Env α) (s : State V α) (v : V) (m : Members)
    (l : List α) (n : ℕ) : State V α :=
  ((((s.allocate n).setVector v (some (.of s.next l.length n))).setBlock s.next
    (some (.of n l))).free m).tally (env.relocationCopies l.length) l.length
      l.length

theorem reserved_vector : (s.reserved env v m l n).vector =
    Function.update s.vector v (some (.of s.next l.length n)) := by
  rw [State.reserved, tally_vector, free_vector]
  rfl

theorem reserved_block_ne (hb : b ≠ s.next) (hm : m.Avoids b) :
    (s.reserved env v m l n).block b = s.block b := by
  rw [State.reserved, tally_block, free_block_ne hm, setBlock_block_ne hb,
    setVector_block, allocate_block_ne n hb]

theorem reserve_grows
    (hcopies : env.Copies s.copies (env.relocationCopies l.length))
    (hv : s.vector v = some m) (h : Holds env s m l) (hn : m.capacity < n)
    (hfit : env.sizeof * n < 2 ^ 64)
    (hnew : env.newThrows s.allocations (env.sizeof * n) = false)
    (hfresh : s.block s.next = none) :
    Returns (reserve env v n) s () (s.reserved env v m l n) := by
  have hlen := h.length_le
  have hroom : (s.allocate n).block s.next = some (.of n []) :=
    allocate_block_self n
  refine (getCapacity_returns hv h).bind ?_
  rw [if_neg (by omega)]
  refine (getSize_returns hv h).bind ?_
  rw [sizeT_of_lt hfit]
  refine (operatorNew_returns hnew).bind ?_
  refine (advance_first hroom (by rw [Block.of_size]; omega)).bind ?_
  refine (advance_first hroom (Nat.le_refl n)).bind ?_
  cases h with
  | null =>
      have hloops : Returns (relocate env v 0 (some ⟨s.next, 0⟩))
          (s.allocate n) () (s.allocate n) := Returns.bind .pure .pure
      refine (hloops.rethrow).bind ?_
      refine Returns.bind (members_returns (m := .null) hv) ?_
      refine (setMembers_returns _).bind ?_
      have hsame : ((s.allocate n).setVector v
          (some (.of s.next 0 n))).setBlock s.next (some (.of n [])) =
            (s.allocate n).setVector v (some (.of s.next 0 n)) :=
        setBlock_same hroom
      rw [State.reserved, List.length_nil, Env.relocationCopies_zero,
        tally_zero, hsame]
      exact operatorDelete_null
  | @buffer b c _ hb _ hc =>
      have hne : s.next ≠ b := by
        intro heq
        rw [← heq, hfresh] at hb
        cases hb
      have hold : (s.allocate n).block b = some (.of c l) := by
        rw [allocate_block_ne n hne.symm, hb]
      have hrelocate := relocate_returns (v := v) (n := n)
        (s := s.allocate n) hcopies hv hold hroom hlen (by omega) hne
      refine (hrelocate.rethrow).bind ?_
      refine Returns.bind (members_returns (m := .of b l.length c) hv) ?_
      refine (setMembers_returns _).bind ?_
      have hdelete := operatorDelete_returns (b := b) (d := .of c [])
        (s := (((((s.allocate n).setVector v (some (.of s.next l.length n))).setBlock
          s.next (some (.of n l))).setBlock b (some (.of c []))).tally
            (env.relocationCopies l.length) l.length l.length)) (by simp)
      rw [setBlock_tally, setBlock_setBlock] at hdelete
      exact hdelete

end LearningCpp.CustomVector
