import LearningCpp.CustomVector.Buffer

/-!
# The member functions that construct elements, take buffers over or end

What `push_back`, `copy_from`, `steal_from` and the destructor do to a vector
in either of its states. A `push_back` that grows copies its argument before the
old block goes; what the argument refers to may be in that block.
-/

namespace LearningCpp.CustomVector

open LearningCpp.Lib Program

variable {V α : Type} [DecidableEq V] {env : Env α} {s : State V α} {v w : V}
  {m m' : Members} {l l' : List α} {x : α} {r : Ref α} {b c n : ℕ}

theorem maxObject_lt : maxObject < 2 ^ 63 := by decide

/-! ## `push_back` -/

/-- The capacity a full vector asks for. -/
def grown (capacity : ℕ) : ℕ := if capacity = 0 then 1 else capacity * 2

theorem lt_grown (n : ℕ) : n < grown n := by
  unfold grown
  split <;> omega

theorem sizeT_grown (h : n ≤ maxObject) :
    (if n = 0 then 1 else sizeT (n * 2)) = grown n := by
  have hmax := maxObject_lt
  rw [sizeT_of_lt (by omega)]
  rfl

omit [DecidableEq V] in
theorem Holds.grown_fits (h : Holds env s m l) :
    env.sizeof * grown m.capacity < 2 ^ 64 := by
  have hmax := maxObject_lt
  have hsizeof := env.sizeof_le
  cases h with
  | null => exact (Nat.mul_one env.sizeof).symm ▸ (by omega)
  | @buffer b c _ _ _ hc =>
      show env.sizeof * grown c < 2 ^ 64
      unfold grown
      split
      · omega
      · rw [← Nat.mul_assoc]
        omega

omit [DecidableEq V] in
theorem Holds.full_iff (h : Holds env s m l) :
    m.last = m.end_ ↔ l.length = m.capacity := by
  cases h with
  | null => exact iff_of_true rfl rfl
  | buffer _ _ _ =>
      show some (Address.mk _ _) = some (Address.mk _ _) ↔ _
      simp [Members.of, Members.capacity]

omit [DecidableEq V] in
theorem localCopy_returns (hc : env.copyThrows s.copies = false)
    (hr : Returns (deref r) s x s) :
    Returns (localCopy env r) s x (s.tally 1 1 0) :=
  (copyOf_returns hc hr).bind (Returns.bind (Returns.update rfl) .pure)

omit [DecidableEq V] in
theorem destroyLocal_returns :
    Returns destroyLocal s () (s.tally 0 0 1) := Returns.update rfl

omit [DecidableEq V] in
theorem constructLocal_returns {i : ℕ} {d : Block α}
    (hc : env.Copies s.copies (env.relocationCopies 1))
    (hb : s.block b = some d) (hi : i < d.size)
    (hraw : d.slot i = none) :
    Returns (constructLocal env (some ⟨b, i⟩) x) s ()
      ((s.setBlock b (some (d.set i (some x)))).tally
        (env.relocationCopies 1) 1 0) := by
  unfold Env.relocationCopies at hc
  unfold constructLocal Env.relocationCopies
  cases hmove : env.nothrowMove with
  | false =>
      rw [hmove, if_neg Bool.false_ne_true] at hc
      exact constructCopy_returns (hc.first Nat.one_pos) .pure hb hi hraw
  | true => exact constructAt_returns hb hi hraw

/-- There is room: one more element in the same block. -/
theorem pushBack_room (hc : env.copyThrows s.copies = false)
    (hv : s.vector v = some (.of b l.length c))
    (hb : s.block b = some (.of c l)) (hlen : l.length < c)
    (hr : Returns (deref r) s x s) :
    Returns (pushBack env v r) s ()
      (((s.setVector v (some (.of b (l.length + 1) c))).setBlock b
        (some (.of c (l ++ [x])))).tally 1 1 0) := by
  have hback : Returns (constructBack env v r) s ()
      ((s.setBlock b (some (.of c (l ++ [x])))).tally 1 1 0) := by
    refine (members_returns hv).bind ?_
    rw [if_neg (by simp [Members.of]; omega)]
    have h := constructCopy_returns (i := l.length) hc hr hb hlen
      (by simp)
    rw [Block.of_push] at h
    exact h
  refine hback.bind ?_
  refine Returns.bind (members_returns (m := .of b l.length c) hv) ?_
  refine Returns.bind (advance_returns (d := .of c (l ++ [x])) ?_ hlen) ?_
  · rw [tally_block, setBlock_block_self]
  · exact setMembers_returns _

/-- `v` has grown and has one more element. -/
def State.pushed (env : Env α) (s : State V α) (v : V) (m : Members)
    (l : List α) (x : α) (n : ℕ) : State V α :=
  ((((s.allocate n).setVector v (some (.of s.next (l.length + 1) n))).setBlock
    s.next (some (.of n (l ++ [x])))).free m).tally
      (1 + env.relocationCopies (l.length + 1)) (l.length + 2) (l.length + 1)

theorem pushed_vector : (s.pushed env v m l x n).vector =
    Function.update s.vector v (some (.of s.next (l ++ [x]).length n)) := by
  rw [State.pushed, tally_vector, free_vector, List.length_append]
  rfl

theorem pushed_block_ne (hb : b ≠ s.next) (hm : m.Avoids b) :
    (s.pushed env v m l x n).block b = s.block b := by
  rw [State.pushed, tally_block, free_block_ne hm, setBlock_block_ne hb,
    setVector_block, allocate_block_ne n hb]

/-- The new block has the new element, and `last` is still before it. -/
def State.appended (s : State V α) (v : V) (m : Members) (l : List α) (x : α)
    (n : ℕ) : State V α :=
  (((s.allocate n).setVector v (some (.of s.next l.length n))).setBlock s.next
    (some (.of n (l ++ [x])))).free m

@[simp] theorem reserved_copies :
    (s.reserved env v m l n).copies =
      s.copies + env.relocationCopies l.length := by
  rw [State.reserved, tally_copies, free_copies]
  rfl

/-- `reserve` brings the elements over, and the copy goes behind them. -/
theorem growAndConstruct_returns
    (hcopies : env.Copies s.copies (env.relocationCopies (l.length + 1)))
    (hv : s.vector v = some m) (h : Holds env s m l)
    (hfull : l.length = m.capacity)
    (hnew : env.newThrows s.allocations
      (env.sizeof * grown m.capacity) = false)
    (hfresh : s.block s.next = none) :
    Returns (growAndConstruct env v x) s ()
      ((s.appended v m l x (grown m.capacity)).tally
        (env.relocationCopies (l.length + 1)) (l.length + 1) l.length) := by
  have hlt := lt_grown m.capacity
  have havoids := h.avoids hfresh
  rw [← Env.relocationCopies_add] at hcopies
  refine (getCapacity_returns hv h).bind ?_
  rw [sizeT_grown h.capacity_le]
  refine (reserve_grows (hcopies.part (p := 0) (by omega)) hv h hlt h.grown_fits
    hnew hfresh).bind ?_
  have hmembers : (s.reserved env v m l (grown m.capacity)).vector v =
      some (.of s.next l.length (grown m.capacity)) := by
    simp [State.reserved]
  have hroom : (s.reserved env v m l (grown m.capacity)).block s.next =
      some (.of (grown m.capacity) l) := by
    rw [State.reserved, tally_block, free_block_ne havoids]
    exact setBlock_block_self _ _
  refine (members_returns hmembers).bind ?_
  have hnext : env.Copies (s.reserved env v m l (grown m.capacity)).copies
      (env.relocationCopies 1) := by
    rw [reserved_copies]
    exact hcopies.part (Nat.le_refl _)
  have hconstruct := constructLocal_returns (x := x) (i := l.length) hnext hroom
    (by rw [Block.of_size]; omega) (by simp)
  rw [Block.of_push, State.reserved, setBlock_tally, free_setBlock havoids,
    setBlock_setBlock, tally_tally, Env.relocationCopies_add] at hconstruct
  exact hconstruct

theorem appended_tally (p q r : ℕ) :
    (s.tally p q r).appended v m l x n =
      (s.appended v m l x n).tally p q r := by
  rw [State.appended, tally_next, allocate_tally, setVector_tally,
    setBlock_tally, free_tally]
  rfl

/-- The argument is copied first, and the copy lives as long as the growth. -/
theorem constructBack_grows
    (hcopies : env.Copies s.copies (1 + env.relocationCopies (l.length + 1)))
    (hv : s.vector v = some m)
    (h : Holds env s m l) (hfull : l.length = m.capacity)
    (hnew : env.newThrows s.allocations
      (env.sizeof * grown m.capacity) = false)
    (hfresh : s.block s.next = none) (hr : Returns (deref r) s x s) :
    Returns (constructBack env v r) s ()
      ((s.appended v m l x (grown m.capacity)).tally
        (1 + env.relocationCopies (l.length + 1)) (l.length + 2)
          (l.length + 1)) := by
  refine (members_returns hv).bind ?_
  rw [if_pos (h.full_iff.2 hfull)]
  refine (localCopy_returns (hcopies.first (by omega)) hr).bind ?_
  have hcopy : Holds env (s.tally 1 1 0) m l :=
    Holds.congr (s := s) (fun _ _ => rfl) h
  have hgrow := growAndConstruct_returns (s := s.tally 1 1 0) (x := x)
    (hcopies.part (Nat.le_refl _)) hv hcopy hfull hnew hfresh
  have hensure := hgrow.ensuring destroyLocal_returns
  rw [appended_tally, tally_tally, tally_tally] at hensure
  have hcount : 1 + (l.length + 1 + 0) = l.length + 2 := by omega
  rw [hcount, Nat.add_zero, Nat.zero_add] at hensure
  exact hensure

theorem pushBack_grows
    (hcopies : env.Copies s.copies (1 + env.relocationCopies (l.length + 1)))
    (hv : s.vector v = some m)
    (h : Holds env s m l) (hfull : l.length = m.capacity)
    (hnew : env.newThrows s.allocations
      (env.sizeof * grown m.capacity) = false)
    (hfresh : s.block s.next = none) (hr : Returns (deref r) s x s) :
    Returns (pushBack env v r) s ()
      (s.pushed env v m l x (grown m.capacity)) := by
  have hlt := lt_grown m.capacity
  have havoids := h.avoids hfresh
  refine (constructBack_grows hcopies hv h hfull hnew hfresh hr).bind ?_
  refine Returns.bind (members_returns
    (m := .of s.next l.length (grown m.capacity)) ?_) ?_
  · simp [State.appended]
  refine Returns.bind (advance_returns
    (d := .of (grown m.capacity) (l ++ [x])) ?_ ?_) ?_
  · rw [State.appended, tally_block, free_block_ne havoids,
      setBlock_block_self]
  · rw [Block.of_size]
    omega
  have hset := setMembers_returns (v := v)
    (s := (s.appended v m l x (grown m.capacity)).tally
      (1 + env.relocationCopies (l.length + 1)) (l.length + 2) (l.length + 1))
    (.of s.next (l.length + 1) (grown m.capacity))
  rw [State.appended, setVector_tally, free_setVector, setVector_setBlock,
    setVector_setVector] at hset
  exact hset

theorem pushBack_refused (hc : env.copyThrows s.copies = false)
    (hv : s.vector v = some m) (h : Holds env s m l) (hfull : l.length = m.capacity)
    (hnew : env.newThrows s.allocations
      (env.sizeof * grown m.capacity) = true)
    (hr : Returns (deref r) s x s) :
    Throws (pushBack env v r) s .badAlloc (s.tally 1 1 1).refuse := by
  have hcopy : Holds env (s.tally 1 1 0) m l := Holds.congr (s := s) (fun _ _ => rfl) h
  have hgrow : Throws (growAndConstruct env v x) (s.tally 1 1 0) .badAlloc
      (s.tally 1 1 0).refuse := by
    refine (getCapacity_returns (s := s.tally 1 1 0) hv hcopy).bind_throws ?_
    rw [sizeT_grown h.capacity_le]
    exact (reserve_refused (s := s.tally 1 1 0) hv hcopy (lt_grown _)
      h.grown_fits hnew).bind
  refine Throws.bind ((members_returns hv).bind_throws ?_)
  rw [if_pos (h.full_iff.2 hfull)]
  exact (localCopy_returns hc hr).bind_throws
    (hgrow.ensuring destroyLocal_returns)

/-! ## `copy_from` -/

/-- The first `i` elements of `l` have been copied into the block `b`. -/
def State.duplicated (s : State V α) (b n : ℕ) (l : List α) (i : ℕ) :
    State V α :=
  (s.setBlock b (some (.of n (l.take i)))).tally i i 0

omit [DecidableEq V] in
theorem duplicated_new (i : ℕ) :
    (s.duplicated b n l i).block b = some (.of n (l.take i)) := by
  rw [State.duplicated, tally_block, setBlock_block_self]

omit [DecidableEq V] in
theorem duplicated_zero (hb : s.block b = some (.of n [])) :
    s.duplicated b n l 0 = s := by
  rw [State.duplicated, List.take_zero, tally_zero, setBlock_same hb]

omit [DecidableEq V] in
/-- The vector that is copied stays as it is. -/
theorem Holds.duplicated (h : Holds env s m l) (hm : m.Avoids b) (i : ℕ) :
    Holds env (s.duplicated b n l i) m l := by
  refine h.congr ?_
  intro a ha
  rw [State.duplicated, tally_block, setBlock_block_ne (hm a ha)]

omit [DecidableEq V] in
/-- One round of the loop that copies the elements of `w` into a block of its
own. -/
theorem copyLoop_round {i : ℕ} (hi : i < l.length)
    (hc : env.copyThrows (s.copies + i) = false) (hw : s.vector w = some m)
    (h : Holds env s m l) (hm : m.Avoids b) (hn : l.length ≤ n) :
    Returns (do
      constructCopy env (← advance (some ⟨b, 0⟩) i) (.slot (← at_ w i)))
      (s.duplicated b n l i) () (s.duplicated b n l (i + 1)) := by
  have hx := List.getElem?_eq_getElem hi
  have hlen : (l.take i).length = i := List.length_take_of_le (by omega)
  have hnew : (s.duplicated b n l i).block b = some (.of n (l.take i)) :=
    duplicated_new i
  have hw' : (s.duplicated b n l i).vector w = some m := hw
  obtain ⟨p, hp, hload⟩ := at_returns hw' (h.duplicated hm i) hx
  refine (advance_first hnew (by rw [Block.of_size]; omega)).bind ?_
  refine hp.bind ?_
  have h := constructCopy_returns (r := .slot p) (i := i) hc hload hnew
    (by rw [Block.of_size]; omega)
    (by rw [Block.of_slot, List.getElem?_eq_none (by omega)])
  rw [Block.of_take_succ n hx, State.duplicated, setBlock_tally,
    setBlock_setBlock, tally_tally] at h
  exact h

omit [DecidableEq V] in
/-- The whole loop. -/
theorem copyLoop_returns (hcopies : env.Copies s.copies l.length)
    (hw : s.vector w = some m) (h : Holds env s m l) (hm : m.Avoids b)
    (hb : s.block b = some (.of n [])) (hn : l.length ≤ n) :
    Returns (forUpto l.length fun i => do
      constructCopy env (← advance (some ⟨b, 0⟩) i) (.slot (← at_ w i))) s ()
      ((s.setBlock b (some (.of n l))).tally l.length l.length 0) := by
  have h := Returns.forUpto (n := l.length) (f := fun i => do
    constructCopy env (← advance (some ⟨b, 0⟩) i) (.slot (← at_ w i)))
    (g := s.duplicated b n l)
    (fun i hi => copyLoop_round hi (hcopies i hi) hw h hm hn)
  rw [duplicated_zero hb, State.duplicated, List.take_length] at h
  exact h

omit [DecidableEq V] in
theorem Holds.fits (h : Holds env s m l) : env.sizeof * l.length < 2 ^ 64 := by
  have hmax := maxObject_lt
  cases h with
  | null =>
      rw [List.length_nil, Nat.mul_zero]
      omega
  | buffer _ hlen hc =>
      have := Nat.mul_le_mul_left env.sizeof hlen
      omega

/-- Two vectors do not share a block. -/
def Members.Apart (m m' : Members) : Prop :=
  ∀ a, m.first = some a → m'.Avoids a.block

/-- `v` holds copies of the elements `l'` in a block that has room for no
more. The old block is still there, without elements. -/
def State.copied (s : State V α) (v : V) (m : Members) (l l' : List α) :
    State V α :=
  ((((s.allocate l'.length).setVector v
    (some (.of s.next l'.length l'.length))).wipe m).setBlock s.next
      (some (.of l'.length l'))).tally l'.length l'.length l.length

theorem copied_vector : (s.copied v m l l').vector =
    Function.update s.vector v
      (some (.of s.next l'.length l'.length)) := by
  rw [State.copied, tally_vector, setBlock_vector, wipe_vector]
  rfl

theorem copied_block_ne (hb : b ≠ s.next) (hm : m.Avoids b) :
    (s.copied v m l l').block b = s.block b := by
  rw [State.copied, tally_block, setBlock_block_ne hb, wipe_block_ne hm,
    setVector_block, allocate_block_ne _ hb]

omit [DecidableEq V] in
/-- What one vector holds stays when another one's elements are destroyed. -/
theorem Holds.wiped (h' : Holds env s m' l') (hapart : m.Apart m')
    (p q k : ℕ) : Holds env ((s.wipe m).tally p q k) m' l' := by
  refine h'.congr ?_
  intro a ha
  rw [tally_block]
  exact wipe_block_ne (fun a' ha' heq => hapart a' ha' a ha heq.symm)

omit [DecidableEq V] in
/-- The elements of `v` are destroyed, then those of `w` are copied. -/
theorem refill_eq (hv : s.vector v = some m) (h : Holds env s m l)
    (hw : s.vector w = some m') (h' : Holds env s m' l')
    (hapart : m.Apart m') {p : Pointer} :
    refill env v w p s =
      (forUpto l'.length fun i => do
        constructCopy env (← advance p i) (.slot (← at_ w i)))
        ((s.wipe m).tally 0 0 l.length) := by
  have hdestroy : Returns (forUpto l.length fun i => do
      let m ← members v
      destroyAt (← advance m.first i)) s ()
      ((s.wipe m).tally 0 0 l.length) := by
    have hlen := h.length_le
    cases h with
    | null => exact .pure
    | buffer hb _ _ => exact destroyLoop_returns (v := v) hv hb hlen
  have hw' : ((s.wipe m).tally 0 0 l.length).vector w = some m' := by
    rw [tally_vector, wipe_vector]
    exact hw
  refine (bind_returns (getSize_returns hv h)).trans ?_
  refine (bind_returns hdestroy).trans ?_
  exact bind_returns (getSize_returns hw' (h'.wiped hapart 0 0 l.length))

omit [DecidableEq V] in
theorem refill_returns (hcopies : env.Copies s.copies l'.length)
    (hv : s.vector v = some m) (h : Holds env s m l)
    (hw : s.vector w = some m')
    (h' : Holds env s m' l') (hapart : m.Apart m')
    (hb : s.block b = some (.of n [])) (hn : l'.length ≤ n)
    (havoids : m.Avoids b) (havoids' : m'.Avoids b) :
    Returns (refill env v w (some ⟨b, 0⟩)) s ()
      (((s.wipe m).setBlock b (some (.of n l'))).tally l'.length l'.length
        l.length) := by
  have hroom : ((s.wipe m).tally 0 0 l.length).block b =
      some (.of n []) := by
    rw [tally_block, wipe_block_ne havoids, hb]
  have hw' : ((s.wipe m).tally 0 0 l.length).vector w = some m' := by
    rw [tally_vector, wipe_vector]
    exact hw
  have hcopies' : env.Copies ((s.wipe m).tally 0 0 l.length).copies
      l'.length := by
    rw [tally_copies, wipe_copies]
    exact hcopies
  have hcopy := copyLoop_returns hcopies' hw' (h'.wiped hapart 0 0 l.length)
    havoids' hroom hn
  rw [setBlock_tally, tally_tally, Nat.zero_add, Nat.add_zero] at hcopy
  exact (refill_eq hv h hw h' hapart).trans hcopy

/-- `copy_from` once it has its new block. -/
theorem copyFrom_eq (hw : s.vector w = some m') (h' : Holds env s m' l')
    (hnew : env.newThrows s.allocations (env.sizeof * l'.length) = false)
    (hfresh : s.block s.next = none) :
    copyFrom env v w s =
      (rethrow (refill env v w (some ⟨s.next, 0⟩))
        (operatorDelete (some ⟨s.next, 0⟩)) >>= fun _ =>
          setMembers v (.of s.next l'.length l'.length))
        (s.allocate l'.length) := by
  have hroom : (s.allocate l'.length).block s.next =
      some (.of l'.length []) := allocate_block_self _
  have hsource : Holds env (s.allocate l'.length) m' l' :=
    h'.congr (fun a ha => allocate_block_ne _ (h'.avoids hfresh a ha))
  have hsize := getSize_returns (s := s.allocate l'.length) hw hsource
  have hadvance := advance_first hroom (Nat.le_refl _)
  refine (bind_returns (getSize_returns hw h')).trans ?_
  rw [sizeT_of_lt h'.fits]
  refine (bind_returns (operatorNew_returns hnew)).trans ?_
  refine (bind_returns hsize).trans ?_
  refine (bind_returns hadvance).trans ?_
  refine (bind_returns hsize).trans ?_
  exact bind_returns hadvance

theorem copyFrom_returns (hcopies : env.Copies s.copies l'.length)
    (hv : s.vector v = some m) (h : Holds env s m l)
    (hw : s.vector w = some m') (h' : Holds env s m' l')
    (hapart : m.Apart m')
    (hnew : env.newThrows s.allocations (env.sizeof * l'.length) = false)
    (hfresh : s.block s.next = none) :
    Returns (copyFrom env v w) s () (s.copied v m l l') := by
  have hroom : (s.allocate l'.length).block s.next =
      some (.of l'.length []) := allocate_block_self _
  have havoids := h.avoids hfresh
  have havoids' := h'.avoids hfresh
  have hold : Holds env (s.allocate l'.length) m l :=
    h.congr (fun a ha => allocate_block_ne _ (havoids a ha))
  have hsource : Holds env (s.allocate l'.length) m' l' :=
    h'.congr (fun a ha => allocate_block_ne _ (havoids' a ha))
  have hrefill := refill_returns (s := s.allocate l'.length) hcopies hv hold
    hw hsource hapart hroom (Nat.le_refl _) havoids havoids'
  have hset := setMembers_returns (v := v)
    (s := (((s.allocate l'.length).wipe m).setBlock s.next
      (some (.of l'.length l'))).tally l'.length l'.length l.length)
    (.of s.next l'.length l'.length)
  rw [setVector_tally, setVector_setBlock, wipe_setVector] at hset
  exact (copyFrom_eq hw h' hnew hfresh).trans (hrefill.rethrow.bind hset)

theorem copyFrom_refused (hw : s.vector w = some m') (h' : Holds env s m' l')
    (hnew : env.newThrows s.allocations (env.sizeof * l'.length) = true) :
    Throws (copyFrom env v w) s .badAlloc s.refuse := by
  refine (getSize_returns hw h').bind_throws ?_
  rw [sizeT_of_lt h'.fits]
  exact (operatorNew_throws hnew).bind

/-! ## `steal_from` and the destructor -/

theorem stealFrom_returns (hw : s.vector w = some m') :
    Returns (stealFrom v w) s ()
      ((s.setVector v (some m')).setVector w (some .null)) :=
  (members_returns hw).bind
    ((setMembers_returns _).bind (setMembers_returns _))

/-- The `::operator delete(first)` after a `clear()`. -/
theorem delete_cleared (h : Holds env s m l) :
    Returns (operatorDelete m.cleared.first)
      (((s.setVector v (some m.cleared)).wipe m).tally 0 0 l.length) ()
      (((s.setVector v (some m.cleared)).free m).tally 0 0 l.length) := by
  cases h with
  | null => exact operatorDelete_null
  | @buffer b c _ hb hlen hc =>
      have hdelete := operatorDelete_returns (b := b) (d := .of c [])
        (s := ((s.setVector v (some (Members.of b l.length c).cleared)).setBlock
          b (some (.of c []))).tally 0 0 l.length) (by simp)
      rw [setBlock_tally, setBlock_setBlock] at hdelete
      exact hdelete

/-- The elements are destroyed and the block is released, the members are as
`clear` left them. -/
theorem destructor_returns (hv : s.vector v = some m) (h : Holds env s m l) :
    Returns (destructor v) s ()
      (((s.setVector v (some m.cleared)).free m).tally 0 0 l.length) := by
  refine (initialized_returns hv).bind ?_
  by_cases hnull : m.first.isSome = true
  · rw [hnull, if_neg (by simp)]
    refine (clear_returns hv h).bind ?_
    refine Returns.bind (members_returns (m := m.cleared) ?_)
      (delete_cleared h)
    simp
  · cases h with
    | null =>
        show Returns (pure ()) s () (s.setVector v (some .null))
        rw [setVector_same hv]
        exact .pure
    | buffer _ _ _ => exact absurd rfl hnull

end LearningCpp.CustomVector
