import LearningCpp.CustomVector.Model

/-!
# What the memory primitives do

Each primitive, on the storage it is meant for, returns in a state that is
written out. The blocks that occur are those whose first slots hold the elements
of a list and whose other slots are raw; while a loop runs over one, the slots
below its index have been replaced already.
-/

namespace LearningCpp.CustomVector

open LearningCpp.Lib Program

variable {V α : Type} {env : Env α} {s : State V α} {b i n : ℕ}
  {d : Block α} {x : α} {l : List α}

/-! ## Blocks -/

/-- The first slots hold the elements of `l`. -/
def Block.of (c : ℕ) (l : List α) : Block α := ⟨c, fun i => l[i]?⟩

/-- The first `i` elements of `l` have been replaced. -/
def Block.upto (c i : ℕ) (f : α → Option α) (l : List α) : Block α :=
  ⟨c, fun j => if j < i then l[j]?.bind f else l[j]?⟩

@[simp] theorem Block.of_size (c : ℕ) (l : List α) :
    (Block.of c l).size = c := rfl

@[simp] theorem Block.of_slot (c : ℕ) (l : List α) (i : ℕ) :
    (Block.of c l).slot i = l[i]? := rfl

@[simp] theorem Block.upto_size (c i : ℕ) (f : α → Option α) (l : List α) :
    (Block.upto c i f l).size = c := rfl

theorem Block.upto_slot_self (c i : ℕ) (f : α → Option α) (l : List α) :
    (Block.upto c i f l).slot i = l[i]? := if_neg (Nat.lt_irrefl i)

theorem Block.set_eq {f g : ℕ → Option α} {c : ℕ} {y : Option α}
    (hi : g i = y) (h : ∀ j, j ≠ i → g j = f j) :
    (⟨c, f⟩ : Block α).set i y = ⟨c, g⟩ := by
  have hslot : Function.update f i y = g := by
    funext j
    by_cases hj : j = i
    · rw [hj, Function.update_self]
      exact hi.symm
    · rw [Function.update_of_ne hj]
      exact (h j hj).symm
  rw [Block.set, hslot]

theorem Block.of_push (c : ℕ) (l : List α) (x : α) :
    (Block.of c l).set l.length (some x) = Block.of c (l ++ [x]) := by
  refine Block.set_eq (by simp) ?_
  intro j hj
  rcases Nat.lt_or_gt_of_ne hj with hlt | hgt
  · rw [List.getElem?_append_left hlt]
  · rw [List.getElem?_eq_none (by simp; omega),
      List.getElem?_eq_none (by omega)]

theorem Block.of_pop (c : ℕ) (l : List α) (x : α) :
    (Block.of c (l ++ [x])).set l.length none = Block.of c l := by
  refine Block.set_eq (by simp) ?_
  intro j hj
  rcases Nat.lt_or_gt_of_ne hj with hlt | hgt
  · rw [List.getElem?_append_left hlt]
  · rw [List.getElem?_eq_none (by omega),
      List.getElem?_eq_none (by simp; omega)]

theorem Block.of_take_succ (c : ℕ) (h : l[i]? = some x) :
    (Block.of c (l.take i)).set i (some x) = Block.of c (l.take (i + 1)) := by
  obtain ⟨hi, hx⟩ := List.getElem?_eq_some_iff.1 h
  have hlen : (l.take i).length = i := List.length_take_of_le (by omega)
  have hpush := Block.of_push c (l.take i) x
  rw [hlen, ← hx, List.take_append_getElem hi, hx] at hpush
  exact hpush

theorem Block.upto_zero (c : ℕ) (f : α → Option α) (l : List α) :
    Block.upto c 0 f l = Block.of c l := rfl

theorem Block.upto_succ (c : ℕ) (f : α → Option α) (h : l[i]? = some x) :
    (Block.upto c i f l).set i (f x) = Block.upto c (i + 1) f l := by
  refine Block.set_eq ?_ ?_
  · rw [if_pos (Nat.lt_succ_self i), h]
    rfl
  · intro j hj
    by_cases hlt : j < i
    · rw [if_pos hlt, if_pos (by omega)]
    · rw [if_neg hlt, if_neg (by omega)]

theorem Block.upto_length (c : ℕ) (f : α → Option α) (l : List α) :
    Block.upto c l.length f l = ⟨c, fun j => l[j]?.bind f⟩ := by
  rw [Block.upto, Block.mk.injEq]
  refine ⟨rfl, funext fun j => ?_⟩
  by_cases hj : j < l.length
  · rw [if_pos hj]
  · rw [if_neg hj, List.getElem?_eq_none (by omega)]
    rfl

/-- All elements have been destroyed. -/
theorem Block.upto_none (c : ℕ) (l : List α) :
    Block.upto c l.length (fun _ => none) l = Block.of c [] := by
  rw [Block.upto_length]
  refine congrArg (Block.mk c) (funext fun j => ?_)
  cases l[j]? <;> rfl

/-- All elements have been moved from. -/
theorem Block.upto_some (c : ℕ) (f : α → α) (l : List α) :
    Block.upto c l.length (fun x => some (f x)) l = Block.of c (l.map f) := by
  rw [Block.upto_length]
  refine congrArg (Block.mk c) (funext fun j => ?_)
  rw [List.getElem?_map]
  cases l[j]? <;> rfl

/-! ## States -/

/-- Further copy constructor calls, constructions and destructions. -/
def State.tally (s : State V α) (copies constructed destroyed : ℕ) :
    State V α :=
  { s with
    copies := s.copies + copies
    constructed := s.constructed + constructed
    destroyed := s.destroyed + destroyed }

/-- There is one more block, with room for `c` elements. -/
def State.allocate (s : State V α) (c : ℕ) : State V α :=
  { s.setBlock s.next (some (Block.of c [])) with
    next := s.next + 1
    allocations := s.allocations + 1 }

/-- A call of `::operator new` that failed. -/
def State.refuse (s : State V α) : State V α :=
  { s with allocations := s.allocations + 1 }

@[simp] theorem setBlock_vector (b : ℕ) (k : Option (Block α)) :
    (s.setBlock b k).vector = s.vector := rfl

@[simp] theorem setBlock_next (b : ℕ) (k : Option (Block α)) :
    (s.setBlock b k).next = s.next := rfl

@[simp] theorem setBlock_constructed (b : ℕ) (k : Option (Block α)) :
    (s.setBlock b k).constructed = s.constructed := rfl

@[simp] theorem setBlock_destroyed (b : ℕ) (k : Option (Block α)) :
    (s.setBlock b k).destroyed = s.destroyed := rfl

@[simp] theorem setBlock_block_self (b : ℕ) (k : Option (Block α)) :
    (s.setBlock b k).block b = k := by
  simp [State.setBlock]

theorem setBlock_block_ne {b' : ℕ} (h : b' ≠ b) (k : Option (Block α)) :
    (s.setBlock b k).block b' = s.block b' := by
  simp [State.setBlock, h]

@[simp] theorem setBlock_setBlock (b : ℕ) (k k' : Option (Block α)) :
    (s.setBlock b k).setBlock b k' = s.setBlock b k' := by
  show State.mk _ _ _ _ _ _ _ = _
  rw [State.setBlock, Function.update_idem]
  rfl

theorem setBlock_comm {b' : ℕ} (h : b ≠ b') (k k' : Option (Block α)) :
    (s.setBlock b k).setBlock b' k' = (s.setBlock b' k').setBlock b k := by
  show State.mk _ _ _ _ _ _ _ = _
  rw [State.setBlock, Function.update_comm h]
  rfl

theorem setBlock_same {k : Option (Block α)} (h : s.block b = k) :
    s.setBlock b k = s := by
  rw [State.setBlock, ← h, Function.update_eq_self]

@[simp] theorem tally_vector (p q r : ℕ) : (s.tally p q r).vector = s.vector :=
  rfl

@[simp] theorem tally_block (p q r : ℕ) : (s.tally p q r).block = s.block :=
  rfl

@[simp] theorem tally_next (p q r : ℕ) : (s.tally p q r).next = s.next := rfl

@[simp] theorem tally_copies (p q r : ℕ) :
    (s.tally p q r).copies = s.copies + p := rfl

@[simp] theorem tally_constructed (p q r : ℕ) :
    (s.tally p q r).constructed = s.constructed + q := rfl

@[simp] theorem tally_destroyed (p q r : ℕ) :
    (s.tally p q r).destroyed = s.destroyed + r := rfl

@[simp] theorem tally_zero : s.tally 0 0 0 = s := rfl

@[simp] theorem tally_tally (p q r p' q' r' : ℕ) :
    (s.tally p q r).tally p' q' r' = s.tally (p + p') (q + q') (r + r') := by
  simp [State.tally, Nat.add_assoc]

@[simp] theorem setBlock_tally (p q r b : ℕ) (k : Option (Block α)) :
    (s.tally p q r).setBlock b k = (s.setBlock b k).tally p q r := rfl

@[simp] theorem allocate_block_self (c : ℕ) :
    (s.allocate c).block s.next = some (Block.of c []) :=
  Function.update_self _ _ _

@[simp] theorem allocate_tally (p q r c : ℕ) :
    (s.tally p q r).allocate c = (s.allocate c).tally p q r := rfl

theorem allocate_block_ne (c : ℕ) (h : b ≠ s.next) :
    (s.allocate c).block b = s.block b := Function.update_of_ne h _ _

section SetVector

variable [DecidableEq V] {v : V}

@[simp] theorem setVector_block (m : Option Members) :
    (s.setVector v m).block = s.block := rfl

@[simp] theorem setVector_vector_self (m : Option Members) :
    (s.setVector v m).vector v = m := by
  simp [State.setVector]

theorem setVector_vector_ne {w : V} (h : w ≠ v) (m : Option Members) :
    (s.setVector v m).vector w = s.vector w := by
  simp [State.setVector, h]

@[simp] theorem setVector_setVector (m m' : Option Members) :
    (s.setVector v m).setVector v m' = s.setVector v m' := by
  show State.mk _ _ _ _ _ _ _ = _
  rw [State.setVector, Function.update_idem]
  rfl

theorem setVector_comm {w : V} (h : v ≠ w) (m m' : Option Members) :
    (s.setVector v m).setVector w m' = (s.setVector w m').setVector v m := by
  show State.mk _ _ _ _ _ _ _ = _
  rw [State.setVector, Function.update_comm h]
  rfl

@[simp] theorem setVector_setBlock (m : Option Members) (b : ℕ)
    (k : Option (Block α)) :
    (s.setBlock b k).setVector v m = (s.setVector v m).setBlock b k := rfl

@[simp] theorem setVector_tally (m : Option Members) (p q r : ℕ) :
    (s.tally p q r).setVector v m = (s.setVector v m).tally p q r := rfl

end SetVector

/-! ## Primitives -/

theorem load_returns (hb : s.block b = some d) (hx : d.slot i = some x) :
    Returns (load (some ⟨b, i⟩)) s x s := by
  refine Returns.read ?_
  simp [hb, hx]

theorem constructAt_returns (hb : s.block b = some d) (hi : i < d.size)
    (hraw : d.slot i = none) :
    Returns (constructAt (some ⟨b, i⟩) x) s ()
      ((s.setBlock b (some (d.set i (some x)))).tally 0 1 0) := by
  refine Returns.update ?_
  simp [hb, hi, hraw]
  rfl

theorem destroyAt_returns (hb : s.block b = some d)
    (hx : d.slot i = some x) :
    Returns (destroyAt (some ⟨b, i⟩)) s ()
      ((s.setBlock b (some (d.set i none))).tally 0 0 1) := by
  refine Returns.update ?_
  simp [hb, hx]
  rfl

theorem moveOut_returns (hb : s.block b = some d)
    (hx : d.slot i = some x) :
    Returns (moveOut env (some ⟨b, i⟩)) s ()
      (s.setBlock b (some (d.set i (some (env.movedFrom x))))) := by
  refine Returns.update ?_
  simp [hb, hx]

theorem advance_returns (hb : s.block b = some d) (hi : i + n ≤ d.size) :
    Returns (advance (some ⟨b, i⟩) n) s (some ⟨b, i + n⟩) s := by
  refine Returns.read ?_
  simp [hb, hi]

theorem advance_first (hb : s.block b = some d) (hi : i ≤ d.size) :
    Returns (advance (some ⟨b, 0⟩) i) s (some ⟨b, i⟩) s := by
  have h := advance_returns (i := 0) (n := i) hb (by omega)
  rw [Nat.zero_add] at h
  exact h

theorem retreat_returns (hb : s.block b = some d) :
    Returns (retreat (some ⟨b, i + 1⟩)) s (some ⟨b, i⟩) s := by
  refine Returns.read ?_
  simp [hb]

theorem distance_returns (hb : s.block b = some d) :
    Returns (distance (some ⟨b, 0⟩) (some ⟨b, i⟩)) s i s := by
  refine Returns.read ?_
  simp [hb]

theorem operatorDelete_returns (hb : s.block b = some d) :
    Returns (operatorDelete (some ⟨b, 0⟩)) s () (s.setBlock b none) := by
  refine Returns.update ?_
  simp [hb]

theorem operatorDelete_null : Returns (operatorDelete none) s () s := rfl

theorem operatorNew_returns {c : ℕ}
    (h : env.newThrows s.allocations (env.sizeof * c) = false) :
    Returns (operatorNew env (env.sizeof * c)) s (some ⟨s.next, 0⟩)
      (s.allocate c) := by
  rw [Returns, operatorNew, h, if_neg Bool.false_ne_true,
    Nat.mul_div_cancel_left c env.sizeof_pos]
  rfl

theorem operatorNew_throws {bytes : ℕ}
    (h : env.newThrows s.allocations bytes = true) :
    Throws (operatorNew env bytes) s .badAlloc s.refuse := by
  rw [Throws, operatorNew, h, if_pos rfl]
  rfl

/-! ## Copies -/

/-- The copy constructors of the elements do not throw. -/
def Env.NoThrow (env : Env α) : Prop := ∀ k, env.copyThrows k = false

/-- After `k` copies the next `n` do not throw. -/
def Env.Copies (env : Env α) (k n : ℕ) : Prop :=
  ∀ i, i < n → env.copyThrows (k + i) = false

/-- After `k` copies `j` more are made, and the next one throws. -/
def Env.FailsAfter (env : Env α) (k j : ℕ) : Prop :=
  env.Copies k j ∧ env.copyThrows (k + j) = true

theorem Env.Copies.part {k p q : ℕ} (h : env.Copies k n) (hn : p + q ≤ n) :
    env.Copies (k + p) q := by
  intro i hi
  rw [Nat.add_assoc]
  exact h (p + i) (by omega)

theorem Env.Copies.first {k : ℕ} (h : env.Copies k n) (hn : 0 < n) :
    env.copyThrows k = false := h 0 hn

theorem Env.copies_one {k : ℕ} (h : env.copyThrows k = false) :
    env.Copies k 1 := by
  intro i hi
  rw [Nat.lt_one_iff.1 hi]
  exact h

theorem Env.Copies.add {k p q : ℕ} (h : env.Copies k p)
    (h' : env.Copies (k + p) q) : env.Copies k (p + q) := by
  intro i hi
  by_cases hip : i < p
  · exact h i hip
  · have h'' := h' (i - p) (by omega)
    rw [show k + p + (i - p) = k + i by omega] at h''
    exact h''

/-- All of them, or some and then one that throws. -/
theorem Env.copies_or (env : Env α) (k n : ℕ) :
    env.Copies k n ∨ ∃ j, j < n ∧ env.FailsAfter k j := by
  induction n with
  | zero => exact .inl (fun i hi => absurd hi (Nat.not_lt_zero i))
  | succ n ih =>
      rcases ih with hcopies | ⟨j, hj, hfails⟩
      · cases hthrow : env.copyThrows (k + n) with
        | false => exact .inl (hcopies.add (Env.copies_one hthrow))
        | true => exact .inr ⟨n, Nat.lt_succ_self n, hcopies, hthrow⟩
      · exact .inr ⟨j, by omega, hfails⟩

theorem copyOf_returns {r : Ref α} (hc : env.copyThrows s.copies = false)
    (h : Returns (deref r) s x s) :
    Returns (copyOf env r) s x (s.tally 1 0 0) := by
  refine h.bind ?_
  show (if env.copyThrows s.copies = true then _ else _) = _
  rw [hc, if_neg Bool.false_ne_true]
  rfl

theorem copyOf_throws {r : Ref α} (hc : env.copyThrows s.copies = true)
    (h : Returns (deref r) s x s) :
    Throws (copyOf env r) s .element (s.tally 1 0 0) := by
  refine h.bind_throws ?_
  show (if env.copyThrows s.copies = true then _ else _) = _
  rw [hc, if_pos rfl]
  rfl

theorem constructCopy_returns {r : Ref α}
    (hc : env.copyThrows s.copies = false)
    (h : Returns (deref r) s x s) (hb : s.block b = some d)
    (hi : i < d.size) (hraw : d.slot i = none) :
    Returns (constructCopy env (some ⟨b, i⟩) r) s ()
      ((s.setBlock b (some (d.set i (some x)))).tally 1 1 0) := by
  refine (copyOf_returns hc h).bind ?_
  have hc := constructAt_returns (s := s.tally 1 0 0) (x := x) hb hi hraw
  rw [setBlock_tally, tally_tally] at hc
  exact hc

theorem constructCopy_throws {p : Pointer} {r : Ref α}
    (hc : env.copyThrows s.copies = true) (h : Returns (deref r) s x s) :
    Throws (constructCopy env p r) s .element (s.tally 1 0 0) :=
  (copyOf_throws hc h).bind

end LearningCpp.CustomVector
