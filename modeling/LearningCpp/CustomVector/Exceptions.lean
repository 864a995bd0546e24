import LearningCpp.CustomVector.Methods

/-!
# When a copy of an element throws

The `catch` blocks of `reserve` and `copy_from` release the new block and
destroy nothing, so the elements constructed in it are lost with it. `reserve`
leaves the vector as it was. `copy_from` has destroyed the elements of the
vector by then, and the vector still counts them.
-/

namespace LearningCpp.CustomVector

open LearningCpp.Lib Program

variable {V α : Type} {env : Env α} {s : State V α} {v w : V} {m m' : Members}
  {l l' : List α} {x : α} {r : Ref α} {b c i j n : ℕ} {d : Block α}

/-- A block was allocated and released again. -/
def State.abandon (s : State V α) : State V α :=
  { s with
    next := s.next + 1
    allocations := s.allocations + 1 }

theorem allocate_abandon (hfresh : s.block s.next = none) :
    (s.allocate n).setBlock s.next none = s.abandon := by
  have hblock : Function.update (Function.update s.block s.next
      (some (Block.of n []))) s.next none = s.block := by
    rw [Function.update_idem, ← hfresh, Function.update_eq_self]
  show State.mk _ (Function.update (Function.update s.block s.next _) s.next
    none) _ _ _ _ _ = _
  rw [hblock]
  rfl

/-! ## `reserve` -/

theorem constructMoved_throws (hmove : env.nothrowMove = false)
    (hc : env.copyThrows s.copies = true) (hsrc : s.block b = some d)
    (hx : d.slot i = some x) {p : Pointer} :
    Throws (constructMoved env p (some ⟨b, i⟩)) s .element
      (s.tally 1 0 0) := by
  rw [constructMoved, hmove, if_neg Bool.false_ne_true]
  exact constructCopy_throws hc (load_returns hsrc hx)

/-- Nothing is moved where a move could throw. -/
theorem Env.left_eq (hmove : env.nothrowMove = false) (x : α) :
    env.left x = x := by
  rw [Env.left, hmove, if_neg Bool.false_ne_true]

theorem Env.relocationCopies_eq (hmove : env.nothrowMove = false) (n : ℕ) :
    env.relocationCopies n = n := by
  rw [Env.relocationCopies, hmove, if_neg Bool.false_ne_true]

/-- What is copied is left as it was. -/
theorem relocated_copied {b' : ℕ} (hmove : env.nothrowMove = false)
    (hb : s.block b = some (.of c l)) (hne : b' ≠ b) (i : ℕ) :
    s.relocated env b c b' n l i =
      (s.setBlock b' (some (.of n (l.take i)))).tally i i 0 := by
  have hupto : Block.upto c i (fun x => some (env.left x)) l = .of c l := by
    refine congrArg (Block.mk c) (funext fun k => ?_)
    simp only [Env.left_eq hmove]
    split
    · exact Option.bind_fun_some l[k]?
    · rfl
  rw [State.relocated, hupto, Env.relocationCopies_eq hmove,
    setBlock_same ((setBlock_block_ne hne.symm _).trans hb)]

/-- The first loop of `reserve` stops at element `j`. -/
theorem moveLoop_throws {b' : ℕ} (hmove : env.nothrowMove = false)
    (hj : j < l.length) (hfails : env.FailsAfter s.copies j)
    (hv : s.vector v = some (.of b l.length c))
    (hb : s.block b = some (.of c l)) (hb' : s.block b' = some (.of n []))
    (hc : l.length ≤ c) (hn : l.length ≤ n) (hne : b' ≠ b) :
    Throws (forUpto l.length fun i => do
      let m ← members v
      constructMoved env (← advance (some ⟨b', 0⟩) i) (← advance m.first i)) s
      .element ((s.setBlock b' (some (.of n (l.take j)))).tally (j + 1) j
        0) := by
  have h := Throws.forUpto (n := l.length) (j := j) (f := fun i => do
    let m ← members v
    constructMoved env (← advance (some ⟨b', 0⟩) i) (← advance m.first i))
    (g := s.relocated env b c b' n l) (e := .element)
    (t := (s.relocated env b c b' n l j).tally 1 0 0) hj ?_ ?_
  · rw [relocated_zero hb hb', relocated_copied hmove hb hne,
      tally_tally] at h
    exact h
  · intro i hi
    refine moveLoop_round (by omega) ?_ hv hc hn hne
    rw [Env.relocationCopies_eq hmove, Env.relocationCopies_eq hmove]
    exact hfails.1.part hi
  · have hx := List.getElem?_eq_getElem hj
    have hlen : (l.take j).length = j := List.length_take_of_le (by omega)
    have hnew : (s.relocated env b c b' n l j).block b' =
        some (.of n (l.take j)) := relocated_new hne j
    have hold : (s.relocated env b c b' n l j).block b =
        some (.upto c j (fun x => some (env.left x)) l) := relocated_old b' j
    have hcopies : (s.relocated env b c b' n l j).copies = s.copies + j := by
      rw [relocated_copied hmove hb hne]
      rfl
    refine Returns.bind_throws (members_returns (m := .of b l.length c) hv) ?_
    refine (advance_first hnew (by rw [Block.of_size]; omega)).bind_throws ?_
    refine (advance_first hold (by rw [Block.upto_size]; omega)).bind_throws ?_
    exact constructMoved_throws hmove (by rw [hcopies]; exact hfails.2) hold
      (by rw [Block.upto_slot_self]; exact hx)

variable [DecidableEq V]

/-- The vector is as it was, and `j` elements are lost. -/
theorem reserve_throws (hmove : env.nothrowMove = false) (hj : j < l.length)
    (hfails : env.FailsAfter s.copies j) (hv : s.vector v = some m)
    (h : Holds env s m l) (hn : m.capacity < n)
    (hfit : env.sizeof * n < 2 ^ 64)
    (hnew : env.newThrows s.allocations (env.sizeof * n) = false)
    (hfresh : s.block s.next = none) :
    Throws (reserve env v n) s .element (s.abandon.tally (j + 1) j 0) := by
  obtain ⟨b, c, rfl, hb, hlen, hc⟩ := h.exists_buffer
    (List.length_pos_iff.1 (by omega))
  have hlt : c < n := hn
  have hroom : (s.allocate n).block s.next = some (.of n []) :=
    allocate_block_self n
  have hne : s.next ≠ b := by
    intro heq
    rw [← heq, hfresh] at hb
    cases hb
  have hold : (s.allocate n).block b = some (.of c l) := by
    rw [allocate_block_ne n hne.symm, hb]
  refine (getCapacity_returns hv h).bind_throws ?_
  rw [if_neg (by omega)]
  refine (getSize_returns hv h).bind_throws ?_
  rw [sizeT_of_lt hfit]
  refine (operatorNew_returns hnew).bind_throws ?_
  refine (advance_first hroom (by rw [Block.of_size]; omega)).bind_throws ?_
  refine (advance_first hroom (Nat.le_refl n)).bind_throws ?_
  have hloop := moveLoop_throws (s := s.allocate n) (v := v) hmove hj hfails
    hv hold hroom hlen (by omega) hne
  have hdelete := operatorDelete_returns (b := s.next) (d := .of n (l.take j))
    (s := ((s.allocate n).setBlock s.next (some (.of n (l.take j)))).tally
      (j + 1) j 0) (by simp)
  rw [setBlock_tally, setBlock_setBlock, allocate_abandon hfresh] at hdelete
  have hrelocate : Throws (relocate env v l.length (some ⟨s.next, 0⟩))
      (s.allocate n) .element _ := hloop.bind
  exact (hrelocate.rethrow hdelete).bind

/-! ## `push_back` -/

/-- The first copy throws, whether there is room or not. -/
theorem pushBack_throws_copy (hc : env.copyThrows s.copies = true)
    (hv : s.vector v = some m) (hr : Returns (deref r) s x s) :
    Throws (pushBack env v r) s .element (s.tally 1 0 0) := by
  refine Throws.bind ((members_returns hv).bind_throws ?_)
  split
  · have hcopy : Throws (localCopy env r) s .element (s.tally 1 0 0) :=
      (copyOf_throws hc hr).bind
    exact hcopy.bind
  · exact constructCopy_throws hc hr

/-- The copy of the argument is destroyed, however the growth failed. -/
theorem pushBack_throws_grow {s' : State V α}
    (hc : env.copyThrows s.copies = false) (hv : s.vector v = some m)
    (h : Holds env s m l) (hfull : l.length = m.capacity)
    (hr : Returns (deref r) s x s)
    (hgrow : Throws (growAndConstruct env v x) (s.tally 1 1 0) .element s') :
    Throws (pushBack env v r) s .element (s'.tally 0 0 1) := by
  refine Throws.bind ((members_returns hv).bind_throws ?_)
  rw [if_pos (h.full_iff.2 hfull)]
  exact (localCopy_returns hc hr).bind_throws
    (hgrow.ensuring destroyLocal_returns)

omit [DecidableEq V] in
theorem abandon_tally (p q r : ℕ) :
    (s.tally p q r).abandon = s.abandon.tally p q r := rfl

theorem pushBack_throws_relocate (hmove : env.nothrowMove = false)
    (hj : j < l.length) (hfails : env.FailsAfter s.copies (1 + j))
    (hv : s.vector v = some m) (h : Holds env s m l)
    (hfull : l.length = m.capacity)
    (hnew : env.newThrows s.allocations
      (env.sizeof * grown m.capacity) = false)
    (hfresh : s.block s.next = none) (hr : Returns (deref r) s x s) :
    Throws (pushBack env v r) s .element
      (s.abandon.tally (j + 2) (j + 1) 1) := by
  have hcopy : Holds env (s.tally 1 1 0) m l :=
    Holds.congr (s := s) (fun _ _ => rfl) h
  have hrest : env.FailsAfter (s.copies + 1) j :=
    ⟨hfails.1.part (Nat.le_refl _), by rw [Nat.add_assoc]; exact hfails.2⟩
  have hgrow : Throws (growAndConstruct env v x) (s.tally 1 1 0) .element
      (s.abandon.tally (j + 2) (j + 1) 0) := by
    refine (getCapacity_returns (s := s.tally 1 1 0) hv hcopy).bind_throws ?_
    rw [sizeT_grown h.capacity_le]
    have hreserve := reserve_throws (s := s.tally 1 1 0) hmove hj hrest hv
      hcopy (lt_grown _) h.grown_fits hnew hfresh
    rw [abandon_tally, tally_tally, Nat.add_comm 1, Nat.add_comm 1] at hreserve
    exact hreserve.bind
  exact pushBack_throws_grow (hfails.1.first (by omega)) hv h hfull hr hgrow

omit [DecidableEq V] in
theorem constructLocal_throws (hmove : env.nothrowMove = false)
    (hc : env.copyThrows s.copies = true) {p : Pointer} :
    Throws (constructLocal env p x) s .element (s.tally 1 0 0) := by
  rw [constructLocal, hmove, if_neg Bool.false_ne_true]
  exact constructCopy_throws hc .pure

theorem reserved_tally (p q r : ℕ) :
    (s.tally p q r).reserved env v m l n =
      (s.reserved env v m l n).tally p q r := by
  rw [State.reserved, tally_next, allocate_tally, setVector_tally,
    setBlock_tally, free_tally, tally_tally, State.reserved, tally_tally]
  rw [Nat.add_comm p, Nat.add_comm q, Nat.add_comm r]

/-- The vector has grown by then. -/
theorem pushBack_throws_construct (hmove : env.nothrowMove = false)
    (hfails : env.FailsAfter s.copies (1 + l.length))
    (hv : s.vector v = some m) (h : Holds env s m l)
    (hfull : l.length = m.capacity)
    (hnew : env.newThrows s.allocations
      (env.sizeof * grown m.capacity) = false)
    (hfresh : s.block s.next = none) (hr : Returns (deref r) s x s) :
    Throws (pushBack env v r) s .element
      ((s.reserved env v m l (grown m.capacity)).tally 2 1 1) := by
  have hcopy : Holds env (s.tally 1 1 0) m l :=
    Holds.congr (s := s) (fun _ _ => rfl) h
  have hrelocation : env.Copies (s.tally 1 1 0).copies
      (env.relocationCopies l.length) := by
    rw [Env.relocationCopies_eq hmove]
    exact hfails.1.part (Nat.le_refl _)
  have hgrow : Throws (growAndConstruct env v x) (s.tally 1 1 0) .element
      ((s.reserved env v m l (grown m.capacity)).tally 2 1 0) := by
    refine (getCapacity_returns (s := s.tally 1 1 0) hv hcopy).bind_throws ?_
    rw [sizeT_grown h.capacity_le]
    refine (reserve_grows hrelocation hv hcopy (lt_grown _) h.grown_fits hnew
      hfresh).bind_throws ?_
    rw [reserved_tally]
    refine Returns.bind_throws (members_returns
      (m := .of s.next l.length (grown m.capacity)) ?_) ?_
    · simp [State.reserved]
    have hc : env.copyThrows ((s.reserved env v m l
        (grown m.capacity)).tally 1 1 0).copies = true := by
      rw [tally_copies, reserved_copies, Env.relocationCopies_eq hmove,
        Nat.add_assoc, Nat.add_comm l.length]
      exact hfails.2
    exact constructLocal_throws hmove hc
  exact pushBack_throws_grow (hfails.1.first (by omega)) hv h hfull hr hgrow

/-! ## `copy_from` -/

omit [DecidableEq V] in
/-- The second loop of `copy_from` stops at element `j`. -/
theorem copyLoop_throws (hj : j < l.length)
    (hfails : env.FailsAfter s.copies j) (hw : s.vector w = some m)
    (h : Holds env s m l) (hm : m.Avoids b)
    (hb : s.block b = some (.of n [])) (hn : l.length ≤ n) :
    Throws (forUpto l.length fun i => do
      constructCopy env (← advance (some ⟨b, 0⟩) i) (.slot (← at_ w i))) s
      .element ((s.setBlock b (some (.of n (l.take j)))).tally (j + 1) j
        0) := by
  have h := Throws.forUpto (n := l.length) (j := j) (f := fun i => do
    constructCopy env (← advance (some ⟨b, 0⟩) i) (.slot (← at_ w i)))
    (g := s.duplicated b n l) (e := .element)
    (t := (s.duplicated b n l j).tally 1 0 0) hj
    (fun i hi => copyLoop_round (by omega) (hfails.1 i hi) hw h hm hn) ?_
  · rw [duplicated_zero hb, State.duplicated, tally_tally] at h
    exact h
  · have hx := List.getElem?_eq_getElem hj
    have hlen : (l.take j).length = j := List.length_take_of_le (by omega)
    have hnew : (s.duplicated b n l j).block b = some (.of n (l.take j)) :=
      duplicated_new j
    have hw' : (s.duplicated b n l j).vector w = some m := hw
    obtain ⟨p, hp, hload⟩ := at_returns hw' (h.duplicated hm j) hx
    refine (advance_first hnew (by rw [Block.of_size]; omega)).bind_throws ?_
    refine hp.bind_throws ?_
    exact constructCopy_throws (r := .slot p) hfails.2 hload

/-- The elements of `v` are gone, `j` of the copies are lost, and the members
of `v` are what they were. -/
theorem copyFrom_throws (hj : j < l'.length)
    (hfails : env.FailsAfter s.copies j) (hv : s.vector v = some m)
    (h : Holds env s m l) (hw : s.vector w = some m')
    (h' : Holds env s m' l') (hapart : m.Apart m')
    (hnew : env.newThrows s.allocations (env.sizeof * l'.length) = false)
    (hfresh : s.block s.next = none) :
    Throws (copyFrom env v w) s .element
      ((s.abandon.wipe m).tally (j + 1) j l.length) := by
  have havoids := h.avoids hfresh
  have havoids' := h'.avoids hfresh
  have hold : Holds env (s.allocate l'.length) m l :=
    h.congr (fun a ha => allocate_block_ne _ (havoids a ha))
  have hsource : Holds env (s.allocate l'.length) m' l' :=
    h'.congr (fun a ha => allocate_block_ne _ (havoids' a ha))
  have hsource' : Holds env (((s.allocate l'.length).wipe m).tally 0 0
      l.length) m' l' := hsource.wiped hapart 0 0 l.length
  have hroom : (((s.allocate l'.length).wipe m).tally 0 0 l.length).block
      s.next = some (.of l'.length []) := by
    rw [tally_block, wipe_block_ne havoids]
    exact allocate_block_self _
  have hw' : (((s.allocate l'.length).wipe m).tally 0 0 l.length).vector w =
      some m' := by
    rw [tally_vector, wipe_vector]
    exact hw
  have hfails' : env.FailsAfter (((s.allocate l'.length).wipe m).tally 0 0
      l.length).copies j := by
    rw [tally_copies, wipe_copies]
    exact hfails
  have hloop := copyLoop_throws hj hfails' hw' hsource' havoids' hroom
    (Nat.le_refl _)
  have hrefill : Throws (refill env v w (some ⟨s.next, 0⟩))
      (s.allocate l'.length) .element _ :=
    (refill_eq (s := s.allocate l'.length) hv hold hw hsource hapart).trans
      hloop
  have hdelete := operatorDelete_returns (b := s.next)
    (d := .of l'.length (l'.take j))
    (s := ((((s.allocate l'.length).wipe m).tally 0 0 l.length).setBlock s.next
      (some (.of l'.length (l'.take j)))).tally (j + 1) j 0) (by simp)
  have hend : (((((s.allocate l'.length).wipe m).tally 0 0 l.length).setBlock
      s.next (some (.of l'.length (l'.take j)))).tally (j + 1) j 0).setBlock
        s.next none = (s.abandon.wipe m).tally (j + 1) j l.length := by
    rw [setBlock_tally, setBlock_setBlock, setBlock_tally, tally_tally,
      wipe_setBlock havoids, allocate_abandon hfresh]
    simp
  rw [hend] at hdelete
  exact (copyFrom_eq hw h' hnew hfresh).trans (hrefill.rethrow hdelete).bind

end LearningCpp.CustomVector
