import LearningCpp.CustomVector.Assignment
import LearningCpp.CustomVector.Readings

/-!
# `push_back` and `reserve` when something throws

Until the swaps at its end `reserve` writes to the new block only, as long as an
exception is still possible: where a move could throw the elements are copied,
and where none can nothing else can either. After the swaps the elements are the
ones there were, in another block, and `push_back` has not counted the new one
yet. So whatever throws, a caller reads what was there before. This needs no
more of the state than that `::operator new` is past the vector's block, and so
it holds of vectors that an assignment has spoiled as well.
-/

namespace LearningCpp.CustomVector

open LearningCpp.Lib Program

variable {V α : Type} {env : Env α} {s₀ s s' : State V α} {v w : V}
  {m : Members} {r : Ref α} {x : α} {a : Address} {p q : Pointer}
  {b c i j n : ℕ}

/-! ## `reserve` -/

theorem constructAt_cases {k : Except Exception Unit}
    (h : constructAt (some a) x s = some (k, s')) :
    k = .ok () ∧ ∃ d, s.block a.block = some d ∧ d.slot a.slot = none ∧
      s' = (s.setBlock a.block (some (d.set a.slot (some x)))).tally 0 1 0 := by
  obtain ⟨rfl, ht⟩ := update_cases h
  simp only [Option.bind_eq_bind, Option.bind_some, Option.bind_eq_some_iff]
    at ht
  obtain ⟨d, hd, ht⟩ := ht
  split at ht
  · next hraw =>
      cases ht
      exact ⟨rfl, d, hd, Option.isNone_iff_eq_none.1 hraw.2, rfl⟩
  · cases ht

theorem copyOf_cases {k : Except Exception α}
    (h : copyOf env r s = some (k, s')) :
    s' = s.tally 1 0 0 ∧ (k = .error .element ∨
      ∃ x, k = .ok x ∧ Returns (deref r) s x s) := by
  have htriple : Triple (· = s) (copyOf env r)
      (fun x s' => s' = s.tally 1 0 0 ∧ Returns (deref r) s x s)
      (fun e s' => s' = s.tally 1 0 0 ∧ e = .element) := by
    refine copyOf_triple ?_ ?_
    · intro t x ht hx _
      subst ht
      exact ⟨rfl, hx⟩
    · intro t ht _
      subst ht
      exact ⟨rfl, rfl⟩
  cases k with
  | ok x =>
      obtain ⟨hs, hx⟩ := htriple.returns rfl h
      exact ⟨hs, .inr ⟨x, rfl, hx⟩⟩
  | error e =>
      obtain ⟨hs, rfl⟩ := htriple.throws rfl h
      exact ⟨hs, .inl rfl⟩

/-- The element at `a'` has come to `a`. What it was moved from may look
otherwise now, but not what it was copied from. -/
structure Brings (env : Env α) (s : State V α) (a a' : Address)
    (s' : State V α) : Prop where
  vector : s'.vector = s.vector
  next : s'.next = s.next
  block : ∃ x y d d', s.block a'.block = some d' ∧ d'.slot a'.slot = some x ∧
    s.block a.block = some d ∧ s'.block = Function.update (Function.update
      s.block a.block (some (d.set a.slot (some x)))) a'.block
        (some (d'.set a'.slot (some y))) ∧
    (env.nothrowMove = false → y = x)

theorem Block.set_same {d : Block α} (h : d.slot i = some x) :
    d.set i (some x) = d := by
  rw [Block.set, ← h, Function.update_eq_self]

theorem constructMoved_cases {a' : Address} {k : Except Exception Unit}
    (hne : a.block ≠ a'.block)
    (h : constructMoved env (some a) (some a') s = some (k, s')) :
    (k = .ok () ∧ Brings env s a a' s') ∨
      (env.nothrowMove = false ∧ k = .error .element ∧
        s' = s.tally 1 0 0) := by
  unfold constructMoved at h
  split at h
  · next hmove =>
      rcases bind_cases h with ⟨x, t, hload, hrest⟩ | ⟨e, hload, _⟩
      · obtain ⟨rfl, _, d', heq, hd', hx⟩ := load_cases hload
        cases heq
        rcases bind_cases hrest with ⟨_, t', hat, hmoved⟩ | ⟨e, hat, _⟩
        · obtain ⟨_, d, hd, _, rfl⟩ := constructAt_cases hat
          obtain ⟨rfl, hs'⟩ := update_cases hmoved
          simp only [Option.bind_eq_bind, Option.bind_some, tally_block,
            setBlock_block_ne hne.symm, hd', hx, Option.some.injEq] at hs'
          subst hs'
          exact .inl ⟨rfl, rfl, rfl, x, env.movedFrom x, d, d', hd', hx, hd,
            rfl, fun hcopy => by rw [hcopy] at hmove; cases hmove⟩
        · obtain ⟨heq, _⟩ := constructAt_cases hat
          cases heq
      · obtain ⟨_, _, heq, _⟩ := read_cases hload
        cases heq
  · next hmove =>
      have hcopy := Bool.eq_false_of_not_eq_true hmove
      rcases bind_cases h with ⟨x, t, hof, hat⟩ | ⟨e, hof, rfl⟩
      · obtain ⟨rfl, heq | ⟨_, heq, hload⟩⟩ := copyOf_cases hof
        · cases heq
        · cases heq
          obtain ⟨_, _, d', heq, hd', hx⟩ := load_cases hload
          cases heq
          obtain ⟨rfl, d, hd, _, rfl⟩ := constructAt_cases hat
          refine .inl ⟨rfl, rfl, rfl, x, x, d, d', hd', hx, hd, ?_,
            fun _ => rfl⟩
          rw [Block.set_same hx, Function.update_comm hne, ← hd',
            Function.update_eq_self]
          rfl
      · obtain ⟨rfl, heq | ⟨_, heq, _⟩⟩ := copyOf_cases hof
        · cases heq
          exact .inr ⟨hcopy, rfl, rfl⟩
        · cases heq

/-- The first `i` elements are in the block `b`, which has room for `c`, and
the others are where they were. -/
structure Relocating (env : Env α) (s₀ : State V α) (m : Members)
    (b c i : ℕ) (s : State V α) : Prop where
  vector : s.vector = s₀.vector
  untouched : env.nothrowMove = false → Untouched s₀ s
  room : ∃ d, s.block b = some d ∧ d.size = c ∧
    ∀ j < i, ∃ x, d.slot j = some x ∧ Slot s₀ m j x
  rest : ∀ a d, m.first = some a → s.block a.block = some d →
    ∃ d₀, s₀.block a.block = some d₀ ∧ d.size = d₀.size ∧
      ∀ j, i ≤ j → d.slot (a.slot + j) = d₀.slot (a.slot + j)

theorem Relocating.succ (h : Relocating env s₀ m b c i s)
    (ha : m.first = some a) (hb : s₀.next ≤ b) (hlt : a.block < b)
    {d' : Block α} (hd' : s.block a.block = some d')
    (hi : a.slot + i ≤ d'.size)
    (hbrings : Brings env s ⟨b, i⟩ ⟨a.block, a.slot + i⟩ s') :
    Relocating env s₀ m b c (i + 1) s' := by
  obtain ⟨hvector, hnext, x, y, d, d'', hold, hx, hnew, hblock, hcopy⟩ :=
    hbrings
  have hd'' : s.block a.block = some d'' := hold
  rw [hd'] at hd''
  cases hd''
  obtain ⟨d₀, hd₀, hsize, hrest⟩ := h.rest a d' ha hd'
  have hne : b ≠ a.block := by omega
  have hself : s'.block b = some (d.set i (some x)) := by
    rw [hblock, Function.update_of_ne hne, Function.update_self]
  have hselfOld : s'.block a.block =
      some (d'.set (a.slot + i) (some y)) := by
    rw [hblock]
    exact Function.update_self _ _ _
  have hslot : Slot s₀ m i x := by
    refine ⟨a, d₀, ha, hd₀, by omega, ?_⟩
    rw [← hrest i (Nat.le_refl i)]
    exact hx
  refine ⟨hvector.trans h.vector, ?_, ⟨_, hself, ?_, ?_⟩, ?_⟩
  · intro hmove
    have hs := h.untouched hmove
    refine ⟨hvector.trans hs.vector, hnext ▸ hs.next, ?_⟩
    intro k hk
    have hkb : k ≠ b := by omega
    rw [← hs.block k hk, hblock, hcopy hmove, Block.set_same hx]
    rcases eq_or_ne k a.block with rfl | hka
    · rw [Function.update_self, hd']
    · rw [Function.update_of_ne hka, Function.update_of_ne hkb]
  · obtain ⟨d₁, hd₁, hsize₁, _⟩ := h.room
    have hnew : s.block b = some d := hnew
    rw [hnew] at hd₁
    cases hd₁
    exact hsize₁
  · intro j hj
    obtain ⟨d₁, hd₁, _, hslots⟩ := h.room
    have hnew : s.block b = some d := hnew
    rw [hnew] at hd₁
    cases hd₁
    rcases eq_or_ne j i with rfl | hji
    · exact ⟨x, Function.update_self _ _ _, hslot⟩
    · obtain ⟨z, hz, hzslot⟩ := hslots j (by omega)
      exact ⟨z, (Function.update_of_ne hji _ _).trans hz, hzslot⟩
  · intro a₁ d₁ ha₁ hd₁
    rw [ha] at ha₁
    cases ha₁
    rw [hselfOld] at hd₁
    cases hd₁
    refine ⟨d₀, hd₀, hsize, ?_⟩
    intro j hj
    rw [← hrest j (by omega)]
    exact Function.update_of_ne (by omega) _ _

/-- One round of the loop that moves or copies over. -/
theorem relocating_round (hv : s₀.vector v = some m) (ha : m.first = some a)
    (hb : s₀.next ≤ b) (hlt : a.block < b) :
    Triple (Relocating env s₀ m b c i) (do
      let m ← members v
      constructMoved env (← advance (some ⟨b, 0⟩) i) (← advance m.first i))
      (fun _ => Relocating env s₀ m b c (i + 1))
      (fun _ => Untouched s₀) := by
  refine .of_cases fun s k s' hs h => ?_
  obtain ⟨m', hm', h⟩ := bind_read_cases h
  rw [hs.vector, hv] at hm'
  cases hm'
  rcases bind_cases h with ⟨p, t, hp, h⟩ | ⟨_, hp, _⟩
  · obtain ⟨rfl, ⟨heq, _⟩ | ⟨_, _, heq, _, _, rfl⟩⟩ := advance_cases hp
    · cases heq
    cases heq
    rcases bind_cases h with ⟨q, t', hq, hmoved⟩ | ⟨_, hq, _⟩
    · rw [ha] at hq
      obtain ⟨rfl, ⟨heq, _⟩ | ⟨_, d, heq, hd, hle, rfl⟩⟩ := advance_cases hq
      · cases heq
      cases heq
      have hne : b ≠ a.block := by omega
      rw [Nat.zero_add] at hmoved
      rcases constructMoved_cases hne hmoved with ⟨rfl, hbrings⟩ |
        ⟨hmove, rfl, rfl⟩
      · exact .inl ⟨(), rfl, hs.succ ha hb hlt hd hle hbrings⟩
      · exact .inr ⟨_, rfl, (hs.untouched hmove).vector,
          (hs.untouched hmove).next, (hs.untouched hmove).block⟩
    · obtain ⟨_, _, heq, _⟩ := read_cases hq
      cases heq
  · obtain ⟨_, _, heq, _⟩ := read_cases hp
    cases heq

/-- All elements are in the block `b`. -/
structure Relocated (s₀ : State V α) (m : Members) (b c n : ℕ)
    (s : State V α) : Prop where
  vector : s.vector = s₀.vector
  room : ∃ d, s.block b = some d ∧ d.size = c ∧
    ∀ j < n, ∃ x, d.slot j = some x ∧ Slot s₀ m j x

theorem Relocated.of_block (h : Relocated s₀ m b c n s)
    (hvector : s'.vector = s.vector) (hblock : s'.block b = s.block b) :
    Relocated s₀ m b c n s' := by
  refine ⟨hvector.trans h.vector, ?_⟩
  rw [hblock]
  exact h.room

/-- The `try` of `reserve`. An exception finds the old block as it was. -/
theorem relocate_triple (hv : s₀.vector v = some m) (hs : Fresh s₀)
    (hn : Spans s₀ m n) (hb : s₀.next ≤ b) :
    Triple (Relocating env s₀ m b c 0) (relocate env v n (some ⟨b, 0⟩))
      (fun _ => Relocated s₀ m b c n) (fun _ => Untouched s₀) := by
  have hfirst : ∀ i < n, ∃ a, m.first = some a ∧ a.block < b := by
    intro i hi
    rcases hn with ⟨_, rfl⟩ | ⟨a, _, _, ha, _⟩
    · exact absurd hi (Nat.not_lt_zero i)
    · exact ⟨a, ha, by have := hs v m a hv ha; omega⟩
  refine Triple.bind (Triple.forUpto ?_) fun _ => ?_
  · intro i hi
    obtain ⟨a, ha, hlt⟩ := hfirst i hi
    exact relocating_round hv ha hb hlt
  · have hdone : Triple (Relocated s₀ m b c n) (forUpto n fun i => do
        let m ← members v
        destroyAt (← advance m.first i)) (fun _ => Relocated s₀ m b c n)
        (fun _ => Untouched s₀) := by
      refine Triple.forUpto (I := fun _ => Relocated s₀ m b c n) ?_
      intro i hi
      obtain ⟨a, ha, hlt⟩ := hfirst i hi
      refine .of_cases fun s k s' hs h => ?_
      obtain ⟨m', hm', h⟩ := bind_read_cases h
      rw [hs.vector, hv] at hm'
      cases hm'
      rcases bind_cases h with ⟨q, t, hq, hdestroy⟩ | ⟨_, hq, _⟩
      · rw [ha] at hq
        obtain ⟨rfl, ⟨heq, _⟩ | ⟨_, d, heq, _, _, rfl⟩⟩ := advance_cases hq
        · cases heq
        cases heq
        obtain ⟨rfl, hs'⟩ := update_cases hdestroy
        simp only [Option.bind_eq_bind, Option.bind_some,
          Option.bind_eq_some_iff] at hs'
        obtain ⟨d', _, hs'⟩ := hs'
        split at hs'
        · cases hs'
          have hne : b ≠ a.block := by omega
          exact .inl ⟨(), rfl, hs.of_block rfl (setBlock_block_ne hne _)⟩
        · cases hs'
      · obtain ⟨_, _, heq, _⟩ := read_cases hq
        cases heq
    exact hdone.weaken (fun s hs => ⟨hs.vector, hs.room⟩) (fun _ _ h => h)
      (fun _ _ h => h)

section Methods

variable [DecidableEq V]

/-- The new block, before anything is in it. -/
structure Room (s₀ : State V α) (b c : ℕ) (s : State V α) : Prop where
  untouched : Untouched s₀ s
  block : s.block b = some (.of c [])

omit [DecidableEq V] in
theorem Room.relocating (h : Room s₀ b c s) (hv : s₀.vector v = some m)
    (hs : Fresh s₀) : Relocating env s₀ m b c 0 s where
  vector := h.untouched.vector
  untouched := fun _ => h.untouched
  room := ⟨_, h.block, rfl, fun j hj => absurd hj (Nat.not_lt_zero j)⟩
  rest := by
    intro a d ha hd
    rw [h.untouched.block a.block (hs v m a hv ha)] at hd
    exact ⟨d, hd, rfl, fun _ _ => rfl⟩

/-- The end of `reserve`, from the swaps on. -/
theorem swap_triple {e : Pointer} (hv : s₀.vector v = some m)
    (hs₀ : Fresh s₀) (hsize : Returns (getSize v) s₀ n s₀)
    (hb : s₀.next ≤ b) (hn : n ≤ c) :
    Triple (Relocated s₀ m b c n) (do
      let old ← members v
      setMembers v ⟨some ⟨b, 0⟩, some ⟨b, n⟩, e⟩
      operatorDelete old.first) (fun _ => Same v s₀)
      (fun _ => Same v s₀) := by
  refine .of_cases fun s k s' hs h => ?_
  obtain ⟨old, hold, h⟩ := bind_read_cases h
  rw [hs.vector, hv] at hold
  cases hold
  obtain ⟨t, ht, h⟩ := bind_update_cases h
  cases ht
  obtain ⟨d, hd, hsize', hslots⟩ := hs.room
  have hmoved : ∀ t : State V α, t.vector v =
      some ⟨some ⟨b, 0⟩, some ⟨b, n⟩, e⟩ → t.block b = some d →
      Same v s₀ t := fun t htv htb =>
    same_of_moved hv hsize htv htb (by omega) hslots
  obtain ⟨rfl, hdelete⟩ := update_cases h
  refine .inl ⟨(), rfl, ?_⟩
  split at hdelete
  · cases hdelete
    exact hmoved _ (setVector_vector_self _) hd
  · next a ha =>
      split at hdelete
      · cases hdelete
        have hlt := hs₀ v m a hv ha
        refine hmoved _ (setVector_vector_self _) ?_
        rw [setBlock_block_ne (by omega)]
        exact hd
      · cases hdelete

omit [DecidableEq V] in
theorem getSize_untouched (hs₀ : Fresh s₀) :
    Triple (Untouched s₀) (getSize v) (fun n s =>
      Returns (getSize v) s₀ n s₀ ∧ Untouched s₀ s) (fun _ => Same v s₀) := by
  refine ⟨?_, ?_⟩
  · intro s size s' hs h
    obtain rfl := getSize_state h
    exact ⟨((hs.same hs₀ v).size size).2 h, hs⟩
  · intro s e s' hs h
    have hkeeps := (getSize_keeps (E := fun _ => Untouched s₀)).throws hs h
    exact hkeeps.same hs₀ v

omit [DecidableEq V] in
/-- The block the allocation returns is beyond those there were. -/
theorem operatorNew_untouched (hs₀ : Fresh s₀) (bytes : ℕ) :
    Triple (Untouched s₀) (operatorNew env bytes)
      (fun p s => ∃ b, p = some ⟨b, 0⟩ ∧ s₀.next ≤ b ∧ ∃ c, Room s₀ b c s)
      (fun _ => Same v s₀) := by
  refine operatorNew_triple ?_ ?_
  · intro s hs _
    refine ⟨s.next, rfl, hs.next, _, ⟨hs.vector, ?_, ?_⟩,
      allocate_block_self _⟩
    · exact Nat.le_succ_of_le hs.next
    · intro b hb
      have hlt := hs.next
      rw [allocate_block_ne _ (by omega)]
      exact hs.block b hb
  · intro s hs _
    have hrefused : Untouched s₀ s.refuse := ⟨hs.vector, hs.next, hs.block⟩
    exact hrefused.same hs₀ v

omit [DecidableEq V] in
theorem advance_room {b c size : ℕ} :
    Triple (Room s₀ b c) (advance (some ⟨b, 0⟩) size)
      (fun p s => (p = some ⟨b, size⟩ ∧ size ≤ c) ∧ Room s₀ b c s)
      (fun _ => Same v s₀) := by
  refine .of_cases fun s k s' hs h => ?_
  obtain ⟨p, _, rfl, rfl⟩ := read_cases h
  obtain ⟨_, ⟨heq, _⟩ | ⟨_, d, heq, hd, hle, rfl⟩⟩ := advance_cases h
  · cases heq
  · cases heq
    rw [hs.block] at hd
    cases hd
    rw [Nat.zero_add]
    exact .inl ⟨_, rfl, ⟨rfl, by simpa using hle⟩, hs⟩

/-- Whatever `reserve` throws, and where it returns, a caller reads what there
was. -/
theorem reserve_same (hs₀ : Fresh s₀) :
    Triple (Untouched s₀) (reserve env v n) (fun _ => Same v s₀)
      (fun _ => Same v s₀) := by
  have hsame : ∀ s, Untouched s₀ s → Same v s₀ s :=
    fun s hs => hs.same hs₀ v
  refine Triple.bind (getCapacity_keeps.weaken (fun _ hs => hs)
    (fun _ _ hs => hs) (fun _ => hsame)) fun c => ?_
  refine .ite (fun _ => .pure hsame) (fun _ => ?_)
  refine (getSize_untouched hs₀).bind fun size => .pure_pre fun hsize => ?_
  obtain ⟨m, hv, hspans⟩ := getSize_iff.1 hsize
  refine (operatorNew_untouched hs₀ _).bind fun newFirst => ?_
  refine .exists_pre fun b => .pure_pre fun hfirst => .pure_pre fun hb => ?_
  refine .exists_pre fun c => ?_
  subst hfirst
  refine advance_room.bind fun newLast => .pure_pre fun hlast => ?_
  obtain ⟨rfl, hle⟩ := hlast
  refine read_keeps.bind fun newEnd => ?_
  refine Triple.bind (Q := fun _ => Relocated s₀ m b c size)
    (Triple.rethrow (F := fun _ => Untouched s₀) ?_ ?_)
    (fun _ => swap_triple hv hs₀ hsize hb hle)
  · exact (relocate_triple hv hs₀ hspans hb).weaken
      (fun s hs => hs.relocating hv hs₀) (fun _ _ h => h) (fun _ _ h => h)
  · intro e
    refine .update fun s s' hs h => hsame s' ?_
    simp only at h
    split at h
    · cases h
      refine ⟨hs.vector, hs.next, ?_⟩
      intro b' hb'
      rw [setBlock_block_ne (by omega)]
      exact hs.block b' hb'
    · cases h

/-! ## `push_back` -/

omit [DecidableEq V] in
theorem constructCopy_untouched :
    Triple (Untouched s₀) (constructCopy env p r)
      (fun _ _ => True) (fun _ => Untouched s₀) := by
  refine Triple.bind (Q := fun _ _ => True) (copyOf_triple
    (fun _ _ _ _ _ => trivial) ?_) (fun _ => .update fun _ _ _ _ => trivial)
  exact fun s hs _ => ⟨hs.vector, hs.next, hs.block⟩

/-- The construction after `reserve`. -/
theorem growAndConstruct_same (hs₀ : Fresh s₀) :
    Triple (Untouched s₀) (growAndConstruct env v x) (fun _ _ => True)
      (fun _ => Same v s₀) := by
  have hsame : ∀ s, Untouched s₀ s → Same v s₀ s :=
    fun s hs => hs.same hs₀ v
  refine Triple.bind (getCapacity_keeps.weaken (fun _ hs => hs)
    (fun _ _ hs => hs) (fun _ => hsame)) fun c => ?_
  refine (reserve_same hs₀).bind fun _ => read_keeps.bind fun m => ?_
  refine .ite (fun _ => .update fun _ _ _ _ => trivial) (fun _ => ?_)
  refine Triple.bind (Q := fun _ _ => True) (copyOf_triple
    (fun _ _ _ _ _ => trivial) ?_) (fun _ => .update fun _ _ _ _ => trivial)
  exact fun s hs _ => hs.tally 1 0 0

theorem constructBack_same (hs₀ : Fresh s₀) :
    Triple (· = s₀) (constructBack env v r) (fun _ _ => True)
      (fun _ => Same v s₀) := by
  have hsame : ∀ s, Untouched s₀ s → Same v s₀ s :=
    fun s hs => hs.same hs₀ v
  refine read_keeps.bind fun m => .ite (fun _ => ?_) (fun _ => ?_)
  · have hcopy : Triple (· = s₀) (localCopy env r) (fun _ => Untouched s₀)
        (fun _ => Same v s₀) := by
      refine Triple.bind (Q := fun _ => Untouched s₀) (copyOf_triple ?_ ?_)
        (fun _ => .bind (Q := fun _ => Untouched s₀) (.update ?_)
          fun _ => .pure fun _ hs => hs)
      · intro s y hs _ _
        exact hs ▸ ⟨rfl, Nat.le_refl _, fun _ _ => rfl⟩
      · intro s hs _
        exact hs ▸ (Same.refl v s).tally 1 0 0
      · intro s s' hs h
        cases h
        exact ⟨hs.vector, hs.next, hs.block⟩
    refine hcopy.bind fun copy => (growAndConstruct_same hs₀).ensuring
      (fun _ => .update fun _ _ _ _ => trivial) (fun _ => .update ?_)
    intro s s' hs h
    cases h
    exact hs.tally 0 0 1
  · refine constructCopy_untouched.weaken ?_ (fun _ _ h => h)
      (fun _ => hsame)
    exact fun s hs => hs ▸ .refl s

/-- Whatever `push_back` throws, a caller reads what there was. -/
theorem pushBack_same (hs₀ : Fresh s₀) :
    Triple (· = s₀) (pushBack env v r) (fun _ _ => True)
      (fun _ => Same v s₀) := by
  refine (constructBack_same hs₀).bind fun _ => ?_
  exact read_keeps.bind fun m => read_keeps.bind fun last =>
    .update fun _ _ _ _ => trivial

end Methods

/-! ## What is thrown -/

/-- No copy constructor called since then throws. -/
def Copied (env : Env α) (s₀ s : State V α) : Prop :=
  s₀.copies ≤ s.copies ∧
    ∀ k, s₀.copies ≤ k → k < s.copies → env.copyThrows k = false

/-- Every call of `::operator new` since then made a block. -/
def Granted (s₀ s : State V α) : Prop :=
  s.next + s₀.allocations = s₀.next + s.allocations

def Calm (env : Env α) (s₀ s : State V α) : Prop :=
  Copied env s₀ s ∧ Granted s₀ s

/-- An exception is the one that was thrown. -/
def Blames (env : Env α) (s₀ : State V α) (e : Exception) (s : State V α) :
    Prop :=
  (e ≠ .element → Copied env s₀ s) ∧ (e ≠ .badAlloc → Granted s₀ s)

theorem Calm.blames (h : Calm env s₀ s) (e : Exception) :
    Blames env s₀ e s := ⟨fun _ => h.1, fun _ => h.2⟩

theorem outer_calm : Outer (Calm env s₀) := by
  intro s s' _ hnext hcopies halloc hs
  unfold Calm Copied Granted
  rw [hnext, hcopies, halloc]
  exact hs

theorem outer_blames (e : Exception) : Outer (Blames env s₀ e) := by
  intro s s' _ hnext hcopies halloc hs
  unfold Blames Copied Granted
  rw [hnext, hcopies, halloc]
  exact hs

theorem copyOf_calm (r : Ref α) :
    Triple (Calm env s₀) (copyOf env r) (fun _ => Calm env s₀)
      (Blames env s₀) := by
  refine copyOf_triple ?_ ?_
  · intro s x hs _ hc
    refine ⟨⟨Nat.le_succ_of_le hs.1.1, ?_⟩, hs.2⟩
    intro k hk hlt
    rcases Nat.lt_succ_iff_lt_or_eq.1 hlt with hlt | rfl
    · exact hs.1.2 k hk hlt
    · exact hc
  · exact fun s hs _ => ⟨fun hne => absurd rfl hne, fun _ => hs.2⟩

theorem operatorNew_calm :
    Triple (Calm env s₀) (operatorNew env n) (fun _ => Calm env s₀)
      (Blames env s₀) := by
  refine operatorNew_triple ?_ ?_
  · intro s hs _
    refine ⟨hs.1, ?_⟩
    have hgranted := hs.2
    unfold Granted at hgranted ⊢
    show s.next + 1 + _ = _ + (s.allocations + 1)
    omega
  · exact fun s hs _ => ⟨fun _ => hs.1, fun hne => absurd rfl hne⟩

section Methods

variable [DecidableEq V]

theorem setMembers_calm :
    Triple (Calm env s₀) (setMembers v m) (fun _ => Calm env s₀)
      (Blames env s₀) := by
  refine .update fun s s' hs h => ?_
  cases h
  exact hs

theorem reserve_calm :
    Triple (Calm env s₀) (reserve env v n) (fun _ => Calm env s₀)
      (Blames env s₀) := by
  refine getCapacity_keeps.bind fun _ => ?_
  refine .ite (fun _ => .pure fun _ hs => hs) (fun _ => ?_)
  refine getSize_keeps.bind fun size => operatorNew_calm.bind fun p => ?_
  refine read_keeps.bind fun newLast => read_keeps.bind fun newEnd => ?_
  refine Triple.bind ((relocate_keeps outer_calm copyOf_calm).rethrow
    fun e => (outer_blames e).operatorDelete) fun _ => ?_
  exact read_keeps.bind fun old => setMembers_calm.bind fun _ =>
    outer_calm.operatorDelete

theorem pushBack_calm :
    Triple (Calm env s₀) (pushBack env v r) (fun _ => Calm env s₀)
      (Blames env s₀) := by
  have hgrow : ∀ copy, Triple (Calm env s₀) (growAndConstruct env v copy)
      (fun _ => Calm env s₀) (Blames env s₀) := fun copy =>
    getCapacity_keeps.bind fun _ => reserve_calm.bind fun _ =>
      read_keeps.bind fun _ => constructLocal_keeps outer_calm copyOf_calm
  have hback : Triple (Calm env s₀) (constructBack env v r)
      (fun _ => Calm env s₀) (Blames env s₀) := by
    refine read_keeps.bind fun m => ?_
    refine .ite (fun _ => ?_)
      (fun _ => constructCopy_keeps outer_calm copyOf_calm)
    refine (localCopy_keeps outer_calm copyOf_calm).bind fun copy => ?_
    exact (hgrow copy).ensuring (fun _ => outer_calm.destroyLocal)
      (fun e => (outer_blames e).destroyLocal)
  exact hback.bind fun _ => read_keeps.bind fun m =>
    read_keeps.bind fun last => setMembers_calm

/-! ## The guarantee -/

/-- The operation is a `push_back` to the vector, or a `reserve` of it. -/
inductive Op.Grows (v : V) : Op V α → Prop where
  | pushBack (x : α) : Op.Grows v (.pushBack v x)
  | pushBackAt (other : V) (index : ℕ) :
      Op.Grows v (.pushBackAt v other index)
  | reserve (newCapacity : ℕ) : Op.Grows v (.reserve v newCapacity)

/-- If a copy constructor throws, or there is no storage, then that is what the
operation throws; and when it throws, the vector has the size and the elements
it had. -/
structure Strong (env : Env α) (s : State V α) (v : V) (op : Op V α) :
    Prop where
  copy : ∀ r s', exec env op s = some (r, s') → ∀ k, s.copies ≤ k →
    k < s'.copies → env.copyThrows k = true → r = .error .element
  storage : ∀ r s', exec env op s = some (r, s') → ¬ Granted s s' →
    r = .error .badAlloc
  same : ∀ e s', exec env op s = some (.error e, s') → Same v s s'

theorem Op.Grows.same {op : Op V α} (h : op.Grows v) (hs : Fresh s) :
    Triple (· = s) (exec env op) (fun _ _ => True) (fun _ => Same v s) := by
  have hdone : ∀ a : Unit, Triple (fun _ : State V α => True)
      (do pure Value.unit : Run V α (Value α)) (fun _ _ => True)
      (fun _ => Same v s) := fun _ => .pure fun _ h => h
  cases h with
  | pushBack x => exact (pushBack_same hs).bind hdone
  | pushBackAt w i =>
      refine Triple.bind (Triple.bind (at_keeps ?_) fun _ =>
        pushBack_same hs) hdone
      exact fun t ht => ht ▸ .refl v t
  | reserve n =>
      refine Triple.bind ((reserve_same hs).weaken ?_ (fun _ _ _ => trivial)
        (fun _ _ h => h)) hdone
      exact fun t ht => ht ▸ .refl t

theorem Op.Grows.calm {op : Op V α} (h : op.Grows v) :
    Triple (Calm env s₀) (exec env op) (fun _ => Calm env s₀)
      (Blames env s₀) := by
  cases h with
  | pushBack x => exact returning_keeps pushBack_calm
  | pushBackAt w i =>
      refine returning_keeps (Triple.bind ?_ fun _ => pushBack_calm)
      exact at_keeps fun _ hs => hs.blames _
  | reserve n => exact returning_keeps reserve_calm

theorem Op.Grows.strong {op : Op V α} (h : op.Grows v) (hs : Fresh s) :
    Strong env s v op := by
  have hcalm : Calm env s s :=
    ⟨⟨Nat.le_refl _, fun k hk hlt => absurd hlt (by omega)⟩, rfl⟩
  have hblames : ∀ r s', exec env op s = some (r, s') →
      (r ≠ .error .element → Copied env s s') ∧
        (r ≠ .error .badAlloc → Granted s s') := by
    intro r s' hexec
    cases r with
    | ok a =>
        have hend := h.calm.returns hcalm hexec
        exact ⟨fun _ => hend.1, fun _ => hend.2⟩
    | error e =>
        have hend := h.calm.throws hcalm hexec
        exact ⟨fun hne => hend.1 fun he => hne (by rw [he]),
          fun hne => hend.2 fun he => hne (by rw [he])⟩
  constructor
  case copy =>
    intro r s' hexec k hk hlt hthrow
    by_contra hne
    rw [((hblames r s' hexec).1 hne).2 k hk hlt] at hthrow
    cases hthrow
  case storage =>
    intro r s' hexec hrefused
    by_contra hne
    exact hrefused ((hblames r s' hexec).2 hne)
  case same =>
    intro e s' hexec
    exact (h.same hs).throws rfl hexec

/-- In every state a run reaches, whatever it has been through, `push_back` and
`reserve` have an effect or none. They are defined unless an assignment has
spoiled a vector or a number of bytes wraps and is granted. -/
theorem strong_guarantee (ops : List (Op V α)) (rs : List (Outcome α))
    (hrun : perform env ops .init = some (rs, s)) :
    (∀ v op, op.Grows v → Strong env s v op) ∧
    (Meets env (fun s op => Permitted env s op ∧ ¬ Spoils env s op) ops
      .init → ∀ v op, op.Grows v → Permitted env s op →
        ∃ r s', exec env op s = some (r, s')) := by
  refine ⟨fun v op h => h.strong ?_, ?_⟩
  · exact perform_fresh (fun v m a hv => by cases hv) hrun
  · intro hmeets v op h hop
    obtain ⟨_, _, hperform, L, hrep⟩ := (always_represents hmeets).performs
    rw [hrun] at hperform
    cases hperform
    have hspoil : ¬ Spoils env s op := by
      cases h <;> exact id
    obtain ⟨r, s', _, _, hleads⟩ := steps hrep hop hspoil
    exact ⟨r, s', hleads.run⟩

/-- The third `push_back` is thrown out of when one element is in the new block,
and the vector is left as it was. -/
theorem strong_guarantee_throwing : ∃ rs s s',
    perform (throwingEnv 6) [.construct (), .pushBack () 7, .pushBack () 8]
      (.init : State Unit ℕ) = some (rs, s) ∧
    exec (throwingEnv 6) (.pushBack () 9) s = some (.error .element, s') ∧
    Same () s s' := by
  have hcopies : ((perform (throwingEnv 6) [.construct (), .pushBack () 7,
      .pushBack () 8] (.init : State Unit ℕ)).bind fun p =>
        (exec (throwingEnv 6) (.pushBack () 9) p.2).map fun q =>
          (p.2.copies, q.2.copies)) = some (4, 7) := by decide +kernel
  obtain ⟨⟨rs, s⟩, hrun, hnext⟩ := Option.bind_eq_some_iff.1 hcopies
  obtain ⟨⟨r, s'⟩, hexec, heq⟩ := Option.map_eq_some_iff.1 hnext
  obtain ⟨hbefore, hafter⟩ : s.copies = 4 ∧ s'.copies = 7 := by
    simpa using heq
  have hstrong := (strong_guarantee _ _ hrun).1 () _ (.pushBack 9)
  obtain rfl := hstrong.copy r s' hexec 6 (by omega) (by omega) rfl
  exact ⟨rs, s, s', hrun, hexec, hstrong.same _ _ hexec⟩

end Methods

end LearningCpp.CustomVector
