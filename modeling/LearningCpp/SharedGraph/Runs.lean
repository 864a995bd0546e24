import LearningCpp.Lib.Triple
import LearningCpp.SharedGraph.Create
import LearningCpp.SharedGraph.Frame
import LearningCpp.SharedGraph.Release

/-!
# What holds between any two operations

Each operation that comes to an end keeps the invariant of the heap, whatever
the order they come in. Only a pointer that has no block yet is not of that
form: while its constructor deletes the object, nothing looks at it.
-/

namespace LearningCpp.SharedGraph

open LearningCpp.Lib Program
open LearningCpp.SharedPtr (Life SharedPointer)
open LearningCpp.UniquePtr (Layout)

variable {H O B : Type} {L : Layout H O} {s s' : State H O B} {h k : H}
  {p q : SharedPointer O B} {o : O} {fuel : ℕ} {loose pointer : Option O}
  {E : Exception → State H O B → Prop}

/-- The heap is in order, and there is fuel for all objects. -/
structure Sound (L : Layout H O) (fuel : ℕ) (loose : Option O)
    (s : State H O B) : Prop where
  heap : Heap L s ∅ loose
  alive : s.alive < fuel

variable [DecidableEq H]

theorem setHandle_eq_self {v : Option (SharedPointer O B)}
    (hh : s.handle h = v) : s.setHandle h v = s := by
  unfold State.setHandle
  rw [← hh, Function.update_eq_self]

/-- Where a handle that stands alone has no object, it may come, go or be
emptied. -/
theorem Sound.setEmpty (hs : Sound L fuel loose s) (hh : L.home h = none)
    (hbefore : ∀ p, s.handle h = some p → p.ptr = none)
    {v : Option (SharedPointer O B)} (hv : v = none ∨ v = some .null) :
    Sound L fuel loose (s.setHandle h v) := by
  refine ⟨hs.heap.setEmpty hbefore hv ?_ ?_, hs.alive⟩
  · intro o ho
    rw [hh] at ho
    cases ho
  · intro k o hk hne
    have hkh : k ≠ h := by
      rintro rfl
      rw [hh] at hk
      cases hk
    rw [setHandle_of_ne _ hkh] at hne
    exact hs.heap.home k o hk hne

theorem Sound.exchange (hs : Sound L fuel loose s) (hh : s.handle h = some p)
    (hk : s.handle k = some q) : Sound L fuel loose
      ((s.setHandle h (some q)).setHandle k (some p)) := by
  rcases eq_or_ne h k with rfl | hne
  · rw [hh] at hk
    cases hk
    rwa [setHandle_eq_self hh, setHandle_eq_self hh]
  · exact ⟨hs.heap.exchange hne hh hk, hs.alive⟩

/-! ## Handles -/

theorem sound_default (hh : L.home h = none) :
    Triple (Sound (B := B) L fuel loose) (defaultConstructor h)
      (fun _ s => Sound L fuel loose s ∧ s.handle h = some .null) E := by
  refine .update ?_
  intro s s' hs hs'
  split at hs'
  · next hnone =>
      cases hs'
      refine ⟨hs.setEmpty hh (fun p hp => ?_) (.inr rfl), setHandle_self _ _ _⟩
      rw [hnone] at hp
      cases hp
  · cases hs'

theorem sound_steal (h k : H) :
    Triple (fun s : State H O B => Sound L fuel none s ∧
      ∀ p, s.handle h = some p → p = .null) (steal h k)
      (fun _ => Sound L fuel none) E := by
  refine .of_cases fun s r s' hs hrun => ?_
  obtain ⟨hs, hnull⟩ := hs
  obtain ⟨p, hp, hrun⟩ := bind_read_cases hrun
  obtain ⟨t, ht, hrun⟩ := bind_update_cases hrun
  rw [hp] at ht
  cases ht
  obtain ⟨rfl, hs'⟩ := update_cases hrun
  obtain ⟨q, hq, rfl⟩ := Option.map_eq_some_iff.1 hs'
  have hlive : s.handle h = some .null := by
    rcases eq_or_ne h k with rfl | hne
    · rw [hp, hnull p hp]
    · rw [setHandle_of_ne _ hne] at hq
      rw [hq, hnull q hq]
  exact .inl ⟨(), rfl, hs.exchange hp hlive⟩

theorem sound_moveConstructor (hh : L.home h = none) (k : H) :
    Triple (Sound (B := B) L fuel none) (moveConstructor h k)
      (fun _ => Sound L fuel none) E := by
  refine (sound_default hh).bind fun _ => (sound_steal h k).weaken ?_
    (fun _ _ hs => hs) (fun _ _ hE => hE)
  intro s hs
  refine ⟨hs.1, fun p hp => ?_⟩
  rw [hs.2] at hp
  exact (Option.some.inj hp).symm

theorem sound_swap (h k : H) :
    Triple (Sound (B := B) L fuel none) (swap h k)
      (fun _ => Sound L fuel none) E := by
  refine .of_cases fun s r s' hs hrun => ?_
  obtain ⟨p, hp, hrun⟩ := bind_read_cases hrun
  obtain ⟨q, hq, hrun⟩ := bind_read_cases hrun
  obtain ⟨t, ht, hrun⟩ := bind_update_cases hrun
  rw [hp] at ht
  cases ht
  obtain ⟨rfl, hs'⟩ := update_cases hrun
  obtain ⟨_, _, rfl⟩ := Option.map_eq_some_iff.1 hs'
  exact .inl ⟨(), rfl, hs.exchange hp hq⟩

/-- The handle whose constructor throws ends. -/
theorem end_throws (hh : s.handle h = none) (p : SharedPointer O B) :
    Throws (end_ h >>= fun _ => throw .badAlloc : Run H O B Unit)
      (s.setHandle h (some p)) .badAlloc s := by
  have hend := end_returns (s := s.setHandle h (some p)) (h := h)
    (by rw [setHandle_self]; simp)
  have hback : (s.setHandle h (some p)).setHandle h none = s := by
    unfold State.setHandle
    rw [Function.update_idem, ← hh, Function.update_eq_self]
  rw [hback] at hend
  exact hend.bind_throws rfl

variable [DecidableEq B]

theorem sound_copyAndIncrement (hh : L.home h = none) (k : H) :
    Triple (fun s : State H O B => Sound L fuel none s ∧
      s.handle h = some .null) (copyAndIncrement h k)
      (fun _ => Sound L fuel none) E := by
  refine .of_cases fun s r s' hs hrun => ?_
  obtain ⟨hs, hnull⟩ := hs
  obtain ⟨⟨ptr, cb⟩, hp, hrun⟩ := bind_read_cases hrun
  obtain ⟨t, ht, hrun⟩ := bind_update_cases hrun
  rw [hnull] at ht
  cases ht
  cases cb with
  | none =>
      cases hrun
      have hptr : ptr = none := by
        refine Option.eq_none_iff_forall_ne_some.2 fun o ho => ?_
        subst ho
        obtain ⟨_, b, hb, _⟩ := hs.heap.full k o _ hp
        cases hb
      subst hptr
      refine .inl ⟨(), rfl, hs.setEmpty hh (fun q hq => ?_) (.inr rfl)⟩
      rw [hnull] at hq
      cases hq
      rfl
  | some b =>
      obtain ⟨b', hb', hrun⟩ := bind_read_cases hrun
      have hbb : b = b' := by
        by_cases halive : s.block b = .alive
        · exact Option.some.inj ((if_pos halive).symm.trans hb')
        · exact absurd ((if_neg halive).symm.trans hb') (by simp)
      subst hbb
      obtain ⟨rfl, hs'⟩ := update_cases hrun
      cases hs'
      exact .inl ⟨(), rfl, hs.heap.share hnull hp, hs.alive⟩

theorem sound_copyConstructor (hh : L.home h = none) (k : H) :
    Triple (Sound (B := B) L fuel none) (copyConstructor h k)
      (fun _ => Sound L fuel none) E :=
  (sound_default hh).bind fun _ => sound_copyAndIncrement hh k

variable [DecidableEq O]

theorem sound_release (L : Layout H O) (fuel : ℕ) (h : H) :
    Triple (Sound (B := B) L fuel none) (release L fuel h)
      (fun _ s => Sound L fuel none s ∧ ∀ p, s.handle h = some p → p = .null)
      E := by
  refine .of_cases fun s r s' hs hrun => ?_
  have hh : s.handle h ≠ none := by
    cases fuel with
    | zero => cases hrun
    | succ fuel =>
        obtain ⟨p, hp, _⟩ := bind_read_cases hrun
        simp [hp]
  obtain ⟨t, ht⟩ := sufficient L fuel s ∅ h hs.heap hh hs.alive
  cases hrun.symm.trans ht.run
  refine .inl ⟨(), rfl, ⟨ht.heap, ?_⟩, ?_⟩
  · exact Nat.lt_of_le_of_lt (ht.falls.alive_le hs.heap) hs.alive
  · intro p hp
    rcases ht.falls.emptied h rfl with heq | hnone
    · rw [hp] at heq
      exact Option.some.inj heq
    · rw [hp] at hnone
      cases hnone

theorem sound_destructor (hh : L.home h = none) :
    Triple (Sound (B := B) L fuel none) (destructor L fuel h)
      (fun _ => Sound L fuel none) E := by
  refine (sound_release L fuel h).bind fun _ => .update ?_
  intro s s' hs hs'
  obtain ⟨p, _, rfl⟩ := Option.map_eq_some_iff.1 hs'
  refine hs.1.setEmpty hh (fun q hq => ?_) (.inl rfl)
  rw [hs.2 q hq]
  rfl

omit [DecidableEq H] [DecidableEq B] in
theorem sound_newObject (pointer : Option O) :
    Triple (fun s : State H O B => Heap L s ∅ none ∧ s.alive + 1 < fuel)
      (newObject L pointer) (fun _ => Sound L fuel pointer) E := by
  cases pointer with
  | none => exact .pure fun s hs => ⟨hs.1, by omega⟩
  | some o =>
      refine .update fun s s' hs hs' => ?_
      split at hs'
      · next ho =>
          cases hs'
          refine ⟨hs.1.newObject ho, Nat.lt_of_le_of_lt ?_ hs.2⟩
          refine (Set.ncard_le_ncard (t := insert o {x | s.object x = .alive})
            (fun x hx => alive_newObject.1 hx) (hs.1.finite.insert o)).trans ?_
          exact Set.ncard_insert_le o _
      · cases hs'

/-- `delete`, while a handle has the pointer and no block. -/
theorem Sound.deleteApart (hs : Sound L fuel (some o) s)
    (hh : s.handle h = none) (p : SharedPointer O B) :
    ∃ t, Returns (deleteObject L (SharedGraph.destructor L fuel) o)
      (s.setHandle h (some p)) () (t.setHandle h (some p)) ∧
      t.handle h = none ∧ Sound L fuel none t := by
  obtain ⟨t, hrun, ht, hfalls, _⟩ := (sufficient L fuel).deleteObject hs.heap
    ((alive_deleteObject_lt hs.heap).trans hs.alive)
  have hframe := apart_deleteObject (L := L) (h := h) (p := p) fuel
    (apart_release fuel) o
  exact ⟨t, hframe.commutes hh hrun, hframe.keeps hh hrun, ht,
    Nat.lt_of_le_of_lt (hfalls.alive_le hs.heap) hs.alive⟩

theorem sound_fromPointer (hhome : L.home h = none) (block : Option B) :
    Triple (Sound L fuel pointer) (fromPointer L fuel h pointer block)
      (fun _ => Sound L fuel none) (fun _ => Sound L fuel none) := by
  refine .of_cases fun s r s' hs hrun => ?_
  obtain ⟨t, ht, hrun⟩ := bind_update_cases hrun
  have hh : s.handle h = none := by
    split at ht
    · next hnone => exact hnone
    · cases ht
  rw [hh] at ht
  cases ht
  cases block with
  | some b =>
      obtain ⟨t, ht, hrun⟩ := bind_update_cases hrun
      obtain ⟨rfl, hs'⟩ := update_cases hrun
      obtain ⟨p, _, rfl⟩ := Option.map_eq_some_iff.1 hs'
      split at ht
      · next hb =>
          cases ht
          refine .inl ⟨(), rfl, ?_⟩
          have hattach := hs.heap.attach hh hhome hb
          rw [← attach_eq] at hattach
          exact ⟨hattach, hs.alive⟩
      · cases ht
  | none =>
      cases pointer with
      | none =>
          cases hrun.symm.trans (end_throws hh _)
          exact .inr ⟨.badAlloc, rfl, hs⟩
      | some o =>
          obtain ⟨t, hdelete, hend, ht⟩ := hs.deleteApart hh ⟨some o, none⟩
          cases hrun.symm.trans (hdelete.bind_throws (end_throws hend _))
          exact .inr ⟨.badAlloc, rfl, ht⟩

/-! ## Operations -/

theorem sound_moveAssign (h k : H) :
    Triple (Sound (B := B) L fuel none) (moveAssign L fuel h k)
      (fun _ => Sound L fuel none) E :=
  .ite (fun _ => .pure fun _ hs => hs)
    fun _ => (sound_release L fuel h).bind fun _ => sound_steal h k

theorem sound_copyAssign {tmp : H} (htmp : L.home tmp = none) (h k : H) :
    Triple (Sound (B := B) L fuel none) (copyAssign L fuel h k tmp)
      (fun _ => Sound L fuel none) E :=
  .ite (fun _ => .pure fun _ hs => hs)
    fun _ => (sound_copyConstructor htmp k).bind
      fun _ => (sound_swap h tmp).bind fun _ => sound_destructor htmp

theorem sound_assignPointer {arg : H} (harg : L.home arg = none) (tmp : H)
    (block : Option B) :
    Triple (Sound L fuel pointer) (assignPointer L fuel tmp arg pointer block)
      (fun _ => Sound L fuel none) (fun _ => Sound L fuel none) :=
  (sound_fromPointer harg block).bind fun _ =>
    (sound_moveAssign tmp arg).bind fun _ => sound_destructor harg

theorem sound_reset {tmp arg : H} (htmp : L.home tmp = none)
    (harg : L.home arg = none) (h : H) (block : Option B) :
    Triple (Sound L fuel pointer) (reset L fuel h pointer block tmp arg)
      (fun _ => Sound L fuel none) (fun _ => Sound L fuel none) := by
  have hend : Triple (Sound (B := B) L fuel none)
      (do
        swap h tmp
        destructor L fuel tmp)
      (fun _ => Sound L fuel none) (fun _ => Sound L fuel none) :=
    (sound_swap h tmp).bind fun _ => sound_destructor htmp
  refine (sound_default htmp).bind fun _ => ?_
  cases pointer with
  | none =>
      refine hend.weaken ?_ (fun _ _ hs => hs) (fun _ _ hs => hs)
      exact fun s hs => hs.1
  | some o =>
      refine Triple.bind (.rethrow ?_ fun _ => sound_destructor htmp)
        fun _ => hend
      refine (sound_assignPointer harg tmp block).weaken ?_
        (fun _ _ hs => hs) (fun _ _ hs => hs)
      exact fun s hs => hs.1

/-- However it ends, an operation keeps the invariant. -/
theorem sound_exec {op : Op H O B} (hop : ∀ h ∈ op.fresh, L.home h = none)
    (hdestroy : ∀ h, op = .destroy h → L.home h = none) :
    Triple (fun s => Heap L s ∅ none ∧ s.alive + 1 < fuel) (exec L fuel op)
      (fun _ => Sound L fuel none) (fun _ => Sound L fuel none) := by
  have hpre : ∀ {s : State H O B}, Heap L s ∅ none ∧ s.alive + 1 < fuel →
      Sound L fuel none s := fun hs => ⟨hs.1, by omega⟩
  have hkeep : ∀ {c : Run H O B Unit}, Triple (Sound L fuel none) c
      (fun _ => Sound L fuel none) (fun _ => Sound L fuel none) →
      Triple (fun s => Heap L s ∅ none ∧ s.alive + 1 < fuel) c
        (fun _ => Sound L fuel none) (fun _ => Sound L fuel none) :=
    fun hc => hc.weaken (fun _ => hpre) (fun _ _ hs => hs) (fun _ _ hs => hs)
  cases op with
  | construct h =>
      exact hkeep ((sound_default (hop h (by simp [Op.fresh]))).weaken
        (fun _ hs => hs) (fun _ _ hs => hs.1) (fun _ _ hs => hs))
  | fromPointer h pointer block =>
      exact (sound_newObject pointer).bind fun _ =>
        sound_fromPointer (hop h (by simp [Op.fresh])) block
  | copyConstruct h other =>
      exact hkeep (sound_copyConstructor (hop h (by simp [Op.fresh])) other)
  | moveConstruct h other =>
      exact hkeep (sound_moveConstructor (hop h (by simp [Op.fresh])) other)
  | copyAssign h other tmp =>
      exact hkeep (sound_copyAssign (hop tmp (by simp [Op.fresh])) h other)
  | moveAssign h other => exact hkeep (sound_moveAssign h other)
  | reset h pointer block tmp arg =>
      exact (sound_newObject pointer).bind fun _ =>
        sound_reset (hop tmp (by simp [Op.fresh])) (hop arg (by simp [Op.fresh]))
          h block
  | destroy h => exact hkeep (sound_destructor (hdestroy h rfl))

theorem Heap.step (hs : Heap L s ∅ none) (hstep : Step L s s') :
    Heap L s' ∅ none := by
  obtain ⟨op, r, n, hallowed, hrun⟩ := hstep
  obtain ⟨fuel, hn, halive⟩ : ∃ fuel, n ≤ fuel ∧ s.alive + 1 < fuel :=
    ⟨max n (s.alive + 2), by omega, by omega⟩
  have hexec : Triple (fun s : State H O B => Heap L s ∅ none ∧
      s.alive + 1 < fuel) (exec L fuel op) (fun _ => Sound L fuel none)
      (fun _ => Sound L fuel none) :=
    sound_exec (fun h hh => (hallowed.fresh h hh).2) hallowed.destroy
  cases r with
  | ok a => exact (hexec.returns ⟨hs, halive⟩ (hrun fuel hn)).heap
  | error e => exact (hexec.throws ⟨hs, halive⟩ (hrun fuel hn)).heap

theorem Heap.of_reachable (h : Reachable L s) : Heap L s ∅ none := by
  induction h with
  | refl => exact heap_init L
  | tail _ hstep ih => exact ih.step hstep

end LearningCpp.SharedGraph
