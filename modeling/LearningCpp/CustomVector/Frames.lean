import LearningCpp.CustomVector.Runs
import LearningCpp.Lib.Triple

/-!
# What an operation leaves alone, in any state

The lemmas that run an operation need a state that represents lists. What is
here needs nothing: whatever the state, if the operation is defined then the
primitives that work on storage change neither the members of the vectors nor
the numbers of the calls that can fail. So the blocks of the vectors have
numbers that `::operator new` is past, in every state a run reaches.
-/

namespace LearningCpp.CustomVector

open LearningCpp.Lib Program

variable {V α β : Type} {env : Env α} {I : State V α → Prop}
  {E : Exception → State V α → Prop} {p q : Pointer} {v w : V} {m : Members}
  {r : Ref α} {x : α} {n : ℕ}

/-! ## Primitives -/

/-- The invariant is not about what is in the blocks, nor about how many
elements there have been. -/
def Outer (I : State V α → Prop) : Prop :=
  ∀ s s' : State V α, s'.vector = s.vector → s'.next = s.next →
    s'.copies = s.copies → s'.allocations = s.allocations → I s → I s'

theorem read_keeps {f : State V α → Option β} :
    Triple I (read f : Run V α β) (fun _ => I) E :=
  .read fun _ _ hs _ => hs

theorem Outer.constructAt (hI : Outer I) :
    Triple I (constructAt p x) (fun _ => I) E := by
  refine .update fun s s' hs h => ?_
  simp only [Option.bind_eq_bind, Option.bind_eq_some_iff] at h
  obtain ⟨a, _, d, _, h⟩ := h
  split at h
  · cases h
    exact hI s _ rfl rfl rfl rfl hs
  · cases h

theorem Outer.destroyAt (hI : Outer I) :
    Triple I (destroyAt p) (fun _ => I) E := by
  refine .update fun s s' hs h => ?_
  simp only [Option.bind_eq_bind, Option.bind_eq_some_iff] at h
  obtain ⟨a, _, d, _, h⟩ := h
  split at h
  · cases h
    exact hI s _ rfl rfl rfl rfl hs
  · cases h

theorem Outer.moveOut (hI : Outer I) :
    Triple I (moveOut env p) (fun _ => I) E := by
  refine .update fun s s' hs h => ?_
  simp only [Option.bind_eq_bind, Option.bind_eq_some_iff] at h
  obtain ⟨a, _, d, _, y, _, h⟩ := h
  cases h
  exact hI s _ rfl rfl rfl rfl hs

theorem Outer.operatorDelete (hI : Outer I) :
    Triple I (operatorDelete p) (fun _ => I) E := by
  refine .update fun s s' hs h => ?_
  cases p with
  | none =>
      cases h
      exact hs
  | some a =>
      simp only at h
      split at h
      · cases h
        exact hI s _ rfl rfl rfl rfl hs
      · cases h

theorem Outer.destroyLocal (hI : Outer I) :
    Triple I destroyLocal (fun _ => I) E := by
  refine .update fun s s' hs h => ?_
  cases h
  exact hI s _ rfl rfl rfl rfl hs

/-- The copy constructor is called, and that is the only change. -/
theorem copyOf_triple {Q : α → State V α → Prop}
    (hok : ∀ s x, I s → Returns (deref r) s x s →
      env.copyThrows s.copies = false → Q x (s.tally 1 0 0))
    (hthrow : ∀ s, I s → env.copyThrows s.copies = true →
      E .element (s.tally 1 0 0)) :
    Triple I (copyOf env r) Q E := by
  have hderef : Triple I (deref r)
      (fun x s => I s ∧ Returns (deref r) s x s) E := by
    cases r with
    | outside y => exact .pure fun _ hs => ⟨hs, rfl⟩
    | slot p => exact .read fun _ _ hs h => ⟨hs, .read h⟩
  refine hderef.bind fun x => ⟨?_, ?_⟩
  · intro s a s' hs h
    unfold Returns at h
    dsimp only at h
    split at h
    · cases h
    · next hc =>
        cases h
        exact hok s x hs.1 hs.2 (Bool.eq_false_of_not_eq_true hc)
  · intro s e s' hs h
    unfold Throws at h
    dsimp only at h
    split at h
    · next hc =>
        cases h
        exact hthrow s hs.1 hc
    · cases h

theorem operatorNew_triple {Q : Pointer → State V α → Prop}
    (hok : ∀ s, I s → env.newThrows s.allocations n = false →
      Q (some ⟨s.next, 0⟩) (s.allocate (n / env.sizeof)))
    (hthrow : ∀ s, I s → env.newThrows s.allocations n = true →
      E .badAlloc s.refuse) :
    Triple I (operatorNew env n) Q E := by
  refine ⟨?_, ?_⟩
  · intro s a s' hs h
    unfold Returns CustomVector.operatorNew at h
    split at h
    · cases h
    · next hc =>
        cases h
        exact hok s hs (Bool.eq_false_of_not_eq_true hc)
  · intro s e s' hs h
    unfold Throws CustomVector.operatorNew at h
    split at h
    · next hc =>
        cases h
        exact hthrow s hs hc
    · cases h

theorem initialized_keeps :
    Triple I (initialized v : Run V α Bool) (fun _ => I) E :=
  Triple.bind read_keeps fun _ => .pure fun _ hs => hs

theorem getSize_keeps : Triple I (getSize v : Run V α ℕ) (fun _ => I) E := by
  refine Triple.bind initialized_keeps fun _ => ?_
  refine .ite (fun _ => .pure fun _ hs => hs) (fun _ => ?_)
  exact read_keeps.bind fun _ => read_keeps

theorem getCapacity_keeps :
    Triple I (getCapacity v : Run V α ℕ) (fun _ => I) E := by
  refine Triple.bind initialized_keeps fun _ => ?_
  refine .ite (fun _ => .pure fun _ hs => hs) (fun _ => ?_)
  exact read_keeps.bind fun _ => read_keeps

theorem at_keeps (hE : ∀ s, I s → E (.outOfRange "Index out of range") s) :
    Triple I (at_ v n : Run V α Pointer) (fun _ => I) E := by
  refine getSize_keeps.bind fun _ => ?_
  refine .ite (fun _ => .throw hE) (fun _ => ?_)
  exact read_keeps.bind fun _ => read_keeps

/-! ## Constructions -/

section Constructions

variable (hI : Outer I)
  (hcopy : ∀ r : Ref α, Triple I (copyOf env r) (fun _ => I) E)

include hI hcopy

theorem constructCopy_keeps :
    Triple I (constructCopy env p r) (fun _ => I) E :=
  (hcopy r).bind fun _ => hI.constructAt

theorem constructMoved_keeps :
    Triple I (constructMoved env p q) (fun _ => I) E := by
  refine .ite (fun _ => ?_) (fun _ => constructCopy_keeps hI hcopy)
  exact read_keeps.bind fun _ => hI.constructAt.bind fun _ => hI.moveOut

theorem localCopy_keeps : Triple I (localCopy env r) (fun _ => I) E := by
  refine (hcopy r).bind fun _ => .bind (Q := fun _ => I) ?_ ?_
  · refine .update fun s s' hs h => ?_
    cases h
    exact hI s _ rfl rfl rfl rfl hs
  · exact fun _ => .pure fun _ hs => hs

theorem constructLocal_keeps :
    Triple I (constructLocal env p x) (fun _ => I) E :=
  .ite (fun _ => hI.constructAt) (fun _ => constructCopy_keeps hI hcopy)

theorem relocate_keeps :
    Triple I (relocate env v n p) (fun _ => I) E := by
  refine Triple.bind (Triple.forUpto (I := fun _ => I) ?_)
    (fun _ => Triple.forUpto (I := fun _ => I) ?_)
  · intro i _
    exact read_keeps.bind fun _ => read_keeps.bind fun _ =>
      read_keeps.bind fun _ => constructMoved_keeps hI hcopy
  · intro i _
    exact read_keeps.bind fun _ => read_keeps.bind fun _ => hI.destroyAt

end Constructions

/-! ## The blocks of the vectors -/

/-- `::operator new` is past the block of every vector. -/
def Fresh (s : State V α) : Prop :=
  ∀ v m a, s.vector v = some m → m.first = some a → a.block < s.next

/-- It is past the block of a pointer too. -/
def FreshFor (p : Pointer) (s : State V α) : Prop :=
  Fresh s ∧ ∀ a, p = some a → a.block < s.next

theorem outer_fresh : Outer (Fresh : State V α → Prop) := by
  intro s s' hvector hnext _ _ hs v m a hv ha
  rw [hvector] at hv
  rw [hnext]
  exact hs v m a hv ha

theorem outer_freshFor : Outer (FreshFor p : State V α → Prop) := by
  intro s s' hvector hnext hcopies halloc hs
  refine ⟨outer_fresh s s' hvector hnext hcopies halloc hs.1, ?_⟩
  rw [hnext]
  exact hs.2

theorem copyOf_fresh (r : Ref α) :
    Keeps (Fresh : State V α → Prop) (copyOf env r) :=
  copyOf_triple (fun _ _ hs _ _ => hs) (fun _ hs _ => hs)

theorem copyOf_freshFor (r : Ref α) :
    Triple (FreshFor p : State V α → Prop) (copyOf env r)
      (fun _ => FreshFor p) (fun _ => FreshFor p) :=
  copyOf_triple (fun _ _ hs _ _ => hs) (fun _ hs _ => hs)

theorem operatorNew_fresh :
    Triple Fresh (operatorNew env n)
      (fun p => (FreshFor p : State V α → Prop)) (fun _ => Fresh) := by
  refine operatorNew_triple ?_ (fun _ hs _ => hs)
  intro s hs _
  have hlt : s.next < s.next + 1 := Nat.lt_succ_self _
  refine ⟨?_, ?_⟩
  · intro v m a hv ha
    exact Nat.lt_trans (hs v m a hv ha) hlt
  · intro a ha
    cases ha
    exact hlt

theorem members_fresh :
    Triple Fresh (members v)
      (fun m => (FreshFor m.first : State V α → Prop)) E :=
  .read fun _ m hs hm => ⟨hs, fun a ha => hs v m a hm ha⟩

section Members

variable [DecidableEq V]

theorem Fresh.setVector {s : State V α} (hs : Fresh s) {k : Option Members}
    (hk : ∀ m a, k = some m → m.first = some a → a.block < s.next) :
    Fresh (s.setVector v k) := by
  intro u m a hu ha
  rcases eq_or_ne u v with rfl | hne
  · rw [setVector_vector_self] at hu
    exact hk m a hu ha
  · rw [setVector_vector_ne hne] at hu
    exact hs u m a hu ha

theorem setMembers_fresh (hp : m.first = p) :
    Triple (FreshFor p) (setMembers v m)
      (fun _ => (Fresh : State V α → Prop)) E := by
  refine .update fun s s' hs h => ?_
  cases h
  refine hs.1.setVector ?_
  intro m' a hm ha
  cases hm
  exact hs.2 a (hp ▸ ha)

theorem popBack_fresh : Keeps (Fresh : State V α → Prop) (popBack v) := by
  refine getSize_keeps.bind fun _ => ?_
  refine .ite (fun _ => .throw fun _ hs => hs) (fun _ => ?_)
  refine members_fresh.bind fun m => read_keeps.bind fun last => ?_
  refine Triple.bind (setMembers_fresh rfl) fun _ => ?_
  exact outer_fresh.destroyAt

theorem clear_fresh : Keeps (Fresh : State V α → Prop) (clear v) := by
  have hloop : ∀ rounds, Keeps (Fresh : State V α → Prop)
      (clearLoop v rounds) := by
    intro rounds
    induction rounds with
    | zero => exact .undefined
    | succ rounds ih =>
        refine getSize_keeps.bind fun _ => ?_
        refine .ite (fun _ => .pure fun _ hs => hs) (fun _ => ?_)
        exact popBack_fresh.bind fun _ => ih
  exact getSize_keeps.bind fun _ => hloop _

theorem reserve_fresh :
    Keeps (Fresh : State V α → Prop) (reserve env v n) := by
  refine getCapacity_keeps.bind fun _ => ?_
  refine .ite (fun _ => .pure fun _ hs => hs) (fun _ => ?_)
  refine getSize_keeps.bind fun size => ?_
  refine operatorNew_fresh.bind fun newFirst => ?_
  refine read_keeps.bind fun newLast => read_keeps.bind fun newEnd => ?_
  refine Triple.bind (Q := fun _ => FreshFor newFirst)
    (Triple.rethrow (F := fun _ => FreshFor newFirst)
      (relocate_keeps outer_freshFor copyOf_freshFor) ?_) (fun _ => ?_)
  · exact fun _ => outer_freshFor.operatorDelete.weaken (fun _ hs => hs)
      (fun _ _ hs => hs.1) (fun _ _ hs => hs)
  · refine read_keeps.bind fun old => ?_
    refine Triple.bind (setMembers_fresh rfl) fun _ => ?_
    exact outer_fresh.operatorDelete

theorem pushBack_fresh :
    Keeps (Fresh : State V α → Prop) (pushBack env v r) := by
  have hgrow : ∀ copy, Keeps (Fresh : State V α → Prop)
      (growAndConstruct env v copy) := fun copy =>
    getCapacity_keeps.bind fun _ => reserve_fresh.bind fun _ =>
      read_keeps.bind fun _ => constructLocal_keeps outer_fresh copyOf_fresh
  have hback : Keeps (Fresh : State V α → Prop) (constructBack env v r) := by
    refine read_keeps.bind fun m => ?_
    refine .ite (fun _ => ?_)
      (fun _ => constructCopy_keeps outer_fresh copyOf_fresh)
    refine (localCopy_keeps outer_fresh copyOf_fresh).bind fun copy => ?_
    exact (hgrow copy).ensuring (fun _ => outer_fresh.destroyLocal)
      (fun _ => outer_fresh.destroyLocal)
  exact hback.bind fun _ => members_fresh.bind fun m =>
    read_keeps.bind fun last => setMembers_fresh rfl

theorem copyFrom_fresh :
    Keeps (Fresh : State V α → Prop) (copyFrom env v w) := by
  refine getSize_keeps.bind fun _ => ?_
  refine operatorNew_fresh.bind fun newFirst => ?_
  refine getSize_keeps.bind fun _ => read_keeps.bind fun newLast => ?_
  refine getSize_keeps.bind fun _ => read_keeps.bind fun newEnd => ?_
  refine Triple.bind (Q := fun _ => FreshFor newFirst)
    (Triple.rethrow (F := fun _ => FreshFor newFirst) ?_ ?_)
    (fun _ => setMembers_fresh rfl)
  · refine getSize_keeps.bind fun _ => Triple.bind (Triple.forUpto
      (I := fun _ => FreshFor newFirst) ?_) fun _ => getSize_keeps.bind
        fun _ => Triple.forUpto (I := fun _ => FreshFor newFirst) ?_
    · intro i _
      exact read_keeps.bind fun _ => read_keeps.bind fun _ =>
        outer_freshFor.destroyAt
    · intro i _
      refine read_keeps.bind fun _ => ?_
      refine Triple.bind (at_keeps fun _ hs => hs) fun _ => ?_
      exact constructCopy_keeps outer_freshFor copyOf_freshFor
  · exact fun _ => outer_freshFor.operatorDelete.weaken (fun _ hs => hs)
      (fun _ _ hs => hs.1) (fun _ _ hs => hs)

theorem stealFrom_fresh :
    Keeps (Fresh : State V α → Prop) (stealFrom v w) := by
  refine members_fresh.bind fun m => (setMembers_fresh rfl).bind fun _ => ?_
  refine (setMembers_fresh (p := none) rfl).weaken (fun s hs => ⟨hs, ?_⟩)
    (fun _ _ hs => hs) (fun _ _ hs => hs)
  intro a ha
  cases ha

theorem destructor_fresh :
    Keeps (Fresh : State V α → Prop) (destructor v) := by
  refine initialized_keeps.bind fun _ => ?_
  refine .ite (fun _ => .pure fun _ hs => hs) (fun _ => ?_)
  exact clear_fresh.bind fun _ => read_keeps.bind fun _ =>
    outer_fresh.operatorDelete

theorem vanish_fresh : Keeps (Fresh : State V α → Prop) (vanish v) := by
  refine .update fun s s' hs h => ?_
  obtain ⟨_, _, rfl⟩ := Option.map_eq_some_iff.1 h
  exact hs.setVector fun m a hm => by cases hm

theorem constructing_fresh {body : Run V α Unit}
    (hbody : Keeps (Fresh : State V α → Prop) body) :
    Keeps (Fresh : State V α → Prop) (constructing v body) := by
  refine Triple.bind (Q := fun _ => Fresh) ?_
    (fun _ => hbody.rethrow fun _ => vanish_fresh)
  refine .update fun s s' hs h => ?_
  split at h
  · cases h
    refine hs.setVector ?_
    intro m a hm ha
    cases hm
    cases ha
  · cases h

omit [DecidableEq V] in
theorem returning_keeps {I : State V α → Prop}
    {E : Exception → State V α → Prop} {c : Run V α Unit}
    (h : Triple I c (fun _ => I) E) :
    Triple I (returning c) (fun _ => I) E :=
  h.bind fun _ => .pure fun _ hs => hs

/-- Every operation keeps it, in any state. -/
theorem exec_fresh (op : Op V α) :
    Keeps (Fresh : State V α → Prop) (exec env op) := by
  cases op with
  | construct v =>
      refine returning_keeps (constructing_fresh ?_)
      exact operatorNew_fresh.bind fun _ => read_keeps.bind fun _ =>
        setMembers_fresh rfl
  | copyConstruct v w =>
      exact returning_keeps (constructing_fresh copyFrom_fresh)
  | moveConstruct v w =>
      exact returning_keeps (constructing_fresh stealFrom_fresh)
  | copyAssign v w =>
      refine returning_keeps (.ite (fun _ => .pure fun _ hs => hs) ?_)
      refine fun _ => initialized_keeps.bind fun _ => ?_
      exact .ite (fun _ => .pure fun _ hs => hs) (fun _ => copyFrom_fresh)
  | moveAssign v w =>
      refine returning_keeps (.ite (fun _ => .pure fun _ hs => hs) ?_)
      refine fun _ => initialized_keeps.bind fun _ => ?_
      refine .ite (fun _ => .pure fun _ hs => hs) (fun _ => ?_)
      exact clear_fresh.bind fun _ => read_keeps.bind fun _ =>
        outer_fresh.operatorDelete.bind fun _ => stealFrom_fresh
  | pushBack v x => exact returning_keeps pushBack_fresh
  | pushBackAt v w i =>
      refine returning_keeps (Triple.bind ?_ fun _ => pushBack_fresh)
      exact at_keeps fun _ hs => hs
  | popBack v => exact returning_keeps popBack_fresh
  | clear v => exact returning_keeps clear_fresh
  | reserve v n => exact returning_keeps reserve_fresh
  | at_ v i =>
      refine Triple.bind (at_keeps fun _ hs => hs) fun _ => ?_
      exact read_keeps.bind fun _ => .pure fun _ hs => hs
  | getSize v => exact getSize_keeps.bind fun _ => .pure fun _ hs => hs
  | getCapacity v =>
      exact getCapacity_keeps.bind fun _ => .pure fun _ hs => hs
  | destroy v =>
      exact returning_keeps (destructor_fresh.bind fun _ => vanish_fresh)

/-- Whatever a run has been through. -/
theorem perform_fresh {ops : List (Op V α)} :
    ∀ {s s' : State V α} {rs : List (Outcome α)}, Fresh s →
      perform env ops s = some (rs, s') → Fresh s' := by
  induction ops with
  | nil =>
      intro s s' rs hs h
      cases h
      exact hs
  | cons op ops ih =>
      intro s s' rs hs h
      simp only [perform, Option.bind_eq_bind, Option.bind_eq_some_iff] at h
      obtain ⟨⟨r, t⟩, hexec, ⟨rs', t'⟩, hrest, heq⟩ := h
      cases heq
      refine ih ?_ hrest
      cases r with
      | ok a => exact (exec_fresh op).returns hs hexec
      | error e => exact (exec_fresh op).throws hs hexec

end Members

end LearningCpp.CustomVector
