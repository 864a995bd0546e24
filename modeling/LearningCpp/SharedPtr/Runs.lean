import LearningCpp.SharedPtr.Resume

/-!
# Runs

The invariant holds in every state the threads can reach: entering a member
function keeps it, because the calls the function makes fit together whatever
handles it is used on, and so does every step inside. What was made is never
made again and what was deleted stays deleted; that needs no invariant.
-/

namespace LearningCpp.SharedPtr

open LearningCpp.Lib

variable {τ H O B : Type*}

/-- The class is never given a null raw pointer to own. -/
def Op.NonNull : Op H O → Prop
  | .fromPointer _ none => False
  | _ => True

variable [DecidableEq H] {m : B → Option O} {s s' : State τ H O B} {t : τ}
  {op : Op H O}

/-! ## Entering a member function -/

/-- The member functions lose no reference, whatever handles they are used
on. -/
theorem op_fits (h : Allowed s t op) (hop : op.NonNull) :
    Fits s.handle op.code := by
  have hfresh := h.fresh
  have hexisting := h.existing
  have hnodup := h.nodup
  cases op with
  | construct k => exact ⟨hfresh k (by simp [Op.fresh]), trivial⟩
  | fromPointer k p =>
      have hp : p ≠ none := by
        intro hp
        rw [hp] at hop
        exact hop
      refine ⟨hfresh k (by simp [Op.fresh]), hp, ?_, ?_, fun _ => trivial⟩
      · intro x hx; cases hx
      · intro x hx; cases hx
  | copy k other =>
      have hk := hfresh k (by simp [Op.fresh])
      have ho := hexisting other (by simp [Op.existing])
      have hne : other ≠ k := fun heq => ho (by rw [heq, hk])
      simp [Op.code, Fits, hk, ho, hne]
  | move k other =>
      have hk := hfresh k (by simp [Op.fresh])
      have ho := hexisting other (by simp [Op.existing])
      have hne : other ≠ k := fun heq => ho (by rw [heq, hk])
      simp [Op.code, Fits, hk, ho, hne, hne.symm]
  | copyAssign k other tmp =>
      have hk := hexisting k (by simp [Op.existing])
      have ho := hexisting other (by simp [Op.existing])
      have ht := hfresh tmp (by simp [Op.fresh])
      have hkt : k ≠ tmp := fun heq => hk (by rw [heq, ht])
      have hot : other ≠ tmp := fun heq => ho (by rw [heq, ht])
      simp only [Op.code]
      split
      · trivial
      · simp [Fits, destructor, hk, ho, ht, hkt, hot]
  | moveAssign k other =>
      have hk := hexisting k (by simp [Op.existing])
      have ho := hexisting other (by simp [Op.existing])
      simp only [Op.code]
      split
      · trivial
      · next hne => simp [Fits, hk, ho, hne, Ne.symm hne]
  | reset k p tmp arg =>
      have hk := hexisting k (by simp [Op.existing])
      have ht := hfresh tmp (by simp [Op.fresh])
      have ha := hfresh arg (by simp [Op.fresh])
      have hkt : k ≠ tmp := fun heq => hk (by rw [heq, ht])
      have hka : k ≠ arg := fun heq => hk (by rw [heq, ha])
      have hta : tmp ≠ arg := by
        simpa [Op.fresh] using hnodup
      cases p with
      | none => simp [Op.code, Fits, destructor, hk, ht, hkt]
      | some o =>
          simp [Op.code, Fits, destructor, hk, ht, ha, hkt, hka, hta,
            hta.symm, Call.isAdopt]
  | destroy k =>
      have hk := hexisting k (by simp [Op.existing])
      simp [Op.code, Fits, destructor, hk]
  | getCount k =>
      have hk := hexisting k (by simp [Op.existing])
      simp [Op.code, Fits, hk]

/-- The raw pointer goes to one constructor. -/
theorem op_carries {n : ℕ} {o : O} :
    Carries (⟨.idle, op.code, n⟩ : Thread H O B) o ↔ op.pointer = some o := by
  cases op with
  | copyAssign k other tmp =>
      simp only [Carries, Op.code, Op.pointer]
      split <;> simp [destructor]
  | moveAssign k other =>
      simp only [Carries, Op.code, Op.pointer]
      split <;> simp
  | reset k p tmp arg =>
      cases p with
      | none => simp [Carries, Op.code, Op.pointer, destructor]
      | some o' => simp [Carries, Op.code, Op.pointer, destructor, eq_comm]
  | _ => simp [Carries, Op.code, Op.pointer, destructor, eq_comm]

variable [DecidableEq τ]

theorem Inv.start [DecidableEq O] (hs : Inv m s) (h : Allowed s t op) (hop : op.NonNull) :
    Inv m (s.start t op) := by
  obtain ⟨hframe, hcode⟩ := h.idle
  have hwrites : (s.thread t).writes = [] := by
    rw [Thread.writes, hframe, hcode]
    rfl
  refine hs.next rfl (fun _ _ => rfl) (fun _ _ h => h) ?_ ?_
    (show Fits s.handle op.code from op_fits h hop) hs.unborn
    (counts_same (s := s) rfl (fun _ => rfl) rfl ?_ ?_ ?_ hs.counts)
    (blocks_same (s := s) rfl (fun _ => Iff.rfl) rfl ?_ hs.blocks) ?_
  · intro t' ht'
    exact ⟨h.writes t' ht', h.reads t' ht'⟩
  · intro k hk
    rw [hwrites] at hk
    cases hk
  · intro k other hf
    rw [hframe] at hf
    cases hf
  · intro k other hf
    cases hf
  · intro o b
    rw [hframe]
  · intro b
    rw [hframe]
  intro o
  show _ = if (if op.pointer = some o then Life.alive else s.object o) = .alive
    then 1 else 0
  have hcaller : ∀ t', HoldsObject (s.start t op) m o (.caller t') ↔
      (t' = t ∧ op.pointer = some o) ∨ HoldsObject s m o (.caller t') := by
    intro t'
    show Carries (Function.update s.thread t _ t') o ↔ _
    by_cases ht' : t' = t
    · rw [ht', Function.update_self, op_carries]
      have hno : ¬ HoldsObject s m o (.caller t) := by
        intro hx
        obtain ⟨k, u, hx⟩ := hx
        rw [hcode] at hx
        cases hx
      rw [or_iff_left hno, and_iff_right rfl]
    · rw [Function.update_of_ne ht',
        or_iff_right (fun hx => ht' hx.1)]
      exact Iff.rfl
  have hdeleter : ∀ t', HoldsObject (s.start t op) m o (.deleter t') ↔
      HoldsObject s m o (.deleter t') := by
    intro t'
    refine thread_iff (s := s) rfl (P := fun th =>
      ∃ cb, th.frame = .deletingObject o cb) ?_ t'
    rw [hframe]
  by_cases hp : op.pointer = some o
  · have hnone := hs.objects o
    rw [if_neg (by rw [h.pointer o hp]; simp)] at hnone
    rw [if_pos hp, if_pos rfl]
    refine encard_gain (n := 0) (a := (.caller t : Keeper τ H B)) ?_ ?_ hnone
    · exact not_of_encard_eq_zero hnone (.caller t)
    · intro x
      cases x with
      | caller t' =>
          rw [hcaller, and_iff_left hp]
          exact or_congr_left ⟨fun hx => by rw [hx], Keeper.caller.inj⟩
      | handle k => exact (or_iff_right (by simp)).symm
      | block b => exact (or_iff_right (by simp)).symm
      | deleter t' =>
          rw [or_iff_right (by simp)]
          exact hdeleter t'
  · rw [if_neg hp, ← hs.objects o]
    refine encard_congr ?_
    intro x
    cases x with
    | caller t' =>
        rw [hcaller, or_iff_right (fun hx => hp hx.2)]
    | handle k => exact Iff.rfl
    | block b => exact Iff.rfl
    | deleter t' => exact hdeleter t'

/-! ## Runs -/

omit [DecidableEq τ] in
theorem inv_init : Inv (fun _ => none) (State.init : State τ H O B) where
  full := by intro h p hp; cases hp
  fits := fun _ => trivial
  apart := by intro t t' _ h hh; cases hh
  unborn := fun _ _ => rfl
  counts := by
    intro b
    refine encard_eq_zero_of_not ?_
    intro x hx
    cases x with
    | inl h => cases hx.1
    | inr t => obtain ⟨o, hx⟩ := hx; cases hx
  blocks := by
    intro b
    refine encard_eq_zero_of_not ?_
    intro x hx
    cases x with
    | none => exact absurd hx (lt_irrefl 0)
    | some t =>
        rcases hx with ⟨o, hx⟩ | hx
        · cases hx
        · cases hx
  objects := by
    intro o
    refine encard_eq_zero_of_not ?_
    intro x hx
    cases x with
    | caller t => obtain ⟨h, u, hx⟩ := hx; cases hx
    | handle h => cases hx
    | block b => cases hx.1
    | deleter t => obtain ⟨cb, hx⟩ := hx; cases hx

variable [DecidableEq O] [DecidableEq B]

theorem Inv.step (hs : Inv m s) (h : Step Op.NonNull s s') :
    ∃ m', Inv m' s' := by
  cases h with
  | start t op hA h => exact ⟨m, hs.start h hA⟩
  | call t hframe hcode h =>
      obtain ⟨s'', hs'', hinv⟩ := hs.call hframe hcode
      rw [h] at hs''
      exact ⟨m, by rw [Option.some.inj hs'']; exact hinv⟩
  | resume t hframe h =>
      obtain ⟨s'', hs'', hinv⟩ := hs.resume hframe
      rw [h] at hs''
      exact ⟨m, by rw [Option.some.inj hs'']; exact hinv⟩
  | alloc t b hframe hb =>
      obtain ⟨o, hinv⟩ := hs.alloc hframe hb
      exact ⟨_, hinv⟩

theorem inv_reachable (h : Reachable Op.NonNull s) : ∃ m, Inv m s := by
  induction h with
  | refl => exact ⟨_, inv_init⟩
  | tail _ hstep ih =>
      obtain ⟨m, hm⟩ := ih
      exact hm.step hstep

/-! ## Nothing is deleted twice -/

/-- An address is made once and deleted once. -/
def Life.Ages : Life → Life → Prop
  | .unborn, _ => True
  | .alive, x => x ≠ .unborn
  | .deleted, x => x = .deleted

theorem Life.Ages.refl (x : Life) : x.Ages x := by
  cases x <;> simp [Life.Ages]

theorem Life.Ages.trans {x y z : Life} (h : x.Ages y) (h' : y.Ages z) :
    x.Ages z := by
  cases x <;> cases y <;> cases z <;> simp_all [Life.Ages]

theorem Life.deleted_of_not {x y : Life} (h : x.Ages y) (hx : x ≠ .unborn)
    (hy : y ≠ .alive) : y = .deleted := by
  cases x <;> cases y <;> simp_all [Life.Ages]

theorem ages_update {α : Type*} [DecidableEq α] {f : α → Life} {a : α}
    {x : Life} (h : (f a).Ages x) (c : α) :
    (f c).Ages (Function.update f a x c) := by
  by_cases hc : c = a
  · rw [hc, Function.update_self]
    exact h
  · rw [Function.update_of_ne hc]
    exact .refl _

/-- What a step does to the lives of blocks and objects. -/
def State.Ages (s s' : State τ H O B) : Prop :=
  (∀ b, (s.block b).Ages (s'.block b)) ∧ ∀ o, (s.object o).Ages (s'.object o)

omit [DecidableEq H] [DecidableEq τ] [DecidableEq O] [DecidableEq B] in
theorem State.Ages.refl (s : State τ H O B) : s.Ages s :=
  ⟨fun _ => .refl _, fun _ => .refl _⟩

omit [DecidableEq H] [DecidableEq τ] [DecidableEq B] in
theorem deleteObject_ages {o : O} (h : s.deleteObject o = some s') :
    s.Ages s' := by
  unfold State.deleteObject at h
  split at h
  · next halive =>
      obtain rfl := Option.some.inj h
      refine ⟨fun _ => .refl _, ages_update ?_⟩
      rw [halive]
      simp [Life.Ages]
  · cases h

omit [DecidableEq O] [DecidableEq B] in
theorem call_ages {c : Call H O} {rest : List (Call H O)}
    (h : s.call t c rest = some s') : s.Ages s' := by
  unfold State.call at h
  cases c with
  | getCount k =>
      simp only at h
      split at h
      · split at h
        · obtain rfl := Option.some.inj h
          exact .refl s
        · cases h
      · cases h
  | _ =>
      simp only at h
      split at h
      · obtain rfl := Option.some.inj h
        exact .refl s
      · cases h

theorem resume_ages (h : s.resume t = some s') : s.Ages s' := by
  unfold State.resume at h
  simp only at h
  split at h
  · cases h
  · split at h
    · split at h
      · obtain rfl := Option.some.inj h
        exact .refl s
      · obtain ⟨s₁, h₁, rfl⟩ := Option.map_eq_some_iff.1 h
        have hages := deleteObject_ages h₁
        exact ⟨hages.1, hages.2⟩
    · cases h
  · split at h
    · split at h
      · obtain rfl := Option.some.inj h
        exact .refl s
      · cases h
    · cases h
  · split at h
    · split at h
      · obtain rfl := Option.some.inj h
        exact .refl s
      · cases h
    · cases h
  · obtain ⟨s₁, h₁, rfl⟩ := Option.map_eq_some_iff.1 h
    have hages := deleteObject_ages h₁
    exact ⟨hages.1, hages.2⟩
  · split at h
    · split at h
      · next halive =>
          obtain rfl := Option.some.inj h
          refine ⟨ages_update ?_, fun _ => .refl _⟩
          rw [halive]
          simp [Life.Ages]
      · cases h
    · obtain rfl := Option.some.inj h
      exact .refl s

theorem step_ages {A : Op H O → Prop} (h : Step A s s') : s.Ages s' := by
  cases h with
  | start t op hA h =>
      refine ⟨fun _ => .refl _, fun o => ?_⟩
      show (s.object o).Ages (if op.pointer = some o then .alive else _)
      split
      · next hp =>
          rw [h.pointer o hp]
          trivial
      · exact .refl _
  | call t hframe hcode h => exact call_ages h
  | resume t hframe h => exact resume_ages h
  | alloc t b hframe hb =>
      refine ⟨ages_update ?_, fun _ => .refl _⟩
      rw [hb]
      trivial

theorem run_ages {A : Op H O → Prop} (h : Relation.ReflTransGen (Step A) s s') :
    s.Ages s' := by
  induction h with
  | refl => exact .refl s
  | tail _ hstep ih =>
      have hlast := step_ages hstep
      exact ⟨fun b => (ih.1 b).trans (hlast.1 b),
        fun o => (ih.2 o).trans (hlast.2 o)⟩

end LearningCpp.SharedPtr
