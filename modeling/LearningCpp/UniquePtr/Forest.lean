import LearningCpp.Lib.Acyclic
import LearningCpp.UniquePtr.Model

/-!
# The ownership forest

Between two operations an object that was adopted and not deleted has one owner,
unless it was handed out; and no object is below itself. While an operation is
under way two things come on top. An object may be in the hand of the `reset`
that will write it. And a handle whose pointer the deleter was given owns nothing
any more, though the pointer is still there.

The one place where the code could destroy what it still needs is `reset`: it
deletes what the handle owns and writes to the handle afterwards. The handle is
not below what it owns, so the object it is a field of is not deleted; and it
would be put below itself by the write only if it were below the new pointer.
-/

namespace LearningCpp.UniquePtr

open LearningCpp.Lib

variable {H O : Type*}

def Task.handle : Task H → H
  | .destruct h => h
  | .vanish h => h

/-- The deleter was given the pointer of the handle. -/
def State.Busy (s : State H O) (h : H) : Prop :=
  .vanish h ∈ s.agenda ∨ ∃ pointer, s.resetting = some (h, pointer)

/-- The handle owns the object. -/
def State.Owner (s : State H O) (h : H) (o : O) : Prop :=
  s.handle h = some (some o) ∧ ¬ s.Busy h

/-- The handles that are still to be destroyed or written. -/
def State.targets (s : State H O) : List H :=
  s.agenda.map Task.handle ++ (s.resetting.map Prod.fst).toList

/-- What holds between two operations. One may have an object in hand. -/
structure Quiet (L : Layout H O) (s : State H O) (hand : Option O) :
    Prop where
  idle : s.Idle
  fields : ∀ h o, L.home h = some o → (s.handle h ≠ none ↔ s.Alive o)
  owned : ∀ h o, s.handle h = some (some o) →
    s.Alive o ∧ s.handedOut o = false
  unique : ∀ h h' o, s.handle h = some (some o) →
    s.handle h' = some (some o) → h = h'
  inHand : ∀ o, hand = some o → s.Alive o ∧ s.handedOut o = false ∧
    ∀ h, s.handle h ≠ some (some o)
  owner : ∀ o, s.Alive o → s.handedOut o = false →
    hand = some o ∨ ∃ h, s.handle h = some (some o)
  handedOut : ∀ o, s.handedOut o = true → s.Alive o
  deletions : ∀ o, s.deletions o = 0 ∨
    (s.adopted o = true ∧ s.deletions o = 1)
  finite : {o | s.Alive o}.Finite
  acyclic : Acyclic (Owns L s)

/-- What holds at every point. An object may have been passed to the deleter
and not be deleted yet. -/
structure Inv (L : Layout H O) (s : State H O) (doomed : Option O) : Prop where
  fields : ∀ h o, L.home h = some o → s.Alive o → s.handle h ≠ none
  home : ∀ h o, L.home h = some o → s.handle h ≠ none →
    s.Alive o ∨ ∃ t ∈ s.agenda, t.handle = h
  nodup : s.targets.Nodup
  targets : ∀ h ∈ s.targets, s.handle h ≠ none
  dead : ∀ t ∈ s.agenda, ∀ o, L.home t.handle = some o → ¬ s.Alive o
  owned : ∀ h o, s.Owner h o → s.Alive o ∧ s.handedOut o = false
  unique : ∀ h h' o, s.Owner h o → s.Owner h' o → h = h'
  inHand : ∀ h o, s.resetting = some (h, some o) →
    s.Alive o ∧ s.handedOut o = false ∧ ∀ h', ¬ s.Owner h' o
  passed : ∀ o, doomed = some o → s.Alive o ∧ s.handedOut o = false ∧
    (∀ h, s.resetting ≠ some (h, some o)) ∧ ∀ h, ¬ s.Owner h o
  owner : ∀ o, s.Alive o → s.handedOut o = false → doomed ≠ some o →
    (∃ h, s.resetting = some (h, some o)) ∨ ∃ h, s.Owner h o
  handedOut : ∀ o, s.handedOut o = true → s.Alive o
  deletions : ∀ o, s.deletions o = 0 ∨
    (s.adopted o = true ∧ s.deletions o = 1)
  finite : {o | s.Alive o}.Finite
  acyclic : Acyclic (Owns L s)
  reset : ∀ h pointer c, s.resetting = some (h, pointer) →
    L.home h = some c → s.Alive c ∧
      (∀ o, pointer = some o → ¬ Below L s o c) ∧
      (∀ o, doomed = some o → ¬ Below L s o c) ∧
      ∀ d, .destruct d ∈ s.agenda → ∀ o, s.ptr d = some o →
        ¬ Below L s o c

section Quiet

variable {L : Layout H O} {s s' : State H O} {hand : Option O}

theorem State.Idle.not_busy (h : s.Idle) (k : H) : ¬ s.Busy k := by
  rintro (hk | ⟨pointer, hk⟩)
  · rw [h.1] at hk
    cases hk
  · rw [h.2] at hk
    cases hk

theorem State.Idle.owner_iff (h : s.Idle) {k : H} {o : O} :
    s.Owner k o ↔ s.handle k = some (some o) :=
  and_iff_left (h.not_busy k)

theorem Quiet.inv (h : Quiet L s none) : Inv L s none where
  fields := fun k o hk ho => (h.fields k o hk).2 ho
  home := fun k o hk hlive => .inl ((h.fields k o hk).1 hlive)
  nodup := by
    rw [State.targets, h.idle.1, h.idle.2]
    exact List.nodup_nil
  targets := by
    rw [State.targets, h.idle.1, h.idle.2]
    intro k hk
    cases hk
  dead := by
    rw [h.idle.1]
    intro t ht
    cases ht
  owned := fun k o hk => h.owned k o hk.1
  unique := fun k k' o hk hk' => h.unique k k' o hk.1 hk'.1
  inHand := by
    rw [h.idle.2]
    intro k o hk
    cases hk
  passed := fun o ho => by cases ho
  owner := by
    intro o ho hout _
    rcases h.owner o ho hout with hhand | ⟨k, hk⟩
    · cases hhand
    · exact .inr ⟨k, h.idle.owner_iff.2 hk⟩
  handedOut := h.handedOut
  deletions := h.deletions
  finite := h.finite
  acyclic := h.acyclic
  reset := by
    rw [h.idle.2]
    intro k pointer c hk
    cases hk

theorem Inv.quiet (h : Inv L s none) (hidle : s.Idle) : Quiet L s none where
  idle := hidle
  fields := by
    intro k o hk
    refine ⟨?_, h.fields k o hk⟩
    intro hlive
    rcases h.home k o hk hlive with halive | ⟨t, ht, _⟩
    · exact halive
    · rw [hidle.1] at ht
      cases ht
  owned := fun k o hk => h.owned k o (hidle.owner_iff.2 hk)
  unique := fun k k' o hk hk' =>
    h.unique k k' o (hidle.owner_iff.2 hk) (hidle.owner_iff.2 hk')
  inHand := fun o ho => by cases ho
  owner := by
    intro o ho hout
    rcases h.owner o ho hout (by simp) with ⟨k, hk⟩ | ⟨k, hk⟩
    · rw [hidle.2] at hk
      cases hk
    · exact .inr ⟨k, hk.1⟩
  handedOut := h.handedOut
  deletions := h.deletions
  finite := h.finite
  acyclic := h.acyclic

theorem init_quiet : Quiet L State.init none where
  idle := ⟨rfl, rfl⟩
  fields := by
    intro k o _
    refine iff_of_false (fun hne => hne rfl) ?_
    rintro ⟨h, _⟩
    cases h
  owned := fun _ _ h => by cases h
  unique := fun _ _ _ h => by cases h
  inHand := fun _ h => by cases h
  owner := fun _ h => by cases h.1
  handedOut := fun _ h => by cases h
  deletions := fun _ => .inl rfl
  finite := by
    refine Set.Finite.subset Set.finite_empty ?_
    rintro o ⟨h, _⟩
    cases h
  acyclic := by
    intro o ho
    obtain ⟨_, ⟨k, _, hk⟩, _⟩ := Relation.TransGen.head'_iff.1 ho
    cases hk

/-- Fewer pointers, fewer edges. -/
theorem acyclic_of_ptr (h : Acyclic (Owns L s))
    (hptr : ∀ k o, s'.ptr k = some o → s.ptr k = some o) :
    Acyclic (Owns L s') := by
  refine h.mono ?_
  rintro x y ⟨k, hk, hy⟩
  exact ⟨k, hk, hptr k y hy⟩

theorem ptr_eq_some {k : H} {o : O} :
    s.ptr k = some o ↔ s.handle k = some (some o) := by
  unfold State.ptr
  rw [Option.join_eq_some_iff]

variable [DecidableEq H]

/-! ## What an operation does before it deletes anything -/

theorem Quiet.release (h : Quiet L s none) {k : H} {pointer : Option O}
    (hk : s.handle k = some pointer) :
    Quiet L (s.setHandle k (some none)) pointer := by
  have hhandle : ∀ x o, (s.setHandle k (some none)).handle x = some (some o) ↔
      x ≠ k ∧ s.handle x = some (some o) := by
    intro x o
    show Function.update s.handle k (some none) x = _ ↔ _
    rw [Function.update_apply]
    split
    · next hx => simp [hx]
    · next hx => simp [hx]
  constructor
  case idle => exact h.idle
  case fields =>
    intro x o hx
    show Function.update s.handle k (some none) x ≠ none ↔ s.Alive o
    rw [← h.fields x o hx, Function.update_apply]
    split
    · next hxk => simp [hxk, hk]
    · rfl
  case owned =>
    intro x o hx
    exact h.owned x o ((hhandle x o).1 hx).2
  case unique =>
    intro x y o hx hy
    exact h.unique x y o ((hhandle x o).1 hx).2 ((hhandle y o).1 hy).2
  case inHand =>
    rintro o rfl
    obtain ⟨halive, hout⟩ := h.owned k o hk
    refine ⟨halive, hout, ?_⟩
    intro x hx
    obtain ⟨hne, hx⟩ := (hhandle x o).1 hx
    exact hne (h.unique x k o hx hk)
  case owner =>
    intro o ho hout
    rcases h.owner o ho hout with hnone | ⟨x, hx⟩
    · cases hnone
    · by_cases hxk : x = k
      · rw [hxk, hk] at hx
        exact .inl (Option.some.inj hx)
      · exact .inr ⟨x, (hhandle x o).2 ⟨hxk, hx⟩⟩
  case handedOut => exact h.handedOut
  case deletions => exact h.deletions
  case finite => exact h.finite
  case acyclic =>
    refine acyclic_of_ptr h.acyclic ?_
    intro x o hx
    exact ptr_eq_some.2 ((hhandle x o).1 (ptr_eq_some.1 hx)).2

/-- A new `unique_ptr`, which is no field, takes what is in hand. -/
theorem Quiet.put (h : Quiet L s hand) {k : H} (hk : s.handle k = none)
    (hhome : L.home k = none) : Quiet L (s.setHandle k (some hand)) none := by
  have hself : (s.setHandle k (some hand)).handle k = some hand :=
    s.setHandle_self _ _
  have hother : ∀ x, x ≠ k → (s.setHandle k (some hand)).handle x =
      s.handle x := fun x hx => s.setHandle_of_ne hx _
  have hfield : ∀ x o, L.home x = some o → x ≠ k := by
    rintro x o hx rfl
    rw [hhome] at hx
    cases hx
  constructor
  case idle => exact h.idle
  case fields =>
    intro x o hx
    rw [hother x (hfield x o hx)]
    exact h.fields x o hx
  case owned =>
    intro x o hx
    by_cases hxk : x = k
    · rw [hxk, hself] at hx
      obtain ⟨halive, hout, _⟩ := h.inHand o (Option.some.inj hx)
      exact ⟨halive, hout⟩
    · rw [hother x hxk] at hx
      exact h.owned x o hx
  case unique =>
    -- Nobody else holds what is in hand.
    have hne : ∀ x y o, (s.setHandle k (some hand)).handle x =
        some (some o) → (s.setHandle k (some hand)).handle y =
        some (some o) → x = k → y = k := by
      rintro x y o hx hy rfl
      by_contra hyk
      rw [hself] at hx
      rw [hother y hyk] at hy
      exact (h.inHand o (Option.some.inj hx)).2.2 y hy
    intro x y o hx hy
    by_cases hxk : x = k
    · rw [hxk, hne x y o hx hy hxk]
    · by_cases hyk : y = k
      · exact absurd (hne y x o hy hx hyk) hxk
      · rw [hother x hxk] at hx
        rw [hother y hyk] at hy
        exact h.unique x y o hx hy
  case inHand =>
    intro o ho
    cases ho
  case owner =>
    intro o ho hout
    rcases h.owner o ho hout with hhand | ⟨x, hx⟩
    · refine .inr ⟨k, ?_⟩
      rw [hself, hhand]
    · refine .inr ⟨x, ?_⟩
      rw [hother x ?_]
      · exact hx
      · rintro rfl
        rw [hk] at hx
        cases hx
  case handedOut => exact h.handedOut
  case deletions => exact h.deletions
  case finite => exact h.finite
  case acyclic =>
    refine h.acyclic.mono ?_
    rintro x y ⟨z, hz, hy⟩
    refine ⟨z, hz, ?_⟩
    unfold State.ptr at hy ⊢
    rw [hother z (hfield z x hz)] at hy
    exact hy

variable [DecidableEq O]

omit [DecidableEq H] in
/-- What is in hand goes to a caller. -/
theorem Quiet.give (h : Quiet L s hand) :
    Quiet L { s with
      handedOut := fun o => if hand = some o then true else s.handedOut o }
      none := by
  constructor
  case idle => exact h.idle
  case fields => exact h.fields
  case owned =>
    intro x o hx
    obtain ⟨halive, hout⟩ := h.owned x o hx
    refine ⟨halive, (if_neg ?_).trans hout⟩
    intro hhand
    exact (h.inHand o hhand).2.2 x hx
  case unique => exact h.unique
  case inHand =>
    intro o ho
    cases ho
  case owner =>
    intro o ho hout
    have hout : (if hand = some o then true else s.handedOut o) = false := hout
    split at hout
    · cases hout
    · next hhand =>
        rcases h.owner o ho hout with hhand' | hx
        · exact absurd hhand' hhand
        · exact .inr hx
  case handedOut =>
    intro o hout
    have hout : (if hand = some o then true else s.handedOut o) = true := hout
    split at hout
    · next hhand => exact (h.inHand o hhand).1
    · exact h.handedOut o hout
  case deletions => exact h.deletions
  case finite => exact h.finite
  case acyclic => exact h.acyclic

omit [DecidableEq H] in
/-- `new T`, with all its fields empty. -/
theorem Quiet.make (h : Quiet L s none) {pointer : Option O}
    (hfresh : ∀ o, pointer = some o → s.adopted o = false) :
    Quiet L (s.make L pointer) pointer := by
  cases pointer with
  | none => exact h
  | some o =>
      have hadopted := hfresh o rfl
      have hdead : ¬ s.Alive o := by
        rintro ⟨hadopted', _⟩
        rw [hadopted] at hadopted'
        cases hadopted'
      have hdeletions : s.deletions o = 0 := by
        rcases h.deletions o with hzero | ⟨hadopted', _⟩
        · exact hzero
        · rw [hadopted] at hadopted'
          cases hadopted'
      have halive : ∀ x, (s.make L (some o)).Alive x ↔ x = o ∨ s.Alive x := by
        intro x
        show (Function.update s.adopted o true x = true ∧ s.deletions x = 0) ↔ _
        rcases eq_or_ne x o with rfl | hne
        · simp [hdeletions]
        · simp [hne, State.Alive]
      have hhandle : ∀ k x,
          (s.make L (some o)).handle k = some (some x) ↔
            s.handle k = some (some x) := by
        intro k x
        show (if L.home k = some o then some none else s.handle k) = _ ↔ _
        split
        · next hk =>
            have hnone : s.handle k = none := by
              by_contra hne
              exact hdead ((h.fields k o hk).1 hne)
            simp [hnone]
        · rfl
      constructor
      case idle => exact h.idle
      case fields =>
        intro k x hk
        rw [halive]
        show (if L.home k = some o then some none else s.handle k) ≠ none ↔ _
        rw [hk]
        by_cases hx : x = o
        · simp [hx]
        · simp only [Option.some.injEq, hx, if_false, false_or]
          exact h.fields k x hk
      case owned =>
        intro k x hk
        obtain ⟨hx, hout⟩ := h.owned k x ((hhandle k x).1 hk)
        exact ⟨(halive x).2 (.inr hx), hout⟩
      case unique =>
        intro k k' x hk hk'
        exact h.unique k k' x ((hhandle k x).1 hk) ((hhandle k' x).1 hk')
      case inHand =>
        rintro x hx
        cases hx
        refine ⟨(halive o).2 (.inl rfl), ?_, ?_⟩
        · by_contra hout
          exact hdead (h.handedOut o (Bool.eq_true_of_not_eq_false hout))
        · intro k hk
          exact hdead (h.owned k o ((hhandle k o).1 hk)).1
      case owner =>
        intro x hx hout
        rcases (halive x).1 hx with rfl | hx
        · exact .inl rfl
        · rcases h.owner x hx hout with hnone | ⟨k, hk⟩
          · cases hnone
          · exact .inr ⟨k, (hhandle k x).2 hk⟩
      case handedOut =>
        intro x hx
        exact (halive x).2 (.inr (h.handedOut x hx))
      case deletions =>
        intro x
        rcases h.deletions x with hzero | ⟨hx, hone⟩
        · exact .inl hzero
        · refine .inr ⟨?_, hone⟩
          show Function.update s.adopted o true x = true
          rw [Function.update_apply, hx]
          exact ite_self _
      case finite =>
        refine Set.Finite.subset (h.finite.insert o) ?_
        intro x hx
        exact (halive x).1 hx
      case acyclic =>
        refine acyclic_of_ptr h.acyclic ?_
        intro k x hk
        exact ptr_eq_some.2 ((hhandle k x).1 (ptr_eq_some.1 hk))

end Quiet

end LearningCpp.UniquePtr
