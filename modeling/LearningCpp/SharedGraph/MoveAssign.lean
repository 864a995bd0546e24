import LearningCpp.SharedGraph.Runs

/-!
# `operator=(SharedPointer&& other)`

It releases the old object first and reads `other` after that. By then `other`
may be gone with an object that only the target kept alive, as in
`p = std::move(p->next)`. Where there are no cycles, that is the only thing that
goes wrong: the objects left after the release are those that can be reached
from a handle that stands alone without the target.
-/

namespace LearningCpp.SharedGraph

open LearningCpp.Lib Program
open LearningCpp.SharedPtr (Life SharedPointer)
open LearningCpp.UniquePtr (Layout)

variable {H O B : Type} {L : Layout H O} {s s' : State H O B} {p q : H} {o : O}

/-- An object other handles than `p` keep alive. -/
inductive Kept (L : Layout H O) (s : State H O B) (p : H) : O → Prop where
  | alone {h : H} {o : O} (hp : h ≠ p) (hhome : L.home h = none)
      (ho : s.ptr h = some o) : Kept L s p o
  | field {h : H} {o o' : O} (hkept : Kept L s p o) (hp : h ≠ p)
      (hhome : L.home h = some o) (ho : s.ptr h = some o') : Kept L s p o'

/-- The handle `q` stands alone, or is in an object that is kept. -/
def Survives (L : Layout H O) (s : State H O B) (p q : H) : Prop :=
  ∀ o, L.home q = some o → Kept L s p o

theorem Kept.handle (hkept : Kept L s p o) : ∃ h, h ≠ p ∧ s.ptr h = some o := by
  cases hkept with
  | alone hp _ ho => exact ⟨_, hp, ho⟩
  | field _ hp _ ho => exact ⟨_, hp, ho⟩

/-! ## What is left after the release -/

theorem Kept.alive {D : Set H} (hkept : Kept L s p o)
    (hf : Falls L {p} s s') (hs' : Heap L s' D none) :
    s'.object o = .alive := by
  have hptr : ∀ {h o}, h ≠ p → (∀ c, L.home h = some c → s'.handle h ≠ none) →
      s.ptr h = some o → s'.object o = .alive := by
    intro h o hp hthere ho
    have hsame : s'.handle h = s.handle h := by
      refine (hf.kept h hp).resolve_right ?_
      intro ⟨hnone, c, hc, _⟩
      exact hthere c hc hnone
    obtain ⟨cb, hcb⟩ := handle_of_ptr ho
    exact (hs'.full h o cb (hsame.trans hcb)).1
  induction hkept with
  | alone hp hhome ho =>
      refine hptr hp (fun c hc => ?_) ho
      rw [hhome] at hc
      cases hc
  | field hkept hp hhome ho ih =>
      exact hptr hp (fun c hc => hs'.fields _ _ hhome ih) ho

/-- An object that is left has an owner that is left. -/
theorem kept_of_alive (hacyclic : Acyclic (Owns L s)) (hf : Falls L {p} s s')
    (hs' : Heap L s' ∅ none) (ho : s'.object o = .alive) : Kept L s p o := by
  refine hacyclic.induction hs'.finite ?_ o ho
  intro o ho ih
  obtain ⟨h, hh⟩ := (hs'.owner o ho).resolve_left (by simp)
  obtain ⟨cb, hcb⟩ := handle_of_ptr hh
  have hp : h ≠ p := by
    rintro rfl
    rcases hf.emptied h rfl with hnull | hnone
    · rw [hcb] at hnull
      cases hnull
    · rw [hcb] at hnone
      cases hnone
  have hptr : s.ptr h = some o := by
    rcases hf.of_some hcb with hnull | hsame
    · cases hnull
    · exact ptr_of_handle hsame
  cases hhome : L.home h with
  | none => exact .alone hp hhome hptr
  | some c =>
      have hc : s'.object c = .alive := by
        rcases hs'.home h c hhome (by simp [hcb]) with hc | hmem
        · exact hc
        · exact absurd hmem (Set.notMem_empty h)
      exact .field (ih c hc ⟨h, hhome, hptr⟩) hp hhome hptr

/-- What is not kept by others hangs on `p`. -/
theorem kept_or_below (hacyclic : Acyclic (Owns L s)) (hs : Heap L s ∅ none)
    (p : H) (ho : s.object o = .alive) : Kept L s p o ∨
      ∃ x, s.ptr p = some x ∧ Relation.ReflTransGen (Owns L s) x o := by
  refine hacyclic.induction (P := fun o => Kept L s p o ∨ ∃ x, s.ptr p = some x ∧
    Relation.ReflTransGen (Owns L s) x o) hs.finite ?_ o ho
  intro o ho ih
  obtain ⟨h, hh⟩ := (hs.owner o ho).resolve_left (by simp)
  by_cases hp : h = p
  · exact .inr ⟨o, hp ▸ hh, .refl⟩
  · cases hhome : L.home h with
    | none => exact .inl (.alone hp hhome hh)
    | some c =>
        obtain ⟨cb, hcb⟩ := handle_of_ptr hh
        have hc : s.object c = .alive := by
          rcases hs.home h c hhome (by simp [hcb]) with hc | hmem
          · exact hc
          · exact absurd hmem (Set.notMem_empty h)
        have howns : Owns L s c o := ⟨h, hhome, hh⟩
        refine (ih c hc howns).imp (fun hkept => .field hkept hp hhome hh) ?_
        intro ⟨x, hx, hpath⟩
        exact ⟨x, hx, hpath.tail howns⟩

/-- The object `p` is a field of is not deleted. -/
theorem survives_self (hacyclic : Acyclic (Owns L s)) (hs : Heap L s ∅ none)
    (hp : s.handle p ≠ none) : Survives L s p p := by
  intro c hc
  have hlive : s.object c = .alive := by
    rcases hs.home p c hc hp with hlive | hmem
    · exact hlive
    · exact absurd hmem (Set.notMem_empty p)
  refine (kept_or_below hacyclic hs p hlive).resolve_right ?_
  intro ⟨x, hx, hpath⟩
  exact hacyclic.not_reaches ⟨p, hc, hx⟩ hpath

variable [DecidableEq H] [DecidableEq O] [DecidableEq B]

/-- What `p = std::move(q)` is to do: it ends, `p` has what `q` had, and if that
is an object, the object is there and its count is right. A half null handle is
passed on like any other; its block has no object, and nothing is said of the
count it has, which `release` leaves too large. -/
def MoveAssigned (L : Layout H O) (s : State H O B) (p q : H) : Prop :=
  ∃ s' n, (∀ fuel, n ≤ fuel → Returns (moveAssign L fuel p q) s () s') ∧
    s'.handle p = s.handle q ∧
    ∀ o, s.ptr q = some o → s'.object o = .alive ∧
      ∃ b, s.handle q = some ⟨some o, some b⟩ ∧ s'.block b = .alive ∧
        {h | s'.ptr h = some o}.encard = s'.count b

/-- A handle survives the release of `p` if and only if it survives without
`p`. -/
theorem Releases.survives_iff {fuel : ℕ} (h : Releases L fuel s ∅ p s')
    (hacyclic : Acyclic (Owns L s)) (hq : s.handle q ≠ none) :
    s'.handle q ≠ none ↔ Survives L s p q := by
  constructor
  · intro hlive c hc
    refine kept_of_alive hacyclic h.falls h.heap ?_
    rcases h.heap.home q c hc hlive with hlive | hmem
    · exact hlive
    · exact absurd hmem (Set.notMem_empty q)
  · intro hsurvives
    cases hhome : L.home q with
    | some c =>
        exact h.heap.fields q c hhome
          ((hsurvives c hhome).alive h.falls h.heap)
    | none =>
        have hno : ¬ ∃ o, L.home q = some o ∧ s.object o = .alive := by
          intro ⟨o, ho, _⟩
          rw [hhome] at ho
          cases ho
        by_cases hqp : q = p
        · subst hqp
          simp [h.handle.resolve_right hno]
        · rw [(h.falls.kept q hqp).resolve_right fun hgone => hno hgone.2]
          exact hq

/-- After the release `p` is there and empty. -/
theorem Releases.null {fuel : ℕ} (h : Releases L fuel s ∅ p s')
    (hacyclic : Acyclic (Owns L s)) (hs : Heap L s ∅ none)
    (hp : s.handle p ≠ none) : s'.handle p = some .null := by
  refine (h.falls.emptied p rfl).resolve_right ?_
  exact (h.survives_iff hacyclic hp).2 (survives_self hacyclic hs hp)

omit [DecidableEq O] [DecidableEq B] in
theorem steal_returns {v : SharedPointer O B} (hq : s.handle q = some v)
    (hp : s.handle p = some .null) (hne : p ≠ q) :
    Returns (steal p q) s ()
      ((s.setHandle q (some .null)).setHandle p (some v)) := by
  refine (pointers_returns hq).bind ?_
  refine (assign_returns (by simp [hq]) .null).bind (assign_returns ?_ v)
  rw [setHandle_of_ne _ hne, hp]
  simp

/-- If `q` survives, all is well. -/
theorem Survives.moveAssigned (hsurvives : Survives L s p q)
    (hs : Heap L s ∅ none) (hacyclic : Acyclic (Owns L s))
    (hp : s.handle p ≠ none) (hq : s.handle q ≠ none) (hne : p ≠ q) :
    MoveAssigned L s p q := by
  obtain ⟨s₁, h₁⟩ := sufficient L (s.alive + 1) s ∅ p hs hp (Nat.lt_succ_self _)
  have hnull := h₁.null hacyclic hs hp
  have hlive := (h₁.survives_iff hacyclic hq).2 hsurvives
  have hsame : s₁.handle q = s.handle q :=
    (h₁.falls.kept q hne.symm).resolve_right fun hgone => hlive hgone.1
  obtain ⟨v, hv⟩ := Option.ne_none_iff_exists'.1 hq
  have hv₁ := hsame.trans hv
  obtain ⟨s₂, hs₂⟩ : ∃ s₂, s₂ =
      (s₁.setHandle q (some .null)).setHandle p (some v) := ⟨_, rfl⟩
  have hheap : Heap L s₂ ∅ none :=
    hs₂ ▸ h₁.heap.exchange hne.symm hv₁ hnull
  have hpv : s₂.handle p = some v := by rw [hs₂, setHandle_self]
  have hrun : Returns (moveAssign L (s.alive + 1) p q) s () s₂ := by
    unfold moveAssign
    rw [if_neg hne, hs₂]
    exact h₁.run.bind (steal_returns hv₁ hnull hne)
  refine ⟨s₂, s.alive + 1, fun fuel hle => moveAssign_extends hle p q _ _ _ hrun,
    hpv.trans hv.symm, fun o ho => ?_⟩
  have ho₂ : s₂.ptr p = some o :=
    (ptr_of_handle hpv).trans ((ptr_of_handle hv).symm.trans ho)
  obtain ⟨b, hb, halive, hblock, hcount⟩ := hheap.full_of_ptr ho₂
  refine ⟨halive, b, hv.trans (hpv.symm.trans hb), hblock, ?_⟩
  rw [← hcount]
  exact encard_congr fun x => hheap.ptr_iff hb

/-- If it ends at all, `q` has survived. -/
theorem MoveAssigned.survives (hmove : MoveAssigned L s p q)
    (hs : Heap L s ∅ none) (hacyclic : Acyclic (Owns L s))
    (hp : s.handle p ≠ none) (hq : s.handle q ≠ none) (hne : p ≠ q) :
    Survives L s p q := by
  obtain ⟨s', n, hrun, _⟩ := hmove
  obtain ⟨s₁, h₁⟩ := sufficient L (max n (s.alive + 1)) s ∅ p hs hp (by omega)
  have hmax := hrun _ (Nat.le_max_left n (s.alive + 1))
  unfold moveAssign at hmax
  rw [if_neg hne, Returns, bind_returns h₁.run] at hmax
  obtain ⟨v, hv, _⟩ := bind_read_cases hmax
  exact (h₁.survives_iff hacyclic hq).1 (by simp [hv])

/-! ## A list of two nodes -/

inductive Node where
  | first
  | second
deriving DecidableEq, Repr

instance : Fintype Node where
  elems := {.first, .second}
  complete := by
    intro node
    cases node <;> decide

/-- A `next` for each node, and pointers that stand alone. -/
inductive Place where
  | p
  | q
  | tmp
  | next (node : Node)
deriving DecidableEq, Fintype, Repr

def nodes : Layout Place Node where
  home
    | .next node => some node
    | _ => none
  fields := fun node => [.next node]
  mem_fields := by decide
  nodup_fields := by decide

/-- The pointer `p` has the first node, whose `next` has the second one. -/
def linked : State Place Node ℕ :=
  ((State.init.perform nodes 3 (.fromPointer .p (some .first)
    (some 0))).perform nodes 3 (.fromPointer .q (some .second)
    (some 1))).perform nodes 3 (.moveAssign (.next .first) .q)

theorem reachable_linked : Reachable nodes linked := by
  have hinit : Reachable (B := ℕ) nodes .init := .refl
  refine ((hinit.perform ?_ 3).perform ?_ 3).perform ?_ 3
  · exact ⟨by decide, by decide, by decide, by simp⟩
  · exact ⟨by decide, by decide +kernel, by decide, by simp⟩
  · exact ⟨by decide +kernel, by decide, by decide, by simp⟩

/-- The order of the nodes in the list. -/
def rank : Node → ℕ
  | .first => 0
  | .second => 1

theorem acyclic_linked : Acyclic (Owns nodes linked) := by
  refine .of_rank rank ?_
  unfold Owns
  decide +kernel

/-- The pointer `q` has the first node too. -/
def shared : State Place Node ℕ :=
  linked.perform nodes 3 (.copyAssign .q .p .tmp)

/-! ## The assignment -/

/-- In a graph without cycles, a move assignment does what it is to do exactly
when the source does not depend on the target. -/
theorem moveAssign_iff (h : Reachable L s) (hacyclic : Acyclic (Owns L s))
    (hp : s.handle p ≠ none) (hq : s.handle q ≠ none) (hne : p ≠ q) :
    MoveAssigned L s p q ↔ Survives L s p q := by
  have hs := Heap.of_reachable h
  constructor
  · intro hmove
    exact hmove.survives hs hacyclic hp hq hne
  · intro hsurvives
    exact hsurvives.moveAssigned hs hacyclic hp hq hne

/-- `p = std::move(p->next)`, where another handle has the node. -/
theorem moveAssign_iff_next : MoveAssigned nodes shared .p (.next .first) := by
  have hreachable : Reachable nodes shared := by
    refine reachable_linked.perform ?_ 3
    exact ⟨by decide +kernel, by decide +kernel, by decide, by simp⟩
  have hacyclic : Acyclic (Owns nodes shared) := by
    refine .of_rank rank ?_
    unfold Owns
    decide +kernel
  refine (moveAssign_iff hreachable hacyclic (by decide +kernel)
    (by decide +kernel) (by decide)).2 fun o ho => ?_
  cases ho
  exact .alone (h := .q) (by decide) rfl (by decide +kernel)

/-- `p = std::move(p->next)`, where `p` is the only handle of its node. -/
theorem moveAssign_next_dangling : Reachable nodes linked ∧
    Acyclic (Owns nodes linked) ∧ linked.handle .p ≠ none ∧
    linked.handle (.next .first) ≠ none ∧
    ¬ MoveAssigned nodes linked .p (.next .first) := by
  have hp : linked.handle .p ≠ none := by decide +kernel
  have hq : linked.handle (.next .first) ≠ none := by decide +kernel
  refine ⟨reachable_linked, acyclic_linked, hp, hq, fun hmove => ?_⟩
  have hsurvives := hmove.survives (Heap.of_reachable reachable_linked)
    acyclic_linked hp hq (by decide)
  obtain ⟨h, hne, hh⟩ := (hsurvives .first rfl).handle
  have hnone : ∀ h, h ≠ .p → linked.ptr h ≠ some .first := by decide +kernel
  exact hnone h hne hh

end LearningCpp.SharedGraph
