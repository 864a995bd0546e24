import LearningCpp.CustomVector.Lifetimes

/-!
# Assignment

Both assignments return at once if their target has no block, as they do if it
is their source. A target has no block when it was moved from, and then it keeps
its no elements whatever it is assigned. On all other vectors a run can reach
the assignments do what they are for.
-/

namespace LearningCpp.CustomVector

open LearningCpp.Lib Program

variable {V α : Type} {env : Env α} {s s' : State V α} {L : Lists V α}
  {v w a b : V} {m m' : Members} {l l' : List α}

/-- The elements of the vector, as a caller reads them. -/
def Reads (s : State V α) (v : V) (l : List α) : Prop :=
  Returns (getSize v) s l.length s ∧ ∀ i x, l[i]? = some x →
    ∃ p, Returns (at_ v i) s p s ∧ Returns (load p) s x s

theorem Represents.reads (h : Represents env s L) (hl : L v = some l) :
    Reads s v l :=
  ⟨h.observes.getSize v l hl, fun i x hx => h.observes.at_ v l i x hl hx⟩

/-- One vector has one size. -/
theorem Reads.length_eq (h : Reads s v l) (h' : Reads s v l') :
    l.length = l'.length := by
  have heq := h.1.symm.trans h'.1
  simpa using heq

theorem Reads.unique (h : Reads s v l) (h' : Reads s v l') : l = l' := by
  refine List.ext_getElem? ?_
  intro i
  have hlength := h.length_eq h'
  by_cases hi : i < l.length
  · have hi' : i < l'.length := by omega
    obtain ⟨p, hp, hload⟩ := h.2 i _ (List.getElem?_eq_getElem hi)
    obtain ⟨p', hp', hload'⟩ := h'.2 i _ (List.getElem?_eq_getElem hi')
    have hpp := hp.symm.trans hp'
    cases hpp
    have hx := hload.symm.trans hload'
    rw [List.getElem?_eq_getElem hi, List.getElem?_eq_getElem hi']
    simpa using hx
  · rw [List.getElem?_eq_none (by omega), List.getElem?_eq_none (by omega)]

variable [DecidableEq V]

/-- What assignment is for. A copy may fail, for want of storage or in a copy
of an element. -/
structure Assigns (env : Env α) (s : State V α) (a b : V) : Prop where
  copy : ∀ l, Reads s b l → ∃ r s',
    exec env (.copyAssign a b) s = some (r, s') ∧
    ((r = .ok .unit ∧ Reads s' a l ∧ Reads s' b l ∧
        s'.vector b = s.vector b) ∨
      (r = .error .badAlloc ∧ Refused env s (.copyAssign a b)) ∨
      (r = .error .element ∧ ∃ k, env.copyThrows (s.copies + k) = true))
  move : a ≠ b → ∀ l, Reads s b l → ∃ s',
    exec env (.moveAssign a b) s = some (.ok .unit, s') ∧
    Reads s' a l ∧ Reads s' b []
  self : a = b → exec env (.copyAssign a b) s = some (.ok .unit, s) ∧
    exec env (.moveAssign a b) s = some (.ok .unit, s)

/-- The target is the source, or has a block, or there is nothing to assign. -/
def Assignable (s : State V α) (a b : V) : Prop :=
  a = b ∨ s.vector a ≠ some .null ∨
    ∃ m, s.vector b = some m ∧ m.size = 0

/-- The assignments that return at once. -/
theorem assigns_of_same (h : Represents env s L) (ha : s.vector a = some m)
    (hb : s.vector b ≠ none)
    (hsame : a = b ∨ (m = .null ∧ Reads s b [])) : Assigns env s a b := by
  have hreturn : a = b ∨ m = .null := hsame.imp_right And.left
  have hcopy : exec env (.copyAssign a b) s = some (.ok .unit, s) :=
    returning_returns (copyAssign_same ha hreturn)
  have hmove : exec env (.moveAssign a b) s = some (.ok .unit, s) :=
    returning_returns (moveAssign_same ha hreturn)
  have hreads : ∀ l, Reads s b l → Reads s a l := by
    intro l hl
    rcases hsame with rfl | ⟨rfl, hempty⟩
    · exact hl
    · rw [hl.unique hempty]
      obtain ⟨l', hl', hm⟩ := h.holds a _ ha
      cases hm
      exact h.reads hl'
  refine ⟨?_, ?_, fun _ => ⟨hcopy, hmove⟩⟩
  · intro l hl
    exact ⟨_, s, hcopy, .inl ⟨rfl, hreads l hl, hl, rfl⟩⟩
  · intro hne l hl
    obtain ⟨_, hempty⟩ := hsame.resolve_left hne
    rw [hl.unique hempty] at *
    exact ⟨s, hmove, hreads [] hempty, hempty⟩

/-- The target has a block, and is not the source. -/
theorem assigns_of_block (h : Represents env s L) (ha : s.vector a = some m)
    (hb : s.vector b ≠ none) (hne : a ≠ b) (hnull : m ≠ .null) :
    Assigns env s a b := by
  obtain ⟨l, hla, hm⟩ := h.holds a m ha
  obtain ⟨m', l', hb, hlb, hm'⟩ := h.list hb
  refine ⟨?_, ?_, fun heq => absurd heq hne⟩
  · intro k hk
    obtain rfl := hk.unique (h.reads hlb)
    have hassign := copyAssign_eq (w := b) ha hm hne hnull
    have hapart := h.apart a b m m' hne ha hb
    cases hnew : env.newThrows s.allocations (env.sizeof * k.length) with
    | true =>
        refine ⟨_, _, returning_throws (hassign.trans
          (copyFrom_refused hb hm' hnew)), .inr (.inl ⟨rfl, k.length, ?_,
            hnew⟩)⟩
        rw [request, if_neg hne, hb, Option.map_some, hm'.size_eq]
    | false =>
        rcases env.copies_or s.copies k.length with hcopies | ⟨j, hj, hfails⟩
        · have hrep : Represents env (s.copied a m l k)
              (Function.update L a (some k)) := h.copied ha hnew
          refine ⟨_, _, returning_returns (hassign.trans (copyFrom_returns
            hcopies ha hm hb hm' hapart hnew h.next_free)), .inl ⟨rfl,
              hrep.reads (Function.update_self _ _ _), hrep.reads ?_, ?_⟩⟩
          · rw [Function.update_of_ne hne.symm]
            exact hlb
          · rw [copied_vector, Function.update_of_ne hne.symm]
        · exact ⟨_, _, returning_throws (hassign.trans (copyFrom_throws hj
            hfails ha hm hb hm' hapart hnew h.next_free)),
            .inr (.inr ⟨rfl, j, hfails.2⟩)⟩
  · intro _ k hk
    obtain rfl := hk.unique (h.reads hlb)
    have hrep := h.taken (l := l) ha hb hlb hne
    refine ⟨_, returning_returns (moveAssign_returns ha hm hb hne hnull),
      hrep.reads ?_, hrep.reads (Function.update_self _ _ _)⟩
    rw [Function.update_of_ne hne, Function.update_self]

/-- An assignment does what it is for exactly if the target was not moved from,
or is the source, or the source is empty too. -/
theorem Represents.assigns_iff (h : Represents env s L)
    (ha : s.vector a ≠ none) (hb : s.vector b ≠ none) :
    Assigns env s a b ↔ Assignable s a b := by
  obtain ⟨m, l, ha, hla, hm⟩ := h.list ha
  obtain ⟨m', l', hb', hlb, hm'⟩ := h.list hb
  constructor
  · intro hassigns
    by_contra hnot
    obtain ⟨hne, hnull, hfull⟩ : a ≠ b ∧ s.vector a = some .null ∧
        ∀ m, s.vector b = some m → m.size ≠ 0 := by
      simp only [Assignable, not_or, not_exists, not_and, not_not] at hnot
      exact hnot
    rw [ha] at hnull
    cases hnull
    -- The move returns at once, with nothing in the target.
    obtain ⟨s', hmove, hreads, _⟩ := hassigns.move hne l' (h.reads hlb)
    have hsame : exec env (.moveAssign a b) s = some (.ok .unit, s) :=
      returning_returns (moveAssign_same ha (.inr rfl))
    rw [hsame] at hmove
    cases hmove
    cases hm
    have hlength := hreads.length_eq (h.reads hla)
    refine hfull m' hb' ?_
    rw [hm'.size_eq]
    exact hlength
  · intro hassignable
    by_cases hne : a = b
    · exact assigns_of_same h ha hb (.inl hne)
    · by_cases hnull : m = .null
      · obtain ⟨m'', hm'', hsize⟩ : ∃ m, s.vector b = some m ∧ m.size = 0 := by
          rcases hassignable with heq | hblock | hempty
          · exact absurd heq hne
          · rw [ha, hnull] at hblock
            exact absurd rfl hblock
          · exact hempty
        rw [hb'] at hm''
        cases hm''
        rw [hm'.size_eq] at hsize
        obtain rfl := List.length_eq_zero_iff.1 hsize
        exact assigns_of_same h ha hb (.inr ⟨hnull, h.reads hlb⟩)
      · exact assigns_of_block h ha hb hne hnull

/-- Whatever a run has been through, other than spoiling a vector. -/
theorem always_represents {ops : List (Op V α)}
    (h : Meets env (fun s op => Permitted env s op ∧ ¬ Spoils env s op) ops
      .init) : Always env (fun s => ∃ L, Represents env s L) ops .init := by
  refine h.always ?_ (fun _ hs => hs) ⟨fun _ => none, represents_init⟩
  rintro s op ⟨L, hrep⟩ ⟨hop, hspoil⟩
  obtain ⟨r, s', L', _, hleads⟩ := steps hrep hop hspoil
  exact ⟨r, s', hleads.run, L', hleads.represents⟩

/-- In every state of a run that has spoiled no vector, an assignment between
any two vectors does what it is for exactly if they are assignable. -/
theorem assignment_iff (ops : List (Op V α))
    (h : Meets env (fun s op => Permitted env s op ∧ ¬ Spoils env s op) ops
      .init) :
    Always env (fun s => ∀ a b, s.vector a ≠ none → s.vector b ≠ none →
      (Assigns env s a b ↔ Assignable s a b)) ops .init := by
  refine (always_represents h).mono ?_
  rintro s ⟨L, hrep⟩ a b ha hb
  exact hrep.assigns_iff ha hb

/-- With a `push_back` that throws, and vectors that were moved from. -/
theorem assignment_iff_throwing : Always (throwingEnv 2)
    (fun s => ∀ a b, s.vector a ≠ none → s.vector b ≠ none →
      (Assigns (throwingEnv 2) s a b ↔ Assignable s a b))
    [.construct 0, .pushBack 0 7, .pushBack 0 8, .moveConstruct 1 0,
      .copyAssign 0 1, .moveAssign 1 0, .pushBack 0 9, .copyAssign 1 0,
      .moveAssign 1 0]
    (.init : State ℕ ℕ) :=
  assignment_iff _ (by decide +kernel)

/-- The vector that was moved from stays empty, and the other one has an
element. -/
theorem assignment_moved_from : ¬ Always intEnv
    (fun s => ∀ a b, s.vector a ≠ none → s.vector b ≠ none →
      Assigns intEnv s a b)
    [.construct false, .pushBack false 7, .moveConstruct true false]
    (.init : State Bool ℕ) := by
  intro h
  obtain ⟨rs, s', hperform, hassigns⟩ := h.performs
  have hreached : Always intEnv (fun s => ∃ L, Represents intEnv s L)
      [.construct false, .pushBack false 7, .moveConstruct true false]
      (.init : State Bool ℕ) := always_represents (by decide +kernel)
  obtain ⟨_, _, hperform', L, hrep⟩ := hreached.performs
  rw [hperform] at hperform'
  cases hperform'
  have hend : (perform intEnv [.construct false, .pushBack false 7,
      .moveConstruct true false] (.init : State Bool ℕ)).map
        (fun p => (p.2.vector false, p.2.vector true)) =
      some (some .null, some (.of 0 1 1)) := by decide +kernel
  rw [hperform, Option.map_some, Option.some.injEq, Prod.mk.injEq] at hend
  obtain ⟨hfalse, htrue⟩ : s'.vector false = some .null ∧
      s'.vector true = some (.of 0 1 1) := hend
  have halive : s'.vector false ≠ none ∧ s'.vector true ≠ none := by
    rw [hfalse, htrue]
    simp
  rcases (hrep.assigns_iff halive.1 halive.2).1
    (hassigns false true halive.1 halive.2) with heq | hblock |
      ⟨m, hm, hsize⟩
  · cases heq
  · exact hblock hfalse
  · rw [htrue] at hm
    cases hm
    cases hsize

end LearningCpp.CustomVector
