import LearningCpp.CustomVector.Methods

/-!
# Vectors as lists

What the class is for: a number of lists, one to a vector, and what each
operation does to them and answers. A state represents such lists if each
vector's members hold its list and no two vectors share a block. The lemmas
here say when a change to one vector's members and storage is a change to its
list and to no other.
-/

namespace LearningCpp.CustomVector

open LearningCpp.Lib Program

variable {V α : Type}

/-- The list of each vector there is. -/
abbrev Lists (V α : Type) := V → Option (List α)

/-- How an operation ends. -/
abbrev Outcome (α : Type) := Except Exception (Value α)

/-- What an operation does to lists. -/
inductive ListStep [DecidableEq V] :
    Op V α → Outcome α → Lists V α → Lists V α → Prop where
  | construct {L : Lists V α} {v : V} (hv : L v = none) :
      ListStep (.construct v) (.ok .unit) L (Function.update L v (some []))
  | copyConstruct {L : Lists V α} {v other : V} {l : List α}
      (hv : L v = none) (ho : L other = some l) :
      ListStep (.copyConstruct v other) (.ok .unit) L
        (Function.update L v (some l))
  | moveConstruct {L : Lists V α} {v other : V} {l : List α}
      (hv : L v = none) (ho : L other = some l) :
      ListStep (.moveConstruct v other) (.ok .unit) L
        (Function.update (Function.update L v (some l)) other (some []))
  | copyAssign {L : Lists V α} {v other : V} {l : List α} (hv : L v ≠ none)
      (ho : L other = some l) :
      ListStep (.copyAssign v other) (.ok .unit) L
        (Function.update L v (some l))
  | moveAssign {L : Lists V α} {v other : V} {l : List α} (hne : v ≠ other)
      (hv : L v ≠ none) (ho : L other = some l) :
      ListStep (.moveAssign v other) (.ok .unit) L
        (Function.update (Function.update L v (some l)) other (some []))
  | moveAssign_self {L : Lists V α} {v : V} (hv : L v ≠ none) :
      ListStep (.moveAssign v v) (.ok .unit) L L
  | pushBack {L : Lists V α} {v : V} {l : List α} {x : α}
      (hv : L v = some l) :
      ListStep (.pushBack v x) (.ok .unit) L
        (Function.update L v (some (l ++ [x])))
  | pushBackAt {L : Lists V α} {v other : V} {l l' : List α} {i : ℕ} {x : α}
      (hv : L v = some l) (ho : L other = some l') (hx : l'[i]? = some x) :
      ListStep (.pushBackAt v other i) (.ok .unit) L
        (Function.update L v (some (l ++ [x])))
  | pushBackAt_throws {L : Lists V α} {v other : V} {l' : List α} {i : ℕ}
      (ho : L other = some l') (hi : l'.length ≤ i) :
      ListStep (.pushBackAt v other i)
        (.error (.outOfRange "Index out of range")) L L
  | popBack {L : Lists V α} {v : V} {l : List α} {x : α}
      (hv : L v = some (l ++ [x])) :
      ListStep (.popBack v) (.ok .unit) L (Function.update L v (some l))
  | popBack_throws {L : Lists V α} {v : V} (hv : L v = some []) :
      ListStep (.popBack v) (.error (.outOfRange "No elements added")) L L
  | clear {L : Lists V α} {v : V} (hv : L v ≠ none) :
      ListStep (.clear v) (.ok .unit) L (Function.update L v (some []))
  | reserve {L : Lists V α} {v : V} {n : ℕ} (hv : L v ≠ none) :
      ListStep (.reserve v n) (.ok .unit) L L
  | at_ {L : Lists V α} {v : V} {l : List α} {i : ℕ} {x : α}
      (hv : L v = some l) (hx : l[i]? = some x) :
      ListStep (.at_ v i) (.ok (.element x)) L L
  | at_throws {L : Lists V α} {v : V} {l : List α} {i : ℕ}
      (hv : L v = some l) (hi : l.length ≤ i) :
      ListStep (.at_ v i) (.error (.outOfRange "Index out of range")) L L
  | getSize {L : Lists V α} {v : V} {l : List α} (hv : L v = some l) :
      ListStep (.getSize v) (.ok (.number l.length)) L L
  | getCapacity {L : Lists V α} {v : V} {l : List α} {c : ℕ}
      (hv : L v = some l) (hc : l.length ≤ c) :
      ListStep (.getCapacity v) (.ok (.number c)) L L
  | destroy {L : Lists V α} {v : V} (hv : L v ≠ none) :
      ListStep (.destroy v) (.ok .unit) L (Function.update L v none)

/-- The lists are what the vectors hold. -/
structure Represents (env : Env α) (s : State V α) (L : Lists V α) :
    Prop where
  dead : ∀ v, s.vector v = none → L v = none
  holds : ∀ v m, s.vector v = some m → ∃ l, L v = some l ∧ Holds env s m l
  apart : ∀ v w m m', v ≠ w → s.vector v = some m → s.vector w = some m' →
    m.Apart m'
  fresh : ∀ b, s.next ≤ b → s.block b = none

variable {env : Env α} {s s' : State V α} {L : Lists V α} {v w : V}
  {m m' : Members} {l l' : List α}

theorem represents_init :
    Represents env (State.init : State V α) (fun _ => none) where
  dead := fun _ _ => rfl
  holds := by intro v m hv; cases hv
  apart := by intro v w m m' _ hv; cases hv
  fresh := fun _ _ => rfl

theorem Represents.members (h : Represents env s L) (hv : L v = some l) :
    ∃ m, s.vector v = some m ∧ Holds env s m l := by
  cases hm : s.vector v with
  | none =>
      rw [h.dead v hm] at hv
      cases hv
  | some m =>
      obtain ⟨l', hl', hholds⟩ := h.holds v m hm
      rw [hv] at hl'
      rw [Option.some.inj hl']
      exact ⟨m, rfl, hholds⟩

theorem Represents.list (h : Represents env s L) (hv : s.vector v ≠ none) :
    ∃ m l, s.vector v = some m ∧ L v = some l ∧ Holds env s m l := by
  obtain ⟨m, hm⟩ := Option.ne_none_iff_exists'.1 hv
  obtain ⟨l, hl, hholds⟩ := h.holds v m hm
  exact ⟨m, l, hm, hl, hholds⟩

theorem Represents.next_free (h : Represents env s L) :
    s.block s.next = none := h.fresh _ (Nat.le_refl _)

/-- Only the vectors, the blocks and the number of the next one matter. -/
theorem Represents.congr (h : Represents env s L)
    (hvector : s'.vector = s.vector) (hblock : s'.block = s.block)
    (hnext : s'.next = s.next) : Represents env s' L where
  dead := by rw [hvector]; exact h.dead
  holds := by
    intro v m hv
    rw [hvector] at hv
    obtain ⟨l, hl, hholds⟩ := h.holds v m hv
    exact ⟨l, hl, hholds.congr (fun _ _ => by rw [hblock])⟩
  apart := by rw [hvector]; exact h.apart
  fresh := by rw [hblock, hnext]; exact h.fresh

theorem Represents.tally (h : Represents env s L) (p q r : ℕ) :
    Represents env (s.tally p q r) L := h.congr rfl rfl rfl

theorem Represents.refuse (h : Represents env s L) :
    Represents env s.refuse L := h.congr rfl rfl rfl

section Change

variable [DecidableEq V]

/-- One vector is changed. The others keep their blocks, and it gets none of
them. -/
theorem Represents.replace (h : Represents env s L)
    (hvector : s'.vector = Function.update s.vector v (some m'))
    (hholds : Holds env s' m' l')
    (hblock : ∀ w m a, w ≠ v → s.vector w = some m → m.first = some a →
      s'.block a.block = s.block a.block)
    (hapart : ∀ w m, w ≠ v → s.vector w = some m → m'.Apart m)
    (hfresh : ∀ b, s'.next ≤ b → s'.block b = none) :
    Represents env s' (Function.update L v (some l')) := by
  have hself : s'.vector v = some m' := by
    rw [hvector, Function.update_self]
  have hother : ∀ w, w ≠ v → s'.vector w = s.vector w := by
    intro w hw
    rw [hvector, Function.update_of_ne hw]
  refine ⟨?_, ?_, ?_, hfresh⟩
  · intro w hw
    by_cases hwv : w = v
    · rw [hwv, hself] at hw
      cases hw
    · rw [Function.update_of_ne hwv]
      rw [hother w hwv] at hw
      exact h.dead w hw
  · intro w m hw
    by_cases hwv : w = v
    · rw [hwv, hself] at hw
      rw [hwv, Function.update_self, ← Option.some.inj hw]
      exact ⟨l', rfl, hholds⟩
    · rw [hother w hwv] at hw
      obtain ⟨l, hl, hm⟩ := h.holds w m hw
      rw [Function.update_of_ne hwv]
      exact ⟨l, hl, hm.congr (fun a ha => hblock w m a hwv hw ha)⟩
  · intro w w' m₁ m₂ hne hw hw'
    by_cases hwv : w = v
    · rw [hwv, hself] at hw
      rw [← Option.some.inj hw]
      have hwv' : w' ≠ v := by rw [← hwv]; exact hne.symm
      rw [hother w' hwv'] at hw'
      exact hapart w' m₂ hwv' hw'
    · rw [hother w hwv] at hw
      by_cases hwv' : w' = v
      · rw [hwv', hself] at hw'
        rw [← Option.some.inj hw']
        intro a ha a' ha' heq
        exact hapart w m₁ hwv hw a' ha' a ha heq.symm
      · rw [hother w' hwv'] at hw'
        exact h.apart w w' m₁ m₂ hne hw hw'

omit [DecidableEq V] in
theorem Represents.block_lt (h : Represents env s L) {a : Address}
    (hv : s.vector v = some m) (ha : m.first = some a) :
    a.block < s.next := by
  obtain ⟨l, _, hl⟩ := h.holds v m hv
  by_contra hge
  exact hl.avoids (h.fresh a.block (by omega)) a ha rfl

/-- One vector is changed, in its own block or in a new one. -/
theorem Represents.change (h : Represents env s L)
    (hvector : s'.vector = Function.update s.vector v (some m'))
    (hholds : Holds env s' m' l')
    (hblock : ∀ b, (∀ m, s.vector v = some m → m.Avoids b) → b < s.next →
      s'.block b = s.block b)
    (hown : ∀ a, m'.first = some a →
      (∃ m, s.vector v = some m ∧ m.first = some a) ∨ s.next ≤ a.block)
    (hfresh : ∀ b, s'.next ≤ b → s'.block b = none) :
    Represents env s' (Function.update L v (some l')) := by
  refine h.replace hvector hholds ?_ ?_ hfresh
  · intro w m a hwv hw ha
    refine hblock a.block ?_ (h.block_lt hw ha)
    intro m₀ hm₀ a₀ ha₀ heq
    exact h.apart w v m m₀ hwv hw hm₀ a ha a₀ ha₀ heq
  · intro w m hwv hw a ha a' ha' heq
    rcases hown a ha with ⟨m₀, hm₀, ha₀⟩ | hge
    · exact h.apart v w m₀ m hwv.symm hm₀ hw a ha₀ a' ha' heq
    · have := h.block_lt hw ha'
      omega

/-- One vector goes, and with it its block. -/
theorem Represents.remove (h : Represents env s L) (hv : s.vector v = some m)
    (hvector : s'.vector = Function.update s.vector v none)
    (hblock : ∀ b, m.Avoids b → s'.block b = s.block b)
    (hfresh : ∀ b, s'.next ≤ b → s'.block b = none) :
    Represents env s' (Function.update L v none) := by
  have hother : ∀ w, w ≠ v → s'.vector w = s.vector w := by
    intro w hw
    rw [hvector, Function.update_of_ne hw]
  have hne : ∀ w m, s'.vector w = some m → w ≠ v := by
    intro w m hw hwv
    rw [hvector, hwv, Function.update_self] at hw
    cases hw
  refine ⟨?_, ?_, ?_, hfresh⟩
  · intro w hw
    by_cases hwv : w = v
    · rw [hwv, Function.update_self]
    · rw [Function.update_of_ne hwv]
      rw [hother w hwv] at hw
      exact h.dead w hw
  · intro w m₁ hw
    have hwv := hne w m₁ hw
    rw [hother w hwv] at hw
    obtain ⟨l, hl, hm⟩ := h.holds w m₁ hw
    rw [Function.update_of_ne hwv]
    refine ⟨l, hl, hm.congr ?_⟩
    intro a ha
    refine hblock a.block ?_
    intro a₀ ha₀ heq
    exact h.apart w v m₁ m hwv hw hv a ha a₀ ha₀ heq
  · intro w w' m₁ m₂ hww hw hw'
    have hwv := hne w m₁ hw
    have hwv' := hne w' m₂ hw'
    rw [hother w hwv] at hw
    rw [hother w' hwv'] at hw'
    exact h.apart w w' m₁ m₂ hww hw hw'

/-- A vector that is not there, or only about to be, takes the buffer of
another one over. -/
theorem Represents.steal (h : Represents env (s.setVector v none) L)
    (hne : v ≠ w) (hw : s.vector w = some m) (hl : L w = some l) :
    Represents env ((s.setVector v (some m)).setVector w (some .null))
      (Function.update (Function.update L v (some l)) w (some [])) := by
  have hw' : (s.setVector v none).vector w = some m := by
    rw [setVector_vector_ne hne.symm]
    exact hw
  obtain ⟨l', hl', hm⟩ := h.holds w m hw'
  rw [hl] at hl'
  obtain rfl := Option.some.inj hl'
  -- First the source loses its buffer, then the target gets it.
  have hnull : Represents env ((s.setVector v none).setVector w (some .null))
      (Function.update L w (some [])) :=
    h.change rfl .null (fun _ _ _ => rfl) (by intro a ha; cases ha) h.fresh
  have hstate : ((s.setVector v none).setVector w (some .null)).setVector v
      (some m) = (s.setVector v (some m)).setVector w (some .null) := by
    rw [setVector_comm hne, setVector_setVector, setVector_comm hne.symm]
  have hholds : Holds env (((s.setVector v none).setVector w
      (some .null)).setVector v (some m)) m l :=
    Holds.congr (s := s.setVector v none) (fun _ _ => rfl) hm
  rw [← hstate, Function.update_comm hne]
  refine hnull.replace rfl hholds (fun _ _ _ _ _ _ => rfl) ?_ h.fresh
  intro u mu huv hu
  by_cases huw : u = w
  · rw [huw, setVector_vector_self] at hu
    rw [← Option.some.inj hu]
    intro _ _ a' ha'
    cases ha'
  · rw [setVector_vector_ne huw] at hu
    exact h.apart w u m mu (Ne.symm huw) hw' hu

end Change

end LearningCpp.CustomVector
