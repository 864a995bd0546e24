import LearningCpp.CustomVector.Frames

/-!
# What a caller reads of a vector

Its size and its elements, in any state. They depend on its members and on the
block `first` points to, and on nothing else. So a call that changes other
blocks only leaves them as they were, and so does one that has moved the
elements to another block.
-/

namespace LearningCpp.CustomVector

open LearningCpp.Lib Program

variable {V α : Type} {env : Env α} {s₀ s s' : State V α} {v : V}
  {m : Members} {x : α} {p q : Pointer} {b i n : ℕ}

/-! ## What a caller reads -/

/-- The element at an index. -/
def Element (s : State V α) (v : V) (i : ℕ) (x : α) : Prop :=
  ∃ p, Returns (at_ v i) s p s ∧ Returns (load p) s x s

/-- The vector has the size and the elements it had. -/
structure Same (v : V) (s s' : State V α) : Prop where
  size : ∀ n, Returns (getSize v) s n s ↔ Returns (getSize v) s' n s'
  element : ∀ i x, Element s v i x ↔ Element s' v i x

/-- What `get_size` computes. -/
def Spans (s : State V α) (m : Members) (n : ℕ) : Prop :=
  (m.first = none ∧ n = 0) ∨ ∃ a a' d, m.first = some a ∧ m.last = some a' ∧
    s.block a.block = some d ∧ a.block = a'.block ∧ a.slot ≤ a'.slot ∧
    a'.slot - a.slot = n

/-- What is in a slot of the vector's block. -/
def Slot (s : State V α) (m : Members) (i : ℕ) (x : α) : Prop :=
  ∃ a d, m.first = some a ∧ s.block a.block = some d ∧
    a.slot + i ≤ d.size ∧ d.slot (a.slot + i) = some x

theorem getSize_run (hv : s.vector v = some m) : getSize v s =
    if m.first = none then some (.ok 0, s)
    else distance m.first m.last s := by
  have hinit : Returns (initialized v) s m.first.isSome s :=
    (members_returns hv).bind .pure
  refine (bind_returns hinit).trans ?_
  cases hfirst : m.first with
  | none => rfl
  | some a =>
      refine (bind_returns (members_returns hv)).trans ?_
      rw [hfirst]
      rfl

theorem getSize_iff : Returns (getSize v) s n s ↔
    ∃ m, s.vector v = some m ∧ Spans s m n := by
  constructor
  · intro h
    obtain ⟨m, hv⟩ : ∃ m, s.vector v = some m := by
      rcases bind_cases h with ⟨_, _, hinit, _⟩ | ⟨_, hinit, _⟩
      · obtain ⟨m, hv, _⟩ := bind_read_cases hinit
        exact ⟨m, hv⟩
      · obtain ⟨m, hv, _⟩ := bind_read_cases hinit
        exact ⟨m, hv⟩
    refine ⟨m, hv, ?_⟩
    rw [Returns, getSize_run hv] at h
    split at h
    · next hfirst =>
        cases h
        exact .inl ⟨hfirst, rfl⟩
    · next hfirst =>
        obtain ⟨k, hk, heq⟩ := Option.map_eq_some_iff.1 h
        cases heq
        split at hk
        · next hnone _ => exact absurd hnone hfirst
        · next a a' ha ha' =>
            simp only [Option.bind_eq_bind, Option.bind_eq_some_iff] at hk
            obtain ⟨d, hd, hk⟩ := hk
            split at hk
            · next hle =>
                cases hk
                exact .inr ⟨a, a', d, ha, ha', hd, hle.1, hle.2, rfl⟩
            · cases hk
        · cases hk
  · intro h
    obtain ⟨m, hv, hspans⟩ := h
    rw [Returns, getSize_run hv]
    rcases hspans with ⟨hfirst, rfl⟩ | ⟨a, a', d, ha, ha', hd, heq, hle, rfl⟩
    · rw [if_pos hfirst]
    · rw [if_neg (by rw [ha]; simp), ha, ha']
      refine Returns.read ?_
      rw [heq] at hd
      simp [hd, hle, heq]

theorem getSize_state {t : State V α} (h : Returns (getSize v) s n t) :
    t = s :=
  (getSize_keeps (I := (· = s)) (E := fun _ _ => True)).returns rfl h

theorem advance_cases (h : Returns (advance p n) s q s') :
    s' = s ∧ ((p = none ∧ n = 0 ∧ q = none) ∨ ∃ a d, p = some a ∧
      s.block a.block = some d ∧ a.slot + n ≤ d.size ∧
      q = some ⟨a.block, a.slot + n⟩) := by
  obtain ⟨q', hq, heq, rfl⟩ := read_cases h
  cases heq
  refine ⟨rfl, ?_⟩
  split at hq
  · split at hq
    · next hn =>
        cases hq
        exact .inl ⟨rfl, hn, rfl⟩
    · cases hq
  · next a =>
      simp only [Option.bind_eq_bind, Option.bind_eq_some_iff] at hq
      obtain ⟨d, hd, hq⟩ := hq
      split at hq
      · next hle =>
          cases hq
          exact .inr ⟨a, d, rfl, hd, hle, rfl⟩
      · cases hq

theorem load_cases (h : Returns (load p) s x s') :
    s' = s ∧ ∃ a d, p = some a ∧ s.block a.block = some d ∧
      d.slot a.slot = some x := by
  obtain ⟨y, hy, heq, rfl⟩ := read_cases h
  cases heq
  simp only [Option.bind_eq_bind, Option.bind_eq_some_iff] at hy
  obtain ⟨a, ha, d, hd, hy⟩ := hy
  exact ⟨rfl, a, d, ha, hd, hy⟩

theorem element_iff : Element s v i x ↔ ∃ m n, s.vector v = some m ∧
    Returns (getSize v) s n s ∧ i < n ∧ Slot s m i x := by
  constructor
  · intro h
    obtain ⟨p, hat, hload⟩ := h
    rcases bind_cases hat with ⟨n, t, hsize, hrest⟩ | ⟨_, _, heq⟩
    · obtain rfl := getSize_state hsize
      split at hrest
      · cases hrest
      · next hn =>
          obtain ⟨m, hv, hadvance⟩ := bind_read_cases hrest
          refine ⟨m, n, hv, hsize, by omega, ?_⟩
          obtain ⟨_, a, d, rfl, hd, hx⟩ := load_cases hload
          rcases (advance_cases hadvance).2 with ⟨_, _, hnone⟩ |
            ⟨a', d', ha', hd', hle, heq⟩
          · cases hnone
          · cases heq
            rw [hd'] at hd
            cases hd
            exact ⟨_, _, ha', hd', hle, hx⟩
    · cases heq
  · intro h
    obtain ⟨m, n, hv, hsize, hi, a, d, ha, hd, hle, hx⟩ := h
    refine ⟨some ⟨a.block, a.slot + i⟩, hsize.bind ?_, load_returns hd hx⟩
    rw [if_neg (by omega)]
    refine (members_returns hv).bind ?_
    rw [ha]
    exact advance_returns hd hle

/-! ## What a call may leave -/

/-- Nothing has happened but in blocks that were not there. -/
structure Untouched (s₀ s : State V α) : Prop where
  vector : s.vector = s₀.vector
  next : s₀.next ≤ s.next
  block : ∀ b, b < s₀.next → s.block b = s₀.block b

theorem Untouched.refl (s : State V α) : Untouched s s :=
  ⟨rfl, Nat.le_refl _, fun _ _ => rfl⟩

theorem Same.refl (v : V) (s : State V α) : Same v s s :=
  ⟨fun _ => Iff.rfl, fun _ _ => Iff.rfl⟩

/-- The members and the block of a vector are all a caller reads. -/
theorem same_of_block (hvector : s'.vector v = s.vector v)
    (hblock : ∀ m a, s.vector v = some m → m.first = some a →
      s'.block a.block = s.block a.block) : Same v s s' := by
  have hsize : ∀ n, Returns (getSize v) s n s ↔
      Returns (getSize v) s' n s' := by
    intro n
    rw [getSize_iff, getSize_iff, hvector]
    refine exists_congr fun m => and_congr_right fun hv => ?_
    refine or_congr_right (exists_congr fun a => exists_congr fun a' => ?_)
    refine exists_congr fun d => and_congr_right fun ha => ?_
    rw [hblock m a hv ha]
  refine ⟨hsize, ?_⟩
  intro i x
  rw [element_iff, element_iff, hvector]
  refine exists_congr fun m => exists_congr fun n => ?_
  refine and_congr_right fun hv => and_congr (hsize n) ?_
  refine and_congr_right fun _ => exists_congr fun a => ?_
  refine exists_congr fun d => and_congr_right fun ha => ?_
  rw [hblock m a hv ha]

theorem Untouched.same (h : Untouched s₀ s) (hs : Fresh s₀) (v : V) :
    Same v s₀ s :=
  same_of_block (by rw [h.vector]) fun m a hm ha =>
    h.block a.block (hs v m a hm ha)

theorem Same.tally (h : Same v s₀ s) (k k' l : ℕ) :
    Same v s₀ (s.tally k k' l) := by
  have hsame : Same v s (s.tally k k' l) :=
    same_of_block rfl fun _ _ _ _ => rfl
  exact ⟨fun n => (h.size n).trans (hsame.size n),
    fun i x => (h.element i x).trans (hsame.element i x)⟩

/-- The elements of the vector are in another block. -/
theorem same_of_moved {d : Block α} {e : Pointer}
    (hv₀ : s₀.vector v = some m)
    (hn : Returns (getSize v) s₀ n s₀)
    (hv : s.vector v = some ⟨some ⟨b, 0⟩, some ⟨b, n⟩, e⟩)
    (hb : s.block b = some d) (hd : n ≤ d.size)
    (hslots : ∀ i < n, ∃ x, d.slot i = some x ∧ Slot s₀ m i x) :
    Same v s₀ s := by
  have hn' : Returns (getSize v) s n s :=
    getSize_iff.2 ⟨_, hv, .inr ⟨_, _, d, rfl, rfl, hb, rfl, Nat.zero_le n,
      Nat.sub_zero n⟩⟩
  refine ⟨?_, ?_⟩
  · intro k
    constructor
    · intro hk
      have heq := hn.symm.trans hk
      cases heq
      exact hn'
    · intro hk
      have heq := hn'.symm.trans hk
      cases heq
      exact hn
  · intro i x
    rw [element_iff, element_iff]
    constructor
    · intro h
      obtain ⟨m', k, hm', hk, hi, hx⟩ := h
      have heq := hn.symm.trans hk
      cases heq
      rw [hv₀] at hm'
      cases hm'
      obtain ⟨y, hy, hslot⟩ := hslots i hi
      obtain ⟨a, d₀, ha, hd₀, _, hx⟩ := hx
      obtain ⟨a', d', ha', hd', _, hy'⟩ := hslot
      rw [ha] at ha'
      cases ha'
      rw [hd₀] at hd'
      cases hd'
      rw [hx] at hy'
      cases hy'
      refine ⟨_, n, hv, hn', hi, _, d, rfl, hb, ?_, ?_⟩
      · show 0 + i ≤ d.size
        omega
      · show d.slot (0 + i) = some x
        rw [Nat.zero_add]
        exact hy
    · intro h
      obtain ⟨m', k, hm', hk, hi, a, d', ha, hd', _, hx⟩ := h
      have heq := hn'.symm.trans hk
      cases heq
      rw [hv] at hm'
      cases hm'
      cases ha
      rw [hb] at hd'
      cases hd'
      obtain ⟨y, hy, hslot⟩ := hslots i hi
      have hx : d.slot (0 + i) = some x := hx
      rw [Nat.zero_add, hy] at hx
      cases hx
      exact ⟨m, n, hv₀, hn, hi, hslot⟩

end LearningCpp.CustomVector
