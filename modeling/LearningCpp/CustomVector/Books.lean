import LearningCpp.CustomVector.Exceptions
import LearningCpp.CustomVector.Lists

/-!
# The books

What was constructed has been destroyed, is an element of a vector, or was lost
in a block that went with its elements. And a block that no vector has is of
some kind: gone, or there but without elements. The lemmas here say what each
change to a vector and its storage does to the books; `Represents` says what it
does to the lists.
-/

namespace LearningCpp.CustomVector

open LearningCpp.Lib Program

variable {V α : Type}

/-- The block is some vector's. -/
def State.Owned (s : State V α) (b : ℕ) : Prop :=
  ∃ v m a, s.vector v = some m ∧ m.first = some a ∧ a.block = b

/-- The elements of a vector, none if it is not there. -/
def Lists.size (L : Lists V α) (v : V) : ℕ := (L v).elim 0 List.length

/-- The blocks without an owner satisfy `P`, and `lost` elements were neither
destroyed nor are they in a vector. -/
structure Books (P : Option (Block α) → Prop) (s : State V α) (L : Lists V α)
    (lost : ℕ) : Prop where
  balance : ∃ names : Finset V, (∀ v, L v ≠ none → v ∈ names) ∧
    s.constructed = s.destroyed + ∑ v ∈ names, L.size v + lost
  unowned : ∀ b, ¬ s.Owned b → P (s.block b)

variable {P : Option (Block α) → Prop} {env : Env α} {s s' : State V α}
  {L : Lists V α} {v w : V} {m m' : Members} {l l' : List α} {x : α}
  {lost n b c : ℕ}

theorem books_init (hP : P none) :
    Books P (State.init : State V α) (fun _ => none) 0 where
  balance := ⟨∅, fun _ h => absurd rfl h, rfl⟩
  unowned := fun _ _ => hP

theorem Lists.size_of (h : L v = some l) : L.size v = l.length := by
  rw [Lists.size, h]
  rfl

theorem Lists.size_none (h : L v = none) : L.size v = 0 := by
  rw [Lists.size, h]
  rfl

/-- The lists stay, and so does who owns what. -/
theorem Books.congr (h : Books P s L lost) {q r j : ℕ}
    (hvector : s'.vector = s.vector) (hblock : s'.block = s.block)
    (hconstructed : s'.constructed = s.constructed + q)
    (hdestroyed : s'.destroyed = s.destroyed + r) (hcount : q = r + j) :
    Books P s' L (lost + j) where
  balance := by
    obtain ⟨names, hnames, hsum⟩ := h.balance
    exact ⟨names, hnames, by omega⟩
  unowned := by
    intro b hb
    unfold State.Owned at hb
    rw [hvector] at hb
    rw [hblock]
    exact h.unowned b hb

theorem Books.tally (h : Books P s L lost) {p q r j : ℕ}
    (hcount : q = r + j) : Books P (s.tally p q r) L (lost + j) :=
  h.congr rfl rfl rfl rfl hcount

theorem Books.refuse (h : Books P s L lost) : Books P s.refuse L lost :=
  h.congr (q := 0) (r := 0) (j := 0) rfl rfl rfl rfl rfl

theorem Books.abandon (h : Books P s L lost) : Books P s.abandon L lost :=
  h.congr (q := 0) (r := 0) (j := 0) rfl rfl rfl rfl rfl

theorem Represents.abandon (h : Represents env s L) :
    Represents env s.abandon L where
  dead := h.dead
  holds := by
    intro v m hv
    obtain ⟨l, hl, hm⟩ := h.holds v m hv
    exact ⟨l, hl, Holds.congr (s := s) (fun _ _ => rfl) hm⟩
  apart := h.apart
  fresh := by
    intro b hb
    have hb : s.next + 1 ≤ b := hb
    exact h.fresh b (by omega)

section Change

variable [DecidableEq V]

omit [DecidableEq V] in
theorem sum_size_insert {names : Finset V} [DecidableEq V]
    (hnames : ∀ v, L v ≠ none → v ∈ names) (v : V) :
    ∑ u ∈ insert v names, L.size u = ∑ u ∈ names, L.size u := by
  by_cases hv : v ∈ names
  · rw [Finset.insert_eq_of_mem hv]
  · have hnone : L v = none := by
      by_contra hne
      exact hv (hnames v hne)
    rw [Finset.sum_insert hv, Lists.size_none hnone, Nat.zero_add]

theorem size_update (L : Lists V α) (v : V) (k : Option (List α)) :
    Lists.size (Function.update L v k) =
      Function.update L.size v (k.elim 0 List.length) := by
  funext u
  unfold Lists.size
  rcases eq_or_ne u v with rfl | hu
  · rw [Function.update_self, Function.update_self]
  · rw [Function.update_of_ne hu, Function.update_of_ne hu]

theorem sum_size_update {names : Finset V} (hv : v ∈ names)
    (k : Option (List α)) :
    ∑ u ∈ names, Lists.size (Function.update L v k) u + L.size v =
      ∑ u ∈ names, L.size u + k.elim 0 List.length := by
  rw [size_update, Finset.sum_update_of_mem hv,
    Finset.sdiff_singleton_eq_erase, ← Finset.add_sum_erase names L.size hv]
  omega

/-- One list changes, with as many constructions and destructions. -/
theorem Books.balance_update (h : Books P s L lost) (v : V)
    {k : Option (List α)} {q r j : ℕ}
    (hconstructed : s'.constructed = s.constructed + q)
    (hdestroyed : s'.destroyed = s.destroyed + r)
    (hcount : L.size v + q = k.elim 0 List.length + r + j) :
    ∃ names : Finset V,
      (∀ u, Function.update L v k u ≠ none → u ∈ names) ∧
      s'.constructed = s'.destroyed +
        ∑ u ∈ names, Lists.size (Function.update L v k) u + (lost + j) := by
  obtain ⟨names, hnames, hsum⟩ := h.balance
  refine ⟨insert v names, ?_, ?_⟩
  · intro u hu
    rcases eq_or_ne u v with rfl | huv
    · exact Finset.mem_insert_self u names
    · rw [Function.update_of_ne huv] at hu
      exact Finset.mem_insert_of_mem (hnames u hu)
  · have hinsert := sum_size_insert hnames v
    have hupdate := sum_size_update (L := L) (Finset.mem_insert_self v names) k
    omega

omit [DecidableEq V] in
/-- Whoever has the block in the one state has it in the other, or else it was
the one vector that changed. -/
theorem owned_of_update [DecidableEq V] {k : Option Members}
    (hvector : s'.vector = Function.update s.vector v k) (h : s.Owned b) :
    s'.Owned b ∨ ∃ m a, s.vector v = some m ∧ m.first = some a ∧
      a.block = b := by
  obtain ⟨u, m, a, hu, ha, hb⟩ := h
  rcases eq_or_ne u v with rfl | huv
  · exact .inr ⟨m, a, hu, ha, hb⟩
  · refine .inl ⟨u, m, a, ?_, ha, hb⟩
    rw [hvector, Function.update_of_ne huv]
    exact hu

/-- One vector is changed, in its own block or in a new one. What becomes of
the block it had is to be of the right kind. -/
theorem Books.change (h : Books P s L lost) {k : Option Members}
    {t : Option (List α)} {q r j : ℕ}
    (hvector : s'.vector = Function.update s.vector v k)
    (hconstructed : s'.constructed = s.constructed + q)
    (hdestroyed : s'.destroyed = s.destroyed + r)
    (hcount : L.size v + q = t.elim 0 List.length + r + j)
    (hblock : ∀ b, (∀ m, s.vector v = some m → m.Avoids b) → ¬ s'.Owned b →
      s'.block b = s.block b)
    (hold : ∀ m a, s.vector v = some m → m.first = some a →
      ¬ s'.Owned a.block → P (s'.block a.block)) :
    Books P s' (Function.update L v t) (lost + j) where
  balance := h.balance_update v hconstructed hdestroyed hcount
  unowned := by
    intro b hb
    by_cases hown : ∃ m a, s.vector v = some m ∧ m.first = some a ∧
        a.block = b
    · obtain ⟨m, a, hm, ha, rfl⟩ := hown
      exact hold m a hm ha hb
    · rw [hblock b ?_ hb]
      · refine h.unowned b ?_
        intro howned
        exact (owned_of_update hvector howned).elim hb hown
      · intro m hm a ha hab
        exact hown ⟨m, a, hm, ha, hab⟩

/-- The elements of a vector change within its block. -/
theorem Books.inPlace (h : Books P s L lost) {k p q r : ℕ}
    (hv : s.vector v = some (.of b k c))
    (hcount : L.size v + q = l.length + r) :
    Books P (((s.setVector v (some (.of b l.length c))).setBlock b
      (some (.of c l))).tally p q r) (Function.update L v (some l)) lost := by
  have howned : State.Owned (((s.setVector v
      (some (.of b l.length c))).setBlock b (some (.of c l))).tally p q r)
      b := ⟨v, .of b l.length c, ⟨b, 0⟩, by simp, rfl, rfl⟩
  refine h.change (j := 0) rfl rfl rfl hcount ?_ ?_
  · intro b' _ hb'
    have hne : b' ≠ b := fun heq => hb' (heq ▸ howned)
    exact setBlock_block_ne hne _
  · intro m a hm ha hnot
    rw [hv] at hm
    cases hm
    cases ha
    exact absurd howned hnot

/-- The elements of a vector are in a new block. -/
theorem Books.inNew (h : Books P s L lost) {q r : ℕ}
    (hv : s.vector v = some m)
    (hvector : s'.vector =
      Function.update s.vector v (some (.of s.next l.length n)))
    (hconstructed : s'.constructed = s.constructed + q)
    (hdestroyed : s'.destroyed = s.destroyed + r)
    (hcount : L.size v + q = l.length + r)
    (hblock : ∀ b, b ≠ s.next → m.Avoids b → s'.block b = s.block b)
    (hold : ∀ a, m.first = some a → P (s'.block a.block)) :
    Books P s' (Function.update L v (some l)) lost := by
  have howned : s'.Owned s.next := by
    refine ⟨v, .of s.next l.length n, ⟨s.next, 0⟩, ?_, rfl, rfl⟩
    rw [hvector, Function.update_self]
  refine h.change (j := 0) hvector hconstructed hdestroyed hcount ?_ ?_
  · intro b hb hnot
    exact hblock b (fun heq => hnot (heq ▸ howned)) (hb m hv)
  · intro m' a hm' ha _
    rw [hv] at hm'
    cases hm'
    exact hold a ha

/-! ## The states the operations end in -/

theorem Books.reserved (h : Books P s L lost) (hP : P none)
    (hv : s.vector v = some m) (hl : L v = some l) :
    Books P (s.reserved env v m l n) L lost := by
  have hnew : Books P (s.reserved env v m l n)
      (Function.update L v (some l)) lost := by
    refine h.inNew (n := n) (q := l.length) (r := l.length) hv ?_ ?_ ?_ ?_
      (fun _ => reserved_block_ne) ?_
    · exact reserved_vector
    · rw [State.reserved, tally_constructed, free_constructed]
      rfl
    · rw [State.reserved, tally_destroyed, free_destroyed]
      rfl
    · rw [Lists.size_of hl]
    · intro a ha
      rw [State.reserved, tally_block, free_block_self ha]
      exact hP
  rw [← hl, Function.update_eq_self] at hnew
  exact hnew

theorem Books.pushed (h : Books P s L lost) (hP : P none)
    (hv : s.vector v = some m) (hl : L v = some l) :
    Books P (s.pushed env v m l x n) (Function.update L v (some (l ++ [x])))
      lost := by
  have hlength : (l ++ [x]).length = l.length + 1 := by simp
  refine h.inNew (n := n) (q := l.length + 2) (r := l.length + 1) hv ?_ ?_ ?_
    ?_ (fun _ => pushed_block_ne) ?_
  · exact pushed_vector
  · rw [State.pushed, tally_constructed, free_constructed]
    rfl
  · rw [State.pushed, tally_destroyed, free_destroyed]
    rfl
  · rw [Lists.size_of hl]
    omega
  · intro a ha
    rw [State.pushed, tally_block, free_block_self ha]
    exact hP

/-- The block the vector had is still there, empty. -/
theorem Books.copied (h : Books P s L lost) (hv : s.vector v = some m)
    (hl : L v = some l) (hm : m.Avoids s.next)
    (hP : ∀ a, m.first = some a → P (some (.of m.capacity []))) :
    Books P (s.copied v m l l') (Function.update L v (some l')) lost := by
  refine h.inNew (n := l'.length) (q := l'.length) (r := l.length) hv ?_ ?_
    ?_ ?_ (fun _ => copied_block_ne) ?_
  · exact copied_vector
  · rw [State.copied, tally_constructed, setBlock_constructed,
      wipe_constructed]
    rfl
  · rw [State.copied, tally_destroyed, setBlock_destroyed, wipe_destroyed]
    rfl
  · rw [Lists.size_of hl]
    omega
  · intro a ha
    rw [State.copied, tally_block, setBlock_block_ne (hm a ha),
      wipe_block_self ha]
    exact hP a ha

theorem Books.cleared (h : Books P s L lost) (hv : s.vector v = some m)
    (hl : L v = some l) (hm : Holds env s m l) :
    Books P (((s.setVector v (some m.cleared)).wipe m).tally 0 0 l.length)
      (Function.update L v (some [])) lost := by
  cases hm with
  | null =>
      have hsame : s.setVector v (some .null) = s := setVector_same hv
      show Books P (s.setVector v (some .null)) _ lost
      rw [hsame, ← hl, Function.update_eq_self]
      exact h
  | @buffer b c _ hb hlen hc =>
      refine h.inPlace (l := []) hv ?_
      rw [Lists.size_of hl, List.length_nil, Nat.zero_add]
      rfl

theorem Books.destroyed (h : Books P s L lost) (hP : P none)
    (hv : s.vector v = some m) (hl : L v = some l) :
    Books P ((((s.setVector v (some m.cleared)).free m).tally 0 0
      l.length).setVector v none) (Function.update L v none) lost := by
  refine h.change (k := none) (t := none) (q := 0) (r := l.length) (j := 0)
    ?_ ?_ ?_ ?_ ?_ ?_
  · rw [setVector_tally, tally_vector, free_setVector, free_vector,
      setVector_setVector]
    rfl
  · rw [setVector_tally, tally_constructed, free_setVector,
      free_constructed]
    rfl
  · rw [setVector_tally, tally_destroyed, free_setVector, free_destroyed]
    rfl
  · rw [Lists.size_of hl]
    exact (Nat.zero_add l.length).symm
  · intro b hb _
    rw [setVector_tally, tally_block, free_setVector, free_block_ne (hb m hv)]
    rfl
  · intro m' a hm' ha _
    rw [hv] at hm'
    cases hm'
    rw [setVector_tally, tally_block, free_setVector, free_block_self ha]
    exact hP

/-- A buffer, with its elements, changes hands. -/
theorem Books.steal (h : Books P (s.setVector v none) L lost) (hne : v ≠ w)
    (hw : s.vector w = some m) (hlv : L v = none) (hl : L w = some l) :
    Books P ((s.setVector v (some m)).setVector w (some .null))
      (Function.update (Function.update L v (some l)) w (some [])) lost where
  balance := by
    obtain ⟨names, hnames, hsum⟩ := h.balance
    have hmem : w ∈ names := hnames w (by rw [hl]; simp)
    refine ⟨insert v names, ?_, ?_⟩
    · intro u hu
      rcases eq_or_ne u v with rfl | huv
      · exact Finset.mem_insert_self u names
      · rcases eq_or_ne u w with rfl | huw
        · exact Finset.mem_insert_of_mem hmem
        · rw [Function.update_of_ne huw, Function.update_of_ne huv] at hu
          exact Finset.mem_insert_of_mem (hnames u hu)
    · have hinsert := sum_size_insert hnames v
      have hv' := sum_size_update (L := L) (Finset.mem_insert_self v names)
        (some l)
      have hw' := sum_size_update (L := Function.update L v (some l))
        (Finset.mem_insert_of_mem (a := w) (b := v) hmem) (some [])
      have hsize : Lists.size (Function.update L v (some l)) w = l.length := by
        refine Lists.size_of ?_
        rw [Function.update_of_ne hne.symm]
        exact hl
      rw [Lists.size_none hlv] at hv'
      rw [hsize] at hw'
      simp only [Option.elim_some, List.length_nil] at hv' hw'
      have hsum : s.constructed = s.destroyed + ∑ u ∈ names, L.size u + lost :=
        hsum
      show s.constructed = s.destroyed + _ + lost
      omega
  unowned := by
    intro b hb
    refine h.unowned b ?_
    rintro ⟨u, mu, a, hu, ha, rfl⟩
    refine hb ?_
    rcases eq_or_ne u w with rfl | huw
    · rw [setVector_vector_ne hne.symm] at hu
      rw [hw] at hu
      cases hu
      refine ⟨v, m, a, ?_, ha, rfl⟩
      rw [setVector_vector_ne hne, setVector_vector_self]
    · have huv : u ≠ v := by
        rintro rfl
        rw [setVector_vector_self] at hu
        cases hu
      refine ⟨u, mu, a, ?_, ha, rfl⟩
      rw [setVector_vector_ne huw, setVector_vector_ne huv]
      rw [setVector_vector_ne huv] at hu
      exact hu

/-- The members of a new vector have been initialized. -/
theorem Books.declared (h : Books P s L lost) (hv : s.vector v = none)
    (hl : L v = none) :
    Books P (s.setVector v (some .null)) (Function.update L v (some []))
      lost := by
  refine h.change (k := some .null) (q := 0) (r := 0) (j := 0) rfl rfl rfl ?_
    (fun _ _ _ => rfl) ?_
  · rw [Lists.size_none hl]
    rfl
  · intro m a hm
    rw [hv] at hm
    cases hm

end Change

end LearningCpp.CustomVector
