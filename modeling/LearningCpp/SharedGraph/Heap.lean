import LearningCpp.Lib.Token
import LearningCpp.SharedGraph.Model

/-!
# The heap between two steps

Every count is the number of handles that have the block, and an object is there
as long as a handle refers to it. Two things can be on top while a member
function runs: an object that nobody refers to may be on its way to `delete` or
to its first handle, and fields of a deleted object may be waiting for their
destructors. A handle with a block but no object belongs to no count; `release`
forgets such blocks.
-/

namespace LearningCpp.SharedGraph

open LearningCpp.Lib Program
open LearningCpp.SharedPtr (Life SharedPointer)
open LearningCpp.UniquePtr (Layout)

variable {H O B : Type}

/-- The fields in `D` wait for their destructors, and nobody refers to the
object `loose`. -/
structure Heap (L : Layout H O) (s : State H O B) (D : Set H)
    (loose : Option O) : Prop where
  fields : ∀ h o, L.home h = some o → s.object o = .alive → s.handle h ≠ none
  home : ∀ h o, L.home h = some o → s.handle h ≠ none →
    s.object o = .alive ∨ h ∈ D
  full : ∀ h o cb, s.handle h = some ⟨some o, cb⟩ →
    s.object o = .alive ∧ ∃ b, cb = some b ∧
      {x | s.handle x = some ⟨some o, some b⟩}.encard = s.count b
  block : ∀ h p b, s.handle h = some ⟨p, some b⟩ → s.block b = .alive
  agree : ∀ h h' p p', s.handle h = some p → s.handle h' = some p' →
    (p.ptr ≠ none ∧ p.ptr = p'.ptr) ∨ (p.cb ≠ none ∧ p.cb = p'.cb) → p = p'
  owner : ∀ o, s.object o = .alive → loose = some o ∨ ∃ h, s.ptr h = some o
  loose : ∀ o, loose = some o → s.object o = .alive ∧ ∀ h, s.ptr h ≠ some o
  finite : {o | s.object o = .alive}.Finite

theorem heap_init (L : Layout H O) : Heap L (State.init : State H O B) ∅ none
    where
  fields := fun _ _ _ h => by cases h
  home := fun _ _ _ h => absurd rfl h
  full := fun _ _ _ h => by cases h
  block := fun _ _ _ h => by cases h
  agree := fun _ _ _ _ h => by cases h
  owner := fun _ h => by cases h
  loose := fun _ h => by cases h
  finite := by
    refine Set.Finite.subset Set.finite_empty ?_
    intro o ho
    cases ho

variable {L : Layout H O} {s s' : State H O B} {D D' : Set H}
  {loose loose' : Option O} {h k : H} {p q : SharedPointer O B} {o : O} {b : B}
  {cb : Option B}

theorem ptr_of_handle (hh : s.handle h = some p) : s.ptr h = p.ptr := by
  rw [State.ptr, hh]
  rfl

theorem handle_of_ptr (hh : s.ptr h = some o) :
    ∃ cb, s.handle h = some ⟨some o, cb⟩ := by
  obtain ⟨⟨ptr, cb⟩, hp, ho⟩ := Option.bind_eq_some_iff.1 hh
  cases ho
  exact ⟨cb, hp⟩

/-- The handle has the pair of an object and its block. -/
theorem Heap.full_of_ptr (hs : Heap L s D loose) (hh : s.ptr h = some o) :
    ∃ b, s.handle h = some ⟨some o, some b⟩ ∧ s.object o = .alive ∧
      s.block b = .alive ∧
      {x | s.handle x = some ⟨some o, some b⟩}.encard = s.count b := by
  obtain ⟨cb, hcb⟩ := handle_of_ptr hh
  obtain ⟨ho, b, rfl, hcount⟩ := hs.full h o cb hcb
  exact ⟨b, hcb, ho, hs.block h _ b hcb, hcount⟩

/-- All handles that refer to an object have its block. -/
theorem Heap.ptr_iff (hs : Heap L s D loose)
    (hh : s.handle h = some ⟨some o, some b⟩) :
    s.ptr k = some o ↔ s.handle k = some ⟨some o, some b⟩ := by
  constructor
  · intro hk
    obtain ⟨cb, hcb⟩ := handle_of_ptr hk
    rw [hcb, hs.agree k h _ _ hcb hh (.inl ⟨by simp, rfl⟩)]
  · exact fun hk => ptr_of_handle hk

/-- And no other handle has. -/
theorem Heap.cb_iff (hs : Heap L s D loose)
    (hh : s.handle h = some ⟨some o, some b⟩) {ptr : Option O} :
    s.handle k = some ⟨ptr, some b⟩ →
      s.handle k = some ⟨some o, some b⟩ := by
  intro hk
  rw [hk, hs.agree k h _ _ hk hh (.inr ⟨by simp, rfl⟩)]

@[simp] theorem null_ne_some (o : O) (cb : Option B) :
    SharedPointer.null ≠ ⟨some o, cb⟩ := by simp [SharedPointer.null]

@[simp] theorem null_ne_block (ptr : Option O) (b : B) :
    SharedPointer.null ≠ ⟨ptr, some b⟩ := by simp [SharedPointer.null]

/-! ## Changes to handles -/

/-- Empty handles have nothing to agree on. -/
theorem Heap.agree_of_values (hs : Heap L s D loose)
    (hvalues : ∀ h p, s'.handle h = some p →
      p = .null ∨ ∃ k, s.handle k = some p) (h h' : H) (p p' : SharedPointer O B)
    (hh : s'.handle h = some p) (hh' : s'.handle h' = some p')
    (hagree : (p.ptr ≠ none ∧ p.ptr = p'.ptr) ∨ (p.cb ≠ none ∧ p.cb = p'.cb)) :
    p = p' := by
  rcases hvalues h p hh with rfl | ⟨k, hk⟩
  · rcases hagree with ⟨hne, _⟩ | ⟨hne, _⟩
    · exact absurd rfl hne
    · exact absurd rfl hne
  · rcases hvalues h' p' hh' with rfl | ⟨k', hk'⟩
    · rcases hagree with ⟨hne, heq⟩ | ⟨hne, heq⟩
      · exact absurd heq hne
      · exact absurd heq hne
    · exact hs.agree k k' p p' hk hk' hagree

/-- The objects and blocks stay, and each handle has what some handle had. -/
theorem Heap.change (hs : Heap L s D loose) (hobject : s'.object = s.object)
    (hblock : s'.block = s.block)
    (hfields : ∀ h o, L.home h = some o → s.object o = .alive →
      s'.handle h ≠ none)
    (hhome : ∀ h o, L.home h = some o → s'.handle h ≠ none →
      s.object o = .alive ∨ h ∈ D')
    (hvalues : ∀ h p, s'.handle h = some p →
      p = .null ∨ ∃ k, s.handle k = some p)
    (hcount : ∀ h o b, s'.handle h = some ⟨some o, some b⟩ →
      {x | s'.handle x = some ⟨some o, some b⟩}.encard = s'.count b)
    (howner : ∀ o, s.object o = .alive →
      loose' = some o ∨ ∃ h, s'.ptr h = some o)
    (hloose : ∀ o, loose' = some o → s.object o = .alive ∧
      ∀ h, s'.ptr h ≠ some o) : Heap L s' D' loose' where
  fields := by
    rw [hobject]
    exact hfields
  home := by
    rw [hobject]
    exact hhome
  full := by
    intro h o cb hh
    rw [hobject]
    rcases hvalues h _ hh with hnull | ⟨k, hk⟩
    · cases hnull
    · obtain ⟨ho, b, rfl, _⟩ := hs.full k o cb hk
      exact ⟨ho, b, rfl, hcount h o b hh⟩
  block := by
    intro h p b hh
    rw [hblock]
    rcases hvalues h _ hh with hnull | ⟨k, hk⟩
    · cases hnull
    · exact hs.block k p b hk
  agree := hs.agree_of_values hvalues
  owner := by
    rw [hobject]
    exact howner
  loose := by
    rw [hobject]
    exact hloose
  finite := by
    rw [hobject]
    exact hs.finite

/-- The same handles are there, with values that were there before, and no
object loses its last one. -/
theorem Heap.reshape (hs : Heap L s D loose) (hobject : s'.object = s.object)
    (hblock : s'.block = s.block)
    (hlive : ∀ x, s'.handle x ≠ none ↔ s.handle x ≠ none)
    (hvalues : ∀ x p, s'.handle x = some p → ∃ y, s.handle y = some p)
    (hback : ∀ x o cb, s.handle x = some ⟨some o, cb⟩ →
      ∃ y, s'.handle y = some ⟨some o, cb⟩)
    (hcount : ∀ h o b, s'.handle h = some ⟨some o, some b⟩ →
      {x | s'.handle x = some ⟨some o, some b⟩}.encard = s'.count b) :
    Heap L s' D loose := by
  refine hs.change hobject hblock ?_ ?_ (fun x p hx => .inr (hvalues x p hx))
    hcount ?_ ?_
  · intro x o hx ho
    exact (hlive x).2 (hs.fields x o hx ho)
  · intro x o hx hne
    exact hs.home x o hx ((hlive x).1 hne)
  · intro o ho
    refine (hs.owner o ho).imp_right fun howner => ?_
    obtain ⟨x, hx⟩ := howner
    obtain ⟨cb, hcb⟩ := handle_of_ptr hx
    obtain ⟨y, hy⟩ := hback x o cb hcb
    exact ⟨y, ptr_of_handle hy⟩
  · intro o ho
    obtain ⟨halive, hnone⟩ := hs.loose o ho
    refine ⟨halive, fun x hx => ?_⟩
    obtain ⟨cb, hcb⟩ := handle_of_ptr hx
    obtain ⟨y, hy⟩ := hvalues x _ hcb
    exact hnone y (ptr_of_handle hy)

section Count

variable [DecidableEq B]

@[simp] theorem setCount_handle (n : ℕ) :
    (s.setCount b n).handle = s.handle := rfl

@[simp] theorem setCount_count_self (n : ℕ) : (s.setCount b n).count b = n :=
  Function.update_self _ _ _

theorem setCount_count_ne {b' : B} (hne : b' ≠ b) (n : ℕ) :
    (s.setCount b n).count b' = s.count b' := Function.update_of_ne hne _ _

end Count

variable [DecidableEq H]

@[simp] theorem setHandle_self (s : State H O B) (h : H)
    (p : Option (SharedPointer O B)) : (s.setHandle h p).handle h = p :=
  Function.update_self _ _ _

theorem setHandle_of_ne (s : State H O B) (hk : k ≠ h)
    (p : Option (SharedPointer O B)) :
    (s.setHandle h p).handle k = s.handle k :=
  Function.update_of_ne hk _ _

/-- A handle that has no object comes, goes or forgets its block. -/
theorem Heap.setEmpty (hs : Heap L s D loose)
    (hbefore : ∀ p, s.handle h = some p → p.ptr = none)
    {v : Option (SharedPointer O B)} (hv : v = none ∨ v = some .null)
    (hfields : ∀ o, L.home h = some o → v = none → s.object o ≠ .alive)
    (hhome : ∀ k o, L.home k = some o → (s.setHandle h v).handle k ≠ none →
      s.object o = .alive ∨ k ∈ D') :
    Heap L (s.setHandle h v) D' loose := by
  have hfull : ∀ k o cb, (s.setHandle h v).handle k = some ⟨some o, cb⟩ ↔
      s.handle k = some ⟨some o, cb⟩ := by
    intro k o cb
    rcases eq_or_ne k h with rfl | hne
    · rw [setHandle_self]
      refine iff_of_false ?_ ?_
      · intro heq
        rcases hv with rfl | rfl <;> cases heq
      · intro heq
        have hnone := hbefore _ heq
        cases hnone
    · rw [setHandle_of_ne s hne]
  have hptr : ∀ k o, (s.setHandle h v).ptr k = some o ↔ s.ptr k = some o := by
    intro k o
    constructor
    · intro hk
      obtain ⟨cb, hcb⟩ := handle_of_ptr hk
      exact ptr_of_handle ((hfull k o cb).1 hcb)
    · intro hk
      obtain ⟨cb, hcb⟩ := handle_of_ptr hk
      exact ptr_of_handle ((hfull k o cb).2 hcb)
  refine hs.change rfl rfl ?_ hhome ?_ ?_ ?_ ?_
  · intro k o hk ho
    rcases eq_or_ne k h with rfl | hne
    · rw [setHandle_self]
      exact fun hnone => hfields o hk hnone ho
    · rw [setHandle_of_ne s hne]
      exact hs.fields k o hk ho
  · intro k p hk
    rcases eq_or_ne k h with rfl | hne
    · rw [setHandle_self] at hk
      rcases hv with rfl | rfl
      · cases hk
      · cases hk
        exact .inl rfl
    · rw [setHandle_of_ne s hne] at hk
      exact .inr ⟨k, hk⟩
  · intro k o b hk
    obtain ⟨_, b', heq, hcount⟩ := hs.full k o _ ((hfull k o _).1 hk)
    cases heq
    rw [encard_congr fun x => hfull x o (some b)]
    exact hcount
  · intro o ho
    refine (hs.owner o ho).imp_right fun howner => ?_
    obtain ⟨k, hk⟩ := howner
    exact ⟨k, (hptr k o).2 hk⟩
  · intro o ho
    obtain ⟨halive, hnone⟩ := hs.loose o ho
    exact ⟨halive, fun k hk => hnone k ((hptr k o).1 hk)⟩

/-- Two handles trade what they have. In particular one may hand over to the
other. -/
theorem Heap.exchange (hs : Heap L s D loose) (hne : h ≠ k)
    (hh : s.handle h = some p) (hk : s.handle k = some q) :
    Heap L ((s.setHandle h (some q)).setHandle k (some p)) D loose := by
  obtain ⟨s', hs'⟩ : ∃ s', s' = (s.setHandle h (some q)).setHandle k (some p) :=
    ⟨_, rfl⟩
  rw [← hs']
  have hk' : s'.handle k = some p := by rw [hs', setHandle_self]
  have hh' : s'.handle h = some q := by
    rw [hs', setHandle_of_ne _ hne, setHandle_self]
  have hother : ∀ x, x ≠ h → x ≠ k → s'.handle x = s.handle x := by
    intro x hxh hxk
    rw [hs', setHandle_of_ne _ hxk, setHandle_of_ne _ hxh]
  have hlive : ∀ x, s'.handle x ≠ none ↔ s.handle x ≠ none := by
    intro x
    by_cases hxh : x = h
    · simp [hxh, hh, hh']
    · by_cases hxk : x = k
      · simp [hxk, hk, hk']
      · rw [hother x hxh hxk]
  have hvalues : ∀ x p, s'.handle x = some p → ∃ y, s.handle y = some p := by
    intro x p hx
    by_cases hxh : x = h
    · exact ⟨k, by rw [hk, ← hx, hxh, hh']⟩
    · by_cases hxk : x = k
      · exact ⟨h, by rw [hh, ← hx, hxk, hk']⟩
      · exact ⟨x, by rw [← hother x hxh hxk, hx]⟩
  have hback : ∀ x p, s.handle x = some p → ∃ y, s'.handle y = some p := by
    intro x p hx
    by_cases hxh : x = h
    · exact ⟨k, by rw [hk', ← hx, hxh, hh]⟩
    · by_cases hxk : x = k
      · exact ⟨h, by rw [hh', ← hx, hxk, hk]⟩
      · exact ⟨x, by rw [hother x hxh hxk, hx]⟩
  refine hs.reshape (by rw [hs']; rfl) (by rw [hs']; rfl) hlive hvalues
    (fun x o cb => hback x _) ?_
  intro x o b hx
  obtain ⟨y, hy⟩ := hvalues x _ hx
  obtain ⟨_, b', heq, hcount⟩ := hs.full y o _ hy
  cases heq
  refine (encard_exchange (P := fun x => s.handle x = some ⟨some o, some b⟩)
    (a := h) (c := k) (by rw [hh', hk]) (by rw [hk', hh]) ?_).trans ?_
  · exact fun x hxh hxk => by rw [hother x hxh hxk]
  · rw [hcount, hs']
    rfl

variable [DecidableEq B]

/-- A handle takes what another one has, and the block counts one more. -/
theorem Heap.share (hs : Heap L s D loose) (hh : s.handle h = some .null)
    {ptr : Option O} (hk : s.handle k = some ⟨ptr, some b⟩) :
    Heap L ((s.setHandle h (some ⟨ptr, some b⟩)).setCount b (s.count b + 1)) D
      loose := by
  have hself : (s.setHandle h (some ⟨ptr, some b⟩)).handle h =
      some ⟨ptr, some b⟩ := setHandle_self _ _ _
  have hother : ∀ x, x ≠ h → (s.setHandle h (some ⟨ptr, some b⟩)).handle x =
      s.handle x := fun x hx => setHandle_of_ne s hx _
  have hlive : ∀ x, (s.setHandle h (some ⟨ptr, some b⟩)).handle x ≠ none ↔
      s.handle x ≠ none := by
    intro x
    by_cases hx : x = h
    · rw [hx, hself, hh]
      simp
    · rw [hother x hx]
  have hvalues : ∀ x p, (s.setHandle h (some ⟨ptr, some b⟩)).handle x =
      some p → ∃ y, s.handle y = some p := by
    intro x p hx
    by_cases hxh : x = h
    · rw [hxh, hself] at hx
      exact ⟨k, hk.trans hx⟩
    · exact ⟨x, by rw [← hother x hxh, hx]⟩
  have hback : ∀ x o cb, s.handle x = some ⟨some o, cb⟩ →
      ∃ y, (s.setHandle h (some ⟨ptr, some b⟩)).handle y =
        some ⟨some o, cb⟩ := by
    intro x o cb hx
    refine ⟨x, (hother x ?_).trans hx⟩
    rintro rfl
    rw [hh] at hx
    cases hx
  refine hs.reshape rfl rfl hlive hvalues hback ?_
  intro x o b' hx
  obtain ⟨y, hy⟩ := hvalues x _ hx
  obtain ⟨_, b'', heq, hcount⟩ := hs.full y o _ hy
  cases heq
  rw [setCount_handle]
  by_cases hb : b' = b
  · subst hb
    have hpair : (⟨ptr, some b'⟩ : SharedPointer O B) = ⟨some o, some b'⟩ :=
      hs.agree k y _ _ hk hy (.inr ⟨by simp, rfl⟩)
    rw [setCount_count_self]
    refine encard_gain (a := h) (by rw [hh]; simp) ?_ hcount
    intro x
    by_cases hxh : x = h
    · rw [hxh, hself, hpair]
      simp
    · rw [hother x hxh]
      simp [hxh]
  · rw [setCount_count_ne hb]
    refine (encard_congr fun x => ?_).trans hcount
    by_cases hxh : x = h
    · rw [hxh, hself, hh]
      refine iff_of_false ?_ (by simp)
      intro heq
      cases heq
      exact hb rfl
    · rw [hother x hxh]

/-- The state when the count has gone down. -/
def State.giveUp (s : State H O B) (h : H) (b : B) : State H O B :=
  (s.setHandle h (some .null)).setCount b (s.count b - 1)

@[simp] theorem giveUp_self : (s.giveUp h b).handle h = some .null :=
  setHandle_self _ _ _

theorem giveUp_of_ne (hk : k ≠ h) : (s.giveUp h b).handle k = s.handle k :=
  setHandle_of_ne s hk _

theorem giveUp_ne (hk : (s.giveUp h b).handle k = some ⟨some o, cb⟩) :
    k ≠ h := by
  rintro rfl
  rw [giveUp_self] at hk
  cases hk

/-- The block has one handle less. -/
theorem Heap.giveUp_holders (hs : Heap L s D none)
    (hh : s.handle h = some ⟨some o, some b⟩) :
    {x | (s.giveUp h b).handle x = some ⟨some o, some b⟩}.encard =
      (s.count b - 1 : ℕ) := by
  obtain ⟨_, _, heq, hcount⟩ := hs.full h o _ hh
  cases heq
  exact encard_lose hh (by rw [giveUp_self]; simp)
    (fun x hx => by rw [giveUp_of_ne hx]) hcount

theorem Heap.giveUp_count (hs : Heap L s D none)
    (hh : s.handle h = some ⟨some o, some b⟩) {o' : O} {b' : B}
    (hk : (s.giveUp h b).handle k = some ⟨some o', some b'⟩) :
    {x | (s.giveUp h b).handle x = some ⟨some o', some b'⟩}.encard =
      (s.giveUp h b).count b' := by
  rw [giveUp_of_ne (giveUp_ne hk)] at hk
  by_cases hb : b' = b
  · subst hb
    have heq := (hs.cb_iff hh hk).symm.trans hk
    cases heq
    rw [State.giveUp, setCount_count_self]
    exact hs.giveUp_holders hh
  · rw [State.giveUp, setCount_count_ne hb]
    obtain ⟨_, _, heq, hcount⟩ := hs.full k o' _ hk
    cases heq
    refine (encard_congr fun x => ?_).trans hcount
    by_cases hxh : x = h
    · rw [hxh, setCount_handle, setHandle_self, hh]
      refine iff_of_false (by simp) ?_
      intro heq
      cases heq
      exact hb rfl
    · rw [setCount_handle, setHandle_of_ne s hxh]

/-- If that was the last one, nobody refers to the object any more. -/
theorem Heap.giveUp (hs : Heap L s D none)
    (hh : s.handle h = some ⟨some o, some b⟩) :
    Heap L (s.giveUp h b) D (if s.count b - 1 = 0 then some o else none) := by
  have hholders := hs.giveUp_holders hh
  refine hs.change rfl rfl ?_ ?_ ?_ (fun _ _ _ => hs.giveUp_count hh) ?_ ?_
  · intro x o' hx ho'
    by_cases hxh : x = h
    · simp [hxh]
    · rw [giveUp_of_ne hxh]
      exact hs.fields x o' hx ho'
  · intro x o' hx hne
    refine hs.home x o' hx ?_
    by_cases hxh : x = h
    · simp [hxh, hh]
    · rwa [giveUp_of_ne hxh] at hne
  · intro x p hx
    by_cases hxh : x = h
    · rw [hxh, giveUp_self] at hx
      cases hx
      exact .inl rfl
    · rw [giveUp_of_ne hxh] at hx
      exact .inr ⟨x, hx⟩
  · intro o' ho'
    obtain ⟨x, hx⟩ := (hs.owner o' ho').resolve_left (by simp)
    obtain ⟨cb, hcb⟩ := handle_of_ptr hx
    by_cases hxh : x = h
    · rw [hxh, hh] at hcb
      cases hcb
      split
      · exact .inl rfl
      · next hpos =>
          obtain ⟨y, hy⟩ := exists_of_encard_eq hholders
            (Nat.pos_of_ne_zero hpos)
          exact .inr ⟨y, ptr_of_handle (p := ⟨_, some b⟩) hy⟩
    · exact .inr ⟨x, ptr_of_handle ((giveUp_of_ne hxh).trans hcb)⟩
  · intro o' ho'
    split at ho'
    · next hzero =>
        cases ho'
        refine ⟨(hs.full h o _ hh).1, fun x hx => ?_⟩
        rw [hzero] at hholders
        obtain ⟨cb, hcb⟩ := handle_of_ptr hx
        have hxh := giveUp_ne hcb
        have hpair : s.handle x = some ⟨some o, some b⟩ :=
          (hs.ptr_iff hh).1 (ptr_of_handle ((giveUp_of_ne hxh).symm.trans hcb))
        exact not_of_encard_eq_zero hholders x ((giveUp_of_ne hxh).trans hpair)
    · cases ho'

end LearningCpp.SharedGraph
