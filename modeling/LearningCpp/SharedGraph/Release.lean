import LearningCpp.SharedGraph.Heap

/-!
# `release`, to its end

A `release` and all it starts ends, in a state where every count is right again,
if its fuel is more than the objects there are: a level deeper there is one
object less. All it does to other handles is that those go which are fields of
objects it deletes. The induction is on the fuel, and inside it on the fields of
the object that is deleted.
-/

namespace LearningCpp.SharedGraph

open LearningCpp.Lib Program
open LearningCpp.SharedPtr (Life SharedPointer)
open LearningCpp.UniquePtr (Layout)

variable {H O B : Type} {L : Layout H O} {s s' s'' : State H O B}
  {D X Y : Set H} {loose : Option O} {h k : H} {p : SharedPointer O B} {o : O}
  {b : B} {n : ℕ}

/-! ## Deletions -/

def State.deleteObject [DecidableEq O] (s : State H O B) (o : O) :
    State H O B :=
  { s with object := Function.update s.object o .deleted }

def State.deleteBlock [DecidableEq B] (s : State H O B) (b : B) :
    State H O B :=
  { s with block := Function.update s.block b .deleted }

theorem alive_deleteObject [DecidableEq O] {x : O} :
    (s.deleteObject o).object x = .alive ↔ x ≠ o ∧ s.object x = .alive := by
  unfold State.deleteObject
  rcases eq_or_ne x o with rfl | hne
  · simp
  · simp [hne]

/-- Nobody refers to the object, and now its fields wait. -/
theorem Heap.deleteObject [DecidableEq O] (hs : Heap L s D (some o)) :
    Heap L (s.deleteObject o) (D ∪ {x | L.home x = some o}) none where
  fields := by
    intro h x hx hlive
    exact hs.fields h x hx (alive_deleteObject.1 hlive).2
  home := by
    intro h x hx hne
    rcases eq_or_ne x o with rfl | hxo
    · exact .inr (.inr hx)
    · rcases hs.home h x hx hne with hlive | hD
      · exact .inl (alive_deleteObject.2 ⟨hxo, hlive⟩)
      · exact .inr (.inl hD)
  full := by
    intro h x cb hh
    obtain ⟨hlive, hrest⟩ := hs.full h x cb hh
    refine ⟨alive_deleteObject.2 ⟨?_, hlive⟩, hrest⟩
    rintro rfl
    exact (hs.loose x rfl).2 h (ptr_of_handle hh)
  block := hs.block
  agree := hs.agree
  owner := by
    intro x hx
    obtain ⟨hxo, hx⟩ := alive_deleteObject.1 hx
    refine .inr ((hs.owner x hx).resolve_left ?_)
    intro heq
    cases heq
    exact hxo rfl
  loose := fun _ h => by cases h
  finite := hs.finite.subset fun _ hx => (alive_deleteObject.1 hx).2

theorem Heap.deleteBlock [DecidableEq B] (hs : Heap L s D loose)
    (hb : ∀ h p, s.handle h ≠ some ⟨p, some b⟩) :
    Heap L (s.deleteBlock b) D loose where
  fields := hs.fields
  home := hs.home
  full := hs.full
  block := by
    intro h p b' hh
    have hne : b' ≠ b := by
      rintro rfl
      exact hb h p hh
    exact (Function.update_of_ne hne _ _).trans (hs.block h p b' hh)
  agree := hs.agree
  owner := hs.owner
  loose := hs.loose
  finite := hs.finite

/-! ## What a release may do -/

/-- The handles in `X` end up empty or are gone, and other handles go only with
their objects. -/
structure Falls (L : Layout H O) (X : Set H) (s s' : State H O B) : Prop where
  kept : ∀ h, h ∉ X → s'.handle h = s.handle h ∨
    (s'.handle h = none ∧ ∃ o, L.home h = some o ∧ s.object o = .alive)
  emptied : ∀ h ∈ X, s'.handle h = some .null ∨ s'.handle h = none
  object : ∀ o, s'.object o = s.object o ∨
    (s.object o = .alive ∧ s'.object o = .deleted)
  block : ∀ b, (∀ h p, s.handle h ≠ some ⟨p, some b⟩) →
    s'.block b = s.block b

theorem Falls.refl (L : Layout H O) (s : State H O B) : Falls L ∅ s s :=
  ⟨fun _ _ => .inl rfl, fun _ h => absurd h (Set.notMem_empty _),
    fun _ => .inl rfl, fun _ _ => rfl⟩

theorem Falls.alive (h : Falls L X s s') (ho : s'.object o = .alive) :
    s.object o = .alive := by
  rcases h.object o with heq | ⟨hlive, _⟩
  · rw [← heq]
    exact ho
  · exact hlive

/-- A handle that has something has it from the start. -/
theorem Falls.of_some (hf : Falls L X s s') (hh : s'.handle h = some p) :
    p = .null ∨ s.handle h = some p := by
  by_cases hX : h ∈ X
  · rcases hf.emptied h hX with heq | hnone
    · rw [hh] at heq
      cases heq
      exact .inl rfl
    · rw [hh] at hnone
      cases hnone
  · rcases hf.kept h hX with heq | ⟨hnone, _⟩
    · exact .inr (heq ▸ hh)
    · rw [hh] at hnone
      cases hnone

theorem Falls.not_held (hf : Falls L X s s')
    (hb : ∀ h p, s.handle h ≠ some ⟨p, some b⟩) (h : H) (p : Option O) :
    s'.handle h ≠ some ⟨p, some b⟩ := by
  intro hh
  rcases hf.of_some hh with hnull | hh
  · cases hnull
  · exact hb h p hh

theorem Falls.trans (hf : Falls L X s s') (hg : Falls L Y s' s'') :
    Falls L (X ∪ Y) s s'' where
  kept := by
    intro h hh
    have hX : h ∉ X := fun hmem => hh (.inl hmem)
    have hY : h ∉ Y := fun hmem => hh (.inr hmem)
    rcases hf.kept h hX with heq | ⟨hnone, hhome⟩
    · rcases hg.kept h hY with heq' | ⟨hnone, o, ho, hlive⟩
      · exact .inl (heq'.trans heq)
      · exact .inr ⟨hnone, o, ho, hf.alive hlive⟩
    · rcases hg.kept h hY with heq' | ⟨hnone', _⟩
      · exact .inr ⟨heq'.trans hnone, hhome⟩
      · exact .inr ⟨hnone', hhome⟩
  emptied := by
    intro h hh
    by_cases hY : h ∈ Y
    · exact hg.emptied h hY
    · rcases hg.kept h hY with heq | ⟨hnone, _⟩
      · rw [heq]
        exact hf.emptied h (hh.resolve_right hY)
      · exact .inr hnone
  object := by
    intro o
    rcases hf.object o with heq | ⟨hlive, hdeleted⟩
    · rcases hg.object o with heq' | ⟨hlive, hdeleted⟩
      · exact .inl (heq'.trans heq)
      · exact .inr ⟨heq ▸ hlive, hdeleted⟩
    · rcases hg.object o with heq' | ⟨hlive', _⟩
      · exact .inr ⟨hlive, heq'.trans hdeleted⟩
      · rw [hdeleted] at hlive'
        cases hlive'
  block := by
    intro b hb
    rw [hg.block b (hf.not_held hb), hf.block b hb]

/-- The objects there are. -/
noncomputable def State.alive (s : State H O B) : ℕ :=
  {o | s.object o = .alive}.ncard

theorem Falls.alive_le (hf : Falls L X s s') (hs : Heap L s D loose) :
    s'.alive ≤ s.alive :=
  Set.ncard_le_ncard (fun _ ho => hf.alive ho) hs.finite

theorem alive_deleteObject_lt [DecidableEq O] (hs : Heap L s D (some o)) :
    (s.deleteObject o).alive < s.alive := by
  refine Set.ncard_lt_ncard ⟨fun x hx => (alive_deleteObject.1 hx).2, ?_⟩
    hs.finite
  intro hall
  exact (alive_deleteObject.1 (hall (hs.loose o rfl).1)).1 rfl

section Run

variable [DecidableEq H]

/-- One handle is emptied or ends. -/
theorem falls_setHandle {v : Option (SharedPointer O B)}
    (hv : v = some .null ∨ v = none) : Falls L {h} s (s.setHandle h v) where
  kept := fun k hk => .inl (setHandle_of_ne s hk v)
  emptied := by
    intro k hk
    cases hk
    rw [setHandle_self]
    exact hv
  object := fun _ => .inl rfl
  block := fun _ _ => rfl

omit [DecidableEq H] in
theorem pointers_returns (hh : s.handle h = some p) :
    Returns (pointers h) s p s := .read hh

theorem assign_returns (hh : s.handle h ≠ none) (q : SharedPointer O B) :
    Returns (assign h q) s () (s.setHandle h (some q)) := by
  obtain ⟨p, hp⟩ := Option.ne_none_iff_exists'.1 hh
  exact .update (by simp [hp])

theorem end_returns (hh : s.handle h ≠ none) :
    Returns (end_ h) s () (s.setHandle h none) := by
  obtain ⟨p, hp⟩ := Option.ne_none_iff_exists'.1 hh
  exact .update (by simp [hp])

omit [DecidableEq H] in
theorem lock_returns (hb : s.block b = .alive) :
    Returns (lock (some b)) s b s := .read (by simp [hb])

omit [DecidableEq H] in
theorem decrement_returns [DecidableEq B] : Returns (decrement b) s
    (decide (s.count b - 1 = 0)) (s.setCount b (s.count b - 1)) := by
  refine Returns.bind (Returns.update rfl) (Returns.read ?_)
  rw [setCount_count_self]

variable [DecidableEq O] [DecidableEq B]

/-- What `release` is to do from a state, with so much fuel. -/
structure Releases (L : Layout H O) (fuel : ℕ) (s : State H O B) (D : Set H)
    (h : H) (s' : State H O B) : Prop where
  run : Returns (release L fuel h) s () s'
  heap : Heap L s' D none
  falls : Falls L {h} s s'
  /-- The handle is still there, unless its own object went. -/
  handle : s'.handle h = some .null ∨
    ∃ o, L.home h = some o ∧ s.object o = .alive

/-- With so much fuel `release` does what it is to do. -/
def Sufficient (L : Layout H O) (B : Type) [DecidableEq B] (fuel : ℕ) :
    Prop :=
  ∀ (s : State H O B) D h, Heap L s D none → s.handle h ≠ none →
    s.alive < fuel → ∃ s', Releases L fuel s D h s'

/-- A handle whose object is not there any more is destroyed. -/
theorem Sufficient.destructor {fuel : ℕ} (hfuel : Sufficient L B fuel)
    (hs : Heap L s (insert h D) none) (hh : s.handle h ≠ none)
    (hhome : ∀ o, L.home h = some o → s.object o ≠ .alive)
    (halive : s.alive < fuel) :
    ∃ s', Returns (SharedGraph.destructor L fuel h) s () s' ∧ Heap L s' D none ∧
      Falls L {h} s s' ∧ s'.handle h = none := by
  obtain ⟨s₁, hs₁⟩ := hfuel s _ h hs hh halive
  have hnull : s₁.handle h = some .null := by
    rcases hs₁.handle with hnull | ⟨o, ho, hlive⟩
    · exact hnull
    · exact absurd hlive (hhome o ho)
  refine ⟨s₁.setHandle h none, hs₁.run.bind (end_returns (by simp [hnull])),
    ?_, ?_, setHandle_self _ _ _⟩
  · refine hs₁.heap.setEmpty ?_ (.inl rfl) ?_ ?_
    · intro p hp
      rw [hnull] at hp
      cases hp
      rfl
    · intro o ho _ hlive
      exact hhome o ho (hs₁.falls.alive hlive)
    · intro k o hk hne
      have hkh : k ≠ h := by
        rintro rfl
        exact hne (setHandle_self _ _ _)
      rw [setHandle_of_ne _ hkh] at hne
      refine (hs₁.heap.home k o hk hne).imp_right fun hmem => ?_
      exact hmem.resolve_left hkh
  · have hfalls := hs₁.falls.trans (falls_setHandle (L := L) (h := h)
      (s := s₁) (v := none) (.inr rfl))
    rwa [Set.union_self] at hfalls

/-- The fields of an object that is not there any more are destroyed. -/
theorem Sufficient.destroyAll {fuel : ℕ} (hfuel : Sufficient L B fuel)
    (l : List H) : ∀ {s : State H O B}, l.Nodup →
      (∀ h ∈ l, s.handle h ≠ none ∧
        ∀ o, L.home h = some o → s.object o ≠ .alive) →
      Heap L s (D ∪ {h | h ∈ l}) none → s.alive < fuel →
      ∃ s', Returns
        (SharedGraph.destroyAll (SharedGraph.destructor L fuel) l) s () s' ∧
        Heap L s' D none ∧ Falls L {h | h ∈ l} s s' ∧
        ∀ h ∈ l, s'.handle h = none := by
  induction l with
  | nil =>
      intro s _ _ hs _
      refine ⟨s, .pure, ?_, ?_, fun h hh => absurd hh List.not_mem_nil⟩
      · simpa using hs
      · simpa using Falls.refl L s
  | cons h l ih =>
      intro s hnodup hl hs halive
      obtain ⟨hnot, hnodup⟩ := List.nodup_cons.1 hnodup
      obtain ⟨hh, hhome⟩ := hl h List.mem_cons_self
      have hset : D ∪ {x | x ∈ h :: l} = insert h (D ∪ {x | x ∈ l}) := by
        ext x
        simp only [Set.mem_union, Set.mem_ofPred_eq, List.mem_cons,
          Set.mem_insert_iff]
        tauto
      rw [hset] at hs
      obtain ⟨s₁, hrun, hs₁, hfalls, hgone⟩ :=
        hfuel.destructor hs hh hhome halive
      have hrest : ∀ x ∈ l, s₁.handle x ≠ none ∧
          ∀ o, L.home x = some o → s₁.object o ≠ .alive := by
        intro x hx
        obtain ⟨hxlive, hxhome⟩ := hl x (List.mem_cons_of_mem _ hx)
        refine ⟨?_, fun o ho hlive => hxhome o ho (hfalls.alive hlive)⟩
        have hxh : x ∉ ({h} : Set H) := by
          rintro rfl
          exact hnot hx
        rcases hfalls.kept x hxh with heq | ⟨_, o, ho, hlive⟩
        · rw [heq]
          exact hxlive
        · exact absurd hlive (hxhome o ho)
      obtain ⟨s', hrun', hs', hfalls', hgone'⟩ := ih hnodup hrest hs₁
        (Nat.lt_of_le_of_lt (hfalls.alive_le hs) halive)
      refine ⟨s', hrun.bind hrun', hs', ?_, ?_⟩
      · have hboth := hfalls.trans hfalls'
        have hset' : ({h} ∪ {x | x ∈ l} : Set H) = {x | x ∈ h :: l} := by
          ext x
          simp
        rwa [hset'] at hboth
      · intro x hx
        rcases List.mem_cons.1 hx with rfl | hx
        · rcases hfalls'.kept x hnot with heq | ⟨hnone, _⟩
          · exact heq.trans hgone
          · exact hnone
        · exact hgone' x hx

/-- `delete`, of an object nobody refers to. -/
theorem Sufficient.deleteObject {fuel : ℕ} (hfuel : Sufficient L B fuel)
    (hs : Heap L s D (some o)) (halive : (s.deleteObject o).alive < fuel) :
    ∃ s', Returns
      (SharedGraph.deleteObject L (SharedGraph.destructor L fuel) o) s () s' ∧
      Heap L s' D none ∧ Falls L {h | L.home h = some o} s s' ∧
      s'.object o = .deleted ∧ ∀ h, L.home h = some o → s'.handle h = none := by
  have hmem : ∀ h, h ∈ (L.fields o).reverse ↔ L.home h = some o :=
    fun h => List.mem_reverse.trans L.mem_fields
  have hset : {h | h ∈ (L.fields o).reverse} = {h | L.home h = some o} :=
    Set.ext hmem
  have hlive := (hs.loose o rfl).1
  have hend : Returns (endObject o) s () (s.deleteObject o) := by
    refine .update ?_
    rw [if_pos hlive]
    rfl
  have hdead : (s.deleteObject o).object o = .deleted :=
    Function.update_self _ _ _
  have hfields : ∀ h ∈ (L.fields o).reverse,
      (s.deleteObject o).handle h ≠ none ∧
        ∀ x, L.home h = some x → (s.deleteObject o).object x ≠ .alive := by
    intro h hh
    have hhome := (hmem h).1 hh
    refine ⟨hs.fields h o hhome hlive, ?_⟩
    intro x hx hxlive
    rw [hhome] at hx
    cases hx
    rw [hdead] at hxlive
    cases hxlive
  have hheap := hs.deleteObject
  rw [← hset] at hheap
  obtain ⟨s', hrun, hs', hfalls, hgone⟩ := hfuel.destroyAll _
    (List.nodup_reverse.2 (L.nodup_fields o)) hfields hheap halive
  rw [hset] at hfalls
  refine ⟨s', hend.bind hrun, hs', ⟨?_, hfalls.emptied, ?_, hfalls.block⟩,
    ?_, fun h hh => hgone h ((hmem h).2 hh)⟩
  · intro h hh
    refine (hfalls.kept h hh).imp_right fun hk => ?_
    obtain ⟨hnone, x, hx, hxlive⟩ := hk
    exact ⟨hnone, x, hx, (alive_deleteObject.1 hxlive).2⟩
  · intro x
    rcases hfalls.object x with heq | ⟨hxlive, hdeleted⟩
    · rcases eq_or_ne x o with rfl | hne
      · exact .inr ⟨hlive, heq.trans hdead⟩
      · exact .inl (heq.trans (Function.update_of_ne hne _ _))
    · exact .inr ⟨(alive_deleteObject.1 hxlive).2, hdeleted⟩
  · rcases hfalls.object o with heq | ⟨hlive', _⟩
    · exact heq.trans hdead
    · rw [hdead] at hlive'
      cases hlive'

/-- A handle without an object forgets its block. -/
theorem releases_empty {fuel : ℕ} (hs : Heap L s D none)
    (hp : s.handle h = some p) (hptr : p.ptr = none) :
    Releases L (fuel + 1) s D h (s.setHandle h (some .null)) where
  run := by
    refine (pointers_returns hp).bind ?_
    refine (assign_returns (by simp [hp]) .null).bind ?_
    rw [hptr]
    exact .pure
  heap := by
    refine hs.setEmpty ?_ (.inr rfl) ?_ ?_
    · intro q hq
      rw [hp] at hq
      cases hq
      exact hptr
    · intro o _ hnone
      cases hnone
    · intro k o hk hne
      refine hs.home k o hk ?_
      rcases eq_or_ne k h with rfl | hkh
      · simp [hp]
      · rwa [setHandle_of_ne _ hkh] at hne
  falls := falls_setHandle (.inl rfl)
  handle := .inl (setHandle_self _ _ _)

omit [DecidableEq O] in
theorem falls_giveUp : Falls L {h} s (s.giveUp h b) := by
  have hfalls := falls_setHandle (L := L) (s := s) (h := h) (v := some .null)
    (.inl rfl)
  exact ⟨hfalls.kept, hfalls.emptied, fun _ => .inl rfl, fun _ _ => rfl⟩

omit [DecidableEq O] in
theorem giveUp_not_held (hs : Heap L s D none)
    (hp : s.handle h = some ⟨some o, some b⟩)
    (hgive : Heap L (s.giveUp h b) D (some o)) (k : H) (q : Option O) :
    (s.giveUp h b).handle k ≠ some ⟨q, some b⟩ := by
  intro hk
  rcases eq_or_ne k h with rfl | hkh
  · rw [giveUp_self] at hk
    cases hk
  · have hk' : s.handle k = some ⟨q, some b⟩ := (giveUp_of_ne hkh).symm.trans hk
    have hpair := hs.cb_iff hp hk'
    rw [hk'] at hpair
    cases hpair
    exact (hgive.loose o rfl).2 k (ptr_of_handle hk)

/-- A handle gives up its object, and is not the last one. -/
theorem releases_shared {fuel : ℕ} (hs : Heap L s D none)
    (hp : s.handle h = some ⟨some o, some b⟩) (hmore : s.count b - 1 ≠ 0) :
    Releases L (fuel + 1) s D h (s.giveUp h b) where
  run := by
    refine (pointers_returns hp).bind ?_
    refine (assign_returns (by simp [hp]) .null).bind ?_
    refine (lock_returns (s := s.setHandle h (some .null))
      (hs.block h _ b hp)).bind ?_
    refine decrement_returns.bind ?_
    have hfree : ¬ decide (s.count b - 1 = 0) = true := by simpa using hmore
    show Returns (if decide (s.count b - 1 = 0) = true then _ else _) _ _ _
    rw [if_neg hfree]
    exact .pure
  heap := by
    have hgive := hs.giveUp hp
    rwa [if_neg hmore] at hgive
  falls := falls_giveUp
  handle := .inl (setHandle_self _ _ _)

/-- A handle gives up its object, and is the last one. -/
theorem Sufficient.releases_last {fuel : ℕ} (hfuel : Sufficient L B fuel)
    (hs : Heap L s D none) (hp : s.handle h = some ⟨some o, some b⟩)
    (hlast : s.count b - 1 = 0) (halive : s.alive < fuel + 1) :
    ∃ s', Releases L (fuel + 1) s D h s' := by
  have hgive : Heap L (s.giveUp h b) D (some o) := by
    have hgive := hs.giveUp hp
    rwa [if_pos hlast] at hgive
  have hunheld := giveUp_not_held hs hp hgive
  have hlive : s.object o = .alive := (hs.full h o _ hp).1
  have hlt : ((s.giveUp h b).deleteObject o).alive < s.alive :=
    alive_deleteObject_lt hgive
  obtain ⟨s', hrun, hs', hfalls, hdeleted, hgone⟩ :=
    hfuel.deleteObject hgive (by omega)
  have hblock : s'.block b = .alive :=
    (hfalls.block b hunheld).trans (hs.block h _ b hp)
  have hboth := falls_giveUp (L := L) (s := s) (h := h) (b := b) |>.trans hfalls
  have hhome : ∀ k ∉ ({h} : Set H), s'.handle k = s.handle k ∨
      (s'.handle k = none ∧ ∃ o, L.home k = some o ∧ s.object o = .alive) := by
    intro k hk
    by_cases hfield : L.home k = some o
    · exact .inr ⟨hgone k hfield, o, hfield, hlive⟩
    · exact hboth.kept k fun hmem => hmem.elim hk hfield
  refine ⟨s'.deleteBlock b, ?_, hs'.deleteBlock (hfalls.not_held hunheld),
    ⟨hhome, ?_, hboth.object, ?_⟩, ?_⟩
  · refine (pointers_returns hp).bind ?_
    refine (assign_returns (by simp [hp]) .null).bind ?_
    refine (lock_returns (s := s.setHandle h (some .null))
      (hs.block h _ b hp)).bind ?_
    refine decrement_returns.bind ?_
    have hfree : decide (s.count b - 1 = 0) = true := by simpa using hlast
    show Returns (if decide (s.count b - 1 = 0) = true then _ else _) _ _ _
    rw [if_pos hfree]
    refine hrun.bind (.update ?_)
    rw [if_pos hblock]
    rfl
  · exact fun k hk => hboth.emptied k (.inl hk)
  · intro b' hb'
    have hne : b' ≠ b := by
      rintro rfl
      exact hb' h _ hp
    exact (Function.update_of_ne hne _ _).trans (hboth.block b' hb')
  · by_cases hfield : L.home h = some o
    · exact .inr ⟨o, hfield, hlive⟩
    · rcases hfalls.kept h hfield with heq | ⟨_, x, hx, hxlive⟩
      · refine .inl (heq.trans ?_)
        exact setHandle_self _ _ _
      · exact .inr ⟨x, hx, hxlive⟩

theorem sufficient (L : Layout H O) (fuel : ℕ) : Sufficient L B fuel := by
  induction fuel with
  | zero => exact fun _ _ _ _ _ halive => absurd halive (Nat.not_lt_zero _)
  | succ fuel ih =>
      intro s D h hs hh halive
      obtain ⟨⟨ptr, cb⟩, hp⟩ := Option.ne_none_iff_exists'.1 hh
      cases ptr with
      | none => exact ⟨_, releases_empty hs hp rfl⟩
      | some o =>
          obtain ⟨_, b, rfl, _⟩ := hs.full h o cb hp
          by_cases hlast : s.count b - 1 = 0
          · exact ih.releases_last hs hp hlast halive
          · exact ⟨_, releases_shared hs hp hlast⟩

end Run

end LearningCpp.SharedGraph
