import LearningCpp.UniquePtr.Forest

/-!
# A deletion, step by step

Passing an object to the deleter kills it and puts its fields on the agenda.
None of them is there already, because their home was alive until then; and the
handle whose pointer was passed is none of them, because no object is below
itself. For the handle that a `reset` will write afterwards the same has to hold
of everything below the objects on the agenda, and that is what `Inv.reset`
keeps.
-/

namespace LearningCpp.UniquePtr

open LearningCpp.Lib

variable {H O : Type*} {L : Layout H O} {s s' : State H O}

theorem below_congr (hptr : s'.ptr = s.ptr) : Below L s' = Below L s := by
  unfold Below Owns
  rw [hptr]

/-- Fewer pointers, less below. -/
theorem below_of_ptr (hptr : ∀ k o, s'.ptr k = some o → s.ptr k = some o)
    {x y : O} (h : Below L s' x y) : Below L s x y := by
  refine Relation.ReflTransGen.mono ?_ x y h
  rintro a b ⟨k, hk, hb⟩
  exact ⟨k, hk, hptr k b hb⟩

theorem alive_deleted [DecidableEq O] {o : O} (hadopted : s'.adopted = s.adopted)
    (hdeletions : s'.deletions =
      Function.update s.deletions o (s.deletions o + 1)) (x : O) :
    s'.Alive x ↔ x ≠ o ∧ s.Alive x := by
  unfold State.Alive
  rw [hadopted, hdeletions]
  rcases eq_or_ne x o with rfl | hne
  · simp
  · simp [hne]

/-- The fields on the agenda. -/
theorem mem_destructs {o : O} {rest : List (Task H)} {t : Task H} :
    t ∈ (L.fields o).reverse.map Task.destruct ++ rest ↔
      (∃ f, L.home f = some o ∧ t = .destruct f) ∨ t ∈ rest := by
  rw [List.mem_append, List.mem_map]
  refine or_congr_left ?_
  constructor
  · rintro ⟨f, hf, rfl⟩
    exact ⟨f, L.mem_fields.1 (List.mem_reverse.1 hf), rfl⟩
  · rintro ⟨f, hf, rfl⟩
    exact ⟨f, List.mem_reverse.2 (L.mem_fields.2 hf), rfl⟩

theorem map_handle_destructs (o : O) (rest : List (Task H)) :
    ((L.fields o).reverse.map Task.destruct ++ rest).map Task.handle =
      (L.fields o).reverse ++ rest.map Task.handle := by
  rw [List.map_append, List.map_map]
  exact congrArg (· ++ _) (List.map_id _)

/-! ## To the deleter -/

/-- A `unique_ptr` that is no field is destroyed. -/
theorem Quiet.destroy (h : Quiet L s none) {k : H} (hk : s.handle k ≠ none)
    (hhome : L.home k = none) :
    Inv L { s with agenda := [.destruct k] } none := by
  obtain ⟨hagenda, hresetting⟩ := h.idle
  have hno : ∀ x pointer, s.resetting ≠ some (x, pointer) := by
    intro x pointer hx
    rw [hresetting] at hx
    cases hx
  have hbusy : ∀ x, ¬ State.Busy { s with agenda := [.destruct k] } x := by
    rintro x (hx | ⟨pointer, hx⟩)
    · simp at hx
    · exact hno x pointer hx
  have howner : ∀ x o, State.Owner { s with agenda := [.destruct k] } x o ↔
      s.handle x = some (some o) := fun x o => and_iff_left (hbusy x)
  have htargets : State.targets { s with agenda := [.destruct k] } = [k] := by
    show [k] ++ (s.resetting.map Prod.fst).toList = [k]
    rw [hresetting]
    rfl
  constructor
  case fields => exact h.inv.fields
  case home =>
    intro x o hx hlive
    exact .inl ((h.fields x o hx).1 hlive)
  case nodup =>
    rw [htargets]
    exact List.nodup_singleton k
  case targets =>
    rw [htargets]
    intro x hx
    rw [List.mem_singleton.1 hx]
    exact hk
  case dead =>
    intro t ht o ho
    rw [List.mem_singleton.1 ht] at ho
    have ho : L.home k = some o := ho
    rw [hhome] at ho
    cases ho
  case owned =>
    intro x o hx
    exact h.owned x o ((howner x o).1 hx)
  case unique =>
    intro x y o hx hy
    exact h.unique x y o ((howner x o).1 hx) ((howner y o).1 hy)
  case inHand =>
    intro x o hx
    exact absurd hx (hno x _)
  case passed =>
    intro o ho
    cases ho
  case owner =>
    intro o ho hout _
    rcases h.owner o ho hout with hnone | ⟨x, hx⟩
    · cases hnone
    · exact .inr ⟨x, (howner x o).2 hx⟩
  case handedOut => exact h.handedOut
  case deletions => exact h.deletions
  case finite => exact h.finite
  case acyclic => exact h.acyclic
  case reset =>
    intro x pointer c hx
    exact absurd hx (hno x _)

/-- `reset` passes the old pointer to the deleter, with the new one in hand,
which is not above the handle. -/
theorem Quiet.passing {hand : Option O} (h : Quiet L s hand) {k : H}
    {old : Option O} (hk : s.handle k = some old)
    (hbelow : ∀ c o, L.home k = some c → hand = some o → ¬ Below L s o c) :
    Inv L { s with agenda := [], resetting := some (k, hand) } old := by
  have hbusy : ∀ x, State.Busy
      { s with agenda := [], resetting := some (k, hand) } x ↔ x = k := by
    intro x
    constructor
    · rintro (hx | ⟨pointer, hx⟩)
      · cases hx
      · cases hx
        rfl
    · rintro rfl
      exact .inr ⟨hand, rfl⟩
  have howner : ∀ x o, State.Owner
      { s with agenda := [], resetting := some (k, hand) } x o ↔
      s.handle x = some (some o) ∧ x ≠ k :=
    fun x o => and_congr_right (fun _ => not_congr (hbusy x))
  constructor
  case fields =>
    intro x o hx ho
    exact (h.fields x o hx).2 ho
  case home =>
    intro x o hx hlive
    exact .inl ((h.fields x o hx).1 hlive)
  case nodup => exact List.nodup_singleton k
  case targets =>
    intro x hx
    rw [List.mem_singleton.1 hx, hk]
    simp
  case dead =>
    intro t ht
    cases ht
  case owned =>
    intro x o hx
    exact h.owned x o ((howner x o).1 hx).1
  case unique =>
    intro x y o hx hy
    exact h.unique x y o ((howner x o).1 hx).1 ((howner y o).1 hy).1
  case inHand =>
    intro x o hx
    cases hx
    obtain ⟨halive, hout, hnone⟩ := h.inHand o rfl
    exact ⟨halive, hout, fun y hy => hnone y ((howner y o).1 hy).1⟩
  case passed =>
    rintro o rfl
    obtain ⟨halive, hout⟩ := h.owned k o hk
    refine ⟨halive, hout, ?_, ?_⟩
    · intro x hx
      cases hx
      exact (h.inHand o rfl).2.2 k hk
    · intro x hx
      obtain ⟨hx, hne⟩ := (howner x o).1 hx
      exact hne (h.unique x k o hx hk)
  case owner =>
    intro o ho hout hold
    rcases h.owner o ho hout with rfl | ⟨x, hx⟩
    · exact .inl ⟨k, rfl⟩
    · refine .inr ⟨x, (howner x o).2 ⟨hx, ?_⟩⟩
      rintro rfl
      rw [hk] at hx
      exact hold (Option.some.inj hx)
  case handedOut => exact h.handedOut
  case deletions => exact h.deletions
  case finite => exact h.finite
  case acyclic => exact h.acyclic
  case reset =>
    intro x pointer c hx hc
    cases hx
    have halive : s.Alive c := by
      refine (h.fields k c hc).1 ?_
      rw [hk]
      simp
    refine ⟨halive, fun o ho => hbelow c o hc ho, ?_, ?_⟩
    · rintro o rfl
      exact h.acyclic.not_reaches ⟨k, hc, ptr_eq_some.2 hk⟩
    · intro d hd
      cases hd

/-- `~unique_ptr()` of a handle on the agenda passes its pointer. -/
theorem Inv.passing (h : Inv L s none) {k : H} {rest : List (Task H)}
    (hagenda : s.agenda = .destruct k :: rest) {old : Option O}
    (hk : s.handle k = some old) :
    Inv L { s with agenda := .vanish k :: rest } old := by
  have hnodup := h.nodup
  have hlive := h.targets
  have hdead := h.dead
  have hhome := h.home
  have hreset := h.reset
  rw [State.targets, hagenda] at hnodup hlive
  rw [hagenda] at hdead hhome
  rw [List.map_cons, List.cons_append, List.nodup_cons] at hnodup
  have hbusy : ∀ x, State.Busy { s with agenda := .vanish k :: rest } x ↔
      s.Busy x ∨ x = k := by
    intro x
    show (.vanish x ∈ .vanish k :: rest ∨ _) ↔ (_ ∈ s.agenda ∨ _) ∨ _
    rw [hagenda]
    simp only [List.mem_cons, Task.vanish.injEq, reduceCtorEq, false_or]
    tauto
  have hidle : ¬ s.Busy k := by
    intro hbusy
    refine hnodup.1 (List.mem_append.2 ?_)
    rcases hbusy with hmem | ⟨pointer, hresetting⟩
    · rw [hagenda] at hmem
      rcases List.mem_cons.1 hmem with hmem | hmem
      · cases hmem
      · exact .inl (List.mem_map.2 ⟨_, hmem, rfl⟩)
    · rw [hresetting]
      exact .inr (by simp [Task.handle])
  have howner : ∀ x o, State.Owner { s with agenda := .vanish k :: rest } x o ↔
      s.Owner x o ∧ x ≠ k := by
    intro x o
    unfold State.Owner
    rw [hbusy, not_or, and_assoc]
  constructor
  case fields => exact h.fields
  case home =>
    intro x o hx hne
    rcases hhome x o hx hne with halive | ⟨t, ht, htx⟩
    · exact .inl halive
    · rcases List.mem_cons.1 ht with rfl | ht
      · exact .inr ⟨.vanish k, List.mem_cons_self, htx⟩
      · exact .inr ⟨t, .tail _ ht, htx⟩
  case nodup =>
    exact List.nodup_cons.2 hnodup
  case targets =>
    exact hlive
  case dead =>
    intro t ht o ho
    rcases List.mem_cons.1 ht with rfl | ht
    · exact hdead (.destruct k) List.mem_cons_self o ho
    · exact hdead t (.tail _ ht) o ho
  case owned =>
    intro x o hx
    exact h.owned x o ((howner x o).1 hx).1
  case unique =>
    intro x y o hx hy
    exact h.unique x y o ((howner x o).1 hx).1 ((howner y o).1 hy).1
  case inHand =>
    intro x o hx
    obtain ⟨halive, hout, hnone⟩ := h.inHand x o hx
    exact ⟨halive, hout, fun y hy => hnone y ((howner y o).1 hy).1⟩
  case passed =>
    rintro o rfl
    have hkowner : s.Owner k o := ⟨hk, hidle⟩
    obtain ⟨halive, hout⟩ := h.owned k o hkowner
    refine ⟨halive, hout, ?_, ?_⟩
    · intro x hx
      exact (h.inHand x o hx).2.2 k hkowner
    · intro x hx
      obtain ⟨hx, hne⟩ := (howner x o).1 hx
      exact hne (h.unique x k o hx hkowner)
  case owner =>
    intro o ho hout hold
    rcases h.owner o ho hout (by simp) with hhand | ⟨x, hx⟩
    · exact .inl hhand
    · refine .inr ⟨x, (howner x o).2 ⟨hx, ?_⟩⟩
      rintro rfl
      rw [hx.1] at hk
      exact hold (Option.some.inj hk).symm
  case handedOut => exact h.handedOut
  case deletions => exact h.deletions
  case finite => exact h.finite
  case acyclic => exact h.acyclic
  case reset =>
    intro x pointer c hx hc
    obtain ⟨halive, hpointer, _, hdestruct⟩ := hreset x pointer c hx hc
    rw [hagenda] at hdestruct
    refine ⟨halive, hpointer, ?_, ?_⟩
    · rintro o rfl
      exact hdestruct k List.mem_cons_self o (ptr_eq_some.2 hk)
    · intro d hd
      rcases List.mem_cons.1 hd with hd | hd
      · cases hd
      · exact hdestruct d (.tail _ hd)

/-! ## The steps of one -/

variable [DecidableEq O]

/-- The object passed dies, and its fields are to be destroyed. -/
theorem Inv.kill {o : O} (h : Inv L s (some o)) :
    Inv L { s with
      deletions := Function.update s.deletions o (s.deletions o + 1)
      agenda := (L.fields o).reverse.map .destruct ++ s.agenda } none := by
  obtain ⟨s', hs'⟩ : ∃ s', s' = { s with
      deletions := Function.update s.deletions o (s.deletions o + 1)
      agenda := (L.fields o).reverse.map Task.destruct ++ s.agenda } :=
    ⟨_, rfl⟩
  have hhandle : s'.handle = s.handle := by rw [hs']
  have hresetting : s'.resetting = s.resetting := by rw [hs']
  have hout' : s'.handedOut = s.handedOut := by rw [hs']
  have hagenda : s'.agenda =
      (L.fields o).reverse.map .destruct ++ s.agenda := by rw [hs']
  have hdeletions : s'.deletions =
      Function.update s.deletions o (s.deletions o + 1) := by rw [hs']
  have hadopted : s'.adopted = s.adopted := by rw [hs']
  rw [← hs']
  have halive := alive_deleted hadopted hdeletions
  have hptr : s'.ptr = s.ptr := by
    unfold State.ptr
    rw [hhandle]
  have hbelow : Below L s' = Below L s := below_congr hptr
  obtain ⟨ho, hout, hnothand, hnoowner⟩ := h.passed o rfl
  have hmem : ∀ t, t ∈ s'.agenda ↔
      (∃ f, L.home f = some o ∧ t = .destruct f) ∨ t ∈ s.agenda := by
    intro t
    rw [hagenda]
    exact mem_destructs
  have hbusy : ∀ x, s'.Busy x ↔ s.Busy x := by
    intro x
    unfold State.Busy
    rw [hmem, hresetting]
    simp
  have howner : ∀ x y, s'.Owner x y ↔ s.Owner x y := by
    intro x y
    unfold State.Owner
    rw [hhandle, hbusy]
  have htargets : s'.targets = (L.fields o).reverse ++ s.targets := by
    unfold State.targets
    rw [hagenda, hresetting, map_handle_destructs, List.append_assoc]
  -- A field of the object is not a target yet.
  have hnew : ∀ f, L.home f = some o → f ∉ s.targets := by
    intro f hf hmem
    rcases List.mem_append.1 hmem with hmem | hmem
    · obtain ⟨t, ht, rfl⟩ := List.mem_map.1 hmem
      exact h.dead t ht o hf ho
    · obtain ⟨⟨k, pointer⟩, hk, rfl⟩ := Option.map_eq_some_iff.1
        (Option.mem_toList.1 hmem)
      exact (h.reset k pointer o hk hf).2.2.1 o rfl .refl
  constructor
  case fields =>
    intro x y hx hy
    rw [hhandle]
    exact h.fields x y hx ((halive y).1 hy).2
  case home =>
    intro x y hx hne
    rw [hhandle] at hne
    rcases h.home x y hx hne with hy | ⟨t, ht, htx⟩
    · rcases eq_or_ne y o with rfl | hyo
      · exact .inr ⟨.destruct x, (hmem _).2 (.inl ⟨x, hx, rfl⟩), rfl⟩
      · exact .inl ((halive y).2 ⟨hyo, hy⟩)
    · exact .inr ⟨t, (hmem t).2 (.inr ht), htx⟩
  case nodup =>
    rw [htargets, List.nodup_append']
    refine ⟨List.nodup_reverse.2 (L.nodup_fields o), h.nodup, ?_⟩
    intro f hf
    exact hnew f (L.mem_fields.1 (List.mem_reverse.1 hf))
  case targets =>
    rw [htargets, hhandle]
    intro x hx
    rcases List.mem_append.1 hx with hx | hx
    · exact h.fields x o (L.mem_fields.1 (List.mem_reverse.1 hx)) ho
    · exact h.targets x hx
  case dead =>
    intro t ht y hy hyalive
    obtain ⟨hyo, hyalive⟩ := (halive y).1 hyalive
    rcases (hmem t).1 ht with ⟨f, hf, rfl⟩ | ht
    · have hy : L.home f = some y := hy
      rw [hf] at hy
      exact hyo (Option.some.inj hy).symm
    · exact h.dead t ht y hy hyalive
  case owned =>
    intro x y hx
    have hx := (howner x y).1 hx
    obtain ⟨hy, hyout⟩ := h.owned x y hx
    refine ⟨(halive y).2 ⟨?_, hy⟩, by rw [hout']; exact hyout⟩
    rintro rfl
    exact hnoowner x hx
  case unique =>
    intro x x' y hx hx'
    exact h.unique x x' y ((howner x y).1 hx) ((howner x' y).1 hx')
  case inHand =>
    rw [hresetting, hout']
    intro x y hx
    obtain ⟨hy, hyout, hynone⟩ := h.inHand x y hx
    refine ⟨(halive y).2 ⟨?_, hy⟩, hyout, ?_⟩
    · rintro rfl
      exact hnothand x hx
    · intro x' hx'
      exact hynone x' ((howner x' y).1 hx')
  case passed =>
    intro y hy
    cases hy
  case owner =>
    rw [hresetting, hout']
    intro y hy hyout _
    obtain ⟨hyo, hy⟩ := (halive y).1 hy
    have hne : some o ≠ some y := fun heq => hyo (Option.some.inj heq).symm
    rcases h.owner y hy hyout hne with hhand | ⟨x, hx⟩
    · exact .inl hhand
    · exact .inr ⟨x, (howner x y).2 hx⟩
  case handedOut =>
    rw [hout']
    intro y hy
    refine (halive y).2 ⟨?_, h.handedOut y hy⟩
    rintro rfl
    rw [hout] at hy
    cases hy
  case deletions =>
    rw [hadopted, hdeletions]
    intro y
    rcases eq_or_ne y o with rfl | hyo
    · refine .inr ⟨ho.1, ?_⟩
      rw [Function.update_self, ho.2]
    · rw [Function.update_of_ne hyo]
      exact h.deletions y
  case finite =>
    refine h.finite.subset ?_
    intro y hy
    exact ((halive y).1 hy).2
  case acyclic =>
    unfold Owns
    rw [hptr]
    exact h.acyclic
  case reset =>
    rw [hresetting, hbelow, hptr]
    intro k pointer c hk hc
    obtain ⟨hcalive, hpointer, hpassed, hdestruct⟩ := h.reset k pointer c hk hc
    have hco : c ≠ o := by
      rintro rfl
      exact hpassed c rfl .refl
    refine ⟨(halive c).2 ⟨hco, hcalive⟩, hpointer, by simp, ?_⟩
    intro d hd y hy
    rcases (hmem _).1 hd with ⟨f, hf, hdf⟩ | hd
    · cases hdf
      intro hbelow
      exact hpassed o rfl (.head ⟨d, hf, hy⟩ hbelow)
    · exact hdestruct d hd y hy

theorem Inv.deleter {pointer : Option O} (h : Inv L s pointer) :
    ∃ s', s.deleter L pointer s.agenda = some s' ∧ Inv L s' none ∧
      s'.handle = s.handle ∧ s'.resetting = s.resetting := by
  cases pointer with
  | none => exact ⟨s, rfl, h, rfl, rfl⟩
  | some o => exact ⟨_, if_pos (h.passed o rfl).1, h.kill, rfl, rfl⟩

variable [DecidableEq H]

omit [DecidableEq O] in
/-- A handle whose deleter has returned is gone. -/
theorem Inv.vanish (h : Inv L s none) {k : H} {rest : List (Task H)}
    (hagenda : s.agenda = .vanish k :: rest) :
    Inv L { s.setHandle k none with agenda := rest } none := by
  have hself : (s.setHandle k none).handle k = none := s.setHandle_self _ _
  have hother : ∀ x, x ≠ k → (s.setHandle k none).handle x = s.handle x :=
    fun x hx => s.setHandle_of_ne hx _
  have hptr : ∀ x o, (s.setHandle k none).ptr x = some o →
      s.ptr x = some o := by
    intro x o hx
    unfold State.ptr at hx ⊢
    by_cases hxk : x = k
    · rw [hxk, hself] at hx
      cases hx
    · rw [hother x hxk] at hx
      exact hx
  have hnodup := h.nodup
  have hlive := h.targets
  have hdead := h.dead
  have hhome := h.home
  rw [State.targets, hagenda] at hnodup hlive
  rw [hagenda] at hdead hhome
  rw [List.map_cons, List.cons_append, List.nodup_cons] at hnodup
  have hbusy : ∀ x, x ≠ k →
      (State.Busy { s.setHandle k none with agenda := rest } x ↔
        s.Busy x) := by
    intro x hx
    show (.vanish x ∈ rest ∨ _) ↔ (_ ∈ s.agenda ∨ _)
    rw [hagenda]
    simp [hx, State.setHandle]
  have hk : s.Busy k := .inl (by rw [hagenda]; exact List.mem_cons_self)
  have howner : ∀ x o,
      State.Owner { s.setHandle k none with agenda := rest } x o ↔
        s.Owner x o := by
    intro x o
    by_cases hx : x = k
    · refine iff_of_false ?_ (fun h => h.2 (by rw [hx]; exact hk))
      rintro ⟨hx', _⟩
      rw [hx] at hx'
      rw [hself] at hx'
      cases hx'
    · exact and_congr (by rw [hother x hx]) (not_congr (hbusy x hx))
  have hne : ∀ x ∈ rest.map Task.handle ++ (s.resetting.map Prod.fst).toList,
      x ≠ k := by
    rintro x hx rfl
    exact hnodup.1 hx
  constructor
  case fields =>
    intro x o hx ho
    have hxk : x ≠ k := by
      rintro rfl
      exact hdead (.vanish x) List.mem_cons_self o hx ho
    show (s.setHandle k none).handle x ≠ none
    rw [hother x hxk]
    exact h.fields x o hx ho
  case home =>
    intro x o hx hthere
    have hthere : (s.setHandle k none).handle x ≠ none := hthere
    have hxk : x ≠ k := by
      rintro rfl
      exact hthere hself
    rw [hother x hxk] at hthere
    rcases hhome x o hx hthere with ho | ⟨t, ht, htx⟩
    · exact .inl ho
    · rcases List.mem_cons.1 ht with rfl | ht
      · exact absurd htx.symm hxk
      · exact .inr ⟨t, ht, htx⟩
  case nodup => exact hnodup.2
  case targets =>
    intro x hx
    show (s.setHandle k none).handle x ≠ none
    rw [hother x (hne x hx)]
    exact hlive x (.tail _ hx)
  case dead =>
    intro t ht o ho
    exact hdead t (.tail _ ht) o ho
  case owned =>
    intro x o hx
    exact h.owned x o ((howner x o).1 hx)
  case unique =>
    intro x y o hx hy
    exact h.unique x y o ((howner x o).1 hx) ((howner y o).1 hy)
  case inHand =>
    intro x o hx
    obtain ⟨ho, hout, hnone⟩ := h.inHand x o hx
    exact ⟨ho, hout, fun y hy => hnone y ((howner y o).1 hy)⟩
  case passed =>
    intro o ho
    cases ho
  case owner =>
    intro o ho hout _
    rcases h.owner o ho hout (by simp) with hhand | ⟨x, hx⟩
    · exact .inl hhand
    · exact .inr ⟨x, (howner x o).2 hx⟩
  case handedOut => exact h.handedOut
  case deletions => exact h.deletions
  case finite => exact h.finite
  case acyclic => exact acyclic_of_ptr h.acyclic hptr
  case reset =>
    intro x pointer c hx hc
    obtain ⟨hcalive, hpointer, _, hdestruct⟩ := h.reset x pointer c hx hc
    rw [hagenda] at hdestruct
    refine ⟨hcalive, ?_, by simp, ?_⟩
    · intro o ho hbelow
      exact hpointer o ho (below_of_ptr hptr hbelow)
    · intro d hd o hdo hbelow
      exact hdestruct d (.tail _ hd) o (hptr d o hdo)
        (below_of_ptr hptr hbelow)

omit [DecidableEq O] [DecidableEq H] in
/-- A pointer written to a handle adds at most the edge from its home. -/
theorem acyclic_of_edge {k : H} {pointer : Option O}
    (h : Acyclic (Owns L s))
    (hedge : ∀ x y, Owns L s' x y → Owns L s x y ∨
      (L.home k = some x ∧ pointer = some y))
    (hnot : ∀ c o, L.home k = some c → pointer = some o → ¬ Below L s o c) :
    Acyclic (Owns L s') := by
  cases hhome : L.home k with
  | none =>
      refine h.mono ?_
      intro x y hxy
      rcases hedge x y hxy with hxy | ⟨hx, _⟩
      · exact hxy
      · rw [hhome] at hx
        cases hx
  | some c =>
      cases hp : pointer with
      | none =>
          refine h.mono ?_
          intro x y hxy
          rcases hedge x y hxy with hxy | ⟨_, hy⟩
          · exact hxy
          · rw [hp] at hy
            cases hy
      | some o =>
          refine (h.add_edge (hnot c o hhome hp)).mono ?_
          intro x y hxy
          rcases hedge x y hxy with hxy | ⟨hx, hy⟩
          · exact .inl hxy
          · rw [hhome] at hx
            rw [hp] at hy
            cases hx
            cases hy
            exact .inr ⟨rfl, rfl⟩

omit [DecidableEq O] in
/-- `ptr_ = pointer`, which ends a `reset`. -/
theorem Inv.write (h : Inv L s none) {k : H} {pointer : Option O}
    (hagenda : s.agenda = []) (hresetting : s.resetting = some (k, pointer)) :
    Quiet L { s.setHandle k (some pointer) with resetting := none } none := by
  have hself : (s.setHandle k (some pointer)).handle k = some pointer :=
    s.setHandle_self _ _
  have hother : ∀ x, x ≠ k →
      (s.setHandle k (some pointer)).handle x = s.handle x :=
    fun x hx => s.setHandle_of_ne hx _
  have hlive : s.handle k ≠ none := by
    refine h.targets k ?_
    rw [State.targets, hagenda, hresetting]
    exact List.mem_cons_self
  have howner : ∀ x o, x ≠ k →
      ((s.setHandle k (some pointer)).handle x = some (some o) ↔
        s.Owner x o) := by
    intro x o hx
    rw [hother x hx]
    refine (and_iff_left ?_).symm
    rintro (hmem | ⟨p, hp⟩)
    · rw [hagenda] at hmem
      cases hmem
    · rw [hresetting] at hp
      cases hp
      exact hx rfl
  have hbusy : ∀ o, ¬ s.Owner k o :=
    fun o ho => ho.2 (.inr ⟨pointer, hresetting⟩)
  have hthere : ∀ x, (s.setHandle k (some pointer)).handle x ≠ none ↔
      s.handle x ≠ none := by
    intro x
    by_cases hxk : x = k
    · rw [hxk, hself]
      exact iff_of_true (by simp) hlive
    · rw [hother x hxk]
  constructor
  case idle => exact ⟨hagenda, rfl⟩
  case fields =>
    intro x o hx
    refine (hthere x).trans ⟨?_, h.fields x o hx⟩
    intro hne
    rcases h.home x o hx hne with ho | ⟨t, ht, _⟩
    · exact ho
    · rw [hagenda] at ht
      cases ht
  case owned =>
    intro x o hx
    have hx : (s.setHandle k (some pointer)).handle x = some (some o) := hx
    by_cases hxk : x = k
    · rw [hxk, hself] at hx
      cases hx
      obtain ⟨ho, hout, _⟩ := h.inHand k o hresetting
      exact ⟨ho, hout⟩
    · exact h.owned x o ((howner x o hxk).1 hx)
  case unique =>
    have hne : ∀ y o,
        (s.setHandle k (some pointer)).handle k = some (some o) →
        (s.setHandle k (some pointer)).handle y = some (some o) → y = k := by
      intro y o hk hy
      by_contra hyk
      rw [hself] at hk
      cases hk
      exact (h.inHand k o hresetting).2.2 y ((howner y o hyk).1 hy)
    intro x y o hx hy
    by_cases hxk : x = k
    · rw [hxk] at hx ⊢
      exact (hne y o hx hy).symm
    · by_cases hyk : y = k
      · rw [hyk] at hy ⊢
        exact hne x o hy hx
      · exact h.unique x y o ((howner x o hxk).1 hx) ((howner y o hyk).1 hy)
  case inHand =>
    intro o ho
    cases ho
  case owner =>
    intro o ho hout
    rcases h.owner o ho hout (by simp) with ⟨x, hx⟩ | ⟨x, hx⟩
    · rw [hresetting] at hx
      cases hx
      exact .inr ⟨_, hself⟩
    · refine .inr ⟨x, (howner x o ?_).2 hx⟩
      rintro rfl
      exact hbusy o hx
  case handedOut => exact h.handedOut
  case deletions => exact h.deletions
  case finite => exact h.finite
  case acyclic =>
    -- The one edge that is new is from the home of the handle.
    have hedge : ∀ x y, Owns L
        { s.setHandle k (some pointer) with resetting := none } x y →
        Owns L s x y ∨ (L.home k = some x ∧ pointer = some y) := by
      rintro x y ⟨z, hz, hy⟩
      have hy : (s.setHandle k (some pointer)).ptr z = some y := hy
      by_cases hzk : z = k
      · rw [hzk] at hz hy
        rw [ptr_eq_some, hself] at hy
        exact .inr ⟨hz, Option.some.inj hy⟩
      · refine .inl ⟨z, hz, ?_⟩
        unfold State.ptr at hy ⊢
        rw [hother z hzk] at hy
        exact hy
    exact acyclic_of_edge h.acyclic hedge fun c o hc ho =>
      (h.reset k pointer c hresetting hc).2.1 o ho

end LearningCpp.UniquePtr
