import Mathlib

/-!
# Ordered maps, and ordered maps of queues

`std::map` keeps its entries sorted by a strict order on the keys; here that
is a list of entries with the order as a field, so that `begin()` is the head
and an unsorted map cannot be built.

The second half is about maps whose values are queues. Read from front to
back, such a map is one long queue sorted by key and first-come within a key:
`flat`. Pushing to the back of one queue is a stable insertion in the long
one, and with no empty queue in it the map can be read back from `flat`.
-/

namespace LearningCpp.Lib

variable {κ β α : Type*} {r : κ → κ → Prop}

/-- A map from `κ` to `β`, its entries in the order `r` of their keys. -/
structure SortedMap (r : κ → κ → Prop) (β : Type*) where
  entries : List (κ × β)
  sorted : entries.Pairwise (fun x y => r x.1 y.1)

theorem SortedMap.ext {m n : SortedMap r β} (h : m.entries = n.entries) :
    m = n := by
  cases m; cases n; simpa using h

def SortedMap.empty : SortedMap r β := ⟨[], .nil⟩

/-- `begin()`, when there is one. -/
def SortedMap.front? (m : SortedMap r β) : Option (κ × β) := m.entries.head?

/-- Writing through the reference `begin()` hands out. -/
def SortedMap.setFront (m : SortedMap r β) (v : β) : SortedMap r β where
  entries := match m.entries with
    | [] => []
    | (k, _) :: rest => (k, v) :: rest
  sorted := by
    have h := m.sorted
    match hm : m.entries with
    | [] => exact .nil
    | (k, _) :: rest =>
        rw [hm] at h
        exact List.pairwise_cons.2 (List.pairwise_cons.1 h)

theorem SortedMap.setFront_entries {m : SortedMap r β} {k : κ} {v v' : β}
    {rest : List (κ × β)} (h : m.entries = (k, v) :: rest) :
    (m.setFront v').entries = (k, v') :: rest := by
  simp only [setFront, h]

/-- `erase(key)`. -/
def SortedMap.erase [DecidableEq κ] (m : SortedMap r β) (k : κ) :
    SortedMap r β where
  entries := m.entries.filter (fun e => e.1 ≠ k)
  sorted := m.sorted.filter _

/-- Replace the value at `k` by `f` of it; an absent key is inserted at its
place in the order. -/
def upsertEntries (r : κ → κ → Prop) [DecidableRel r] (k : κ)
    (f : Option β → β) : List (κ × β) → List (κ × β)
  | [] => [(k, f none)]
  | (k', v) :: rest =>
      if r k k' then (k, f none) :: (k', v) :: rest
      else if r k' k then (k', v) :: upsertEntries r k f rest
      else (k', f (some v)) :: rest

theorem mem_upsertEntries [DecidableRel r] {k : κ} {f : Option β → β}
    {l : List (κ × β)} {e : κ × β} (h : e ∈ upsertEntries r k f l) :
    e.1 = k ∨ ∃ e' ∈ l, e'.1 = e.1 := by
  induction l with
  | nil =>
      simp only [upsertEntries, List.mem_singleton] at h
      exact Or.inl (by rw [h])
  | cons x rest ih =>
      obtain ⟨k', v⟩ := x
      rw [upsertEntries] at h
      split at h
      · rcases List.mem_cons.1 h with rfl | hmem
        · exact Or.inl rfl
        · exact Or.inr ⟨e, hmem, rfl⟩
      · split at h
        · rcases List.mem_cons.1 h with rfl | hmem
          · exact Or.inr ⟨_, List.mem_cons_self, rfl⟩
          · rcases ih hmem with he | ⟨e', he', heq⟩
            · exact Or.inl he
            · exact Or.inr ⟨e', List.mem_cons_of_mem _ he', heq⟩
        · rcases List.mem_cons.1 h with rfl | hmem
          · exact Or.inr ⟨_, List.mem_cons_self, rfl⟩
          · exact Or.inr ⟨e, List.mem_cons_of_mem _ hmem, rfl⟩

theorem upsertEntries_sorted [DecidableRel r] [IsTrans κ r] {k : κ}
    {f : Option β → β} {l : List (κ × β)}
    (h : l.Pairwise (fun x y => r x.1 y.1)) :
    (upsertEntries r k f l).Pairwise (fun x y => r x.1 y.1) := by
  induction l with
  | nil => exact List.pairwise_singleton _ _
  | cons x rest ih =>
      obtain ⟨k', v⟩ := x
      obtain ⟨hhead, htail⟩ := List.pairwise_cons.1 h
      rw [upsertEntries]
      split
      · next hlt =>
          refine List.pairwise_cons.2 ⟨?_, h⟩
          intro y hy
          rcases List.mem_cons.1 hy with rfl | hy
          · exact hlt
          · exact IsTrans.trans _ _ _ hlt (hhead y hy)
      · split
        · next hgt =>
            refine List.pairwise_cons.2 ⟨?_, ih htail⟩
            intro y hy
            rcases mem_upsertEntries hy with hk | ⟨e, he, hk⟩
            · rw [hk]; exact hgt
            · rw [← hk]; exact hhead e he
        · exact List.pairwise_cons.2 ⟨hhead, htail⟩

/-- `operator[]` with what is then done to the value it refers to. -/
def SortedMap.upsert [DecidableRel r] [IsTrans κ r] (m : SortedMap r β)
    (k : κ) (f : Option β → β) : SortedMap r β :=
  ⟨upsertEntries r k f m.entries, upsertEntries_sorted m.sorted⟩

/-- `find(key)`, when there is one. -/
def SortedMap.get? [DecidableEq κ] (m : SortedMap r β) (k : κ) : Option β :=
  (m.entries.find? (fun e => decide (e.1 = k))).map Prod.snd

theorem SortedMap.mem_of_get? [DecidableEq κ] {m : SortedMap r β} {k : κ}
    {v : β} (h : m.get? k = some v) : (k, v) ∈ m.entries := by
  obtain ⟨e, he, hv⟩ := Option.map_eq_some_iff.1 h
  have hk := of_decide_eq_true
    (List.find?_some (p := fun e : κ × β => decide (e.1 = k)) he)
  rw [← hk, ← hv]
  exact List.mem_of_find?_eq_some he

/-- The values after `operator[]` are those there were and the one written. -/
theorem value_upsertEntries [DecidableRel r] {k : κ} {f : Option β → β}
    {l : List (κ × β)} {P : β → Prop} (hl : ∀ e ∈ l, P e.2)
    (hnone : P (f none)) (hsome : ∀ v, P v → P (f (some v))) :
    ∀ e ∈ upsertEntries r k f l, P e.2 := by
  induction l with
  | nil =>
      intro e he
      rw [List.mem_singleton.1 he]
      exact hnone
  | cons x rest ih =>
      obtain ⟨hx, hrest⟩ := List.forall_mem_cons.1 hl
      rw [upsertEntries]
      split
      · exact List.forall_mem_cons.2 ⟨hnone, hl⟩
      · split
        · exact List.forall_mem_cons.2 ⟨hx, ih hrest⟩
        · exact List.forall_mem_cons.2 ⟨hsome _ hx, hrest⟩

/-- `operator[]` at the key of `begin()`. -/
theorem upsertEntries_front [DecidableRel r] [Std.Irrefl r] (k : κ)
    (f : Option β → β) (v : β) (rest : List (κ × β)) :
    upsertEntries r k f ((k, v) :: rest) = (k, f (some v)) :: rest := by
  rw [upsertEntries, if_neg (irrefl_of r k), if_neg (irrefl_of r k)]

/-! ## Stable insertion

`List.orderedInsert` puts an element before the first one it is related to,
so over a strict order it goes after its equals. -/

section OrderedInsert

variable {s : α → α → Prop} [DecidableRel s]

theorem orderedInsert_of_forall {a : α} {l : List α} (h : ∀ b ∈ l, s a b) :
    l.orderedInsert s a = a :: l := by
  cases l with
  | nil => rfl
  | cons b l => exact List.orderedInsert_cons_of_le _ _ (h b (by simp))

theorem orderedInsert_append {a : α} {l₁ l₂ : List α}
    (h : ∀ b ∈ l₁, ¬ s a b) :
    (l₁ ++ l₂).orderedInsert s a = l₁ ++ l₂.orderedInsert s a := by
  induction l₁ with
  | nil => rfl
  | cons b l₁ ih =>
      rw [List.cons_append, List.orderedInsert_of_not_le _ _ (h b (by simp)),
        ih (fun c hc => h c (by simp [hc])), List.cons_append]

/-- Keeping only some elements commutes with inserting one that is kept,
when the elements that come after `a` are a final part of the list. -/
theorem filter_orderedInsert {a : α} {l : List α} {p : α → Bool}
    (hp : p a = true) (hl : l.Pairwise (fun b c => s a b → s a c)) :
    (l.orderedInsert s a).filter p = (l.filter p).orderedInsert s a := by
  induction l with
  | nil => simp [hp]
  | cons b l ih =>
      obtain ⟨hb, hl⟩ := List.pairwise_cons.1 hl
      by_cases hab : s a b
      · have hall : ∀ c ∈ (b :: l).filter p, s a c := by
          intro c hc
          rcases List.mem_cons.1 (List.mem_of_mem_filter hc) with rfl | hc
          · exact hab
          · exact hb c hc hab
        rw [List.orderedInsert_cons_of_le _ _ hab, orderedInsert_of_forall hall,
          List.filter_cons_of_pos hp]
      · rw [List.orderedInsert_of_not_le _ _ hab]
        by_cases hpb : p b = true
        · rw [List.filter_cons_of_pos hpb, List.filter_cons_of_pos hpb, ih hl,
            List.orderedInsert_of_not_le _ _ hab]
        · rw [List.filter_cons_of_neg hpb, List.filter_cons_of_neg hpb, ih hl]

/-- A relation that holds of the list and between `a` and the elements on
either side of it holds of the list with `a` in it. -/
theorem pairwise_orderedInsert {R : α → α → Prop} {a : α} {l : List α}
    (hl : l.Pairwise R) (hup : l.Pairwise (fun b c => s a b → s a c))
    (hbefore : ∀ b ∈ l, ¬ s a b → R b a) (hafter : ∀ b ∈ l, s a b → R a b) :
    (l.orderedInsert s a).Pairwise R := by
  induction l with
  | nil => exact List.pairwise_singleton _ _
  | cons b l ih =>
      obtain ⟨hb, hl'⟩ := List.pairwise_cons.1 hl
      obtain ⟨hbup, hup'⟩ := List.pairwise_cons.1 hup
      by_cases hab : s a b
      · rw [List.orderedInsert_cons_of_le _ _ hab]
        refine List.pairwise_cons.2 ⟨?_, hl⟩
        intro c hc
        rcases List.mem_cons.1 hc with rfl | hc'
        · exact hafter _ hc hab
        · exact hafter _ hc (hbup c hc' hab)
      · rw [List.orderedInsert_of_not_le _ _ hab]
        refine List.pairwise_cons.2 ⟨?_, ih hl' hup'
          (fun c hc => hbefore c (List.mem_cons_of_mem _ hc))
          (fun c hc => hafter c (List.mem_cons_of_mem _ hc))⟩
        intro c hc
        rcases (List.mem_orderedInsert s).1 hc with rfl | hc
        · exact hbefore b List.mem_cons_self hab
        · exact hb c hc

/-- Two elements of which one comes first can be inserted in either order. -/
theorem orderedInsert_comm {a b : α} (hab : s a b) (hba : ¬ s b a)
    (htrans : ∀ c, s b c → s a c) (l : List α) :
    (l.orderedInsert s a).orderedInsert s b =
      (l.orderedInsert s b).orderedInsert s a := by
  induction l with
  | nil => simp [hab, hba]
  | cons c l ih =>
      by_cases hbc : s b c
      · have hac : s a c := htrans c hbc
        simp [hab, hba, hac, hbc]
      · by_cases hac : s a c
        · simp [hba, hac, hbc]
        · simp [hac, hbc, ih]

end OrderedInsert

/-! ## Maps of queues -/

/-- The entries of a map of queues as one queue, each element with its key. -/
def flatEntries (l : List (κ × List α)) : List (κ × α) :=
  l.flatMap (fun e => e.2.map (fun x => (e.1, x)))

@[simp] theorem flatEntries_nil : flatEntries ([] : List (κ × List α)) = [] :=
  rfl

@[simp] theorem flatEntries_cons (k : κ) (q : List α)
    (rest : List (κ × List α)) :
    flatEntries ((k, q) :: rest) =
      q.map (fun x => (k, x)) ++ flatEntries rest := rfl

theorem mem_flatEntries {l : List (κ × List α)} {x : κ × α} :
    x ∈ flatEntries l ↔ ∃ q, (x.1, q) ∈ l ∧ x.2 ∈ q := by
  simp only [flatEntries, List.mem_flatMap, List.mem_map]
  constructor
  · rintro ⟨⟨k, q⟩, hmem, a, ha, rfl⟩
    exact ⟨q, hmem, ha⟩
  · rintro ⟨q, hmem, ha⟩
    exact ⟨(x.1, q), hmem, x.2, ha, rfl⟩

namespace SortedMap

def flat (m : SortedMap r (List α)) : List (κ × α) := flatEntries m.entries

theorem length_flat {m : SortedMap r (List α)} {k : κ} {q : List α}
    {rest : List (κ × List α)} (h : m.entries = (k, q) :: rest) :
    m.flat.length = q.length + (flatEntries rest).length := by
  rw [flat, h, flatEntries_cons, List.length_append, List.length_map]

/-- No key is bound to an empty queue. -/
def NoEmpty (m : SortedMap r (List α)) : Prop := ∀ e ∈ m.entries, e.2 ≠ []

/-- `m[k].push_back(x)`. -/
def pushBack [DecidableRel r] [IsTrans κ r] (m : SortedMap r (List α))
    (k : κ) (x : α) : SortedMap r (List α) :=
  m.upsert k (fun q => q.getD [] ++ [x])

/-- Keep in every queue only the elements `p` accepts, and no queue that
becomes empty. -/
def filterQueues (p : α → Bool) (m : SortedMap r (List α)) :
    SortedMap r (List α) where
  entries := (m.entries.map (fun e => (e.1, e.2.filter p))).filter
    (fun e => !e.2.isEmpty)
  sorted := List.Pairwise.filter _ (List.pairwise_map.2 m.sorted)

theorem noEmpty_empty : (empty : SortedMap r (List α)).NoEmpty := by
  intro e he; cases he

theorem noEmpty_filterQueues (p : α → Bool) (m : SortedMap r (List α)) :
    (m.filterQueues p).NoEmpty := by
  intro e he
  simpa using (List.mem_filter.1 he).2

theorem flat_filterQueues (p : α → Bool) (m : SortedMap r (List α)) :
    (m.filterQueues p).flat = m.flat.filter (fun x => p x.2) := by
  obtain ⟨l, hl⟩ := m
  simp only [flat, filterQueues]
  clear hl
  induction l with
  | nil => rfl
  | cons e rest ih =>
      obtain ⟨k, q⟩ := e
      have hq : (q.map (fun x => (k, x))).filter (fun x => p x.2) =
          (q.filter p).map (fun x => (k, x)) := by
        rw [List.filter_map]; rfl
      rw [flatEntries_cons, List.filter_append, hq, List.map_cons, ← ih]
      cases hf : q.filter p with
      | nil => simp
      | cons a q' => simp

theorem noEmpty_pushBack [DecidableRel r] [IsTrans κ r]
    {m : SortedMap r (List α)} (h : m.NoEmpty) (k : κ) (x : α) :
    (m.pushBack k x).NoEmpty := by
  obtain ⟨l, hl⟩ := m
  simp only [NoEmpty, pushBack, upsert] at h ⊢
  clear hl
  induction l with
  | nil => simp [upsertEntries]
  | cons e rest ih =>
      obtain ⟨k', q⟩ := e
      have hrest := ih (fun e he => h e (List.mem_cons_of_mem _ he))
      rw [upsertEntries]
      split
      · intro e he
        rcases List.mem_cons.1 he with rfl | he
        · simp
        · exact h e he
      · split
        · intro e he
          rcases List.mem_cons.1 he with rfl | he
          · exact h _ List.mem_cons_self
          · exact hrest e he
        · intro e he
          rcases List.mem_cons.1 he with rfl | he
          · simp
          · exact h e (List.mem_cons_of_mem _ he)

/-- Pushing to the back of one queue is a stable insertion in the long one. -/
theorem flat_pushBack [DecidableRel r] [IsStrictTotalOrder κ r]
    (m : SortedMap r (List α)) (k : κ) (x : α) :
    (m.pushBack k x).flat =
      m.flat.orderedInsert (fun a b => r a.1 b.1) (k, x) := by
  obtain ⟨l, hl⟩ := m
  simp only [flat, pushBack, upsert]
  induction l with
  | nil => rfl
  | cons e rest ih =>
      obtain ⟨k', q⟩ := e
      obtain ⟨hhead, htail⟩ := List.pairwise_cons.1 hl
      have hrest : ∀ b ∈ flatEntries rest, r k' b.1 := by
        intro b hb
        obtain ⟨q', hq', _⟩ := mem_flatEntries.1 hb
        exact hhead _ hq'
      rw [upsertEntries]
      split
      · next hlt =>
          show (k, x) :: flatEntries ((k', q) :: rest) = _
          refine (orderedInsert_of_forall ?_).symm
          intro b hb
          rw [flatEntries_cons] at hb
          rcases List.mem_append.1 hb with hb | hb
          · obtain ⟨a, _, rfl⟩ := List.mem_map.1 hb
            exact hlt
          · exact IsTrans.trans _ _ _ hlt (hrest b hb)
      · next hnlt =>
          have hq : ∀ b ∈ q.map (fun y => (k', y)), ¬ r k b.1 := by
            intro b hb
            obtain ⟨a, _, rfl⟩ := List.mem_map.1 hb
            exact hnlt
          split
          · next hgt =>
              rw [flatEntries_cons, flatEntries_cons, ih htail,
                orderedInsert_append hq]
          · next hngt =>
              obtain rfl : k = k' := by
                rcases trichotomous_of r k k' with h | h | h
                · exact absurd h hnlt
                · exact h
                · exact absurd h hngt
              rw [flatEntries_cons, flatEntries_cons, orderedInsert_append hq,
                orderedInsert_of_forall hrest]
              simp

theorem filter_key_flatEntries [Std.Irrefl r] {k : κ} {q : List α}
    {rest : List (κ × List α)} (hrest : ∀ e ∈ rest, r k e.1)
    (t : κ × α → Bool) (ht : ∀ x, t x = true ↔ x.1 = k) :
    (flatEntries ((k, q) :: rest)).filter t = q.map (fun x => (k, x)) ∧
    (flatEntries ((k, q) :: rest)).filter (fun x => !t x) =
      flatEntries rest := by
  have hq : ∀ x ∈ q.map (fun x => (k, x)), t x = true := by
    intro x hx
    obtain ⟨a, _, rfl⟩ := List.mem_map.1 hx
    exact (ht _).2 rfl
  have hr : ∀ x ∈ flatEntries rest, t x = false := by
    intro x hx
    obtain ⟨q', hq', _⟩ := mem_flatEntries.1 hx
    rw [Bool.eq_false_iff]
    intro h
    have hlt := hrest _ hq'
    rw [(ht _).1 h] at hlt
    exact irrefl_of r k hlt
  rw [flatEntries_cons, List.filter_append, List.filter_append,
    List.filter_eq_self.2 hq,
    List.filter_eq_nil_iff.2 (fun x hx => by simp [hr x hx]),
    List.filter_eq_nil_iff.2 (fun x hx => by simp [hq x hx]),
    List.filter_eq_self.2 (fun x hx => by simp [hr x hx])]
  simp

/-- Without empty queues the long queue determines the map. -/
theorem flatEntries_injective [DecidableEq κ] [Std.Irrefl r] :
    ∀ {l l' : List (κ × List α)}, l.Pairwise (fun x y => r x.1 y.1) →
      l'.Pairwise (fun x y => r x.1 y.1) → (∀ e ∈ l, e.2 ≠ []) →
      (∀ e ∈ l', e.2 ≠ []) → flatEntries l = flatEntries l' → l = l'
  | [], [], _, _, _, _, _ => rfl
  | (_, []) :: _, _, _, _, hm, _, _ => absurd rfl (hm _ List.mem_cons_self)
  | _, (_, []) :: _, _, _, _, hn, _ => absurd rfl (hn _ List.mem_cons_self)
  | (_, _ :: _) :: _, [], _, _, _, _, h => by simp at h
  | [], (_, _ :: _) :: _, _, _, _, _, h => by simp at h
  | (k, a :: q) :: rest, (k', a' :: q') :: rest', hl, hl', hm, hn, h => by
      obtain ⟨hhead, htail⟩ := List.pairwise_cons.1 hl
      obtain ⟨hhead', htail'⟩ := List.pairwise_cons.1 hl'
      -- Neither head queue is empty, so the first keys agree.
      obtain rfl : k = k' := by
        simp only [flatEntries_cons, List.map_cons, List.cons_append,
          List.cons.injEq, Prod.mk.injEq] at h
        exact h.1.1
      have ht : ∀ x : κ × α, decide (x.1 = k) = true ↔ x.1 = k :=
        fun x => by simp
      obtain ⟨h₁, h₂⟩ := filter_key_flatEntries (q := a :: q) hhead _ ht
      obtain ⟨h₁', h₂'⟩ := filter_key_flatEntries (q := a' :: q') hhead' _ ht
      rw [h] at h₁ h₂
      have hq : a :: q = a' :: q' :=
        List.map_injective_iff.2 (fun b c hbc => (Prod.mk.inj hbc).2)
          (h₁.symm.trans h₁')
      have hrest : rest = rest' :=
        flatEntries_injective htail htail'
          (fun e he => hm e (List.mem_cons_of_mem _ he))
          (fun e he => hn e (List.mem_cons_of_mem _ he))
          (h₂.symm.trans h₂')
      rw [hq, hrest]

theorem flat_injective [DecidableEq κ] [Std.Irrefl r]
    {m n : SortedMap r (List α)} (hm : m.NoEmpty) (hn : n.NoEmpty)
    (h : m.flat = n.flat) : m = n :=
  SortedMap.ext (flatEntries_injective m.sorted n.sorted hm hn h)

/-- What is left at `begin()` written back, the level erased when nothing is:
the front of the long queue is replaced, and no empty queue appears. -/
theorem entries_writeBack [DecidableEq κ] [Std.Irrefl r]
    {m : SortedMap r (List α)} {k : κ} {q : List α}
    {rest : List (κ × List α)} (h : m.entries = (k, q) :: rest)
    (q' : List α) :
    (if q'.isEmpty then (m.setFront q').erase k
      else m.setFront q').entries =
      if q'.isEmpty then rest else (k, q') :: rest := by
  have hset : (m.setFront q').entries = (k, q') :: rest :=
    setFront_entries h
  have hsorted := m.sorted
  rw [h] at hsorted
  have hrest : ∀ e ∈ rest, e.1 ≠ k := by
    intro e he hk
    have hlt := (List.pairwise_cons.1 hsorted).1 e he
    rw [hk] at hlt
    exact irrefl_of r k hlt
  split
  · simp only [erase, hset, ne_eq, decide_not]
    rw [List.filter_cons_of_neg (by simp)]
    exact List.filter_eq_self.2 (fun e he => by simpa using hrest e he)
  · exact hset

end SortedMap

end LearningCpp.Lib
