import LearningCpp.AutoPtr.Slots

/-!
# The slots a memory holds

`Holds` ties a memory to the slots it stands for: a handle is what its pointer
leads to, no two handles have what one `new` gave, and the objects no handle owns
are as many as were leaked. What the member functions do to the memory comes down
to five things: a handle that owns nothing is made empty, gets a new object, or
takes what another handle has; an object is deleted or gets another value; and a
handle goes without deleting. Each is one change of the slots.
-/

namespace LearningCpp.AutoPtr

variable {κ V : Type*}

/-- What a handle with a pointer to the object is. -/
def Slot.ofObject : Option V → Slot V
  | none => .dangling
  | some v => .value v

/-- What a handle with the pointer is, seen from outside. -/
def Memory.view (m : Memory κ V) : Option ℕ → Slot V
  | none => .null
  | some o => Slot.ofObject (m.object o)

@[simp] theorem Slot.value?_ofObject (x : Option V) :
    Slot.value? (some (Slot.ofObject x)) = x := by
  cases x <;> rfl

/-- The memory stands for the slots. `owner` is about allocations, not about
addresses: a handle that dangles may have the address of an object made later. -/
structure Holds (m : Memory κ V) (s : Slots κ V) : Prop where
  slot : ∀ k, s.slot k = (m.ptr k).map m.view
  unmade : ∀ o, m.made ≤ o → m.object o = none
  made : ∀ k o, m.pointer k = some o → o < m.made
  owner : ∀ k k' o, m.pointer k = some o → m.pointer k' = some o → k = k'
  lost : ∃ F : Finset ℕ, F.card = s.leaked ∧
    ∀ o, o ∈ F ↔ m.object o ≠ none ∧ ∀ k, m.pointer k ≠ some o

theorem Holds.empty : Holds (Memory.empty : Memory κ V) Slots.empty where
  slot := fun _ => rfl
  unmade := fun _ _ => rfl
  made := fun _ _ h => by cases h
  owner := fun _ _ _ h => by cases h
  lost := ⟨∅, rfl, fun o => by simp [Memory.empty]⟩

section Pointers

variable [DecidableEq κ] {m : Memory κ V} {k a : κ} {p : Option (Option ℕ)}

@[simp] theorem Memory.setPtr_ptr_self : (m.setPtr k p).ptr k = p :=
  Function.update_self _ _ _

theorem Memory.setPtr_ptr_of_ne (h : a ≠ k) :
    (m.setPtr k p).ptr a = m.ptr a := Function.update_of_ne h _ _

@[simp] theorem Memory.setPtr_pointer_self :
    (m.setPtr k p).pointer k = p.join := by
  unfold pointer
  rw [setPtr_ptr_self]

theorem Memory.setPtr_pointer_of_ne (h : a ≠ k) :
    (m.setPtr k p).pointer a = m.pointer a := by
  unfold pointer
  rw [setPtr_ptr_of_ne h]

omit [DecidableEq κ] in
theorem Memory.ptr_of_pointer {o : ℕ} (h : m.pointer k = some o) :
    m.ptr k = some (some o) := by
  unfold pointer at h
  exact Option.join_eq_some_iff.1 h

end Pointers

section Reading

variable {m : Memory κ V} {s : Slots κ V} {k : κ}

/-- What is read through a handle is the value of its slot. -/
theorem Holds.deref (h : Holds m s) (k : κ) :
    m.deref (m.pointer k) = Slot.value? (s.slot k) := by
  rw [h.slot k]
  unfold Memory.pointer
  rcases hk : m.ptr k with - | - | o
  · rfl
  · rfl
  · exact (Slot.value?_ofObject _).symm

/-- A handle with no value has no pointer to an object that is there. -/
theorem Holds.object_of_value (h : Holds m s) {o : ℕ}
    (hk : Slot.value? (s.slot k) = none) (hp : m.pointer k = some o) :
    m.object o = none := by
  have hd := h.deref k
  rw [hk, hp] at hd
  exact hd

theorem Holds.alive (h : Holds m s) :
    (fun k => (s.slot k).isSome) = fun k => (m.ptr k).isSome := by
  funext k
  rw [h.slot k, Option.isSome_map]

theorem Holds.isnull (h : Holds m s) (hk : (m.ptr k).isSome) :
    m.isnull k = s.isnull k := by
  unfold Memory.isnull Slots.isnull
  rw [h.slot k]
  unfold Memory.pointer
  rcases hp : m.ptr k with - | - | o
  · rw [hp] at hk
    cases hk
  · rfl
  · show false = _
    simp only [Option.map_some, Memory.view]
    cases m.object o <;> rfl

end Reading

section Changes

variable [DecidableEq κ] {m : Memory κ V} {s : Slots κ V} {k a : κ}

/-- A handle that owns nothing is made empty, or goes. -/
theorem Holds.forget (h : Holds m s) {p : Option (Option ℕ)}
    (hp : p.join = none) (hk : Slot.value? (s.slot k) = none) :
    Holds (m.setPtr k p) (s.put k (p.map fun _ => .null)) := by
  have hsub : ∀ j o, (m.setPtr k p).pointer j = some o →
      j ≠ k ∧ m.pointer j = some o := by
    intro j o hj
    rcases eq_or_ne j k with rfl | hne
    · rw [Memory.setPtr_pointer_self, hp] at hj
      cases hj
    · rw [Memory.setPtr_pointer_of_ne hne] at hj
      exact ⟨hne, hj⟩
  constructor
  case slot =>
    intro j
    rcases eq_or_ne j k with rfl | hne
    · rw [Slots.put_slot_self, Memory.setPtr_ptr_self]
      rcases p with - | - | o
      · rfl
      · rfl
      · cases hp
    · rw [Slots.put_slot_of_ne _ hne, Memory.setPtr_ptr_of_ne hne]
      exact h.slot j
  case unmade => exact h.unmade
  case made => exact fun j o hj => h.made j o (hsub j o hj).2
  case owner =>
    exact fun j j' o hj hj' =>
      h.owner j j' o (hsub j o hj).2 (hsub j' o hj').2
  case lost =>
    obtain ⟨F, hcard, hF⟩ := h.lost
    refine ⟨F, hcard, fun o => (hF o).trans ?_⟩
    refine and_congr_right fun ho => ⟨fun hall j hj => ?_, fun hall j hj => ?_⟩
    · exact hall j (hsub j o hj).2
    · rcases eq_or_ne j k with rfl | hne
      · exact ho (h.object_of_value hk hj)
      · exact hall j (by rw [Memory.setPtr_pointer_of_ne hne, hj])

/-- A handle goes without its object being deleted. -/
theorem Holds.lose (h : Holds m s) {v : V} (hk : s.slot k = some (.value v)) :
    Holds (m.setPtr k none) { s.put k none with leaked := s.leaked + 1 } := by
  obtain ⟨o, hpk, hok⟩ : ∃ o, m.pointer k = some o ∧ m.object o = some v := by
    have hd := h.deref k
    rw [hk] at hd
    obtain ⟨o, ho, hov⟩ := Option.bind_eq_some_iff.1 hd
    exact ⟨o, ho, hov⟩
  have hsub : ∀ j o, (m.setPtr k none).pointer j = some o ↔
      j ≠ k ∧ m.pointer j = some o := by
    intro j o
    rcases eq_or_ne j k with rfl | hne
    · rw [Memory.setPtr_pointer_self]
      exact ⟨(fun h => by cases h), fun hj => absurd rfl hj.1⟩
    · rw [Memory.setPtr_pointer_of_ne hne]
      exact ⟨fun hj => ⟨hne, hj⟩, And.right⟩
  constructor
  case slot =>
    intro j
    rcases eq_or_ne j k with rfl | hne
    · rw [Memory.setPtr_ptr_self]
      exact Slots.put_slot_self s
    · rw [Memory.setPtr_ptr_of_ne hne]
      exact (Slots.put_slot_of_ne s hne).trans (h.slot j)
  case unmade => exact h.unmade
  case made => exact fun j o hj => h.made j o ((hsub j o).1 hj).2
  case owner =>
    exact fun j j' o hj hj' =>
      h.owner j j' o ((hsub j o).1 hj).2 ((hsub j' o).1 hj').2
  case lost =>
    obtain ⟨F, hcard, hF⟩ := h.lost
    have hnew : o ∉ F := fun ho => ((hF o).1 ho).2 k hpk
    refine ⟨insert o F, ?_, fun o' => ?_⟩
    · rw [Finset.card_insert_of_notMem hnew, hcard]
    · rw [Finset.mem_insert, hF]
      constructor
      · rintro (rfl | ⟨ho', hall⟩)
        · refine ⟨?_, fun j hj => ?_⟩
          · show m.object o' ≠ none
            rw [hok]
            exact Option.some_ne_none v
          · obtain ⟨hne, hj⟩ := (hsub j o').1 hj
            exact hne (h.owner j k o' hj hpk)
        · exact ⟨ho', fun j hj => hall j ((hsub j o').1 hj).2⟩
      · rintro ⟨ho', hall⟩
        by_cases heq : o' = o
        · exact .inl heq
        · refine .inr ⟨ho', fun j hj => ?_⟩
          rcases eq_or_ne j k with rfl | hne
          · rw [hpk] at hj
            exact heq (Option.some.inj hj).symm
          · exact hall j ((hsub j o').2 ⟨hne, hj⟩)

/-- One handle that owns nothing takes what another has. -/
theorem Holds.transfer (h : Holds m s) (hka : k ≠ a) (ha : (m.ptr a).isSome)
    (hk : Slot.value? (s.slot k) = none) :
    Holds ((m.setPtr k (some (m.pointer a))).setPtr a (some none))
      (s.transfer k a) := by
  have hptr : m.ptr a = some (m.pointer a) := by
    unfold Memory.pointer
    obtain ⟨p, hp⟩ := Option.isSome_iff_exists.1 ha
    rw [hp, Option.join_some]
  let m' := (m.setPtr k (some (m.pointer a))).setPtr a (some none)
  have hk' : m'.pointer k = m.pointer a := by
    rw [Memory.setPtr_pointer_of_ne hka, Memory.setPtr_pointer_self,
      Option.join_some]
  have ha' : m'.pointer a = none := Memory.setPtr_pointer_self
  have hj' : ∀ j, j ≠ k → j ≠ a → m'.pointer j = m.pointer j := by
    intro j hjk hja
    rw [Memory.setPtr_pointer_of_ne hja, Memory.setPtr_pointer_of_ne hjk]
  -- the handle after the change was `a` before it if it is `k` now
  have hback : ∀ j o, m'.pointer j = some o →
      ∃ i, m.pointer i = some o ∧
        ((j = k ∧ i = a) ∨ (j ≠ k ∧ i = j ∧ i ≠ a)) := by
    intro j o hj
    rcases eq_or_ne j k with rfl | hjk
    · exact ⟨a, hk'.symm.trans hj, .inl ⟨rfl, rfl⟩⟩
    rcases eq_or_ne j a with rfl | hja
    · rw [ha'] at hj
      cases hj
    · exact ⟨j, (hj' j hjk hja).symm.trans hj, .inr ⟨hjk, rfl, hja⟩⟩
  constructor
  case slot =>
    intro j
    rcases eq_or_ne j a with rfl | hja
    · rw [Slots.transfer_slot_source, Memory.setPtr_ptr_self]
      rfl
    rcases eq_or_ne j k with rfl | hjk
    · rw [Slots.transfer_slot_target _ hka, Memory.setPtr_ptr_of_ne hka,
        Memory.setPtr_ptr_self, h.slot a, hptr]
      rfl
    · rw [Slots.transfer_slot_of_ne _ hjk hja, Memory.setPtr_ptr_of_ne hja,
        Memory.setPtr_ptr_of_ne hjk, h.slot j]
      rfl
  case unmade => exact h.unmade
  case made =>
    intro j o hj
    obtain ⟨i, hi, -⟩ := hback j o hj
    exact h.made i o hi
  case owner =>
    intro j j' o hj hj2
    obtain ⟨i, hi, hcase⟩ := hback j o hj
    obtain ⟨i', hi', hcase'⟩ := hback j' o hj2
    have hii := h.owner i i' o hi hi'
    rcases hcase with ⟨rfl, rfl⟩ | ⟨-, rfl, hia⟩
    · rcases hcase' with ⟨rfl, -⟩ | ⟨-, rfl, hia'⟩
      · rfl
      · exact absurd hii.symm hia'
    · rcases hcase' with ⟨rfl, rfl⟩ | ⟨-, rfl, -⟩
      · exact absurd hii hia
      · exact hii
  case lost =>
    obtain ⟨F, hcard, hF⟩ := h.lost
    refine ⟨F, hcard, fun o => (hF o).trans ?_⟩
    refine and_congr_right fun ho => ⟨fun hall j hj => ?_, fun hall j hj => ?_⟩
    · obtain ⟨i, hi, -⟩ := hback j o hj
      exact hall i hi
    · rcases eq_or_ne j a with rfl | hja
      · exact hall k (hk'.trans hj)
      rcases eq_or_ne j k with rfl | hjk
      · exact ho (h.object_of_value hk hj)
      · exact hall j ((hj' j hjk hja).trans hj)

/-- A handle that owns nothing gets a new object. -/
theorem Holds.install (h : Holds m s) (v : V)
    (hk : Slot.value? (s.slot k) = none) :
    Holds ((m.new v).2.setPtr k (some (some m.made)))
      (s.put k (some (.value v))) := by
  have hview : ∀ p, (∀ o, p = some o → o < m.made) →
      (m.new v).2.view p = m.view p := by
    intro p hp
    cases p with
    | none => rfl
    | some o =>
        have hne : o ≠ m.made := (hp o rfl).ne
        exact congrArg Slot.ofObject (Function.update_of_ne hne _ _)
  have hback : ∀ j o, ((m.new v).2.setPtr k (some (some m.made))).pointer j =
      some o → (j = k ∧ o = m.made) ∨ (j ≠ k ∧ m.pointer j = some o) := by
    intro j o hj
    rcases eq_or_ne j k with rfl | hne
    · rw [Memory.setPtr_pointer_self] at hj
      exact .inl ⟨rfl, (Option.some.inj hj).symm⟩
    · rw [Memory.setPtr_pointer_of_ne hne] at hj
      exact .inr ⟨hne, hj⟩
  constructor
  case slot =>
    intro j
    rcases eq_or_ne j k with rfl | hne
    · rw [Slots.put_slot_self, Memory.setPtr_ptr_self]
      show _ = some (Slot.ofObject
        (Function.update m.object m.made (some v) m.made))
      rw [Function.update_self]
      rfl
    · rw [Slots.put_slot_of_ne _ hne, Memory.setPtr_ptr_of_ne hne, h.slot j]
      show (m.ptr j).map m.view = (m.ptr j).map (m.new v).2.view
      refine Option.map_congr fun p hp => (hview p fun o ho => ?_).symm
      refine h.made j o ?_
      unfold Memory.pointer
      rw [hp, ho, Option.join_some]
  case unmade =>
    intro o ho
    have hlt : m.made < o := ho
    show Function.update m.object m.made (some v) o = none
    rw [Function.update_of_ne hlt.ne']
    exact h.unmade o hlt.le
  case made =>
    intro j o hj
    show o < m.made + 1
    rcases hback j o hj with ⟨-, rfl⟩ | ⟨-, hj⟩
    · exact Nat.lt_succ_self _
    · exact Nat.lt_succ_of_lt (h.made j o hj)
  case owner =>
    intro j j' o hj hj'
    rcases hback j o hj with ⟨rfl, rfl⟩ | ⟨-, hj⟩
    · rcases hback j' _ hj' with ⟨rfl, -⟩ | ⟨-, hj'⟩
      · rfl
      · exact absurd (h.made j' _ hj') (lt_irrefl _)
    · rcases hback j' o hj' with ⟨-, rfl⟩ | ⟨-, hj'⟩
      · exact absurd (h.made j _ hj) (lt_irrefl _)
      · exact h.owner j j' o hj hj'
  case lost =>
    obtain ⟨F, hcard, hF⟩ := h.lost
    refine ⟨F, hcard, fun o => (hF o).trans ?_⟩
    rcases eq_or_ne o m.made with rfl | hne
    · constructor
      · exact fun ho => absurd (h.unmade _ le_rfl) ho.1
      · refine fun ho => absurd ?_ (ho.2 k)
        exact Memory.setPtr_pointer_self
    · have hobj : (m.new v).2.object o = m.object o :=
        Function.update_of_ne hne _ _
      show _ ↔ (m.new v).2.object o ≠ none ∧ _
      rw [hobj]
      refine and_congr_right fun ho =>
        ⟨fun hall j hj => ?_, fun hall j hj => ?_⟩
      · rcases hback j o hj with ⟨-, rfl⟩ | ⟨-, hj⟩
        · exact hne rfl
        · exact hall j hj
      · rcases eq_or_ne j k with rfl | hjk
        · exact ho (h.object_of_value hk hj)
        · exact hall j ((Memory.setPtr_pointer_of_ne hjk).trans hj)

/-- A handle's object is deleted or gets another value. -/
theorem Holds.update (h : Holds m s) {o : ℕ} {v : V}
    (hp : m.pointer k = some o) (ho : m.object o = some v) (w : Option V) :
    Holds { m with object := Function.update m.object o w }
      (s.put k (some (Slot.ofObject w))) := by
  have hlt := h.made k o hp
  constructor
  case slot =>
    intro j
    rcases eq_or_ne j k with rfl | hne
    · rw [Slots.put_slot_self]
      show _ = (m.ptr j).map _
      rw [Memory.ptr_of_pointer hp]
      show _ = some (Slot.ofObject (Function.update m.object o w o))
      rw [Function.update_self]
    · rw [Slots.put_slot_of_ne _ hne, h.slot j]
      refine Option.map_congr fun p hpj => ?_
      cases p with
      | none => rfl
      | some o' =>
          have hne' : o' ≠ o := by
            rintro rfl
            refine hne (h.owner j k o' ?_ hp)
            unfold Memory.pointer
            rw [hpj, Option.join_some]
          exact congrArg Slot.ofObject (Function.update_of_ne hne' _ _).symm
  case unmade =>
    intro o' ho'
    have hne : o' ≠ o := (hlt.trans_le ho').ne'
    show Function.update m.object o w o' = none
    rw [Function.update_of_ne hne]
    exact h.unmade o' ho'
  case made => exact h.made
  case owner => exact h.owner
  case lost =>
    obtain ⟨F, hcard, hF⟩ := h.lost
    refine ⟨F, hcard, fun o' => (hF o').trans ?_⟩
    show _ ↔ Function.update m.object o w o' ≠ none ∧ _
    rcases eq_or_ne o' o with rfl | hne
    · constructor
      · exact fun hall => absurd hp (hall.2 k)
      · exact fun hall => absurd hp (hall.2 k)
    · rw [Function.update_of_ne hne]
      rfl

end Changes

end LearningCpp.AutoPtr
