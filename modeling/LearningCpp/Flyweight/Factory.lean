import LearningCpp.Lib.Run
import LearningCpp.Lib.UnorderedMap

/-!
# The flyweight cache

`get_cracked/design_patterns/flyweight/main.cpp`, the factory. It keeps one
`ParticleType` for each pair of a color and a sprite it was asked for, in a hash
map whose key is the two with a comma between them. A shared object is the
number it was made with; an object in the map is never deleted or changed.

A comma says where the color ends only if it is the first one, and nothing keeps
commas out of a color. So the cache is exact up to the key: what comes back is
the object made for the first pair with that key. The end of the file says which
pairs share one.
-/

namespace LearningCpp.Flyweight

open LearningCpp.Lib

abbrev Text := List Char

structure ParticleType where
  color : Text
  sprite : Text
deriving DecidableEq, Repr

/-- A `std::shared_ptr<const ParticleType>`. -/
abbrev Ptr := ℕ

structure ParticleTypeFactory where
  types : UnorderedMap Text Ptr
  /-- The objects made, by number. -/
  object : Ptr → Option ParticleType
  made : ℕ

/-- What a call gave back: the arguments, the pointer, and the object it pointed
to then. -/
structure Return where
  color : Text
  sprite : Text
  type : Ptr
  pointee : Option ParticleType
deriving DecidableEq, Repr

/-- `color + "," + sprite`. -/
def key (color sprite : Text) : Text := color ++ [','] ++ sprite

namespace ParticleTypeFactory

def init : ParticleTypeFactory := ⟨.empty, fun _ => none, 0⟩

/-- `std::make_shared<const ParticleType>`. -/
def makeShared (f : ParticleTypeFactory) (type : ParticleType) :
    ParticleTypeFactory × Ptr :=
  ({ f with
      object := Function.update f.object f.made (some type)
      made := f.made + 1 }, f.made)

/-- `GetType`. `at` is called on a key that is there. -/
def getType (f : ParticleTypeFactory) (color sprite : Text) :
    ParticleTypeFactory × Ptr :=
  match f.types (key color sprite) with
  | some type => (f, type)
  | none =>
      let (f, type) := f.makeShared ⟨color, sprite⟩
      ({ f with types := f.types.insert (key color sprite) type }, type)

/-- A call, with what the caller sees. -/
def call (f : ParticleTypeFactory) (args : Text × Text) :
    ParticleTypeFactory × Return :=
  let (f, type) := f.getType args.1 args.2
  (f, ⟨args.1, args.2, type, f.object type⟩)

/-- The map's entries point to different objects, each made for one of the pairs
asked for, at that pair's key. -/
structure Inv (asked : List (Text × Text)) (f : ParticleTypeFactory) :
    Prop where
  entry : ∀ k type, f.types k = some type → type < f.made ∧
    ∃ args ∈ asked, k = key args.1 args.2 ∧
      f.object type = some ⟨args.1, args.2⟩
  injective : ∀ k k' type, f.types k = some type → f.types k' = some type →
    k = k'

variable {f : ParticleTypeFactory} {asked : List (Text × Text)}

theorem init_inv : Inv [] init where
  entry := fun _ _ h => by cases h
  injective := fun _ _ _ h => by cases h

theorem getType_hit {color sprite : Text} {type : Ptr}
    (h : f.types (key color sprite) = some type) :
    f.getType color sprite = (f, type) := by
  simp only [getType, h]

theorem getType_miss {color sprite : Text}
    (h : f.types (key color sprite) = none) :
    f.getType color sprite =
      (⟨f.types.set (key color sprite) f.made,
        Function.update f.object f.made (some ⟨color, sprite⟩), f.made + 1⟩,
        f.made) := by
  have hinsert : f.types.insert (key color sprite) f.made =
      f.types.set (key color sprite) f.made :=
    UnorderedMap.insert_of_not_contains (UnorderedMap.contains_eq_false.2 h)
  simp only [getType, h, makeShared, hinsert]

/-- What a call does: the entries and objects there were stay, and the pointer
it returns is the entry at its key. -/
theorem Inv.call (h : Inv asked f) (args : Text × Text) :
    Inv (asked ++ [args]) (f.call args).1 ∧
      (f.call args).1.types (key args.1 args.2) = some (f.call args).2.type ∧
      ∀ k type, f.types k = some type →
        (f.call args).1.types k = some type ∧
          (f.call args).1.object type = f.object type := by
  unfold ParticleTypeFactory.call
  cases hk : f.types (key args.1 args.2) with
  | some type =>
      simp only [getType_hit hk]
      refine ⟨⟨?_, h.injective⟩, hk, fun k type hk => ⟨hk, trivial⟩⟩
      intro k type hk
      obtain ⟨hlt, made, hmade, hkey, hobject⟩ := h.entry k type hk
      exact ⟨hlt, made, List.mem_append_left _ hmade, hkey, hobject⟩
  | none =>
      simp only [getType_miss hk]
      -- The new object's number is none of those in the map.
      have hold : ∀ k type, f.types k = some type → k ≠ key args.1 args.2 ∧
          type ≠ f.made := by
        intro k type hentry
        refine ⟨?_, (h.entry k type hentry).1.ne⟩
        rintro rfl
        rw [hk] at hentry
        cases hentry
      refine ⟨⟨?_, ?_⟩, ?_, ?_⟩
      · intro k type hentry
        dsimp only at hentry
        rw [UnorderedMap.set_apply] at hentry
        split at hentry
        · next heq =>
            cases hentry
            exact ⟨Nat.lt_succ_self _, args, by simp, heq,
              Function.update_self _ _ _⟩
        · obtain ⟨hlt, made, hmade, hkey, hobject⟩ := h.entry k type hentry
          refine ⟨hlt.trans (Nat.lt_succ_self _), made,
            List.mem_append_left _ hmade, hkey, ?_⟩
          show Function.update _ _ _ type = _
          rw [Function.update_of_ne hlt.ne]
          exact hobject
      · intro k k' type hentry hentry'
        dsimp only at hentry hentry'
        rw [UnorderedMap.set_apply] at hentry hentry'
        split at hentry
        · next heq =>
            cases hentry
            split at hentry'
            · next heq' => rw [heq, heq']
            · exact absurd rfl (hold k' _ hentry').2
        · split at hentry'
          · cases hentry'
            exact absurd rfl (hold k _ hentry).2
          · exact h.injective k k' type hentry hentry'
      · rw [UnorderedMap.set_apply, if_pos rfl]
      · intro k type hentry
        obtain ⟨hne, hmade⟩ := hold k type hentry
        rw [UnorderedMap.set_apply, if_neg hne]
        exact ⟨hentry, Function.update_of_ne hmade _ _⟩

/-- The returns of a run. -/
def returns (calls : List (Text × Text)) : List Return :=
  runOut call init calls

/-- A return as the final state sees it: its pointer is the entry at its key,
and what it pointed to is what is there now. -/
def Settled (f : ParticleTypeFactory) (r : Return) : Prop :=
  f.types (key r.color r.sprite) = some r.type ∧ f.object r.type = r.pointee

theorem run_settled (calls : List (Text × Text)) :
    Inv calls (runState call init calls) ∧
      ∀ r ∈ returns calls, (runState call init calls).Settled r := by
  unfold returns
  induction calls using List.reverseRecOn with
  | nil => exact ⟨init_inv, fun r hr => by cases hr⟩
  | append_singleton calls args ih =>
      obtain ⟨hinv, hsettled⟩ := ih
      obtain ⟨hinv', hentry, hkept⟩ := hinv.call args
      rw [runState_concat, runOut_concat]
      refine ⟨hinv', ?_⟩
      intro r hr
      rcases List.mem_append.1 hr with hr | hr
      · obtain ⟨htype, hobject⟩ := hsettled r hr
        obtain ⟨htype', hobject'⟩ := hkept _ _ htype
        exact ⟨htype', hobject'.trans hobject⟩
      · obtain rfl := List.mem_singleton.1 hr
        exact ⟨hentry, rfl⟩

theorem returns_args (calls : List (Text × Text)) :
    (returns calls).map (fun r => (r.color, r.sprite)) = calls := by
  unfold returns
  induction calls using List.reverseRecOn with
  | nil => rfl
  | append_singleton calls args ih =>
      rw [runOut_concat, List.map_append, ih]
      rfl

/-- The cache tells the pairs apart: each call returned an object with the color
and the sprite it was called with, and two returned the same object exactly if
they were called with the same pair. -/
def Exact (calls : List (Text × Text)) : Prop :=
  (∀ r ∈ returns calls, r.pointee = some ⟨r.color, r.sprite⟩) ∧
    ∀ r ∈ returns calls, ∀ r' ∈ returns calls,
      (r.type = r'.type ↔ r.color = r'.color ∧ r.sprite = r'.sprite)

end ParticleTypeFactory

/-! ## Pairs that share a key -/

/-- The second pair's color starts with the first one's and a comma, and its
sprite ends the first one's, the same text and a comma in between. -/
def Shadows (args args' : Text × Text) : Prop :=
  ∃ m, args'.1 = args.1 ++ ',' :: m ∧ args.2 = m ++ ',' :: args'.2

theorem key_eq_iff {args args' : Text × Text} :
    key args.1 args.2 = key args'.1 args'.2 ↔
      args = args' ∨ Shadows args args' ∨ Shadows args' args := by
  obtain ⟨color, sprite⟩ := args
  obtain ⟨color', sprite'⟩ := args'
  simp only [key, List.append_assoc, List.singleton_append, Shadows,
    Prod.mk.injEq]
  rw [List.append_eq_append_iff]
  constructor
  · rintro (⟨m, hcolor, hsprite⟩ | ⟨m, hcolor, hsprite⟩)
    · cases m with
      | nil =>
          obtain ⟨_, rfl⟩ := List.cons.inj hsprite
          exact .inl ⟨by simpa using hcolor.symm, rfl⟩
      | cons c m =>
          obtain ⟨rfl, hrest⟩ := List.cons.inj hsprite
          exact .inr (.inl ⟨m, hcolor, hrest⟩)
    · cases m with
      | nil =>
          obtain ⟨_, rfl⟩ := List.cons.inj hsprite
          exact .inl ⟨by simpa using hcolor, rfl⟩
      | cons c m =>
          obtain ⟨rfl, hrest⟩ := List.cons.inj hsprite
          exact .inr (.inr ⟨m, hcolor, hrest⟩)
  · rintro (⟨rfl, rfl⟩ | ⟨m, rfl, rfl⟩ | ⟨m, rfl, rfl⟩)
    · exact .inl ⟨[], by simp, rfl⟩
    · exact .inl ⟨',' :: m, rfl, rfl⟩
    · exact .inr ⟨',' :: m, rfl, rfl⟩

namespace ParticleTypeFactory

/-- Two calls return the same object exactly if their keys are the same. -/
theorem returns_type_iff {calls : List (Text × Text)} {r r' : Return}
    (hr : r ∈ returns calls) (hr' : r' ∈ returns calls) :
    r.type = r'.type ↔ key r.color r.sprite = key r'.color r'.sprite := by
  obtain ⟨hinv, hsettled⟩ := run_settled calls
  have htype := (hsettled r hr).1
  have htype' := (hsettled r' hr').1
  constructor
  · intro heq
    rw [← heq] at htype'
    exact hinv.injective _ _ _ htype htype'
  · intro heq
    rw [← heq, htype] at htype'
    exact Option.some.inj htype'

/-- What a call returns was made for a pair asked for with the same key. -/
theorem returns_pointee {calls : List (Text × Text)} {r : Return}
    (hr : r ∈ returns calls) : ∃ args ∈ calls,
      key r.color r.sprite = key args.1 args.2 ∧
        r.pointee = some ⟨args.1, args.2⟩ := by
  obtain ⟨hinv, hsettled⟩ := run_settled calls
  obtain ⟨htype, hpointee⟩ := hsettled r hr
  obtain ⟨_, args, hargs, hkey, hobject⟩ := hinv.entry _ _ htype
  exact ⟨args, hargs, hkey, hpointee.symm.trans hobject⟩

theorem exists_return {calls : List (Text × Text)} {args : Text × Text}
    (hargs : args ∈ calls) :
    ∃ r ∈ returns calls, r.color = args.1 ∧ r.sprite = args.2 := by
  rw [← returns_args calls] at hargs
  obtain ⟨r, hr, rfl⟩ := List.mem_map.1 hargs
  exact ⟨r, hr, rfl, rfl⟩

theorem args_mem {calls : List (Text × Text)} {r : Return}
    (hr : r ∈ returns calls) : (r.color, r.sprite) ∈ calls := by
  have h := List.mem_map_of_mem (f := fun r : Return => (r.color, r.sprite)) hr
  rwa [returns_args] at h

/-- The cache is exact in a run exactly if no pair asked for shadows another. -/
theorem exact_iff (calls : List (Text × Text)) :
    Exact calls ↔
      ∀ args ∈ calls, ∀ args' ∈ calls, ¬ Shadows args args' := by
  constructor
  · rintro ⟨_, hsame⟩ args hargs args' hargs' hshadows
    obtain ⟨r, hr, hcolor, hsprite⟩ := exists_return hargs
    obtain ⟨r', hr', hcolor', hsprite'⟩ := exists_return hargs'
    have hkey : key args.1 args.2 = key args'.1 args'.2 :=
      key_eq_iff.2 (.inr (.inl hshadows))
    rw [← hcolor, ← hsprite, ← hcolor', ← hsprite',
      ← returns_type_iff hr hr', hsame r hr r' hr'] at hkey
    obtain ⟨m, hlong, _⟩ := hshadows
    rw [← hcolor, ← hcolor', hkey.1] at hlong
    have hlength := congrArg List.length hlong
    simp at hlength
  · intro hnone
    -- Pairs asked for with the same key are the same.
    have hinj : ∀ args ∈ calls, ∀ args' ∈ calls,
        key args.1 args.2 = key args'.1 args'.2 → args = args' := by
      intro args hargs args' hargs' hkey
      rcases key_eq_iff.1 hkey with heq | hshadows | hshadows
      · exact heq
      · exact absurd hshadows (hnone _ hargs _ hargs')
      · exact absurd hshadows (hnone _ hargs' _ hargs)
    constructor
    · intro r hr
      obtain ⟨args, hargs, hkey, hpointee⟩ := returns_pointee hr
      have heq := hinj (r.color, r.sprite) (args_mem hr) args hargs hkey
      rw [hpointee, ← heq]
    · intro r hr r' hr'
      rw [returns_type_iff hr hr']
      constructor
      · intro hkey
        exact Prod.mk.inj (hinj (r.color, r.sprite) (args_mem hr)
          (r'.color, r'.sprite) (args_mem hr') hkey)
      · rintro ⟨hcolor, hsprite⟩
        rw [hcolor, hsprite]

/-- The colors `a` and `a,b` with the sprites `b,c` and `c`. -/
theorem exact_comma :
    ¬ Exact [(['a'], ['b', ',', 'c']), (['a', ',', 'b'], ['c'])] := by
  rintro ⟨hpointee, _⟩
  revert hpointee
  decide

end ParticleTypeFactory

end LearningCpp.Flyweight
