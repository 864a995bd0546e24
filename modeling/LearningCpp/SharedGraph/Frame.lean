import LearningCpp.Lib.Frame
import LearningCpp.SharedGraph.Heap

/-!
# What `release` does not depend on

More fuel does not change what it does, nor does a handle it has no pointer to,
such as the one whose constructor is still running.
-/

namespace LearningCpp.SharedGraph

open LearningCpp.Lib Program
open LearningCpp.SharedPtr (Life SharedPointer)
open LearningCpp.UniquePtr (Layout)

variable {H O B : Type} {L : Layout H O} {s : State H O B} {h k : H}
  {p : SharedPointer O B}

/-! ## Handles that nothing refers to -/

theorem ne_of_handle (hh : s.handle h = none) (hk : s.handle k ≠ none) :
    k ≠ h := by
  rintro rfl
  exact hk hh

variable [DecidableEq H]

/-- The program does the same if the place is taken. -/
abbrev Apart (h : H) (p : SharedPointer O B) {α : Type} (c : Run H O B α) :
    Prop :=
  Framed (fun s => s.handle h = none) (fun s => s.setHandle h (some p)) c

theorem setHandle_comm (s : State H O B) (hk : k ≠ h)
    (v w : Option (SharedPointer O B)) :
    (s.setHandle h v).setHandle k w = (s.setHandle k w).setHandle h v := by
  unfold State.setHandle
  rw [Function.update_comm hk.symm]

theorem apart_pointers (k : H) : Apart h p (pointers (B := B) (O := O) k) := by
  refine .read ?_
  intro s q hs hq
  have hk : k ≠ h := ne_of_handle hs (by simp [hq])
  rw [setHandle_of_ne _ hk]
  exact hq

/-- A handle that is there gets another value, or goes. -/
theorem apart_set (k : H) (v : Option (SharedPointer O B)) :
    Apart h p (update fun s : State H O B =>
      (s.handle k).map fun _ => s.setHandle k v) := by
  refine .update ?_
  intro s s' hs hs'
  obtain ⟨q, hq, rfl⟩ := Option.map_eq_some_iff.1 hs'
  have hk : k ≠ h := ne_of_handle hs (by simp [hq])
  rw [setHandle_of_ne _ hk.symm, setHandle_of_ne _ hk, hq,
    setHandle_comm s hk]
  exact ⟨hs, rfl⟩

theorem apart_lock (cb : Option B) : Apart h p (lock (H := H) (O := O) cb) :=
  .read fun _ _ _ h => h

theorem apart_destroyAll {f : H → Run H O B Unit} (hf : ∀ k, Apart h p (f k))
    (l : List H) : Apart h p (destroyAll f l) := by
  induction l with
  | nil => exact .pure ()
  | cons k l ih => exact (hf k).bind fun _ => ih

variable [DecidableEq B]

theorem apart_decrement (b : B) :
    Apart h p (decrement (H := H) (O := O) b) := by
  refine .bind (.update ?_) fun _ => .read fun _ _ _ h => h
  intro s s' hs hs'
  cases hs'
  exact ⟨hs, rfl⟩

theorem apart_deleteBlock (b : B) :
    Apart h p (deleteBlock (H := H) (O := O) b) := by
  refine .update ?_
  intro s s' hs hs'
  split at hs'
  · next halive =>
      cases hs'
      exact ⟨hs, if_pos halive⟩
  · cases hs'

variable [DecidableEq O]

omit [DecidableEq B] in
theorem apart_endObject (o : O) :
    Apart h p (endObject (H := H) (B := B) o) := by
  refine .update ?_
  intro s s' hs hs'
  split at hs'
  · next halive =>
      cases hs'
      exact ⟨hs, if_pos halive⟩
  · cases hs'

theorem apart_deleteObject (fuel : ℕ)
    (hf : ∀ k, Apart h p (release L fuel k)) (o : O) :
    Apart h p (deleteObject L (SharedGraph.destructor (B := B) L fuel) o) := by
  refine (apart_endObject o).bind fun _ => apart_destroyAll (fun k => ?_) _
  exact (hf k).bind fun _ => apart_set k none

theorem apart_release (fuel : ℕ) (k : H) :
    Apart h p (release (B := B) L fuel k) := by
  induction fuel generalizing k with
  | zero => exact .undefined
  | succ fuel ih =>
      refine (apart_pointers k).bind fun old => ?_
      refine (apart_set k (some .null)).bind fun _ => ?_
      cases old.ptr with
      | none => exact .pure ()
      | some o =>
          refine (apart_lock old.cb).bind fun b => ?_
          refine (apart_decrement b).bind fun free => ?_
          cases free with
          | false => exact .pure ()
          | true =>
              exact (apart_deleteObject fuel ih o).bind fun _ =>
                apart_deleteBlock b

/-! ## More fuel -/

omit [DecidableEq H] [DecidableEq O] [DecidableEq B] in
theorem destroyAll_extends {f g : H → Run H O B Unit}
    (hfg : ∀ h, Extends (f h) (g h)) (l : List H) :
    Extends (destroyAll f l) (destroyAll g l) := by
  induction l with
  | nil => exact .refl _
  | cons h l ih => exact (hfg h).bind fun _ => ih

theorem release_extends {fuel fuel' : ℕ} (hle : fuel ≤ fuel') (h : H) :
    Extends (release (B := B) L fuel h) (release L fuel' h) := by
  induction fuel generalizing fuel' h with
  | zero => exact .undefined
  | succ fuel ih =>
      cases fuel' with
      | zero => omega
      | succ fuel' =>
          have hdestructor : ∀ k, Extends
              (SharedGraph.destructor (B := B) L fuel k)
              (SharedGraph.destructor L fuel' k) :=
            fun k => (ih (by omega) k).bind_left
          have hdelete : ∀ o, Extends
              (deleteObject (B := B) L (SharedGraph.destructor L fuel) o)
              (deleteObject L (SharedGraph.destructor L fuel') o) :=
            fun o => .bind_right fun _ => destroyAll_extends hdestructor _
          refine .bind_right fun old => .bind_right fun _ => ?_
          cases old.ptr with
          | none => exact .refl _
          | some o =>
              refine .bind_right fun b => .bind_right fun free => ?_
              cases free with
              | false => exact .refl _
              | true => exact (hdelete o).bind_left

theorem destructor_extends {fuel fuel' : ℕ} (hle : fuel ≤ fuel') (h : H) :
    Extends (destructor (B := B) L fuel h) (destructor L fuel' h) :=
  (release_extends hle h).bind_left

theorem moveAssign_extends {fuel fuel' : ℕ} (hle : fuel ≤ fuel') (h k : H) :
    Extends (moveAssign (B := B) L fuel h k) (moveAssign L fuel' h k) := by
  unfold moveAssign
  split
  · exact .refl _
  · exact (release_extends hle h).bind_left

theorem copyAssign_extends {fuel fuel' : ℕ} (hle : fuel ≤ fuel')
    (h k tmp : H) :
    Extends (copyAssign (B := B) L fuel h k tmp)
      (copyAssign L fuel' h k tmp) := by
  unfold copyAssign
  split
  · exact .refl _
  · exact .bind_right fun _ => .bind_right fun _ => destructor_extends hle tmp

theorem fromPointer_extends {fuel fuel' : ℕ} (hle : fuel ≤ fuel') (h : H)
    (pointer : Option O) (block : Option B) :
    Extends (fromPointer L fuel h pointer block)
      (fromPointer L fuel' h pointer block) := by
  refine .bind_right fun _ => ?_
  cases block with
  | some b => exact .refl _
  | none =>
      cases pointer with
      | none => exact .refl _
      | some o =>
          exact .bind_left (.bind_right fun _ =>
            destroyAll_extends (destructor_extends hle) _)

theorem reset_extends {fuel fuel' : ℕ} (hle : fuel ≤ fuel') (h : H)
    (pointer : Option O) (block : Option B) (tmp arg : H) :
    Extends (reset L fuel h pointer block tmp arg)
      (reset L fuel' h pointer block tmp arg) := by
  have hend := destructor_extends (B := B) (L := L) hle tmp
  refine .bind_right fun _ => ?_
  cases pointer with
  | none => exact .bind_right fun _ => hend
  | some o =>
      refine .bind (.rethrow ?_ hend) fun _ => .bind_right fun _ => hend
      exact (fromPointer_extends hle arg (some o) block).bind fun _ =>
        (moveAssign_extends hle tmp arg).bind fun _ => destructor_extends hle arg

theorem exec_extends {fuel fuel' : ℕ} (hle : fuel ≤ fuel') (op : Op H O B) :
    Extends (exec L fuel op) (exec L fuel' op) := by
  cases op with
  | construct h => exact .refl _
  | fromPointer h pointer block =>
      exact .bind_right fun _ => fromPointer_extends hle h pointer block
  | copyConstruct h other => exact .refl _
  | moveConstruct h other => exact .refl _
  | copyAssign h other tmp => exact copyAssign_extends hle h other tmp
  | moveAssign h other => exact moveAssign_extends hle h other
  | reset h pointer block tmp arg =>
      exact .bind_right fun _ => reset_extends hle h pointer block tmp arg
  | destroy h => exact destructor_extends hle h

/-- One run of an operation is all runs with more fuel. -/
theorem step_iff {s s' : State H O B} : Step L s s' ↔
    ∃ op r fuel, Allowed L s op ∧ exec L fuel op s = some (r, s') := by
  constructor
  · intro h
    obtain ⟨op, r, n, hallowed, hrun⟩ := h
    exact ⟨op, r, n, hallowed, hrun n (Nat.le_refl n)⟩
  · intro h
    obtain ⟨op, r, n, hallowed, hrun⟩ := h
    exact ⟨op, r, n, hallowed, fun _ hle => exec_extends hle op _ _ _ hrun⟩

/-- The state an operation leads to, if the fuel is enough. -/
def State.perform (L : Layout H O) (fuel : ℕ) (s : State H O B)
    (op : Op H O B) : State H O B :=
  match exec L fuel op s with
  | some (_, s') => s'
  | none => s

theorem Reachable.perform (h : Reachable L s) {op : Op H O B}
    (hop : Allowed L s op) (fuel : ℕ) :
    Reachable L (s.perform L fuel op) := by
  unfold State.perform
  split
  · next r s' hrun => exact h.tail (step_iff.2 ⟨op, r, fuel, hop, hrun⟩)
  · exact h

end LearningCpp.SharedGraph
