import Mathlib

/-!
# Combining along an interval

A monoid given by its operation and unit, and what it makes of the values of a
function along an interval of integers. The operation is not assumed to
commute, so the values are combined in the order of their positions.

An interval is the list of its integers. Cutting it in two, and keeping the
part of it that lies in another interval, then are facts about lists, and the
combination follows both because it turns `++` into the operation. The maximum
that a loop keeps is the one combination here that is of a linear order.
-/

namespace LearningCpp.Lib

variable {T : Type*}

/-- The laws of a monoid, for an operation that is a value of the program. -/
structure MonoidLaws (combine : T → T → T) (identity : T) : Prop where
  assoc : ∀ x y z, combine (combine x y) z = combine x (combine y z)
  id_left : ∀ x, combine identity x = x
  id_right : ∀ x, combine x identity = x

/-- The values combined from left to right. -/
def leftToRight (combine : T → T → T) (identity : T) : List T → T
  | [] => identity
  | x :: xs => xs.foldl combine x

section LeftToRight

variable {combine : T → T → T} {identity : T}
  (h : MonoidLaws combine identity)

@[simp] theorem leftToRight_nil :
    leftToRight combine identity [] = identity := rfl

include h

theorem leftToRight_cons (x : T) (xs : List T) :
    leftToRight combine identity (x :: xs) =
      combine x (leftToRight combine identity xs) := by
  have hfold : ∀ (xs : List T) (x y : T),
      xs.foldl combine (combine x y) = combine x (xs.foldl combine y) := by
    intro xs
    induction xs with
    | nil => intro x y; rfl
    | cons z xs ih =>
        intro x y
        rw [List.foldl_cons, List.foldl_cons, h.assoc]
        exact ih x (combine y z)
  match xs with
  | [] => rw [leftToRight_nil, h.id_right]; rfl
  | y :: xs => exact hfold xs x y

theorem leftToRight_append (xs ys : List T) :
    leftToRight combine identity (xs ++ ys) =
      combine (leftToRight combine identity xs)
        (leftToRight combine identity ys) := by
  induction xs with
  | nil => rw [List.nil_append, leftToRight_nil, h.id_left]
  | cons x xs ih =>
      rw [List.cons_append, leftToRight_cons h, leftToRight_cons h, ih,
        h.assoc]

theorem leftToRight_identity {xs : List T} (hxs : ∀ x ∈ xs, x = identity) :
    leftToRight combine identity xs = identity := by
  induction xs with
  | nil => rfl
  | cons x xs ih =>
      rw [leftToRight_cons h, hxs x List.mem_cons_self,
        ih (fun y hy => hxs y (List.mem_cons_of_mem _ hy)), h.id_left]

end LeftToRight

/-- The integers from `low` to `high`, both included. -/
def span (low high : Int) : List Int := Int.range low (high + 1)

theorem mem_span {low high i : Int} :
    i ∈ span low high ↔ low ≤ i ∧ i ≤ high := by
  rw [span, Int.mem_range_iff]
  omega

@[simp] theorem span_self (i : Int) : span i i = [i] := by
  have h : (i + 1 - i).toNat = 1 := by omega
  rw [span, Int.range, h]
  simp

theorem pairwise_span {low high : Int} :
    (span low high).Pairwise (· < ·) := by
  rw [span, Int.range, List.pairwise_map]
  refine List.pairwise_lt_range.imp ?_
  intro a b hab
  omega

/-- An interval cut in two, either part of which may be empty. -/
theorem span_append {low mid high : Int} (hlow : low ≤ mid + 1)
    (hhigh : mid ≤ high) :
    span low high = span low mid ++ span (mid + 1) high := by
  have hlen : (high + 1 - low).toNat =
      (mid + 1 - low).toNat + (high + 1 - (mid + 1)).toNat := by omega
  rw [span, span, span, Int.range, Int.range, Int.range, hlen,
    List.range_add, List.map_append, List.map_map]
  refine congrArg (List.map _ _ ++ ·) (List.map_congr_left ?_)
  intro r _
  show low + ((mid + 1 - low).toNat + r : Nat) = mid + 1 + (r : Int)
  omega

/-- The part of an interval that lies in one inside it. -/
theorem filter_span {low high left right : Int} (hl : low ≤ left)
    (hlr : left ≤ right + 1) (hr : right ≤ high) :
    (span low high).filter (fun i => left ≤ i ∧ i ≤ right) =
      span left right := by
  have hleft : low ≤ left - 1 + 1 := by omega
  rw [span_append hleft (by omega : left - 1 ≤ high), Int.sub_add_cancel,
    span_append hlr hr, List.filter_append, List.filter_append]
  rw [List.filter_eq_nil_iff.2, List.filter_eq_self.2,
    List.filter_eq_nil_iff.2, List.nil_append, List.append_nil]
  · intro i hi
    have := mem_span.1 hi
    simp only [decide_eq_true_eq]
    omega
  · intro i hi
    have := mem_span.1 hi
    simp only [decide_eq_true_eq]
    omega
  · intro i hi
    have := mem_span.1 hi
    simp only [decide_eq_true_eq]
    omega

/-- What a loop that keeps the larger of two values ends with. -/
theorem foldl_max_isGreatest {α β : Type*} [LinearOrder β] (f : α → β)
    (l : List α) (m : β) :
    IsGreatest {x | x = m ∨ ∃ a ∈ l, x = f a}
      (l.foldl (fun m a => max m (f a)) m) := by
  induction l generalizing m with
  | nil => exact ⟨.inl rfl, by simp [upperBounds]⟩
  | cons a l ih =>
      obtain ⟨hmem, hmost⟩ := ih (max m (f a))
      rw [List.foldl_cons]
      constructor
      · rcases hmem with heq | ⟨b, hb, heq⟩
        · rw [heq]
          rcases max_choice m (f a) with hm | ha
          · exact .inl hm
          · exact .inr ⟨a, List.mem_cons_self, ha⟩
        · exact .inr ⟨b, List.mem_cons_of_mem a hb, heq⟩
      · intro x hx
        have hfirst := hmost (.inl rfl)
        rcases hx with heq | ⟨b, hb, heq⟩
        · rw [heq]
          exact (le_max_left m (f a)).trans hfirst
        · rcases List.mem_cons.1 hb with hba | hb
          · rw [heq, hba]
            exact (le_max_right m (f a)).trans hfirst
          · exact hmost (.inr ⟨b, hb, heq⟩)

end LearningCpp.Lib
