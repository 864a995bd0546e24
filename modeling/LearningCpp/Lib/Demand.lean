import Mathlib.Algebra.BigOperators.Group.List.Basic
import Mathlib.Algebra.Order.Group.Defs
import Mathlib.Algebra.Order.BigOperators.Group.List
import Mathlib.Tactic

/-!
# A demand served from a row of offers

Offers stand one behind the other, each with an amount, and a demand is served
from them front to back: an offer that is smaller is taken whole, the one that
is not gives what is still wanted, and those behind it are not reached.

Everything said here about a demand follows from what it leaves. What it took
of the offers of one kind is what these offers were less what they are now, and
serving a sum leaves what serving its two parts in turn leaves.
-/

namespace LearningCpp.Lib

variable {α M : Type*}

/-- What a demand took, in order, what of it is left, `none` if it was met, and
the offers that are left. -/
structure Served (α M : Type*) where
  taken : List (α × M)
  unmet : Option M
  kept : List (α × M)

/-- The amount offers of one kind have together. -/
def amountOf [AddCommGroup M] (p : α → Bool) (offers : List (α × M)) : M :=
  ((offers.filter (fun x => p x.1)).map Prod.snd).sum

section Amounts

variable [AddCommGroup M] {p : α → Bool}

@[simp] theorem amountOf_nil : amountOf (M := M) p [] = 0 := rfl

theorem amountOf_cons (x : α × M) (offers : List (α × M)) :
    amountOf p (x :: offers) = amountOf p [x] + amountOf p offers := by
  unfold amountOf
  by_cases hx : p x.1 = true <;> simp [hx]

theorem amountOf_add (a : α) (m n : M) :
    amountOf p [(a, m)] + amountOf p [(a, n)] = amountOf p [(a, m + n)] := by
  unfold amountOf
  by_cases ha : p a = true <;> simp [ha]

/-- All offers are of the kind that leaves none out. -/
theorem amountOf_all (offers : List (α × M)) :
    amountOf (fun _ => true) offers = (offers.map Prod.snd).sum := by
  simp only [amountOf, List.filter_true]

end Amounts

variable [AddCommGroup M] [LinearOrder M]

def serve : M → List (α × M) → Served α M
  | d, [] => ⟨[], some d, []⟩
  | d, (a, m) :: offers =>
      if d < m then ⟨[(a, d)], none, (a, m - d) :: offers⟩
      else if d = m then ⟨[(a, d)], none, offers⟩
      else
        let s := serve (d - m) offers
        ⟨(a, m) :: s.taken, s.unmet, s.kept⟩

@[simp] theorem serve_nil (d : M) :
    serve d ([] : List (α × M)) = ⟨[], some d, []⟩ := rfl

section Serve

variable {a : α} {d e m : M} {offers : List (α × M)}

theorem serve_of_lt (h : d < m) :
    serve d ((a, m) :: offers) = ⟨[(a, d)], none, (a, m - d) :: offers⟩ := by
  rw [serve, if_pos h]

theorem serve_of_eq : serve m ((a, m) :: offers) = ⟨[(a, m)], none, offers⟩ := by
  rw [serve, if_neg (lt_irrefl m), if_pos rfl]

theorem serve_of_gt (h : m < d) :
    serve d ((a, m) :: offers) =
      ⟨(a, m) :: (serve (d - m) offers).taken, (serve (d - m) offers).unmet,
        (serve (d - m) offers).kept⟩ := by
  rw [serve, if_neg (not_lt_of_gt h), if_neg h.ne']

/-- Who offers makes no difference to what is taken of it. -/
theorem serve_map {β : Type*} (f : α → β) (d : M) (offers : List (α × M)) :
    serve d (offers.map (Prod.map f id)) =
      ⟨(serve d offers).taken.map (Prod.map f id), (serve d offers).unmet,
        (serve d offers).kept.map (Prod.map f id)⟩ := by
  induction offers generalizing d with
  | nil => rfl
  | cons x offers ih =>
      obtain ⟨a, m⟩ := x
      rw [List.map_cons, Prod.map_apply, id]
      rcases lt_trichotomy d m with hlt | rfl | hgt
      · rw [serve_of_lt hlt, serve_of_lt hlt]
        rfl
      · rw [serve_of_eq, serve_of_eq]
        rfl
      · rw [serve_of_gt hgt, serve_of_gt hgt, ih]
        rfl

/-- The offers that are kept are some of those there were, in their order. -/
theorem kept_sublist (d : M) (offers : List (α × M)) :
    ((serve d offers).kept.map Prod.fst).Sublist (offers.map Prod.fst) := by
  induction offers generalizing d with
  | nil => exact List.Sublist.refl _
  | cons x offers ih =>
      obtain ⟨a, m⟩ := x
      rcases lt_trichotomy d m with hlt | rfl | hgt
      · rw [serve_of_lt hlt]
        exact List.Sublist.refl _
      · rw [serve_of_eq]
        exact List.sublist_cons_self _ _
      · rw [serve_of_gt hgt]
        exact (ih (d - m)).cons a

/-- What is taken and what is kept of the offers of one kind are these
offers. -/
theorem amountOf_serve (p : α → Bool) (d : M) (offers : List (α × M)) :
    amountOf p (serve d offers).taken + amountOf p (serve d offers).kept =
      amountOf p offers := by
  induction offers generalizing d with
  | nil => simp
  | cons x offers ih =>
      obtain ⟨a, m⟩ := x
      rcases lt_trichotomy d m with hlt | rfl | hgt
      · rw [serve_of_lt hlt, amountOf_cons (a, m - d) offers,
          amountOf_cons (a, m) offers, ← add_assoc, amountOf_add,
          add_sub_cancel]
      · rw [serve_of_eq, amountOf_cons (a, d) offers]
      · rw [serve_of_gt hgt, amountOf_cons (a, m) offers,
          amountOf_cons (a, m) (serve (d - m) offers).taken, add_assoc, ih]

/-- What is taken and what is unmet are the demand. -/
theorem sum_serve (d : M) (offers : List (α × M)) :
    ((serve d offers).taken.map Prod.snd).sum +
      (serve d offers).unmet.getD 0 = d := by
  induction offers generalizing d with
  | nil => simp
  | cons x offers ih =>
      obtain ⟨a, m⟩ := x
      rcases lt_trichotomy d m with hlt | rfl | hgt
      · rw [serve_of_lt hlt]
        simp
      · rw [serve_of_eq]
        simp
      · rw [serve_of_gt hgt, List.map_cons, List.sum_cons, add_assoc, ih,
          add_sub_cancel]

/-- What is unmet, by what is kept. -/
theorem unmet_serve (d : M) (offers : List (α × M)) :
    (serve d offers).unmet.getD 0 = d + amountOf (fun _ => true)
      (serve d offers).kept - amountOf (fun _ => true) offers := by
  have hsum := sum_serve d offers
  rw [← amountOf_all] at hsum
  rw [← amountOf_serve (fun _ => true) d offers]
  nth_rewrite 2 [← hsum]
  abel

variable [IsOrderedAddMonoid M]

/-- A sum leaves what its two parts in turn leave. -/
theorem kept_serve_add (he : 0 < e) (d : M) (offers : List (α × M)) :
    (serve (d + e) offers).kept =
      (serve e (serve d offers).kept).kept := by
  induction offers generalizing d with
  | nil => rfl
  | cons x offers ih =>
      obtain ⟨a, m⟩ := x
      rcases lt_trichotomy d m with hlt | rfl | hgt
      · -- The offer that met the first part goes on with the second.
        rw [serve_of_lt hlt]
        rcases lt_trichotomy e (m - d) with h | rfl | h
        · rw [serve_of_lt h, serve_of_lt (lt_sub_iff_add_lt'.1 h), sub_sub]
        · rw [serve_of_eq, add_sub_cancel, serve_of_eq]
        · rw [serve_of_gt h, serve_of_gt (sub_lt_iff_lt_add'.1 h),
            show d + e - m = e - (m - d) by abel]
      · rw [serve_of_eq, serve_of_gt (lt_add_of_pos_right d he), add_sub_cancel_left]
      · rw [serve_of_gt hgt, serve_of_gt (hgt.trans (lt_add_of_pos_right d he)),
          add_sub_right_comm, ih]

/-- So it takes of every kind of offer what the two parts take together. -/
theorem amountOf_taken_add (p : α → Bool) (he : 0 < e) (d : M)
    (offers : List (α × M)) :
    amountOf p (serve (d + e) offers).taken =
      amountOf p (serve d offers).taken +
        amountOf p (serve e (serve d offers).kept).taken := by
  have hsum := amountOf_serve p (d + e) offers
  have hfst := amountOf_serve p d offers
  have hsnd := amountOf_serve p e (serve d offers).kept
  rw [kept_serve_add he] at hsum
  rw [← hfst, ← hsnd, ← add_assoc] at hsum
  exact add_right_cancel hsum

/-- And what of it is unmet is what of the two is. -/
theorem unmet_serve_add (he : 0 < e) (d : M) (offers : List (α × M)) :
    (serve (d + e) offers).unmet.getD 0 =
      (serve d offers).unmet.getD 0 +
        (serve e (serve d offers).kept).unmet.getD 0 := by
  rw [unmet_serve, unmet_serve, unmet_serve, kept_serve_add he]
  abel

end Serve

end LearningCpp.Lib
