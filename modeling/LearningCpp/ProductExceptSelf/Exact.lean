import LearningCpp.Lib.Checked
import LearningCpp.Lib.Loop

/-!
# Products of all numbers but one

`leetcode/medium/238.cpp`, in two passes over one array: the first leaves at
each position the product of the numbers before it, the second multiplies it by
the product of those behind.

Every signed result is checked. The second pass multiplies the first number in
as well, after the last entry is written, so a call is undefined already when
the product of all numbers does not fit into an `int`, which no entry of the
answer is. Without any numbers `out[0]` is not there. Positions are taken to fit
into the `int` that counts them.
-/

namespace LearningCpp.ProductExceptSelf

open LearningCpp.Lib

/-! ## The code -/

/-- The body of the first loop. -/
def prefixTurn (nums out : List Int) (i : ℕ) : Option (List Int) := do
  let x ← nums[i]?
  let y ← out[i]?
  let product ← signed 32 (x * y)
  return out.set (i + 1) product

/-- The body of the second loop, with `out` and `n`. -/
def suffixTurn (nums : List Int) (s : List Int × Int) (i : ℕ) :
    Option (List Int × Int) := do
  let y ← s.1[i]?
  let product ← signed 32 (s.2 * y)
  let x ← nums[i]?
  let n ← signed 32 (s.2 * x)
  return (s.1.set i product, n)

def productExceptSelf (nums : List Int) : Option (List Int) := do
  if nums = [] then none
  let out ← (List.range (nums.length - 1)).foldlM (prefixTurn nums)
    (List.replicate nums.length 1)
  let (out, _) ← (List.range nums.length).reverse.foldlM (suffixTurn nums)
    (out, 1)
  return out

/-! ## The arrays -/

/-- An array by its entries. -/
def tabulate (n : ℕ) (f : ℕ → Int) : List Int := (List.range n).map f

theorem tabulate_get {n k : ℕ} (hk : k < n) (f : ℕ → Int) :
    (tabulate n f)[k]? = some (f k) := by
  simp [tabulate, hk]

theorem tabulate_set (n k : ℕ) (f : ℕ → Int) (x : Int) :
    (tabulate n f).set k x = tabulate n (Function.update f k x) := by
  refine List.ext_getElem (by simp [tabulate]) ?_
  intro i hi _
  rw [List.getElem_set]
  by_cases hik : i = k
  · simp [tabulate, hik]
  · simp [tabulate, hik, Ne.symm hik]

theorem tabulate_congr {n : ℕ} {f g : ℕ → Int} (h : ∀ k < n, f k = g k) :
    tabulate n f = tabulate n g :=
  List.map_congr_left (fun k hk => h k (List.mem_range.1 hk))

variable (nums : List Int)

/-- The product of the numbers before a position. -/
def before (k : ℕ) : Int := (nums.take k).prod

/-- The product of the numbers from a position on. -/
def onward (k : ℕ) : Int := (nums.drop k).prod

variable {nums}

theorem before_succ {k : ℕ} {x : Int} (hx : nums[k]? = some x) :
    before nums (k + 1) = x * before nums k := by
  rw [before, List.take_add_one, hx, List.prod_append, mul_comm]
  simp [before]

theorem onward_eq {k : ℕ} {x : Int} (hx : nums[k]? = some x) :
    onward nums k = onward nums (k + 1) * x := by
  obtain ⟨hk, rfl⟩ := List.getElem?_eq_some_iff.1 hx
  rw [onward, List.drop_eq_getElem_cons hk, List.prod_cons, mul_comm]
  rfl

/-! ## The first loop -/

/-- The array after some turns of the first loop. -/
def prefixes (nums : List Int) (k : ℕ) : List Int :=
  tabulate nums.length (fun j => if j ≤ k then before nums j else 1)

theorem prefixTurn_eq {k : ℕ} (hk : k < nums.length - 1) :
    prefixTurn nums (prefixes nums k) k =
      (signed 32 (before nums (k + 1))).map (fun _ => prefixes nums (k + 1)) := by
  have hlt : k < nums.length := by omega
  obtain ⟨x, hx⟩ : ∃ x, nums[k]? = some x := ⟨_, List.getElem?_eq_getElem hlt⟩
  rw [prefixTurn, prefixes, tabulate_get hlt, hx, if_pos le_rfl,
    before_succ hx]
  simp only [Option.bind_eq_bind, Option.bind_some]
  by_cases hfit : Fits 32 (x * before nums k)
  · rw [signed_of_fits hfit, Option.bind_some, Option.map_some, Option.pure_def,
      tabulate_set, ← before_succ hx]
    refine congrArg some (tabulate_congr (fun j _ => ?_))
    by_cases hj : j = k + 1
    · rw [hj, Function.update_self, if_pos le_rfl]
    · rw [Function.update_of_ne hj]
      by_cases hjk : j ≤ k
      · rw [if_pos hjk, if_pos (by omega)]
      · rw [if_neg hjk, if_neg (by omega)]
  · rw [signed, if_neg hfit]
    rfl

theorem prefixes_eq_some_iff {out : List Int} :
    (List.range (nums.length - 1)).foldlM (prefixTurn nums)
        (List.replicate nums.length 1) = some out ↔
      (∀ k < nums.length - 1, Fits 32 (before nums (k + 1))) ∧
        out = tabulate nums.length (before nums) := by
  have hfirst : List.replicate nums.length 1 = prefixes nums 0 := by
    refine (List.eq_replicate_iff.2 ⟨by simp [prefixes, tabulate], ?_⟩).symm
    intro x hx
    obtain ⟨j, _, rfl⟩ := List.mem_map.1 hx
    by_cases hj : j ≤ 0
    · rw [if_pos hj, Nat.le_zero.1 hj]
      rfl
    · rw [if_neg hj]
  have hlast : prefixes nums (nums.length - 1) =
      tabulate nums.length (before nums) :=
    tabulate_congr (fun k hk => if_pos (by omega))
  rw [hfirst, ← hlast]
  refine foldlM_range_exact ?_ ?_
  · intro k hk hfit
    rw [prefixTurn_eq hk, signed_of_fits hfit]
    rfl
  · intro k hk hfit
    rw [prefixTurn_eq hk, signed, if_neg hfit]
    rfl

/-! ## The second loop -/

/-- The array and `n` after the second loop has come down to a position. -/
def products (nums : List Int) (k : ℕ) : List Int × Int :=
  (tabulate nums.length (fun j =>
    if k ≤ j then onward nums (j + 1) * before nums j else before nums j),
    onward nums k)

theorem suffixTurn_eq {k : ℕ} (hk : k < nums.length) :
    suffixTurn nums (products nums (k + 1)) k =
      if Fits 32 (onward nums (k + 1) * before nums k) ∧
          Fits 32 (onward nums k) then some (products nums k)
      else none := by
  obtain ⟨x, hx⟩ : ∃ x, nums[k]? = some x := ⟨_, List.getElem?_eq_getElem hk⟩
  rw [suffixTurn, products, tabulate_get hk, if_neg (by omega), hx]
  simp only [Option.bind_eq_bind, Option.bind_some]
  rw [← onward_eq hx]
  by_cases hfit : Fits 32 (onward nums (k + 1) * before nums k)
  · rw [signed_of_fits hfit, Option.bind_some]
    by_cases hall : Fits 32 (onward nums k)
    · rw [signed_of_fits hall, Option.bind_some, if_pos ⟨hfit, hall⟩,
        Option.pure_def, products, tabulate_set]
      refine congrArg (fun out => some (out, onward nums k))
        (tabulate_congr (fun j _ => ?_))
      by_cases hj : j = k
      · rw [hj, Function.update_self, if_pos le_rfl]
      · rw [Function.update_of_ne hj]
        by_cases hjk : k ≤ j
        · rw [if_pos hjk, if_pos (by omega)]
        · rw [if_neg hjk, if_neg (by omega)]
    · rw [signed, if_neg hall, if_neg (fun h => hall h.2)]
      rfl
  · rw [signed, if_neg hfit, if_neg (fun h => hfit h.1)]
    rfl

theorem products_eq_some_iff {s : List Int × Int} :
    (List.range nums.length).reverse.foldlM (suffixTurn nums)
        (tabulate nums.length (before nums), 1) = some s ↔
      (∀ k < nums.length, Fits 32 (onward nums (k + 1) * before nums k) ∧
          Fits 32 (onward nums k)) ∧ s = products nums 0 := by
  have hfirst : (tabulate nums.length (before nums), 1) =
      products nums nums.length := by
    refine Prod.ext (tabulate_congr (fun k hk => ?_)) ?_
    · rw [if_neg (by omega)]
    · rw [products, onward, List.drop_length, List.prod_nil]
  rw [hfirst]
  refine foldlM_range_reverse_exact ?_ ?_
  · intro k hk hfit
    rw [suffixTurn_eq hk, if_pos hfit]
  · intro k hk hfit
    rw [suffixTurn_eq hk, if_neg hfit]

/-! ## The call -/

/-- What the numbers have to be for the call to be defined. -/
structure Defined (nums : List Int) : Prop where
  nonempty : nums ≠ []
  before : ∀ k < nums.length, Fits 32 (nums.take k).prod
  onward : ∀ k < nums.length, Fits 32 (nums.drop k).prod
  except : ∀ k < nums.length, Fits 32 (nums.eraseIdx k).prod

theorem except_eq (k : ℕ) :
    onward nums (k + 1) * before nums k = (nums.eraseIdx k).prod := by
  rw [List.eraseIdx_eq_take_drop_succ, List.prod_append, mul_comm]
  rfl

/-- **The call is defined if and only if** there are numbers and the products
before, from and all around every position fit into an `int`, and then each
entry of the answer is the product of all numbers but the one at its
position. -/
theorem productExceptSelf_eq_some_iff (nums r : List Int) :
    productExceptSelf nums = some r ↔
      Defined nums ∧
        r = (List.range nums.length).map (fun k => (nums.eraseIdx k).prod) := by
  by_cases hnil : nums = []
  · refine iff_of_false ?_ (fun h => h.1.nonempty hnil)
    rw [productExceptSelf, if_pos hnil]
    exact fun h => by cases h
  · have hlength : 0 < nums.length := List.length_pos_of_ne_nil hnil
    have hanswer : (products nums 0).1 =
        (List.range nums.length).map (fun k => (nums.eraseIdx k).prod) :=
      tabulate_congr (fun k _ => by rw [if_pos (Nat.zero_le k), except_eq])
    simp only [productExceptSelf, if_neg hnil, Option.bind_eq_bind,
      Option.pure_def, Option.bind_eq_some_iff, prefixes_eq_some_iff]
    constructor
    · rintro ⟨out, ⟨hbefore, rfl⟩, s, hs, hr⟩
      obtain ⟨hall, rfl⟩ := products_eq_some_iff.1 hs
      refine ⟨⟨hnil, fun k hk => ?_, fun k hk => (hall k hk).2, fun k hk => ?_⟩,
        (Option.some.inj hr).symm.trans hanswer⟩
      · cases k with
        | zero => simp [fits_int]
        | succ k => exact hbefore k (by omega)
      · rw [← except_eq]
        exact (hall k hk).1
    · rintro ⟨h, rfl⟩
      refine ⟨_, ⟨fun k hk => h.before (k + 1) (by omega), rfl⟩, _,
        products_eq_some_iff.2 ⟨fun k hk => ⟨?_, h.onward k hk⟩, rfl⟩,
        congrArg some hanswer⟩
      rw [except_eq]
      exact h.except k hk

/-- The entries fit, and the product of all numbers does not. -/
example : productExceptSelf [65536, 65536] = none := by decide

end LearningCpp.ProductExceptSelf
