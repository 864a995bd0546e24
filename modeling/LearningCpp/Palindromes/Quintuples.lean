import LearningCpp.Lib.Checked
import LearningCpp.Lib.Loop
import LearningCpp.Lib.OrderedPairs

/-!
# Palindromic subsequences of five digits

`leetcode/hard/2484.cpp`. For each position `i` one pass counts, for any two
digits, the pairs of positions up to `i` that have them, and a second pass the
pairs from `i` on; a palindrome is a middle position, a pair before it and one
after it that has the same digits the other way round. Both passes are the same
loop over the positions in one order or the other, so `pre` and `suf` have the
pairs in the order the pass comes to them.

Every `int` and `long long` result is checked here. The entries of the tables
are not reduced, and there are at most `n * (n - 1) / 2` pairs. The positions
and digits that the loops count are at most the length of the string. For the
empty string `s.size() - 1` is the greatest `size_t`, and the last loop reads
`pre[0]`, which is not there.
-/

namespace LearningCpp.Palindromes

open LearningCpp.Lib

/-! ## The code -/

/-- Ten by ten `int`s. -/
abbrev Row := ℕ → ℕ → Int

/-- `s[i] - '0'`, an index of `digits`. -/
def digit (s : List Char) (i : ℕ) : Option ℕ :=
  match s[i]? with
  | none => none
  | some c => if c.isDigit then some (c.toNat - '0'.toNat) else none

/-- The two loops over the digits. -/
def forDigits {σ : Type} (body : σ → ℕ → ℕ → Option σ) (s : σ) : Option σ :=
  (List.range 10).foldlM
    (fun s j => (List.range 10).foldlM (fun s k => body s j k) s) s

/-- An entry of a row from the row of the position before. -/
def fillEntry (last : Row) (digits : ℕ → Int) (val : ℕ) (row : Row)
    (j k : ℕ) : Option Row := do
  let entry ←
    if val = k then signed 32 (last j k + digits j) else some (last j k)
  return fun j' k' => if j' = j ∧ k' = k then entry else row j' k'

/-- `pre` or `suf`, and `digits`. -/
structure Pass where
  table : ℕ → Row
  digits : ℕ → Int

/-- The row of a position, from that of the position the pass came from if it
is not the first. -/
def Pass.fillRow (p : Pass) (last? : Option ℕ) (val i : ℕ) : Option Row :=
  match last? with
  | none => some (p.table i)
  | some last => forDigits (fillEntry (p.table last) p.digits val) (p.table i)

/-- The body of the first two loops. -/
def Pass.turn (s : List Char) (last? : ℕ → Option ℕ) (p : Pass) (i : ℕ) :
    Option Pass := do
  let val ← digit s i
  let row ← p.fillRow (last? i) val i
  let count ← signed 32 (p.digits val + 1)
  return ⟨Function.update p.table i row, Function.update p.digits val count⟩

/-- A pass over the positions in some order. -/
def pass (s : List Char) (last? : ℕ → Option ℕ) (positions : List ℕ) :
    Option Pass :=
  positions.foldlM (Pass.turn s last?) ⟨fun _ _ _ => 0, fun _ => 0⟩

/-- The position to the left, if there is one. -/
def left? (i : ℕ) : Option ℕ := if i ≠ 0 then some (i - 1) else none

/-- The position to the right, if there is one. -/
def right? (n i : ℕ) : Option ℕ := if i ≠ n - 1 then some (i + 1) else none

/-- The first loop. -/
def prePass (s : List Char) : Option Pass :=
  pass s left? (List.range s.length)

/-- The second loop. -/
def sufPass (s : List Char) : Option Pass :=
  pass s (right? s.length) (List.range s.length).reverse

def mod : Int := 1000000007

/-- The body of the loops over the digits in the last loop. -/
def addEntry (before after : Row) (ret : Int) (j k : ℕ) : Option Int := do
  let product ← signed 64 (before j k * after j k)
  let v := product.tmod mod
  let sum ← signed 32 (ret + v)
  return sum.tmod mod

/-- `countPalindromes`. -/
def countPalindromes (s : List Char) : Option Int := do
  if s = [] then none
  let _ ← signed 32 s.length
  let pre ← prePass s
  let suf ← sufPass s
  (List.range' 1 (s.length - 2)).foldlM
    (fun ret i =>
      forDigits (addEntry (pre.table (i - 1)) (suf.table (i + 1))) ret) 0

/-! ## The loops over the digits -/

/-- The pairs of digits the loops go through. -/
def digitPairs : List (ℕ × ℕ) :=
  (List.range 10).flatMap (fun j => (List.range 10).map (fun k => (j, k)))

theorem mem_digitPairs {c : ℕ × ℕ} :
    c ∈ digitPairs ↔ c.1 < 10 ∧ c.2 < 10 := by
  obtain ⟨j, k⟩ := c
  simp [digitPairs]

theorem forDigits_eq {σ : Type} (body : σ → ℕ → ℕ → Option σ) (s : σ) :
    forDigits body s = digitPairs.foldlM (fun s c => body s c.1 c.2) s :=
  foldlM_product _ _ s

/-- One entry. -/
theorem fillEntry_eq {last row : Row} {digits : ℕ → Int} {val j k : ℕ}
    (hfits : val = k → Fits 32 (last j k + digits j)) :
    fillEntry last digits val row j k =
      some (fun j' k' => if j' = j ∧ k' = k then
        last j k + (if val = k then digits j else 0) else row j' k') := by
  unfold fillEntry
  by_cases hval : val = k
  · rw [if_pos hval, if_pos hval, signed_of_fits (hfits hval)]
    rfl
  · rw [if_neg hval, if_neg hval, Int.add_zero]
    rfl

/-- A row filled from the row before. -/
theorem forDigits_fill {last row : Row} {digits : ℕ → Int} {val : ℕ}
    (hfits : ∀ j k, j < 10 → k < 10 → val = k →
      Fits 32 (last j k + digits j)) :
    ∃ row', forDigits (fillEntry last digits val) row = some row' ∧
      ∀ j k, j < 10 → k < 10 →
        row' j k = last j k + if val = k then digits j else 0 := by
  rw [forDigits_eq]
  obtain ⟨row', hrun, hrow⟩ := foldlM_through
    (P := fun (before : List (ℕ × ℕ)) (row : Row) => ∀ c ∈ before,
      row c.1 c.2 = last c.1 c.2 + if val = c.2 then digits c.1 else 0)
    (f := fun row c => fillEntry last digits val row c.1 c.2) (s := row)
    digitPairs (fun _ h => absurd h List.not_mem_nil) (by
      intro before c after row heq hbefore
      have hc : c ∈ digitPairs := by
        rw [heq]
        exact List.mem_append_right _ List.mem_cons_self
      obtain ⟨hj, hk⟩ := mem_digitPairs.1 hc
      refine ⟨_, fillEntry_eq (hfits c.1 c.2 hj hk), ?_⟩
      intro d hd
      by_cases hsame : d.1 = c.1 ∧ d.2 = c.2
      · rw [if_pos hsame, hsame.1, hsame.2]
      · rw [if_neg hsame]
        rcases List.mem_append.1 hd with hd | hd
        · exact hbefore d hd
        · rw [List.mem_singleton.1 hd] at hsame
          exact absurd ⟨rfl, rfl⟩ hsame)
  exact ⟨row', hrun, fun j k hj hk => hrow (j, k) (mem_digitPairs.2 ⟨hj, hk⟩)⟩

/-- The sum over the digits. -/
theorem sum_digitPairs (f : ℕ → ℕ → Int) :
    (digitPairs.map (fun c => f c.1 c.2)).sum =
      ∑ j ∈ Finset.range 10, ∑ k ∈ Finset.range 10, f j k := by
  rw [digitPairs, List.map_flatMap, List.flatMap_def, List.sum_flatten,
    List.map_map]
  refine congrArg List.sum (List.map_congr_left ?_)
  intro j _
  rw [Function.comp_apply, List.map_map]
  rfl

theorem mod_pos : 0 < mod := by decide

/-- One product added. -/
theorem addEntry_eq {before after : Row} {ret : Int} {j k : ℕ}
    (hret : 0 ≤ ret ∧ ret < mod)
    (hbefore : 0 ≤ before j k ∧ before j k < 2 ^ 31)
    (hafter : 0 ≤ after j k ∧ after j k < 2 ^ 31) :
    addEntry before after ret j k =
      some ((ret + before j k * after j k) % mod) := by
  have hproduct : 0 ≤ before j k * after j k :=
    Int.mul_nonneg hbefore.1 hafter.1
  have hlong : Fits 64 (before j k * after j k) := by
    have hle : before j k * after j k ≤ (2 ^ 31 : Int) * 2 ^ 31 :=
      Int.mul_le_mul hbefore.2.le hafter.2.le hafter.1 (by decide)
    constructor
    · omega
    · exact lt_of_le_of_lt hle (by decide)
  have hsmall := Int.emod_nonneg (before j k * after j k) mod_pos.ne'
  have hlarge := Int.emod_lt_of_pos (before j k * after j k) mod_pos
  have hsum : Fits 32 (ret + before j k * after j k % mod) := by
    unfold mod at *
    constructor
    · omega
    · omega
  unfold addEntry
  rw [signed_of_fits hlong, Option.bind_eq_bind, Option.bind_some,
    Int.tmod_eq_emod_of_nonneg hproduct]
  show (signed 32 (ret + before j k * after j k % mod)).bind _ = _
  rw [signed_of_fits hsum, Option.bind_some]
  show some (Int.tmod _ _) = _
  rw [Int.tmod_eq_emod_of_nonneg (by omega), Int.add_emod_emod]

/-- The products added up. -/
theorem forDigits_add {before after : Row} {ret : Int}
    (hret : 0 ≤ ret ∧ ret < mod)
    (hbefore : ∀ j k, j < 10 → k < 10 → 0 ≤ before j k ∧ before j k < 2 ^ 31)
    (hafter : ∀ j k, j < 10 → k < 10 → 0 ≤ after j k ∧ after j k < 2 ^ 31) :
    forDigits (addEntry before after) ret =
      some ((ret + ∑ j ∈ Finset.range 10, ∑ k ∈ Finset.range 10,
        before j k * after j k) % mod) := by
  rw [forDigits_eq, ← sum_digitPairs]
  obtain ⟨ret', hrun, heq⟩ := foldlM_through
    (P := fun (through : List (ℕ × ℕ)) ret' => ret' =
      (ret + (through.map (fun c => before c.1 c.2 * after c.1 c.2)).sum) % mod)
    (f := fun ret c => addEntry before after ret c.1 c.2) (s := ret)
    digitPairs (by
      rw [List.map_nil, List.sum_nil, Int.add_zero]
      exact (Int.emod_eq_of_lt hret.1 hret.2).symm) (by
      intro through c rest ret' heq hret'
      have hc : c ∈ digitPairs := by
        rw [heq]
        exact List.mem_append_right _ List.mem_cons_self
      obtain ⟨hj, hk⟩ := mem_digitPairs.1 hc
      have hmod : 0 ≤ ret' ∧ ret' < mod := by
        rw [hret']
        exact ⟨Int.emod_nonneg _ mod_pos.ne', Int.emod_lt_of_pos _ mod_pos⟩
      refine ⟨_, addEntry_eq hmod (hbefore c.1 c.2 hj hk)
        (hafter c.1 c.2 hj hk), ?_⟩
      rw [hret', List.map_append, List.sum_append, List.map_singleton,
        List.sum_singleton, ← Int.add_assoc, Int.emod_add_emod])
  rw [hrun, heq]

/-! ## The passes -/

/-- The value of a digit of the string. -/
def letter (s : List Char) (i : ℕ) : ℕ := (digit s i).getD 0

/-- The string has digits only, and few enough pairs of positions. -/
structure Digits (s : List Char) : Prop where
  isDigit : ∀ c ∈ s, c.isDigit
  pairs : s.length * (s.length - 1) / 2 < 2 ^ 31

variable {s : List Char}

theorem digit_of_getElem {i : ℕ} (hi : i < s.length) (h : Digits s) :
    digit s i = some (s[i].toNat - '0'.toNat) := by
  unfold digit
  rw [List.getElem?_eq_getElem hi]
  exact if_pos (h.isDigit _ (List.getElem_mem hi))

theorem digit_eq {i : ℕ} (hi : i < s.length) (h : Digits s) :
    digit s i = some (letter s i) := by
  rw [letter, digit_of_getElem hi h]
  rfl

theorem toNat_of_isDigit {c : Char} (h : c.isDigit) :
    '0'.toNat ≤ c.toNat ∧ c.toNat ≤ '9'.toNat := by
  simp only [Char.isDigit, ge_iff_le, Bool.and_eq_true, decide_eq_true_eq] at h
  exact h

theorem letter_lt {i : ℕ} (hi : i < s.length) (h : Digits s) :
    letter s i < 10 := by
  have hbounds := toNat_of_isDigit (h.isDigit _ (List.getElem_mem hi))
  rw [letter, digit_of_getElem hi h, Option.getD_some]
  have hnine : '9'.toNat = '0'.toNat + 9 := rfl
  omega

/-- Digits are equal when their values are. -/
theorem letter_eq_iff {i i' : ℕ} (hi : i < s.length) (hi' : i' < s.length)
    (h : Digits s) : letter s i = letter s i' ↔ s[i]? = s[i']? := by
  have hbounds := toNat_of_isDigit (h.isDigit _ (List.getElem_mem hi))
  have hbounds' := toNat_of_isDigit (h.isDigit _ (List.getElem_mem hi'))
  rw [letter, letter, digit_of_getElem hi h, digit_of_getElem hi' h,
    Option.getD_some, Option.getD_some, List.getElem?_eq_getElem hi,
    List.getElem?_eq_getElem hi', Option.some_inj]
  constructor
  · intro heq
    refine Char.toNat_inj.1 ?_
    omega
  · intro heq
    rw [heq]

/-- The length of such a string. -/
theorem Digits.length_lt (h : Digits s) : s.length < 2 ^ 17 := by
  by_contra hlong
  have hpairs := h.pairs
  have hle : 2 ^ 17 * (2 ^ 17 - 1) ≤ s.length * (s.length - 1) :=
    Nat.mul_le_mul (by omega) (by omega)
  omega

variable {r : ℕ → ℕ → Prop} [DecidableRel r]

/-- No entry of the tables overflows. -/
theorem card_pairSet_lt (h : Digits s) (hasymm : ∀ a b, r a b → ¬ r b a)
    {seen : Finset ℕ} (hseen : seen ⊆ Finset.range s.length) (j k : ℕ) :
    (pairSet r (letter s) seen j k).card < 2 ^ 31 := by
  have hle : 2 * (pairSet r (letter s) seen j k).card ≤ _ :=
    two_mul_card_pairSet_le hasymm hseen
  have hpairs := h.pairs
  rw [Finset.card_range, ← Nat.mul_sub_one] at hle
  omega

theorem letterCount_le {seen : Finset ℕ}
    (hseen : seen ⊆ Finset.range s.length) (j : ℕ) :
    letterCount (letter s) seen j ≤ s.length := by
  refine (Finset.card_le_card (Finset.filter_subset _ _)).trans ?_
  exact (Finset.card_le_card hseen).trans (Finset.card_range _).le

section Turn

variable {p : Pass} {seen : Finset ℕ} {i : ℕ}

/-- What is known of a pass that has been through some positions and comes to
`i`, all in the order `r`. -/
structure Comes (s : List Char) (r : ℕ → ℕ → Prop) [DecidableRel r] (p : Pass)
    (seen : Finset ℕ) (last? : Option ℕ) (i : ℕ) : Prop where
  inside : i < s.length ∧ seen ⊆ Finset.range s.length
  after : ∀ a ∈ seen, r a i
  digits : ∀ j, p.digits j = letterCount (letter s) seen j
  first : last? = none → seen = ∅ ∧ p.table i = fun _ _ => 0
  last : ∀ last, last? = some last → ∀ j k, j < 10 → k < 10 →
    p.table last j k = (pairSet r (letter s) seen j k).card

variable {last? : Option ℕ}

theorem Comes.insert_subset (hp : Comes s r p seen last? i) :
    insert i seen ⊆ Finset.range s.length :=
  Finset.insert_subset (Finset.mem_range.2 hp.inside.1) hp.inside.2

/-- The row has the pairs up to the position. -/
theorem Comes.fillRow (hp : Comes s r p seen last? i) (h : Digits s)
    (hasymm : ∀ a b, r a b → ¬ r b a) :
    ∃ row, p.fillRow last? (letter s i) i = some row ∧
      ∀ j k, j < 10 → k < 10 →
        row j k = (pairSet r (letter s) (insert i seen) j k).card := by
  have hstep (j k : ℕ) :
      (pairSet r (letter s) (insert i seen) j k).card = _ :=
    card_pairSet_insert
      (fun a ha => ⟨hp.after a ha, hasymm a i (hp.after a ha)⟩)
      (fun hi => hasymm i i hi hi)
  cases last? with
  | none =>
      obtain ⟨hempty, hzero⟩ := hp.first rfl
      refine ⟨p.table i, rfl, ?_⟩
      intro j k _ _
      rw [hstep, hzero, hempty]
      simp [letterCount]
  | some last =>
      have hlast := hp.last last rfl
      have hfits : ∀ j k, j < 10 → k < 10 → letter s i = k →
          Fits 32 (p.table last j k + p.digits j) := by
        intro j k hj hk hval
        have hlt := card_pairSet_lt h hasymm hp.insert_subset j k
        rw [hstep, if_pos hval] at hlt
        rw [hlast j k hj hk, hp.digits]
        constructor
        · omega
        · omega
      obtain ⟨row, hfill, hrow⟩ := forDigits_fill hfits
      refine ⟨row, hfill, ?_⟩
      intro j k hj hk
      rw [hrow j k hj hk, hlast j k hj hk, hp.digits, hstep]
      push_cast
      rfl

/-- One turn of a pass. -/
theorem Comes.turn (last? : ℕ → Option ℕ)
    (hp : Comes s r p seen (last? i) i) (h : Digits s)
    (hasymm : ∀ a b, r a b → ¬ r b a) :
    ∃ p', p.turn s last? i = some p' ∧
      (∀ j, p'.digits j = letterCount (letter s) (insert i seen) j) ∧
      (∀ j k, j < 10 → k < 10 → p'.table i j k =
        (pairSet r (letter s) (insert i seen) j k).card) ∧
      ∀ i' ≠ i, p'.table i' = p.table i' := by
  have hnew : i ∉ seen :=
    fun hmem => hasymm i i (hp.after i hmem) (hp.after i hmem)
  have hcount : Fits 32 (p.digits (letter s i) + 1) := by
    have hle := letterCount_le hp.inside.2 (letter s i)
    have hlength := h.length_lt
    rw [hp.digits]
    constructor
    · omega
    · omega
  obtain ⟨row, hfill, hrow⟩ := hp.fillRow h hasymm
  refine ⟨⟨Function.update p.table i row, Function.update p.digits (letter s i)
    (p.digits (letter s i) + 1)⟩, ?_, ?_, ?_, ?_⟩
  · unfold Pass.turn
    rw [digit_eq hp.inside.1 h, Option.bind_eq_bind, Option.bind_some, hfill]
    show (signed 32 (p.digits (letter s i) + 1)).bind _ = _
    rw [signed_of_fits hcount]
    rfl
  · intro j
    show Function.update p.digits (letter s i) _ j = _
    rw [letterCount_insert hnew]
    by_cases hj : j = letter s i
    · subst hj
      rw [if_pos rfl, Function.update_self, hp.digits]
      push_cast
      rfl
    · rw [if_neg (fun heq => hj heq.symm), Function.update_of_ne hj,
        Nat.add_zero]
      exact hp.digits j
  · intro j k hj hk
    show Function.update p.table i row i j k = _
    rw [Function.update_self]
    exact hrow j k hj hk
  · intro i' hne
    exact Function.update_of_ne hne _ _

end Turn

/-- The pairs of positions before `i`, in their order. -/
def pairsBefore (s : List Char) (i j k : ℕ) : ℕ :=
  (pairSet (· < ·) (letter s) (Finset.range i) j k).card

/-- The pairs of positions from `i` on, the later one first. -/
def pairsFrom (s : List Char) (i j k : ℕ) : ℕ :=
  (pairSet (· > ·) (letter s) (Finset.Ico i s.length) j k).card

theorem pairsBefore_lt (h : Digits s) {i : ℕ} (hi : i ≤ s.length) (j k : ℕ) :
    pairsBefore s i j k < 2 ^ 31 :=
  card_pairSet_lt h (fun _ _ => Nat.lt_asymm) (Finset.range_mono hi) j k

theorem pairsFrom_lt (h : Digits s) (i j k : ℕ) :
    pairsFrom s i j k < 2 ^ 31 := by
  refine card_pairSet_lt h (fun _ _ => Nat.lt_asymm) ?_ j k
  intro a ha
  exact Finset.mem_range.2 (Finset.mem_Ico.1 ha).2

theorem prePass_upto (h : Digits s) (m : ℕ) (hm : m ≤ s.length) :
    ∃ p, pass s left? (List.range m) = some p ∧
      (∀ j, p.digits j = letterCount (letter s) (Finset.range m) j) ∧
      (∀ i < m, ∀ j k, j < 10 → k < 10 →
        p.table i j k = pairsBefore s (i + 1) j k) ∧
      ∀ i, m ≤ i → p.table i = fun _ _ => 0 := by
  induction m with
  | zero =>
      exact ⟨_, rfl, fun j => by simp [letterCount],
        fun i hi => absurd hi (Nat.not_lt_zero i), fun _ _ => rfl⟩
  | succ m ih =>
      obtain ⟨p, hrun, hdigits, htable, hrest⟩ := ih (by omega)
      have hcomes : Comes s (· < ·) p (Finset.range m) (left? m) m := by
        refine ⟨⟨by omega, Finset.range_mono (by omega)⟩,
          fun a ha => Finset.mem_range.1 ha, hdigits, ?_, ?_⟩
        · intro hnone
          unfold left? at hnone
          split at hnone
          · cases hnone
          · next hzero =>
              rw [not_not.1 hzero]
              exact ⟨Finset.range_zero, hrest 0 (by omega)⟩
        · intro last hlast j k hj hk
          unfold left? at hlast
          split at hlast
          · next hpos =>
              cases hlast
              rw [htable (m - 1) (by omega) j k hj hk, pairsBefore,
                Nat.sub_add_cancel (by omega)]
          · cases hlast
      obtain ⟨p', hturn, hdigits', htable', hother⟩ :=
        Comes.turn left? hcomes h (fun _ _ => Nat.lt_asymm)
      rw [← Finset.range_add_one] at hdigits' htable'
      refine ⟨p', ?_, hdigits', ?_, ?_⟩
      · unfold pass at hrun ⊢
        rw [List.range_succ, List.foldlM_append, hrun, Option.bind_eq_bind,
          Option.bind_some, List.foldlM_cons, hturn]
        rfl
      · intro i hi j k hj hk
        by_cases heq : i = m
        · rw [heq]
          exact htable' j k hj hk
        · rw [hother i heq]
          exact htable i (by omega) j k hj hk
      · intro i hi
        rw [hother i (by omega)]
        exact hrest i (by omega)

theorem prePass_spec (h : Digits s) : ∃ p, prePass s = some p ∧
    ∀ i < s.length, ∀ j k, j < 10 → k < 10 →
      p.table i j k = pairsBefore s (i + 1) j k := by
  obtain ⟨p, hrun, _, htable, _⟩ := prePass_upto h s.length (le_refl _)
  exact ⟨p, hrun, htable⟩

theorem sufPass_upto (h : Digits s) (m : ℕ) (hm : m ≤ s.length) :
    ∃ p, pass s (right? s.length)
        (List.range' (s.length - m) m).reverse = some p ∧
      (∀ j, p.digits j =
        letterCount (letter s) (Finset.Ico (s.length - m) s.length) j) ∧
      (∀ i, s.length - m ≤ i → i < s.length → ∀ j k, j < 10 → k < 10 →
        p.table i j k = pairsFrom s i j k) ∧
      ∀ i < s.length - m, p.table i = fun _ _ => 0 := by
  induction m with
  | zero =>
      exact ⟨_, rfl, fun j => by simp [letterCount],
        fun i hlow hi => absurd hi (by omega), fun _ _ => rfl⟩
  | succ m ih =>
      obtain ⟨p, hrun, hdigits, htable, hrest⟩ := ih (by omega)
      obtain ⟨i, hi⟩ : ∃ i, s.length - m = i + 1 :=
        ⟨s.length - m - 1, by omega⟩
      have hnext : s.length - (m + 1) = i := by omega
      rw [hi] at hrun hdigits htable hrest
      rw [hnext]
      have hcomes : Comes s (· > ·) p (Finset.Ico (i + 1) s.length)
          (right? s.length i) i := by
        refine ⟨⟨by omega, ?_⟩, fun a ha => (Finset.mem_Ico.1 ha).1, hdigits,
          ?_, ?_⟩
        · intro a ha
          exact Finset.mem_range.2 (Finset.mem_Ico.1 ha).2
        · intro hnone
          unfold right? at hnone
          split at hnone
          · cases hnone
          · exact ⟨Finset.Ico_eq_empty (by omega), hrest i (by omega)⟩
        · intro last hlast j k hj hk
          unfold right? at hlast
          split at hlast
          · cases hlast
            exact htable (i + 1) (le_refl _) (by omega) j k hj hk
          · cases hlast
      obtain ⟨p', hturn, hdigits', htable', hother⟩ :=
        Comes.turn (right? s.length) hcomes h (fun _ _ => Nat.lt_asymm)
      rw [Finset.insert_Ico_add_one_left_eq_Ico (by omega)] at hdigits' htable'
      refine ⟨p', ?_, hdigits', ?_, ?_⟩
      · unfold pass at hrun ⊢
        rw [List.range'_succ, List.reverse_cons, List.foldlM_append, hrun,
          Option.bind_eq_bind, Option.bind_some, List.foldlM_cons, hturn]
        rfl
      · intro i' hlow hi' j k hj hk
        by_cases heq : i' = i
        · rw [heq]
          exact htable' j k hj hk
        · rw [hother i' heq]
          exact htable i' (by omega) hi' j k hj hk
      · intro i' hi'
        rw [hother i' (by omega)]
        exact hrest i' (by omega)

theorem sufPass_spec (h : Digits s) : ∃ p, sufPass s = some p ∧
    ∀ i < s.length, ∀ j k, j < 10 → k < 10 →
      p.table i j k = pairsFrom s i j k := by
  obtain ⟨p, hrun, _, htable, _⟩ := sufPass_upto h s.length (le_refl _)
  rw [Nat.sub_self, ← List.range_eq_range'] at hrun
  exact ⟨p, hrun, fun i hi => htable i (by omega) hi⟩

/-! ## The palindromes -/

/-- Five positions in order, with the digits of a palindrome. -/
def quintuples (s : List Char) : Finset (ℕ × ℕ × ℕ × ℕ × ℕ) :=
  let positions := Finset.range s.length
  (positions ×ˢ positions ×ˢ positions ×ˢ positions ×ˢ positions).filter
    (fun i => i.1 < i.2.1 ∧ i.2.1 < i.2.2.1 ∧ i.2.2.1 < i.2.2.2.1 ∧
      i.2.2.2.1 < i.2.2.2.2 ∧ s[i.1]? = s[i.2.2.2.2]? ∧
      s[i.2.1]? = s[i.2.2.2.1]?)

/-- How many of them have a middle position. -/
def withMiddle (s : List Char) (m : ℕ) : ℕ :=
  ∑ j ∈ Finset.range 10, ∑ k ∈ Finset.range 10,
    pairsBefore s m j k * pairsFrom s (m + 1) j k

theorem mem_quintuples {a b m c d : ℕ} : (a, b, m, c, d) ∈ quintuples s ↔
    (a < b ∧ b < m ∧ m < c ∧ c < d ∧ d < s.length) ∧
      s[a]? = s[d]? ∧ s[b]? = s[c]? := by
  simp only [quintuples, Finset.mem_filter, Finset.mem_product,
    Finset.mem_range]
  constructor
  · intro h
    exact ⟨by omega, h.2.2.2.2.2⟩
  · intro h
    exact ⟨by omega, by omega, by omega, by omega, by omega, h.2⟩

/-- A palindrome is its middle, a pair before it and a pair after it. -/
theorem card_quintuples (h : Digits s) :
    (quintuples s).card = ∑ m ∈ Finset.range s.length, withMiddle s m := by
  have hmaps : ∀ q ∈ quintuples s,
      (q.2.2.1, letter s q.1, letter s q.2.1) ∈
        Finset.range s.length ×ˢ Finset.range 10 ×ˢ Finset.range 10 := by
    intro q hq
    obtain ⟨a, b, m, c, d⟩ := q
    have hord := (mem_quintuples.1 hq).1
    simp only [Finset.mem_product, Finset.mem_range]
    exact ⟨by omega, letter_lt (by omega) h, letter_lt (by omega) h⟩
  rw [Finset.card_eq_sum_card_fiberwise hmaps, Finset.sum_product]
  refine Finset.sum_congr rfl ?_
  intro m _
  rw [Finset.sum_product]
  refine Finset.sum_congr rfl (fun j _ => Finset.sum_congr rfl (fun k _ => ?_))
  rw [pairsBefore, pairsFrom, ← Finset.card_product]
  refine Finset.card_nbij'
    (fun q => ((q.1, q.2.1), (q.2.2.2.2, q.2.2.2.1)))
    (fun p => (p.1.1, p.1.2, m, p.2.2, p.2.1)) ?_ ?_ ?_ ?_
  · intro q hq
    obtain ⟨a, b, m', c, d⟩ := q
    obtain ⟨hmem, heq⟩ := Finset.mem_filter.1 hq
    obtain ⟨hord, hout, hin⟩ := mem_quintuples.1 hmem
    simp only [Prod.mk.injEq] at heq
    obtain ⟨hm, hj, hk⟩ := heq
    rw [← letter_eq_iff (by omega) (by omega) h] at hout hin
    refine Finset.mem_product.2 ⟨mem_pairSet.2 ⟨?_, ?_, ?_, hj, hk⟩,
      mem_pairSet.2 ⟨?_, ?_, ?_, hout.symm.trans hj, hin.symm.trans hk⟩⟩
    · exact Finset.mem_range.2 (show a < m by omega)
    · exact Finset.mem_range.2 (show b < m by omega)
    · exact hord.1
    · exact Finset.mem_Ico.2 (show m + 1 ≤ d ∧ d < s.length by omega)
    · exact Finset.mem_Ico.2 (show m + 1 ≤ c ∧ c < s.length by omega)
    · exact hord.2.2.2.1
  · intro p hp
    obtain ⟨⟨a, b⟩, d, c⟩ := p
    obtain ⟨hbefore, hafter⟩ := Finset.mem_product.1 hp
    obtain ⟨_, hb, hab, hj, hk⟩ := mem_pairSet.1 hbefore
    obtain ⟨hd, hc, hcd, hj', hk'⟩ := mem_pairSet.1 hafter
    have hb : b < m := Finset.mem_range.1 hb
    have hd : m + 1 ≤ d ∧ d < s.length := Finset.mem_Ico.1 hd
    have hc : m + 1 ≤ c ∧ c < s.length := Finset.mem_Ico.1 hc
    have hab : a < b := hab
    have hcd : c < d := hcd
    have hout : letter s a = letter s d := hj.trans hj'.symm
    have hin : letter s b = letter s c := hk.trans hk'.symm
    rw [letter_eq_iff (by omega) (by omega) h] at hout hin
    have hmem : (a, b, m, c, d) ∈ quintuples s :=
      mem_quintuples.2 ⟨by omega, hout, hin⟩
    exact Finset.mem_filter.2 ⟨hmem, Prod.ext rfl (Prod.ext hj hk)⟩
  · intro q hq
    have hm : q.2.2.1 = m := congrArg Prod.fst (Finset.mem_filter.1 hq).2
    rw [← hm]
  · intro p _
    rfl

/-- The last loop leaves out positions that have nothing before or after
them. -/
theorem sum_withMiddle (hs : s ≠ []) :
    ((List.range' 1 (s.length - 2)).map (withMiddle s)).sum =
      ∑ m ∈ Finset.range s.length, withMiddle s m := by
  have hpos := List.length_pos_iff.2 hs
  have hfirst : withMiddle s 0 = 0 := by
    simp [withMiddle, pairsBefore]
  have hlast : withMiddle s (s.length - 1) = 0 := by
    have hnone : Finset.Ico (s.length - 1 + 1) s.length = ∅ :=
      Finset.Ico_eq_empty (by omega)
    simp [withMiddle, pairsFrom, hnone]
  generalize withMiddle s = count at hfirst hlast ⊢
  obtain ⟨n, hn⟩ : ∃ n, s.length = n + 1 := ⟨s.length - 1, by omega⟩
  rw [hn, Nat.add_sub_cancel] at hlast
  rw [hn, Finset.sum_range_succ, hlast]
  cases n with
  | zero => rfl
  | succ n =>
      rw [Finset.sum_range_succ', hfirst, Nat.add_zero, Nat.add_zero,
        show n + 1 + 1 - 2 = n by omega, List.range'_eq_map_range,
        List.map_map]
      refine congrArg List.sum (List.map_congr_left ?_)
      intro i _
      rw [Function.comp_apply, Nat.add_comm]

/-- **`countPalindromes` counts** the palindromic quintuples modulo `mod`, and
no result it computes is outside of its type. -/
theorem countPalindromes_counts (s : List Char) (hs : s ≠ [])
    (hdigits : ∀ c ∈ s, c.isDigit)
    (hpairs : s.length * (s.length - 1) / 2 < 2 ^ 31) :
    countPalindromes s = some ((quintuples s).card % 1000000007) := by
  have h : Digits s := ⟨hdigits, hpairs⟩
  obtain ⟨pre, hpre, hbefore⟩ := prePass_spec h
  obtain ⟨suf, hsuf, hfrom⟩ := sufPass_spec h
  have hlength : Fits 32 s.length := by
    have hlt := h.length_lt
    constructor
    · omega
    · omega
  obtain ⟨ret, hrun, heq⟩ := foldlM_through
    (P := fun (through : List ℕ) ret =>
      ret = ((through.map (withMiddle s)).sum : Int) % mod)
    (f := fun ret i =>
      forDigits (addEntry (pre.table (i - 1)) (suf.table (i + 1))) ret) (s := 0)
    (List.range' 1 (s.length - 2)) (by simp) (by
      intro through i rest ret heq hret
      have hi : i ∈ List.range' 1 (s.length - 2) := by
        rw [heq]
        exact List.mem_append_right _ List.mem_cons_self
      rw [List.mem_range'_1] at hi
      have hmod : 0 ≤ ret ∧ ret < mod := by
        rw [hret]
        exact ⟨Int.emod_nonneg _ mod_pos.ne', Int.emod_lt_of_pos _ mod_pos⟩
      have hpre : ∀ j k, j < 10 → k < 10 →
          pre.table (i - 1) j k = pairsBefore s i j k := by
        intro j k hj hk
        rw [hbefore (i - 1) (by omega) j k hj hk, Nat.sub_add_cancel hi.1]
      have hsuf := hfrom (i + 1) (by omega)
      refine ⟨_, forDigits_add hmod ?_ ?_, ?_⟩
      · intro j k hj hk
        have hlt := pairsBefore_lt h (by omega : i ≤ s.length) j k
        rw [hpre j k hj hk]
        omega
      · intro j k hj hk
        have hlt := pairsFrom_lt h (i + 1) j k
        rw [hsuf j k hj hk]
        omega
      · have hsum : (∑ j ∈ Finset.range 10, ∑ k ∈ Finset.range 10,
            pre.table (i - 1) j k * suf.table (i + 1) j k) =
            (withMiddle s i : Int) := by
          unfold withMiddle
          push_cast
          refine Finset.sum_congr rfl (fun j hj => ?_)
          refine Finset.sum_congr rfl (fun k hk => ?_)
          rw [hpre j k (Finset.mem_range.1 hj) (Finset.mem_range.1 hk),
            hsuf j k (Finset.mem_range.1 hj) (Finset.mem_range.1 hk)]
        rw [hsum, hret, List.map_append, List.sum_append, List.map_singleton,
          List.sum_singleton, Int.emod_add_emod]
        push_cast
        rfl)
  rw [sum_withMiddle hs, ← card_quintuples h] at heq
  unfold countPalindromes
  rw [if_neg hs, hpre, hsuf, signed_of_fits hlength]
  show List.foldlM _ _ _ = _
  rw [hrun, heq]
  rfl

/-- A string of six digits. -/
theorem countPalindromes_counts_six :
    countPalindromes ['1', '0', '3', '3', '0', '1'] =
      some ((quintuples ['1', '0', '3', '3', '0', '1']).card % 1000000007) :=
  countPalindromes_counts _ (by simp) (by simp) (by simp)

end LearningCpp.Palindromes
