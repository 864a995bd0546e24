import LearningCpp.Lib.Unordered

/-!
# Anagrams

`leetcode/medium/49.cpp` and `leetcode/easy/242.cpp`, two programs about one
relation. The first groups strings by how often each letter occurs in them, the
array of the 26 numbers being the key of a hash map; the second counts the
letters of one string up and those of the other down, and looks whether nothing
is left.

The index into such an array is the distance of a character from `'a'`; outside
of the array the access is undefined and there is no result. The hash only
decides where the map keeps an entry, and so in which order a loop goes through
it, which is a parameter. The counts do not wrap.
-/

namespace LearningCpp.Anagrams

open LearningCpp.Lib

abbrev Text := List Char

/-- A `std::array<int, 26>`. -/
abbrev Counts := Fin 26 → Int

/-- `c - 'a'`, as the index of an access. -/
def index (c : Char) : Option (Fin 26) :=
  if h : 'a'.toNat ≤ c.toNat ∧ c.toNat - 'a'.toNat < 26 then
    some ⟨c.toNat - 'a'.toNat, h.2⟩
  else none

/-- `counts[c - 'a'] += by`. -/
def add (by_ : Int) (counts : Counts) (c : Char) : Option Counts := do
  let i ← index c
  some (Function.update counts i (counts i + by_))

/-- The body of the loop of `groupAnagrams`. -/
def addToGroup (groups : AList (fun _ : Counts => List Text)) (s : Text) :
    Option (AList (fun _ : Counts => List Text)) := do
  let counts ← s.foldlM (add 1) 0
  some (modifyAt groups counts [] (· ++ [s]))

/-- `groupAnagrams`. -/
def groupAnagrams (visit : Visit (Σ _ : Counts, List Text))
    (strs : List Text) : Option (List (List Text)) := do
  let groups ← strs.foldlM addToGroup ∅
  some ((visit.order groups.entries).map Sigma.snd)

/-- `isAnagram`. -/
def isAnagram (s t : Text) : Option Bool := do
  let chars ← s.foldlM (add 1) 0
  let chars ← t.foldlM (add (-1)) chars
  some (decide (∀ i, chars i = 0))

end LearningCpp.Anagrams
