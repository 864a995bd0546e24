import LearningCpp.SegmentTree.Canonical

/-!
# Building the tree from a vector

The constructor from a vector leaves the work to `build`, a recursion of its
own over the same intervals. No program can use it: a leaf is made by taking
the element for the pointer, the value of an inner node is assigned to a
member `Node` does not have, and then the function ends without a `return`. A
template's members are compiled when they are used, so the file compiles
without it; with a call of the constructor it does not.

The body is written here with those three places open. `buildBody` fills them
as the source does and is refused whatever the element type; `mendedBody`
fills them as `insert_` would, and builds the tree the inserts build.
-/

namespace LearningCpp.SegmentTree

open LearningCpp.Lib

variable {T : Type*}

/-! ## The body of `build` -/

/-- How a leaf is made of its element: as the pointer, by
`std::unique_ptr<Node>(values[low])`, or as the value of a new node. -/
inductive LeafForm where
  | uniquePtr
  | makeUnique
deriving DecidableEq, Repr

/-- The places that are left open. -/
structure BuildBody where
  leaf : LeafForm
  /-- The member the combination of the children is assigned to. -/
  value : String
  /-- Whether the node that was made is returned. -/
  returns : Bool
deriving DecidableEq, Repr

/-- `build`, as it is in the source. -/
def buildBody : BuildBody := ⟨.uniquePtr, "value", false⟩

def mendedBody : BuildBody := ⟨.makeUnique, "val", true⟩

/-- What `struct Node` declares. -/
def nodeMembers : List String := ["val", "left", "right"]

inductive Diagnostic where
  | noConversion
  | noMember (name : String)
deriving DecidableEq, Repr

/-- The ways a use of the constructor comes to nothing. -/
inductive BuildFault where
  | illFormed (diagnostics : List Diagnostic)
  | exception (e : Exception)
  | undefined
deriving DecidableEq, Repr

namespace BuildBody

/-- What the compiler has to say when the body is instantiated. `toNode` is
the conversion of an element to a `Node*`, if its type has one. -/
def diagnostics (body : BuildBody) (toNode : Option (T → NodePtr T)) :
    List Diagnostic :=
  (if body.leaf = .uniquePtr ∧ toNode.isNone then [.noConversion] else []) ++
    (["left", "right", body.value].filter (fun name => name ∉ nodeMembers)).map
      .noMember

/-- The `return` of a leaf. -/
def leafNode (body : BuildBody) (toNode : Option (T → NodePtr T)) (value : T) :
    Except BuildFault (NodePtr T) :=
  match body.leaf, toNode with
  | .makeUnique, _ => .ok (.node value .null .null)
  | .uniquePtr, some toNode => .ok (toNode value)
  | .uniquePtr, none => .error (.illFormed [.noConversion])

/-- `build`. A function that ends without its `return` is undefined, and so is
an element beyond the vector. -/
def build (body : BuildBody) (toNode : Option (T → NodePtr T)) (identity : T)
    (combine : T → T → T) (values : List T) (low high : Int)
    (hle : low ≤ high) : Except BuildFault (NodePtr T) :=
  if heq : low = high then
    match values[low.toNat]? with
    | none => .error .undefined
    | some value => body.leafNode toNode value
  else
    have hmid := midpoint_bounds (by omega : low < high)
    match values[(midpoint low high).toNat]? with
    | none => .error .undefined
    | some value =>
      match body.build toNode identity combine values low (midpoint low high)
          hmid.1 with
      | .error e => .error e
      | .ok left =>
        match body.build toNode identity combine values
            (midpoint low high + 1) high (by omega) with
        | .error e => .error e
        | .ok right =>
          let value :=
            if body.value = "val" then
              combine (left.valueOf identity) (right.valueOf identity)
            else value
          if body.returns then .ok (.node value left right)
          else .error .undefined
termination_by (high - low).toNat
decreasing_by all_goals omega

end BuildBody

/-! ## The two constructions -/

/-- `values.size()` as the constructor's `int`. -/
def sizeOfVector (values : List T) : Int := (values.length : Int).bmod (2 ^ 32)

theorem make_size {n : Int} {identity : T} {combine : T → T → T}
    {t : SegmentTree T} (h : make n identity combine = .ok t) :
    1 ≤ n ∧ t = ⟨n, identity, combine, .null⟩ := by
  unfold make at h
  split at h
  · cases h
  · exact ⟨by omega, (Except.ok.inj h).symm⟩

/-- `SegmentTree(values, identity, combine)`, `size` being the `int` it hands
to the other constructor. -/
def ofVector (body : BuildBody) (toNode : Option (T → NodePtr T)) (size : Int)
    (values : List T) (identity : T) (combine : T → T → T) :
    Except BuildFault (SegmentTree T) :=
  if body.diagnostics toNode ≠ [] then
    .error (.illFormed (body.diagnostics toNode))
  else
    match hmake : make size identity combine with
    | .error e => .error (.exception e)
    | .ok t =>
      have hsize : 0 ≤ t.size - 1 := by
        obtain ⟨hn, rfl⟩ := make_size hmake
        simp only []
        omega
      match body.build toNode identity combine values 0 (t.size - 1)
          hsize with
      | .error e => .error e
      | .ok root => .ok { t with root }

/-- `insert(i, values[i])`, for the positions from `index` on. -/
def insertAll (t : SegmentTree T) : Int → List T →
    Except Exception (SegmentTree T)
  | _, [] => .ok t
  | index, value :: values =>
      match t.insert index value with
      | .error e => .error e
      | .ok t => insertAll t (index + 1) values

/-- `SegmentTree(size, identity, combine)` and the inserts. -/
def ofInserts (size : Int) (values : List T) (identity : T)
    (combine : T → T → T) : Except Exception (SegmentTree T) :=
  match make size identity combine with
  | .error e => .error e
  | .ok t => insertAll t 0 values

/-- The two constructions give trees of the vector's size that no sequence of
calls tells apart, nor a query after one. -/
def AgreesWithInserts (body : BuildBody) (toNode : Option (T → NodePtr T))
    (values : List T) (identity : T) (combine : T → T → T) : Prop :=
  ∃ t t', ofVector body toNode (sizeOfVector values) values identity combine =
      .ok t ∧
    ofInserts (sizeOfVector values) values identity combine = .ok t' ∧
    t.size = values.length ∧
    ∀ ops, runOut step t ops = runOut step t' ops ∧
      (runState step t ops).size = (runState step t' ops).size ∧
      ∀ left right, (runState step t ops).query left right =
        (runState step t' ops).query left right

/-- The body of the source does not compile, whatever the element type. -/
theorem noMember_value (toNode : Option (T → NodePtr T)) :
    .noMember "value" ∈ buildBody.diagnostics toNode := by
  simp [BuildBody.diagnostics, buildBody, nodeMembers]

/-- There is no vector, identity and operation for which the constructor from
a vector gives the tree of the inserts: there is none for which it gives a
tree. -/
theorem ofVector_never_agrees (toNode : Option (T → NodePtr T))
    (values : List T) (identity : T) (combine : T → T → T) :
    ¬ AgreesWithInserts buildBody toNode values identity combine := by
  rintro ⟨t, _, hvector, _⟩
  have hne : buildBody.diagnostics toNode ≠ [] :=
    List.ne_nil_of_mem (noMember_value toNode)
  rw [ofVector, if_pos hne] at hvector
  cases hvector

/-- One `int`, and its sum: neither the leaf nor the member compiles. -/
theorem ofVector_one :
    ofVector buildBody none 1 [(1 : Int)] 0 (· + ·) =
        .error (.illFormed [.noConversion, .noMember "value"]) ∧
      ¬ AgreesWithInserts buildBody none [(1 : Int)] 0 (· + ·) := by
  have hvector : ∀ size, ofVector buildBody none size [(1 : Int)] 0 (· + ·) =
      .error (.illFormed [.noConversion, .noMember "value"]) := by
    simp [ofVector, BuildBody.diagnostics, buildBody, nodeMembers]
  refine ⟨hvector 1, ?_⟩
  intro ⟨t, _, ht, _⟩
  rw [hvector] at ht
  cases ht

/-! ## With the three places mended -/

/-- The values at their positions. -/
def written (values : List T) (i : Int) : Option T :=
  if 0 ≤ i then values[i.toNat]? else none

theorem written_some {values : List T} {i : Int} (hlow : 0 ≤ i)
    (hhigh : i < values.length) :
    ∃ value, values[i.toNat]? = some value ∧ written values i = some value := by
  have hlt : i.toNat < values.length := by omega
  refine ⟨values[i.toNat], List.getElem?_eq_getElem hlt, ?_⟩
  rw [written, if_pos hlow, List.getElem?_eq_getElem hlt]

/-- `build` makes the one node there is for the interval when all of it was
written. -/
theorem mendedBody_build (toNode : Option (T → NodePtr T)) (identity : T)
    (combine : T → T → T) (values : List T) : ∀ (low high : Int)
    (hle : low ≤ high), 0 ≤ low → high < values.length →
    ∃ node, mendedBody.build toNode identity combine values low high hle =
        .ok node ∧
      Canonical identity combine (written values) 0 node low high := by
  intro low high hle
  -- As for `Holds`, along the recursion of `build`.
  induction hn : (high - low).toNat using Nat.strong_induction_on
    generalizing low high with
  | _ n ih =>
      intro hlow hhigh
      rw [BuildBody.build]
      split
      · next heq =>
          subst heq
          obtain ⟨value, hget, hwritten⟩ := written_some hlow hhigh
          simp only [hget]
          exact ⟨_, rfl, .leaf hwritten⟩
      · next hne =>
          have hlt : low < high := by omega
          have hmid := midpoint_bounds hlt
          have hmiddle : ∃ value, values[(midpoint low high).toNat]? =
              some value ∧ written values (midpoint low high) = some value :=
            written_some (by omega) (by omega)
          obtain ⟨value, hget, hwritten⟩ := hmiddle
          obtain ⟨left, hleft, hcl⟩ := ih _ (by omega) low (midpoint low high)
            hmid.1 rfl hlow (by omega)
          obtain ⟨right, hright, hcr⟩ := ih _ (by omega)
            (midpoint low high + 1) high (by omega) rfl (by omega) hhigh
          simp only [hget, hleft, hright]
          refine ⟨_, rfl, .inner hlt (.inr ?_) hcl hcr⟩
          exact ⟨midpoint low high, hmid.1, by omega, by rw [hwritten]; rfl⟩

theorem insertAll_remains (values : List T) : ∀ {t : SegmentTree T}
    {w : Int → Option T} (index : Int), Remains t 0 w → 0 ≤ index →
    index + values.length ≤ t.size →
    ∃ t', insertAll t index values = .ok t' ∧
      Remains t' 0 (fun i => if index ≤ i then
        (values[(i - index).toNat]?).or (w i) else w i) ∧
      t'.size = t.size ∧ t'.identity = t.identity ∧
      t'.combine = t.combine := by
  induction values with
  | nil =>
      intro t w index h _ _
      refine ⟨t, rfl, ?_, rfl, rfl, rfl⟩
      simpa using h
  | cons value values ih =>
      intro t w index h hindex hsize
      rw [List.length_cons] at hsize
      have hin : 0 ≤ index ∧ index < t.size := by omega
      obtain ⟨t₁, hinsert⟩ := insert_eq_ok hin value
      obtain ⟨h₁, hsize₁, hid₁, hcomb₁⟩ := h.insert_ok hinsert
      obtain ⟨t', hall, h', hsize', hid', hcomb'⟩ := ih (index + 1) h₁
        (by omega) (by rw [hsize₁]; push_cast at hsize; omega)
      refine ⟨t', ?_, ?_, hsize'.trans hsize₁, hid'.trans hid₁,
        hcomb'.trans hcomb₁⟩
      · simp only [insertAll, hinsert, hall]
      · convert h' using 2 with i
        by_cases hi : i = index
        · subst hi
          simp
        · rw [Function.update_of_ne hi]
          by_cases hle : index ≤ i
          · have hsucc : (i - index).toNat = (i - (index + 1)).toNat + 1 := by
              omega
            rw [if_pos hle, if_pos (by omega), hsucc, List.getElem?_cons_succ]
          · rw [if_neg hle, if_neg (by omega)]

theorem sizeOfVector_eq {values : List T} (hfits : values.length ≤ intMax) :
    sizeOfVector values = values.length := by
  unfold intMax at hfits
  unfold sizeOfVector
  exact Int.bmod_eq_of_le (by omega) (by omega)

/-- Mended in the three places, the constructor gives the tree of the inserts,
for every vector of a size that fits in an `int`. No law of the operation is
used. -/
theorem mendedBody_agrees (toNode : Option (T → NodePtr T)) {values : List T}
    (hne : values ≠ []) (hfits : values.length ≤ intMax) (identity : T)
    (combine : T → T → T) :
    AgreesWithInserts mendedBody toNode values identity combine := by
  have hpos := List.length_pos_of_ne_nil hne
  have hmake : make values.length identity combine =
      .ok ⟨values.length, identity, combine, .null⟩ := by
    rw [make, if_neg (by omega)]
  obtain ⟨root, hbuild, hroot⟩ := mendedBody_build toNode identity combine
    values 0 (values.length - 1) (by omega) (le_refl 0) (by omega)
  have hstart := make_remains (n := values.length) (by omega) identity combine
  obtain ⟨t', hall, hremains, hsize', hid', hcomb'⟩ :=
    insertAll_remains values 0 hstart (le_refl 0) (by simp)
  have hvector : ofVector mendedBody toNode values.length values identity
      combine = .ok ⟨values.length, identity, combine, root⟩ := by
    have hcompiles : mendedBody.diagnostics toNode = [] := by
      simp [BuildBody.diagnostics, mendedBody, nodeMembers]
    rw [ofVector, if_neg (by rw [hcompiles]; simp)]
    split
    · next h =>
        rw [hmake] at h
        cases h
    · next h =>
        rw [hmake] at h
        obtain rfl := Except.ok.inj h
        simp only [hbuild]
  have hinserts : ofInserts values.length values identity combine =
      .ok t' := by
    rw [ofInserts, hmake]
    exact hall
  -- Both trees are what is left of the same values.
  have hsame : t' = ⟨values.length, identity, combine, root⟩ := by
    have hmine : Remains ⟨values.length, identity, combine, root⟩ 0
        (written values) := by
      refine ⟨by simp only []; omega, hroot, ?_⟩
      intro i hi
      have hi : (values.length : Int) ≤ i := hi
      rw [written, if_pos (by omega), List.getElem?_eq_none (by omega)]
    refine hmine.root_unique ?_ hsize' hid' hcomb'
    convert hremains using 2 with i
    by_cases hi : 0 ≤ i
    · simp [written, hi]
    · simp [written, hi]
  rw [AgreesWithInserts, sizeOfVector_eq hfits]
  refine ⟨_, t', hvector, hinserts, rfl, ?_⟩
  rw [hsame]
  exact fun ops => ⟨rfl, rfl, fun _ _ => rfl⟩

end LearningCpp.SegmentTree
