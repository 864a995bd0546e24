import LearningCpp.Lib.Run

/-!
# The segment tree

`get_cracked/coding/segment_tree.cpp`. A tree over the positions `0` to
`size - 1` whose nodes are made when an `insert` first passes through them; a
missing node stands for the identity everywhere below it. `grow` doubles the
positions by putting a new root over the old one.

The element type, the identity and the operation are the template's and the
constructor's, so they are parameters here too, with no laws. An `int` is an
`Int`: the bound `grow` checks is what keeps the size one.
-/

namespace LearningCpp.SegmentTree

/-- The exceptions the members throw, with their texts. -/
inductive Exception where
  | invalidArgument (what : String)
  | outOfRange (what : String)
  | lengthError (what : String)
deriving DecidableEq, Repr

/-- A `std::unique_ptr<Node>`. -/
inductive NodePtr (T : Type*) where
  | null
  | node (val : T) (left right : NodePtr T)
deriving DecidableEq, Repr

variable {T : Type*}

/-- `valueOf`. -/
def NodePtr.valueOf (identity : T) : NodePtr T → T
  | .null => identity
  | .node val _ _ => val

/-- `if (!node) node = std::make_unique<Node>(identity_)`: the value and the
children of the node there is then. -/
def NodePtr.orMake (identity : T) :
    NodePtr T → T × NodePtr T × NodePtr T
  | .null => (identity, .null, .null)
  | .node val left right => (val, left, right)

/-- The midpoint both recursions cut an interval at. -/
def midpoint (low high : Int) : Int := low + (high - low) / 2

theorem midpoint_bounds {low high : Int} (h : low < high) :
    low ≤ midpoint low high ∧ midpoint low high < high := by
  unfold midpoint
  omega

/-- `insert_`. Its callers pass an interval that is not empty, and so does its
recursion. -/
def NodePtr.insert_ (identity : T) (combine : T → T → T) (node : NodePtr T)
    (low high : Int) (hle : low ≤ high) (index : Int) (value : T) :
    NodePtr T :=
  let (_, left, right) := node.orMake identity
  if heq : low = high then .node value left right
  else
    have hmid := midpoint_bounds (by omega : low < high)
    if index ≤ midpoint low high then
      let left := left.insert_ identity combine low (midpoint low high)
        hmid.1 index value
      .node (combine (left.valueOf identity) (right.valueOf identity)) left
        right
    else
      let right := right.insert_ identity combine (midpoint low high + 1) high
        (by omega) index value
      .node (combine (left.valueOf identity) (right.valueOf identity)) left
        right
termination_by (high - low).toNat
decreasing_by all_goals omega

/-- `query_`. -/
def NodePtr.query_ (identity : T) (combine : T → T → T) :
    NodePtr T → (low high left right : Int) → T
  | .null, _, _, _, _ => identity
  | .node val l r, low, high, left, right =>
    if right < low ∨ high < left then identity
    else if left ≤ low ∧ high ≤ right then val
    else
      combine
        (l.query_ identity combine low (midpoint low high) left right)
        (r.query_ identity combine (midpoint low high + 1) high left right)

/-- `std::numeric_limits<int>::max()`. -/
def intMax : Int := 2 ^ 31 - 1

end LearningCpp.SegmentTree

namespace LearningCpp

open LearningCpp.SegmentTree

structure SegmentTree (T : Type*) where
  size : Int
  identity : T
  combine : T → T → T
  root : NodePtr T

namespace SegmentTree

variable {T : Type*}

/-- `SegmentTree(size, identity, combine)`. -/
def make (size : Int) (identity : T) (combine : T → T → T) :
    Except Exception (SegmentTree T) :=
  if size ≤ 0 then .error (.invalidArgument "Size must be positive")
  else .ok ⟨size, identity, combine, .null⟩

def insert (t : SegmentTree T) (index : Int) (value : T) :
    Except Exception (SegmentTree T) :=
  if h : index < 0 ∨ index ≥ t.size then
    .error (.outOfRange "Invalid index")
  else
    .ok { t with
      root := t.root.insert_ t.identity t.combine 0 (t.size - 1) (by omega)
        index value }

def update (t : SegmentTree T) (index : Int) (value : T) :
    Except Exception (SegmentTree T) := t.insert index value

def query (t : SegmentTree T) (left right : Int) : Except Exception T :=
  if left < 0 ∨ left > right ∨ right ≥ t.size then
    .error (.outOfRange "Invalid query range")
  else
    .ok (t.root.query_ t.identity t.combine 0 (t.size - 1) left right)

/-- `grow`. The existing readings occupy the left half. -/
def grow (t : SegmentTree T) : Except Exception (SegmentTree T) :=
  if t.size > intMax / 2 then
    .error (.lengthError "Tree capacity is too large")
  else
    .ok { t with
      root := .node
        (t.combine (t.root.valueOf t.identity)
          ((.null : NodePtr T).valueOf t.identity)) t.root .null
      size := t.size * 2 }

/-- A call that may change the tree. -/
inductive Op (T : Type*) where
  | insert (index : Int) (value : T)
  | update (index : Int) (value : T)
  | grow
deriving DecidableEq, Repr

def Op.run (t : SegmentTree T) : Op T → Except Exception (SegmentTree T)
  | .insert index value => t.insert index value
  | .update index value => t.update index value
  | .grow => t.grow

/-- One call. The members throw before they change anything, so a call that
throws leaves the tree as it was. -/
def step (t : SegmentTree T) (op : Op T) :
    SegmentTree T × Except Exception Unit :=
  match op.run t with
  | .ok t' => (t', .ok ())
  | .error e => (t, .error e)

end SegmentTree

end LearningCpp
