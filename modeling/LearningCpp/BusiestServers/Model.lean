import LearningCpp.Lib.PriorityQueue
import LearningCpp.Lib.Unordered

/-!
# The busiest servers

`leetcode/hard/1606.cpp`. Requests arrive one after the other; request `i` goes
to the first server that is free among `i % k`, `i % k + 1` and so on around, or
is dropped. The code keeps the free servers in an ordered set and the others in
a heap by the time they end at, and moves them over when a request arrives.

The set is a `Finset`, of which `begin` is the minimum. The order in which the
last loop goes through the hash map of counts is a parameter. Counts and times
are integers that do not wrap.
-/

namespace LearningCpp.BusiestServers

open LearningCpp.Lib

/-- The order of `std::pair<int, int>`. -/
def PairLE (p q : Int × Int) : Prop := p.1 < q.1 ∨ (p.1 = q.1 ∧ p.2 ≤ q.2)

/-- The order `std::priority_queue` comes to pairs in by default. -/
def PairGE (p q : Int × Int) : Prop := PairLE q p

instance : DecidableRel PairLE := fun _ _ => inferInstanceAs (Decidable (_ ∨ _))

instance : DecidableRel PairGE := fun p q =>
  inferInstanceAs (Decidable (PairLE q p))

instance : Std.Total PairLE := ⟨fun p q => by unfold PairLE; omega⟩

instance : Std.Total PairGE := ⟨fun p q => by unfold PairGE PairLE; omega⟩

instance : IsTrans (Int × Int) PairLE :=
  ⟨fun p q s => by unfold PairLE; omega⟩

instance : IsTrans (Int × Int) PairGE :=
  ⟨fun p q s => by unfold PairGE PairLE; omega⟩

/-- `available.begin()`, when there is one. -/
def first? (available : Finset Int) : Option Int :=
  if h : available.Nonempty then some (available.min' h) else none

/-- `available.lower_bound(x)`: the first that is not less. -/
def lowerBound (available : Finset Int) (x : Int) : Option Int :=
  first? (available.filter (fun v => x ≤ v))

/-- What the loop over the requests keeps. -/
structure State where
  /-- The servers that are busy, each with the time it ends at. -/
  endTimes : PriorityQueue PairLE
  available : Finset Int
  serveCounts : AList (fun _ : Int => Int)

/-- All servers are available. -/
def State.init (k : Int) : State where
  endTimes := .empty
  available := (List.range k.toNat).foldl
    (fun (available : Finset Int) (i : ℕ) => insert (i : Int) available) ∅
  serveCounts := ∅

/-- The servers whose requests have ended are made available. -/
def State.release (s : State) (arrivalTime : Int) : State :=
  let (ended, endTimes) :=
    s.endTimes.popWhile (fun server => decide (server.1 ≤ arrivalTime))
  { s with
    endTimes
    available := ended.foldl (fun a server => insert server.2 a) s.available }

/-- The body of the loop over the requests. -/
def State.request (k : Int) (load : List Int) (s : State) (i : ℕ)
    (arrivalTime : Int) : Option State :=
  let s := s.release arrivalTime
  if s.available = ∅ then some s
  else do
    let server ← lowerBound s.available (i % k) <|> first? s.available
    let loadTime ← load[i]?
    some {
      endTimes := s.endTimes.push (arrivalTime + loadTime, server)
      available := s.available.erase server
      serveCounts := modifyAt s.serveCounts server 0 (· + 1) }

/-- The loop over the requests, from request `i` on. -/
def State.requests (k : Int) (load : List Int) :
    State → ℕ → List Int → Option State
  | s, _, [] => some s
  | s, i, arrivalTime :: arrival => do
      let s ← s.request k load i arrivalTime
      requests k load s (i + 1) arrival

/-- The counts, in a heap. -/
def State.counts (visit : Visit (Σ _ : Int, Int)) (s : State) :
    PriorityQueue PairGE :=
  (visit.order s.serveCounts.entries).foldl
    (fun counts server => counts.push (server.2, server.1)) .empty

/-- The last loop: the servers with the count of the top. `top` of an empty
queue is undefined. -/
def busiest (counts : PriorityQueue PairGE) : Option (List Int) := do
  let most ← counts.top?
  let (others, _) := counts.pop.popWhile (fun c => decide (most.1 = c.1))
  some (most.2 :: others.map Prod.snd)

/-- `busiestServers`. -/
def busiestServers (visit : Visit (Σ _ : Int, Int)) (k : Int)
    (arrival load : List Int) : Option (List Int) := do
  let s ← (State.init k).requests k load 0 arrival
  busiest (s.counts visit)

end LearningCpp.BusiestServers
