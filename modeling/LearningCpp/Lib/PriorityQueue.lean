import Mathlib

/-!
# Priority queues

`std::priority_queue` as what it promises: the elements in the order in which
`top` would come to them. Elements that are equal in the order are told apart
here by when they came, which a heap does not promise, so nothing is said about
two different elements of one rank.

The loop that most programs have around such a queue pops as long as the top
meets a condition. If the condition can only stop holding as one goes on, that
takes out exactly the elements that meet it.
-/

namespace LearningCpp.Lib

variable {α : Type*} {r : α → α → Prop}

/-- The elements of a queue, the top first; `r` says what comes before what. -/
structure PriorityQueue (r : α → α → Prop) where
  entries : List α
  sorted : entries.Pairwise r

/-! The least of some integers first. -/

instance totalLE : Std.Total (fun a b : Int => a ≤ b) := ⟨Int.le_total⟩

instance transLE : IsTrans Int (fun a b => a ≤ b) :=
  ⟨fun _ _ _ => Int.le_trans⟩

namespace PriorityQueue

def empty : PriorityQueue r := ⟨[], .nil⟩

/-- `push`. -/
def push [DecidableRel r] [Std.Total r] [IsTrans α r] (q : PriorityQueue r)
    (a : α) : PriorityQueue r :=
  ⟨q.entries.orderedInsert r a, q.sorted.orderedInsert a _⟩

/-- `top()`, when there is one. -/
def top? (q : PriorityQueue r) : Option α := q.entries.head?

/-- `pop`. -/
def pop (q : PriorityQueue r) : PriorityQueue r :=
  ⟨q.entries.tail, q.sorted.sublist (List.tail_sublist _)⟩

/-- The loop of `popWhile`, on the elements there still are. -/
def popLoop (p : α → Bool) :
    (l : List α) → l.Pairwise r → List α × PriorityQueue r
  | [], _ => ([], empty)
  | a :: l, h =>
      if p a then
        let (popped, q) := popLoop p l (List.pairwise_cons.1 h).2
        (a :: popped, q)
      else ([], ⟨a :: l, h⟩)

/-- `while (!q.empty() && p(q.top())) q.pop()`: the elements popped, in their
order, and the queue that is left. -/
def popWhile (q : PriorityQueue r) (p : α → Bool) :
    List α × PriorityQueue r :=
  popLoop p q.entries q.sorted

/-- The top comes before all others. -/
theorem top_before [Std.Refl r] {q : PriorityQueue r} {a b : α}
    (htop : q.top? = some a) (hb : b ∈ q.entries) : r a b := by
  obtain ⟨as, has⟩ := List.head?_eq_some_iff.1 htop
  have hsorted := q.sorted
  rw [has] at hb hsorted
  rcases List.mem_cons.1 hb with rfl | hb
  · exact Std.Refl.refl _
  · exact (List.pairwise_cons.1 hsorted).1 b hb

theorem entries_of_top {q : PriorityQueue r} {a : α}
    (htop : q.top? = some a) : q.entries = a :: q.pop.entries := by
  obtain ⟨as, has⟩ := List.head?_eq_some_iff.1 htop
  show q.entries = a :: q.entries.tail
  rw [has]
  rfl

section Push

variable [DecidableRel r] [Std.Total r] [IsTrans α r]

theorem push_perm (q : PriorityQueue r) (a : α) :
    (q.push a).entries.Perm (a :: q.entries) := List.perm_orderedInsert r a _

theorem mem_push {q : PriorityQueue r} {a b : α} :
    b ∈ (q.push a).entries ↔ b = a ∨ b ∈ q.entries := by
  rw [(q.push_perm a).mem_iff, List.mem_cons]

/-- Elements pushed one after the other. -/
theorem foldl_push_perm {q : PriorityQueue r} (l : List α) :
    (l.foldl push q).entries.Perm (l ++ q.entries) := by
  induction l generalizing q with
  | nil => exact .refl _
  | cons a l ih =>
      refine ih.trans (((q.push_perm a).append_left l).trans ?_)
      exact List.perm_middle

end Push

/-- A condition that does not come back once it fails takes out exactly the
elements that meet it. -/
theorem popLoop_filter {p : α → Bool} :
    ∀ (l : List α) (h : l.Pairwise r),
      (∀ a ∈ l, ∀ b ∈ l, r a b → p b = true → p a = true) →
      (popLoop p l h).1 = l.filter p ∧
        (popLoop p l h).2.entries = l.filter (fun a => !p a)
  | [], _, _ => ⟨rfl, rfl⟩
  | a :: l, h, hp => by
      obtain ⟨hhead, htail⟩ := List.pairwise_cons.1 h
      cases ha : p a with
      | true =>
          obtain ⟨hpopped, hleft⟩ := popLoop_filter l htail
            (fun a ha b hb => hp a (.tail _ ha) b (.tail _ hb))
          simp only [popLoop, ha, if_true, List.filter_cons, hpopped, hleft,
            Bool.not_true, Bool.false_eq_true, if_false, and_self]
      | false =>
          have hnone : ∀ b ∈ l, p b = false := by
            intro b hb
            by_contra htrue
            rw [Bool.not_eq_false] at htrue
            rw [hp a List.mem_cons_self b (.tail _ hb) (hhead b hb) htrue] at ha
            cases ha
          have hfilter : l.filter p = [] :=
            List.filter_eq_nil_iff.2 (fun b hb => by simp [hnone b hb])
          have hall : l.filter (fun b => !p b) = l :=
            List.filter_eq_self.2 (fun b hb => by simp [hnone b hb])
          simp only [popLoop, ha, Bool.false_eq_true, if_false,
            List.filter_cons, hfilter, hall, Bool.not_false, if_true, and_self]

theorem popWhile_filter {q : PriorityQueue r} {p : α → Bool}
    (hp : ∀ a ∈ q.entries, ∀ b ∈ q.entries, r a b → p b = true → p a = true) :
    (q.popWhile p).1 = q.entries.filter p ∧
      (q.popWhile p).2.entries = q.entries.filter (fun a => !p a) :=
  popLoop_filter q.entries q.sorted hp

end PriorityQueue

/-! ## Any implementation

What is said about the elements of one rank above is more than
`std::priority_queue` promises. Where they differ a program is modelled with
the queue as a parameter, of which is known what the standard says. -/

/-- A priority queue that has some element at the top that may come first. -/
structure AnyQueue (r : α → α → Prop) where
  Queue : Type
  contents : Queue → Multiset α
  empty : Queue
  push : Queue → α → Queue
  top? : Queue → Option α
  pop : Queue → Queue
  contents_empty : contents empty = 0
  contents_push : ∀ q a, contents (push q a) = a ::ₘ contents q
  contents_top : ∀ q a, top? q = some a → contents q = a ::ₘ contents (pop q)
  top_before : ∀ q a, top? q = some a → ∀ b ∈ contents q, r a b
  top_none : ∀ q, top? q = none → contents q = 0

/-- The queue of sorted entries is one. -/
def AnyQueue.sorted {α : Type} (r : α → α → Prop) [DecidableRel r]
    [Std.Total r] [IsTrans α r] [Std.Refl r] : AnyQueue r where
  Queue := PriorityQueue r
  contents q := q.entries
  empty := PriorityQueue.empty
  push := PriorityQueue.push
  top? := PriorityQueue.top?
  pop := PriorityQueue.pop
  contents_empty := rfl
  contents_push := fun q a => Multiset.coe_eq_coe.2 (q.push_perm a)
  contents_top := fun _ _ h =>
    congrArg Multiset.ofList (PriorityQueue.entries_of_top h)
  top_before := fun _ _ h _ hb =>
    PriorityQueue.top_before h (Multiset.mem_coe.1 hb)
  top_none := fun _ h => congrArg Multiset.ofList (List.head?_eq_none_iff.1 h)

namespace AnyQueue

variable (q : AnyQueue r)

/-- `top` and `pop`, some times: the elements in their order, and the queue
that is left. `top` of an empty queue is undefined. -/
def popTimes : ℕ → q.Queue → Option (List α × q.Queue)
  | 0, queue => some ([], queue)
  | n + 1, queue =>
      match q.top? queue with
      | none => none
      | some a => (popTimes n (q.pop queue)).map (fun s => (a :: s.1, s.2))

theorem popTimes_of_lt {n : ℕ} {queue : q.Queue}
    (h : (q.contents queue).card < n) : q.popTimes n queue = none := by
  induction n generalizing queue with
  | zero => exact absurd h (Nat.not_lt_zero _)
  | succ n ih =>
      rw [popTimes]
      cases htop : q.top? queue with
      | none => rfl
      | some a =>
          rw [q.contents_top queue a htop, Multiset.card_cons] at h
          simp only [ih (Nat.lt_of_succ_lt_succ h), Option.map_none]

/-- The elements popped come before one another and before all that are
left. -/
theorem popTimes_of_le {n : ℕ} {queue : q.Queue}
    (h : n ≤ (q.contents queue).card) :
    ∃ l queue', q.popTimes n queue = some (l, queue') ∧ l.length = n ∧
      q.contents queue = ↑l + q.contents queue' ∧ l.Pairwise r ∧
      ∀ a ∈ l, ∀ b ∈ q.contents queue', r a b := by
  induction n generalizing queue with
  | zero => exact ⟨[], queue, rfl, rfl, (zero_add _).symm, .nil, by simp⟩
  | succ n ih =>
      rw [popTimes]
      cases htop : q.top? queue with
      | none =>
          rw [q.top_none queue htop, Multiset.card_zero] at h
          exact absurd h (Nat.not_succ_le_zero n)
      | some a =>
          have hcontents := q.contents_top queue a htop
          have hbefore := q.top_before queue a htop
          rw [hcontents, Multiset.card_cons] at h
          obtain ⟨l, queue', hpop, hlength, hrest, hsorted, hleft⟩ :=
            ih (Nat.le_of_succ_le_succ h)
          have hmem : ∀ b, b ∈ l ∨ b ∈ q.contents queue' →
              b ∈ q.contents queue := by
            intro b hb
            rw [hcontents, hrest]
            refine Multiset.mem_cons_of_mem (Multiset.mem_add.2 ?_)
            exact hb.imp Multiset.mem_coe.2 id
          refine ⟨a :: l, queue', ?_, congrArg Nat.succ hlength, ?_, ?_, ?_⟩
          · simp only [hpop, Option.map_some]
          · rw [hcontents, hrest, ← Multiset.cons_coe, Multiset.cons_add]
          · exact .cons (fun b hb => hbefore b (hmem b (Or.inl hb))) hsorted
          · intro b hb c hc
            rcases List.mem_cons.1 hb with rfl | hb
            · exact hbefore c (hmem c (Or.inr hc))
            · exact hleft b hb c hc

end AnyQueue

end LearningCpp.Lib
