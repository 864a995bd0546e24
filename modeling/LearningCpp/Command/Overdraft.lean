import LearningCpp.Command.History

/-!
# Overdrafts

`Debit` refuses to take more than there is, and it is the only member of
`Account` that compares anything. A `CreditCommand` of a negative amount takes
money through `Credit`, which does not ask; what it leaves below zero is an
overdraft, and a credit executed after it cannot be rolled back.

There is no other way to an overdraft. A debit is refused or leaves something,
whatever the sign of its amount; and as long as no balance has been negative,
the rollbacks come down through the balances of the executions, none of which
was.
-/

namespace LearningCpp.AccountManager

open LearningCpp.Lib LearningCpp.Command

variable {A : Type*} [DecidableEq A]

/-- The call executes a credit that leaves less than nothing. -/
def Overdraws (m : AccountManager A) : Op A → Prop
  | .execute kind account amount =>
      kind = .creditCommand ∧ (m.accounts account).balance + amount < 0
  | .rollback => False

/-- The history can be rolled back, with no balance negative now or on the
way. -/
def Solvent (m : AccountManager A) : Prop :=
  UnwindsIn undone Nonneg m.accounts m.history

variable {opening : A → Account} {m : AccountManager A}

/-- A rollback in a solvent state returns. -/
theorem Solvent.rollback_ok (h : m.Solvent) :
    (m.step .rollback).2 = .ok () := by
  unfold Solvent at h
  rw [step]
  cases hm : m.history with
  | nil => rw [rollback, hm]
  | cons cmd history =>
      rw [hm] at h
      obtain ⟨accounts, hundone, _⟩ := h.head
      rw [rollback_cons hm hundone]

/-- A call that is no overdraft leaves it solvent. -/
theorem Solvent.step (h : m.Solvent) {op : Op A} (hop : ¬ m.Overdraws op) :
    (m.step op).1.Solvent := by
  rcases m.step_cases op with hsame |
    ⟨cmd, history, accounts, rfl, hm, hundone, hstep⟩ |
    ⟨kind, account, amount, accounts, cmd, rfl, hrun, hstep⟩
  · rw [hsame]
    exact h
  · unfold Solvent at h
    rw [hm] at h
    obtain ⟨_, hundone', hrest⟩ := h.head
    rw [hundone] at hundone'
    cases hundone'
    rw [hstep]
    exact hrest
  · have hcredit : kind = .creditCommand →
        0 ≤ (m.accounts account).balance + amount := by
      intro hkind
      have hleft : ¬ (m.accounts account).balance + amount < 0 :=
        fun hlt => hop ⟨hkind, hlt⟩
      omega
    obtain ⟨hnonneg, _, hundone⟩ :=
      execute_ok (UnwindsIn.here h) hcredit hrun
    rw [hstep]
    exact .cons hnonneg hundone h

/-- An overdraft leaves a negative balance. -/
theorem negative_of_overdraws {op : Op A} (h : m.Overdraws op) :
    ∃ a, ((m.step op).1.accounts a).balance < 0 := by
  cases op with
  | rollback => exact h.elim
  | execute kind account amount =>
      obtain ⟨rfl, hlt⟩ := h
      refine ⟨account, ?_⟩
      show (Function.update m.accounts account _ account).balance < 0
      rw [Function.update_self]
      exact hlt

/-- No balance is negative after any call of a run, and none of its rollbacks
throws, if and only if it executes no credit that leaves less than nothing. -/
theorem overdraft_iff (hopening : Nonneg opening) (ops : List (Op A)) :
    ((∀ p, p <+: ops →
        ∀ a, 0 ≤ ((runState step ⟨opening, []⟩ p).accounts a).getBalance) ∧
      ∀ p, p ++ [.rollback] <+: ops →
        ((runState step ⟨opening, []⟩ p).step .rollback).2 = .ok ()) ↔
      ∀ p op, p ++ [op] <+: ops →
        ¬ (runState step ⟨opening, []⟩ p).Overdraws op := by
  constructor
  · intro h p op hp hover
    obtain ⟨a, hlt⟩ := negative_of_overdraws hover
    have hle := h.1 _ hp a
    rw [runState_concat] at hle
    exact absurd hlt (Int.not_lt.2 hle)
  · intro h
    have hstart : (⟨opening, []⟩ : AccountManager A).Solvent :=
      .nil hopening
    have hsolvent : ∀ p, p <+: ops →
        (runState step ⟨opening, []⟩ p).Solvent :=
      runState_prefixes (A := fun m op => ¬ m.Overdraws op)
        (fun _ _ hm hop => hm.step hop) hstart h
    constructor
    · intro p hp
      exact UnwindsIn.here (hsolvent p hp)
    · intro p hp
      exact (hsolvent p ((List.prefix_append _ _).trans hp)).rollback_ok

/-- A credit that takes all there is, and its rollback. -/
theorem overdraft_iff_fifty :
    ((∀ p, p <+: [.execute .creditCommand () (-50), .rollback] →
        ∀ a, 0 ≤ ((runState step ⟨fun _ => ⟨50⟩, []⟩ p).accounts
          a).getBalance) ∧
      ∀ p, p ++ [.rollback] <+:
          [.execute .creditCommand () (-50), .rollback] →
        ((runState step ⟨fun _ => ⟨50⟩, []⟩ p).step .rollback).2 = .ok ()) ↔
      ∀ p op, p ++ [op] <+:
          [.execute .creditCommand () (-50), .rollback] →
        ¬ (runState step ⟨fun _ => ⟨50⟩, []⟩ p).Overdraws op :=
  overdraft_iff (by unfold Nonneg; decide) _

/-- With a balance of 50, a credit of -100 is executed; the credit of 10 after
it cannot be rolled back. -/
theorem overdraft_fifty :
    ((runState step (⟨fun _ => ⟨50⟩, []⟩ : AccountManager Unit)
        [.execute .creditCommand () (-100)]).accounts ()).getBalance = -50 ∧
      ((runState step (⟨fun _ => ⟨50⟩, []⟩ : AccountManager Unit)
        [.execute .creditCommand () (-100),
          .execute .creditCommand () 10]).step .rollback).2 =
        .error (.runtimeError "Insufficient funds") := by
  decide

end LearningCpp.AccountManager
