import LearningCpp.Lib.UndoStack
import LearningCpp.Command.Model

/-!
# The history is an exact undo stack

Undoing a credit is a debit, which fails when the balance is too low, so no
command can be undone just anywhere. What makes `Rollback` safe is that the
balances it meets are those right after the command was executed: everything
executed since has been undone. That is `Above` of the undo stacks, with the
opening balances at the bottom.

The other half is that what an execution did, the undoing of the same command
takes back, and there no balance is negative and no amount is: a credit of a
negative amount is a debit without a check.
-/

namespace LearningCpp.Command

open LearningCpp.Lib

variable {A : Type*} [DecidableEq A]

def Nonneg (accounts : A → Account) : Prop := ∀ a, 0 ≤ (accounts a).balance

/-- What undoing the command makes of the balances, if it does not throw. -/
def undone (cmd : Command A) (accounts : A → Account) :
    Option (A → Account) :=
  match cmd.undo accounts with
  | (accounts, .ok ()) => some accounts
  | (_, .error _) => none

section Accounts

variable {accounts : A → Account} {account : A} {amount : Int}

theorem debit_refused (h : (accounts account).balance < amount) :
    debit accounts account amount = (accounts, false) := by
  unfold debit Account.debit
  rw [if_pos h]
  exact Prod.ext (Function.update_eq_self _ _) rfl

theorem debit_done (h : amount ≤ (accounts account).balance) :
    debit accounts account amount =
      (Function.update accounts account
        ⟨(accounts account).balance - amount⟩, true) := by
  unfold debit Account.debit
  rw [if_neg (by omega)]

theorem debit_credit (h : 0 ≤ (accounts account).balance) :
    debit (credit accounts account amount) account amount =
      (accounts, true) := by
  have hbalance : (credit accounts account amount account).balance =
      (accounts account).balance + amount := by
    unfold credit
    rw [Function.update_self]
    rfl
  rw [debit_done (by omega), hbalance, Int.add_sub_cancel, credit,
    Function.update_idem]
  exact Prod.ext (Function.update_eq_self _ _) rfl

theorem credit_debit (h : amount ≤ (accounts account).balance) :
    credit (debit accounts account amount).1 account amount = accounts := by
  rw [debit_done h]
  simp only [credit]
  rw [Function.update_self, Account.credit, Int.sub_add_cancel,
    Function.update_idem]
  exact Function.update_eq_self _ _

theorem Nonneg.update (h : Nonneg accounts) {balance : Int}
    (hb : 0 ≤ balance) :
    Nonneg (Function.update accounts account ⟨balance⟩) := by
  intro a
  rw [Function.update_apply]
  split
  · exact hb
  · exact h a

theorem Nonneg.credit (h : Nonneg accounts)
    (hsum : 0 ≤ (accounts account).balance + amount) :
    Nonneg (credit accounts account amount) :=
  h.update hsum

theorem Nonneg.debit (h : Nonneg accounts) :
    Nonneg (debit accounts account amount).1 := by
  by_cases ha : amount ≤ (accounts account).balance
  · rw [debit_done ha]
    exact h.update (by omega)
  · rw [debit_refused (by omega)]
    exact h

end Accounts

/-! ## A command -/

section Commands

variable {cmd : Command A} {accounts : A → Account}

/-- A command throws before it changes a balance. -/
theorem execute_error {accounts' : A → Account} {cmd' : Command A}
    {e : Exception} (h : cmd.execute accounts = (accounts', cmd', .error e)) :
    accounts' = accounts := by
  obtain ⟨kind, account, amount, executed⟩ := cmd
  cases kind with
  | debitCommand =>
      by_cases ha : amount ≤ (accounts account).balance
      · simp [execute, debit_done ha] at h
      · simp [execute, debit_refused (Int.lt_of_not_ge ha)] at h
        exact h.1.symm
  | creditCommand => cases h

theorem undo_error {accounts' : A → Account} {e : Exception}
    (h : cmd.undo accounts = (accounts', .error e)) : accounts' = accounts := by
  obtain ⟨kind, account, amount, executed⟩ := cmd
  cases executed with
  | false => simp [undo] at h
  | true =>
      cases kind with
      | debitCommand => simp [undo] at h
      | creditCommand =>
          by_cases ha : amount ≤ (accounts account).balance
          · simp [undo, debit_done ha] at h
          · simp [undo, debit_refused (Int.lt_of_not_ge ha)] at h
            exact h.1.symm

/-- What a command did when it was executed, it takes back. Only a credit can
leave less than nothing. -/
theorem execute_ok (hnonneg : Nonneg accounts)
    (hcredit : cmd.kind = .creditCommand →
      0 ≤ (accounts cmd.account).balance + cmd.amount)
    {accounts' : A → Account} {cmd' : Command A}
    (h : cmd.execute accounts = (accounts', cmd', .ok ())) :
    Nonneg accounts' ∧ cmd'.amount = cmd.amount ∧
      undone cmd' accounts' = some accounts := by
  obtain ⟨kind, account, amount, executed⟩ := cmd
  cases kind with
  | debitCommand =>
      by_cases ha : amount ≤ (accounts account).balance
      · have hdone : (debit accounts account amount).2 = true := by
          rw [debit_done ha]
        simp only [execute, hdone] at h
        cases h
        refine ⟨hnonneg.debit, rfl, ?_⟩
        simp [undone, undo, credit_debit ha]
      · simp [execute, debit_refused (Int.lt_of_not_ge ha)] at h
  | creditCommand =>
      cases h
      refine ⟨hnonneg.credit (hcredit rfl), rfl, ?_⟩
      simp [undone, undo, debit_credit (hnonneg account)]

theorem undone_nonneg (hnonneg : Nonneg accounts) (hamount : 0 ≤ cmd.amount)
    {accounts' : A → Account} (h : undone cmd accounts = some accounts') :
    Nonneg accounts' := by
  obtain ⟨kind, account, amount, executed⟩ := cmd
  cases executed with
  | false =>
      cases h
      exact hnonneg
  | true =>
      cases kind with
      | debitCommand =>
          cases h
          have hbalance := hnonneg account
          exact hnonneg.credit (Int.add_nonneg hbalance hamount)
      | creditCommand =>
          have hdebit : Nonneg (debit accounts account amount).1 :=
            hnonneg.debit
          by_cases ha : amount ≤ (accounts account).balance
          · have hdone : (debit accounts account amount).2 = true := by
              rw [debit_done ha]
            simp [undone, undo, hdone] at h
            rw [← h]
            exact hdebit
          · simp [undone, undo, debit_refused (Int.lt_of_not_ge ha)] at h

end Commands

end LearningCpp.Command

namespace LearningCpp.AccountManager

open LearningCpp.Lib LearningCpp.Command

variable {A : Type*} [DecidableEq A]

/-- A rollback that throws pops nothing; one that returns undid the back. -/
theorem rollback_cons {m : AccountManager A} {cmd : Command A}
    {history : List (Command A)} (hm : m.history = cmd :: history)
    {accounts : A → Account} (h : undone cmd m.accounts = some accounts) :
    m.rollback = (⟨accounts, history⟩, .ok ()) := by
  unfold rollback
  rw [hm]
  unfold undone at h
  simp only []
  split at h
  · next hundo =>
      cases h
      rw [hundo]
  · cases h

/-- The commands of a run have amounts that are not negative. -/
def Op.Nonneg : Op A → Prop
  | .execute _ _ amount => 0 ≤ amount
  | .rollback => True

/-- The history unwinds to the opening balances. -/
structure Sound (opening : A → Account) (m : AccountManager A) : Prop where
  unwinds : Unwinds undone m.accounts m.history opening
  nonneg : Nonneg m.accounts
  amounts : ∀ cmd ∈ m.history, 0 ≤ cmd.amount

section Step

variable {opening : A → Account} {m : AccountManager A}

/-- All that a call can do: nothing, undo the latest command and pop it, or
execute a command and put it on top. -/
theorem step_cases (m : AccountManager A) (op : Op A) :
    (m.step op).1 = m ∨
      (∃ cmd history accounts, op = .rollback ∧ m.history = cmd :: history ∧
        undone cmd m.accounts = some accounts ∧
        m.step op = (⟨accounts, history⟩, .ok ())) ∨
      ∃ kind account amount accounts cmd,
        op = .execute kind account amount ∧
        Command.execute ⟨kind, account, amount, false⟩ m.accounts =
          (accounts, cmd, .ok ()) ∧
        m.step op = (⟨accounts, cmd :: m.history⟩, .ok ()) := by
  cases op with
  | rollback =>
      cases hm : m.history with
      | nil =>
          refine Or.inl ?_
          rw [step, AccountManager.rollback, hm]
      | cons cmd history =>
          cases hundone : undone cmd m.accounts with
          | some accounts =>
              exact Or.inr (Or.inl ⟨cmd, history, accounts, rfl, rfl, hundone,
                rollback_cons hm hundone⟩)
          | none =>
              refine Or.inl ?_
              unfold undone at hundone
              split at hundone
              · cases hundone
              · next accounts e hundo =>
                  simp only [step, AccountManager.rollback, hm, hundo,
                    undo_error hundo]
                  rw [← hm]
  | execute kind account amount =>
      rcases hrun : Command.execute ⟨kind, account, amount, false⟩
        m.accounts with ⟨accounts, cmd, e | u⟩
      · refine Or.inl ?_
        simp only [step, execute, hrun, execute_error hrun]
      · refine Or.inr (Or.inr ⟨kind, account, amount, accounts, cmd, rfl, hrun,
          ?_⟩)
        simp only [step, execute, hrun]

theorem Sound.rollback (h : Sound opening m) {cmd : Command A}
    {history : List (Command A)} (hm : m.history = cmd :: history) :
    ∃ accounts, undone cmd m.accounts = some accounts ∧
      m.rollback = (⟨accounts, history⟩, .ok ()) ∧
      Sound opening ⟨accounts, history⟩ := by
  have hunwinds := h.unwinds
  rw [hm] at hunwinds
  obtain ⟨accounts, hundone, hrest⟩ := hunwinds.head
  have hamounts := h.amounts
  rw [hm, List.forall_mem_cons] at hamounts
  exact ⟨accounts, hundone, rollback_cons hm hundone, hrest,
    undone_nonneg h.nonneg hamounts.1 hundone, hamounts.2⟩

/-- A call keeps the history sound, and is a change of the undo stack. -/
theorem Sound.step (h : Sound opening m) {op : Op A} (hop : op.Nonneg) :
    Sound opening (m.step op).1 ∧
      Changes undone (m.accounts, m.history)
        ((m.step op).1.accounts, (m.step op).1.history) := by
  rcases m.step_cases op with hsame |
    ⟨cmd, history, accounts, rfl, hm, hundone, hrun⟩ |
    ⟨kind, account, amount, accounts, cmd, rfl, hrun, hstep⟩
  · rw [hsame]
    exact ⟨h, .none⟩
  · obtain ⟨_, hundone', _, hsound⟩ := h.rollback hm
    rw [hundone] at hundone'
    cases hundone'
    rw [hrun, hm]
    exact ⟨hsound, .pop hundone⟩
  · have hop : 0 ≤ amount := hop
    have hbalance := h.nonneg account
    obtain ⟨hnonneg, hamount, hundone⟩ :=
      execute_ok h.nonneg (fun _ => Int.add_nonneg hbalance hop) hrun
    rw [hstep]
    refine ⟨⟨.cons hundone h.unwinds, hnonneg, ?_⟩, .push hundone⟩
    rw [List.forall_mem_cons, hamount]
    exact ⟨hop, h.amounts⟩

end Step

/-! ## Runs -/

section Runs

variable {opening : A → Account} {m : AccountManager A}

theorem Sound.run (h : Sound opening m) {ops : List (Op A)}
    (hops : ∀ op ∈ ops, op.Nonneg) :
    Sound opening (runState AccountManager.step m ops) := by
  refine runState_invariant (P := Sound opening) ?_ h hops
  intro m op hm hop
  exact (hm.step hop).1

/-- The history of `m` is still there after each of the calls. -/
def Kept (m : AccountManager A) (ops : List (Op A)) : Prop :=
  ∀ p, p <+: ops → m.history <:+ (runState step m p).history

theorem Kept.concat {ops : List (Op A)} {op : Op A} (h : Kept m ops)
    (hop : m.history <:+ (runState step m (ops ++ [op])).history) :
    Kept m (ops ++ [op]) := by
  intro p hp
  rcases List.prefix_concat_iff.1 hp with rfl | hp
  · exact hop
  · exact h p hp

/-- The call `Execute` makes of `m`, and the calls after it. Its command is the
latest the history holds in the end: it was never popped, and what came after
it was. -/
structure Matching (m : AccountManager A) (kind : Kind) (account : A)
    (amount : Int) (since : List (Op A)) : Prop where
  returned : (m.step (.execute kind account amount)).2 = .ok ()
  kept : Kept (m.step (.execute kind account amount)).1 since
  latest : (runState step (m.step (.execute kind account amount)).1
    since).history = (m.step (.execute kind account amount)).1.history

/-- One of the calls executed `cmd` on top of the commands `earlier`, and it has
not been popped since. -/
def ExecutedIn (m₀ : AccountManager A) (ops : List (Op A)) (cmd : Command A)
    (earlier : List (Command A)) : Prop :=
  ∃ before kind account amount since,
    ops = before ++ .execute kind account amount :: since ∧
    ((runState step m₀ before).step (.execute kind account amount)).2 =
      .ok () ∧
    Kept ((runState step m₀ before).step
      (.execute kind account amount)).1 since ∧
    ((runState step m₀ before).step
      (.execute kind account amount)).1.history = cmd :: earlier

theorem ExecutedIn.concat {m₀ : AccountManager A} {ops : List (Op A)}
    {op : Op A} {cmd : Command A} {earlier later : List (Command A)}
    (h : ExecutedIn m₀ ops cmd earlier)
    (hend : (runState step m₀ (ops ++ [op])).history =
      later ++ cmd :: earlier) : ExecutedIn m₀ (ops ++ [op]) cmd earlier := by
  obtain ⟨before, kind, account, amount, since, rfl, hok, hkept, hhist⟩ := h
  refine ⟨before, kind, account, amount, since ++ [op], ?_, hok, ?_, hhist⟩
  · rw [List.append_assoc, List.cons_append]
  · refine hkept.concat ?_
    have hrun : runState step ((runState step m₀ before).step
        (.execute kind account amount)).1 (since ++ [op]) =
        runState step m₀
          (before ++ .execute kind account amount :: since ++ [op]) := by
      rw [List.append_assoc, runState_append step m₀, List.cons_append,
        runState_cons]
    rw [hrun, hhist, hend]
    exact List.suffix_append _ _

end Runs

end LearningCpp.AccountManager
