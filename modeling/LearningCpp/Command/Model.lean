import LearningCpp.Lib.Run

/-!
# Commands on accounts

`get_cracked/design_patterns/command/main.cpp`. A command is told to an
`AccountManager`, which has it executed and keeps it in a history; `Rollback`
has the latest kept command undone.

A command holds a reference to its account, so the accounts live outside the
manager, one for each name in `A`. A balance is an integer: the program's `int`
as long as no sum leaves its range. A member that throws may have changed
something before, so every member answers with the state it leaves as well as
with what it returns or throws.
-/

namespace LearningCpp.Command

inductive Exception where
  | runtimeError (what : String)
deriving DecidableEq, Repr

/-- `Account`, of which nothing reads `name_`. -/
structure Account where
  balance : Int
deriving DecidableEq, Repr

def Account.debit (account : Account) (amount : Int) : Account × Bool :=
  if amount > account.balance then (account, false)
  else (⟨account.balance - amount⟩, true)

def Account.credit (account : Account) (amount : Int) : Account :=
  ⟨account.balance + amount⟩

def Account.getBalance (account : Account) : Int := account.balance

/-- The two classes that implement `Command`. -/
inductive Kind where
  | debitCommand
  | creditCommand
deriving DecidableEq, Repr

end LearningCpp.Command

namespace LearningCpp

open LearningCpp.Command

/-- An object of one of the two classes, with their fields. -/
structure Command (A : Type*) where
  kind : Kind
  account : A
  amount : Int
  executed : Bool
deriving DecidableEq, Repr

namespace Command

variable {A : Type*} [DecidableEq A]

/-- `account.Debit(amount)`, on one of the accounts. -/
def debit (accounts : A → Account) (account : A) (amount : Int) :
    (A → Account) × Bool :=
  let (after, done) := (accounts account).debit amount
  (Function.update accounts account after, done)

/-- `account.Credit(amount)`, on one of the accounts. -/
def credit (accounts : A → Account) (account : A) (amount : Int) :
    A → Account :=
  Function.update accounts account ((accounts account).credit amount)

/-- `DebitCommand::Execute` and `CreditCommand::Execute`. -/
def execute (cmd : Command A) (accounts : A → Account) :
    (A → Account) × Command A × Except Exception Unit :=
  match cmd.kind with
  | .debitCommand =>
      let (accounts, done) := debit accounts cmd.account cmd.amount
      if !done then
        (accounts, cmd, .error (.runtimeError "Insufficient funds"))
      else (accounts, { cmd with executed := true }, .ok ())
  | .creditCommand =>
      (credit accounts cmd.account cmd.amount,
        { cmd with executed := true }, .ok ())

/-- `DebitCommand::Undo` and `CreditCommand::Undo`. -/
def undo (cmd : Command A) (accounts : A → Account) :
    (A → Account) × Except Exception Unit :=
  if !cmd.executed then (accounts, .ok ())
  else
    match cmd.kind with
    | .debitCommand =>
        (credit accounts cmd.account cmd.amount, .ok ())
    | .creditCommand =>
        let (accounts, done) := debit accounts cmd.account cmd.amount
        if !done then
          (accounts, .error (.runtimeError "Insufficient funds"))
        else (accounts, .ok ())

end Command

/-- An `AccountManager` and the accounts its commands refer to. The back of
`history_` is the head of the list. -/
structure AccountManager (A : Type*) where
  accounts : A → Account
  history : List (Command A)

namespace AccountManager

variable {A : Type*} [DecidableEq A]

/-- `Execute`. The command is given away: one whose execution throws is
destroyed with the argument. -/
def execute (m : AccountManager A) (cmd : Command A) :
    AccountManager A × Except Exception Unit :=
  match cmd.execute m.accounts with
  | (accounts, _, .error e) => ({ m with accounts }, .error e)
  | (accounts, cmd, .ok ()) => (⟨accounts, cmd :: m.history⟩, .ok ())

def rollback (m : AccountManager A) :
    AccountManager A × Except Exception Unit :=
  match m.history with
  | [] => (m, .ok ())
  | cmd :: history =>
      match cmd.undo m.accounts with
      | (accounts, .error e) => ({ m with accounts }, .error e)
      | (accounts, .ok ()) => (⟨accounts, history⟩, .ok ())

/-- A call on the manager. The command executed is a new one, made by one of
the two constructors. -/
inductive Op (A : Type*) where
  | execute (kind : Kind) (account : A) (amount : Int)
  | rollback
deriving DecidableEq, Repr

def step (m : AccountManager A) : Op A →
    AccountManager A × Except Exception Unit
  | .execute kind account amount => m.execute ⟨kind, account, amount, false⟩
  | .rollback => m.rollback

end AccountManager

end LearningCpp
