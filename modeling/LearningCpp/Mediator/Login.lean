import LearningCpp.Lib.Run

/-!
# The login dialog

`get_cracked/design_patterns/mediator/main.cpp`. Two text boxes and a button
know nothing of each other; each tells the dialog when something happens to it,
and the dialog enables the button when both boxes have a text. The components
here are wired already, so that one structure has the field of each.

`Notify` only ever sets `enabled_`. A field that is emptied after both were set
leaves the button enabled, and the next click logs in with it. A run that never
does this keeps the button exact, and no other run does.
-/

namespace LearningCpp.Mediator

open LearningCpp.Lib

/-- What the program prints. -/
inductive Line where
  /-- `LoginButton::ClicK() disabled` -/
  | disabled
  /-- `LoginDialog::Notify({})` -/
  | notify (event : String)
  /-- `Logged in user {}` -/
  | loggedIn (username : String)
deriving DecidableEq, Repr

/-- The components of a `LoginDialog`. -/
structure LoginDialog where
  username : String
  password : String
  enabled : Bool
deriving DecidableEq, Repr

namespace LoginDialog

/-- Components made with their default values. -/
def init : LoginDialog := ⟨"", "", false⟩

def notify (dialog : LoginDialog) (event : String) :
    LoginDialog × List Line :=
  if event = "username" ∨ event = "password" then
    if dialog.username = "" ∨ dialog.password = "" then
      (dialog, [.notify event])
    else ({ dialog with enabled := true }, [.notify event])
  else (dialog, [.notify event, .loggedIn dialog.username])

/-- `LoginButton::Click` -/
def click (dialog : LoginDialog) : LoginDialog × List Line :=
  if !dialog.enabled then (dialog, [.disabled]) else dialog.notify "click"

/-- `UsernameTextBox::SetText` -/
def setText (dialog : LoginDialog) (username : String) :
    LoginDialog × List Line :=
  { dialog with username }.notify "username"

/-- `PasswordTextBox::SetPassword` -/
def setPassword (dialog : LoginDialog) (password : String) :
    LoginDialog × List Line :=
  { dialog with password }.notify "password"

inductive Op where
  | setText (username : String)
  | setPassword (password : String)
  | click
deriving DecidableEq, Repr

def step (dialog : LoginDialog) : Op → LoginDialog × List Line
  | .setText username => dialog.setText username
  | .setPassword password => dialog.setPassword password
  | .click => dialog.click

/-- Both boxes have a text. -/
def Filled (dialog : LoginDialog) : Prop :=
  dialog.username ≠ "" ∧ dialog.password ≠ ""

/-- The button is enabled exactly when a login is possible. -/
def Exact (dialog : LoginDialog) : Prop :=
  dialog.enabled = true ↔ dialog.Filled

/-- A click now logs in. -/
def LogsIn (dialog : LoginDialog) : Prop :=
  ∃ username, .loggedIn username ∈ (dialog.step .click).2

/-- The call empties one of the boxes while both have a text. -/
def Clears (dialog : LoginDialog) (op : Op) : Prop :=
  dialog.Filled ∧ (op = .setText "" ∨ op = .setPassword "")

variable {dialog : LoginDialog}

theorem notify_texts (dialog : LoginDialog) (event : String) :
    (dialog.notify event).1.username = dialog.username ∧
      (dialog.notify event).1.password = dialog.password := by
  unfold notify
  split
  · split <;> simp
  · simp

/-- An edit enables the button and never disables it. -/
theorem notify_enabled {event : String}
    (hevent : event = "username" ∨ event = "password") :
    (dialog.notify event).1.enabled = true ↔
      dialog.enabled = true ∨ dialog.Filled := by
  unfold notify Filled
  rw [if_pos hevent]
  split
  · next hempty =>
      have hfilled : ¬ (dialog.username ≠ "" ∧ dialog.password ≠ "") := by
        simp only [ne_eq, ← not_or, not_not]
        exact hempty
      simp [hfilled]
  · next hempty =>
      have hfilled : dialog.username ≠ "" ∧ dialog.password ≠ "" :=
        not_or.1 hempty
      simp [hfilled]

theorem step_click : (dialog.step .click).1 = dialog := by
  show dialog.click.1 = dialog
  unfold click notify
  split <;> simp

theorem logsIn_iff : dialog.LogsIn ↔ dialog.enabled = true := by
  show (∃ username, Line.loggedIn username ∈ dialog.click.2) ↔ _
  unfold click notify
  cases dialog.enabled <;> simp

theorem step_setText (dialog : LoginDialog) (username : String) :
    ((dialog.step (.setText username)).1.Filled ↔
        username ≠ "" ∧ dialog.password ≠ "") ∧
      ((dialog.step (.setText username)).1.enabled = true ↔
        dialog.enabled = true ∨ username ≠ "" ∧ dialog.password ≠ "") := by
  obtain ⟨husername, hpassword⟩ :=
    notify_texts { dialog with username } "username"
  constructor
  · simp [step, setText, Filled, husername, hpassword]
  · exact notify_enabled (Or.inl rfl)

theorem step_setPassword (dialog : LoginDialog) (password : String) :
    ((dialog.step (.setPassword password)).1.Filled ↔
        dialog.username ≠ "" ∧ password ≠ "") ∧
      ((dialog.step (.setPassword password)).1.enabled = true ↔
        dialog.enabled = true ∨ dialog.username ≠ "" ∧ password ≠ "") := by
  obtain ⟨husername, hpassword⟩ :=
    notify_texts { dialog with password } "password"
  constructor
  · simp [step, setPassword, Filled, husername, hpassword]
  · exact notify_enabled (Or.inr rfl)

/-- An edit that enables the button when both boxes have a text keeps it exact
if they still have one wherever they had. -/
theorem exact_edit {after : LoginDialog} (h : dialog.Exact)
    (henabled : after.enabled = true ↔
      dialog.enabled = true ∨ after.Filled) :
    after.Exact ↔ (dialog.Filled → after.Filled) := by
  unfold Exact at h ⊢
  rw [henabled, h]
  exact or_iff_right_iff_imp

/-- A call keeps the button exact unless it empties one of two full boxes. -/
theorem step_exact (h : dialog.Exact) (op : Op) :
    (dialog.step op).1.Exact ↔ ¬ dialog.Clears op := by
  cases op with
  | click =>
      rw [step_click]
      exact iff_of_true h (by simp [Clears])
  | setText username =>
      obtain ⟨hfilled, henabled⟩ := step_setText dialog username
      rw [← hfilled] at henabled
      rw [exact_edit h henabled, hfilled]
      simp only [Clears, Op.setText.injEq, reduceCtorEq, or_false]
      constructor
      · intro hkept hclears
        exact (hkept hclears.1).1 hclears.2
      · intro hkeeps hboth
        exact ⟨fun hempty => hkeeps ⟨hboth, hempty⟩, hboth.2⟩
  | setPassword password =>
      obtain ⟨hfilled, henabled⟩ := step_setPassword dialog password
      rw [← hfilled] at henabled
      rw [exact_edit h henabled, hfilled]
      simp only [Clears, Op.setPassword.injEq, reduceCtorEq, false_or]
      constructor
      · intro hkept hclears
        exact (hkept hclears.1).2 hclears.2
      · intro hkeeps hboth
        exact ⟨hboth.1, fun hempty => hkeeps ⟨hboth, hempty⟩⟩

theorem init_exact : init.Exact := by simp [Exact, Filled, init]

/-- The button is exact after every call, and no click logs in without both
texts, if and only if no call empties a box while both have a text. -/
theorem login_exact_iff (ops : List Op) :
    ((∀ p, p <+: ops → (runState step init p).Exact) ∧
        ∀ p, p ++ [.click] <+: ops → (runState step init p).LogsIn →
          (runState step init p).Filled) ↔
      ∀ p op, p ++ [op] <+: ops → ¬ (runState step init p).Clears op := by
  have hruns : (∀ p, p <+: ops → (runState step init p).Exact) ↔
      ∀ p op, p ++ [op] <+: ops → ¬ (runState step init p).Clears op :=
    runState_prefixes_iff (I := fun _ => True) (P := Exact)
      (A := fun dialog op => ¬ dialog.Clears op) (fun _ _ _ => trivial)
      (fun _ op _ h => step_exact h op) trivial init_exact ops
  rw [← hruns, and_iff_left_iff_imp]
  intro hexact p hp hlogs
  exact (hexact p ((List.prefix_append _ _).trans hp)).1 (logsIn_iff.1 hlogs)

/-- Both boxes are set and the name is emptied: the click logs in without
one. -/
theorem login_cleared :
    ¬ (runState step init
        [.setText "a", .setPassword "b", .setText ""]).Exact ∧
      ((runState step init [.setText "a", .setPassword "b",
        .setText ""]).step .click).2 = [.notify "click", .loggedIn ""] := by
  have hrun : runState step init
      [.setText "a", .setPassword "b", .setText ""] = ⟨"", "b", true⟩ := by
    decide
  rw [hrun]
  exact ⟨by simp [Exact, Filled], by decide⟩

end LoginDialog

end LearningCpp.Mediator
