import LearningCpp.Lib.Guarded

/-!
# The select server

`beej/select.c`, from the point where it listens. One thread keeps the
descriptors it watches in a set, hands a copy of the set to `select`, which
leaves in it those that can be read from, and goes through the numbers up to
the largest descriptor it has seen: it accepts, sends back what it received, or
closes.

As in the poll server a run is a list of answers of the operating system, one
for each turn of the two loops: a call of `select`, or the body of the scan at
one number. Here the bytes of the messages are part of it.

The calls made, the bits of a set and the elements of the buffer that are
accessed are logged, latest first. `select` looks at the numbers below its first
argument only, and what stands in the set above them stays there.

A turn logs an access outside a set or behind the buffer like any other: `step`
says what is accessed, up to the first such access. The program has no meaning
after one. It is `exec`, and results about its states are stated for the runs of
`exec`.
-/

namespace LearningCpp.SelectServer

open LearningCpp.Lib

/-- The bits an `fd_set` has. -/
def FD_SETSIZE : ℕ := 1024

/-- `sizeof(msg)`. -/
def sizeofMsg : ℕ := 1024

/-- An `fd_set`, as the descriptors whose bit is set. -/
abbrev FdSet := Finset Int

/-- A system call, with the descriptor it is about and what it returned, or an
access. `none` is `-1`. For `select` the set it was given and what it made of
it; for `send` how many bytes it took. -/
inductive Event where
  | select (nfds : Int) (given reported : FdSet)
  | accept (fd connfd : Int)
  | recv (fd : Int) (rcvd : Option (List UInt8))
  | send (fd : Int) (msg : List UInt8) (sent : Option ℕ)
  | close (fd : Int)
  /-- A bit of a set. -/
  | bit (fd : Int)
  | msg (j : ℕ)
deriving DecidableEq

/-- An access inside its array. -/
def Event.InBounds : Event → Prop
  | .bit fd => 0 ≤ fd ∧ fd < FD_SETSIZE
  | .msg j => j < sizeofMsg
  | _ => True

instance instDecidableInBounds : ∀ e : Event, Decidable e.InBounds
  | .bit fd => inferInstanceAs (Decidable (0 ≤ fd ∧ fd < FD_SETSIZE))
  | .msg j => inferInstanceAs (Decidable (j < sizeofMsg))
  | .select _ _ _ | .accept _ _ | .recv _ _ | .send _ _ _ | .close _ =>
      .isTrue trivial

/-- Where the thread is: about to copy the set and select, or about to test the
bound of the scan for `i`; or the process has ended. -/
inductive Control where
  | select
  | scan (i : Int)
  | exited
deriving DecidableEq, Repr

/-- The locals of `main`. -/
structure Server where
  listenfd : Int
  master : FdSet
  readfds : FdSet
  max : Int
  control : Control
  log : List Event

/-- What the calls of one turn answer, of which a turn uses those it makes. -/
structure Answers where
  select : Option FdSet
  accept : Int
  recv : Option (List UInt8)
  send : Option ℕ

namespace Server

def logging (s : Server) (e : Event) : Server := { s with log := e :: s.log }

/-- The start of the loop. -/
def start (listenfd : Int) : Server where
  listenfd
  master := {listenfd}
  readfds := ∅
  max := listenfd
  control := .select
  log := []

/-- What `select` makes of its copy of the set. -/
def reports (s : Server) (ready : FdSet) : FdSet :=
  s.master.filter (fun fd => fd < s.max + 1 → fd ∈ ready)

/-- The branch that accepts. What `accept` returned is not looked at. -/
def acceptConnection (s : Server) (connfd : Int) : Server :=
  let s := s.logging (.accept s.listenfd connfd)
  -- `FD_SET`: no result of `exec` if the set has no such bit.
  let s := s.logging (.bit connfd)
  { s with
    master := insert connfd s.master
    max := if connfd > s.max then connfd else s.max }

/-- The branch that receives, and sends back what it received. -/
def receive (s : Server) (i : Int) (a : Answers) : Server :=
  let s := s.logging (.recv i a.recv)
  match a.recv with
  | none => s
  | some [] =>
      let s := s.logging (.close i)
      let s := s.logging (.bit i)
      { s with master := s.master.erase i }
  | some (b :: bs) =>
      -- The terminator: no result of `exec` behind a full buffer.
      let s := s.logging (.msg (b :: bs).length)
      s.logging (.send i (b :: bs) a.send)

/-- The body of the scan. -/
def serve (s : Server) (i : Int) (a : Answers) : Server :=
  let s := s.logging (.bit i)
  if i ∈ s.readfds then
    if i = s.listenfd then s.acceptConnection a.accept else s.receive i a
  else s

/-- One turn. -/
def step (s : Server) (a : Answers) : Server :=
  match s.control with
  | .select =>
      match a.select with
      | none => { s with readfds := s.master, control := .exited }
      | some ready =>
          let reported := s.reports ready
          { s.logging (.select (s.max + 1) s.master reported) with
            readfds := reported, control := .scan 0 }
  | .scan i =>
      if i < s.max + 1 then { s.serve i a with control := .scan (i + 1) }
      else { s with control := .select }
  | .exited => s

/-- The turns of a run, with what they access. -/
def run (s : Server) (answers : List Answers) : Server := answers.foldl step s

/-- Every access so far was inside its array. -/
def InBounds (s : Server) : Prop := ∀ e ∈ s.log, e.InBounds

instance (s : Server) : Decidable s.InBounds :=
  inferInstanceAs (Decidable (∀ e ∈ s.log, e.InBounds))

/-- One turn of the program: after an access out of bounds there is no state. -/
def exec : Server → Answers → Option Server := guarded step InBounds

/-- A run of the program, which puts the listening descriptor into the set
before the loop. -/
def execute (listenfd : Int) (answers : List Answers) : Option Server :=
  if (Event.bit listenfd).InBounds then answers.foldlM exec (start listenfd)
  else none

/-! ## What a turn does -/

/-- A turn of the two loops: the events it logs, latest first, and the state it
leaves. -/
inductive Turn (s : Server) (a : Answers) : List Event → Server → Prop where
  | exited (hcontrol : s.control = .exited) : Turn s a [] s
  | failed (hcontrol : s.control = .select) (hselect : a.select = none) :
      Turn s a [] { s with readfds := s.master, control := .exited }
  | reported {ready : FdSet} (hcontrol : s.control = .select)
      (hselect : a.select = some ready) :
      Turn s a [.select (s.max + 1) s.master (s.reports ready)]
        { s with
          readfds := s.reports ready
          control := .scan 0
          log := .select (s.max + 1) s.master (s.reports ready) :: s.log }
  | idle {i : Int} (hcontrol : s.control = .scan i) (hi : i ≤ s.max)
      (hidle : i ∉ s.readfds) :
      Turn s a [.bit i]
        { s with control := .scan (i + 1), log := .bit i :: s.log }
  | accepted (hcontrol : s.control = .scan s.listenfd)
      (hi : s.listenfd ≤ s.max) (hready : s.listenfd ∈ s.readfds) :
      Turn s a [.bit a.accept, .accept s.listenfd a.accept, .bit s.listenfd]
        { s with
          master := insert a.accept s.master
          max := if a.accept > s.max then a.accept else s.max
          control := .scan (s.listenfd + 1)
          log := [.bit a.accept, .accept s.listenfd a.accept,
            .bit s.listenfd] ++ s.log }
  | recvFailed {i : Int} (hcontrol : s.control = .scan i) (hi : i ≤ s.max)
      (hready : i ∈ s.readfds) (hfd : i ≠ s.listenfd)
      (hrecv : a.recv = none) :
      Turn s a [.recv i none, .bit i]
        { s with
          control := .scan (i + 1)
          log := [.recv i none, .bit i] ++ s.log }
  | closed {i : Int} (hcontrol : s.control = .scan i) (hi : i ≤ s.max)
      (hready : i ∈ s.readfds) (hfd : i ≠ s.listenfd)
      (hrecv : a.recv = some []) :
      Turn s a [.bit i, .close i, .recv i (some []), .bit i]
        { s with
          master := s.master.erase i
          control := .scan (i + 1)
          log := [.bit i, .close i, .recv i (some []), .bit i] ++ s.log }
  | echoed {i : Int} {msg : List UInt8} (hcontrol : s.control = .scan i)
      (hi : i ≤ s.max) (hready : i ∈ s.readfds) (hfd : i ≠ s.listenfd)
      (hrecv : a.recv = some msg) (hmsg : msg ≠ []) :
      Turn s a [.send i msg a.send, .msg msg.length, .recv i (some msg),
          .bit i]
        { s with
          control := .scan (i + 1)
          log := [.send i msg a.send, .msg msg.length, .recv i (some msg),
            .bit i] ++ s.log }
  | done {i : Int} (hcontrol : s.control = .scan i) (hi : s.max < i) :
      Turn s a [] { s with control := .select }

/-- Every turn is one of these. -/
theorem step_turn (s : Server) (a : Answers) : ∃ es, Turn s a es (s.step a) := by
  cases hcontrol : s.control with
  | select =>
      unfold step
      rw [hcontrol]
      cases hselect : a.select with
      | none => exact ⟨_, .failed hcontrol hselect⟩
      | some ready => exact ⟨_, .reported hcontrol hselect⟩
  | exited =>
      unfold step
      rw [hcontrol]
      exact ⟨_, .exited hcontrol⟩
  | scan i =>
      unfold step
      rw [hcontrol]
      by_cases hi : i < s.max + 1
      · simp only [if_pos hi]
        have hle : i ≤ s.max := by omega
        by_cases hready : i ∈ s.readfds
        · by_cases hfd : i = s.listenfd
          · subst hfd
            have hserve : s.serve s.listenfd a =
                (s.logging (.bit s.listenfd)).acceptConnection a.accept :=
              (if_pos hready).trans (if_pos rfl)
            rw [hserve]
            exact ⟨_, .accepted hcontrol hle hready⟩
          · have hserve : s.serve i a = (s.logging (.bit i)).receive i a :=
              (if_pos hready).trans (if_neg hfd)
            rw [hserve]
            unfold receive
            match hrecv : a.recv with
            | none => exact ⟨_, .recvFailed hcontrol hle hready hfd hrecv⟩
            | some [] => exact ⟨_, .closed hcontrol hle hready hfd hrecv⟩
            | some (b :: bs) =>
                exact ⟨_, .echoed hcontrol hle hready hfd hrecv
                  (List.cons_ne_nil b bs)⟩
        · have hserve : s.serve i a = s.logging (.bit i) := if_neg hready
          rw [hserve]
          exact ⟨_, .idle hcontrol hle hready⟩
      · simp only [if_neg hi]
        exact ⟨_, .done hcontrol (by omega)⟩

theorem Turn.log {s s' : Server} {a : Answers} {es : List Event}
    (h : Turn s a es s') : s'.log = es ++ s.log := by
  cases h <;> rfl

theorem InBounds.of_step {s : Server} {a : Answers}
    (h : (s.step a).InBounds) : s.InBounds := by
  obtain ⟨es, hturn⟩ := step_turn s a
  intro e he
  refine h e ?_
  rw [hturn.log]
  exact List.mem_append_right es he

theorem execute_eq_some {listenfd : Int} {answers : List Answers} {s : Server}
    (h : execute listenfd answers = some s) :
    (Event.bit listenfd).InBounds ∧
      answers.foldlM exec (start listenfd) = some s := by
  unfold execute at h
  split at h
  · next hbit => exact ⟨hbit, h⟩
  · cases h

/-- The program gets through a run exactly if every access of it is inside its
array. -/
theorem execute_eq_some_iff {listenfd : Int} {answers : List Answers}
    {s : Server} :
    execute listenfd answers = some s ↔
      (Event.bit listenfd).InBounds ∧
        (run (start listenfd) answers).InBounds ∧
        run (start listenfd) answers = s := by
  have hturns : answers.foldlM exec (start listenfd) = some s ↔
      (run (start listenfd) answers).InBounds ∧
        run (start listenfd) answers = s :=
    guarded_run_iff (fun _ _ h => h.of_step) (fun _ he => by cases he)
  constructor
  · intro h
    obtain ⟨hbit, hrun⟩ := execute_eq_some h
    exact ⟨hbit, hturns.1 hrun⟩
  · rintro ⟨hbit, hrun⟩
    exact (if_pos hbit).trans (hturns.2 hrun)

theorem Turn.listenfd {s s' : Server} {a : Answers} {es : List Event}
    (h : Turn s a es s') : s'.listenfd = s.listenfd := by
  cases h <;> rfl

end Server

end LearningCpp.SelectServer
