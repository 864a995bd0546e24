import LearningCpp.Lib.Guarded

/-!
# The poll server

`beej/poll.c`, from the point where it listens. One thread polls a table of
descriptors, the first of which is the listening one, and goes through the
table after every poll: it accepts, receives and sends back, or closes.

What the operating system answers is not in the file, so a run is a list of
answers, one for each turn of the two loops: a call of `poll`, or the body of
the scan at one entry. An entry whose connection is closed is overwritten by
the last one; the bound of the scan is the count, which moves as it goes.

The calls made and the array elements accessed are logged, latest first. A turn
logs an access past the end of an array like any other and does nothing else for
it: `step` says what is accessed, up to the first such access. The program has
no meaning after one. It is `exec`, and results about its states are stated for
the runs of `exec`.
-/

namespace LearningCpp.PollServer

open LearningCpp.Lib

/-- A `short`, as the event flags are. -/
abbrev Short := BitVec 16

def POLLIN : Short := 0x001#16

def POLLHUP : Short := 0x010#16

/-- `struct pollfd`. -/
structure Pollfd where
  fd : Int
  events : Short
  revents : Short
deriving DecidableEq, Repr

/-- `sizeof(pfds)`: ten entries of eight bytes. -/
def sizeofPfds : ℕ := 10 * 8

/-- A system call, with the descriptor it is about, or an access to an array.
For `poll` the descriptors it was given and what it wrote into `revents`. -/
inductive Event where
  | poll (reported : List (Int × Short))
  | accept (connfd : Int)
  /-- `close` of a connection just accepted, which no entry holds. -/
  | refuse (connfd : Int)
  | recv (fd : Int)
  | send (fd : Int)
  /-- `close` of a connection in the table. -/
  | close (fd : Int)
  | pfds (j : ℕ)
  | msg (j : Int)
deriving DecidableEq, Repr

/-- An access stays inside its array: `pfds` has ten entries and `msg` has
1024. `poll` accesses as many entries as it was given. -/
def Event.InBounds : Event → Prop
  | .poll reported => reported.length ≤ 10
  | .accept _ => True
  | .refuse _ => True
  | .recv _ => True
  | .send _ => True
  | .close _ => True
  | .pfds j => j < 10
  | .msg j => 0 ≤ j ∧ j < 1024

instance (e : Event) : Decidable e.InBounds := by
  cases e
  all_goals
    unfold Event.InBounds
    infer_instance

/-- Where the thread is: about to poll, or about to test the bound of the scan
for `i`. -/
inductive Control where
  | poll
  | scan (i : ℕ)
deriving DecidableEq, Repr

/-- The locals of `main`. -/
structure Server where
  listenfd : Int
  pfds : ℕ → Pollfd
  pfdCount : ℕ
  control : Control
  log : List Event

/-- What the calls of one turn answer, of which a turn uses those it makes.
`poll` is `none` for `-1` and else what is written into `revents`. What `send`
answers makes no difference. -/
structure Answers where
  poll : Option (ℕ → Short)
  accept : Int
  recv : Int

namespace Server

def logging (s : Server) (e : Event) : Server := { s with log := e :: s.log }

/-- The start of the loop, in whatever memory `pfds` was put. -/
def start (listenfd : Int) (memory : ℕ → Pollfd) : Server where
  listenfd
  pfds := Function.update memory 0
    { memory 0 with fd := listenfd, events := POLLIN }
  pfdCount := 1
  control := .poll
  log := []

/-- The branch that accepts. -/
def acceptConnection (s : Server) (connfd : Int) : Server :=
  let s := s.logging (.accept connfd)
  if s.pfdCount = sizeofPfds then s.logging (.refuse connfd)
  else
    -- Past the end, and so no result of `exec`, from ten entries on.
    let s := s.logging (.pfds s.pfdCount)
    { s with
      pfds := Function.update s.pfds s.pfdCount
        { s.pfds s.pfdCount with fd := connfd, events := POLLIN }
      pfdCount := s.pfdCount + 1 }

/-- `close(pfds[i].fd); pfds[i] = pfds[pfd_count-1]; --pfd_count`. -/
def remove (s : Server) (i : ℕ) : Server :=
  let s := s.logging (.close (s.pfds i).fd)
  let s := s.logging (.pfds (s.pfdCount - 1))
  { s with
    pfds := Function.update s.pfds i (s.pfds (s.pfdCount - 1))
    pfdCount := s.pfdCount - 1 }

/-- The branch that receives, for what `recv` returned. -/
def receive (s : Server) (i : ℕ) (rcvd : Int) : Server :=
  let s := s.logging (.recv (s.pfds i).fd)
  if rcvd = -1 then s
  else if rcvd = 0 then s.remove i
  else
    -- The terminator: past the end, and so no result of `exec`, at 1024.
    let s := s.logging (.msg rcvd)
    s.logging (.send (s.pfds i).fd)

/-- The body of the scan. -/
def serve (s : Server) (i : ℕ) (a : Answers) : Server :=
  let s := s.logging (.pfds i)
  if (s.pfds i).revents &&& (POLLIN ||| POLLHUP) ≠ 0 then
    if (s.pfds i).fd = s.listenfd then s.acceptConnection a.accept
    else if (s.pfds i).revents &&& POLLIN ≠ 0 then s.receive i a.recv
    else if (s.pfds i).revents &&& POLLHUP ≠ 0 then s.remove i
    else s
  else s

/-- `poll` has returned and written into the entries it was given. -/
def polled (s : Server) (revents : ℕ → Short) : Server :=
  let s := { s with
    pfds := fun j =>
      if j < s.pfdCount then { s.pfds j with revents := revents j }
      else s.pfds j }
  s.logging (.poll ((List.range s.pfdCount).map
    (fun j => ((s.pfds j).fd, (s.pfds j).revents))))

/-- One turn. -/
def step (s : Server) (a : Answers) : Server :=
  match s.control with
  | .poll =>
      match a.poll with
      | none => s
      | some revents => { s.polled revents with control := .scan 0 }
  | .scan i =>
      if i < s.pfdCount then { s.serve i a with control := .scan (i + 1) }
      else { s with control := .poll }

/-- The turns of a run, with what they access. -/
def run (s : Server) (answers : List Answers) : Server := answers.foldl step s

/-- Every access so far was in bounds. -/
def InBounds (s : Server) : Prop := ∀ e ∈ s.log, e.InBounds

instance (s : Server) : Decidable s.InBounds :=
  inferInstanceAs (Decidable (∀ e ∈ s.log, e.InBounds))

/-- One turn of the program: after an access out of bounds there is no state. -/
def exec : Server → Answers → Option Server := guarded step InBounds

/-- A run of the program. -/
def execute (s : Server) (answers : List Answers) : Option Server :=
  answers.foldlM exec s

end Server

end LearningCpp.PollServer
