import LearningCpp.SelectServer.Bounds

/-!
# The select server and its clients

`beej/select.c` listens on port 8080 and `beej/client.c` connects to it. Here
they are put together: one server, any number of client processes, and between
them the connections, which the system keeps.

The system answers the calls. `Network.call` is what it may answer and what the
answer does to the connections: `recv` takes bytes from the front of what is on
its way, `accept` gives a number below the limit that is not in use to a client
that has connected. A step is one call of a client or one turn of the server
with all its calls, in any order, as long as the system may answer so. Nothing is
said about which descriptors `select` reports, how many bytes a call moves or
which call fails.
-/

namespace LearningCpp.EchoNetwork

open LearningCpp.SelectServer

/-! ## The client -/

/-- `char message[] = "Hi server!"`, with the zero that ends it. -/
def message : List UInt8 := [72, 105, 32, 115, 101, 114, 118, 101, 114, 33, 0]

/-- What `%s` prints of a buffer in which a zero follows these bytes. -/
def cString (msg : List UInt8) : List UInt8 := (msg ++ [0]).takeWhile (· ≠ 0)

/-- `sizeof(buf)`. -/
def sizeofBuf : ℕ := 1024

/-- The next call of a client; `left` after `close` or `exit(1)`. -/
inductive Phase where
  | connect
  | send
  | recv
  | close
  | left
deriving DecidableEq, Repr

/-- A process that runs `client.c`: how far it is, what `send` took of its
message, what `recv` put into the buffer, the element of the buffer written
afterwards and the message printed. -/
structure Client where
  phase : Phase
  sent : List UInt8
  rcvd : List UInt8
  buf : Option ℕ
  printed : Option (List UInt8)
deriving DecidableEq, Repr

namespace Client

def start : Client := ⟨.connect, [], [], none, none⟩

/-- `connect`, which may fail. -/
def connect (c : Client) (ok : Bool) : Client :=
  { c with phase := if ok then .send else .left }

/-- `send(sockfd, message, sizeof(message), 0)`. -/
def send (c : Client) : Option ℕ → Client
  | none => { c with phase := .left }
  | some sent => { c with phase := .recv, sent := message.take sent }

/-- `recv`, and what follows up to `shutdown`. -/
def recv (c : Client) : Option (List UInt8) → Client
  | none => { c with phase := .close }
  | some msg =>
      { c with
        phase := .close
        rcvd := msg
        buf := some msg.length
        printed := some (cString msg) }

/-- `shutdown` and `close`. -/
def close (c : Client) : Client := { c with phase := .left }

end Client

/-! ## The connections -/

/-- The processes and what the system keeps: the clients that wait to be
accepted, whose connection a descriptor of the server is, and the bytes on their
way. -/
structure Network (κ : Type*) where
  server : Server
  /-- Every descriptor of the server is below it. -/
  limit : ℕ
  client : κ → Client
  pending : List κ
  owner : Int → Option κ
  toServer : κ → List UInt8
  toClient : κ → List UInt8

/-- A call of a client and what it returns; or a turn of the server, what its
calls return and the client `accept` takes if it is called. -/
inductive Act (κ : Type*) where
  | connect (c : κ) (ok : Bool)
  | send (c : κ) (sent : Option ℕ)
  | recv (c : κ) (rcvd : Option (List UInt8))
  | close (c : κ)
  | turn (answers : Answers) (peer : Option κ)

namespace Network

variable {κ : Type*} [DecidableEq κ]

def start (listenfd : Int) (limit : ℕ) : Network κ where
  server := Server.start listenfd
  limit
  client := fun _ => Client.start
  pending := []
  owner := fun _ => none
  toServer := fun _ => []
  toClient := fun _ => []

/-- What the system does at a call of the server, if it may answer so. -/
def call (net : Network κ) (peer : Option κ) : Event → Option (Network κ)
  | .accept fd connfd =>
      match peer with
      | none => none
      | some c =>
          if c ∈ net.pending ∧ 0 ≤ connfd ∧ connfd < net.limit ∧
              connfd ≠ fd ∧ net.owner connfd = none then
            some { net with
              pending := net.pending.erase c
              owner := Function.update net.owner connfd (some c) }
          else none
  | .recv _ none => some net
  | .recv fd (some msg) =>
      match net.owner fd with
      | none => none
      | some c =>
          if msg <+: net.toServer c ∧ msg.length ≤ sizeofMsg then
            some { net with
              toServer := Function.update net.toServer c
                ((net.toServer c).drop msg.length) }
          else none
  | .send _ _ none => some net
  | .send fd msg (some sent) =>
      match net.owner fd with
      | none => none
      | some c =>
          if sent ≤ msg.length then
            some { net with
              toClient := Function.update net.toClient c
                (net.toClient c ++ msg.take sent) }
          else none
  | .close fd => some { net with owner := Function.update net.owner fd none }
  | .select _ _ _ => some net
  | .bit _ => some net
  | .msg _ => some net

/-- The calls of a turn, latest first. -/
def calls (net : Network κ) (peer : Option κ) :
    List Event → Option (Network κ)
  | [] => some net
  | e :: es => (net.calls peer es).bind (fun net => net.call peer e)

/-- The events one turn adds to the log. -/
def newEvents (s s' : Server) : List Event :=
  s'.log.take (s'.log.length - s.log.length)

def setClient (net : Network κ) (c : κ) (client : Client) : Network κ :=
  { net with client := Function.update net.client c client }

/-- One step. -/
def step (net : Network κ) : Act κ → Option (Network κ)
  | .connect c ok =>
      if (net.client c).phase = .connect then
        some { net.setClient c ((net.client c).connect ok) with
          pending := if ok then net.pending ++ [c] else net.pending }
      else none
  | .send c sent =>
      if (net.client c).phase = .send ∧ sent.getD 0 ≤ message.length then
        some { net.setClient c ((net.client c).send sent) with
          toServer := Function.update net.toServer c
            (net.toServer c ++ message.take (sent.getD 0)) }
      else none
  | .recv c none =>
      if (net.client c).phase = .recv then
        some (net.setClient c ((net.client c).recv none))
      else none
  | .recv c (some msg) =>
      if (net.client c).phase = .recv ∧ msg <+: net.toClient c ∧
          msg.length ≤ sizeofBuf then
        some { net.setClient c ((net.client c).recv (some msg)) with
          toClient := Function.update net.toClient c
            ((net.toClient c).drop msg.length) }
      else none
  | .close c =>
      if (net.client c).phase = .close then
        some (net.setClient c (net.client c).close)
      else none
  | .turn answers peer =>
      (net.calls peer (newEvents net.server (net.server.step answers))).map
        (fun net' => { net' with server := net.server.step answers })

/-- The steps of a run, if the system may answer so. -/
def run (net : Network κ) : List (Act κ) → Option (Network κ)
  | [] => some net
  | act :: acts => (net.step act).bind (fun net => net.run acts)

/-- What every step keeps holds wherever a run ends. -/
theorem run_invariant {P : Network κ → Prop}
    (hstep : ∀ {net net' : Network κ} {act : Act κ}, P net →
      net.step act = some net' → P net')
    {acts : List (Act κ)} : ∀ {net net' : Network κ}, P net →
      net.run acts = some net' → P net' := by
  induction acts with
  | nil =>
      intro net net' h hrun
      cases hrun
      exact h
  | cons act acts ih =>
      intro net net' h hrun
      obtain ⟨mid, hmid, hrest⟩ := Option.bind_eq_some_iff.1 hrun
      exact ih (hstep h hmid) hrest

theorem newEvents_eq {s s' : Server} {es : List Event}
    (h : s'.log = es ++ s.log) : newEvents s s' = es := by
  rw [newEvents, h, List.length_append, Nat.add_sub_cancel,
    List.take_left]

end Network

end LearningCpp.EchoNetwork
