import LearningCpp.Lib.Run
import LearningCpp.SelectServer.Echo
import LearningCpp.EchoNetwork.Model

/-!
# What the clients get

For each client the bytes it has received, then those on their way to it, then
those on their way to the server are what `send` took of its message: a turn of
the server moves bytes from the front of the last part to the end of the second,
and a call of the client those of the second to the first. Only a `send` of the
server that does not take all it is given loses some, and even then none of them
changes its place.

This is what the server's own files cannot say, that no message is longer than
eleven bytes, so that neither buffer is ever written behind its end. And the
descriptors the system hands out are not in use, as the results about the server
suppose.
-/

namespace LearningCpp.EchoNetwork

open LearningCpp.Lib LearningCpp.SelectServer

namespace Network

variable {κ : Type*} [DecidableEq κ] {net net' : Network κ} {c : κ}
  {peer : Option κ}

/-- Received, on the way to the client, on the way to the server. -/
def flow (net : Network κ) (c : κ) : List UInt8 :=
  (net.client c).rcvd ++ net.toClient c ++ net.toServer c

/-! ## What the system does -/

theorem call_accept {fd connfd : Int}
    (h : net.call peer (.accept fd connfd) = some net') :
    ∃ c ∈ net.pending, (0 ≤ connfd ∧ connfd < net.limit ∧ connfd ≠ fd ∧
        net.owner connfd = none) ∧
      net' = { net with
        pending := net.pending.erase c
        owner := Function.update net.owner connfd (some c) } := by
  unfold call at h
  match peer with
  | none => cases h
  | some c =>
      simp only [] at h
      split at h
      · next hallowed =>
          cases h
          exact ⟨c, hallowed.1, hallowed.2, rfl⟩
      · cases h

theorem call_recv {fd : Int} {m : List UInt8}
    (h : net.call peer (.recv fd (some m)) = some net') :
    ∃ c rest, net.owner fd = some c ∧ net.toServer c = m ++ rest ∧
      net' = { net with toServer := Function.update net.toServer c rest } := by
  unfold call at h
  match howner : net.owner fd with
  | none => simp [howner] at h
  | some c =>
      simp only [howner] at h
      split at h
      · next hallowed =>
          obtain ⟨⟨rest, hrest⟩, _⟩ := hallowed
          cases h
          refine ⟨c, rest, rfl, hrest.symm, ?_⟩
          rw [← hrest, List.drop_left]
      · cases h

theorem call_send {fd : Int} {m : List UInt8} {sent : Option ℕ}
    (h : net.call peer (.send fd m sent) = some net')
    (howner : net.owner fd = some c) :
    net' = { net with
      toClient := Function.update net.toClient c
        (net.toClient c ++ m.take (sent.getD 0)) } := by
  unfold call at h
  match sent with
  | none =>
      cases h
      simp
  | some sent =>
      simp only [howner] at h
      split at h
      · cases h
        rfl
      · cases h

/-- The system at one turn of the server, for the calls the turn makes. -/
theorem step_turn_eq {answers : Answers}
    (h : net.step (.turn answers peer) = some net') :
    ∃ es between, Server.Turn net.server answers es
        (net.server.step answers) ∧ net.calls peer es = some between ∧
      net' = { between with server := net.server.step answers } := by
  obtain ⟨es, hturn⟩ := Server.step_turn net.server answers
  obtain ⟨between, hcalls, rfl⟩ := Option.map_eq_some_iff.1 h
  rw [newEvents_eq hturn.log] at hcalls
  exact ⟨es, between, hturn, hcalls, rfl⟩

/-! ## The invariant -/

/-- What the system answers is in the range of this network. -/
def Answered (limit : ℕ) : Event → Prop
  | .accept _ connfd => 0 ≤ connfd ∧ connfd < limit
  | .recv _ (some m) => m.length ≤ message.length
  | _ => True

/-- A client, as far as its own calls tell. -/
structure ClientOk (c : Client) : Prop where
  sent : c.sent <+: message
  unsent : c.phase = .connect ∨ c.phase = .send → c.sent = []
  unrcvd : c.phase = .connect ∨ c.phase = .send ∨ c.phase = .recv →
    c.rcvd = []
  buf : ∀ j, c.buf = some j → j = c.rcvd.length
  printed : ∀ text, c.printed = some text → text = cString c.rcvd

/-- What every step keeps, of a server that listens on `listenfd`. -/
structure Inv (listenfd : Int) (limit : ℕ) (net : Network κ) : Prop where
  limit_eq : net.limit = limit
  server : ∃ answers, net.server = Server.run (.start listenfd) answers ∧
    Along Server.step Server.AcceptsFresh (.start listenfd) answers
  answered : ∀ e ∈ net.server.log, Answered limit e
  owned : ∀ fd, net.owner fd ≠ none ↔ fd ∈ connections net.server.log
  client : ∀ c, ClientOk (net.client c)
  ordered : ∀ c, (net.flow c).Sublist (net.client c).sent
  whole : (∀ e ∈ net.server.log, e.Whole) →
    ∀ c, net.flow c = (net.client c).sent

omit [DecidableEq κ] in
theorem start_inv (listenfd : Int) (limit : ℕ) :
    Inv listenfd limit (start listenfd limit : Network κ) where
  limit_eq := rfl
  server := ⟨[], rfl, trivial⟩
  answered := by intro e he; cases he
  owned := by intro fd; simp [start, Server.start, connections]
  client := by
    intro c
    exact ⟨List.nil_prefix, fun _ => rfl, fun _ => rfl, by simp [start,
      Client.start], by simp [start, Client.start]⟩
  ordered := fun _ => .slnil
  whole := fun _ _ => rfl

omit [DecidableEq κ] in
theorem Inv.toServer_le {listenfd : Int} {limit : ℕ}
    (h : Inv listenfd limit net) (c : κ) :
    (net.toServer c).length ≤ message.length :=
  ((List.sublist_append_right _ _).length_le.trans
    (h.ordered c).length_le).trans (h.client c).sent.length_le

omit [DecidableEq κ] in
theorem Inv.exact {listenfd : Int} {limit : ℕ} (h : Inv listenfd limit net)
    (hlisten : 0 ≤ listenfd) : Server.Exact net.server := by
  obtain ⟨answers, hrun, halong⟩ := h.server
  rw [hrun]
  exact (Server.run_inv hlisten halong).exact

/-! ## Steps of a client -/

omit [DecidableEq κ] in
/-- A step of a client leaves the server and its descriptors alone. -/
theorem Inv.client_step {listenfd : Int} {limit : ℕ}
    (h : Inv listenfd limit net) (hlimit : net'.limit = net.limit)
    (hserver : net'.server = net.server) (howner : net'.owner = net.owner)
    (hclient : ∀ c, ClientOk (net'.client c))
    (hflow : ∀ c, net'.flow c = net.flow c ∧
        (net'.client c).sent = (net.client c).sent ∨
      net'.flow c = (net'.client c).sent) :
    Inv listenfd limit net' where
  limit_eq := hlimit.trans h.limit_eq
  server := by rw [hserver]; exact h.server
  answered := by rw [hserver]; exact h.answered
  owned := by rw [hserver, howner]; exact h.owned
  client := hclient
  ordered := by
    intro c
    rcases hflow c with ⟨hflow, hsent⟩ | hflow
    · rw [hflow, hsent]
      exact h.ordered c
    · rw [hflow]
  whole := by
    intro hwhole c
    rw [hserver] at hwhole
    rcases hflow c with ⟨hflow, hsent⟩ | hflow
    · rw [hflow, hsent]
      exact h.whole hwhole c
    · exact hflow

omit [DecidableEq κ] in
/-- A client whose `send` is still to come has nothing on its way. -/
theorem Inv.flow_nil {listenfd : Int} {limit : ℕ} (h : Inv listenfd limit net)
    (hphase : (net.client c).phase = .send) :
    net.toClient c = [] ∧ net.toServer c = [] := by
  have hempty := h.ordered c
  rw [(h.client c).unsent (.inr hphase), List.sublist_nil] at hempty
  unfold flow at hempty
  rw [List.append_eq_nil_iff, List.append_eq_nil_iff] at hempty
  exact ⟨hempty.1.2, hempty.2⟩

/-- The clients and their connections after a step of `c`. -/
theorem forall_client {client' : Client} {P : κ → Client → Prop}
    (hself : P c client') (hother : ∀ d, d ≠ c → P d (net.client d)) :
    ∀ d, P d (Function.update net.client c client' d) := by
  intro d
  by_cases hd : d = c
  · subst hd
    rw [Function.update_self]
    exact hself
  · rw [Function.update_of_ne hd]
    exact hother d hd

theorem Inv.connect {listenfd : Int} {limit : ℕ} (h : Inv listenfd limit net)
    {ok : Bool} (hstep : net.step (.connect c ok) = some net') :
    Inv listenfd limit net' := by
  simp only [step] at hstep
  split at hstep
  · next hphase =>
      cases hstep
      have hok := h.client c
      refine h.client_step rfl rfl rfl ?_ ?_
      · refine forall_client (P := fun _ => ClientOk) ?_
          (fun d _ => h.client d)
        refine ⟨hok.sent, fun _ => hok.unsent (.inl hphase),
          fun _ => hok.unrcvd (.inl hphase), hok.buf, hok.printed⟩
      · intro d
        refine .inl ?_
        by_cases hd : d = c
        · subst hd
          simp [flow, setClient, Client.connect]
        · simp [flow, setClient, Function.update_of_ne hd]
  · cases hstep

theorem Inv.send {listenfd : Int} {limit : ℕ} (h : Inv listenfd limit net)
    {sent : Option ℕ} (hstep : net.step (.send c sent) = some net') :
    Inv listenfd limit net' := by
  simp only [step] at hstep
  split at hstep
  · next hphase =>
      cases hstep
      have hok := h.client c
      have hsent := hok.unsent (.inr hphase.1)
      have hrcvd := hok.unrcvd (.inr (.inl hphase.1))
      obtain ⟨htoClient, htoServer⟩ := h.flow_nil hphase.1
      refine h.client_step rfl rfl rfl ?_ ?_
      · refine forall_client (P := fun _ => ClientOk) ?_
          (fun d _ => h.client d)
        cases sent with
        | none =>
            exact ⟨hok.sent, by simp [Client.send], by simp [Client.send],
              hok.buf, hok.printed⟩
        | some sent =>
            exact ⟨List.take_prefix _ _, by simp [Client.send],
              fun _ => hrcvd, hok.buf, hok.printed⟩
      · intro d
        by_cases hd : d = c
        · subst hd
          refine .inr ?_
          cases sent with
          | none =>
              simp [flow, setClient, Client.send, hsent, hrcvd, htoClient,
                htoServer]
          | some sent =>
              simp [flow, setClient, Client.send, hrcvd, htoClient, htoServer]
        · refine .inl ?_
          simp [flow, setClient, Function.update_of_ne hd]
  · cases hstep

theorem Inv.recv {listenfd : Int} {limit : ℕ} (h : Inv listenfd limit net)
    {rcvd : Option (List UInt8)} (hstep : net.step (.recv c rcvd) = some net') :
    Inv listenfd limit net' := by
  have hok := h.client c
  match rcvd with
  | none =>
      simp only [step] at hstep
      split at hstep
      · cases hstep
        refine h.client_step rfl rfl rfl ?_ ?_
        · refine forall_client (P := fun _ => ClientOk) ?_
            (fun d _ => h.client d)
          exact ⟨hok.sent, by simp [Client.recv], by simp [Client.recv],
            hok.buf, hok.printed⟩
        · intro d
          refine .inl ?_
          by_cases hd : d = c
          · subst hd
            simp [flow, setClient, Client.recv]
          · simp [flow, setClient, Function.update_of_ne hd]
      · cases hstep
  | some m =>
      simp only [step] at hstep
      split at hstep
      · next hphase =>
          cases hstep
          obtain ⟨hphase, ⟨rest, hrest⟩, _⟩ := hphase
          have hrcvd := hok.unrcvd (.inr (.inr hphase))
          refine h.client_step rfl rfl rfl ?_ ?_
          · refine forall_client (P := fun _ => ClientOk) ?_
              (fun d _ => h.client d)
            refine ⟨hok.sent, by simp [Client.recv], by simp [Client.recv],
              ?_, ?_⟩
            · rintro j ⟨⟩
              rfl
            · rintro text ⟨⟩
              rfl
          · intro d
            refine .inl ?_
            by_cases hd : d = c
            · subst hd
              simp [flow, setClient, Client.recv, hrcvd, ← hrest]
            · simp [flow, setClient, Function.update_of_ne hd]
      · cases hstep

theorem Inv.close {listenfd : Int} {limit : ℕ} (h : Inv listenfd limit net)
    (hstep : net.step (.close c) = some net') : Inv listenfd limit net' := by
  simp only [step] at hstep
  split at hstep
  · cases hstep
    have hok := h.client c
    refine h.client_step rfl rfl rfl ?_ ?_
    · refine forall_client (P := fun _ => ClientOk) ?_ (fun d _ => h.client d)
      exact ⟨hok.sent, by simp [Client.close], by simp [Client.close],
        hok.buf, hok.printed⟩
    · intro d
      refine .inl ?_
      by_cases hd : d = c
      · subst hd
        simp [flow, setClient, Client.close]
      · simp [flow, setClient, Function.update_of_ne hd]
  · cases hstep

/-! ## Turns of the server -/

omit [DecidableEq κ] in
/-- What a turn needs of the system, whatever its calls are: the server goes
on with a run of its own. -/
theorem Inv.turn_of {listenfd : Int} {limit : ℕ} (h : Inv listenfd limit net)
    {answers : Answers} {es : List Event} {between : Network κ}
    {s' : Server} (hs' : net.server.step answers = s')
    (hturn : Server.Turn net.server answers es s')
    (hlimit : between.limit = net.limit)
    (hfresh : ∀ connfd, .accept net.server.listenfd connfd ∈ es →
      0 ≤ connfd ∧ connfd ≠ net.server.listenfd ∧
        connfd ∉ connections net.server.log)
    (hanswered : ∀ e ∈ es, Answered limit e)
    (howned : ∀ fd, between.owner fd ≠ none ↔
      fd ∈ connections s'.log)
    (hclient : between.client = net.client)
    (hflow : ∀ c, (between.flow c).Sublist (net.flow c))
    (hwhole : (∀ e ∈ es, e.Whole) → ∀ c, between.flow c = net.flow c) :
    Inv listenfd limit
      { between with server := s' } := by
  refine ⟨hlimit.trans h.limit_eq, ?_, ?_, howned, ?_, ?_, ?_⟩
  · obtain ⟨before, hrun, halong⟩ := h.server
    refine ⟨before ++ [answers], ?_, along_concat halong ?_⟩
    · show s' = _
      rw [← hs', hrun, Server.run, Server.run, List.foldl_append]
      rfl
    · have hlast : before.foldl Server.step (.start listenfd) = net.server :=
        hrun.symm
      rw [hlast]
      exact Server.acceptsFresh_of_turn hturn hfresh
  · intro e he
    rw [show ({ between with server := s' } :
      Network κ).server.log = es ++ net.server.log from hturn.log] at he
    rcases List.mem_append.1 he with hnew | hold
    · exact hanswered e hnew
    · exact h.answered e hold
  · show ∀ c, ClientOk (between.client c)
    rw [hclient]
    exact h.client
  · intro c
    show (between.flow c).Sublist (between.client c).sent
    rw [hclient]
    exact (hflow c).trans (h.ordered c)
  · intro hall c
    rw [show ({ between with server := s' } :
      Network κ).server.log = es ++ net.server.log from hturn.log,
      List.forall_mem_append] at hall
    show between.flow c = (between.client c).sent
    rw [hclient, hwhole hall.1 c]
    exact h.whole hall.2 c

omit [DecidableEq κ] in
/-- Turns that make no call the connections notice. -/
theorem Inv.turn_quiet {listenfd : Int} {limit : ℕ}
    (h : Inv listenfd limit net) {answers : Answers} {es : List Event}
    {s' : Server} (hs' : net.server.step answers = s')
    (hturn : Server.Turn net.server answers es s')
    (haccept : ∀ connfd, .accept net.server.listenfd connfd ∉ es)
    (hanswered : ∀ e ∈ es, Answered limit e)
    (hconnections : connections s'.log =
      connections net.server.log) :
    Inv listenfd limit { net with server := s' } := by
  refine h.turn_of hs' hturn rfl (fun connfd hmem => absurd hmem (haccept connfd))
    hanswered ?_ rfl (fun c => List.Sublist.refl _) (fun _ _ => rfl)
  rw [hconnections]
  exact h.owned

theorem Inv.accepted {listenfd : Int} {limit : ℕ} (h : Inv listenfd limit net)
    {answers : Answers} {fd connfd : Int} {between : Network κ}
    (hfd : fd = net.server.listenfd)
    {s' : Server} (hs' : net.server.step answers = s')
    (hturn : Server.Turn net.server answers
      [.bit connfd, .accept fd connfd, .bit fd] s')
    (hcall : net.call peer (.accept fd connfd) = some between) :
    Inv listenfd limit
      { between with server := s' } := by
  obtain ⟨c, _, ⟨hnonneg, hlt, hne, hfree⟩, rfl⟩ := call_accept hcall
  have hnew : connfd ∉ connections net.server.log := by
    rw [← h.owned connfd]
    exact not_not.2 hfree
  refine h.turn_of hs' hturn rfl ?_ ?_ ?_ rfl (fun c => List.Sublist.refl _)
    (fun _ _ => rfl)
  · intro connfd' hmem
    obtain rfl : connfd' = connfd := by simpa [hfd] using hmem
    exact ⟨hnonneg, hfd ▸ hne, hnew⟩
  · rw [h.limit_eq] at hlt
    simp [Answered, hnonneg, hlt]
  · intro fd'
    rw [hturn.log]
    show Function.update net.owner connfd (some c) fd' ≠ none ↔
      fd' ∈ connfd :: connections net.server.log
    rw [List.mem_cons, ← h.owned fd']
    by_cases heq : fd' = connfd
    · subst heq
      simp
    · rw [Function.update_of_ne heq]
      simp [heq]

theorem Inv.closed {listenfd : Int} {limit : ℕ} (h : Inv listenfd limit net)
    (hlisten : 0 ≤ listenfd) {answers : Answers} {fd : Int}
    {between : Network κ}
    {s' : Server} (hs' : net.server.step answers = s')
    (hturn : Server.Turn net.server answers
      [.bit fd, .close fd, .recv fd (some []), .bit fd] s')
    (hcalls : net.calls peer [.bit fd, .close fd, .recv fd (some []), .bit fd] =
      some between) :
    Inv listenfd limit
      { between with server := s' } := by
  obtain ⟨mid, hrecv, hclose⟩ := Option.bind_eq_some_iff.1
    (show (net.call peer (.recv fd (some []))).bind
      (fun net => net.call peer (.close fd)) = some between from by
        simpa [calls, call] using hcalls)
  obtain ⟨c, rest, _, hrest, rfl⟩ := call_recv hrecv
  have hsame : Function.update net.toServer c rest = net.toServer := by
    rw [show rest = net.toServer c from hrest.symm, Function.update_eq_self]
  cases hclose
  refine h.turn_of hs' hturn rfl (by simp) (by simp [Answered]) ?_ rfl ?_ ?_
  · intro fd'
    have hdistinct := (List.nodup_cons.1 (h.exact hlisten).distinct).2
    rw [hturn.log]
    show Function.update net.owner fd none fd' ≠ none ↔
      fd' ∈ (connections net.server.log).erase fd
    rw [hdistinct.mem_erase_iff, ← h.owned fd']
    by_cases heq : fd' = fd
    · subst heq
      simp
    · rw [Function.update_of_ne heq]
      simp [heq]
  · intro d
    show (_ ++ _ ++ Function.update net.toServer c rest d).Sublist (net.flow d)
    rw [hsame]
    exact List.Sublist.refl _
  · intro _ d
    show _ ++ _ ++ Function.update net.toServer c rest d = net.flow d
    rw [hsame]
    rfl

theorem Inv.echoed {listenfd : Int} {limit : ℕ} (h : Inv listenfd limit net)
    {answers : Answers} {fd : Int} {m : List UInt8} {sent : Option ℕ}
    {between : Network κ}
    {s' : Server} (hs' : net.server.step answers = s')
    (hturn : Server.Turn net.server answers
      [.send fd m sent, .msg m.length, .recv fd (some m), .bit fd] s')
    (hcalls : net.calls peer
      [.send fd m sent, .msg m.length, .recv fd (some m), .bit fd] =
      some between) :
    Inv listenfd limit
      { between with server := s' } := by
  obtain ⟨mid, hrecv, hsend⟩ := Option.bind_eq_some_iff.1
    (show (net.call peer (.recv fd (some m))).bind
      (fun net => net.call peer (.send fd m sent)) = some between from by
        simpa [calls, call] using hcalls)
  obtain ⟨c, rest, howner, hrest, rfl⟩ := call_recv hrecv
  obtain rfl := call_send hsend howner
  have hlen : m.length ≤ message.length := by
    have hle := h.toServer_le c
    rw [hrest, List.length_append] at hle
    omega
  refine h.turn_of hs' hturn rfl (by simp) ?_ ?_ rfl ?_ ?_
  · simp [Answered, hlen]
  · intro fd'
    rw [hturn.log]
    exact h.owned fd'
  · intro d
    by_cases hd : d = c
    · subst hd
      simp only [flow, Function.update_self, hrest, List.append_assoc]
      refine List.Sublist.append_left (List.Sublist.append_left ?_ _) _
      exact List.Sublist.append_right (List.take_sublist _ _) rest
    · simp only [flow, Function.update_of_ne hd]
      exact List.Sublist.refl _
  · intro hwhole d
    have hsent : sent = some m.length := hwhole _ List.mem_cons_self
    by_cases hd : d = c
    · subst hd
      simp [flow, hrest, hsent]
    · simp only [flow, Function.update_of_ne hd]

theorem Inv.turn {listenfd : Int} {limit : ℕ} (h : Inv listenfd limit net)
    (hlisten : 0 ≤ listenfd) {answers : Answers}
    (hstep : net.step (.turn answers peer) = some net') :
    Inv listenfd limit net' := by
  obtain ⟨es, between, hturn, hcalls, rfl⟩ := step_turn_eq hstep
  generalize hs' : net.server.step answers = s' at hturn
  have hmade := hturn
  cases hturn with
  | exited _ =>
      cases hcalls
      exact h.turn_quiet hs' hmade (by simp) (by simp) rfl
  | failed _ _ =>
      cases hcalls
      exact h.turn_quiet hs' hmade (by simp) (by simp) rfl
  | done _ _ =>
      cases hcalls
      exact h.turn_quiet hs' hmade (by simp) (by simp) rfl
  | reported _ _ =>
      cases hcalls
      exact h.turn_quiet hs' hmade (by simp) (by simp [Answered]) rfl
  | idle _ _ _ =>
      cases hcalls
      exact h.turn_quiet hs' hmade (by simp) (by simp [Answered]) rfl
  | recvFailed _ _ _ _ _ =>
      cases hcalls
      exact h.turn_quiet hs' hmade (by simp) (by simp [Answered]) rfl
  | accepted _ _ _ =>
      obtain ⟨mid, haccept, hbit⟩ := Option.bind_eq_some_iff.1 hcalls
      cases hbit
      exact h.accepted rfl hs' hmade haccept
  | closed _ _ _ _ _ => exact h.closed hlisten hs' hmade hcalls
  | echoed _ _ _ _ _ _ => exact h.echoed hs' hmade hcalls

theorem Inv.step {listenfd : Int} {limit : ℕ} (h : Inv listenfd limit net)
    (hlisten : 0 ≤ listenfd) {act : Act κ} (hstep : net.step act = some net') :
    Inv listenfd limit net' := by
  cases act with
  | connect c ok => exact h.connect hstep
  | send c sent => exact h.send hstep
  | recv c rcvd => exact h.recv hstep
  | close c => exact h.close hstep
  | turn answers peer => exact h.turn hlisten hstep

theorem run_inv {listenfd : Int} (hlisten : 0 ≤ listenfd) {limit : ℕ}
    {acts : List (Act κ)}
    (hrun : (start listenfd limit).run acts = some net) :
    Inv listenfd limit net :=
  run_invariant (fun h hstep => h.step hlisten hstep)
    (start_inv listenfd limit) hrun

/-! ## What a client prints -/

omit [DecidableEq κ] in
/-- Below the size of a set every descriptor has a bit, and the message of a
client is shorter than the buffer. -/
theorem Inv.inBounds {listenfd : Int} {limit : ℕ} (h : Inv listenfd limit net)
    (hlimit : limit ≤ FD_SETSIZE) (hlt : listenfd < limit) :
    net.server.InBounds := by
  obtain ⟨answers, hserver, _⟩ := h.server
  rw [hserver]
  refine (Server.inBounds_iff (by omega) answers).2 ?_
  rw [← hserver]
  constructor
  · intro fd connfd hmem
    have hrange : 0 ≤ connfd ∧ connfd < limit := h.answered _ hmem
    exact ⟨hrange.1, by omega⟩
  · intro fd m hmem
    have hlen : m.length ≤ message.length := h.answered _ hmem
    exact Nat.lt_of_le_of_lt hlen (by decide)

end Network

end LearningCpp.EchoNetwork
