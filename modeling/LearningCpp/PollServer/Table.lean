import LearningCpp.Lib.Table
import LearningCpp.PollServer.Model

/-!
# The table of descriptors is exact

The scan changes the table it goes through, but each turn changes it at one
place: an accepted connection is added at the end, and a closed one has the last
entry copied over it. So the table can be compared with the log turn by turn, in
the middle of a scan as well as between two of them. What is shown here of a
step is used where the step has a meaning.

The listening descriptor stays at the front because no connection has its
number, which is what an operating system promises of a descriptor it opens.
-/

namespace LearningCpp.PollServer

open LearningCpp.Lib

/-- `revents & (POLLIN | POLLHUP)`. -/
def Ready (revents : Short) : Prop := revents &&& (POLLIN ||| POLLHUP) ≠ 0

instance (revents : Short) : Decidable (Ready revents) :=
  inferInstanceAs (Decidable (_ ≠ _))

theorem Ready.pollhup {revents : Short} (h : Ready revents)
    (hin : revents &&& POLLIN = 0) : revents &&& POLLHUP ≠ 0 := by
  intro hhup
  refine h ?_
  rw [BitVec.and_or_distrib_left, hin, hhup]
  rfl

/-- The connections accepted and not yet closed. -/
def connections : List Event → List Int
  | [] => []
  | .accept connfd :: es => connfd :: connections es
  | .refuse connfd :: es => (connections es).erase connfd
  | .close fd :: es => (connections es).erase fd
  | _ :: es => connections es

/-- A call about the entry being served, or an access. -/
def Event.Serves (fd : Int) : Event → Prop
  | .recv fd' => fd' = fd
  | .send fd' => fd' = fd
  | .close fd' => fd' = fd
  | .pfds _ => True
  | .msg _ => True
  | .poll _ => False
  | .accept _ => False
  | .refuse _ => False

theorem connections_append {fd : Int} {es log : List Event}
    (hes : ∀ e ∈ es, e.Serves fd) (hclose : .close fd ∉ es) :
    connections (es ++ log) = connections log := by
  induction es with
  | nil => rfl
  | cons e es ih =>
      rw [List.forall_mem_cons] at hes
      rw [List.mem_cons, not_or] at hclose
      have hrest := ih hes.2 hclose.2
      cases e with
      | recv _ => exact hrest
      | send _ => exact hrest
      | pfds _ => exact hrest
      | msg _ => exact hrest
      | close fd' => exact absurd (congrArg _ hes.1.symm) hclose.1
      | poll _ => exact hes.1.elim
      | accept _ => exact hes.1.elim
      | refuse _ => exact hes.1.elim

namespace Server

variable {s : Server} {i : ℕ} {a : Answers}

/-- `pfds[1..pfd_count)`. -/
def clients (s : Server) : List Int :=
  entries (fun k => (s.pfds (k + 1)).fd) (s.pfdCount - 1)

/-- The entry whose turn it is. -/
def current (s : Server) : Option ℕ :=
  match s.control with
  | .poll => none
  | .scan i => if i < s.pfdCount then some i else none

theorem current_eq_some : s.current = some i ↔
    s.control = .scan i ∧ i < s.pfdCount := by
  unfold current
  cases s.control with
  | poll => simp
  | scan j =>
      by_cases h : j < s.pfdCount
      · simp only [if_pos h, Option.some.injEq, Control.scan.injEq]
        constructor
        · rintro rfl; exact ⟨rfl, h⟩
        · exact And.left
      · simp only [if_neg h, Control.scan.injEq]
        constructor
        · intro h'; cases h'
        · rintro ⟨rfl, h'⟩; exact absurd h' h

/-! ## What a turn does -/

/-- What the body of the scan does at a connection. -/
structure Served (s s' : Server) (i : ℕ) (es : List Event) : Prop where
  log : s'.log = es ++ s.log
  listenfd : s'.listenfd = s.listenfd
  serves : ∀ e ∈ es, e.Serves (s.pfds i).fd
  called : .recv (s.pfds i).fd ∈ es ∨ .close (s.pfds i).fd ∈ es

/-- The connection stays. -/
structure Kept (s s' : Server) (i : ℕ) (es : List Event) : Prop extends
    Served s s' i es where
  open_ : .close (s.pfds i).fd ∉ es
  pfds : s'.pfds = s.pfds
  pfdCount : s'.pfdCount = s.pfdCount

/-- The connection is closed. -/
structure Removed (s s' : Server) (i : ℕ) (es : List Event) : Prop extends
    Served s s' i es where
  closed : ∃ before, es = .pfds (s.pfdCount - 1) ::
    .close (s.pfds i).fd :: before ∧ .close (s.pfds i).fd ∉ before
  pfds : s'.pfds = Function.update s.pfds i (s.pfds (s.pfdCount - 1))
  pfdCount : s'.pfdCount = s.pfdCount - 1

theorem remove_removed (s : Server) (i : ℕ) (before : List Event)
    (hbefore : ∀ e ∈ before, e.Serves (s.pfds i).fd)
    (hclose : .close (s.pfds i).fd ∉ before) :
    Removed s (Server.remove { s with log := before ++ s.log } i) i
      (.pfds (s.pfdCount - 1) :: .close (s.pfds i).fd :: before) where
  log := rfl
  listenfd := rfl
  serves := by
    rw [List.forall_mem_cons, List.forall_mem_cons]
    exact ⟨trivial, rfl, hbefore⟩
  called := by simp
  closed := ⟨before, rfl, hclose⟩
  pfds := rfl
  pfdCount := rfl

/-- The body of the scan, case by case. -/
theorem serve_cases (s : Server) (i : ℕ) (a : Answers) :
    (¬ Ready (s.pfds i).revents ∧ s.serve i a = s.logging (.pfds i)) ∨
    (Ready (s.pfds i).revents ∧ (s.pfds i).fd = s.listenfd ∧
      s.serve i a = (s.logging (.pfds i)).acceptConnection a.accept) ∨
    (Ready (s.pfds i).revents ∧ (s.pfds i).fd ≠ s.listenfd ∧
      ∃ es, Kept s (s.serve i a) i es ∨ Removed s (s.serve i a) i es) := by
  by_cases hready : Ready (s.pfds i).revents
  · by_cases hfd : (s.pfds i).fd = s.listenfd
    · refine .inr (.inl ⟨hready, hfd, ?_⟩)
      exact (if_pos hready).trans (if_pos hfd)
    · refine .inr (.inr ⟨hready, hfd, ?_⟩)
      have hserve : s.serve i a =
          if (s.pfds i).revents &&& POLLIN ≠ 0 then
            (s.logging (.pfds i)).receive i a.recv
          else if (s.pfds i).revents &&& POLLHUP ≠ 0 then
            (s.logging (.pfds i)).remove i
          else s.logging (.pfds i) := (if_pos hready).trans (if_neg hfd)
      by_cases hin : (s.pfds i).revents &&& POLLIN ≠ 0
      · rw [hserve, if_pos hin]
        unfold receive
        by_cases herror : a.recv = -1
        · refine ⟨[.recv (s.pfds i).fd, .pfds i], .inl ?_⟩
          rw [if_pos herror]
          exact ⟨⟨rfl, rfl, by simp [Event.Serves], by simp⟩, by simp, rfl, rfl⟩
        · rw [if_neg herror]
          by_cases hzero : a.recv = 0
          · rw [if_pos hzero]
            exact ⟨_, .inr (remove_removed s i
              [.recv (s.pfds i).fd, .pfds i] (by simp [Event.Serves])
              (by simp))⟩
          · refine ⟨[.send (s.pfds i).fd, .msg a.recv, .recv (s.pfds i).fd,
              .pfds i], .inl ?_⟩
            rw [if_neg hzero]
            exact ⟨⟨rfl, rfl, by simp [Event.Serves], by simp⟩, by simp, rfl,
              rfl⟩
      · rw [hserve, if_neg hin, if_pos (hready.pollhup (not_not.1 hin))]
        exact ⟨_, .inr (remove_removed s i [.pfds i]
          (by simp [Event.Serves]) (by simp))⟩
  · exact .inl ⟨hready, if_neg hready⟩

theorem step_scan (h : s.current = some i) :
    s.step a = { s.serve i a with control := .scan (i + 1) } := by
  obtain ⟨hcontrol, hi⟩ := current_eq_some.1 h
  unfold step
  rw [hcontrol]
  exact if_pos hi

theorem step_poll (h : s.control = .poll) :
    s.step a = s ∨ ∃ revents, s.step a =
      { s.polled revents with control := .scan 0 } := by
  unfold step
  rw [h]
  cases a.poll with
  | none => exact .inl rfl
  | some revents => exact .inr ⟨revents, rfl⟩

/-- The end of a scan. -/
theorem step_done (hcontrol : s.control = .scan i) (hi : ¬ i < s.pfdCount) :
    s.step a = { s with control := .poll } := by
  unfold step
  rw [hcontrol]
  exact if_neg hi

/-- An accepted connection goes into the first entry not in use, of which it
leaves the `revents` as they are. -/
theorem acceptConnection_room (connfd : Int) (hcount : s.pfdCount ≤ 10) :
    s.acceptConnection connfd =
      { s with
        pfds := Function.update s.pfds s.pfdCount
          { s.pfds s.pfdCount with fd := connfd, events := POLLIN }
        pfdCount := s.pfdCount + 1
        log := .pfds s.pfdCount :: .accept connfd :: s.log } := by
  have hsize : s.pfdCount ≠ sizeofPfds := by
    unfold sizeofPfds
    omega
  exact if_neg hsize

theorem polled_log (s : Server) (revents : ℕ → Short) :
    (s.polled revents).log = .poll
      (entries (fun j => ((s.pfds j).fd, revents j)) s.pfdCount) :: s.log := by
  refine congrArg (.poll · :: s.log) (entries_congr ?_)
  intro j hj
  simp only [if_pos hj]

theorem accept_log (connfd : Int) : ∃ e,
    (s.acceptConnection connfd).log = [e, .accept connfd] ++ s.log ∧
      ∀ fd, .recv fd ≠ e ∧ .close fd ≠ e := by
  unfold acceptConnection
  simp only []
  split
  · exact ⟨.refuse connfd, rfl, by simp⟩
  · exact ⟨.pfds s.pfdCount, rfl, by simp⟩

/-- What a turn logs: it serves a connection, or calls neither `recv` nor
`close`. -/
theorem step_log (s : Server) (a : Answers) :
    ∃ es, (s.step a).log = es ++ s.log ∧
      (((∀ fd, .recv fd ∉ es ∧ .close fd ∉ es) ∧
          ∀ i, s.current = some i → Ready (s.pfds i).revents →
            (s.pfds i).fd = s.listenfd) ∨
        ∃ i, s.current = some i ∧ Ready (s.pfds i).revents ∧
          (s.pfds i).fd ≠ s.listenfd ∧
          (Kept s (s.serve i a) i es ∨ Removed s (s.serve i a) i es)) := by
  cases hcontrol : s.control with
  | poll =>
      have hnone : ∀ i, s.current ≠ some i := by
        intro i hi
        rw [(current_eq_some.1 hi).1] at hcontrol
        cases hcontrol
      rcases step_poll (a := a) hcontrol with hstep | ⟨revents, hstep⟩
      · refine ⟨[], ?_, .inl ⟨by simp, fun i hi => absurd hi (hnone i)⟩⟩
        rw [hstep, List.nil_append]
      · refine ⟨[.poll (entries (fun j => ((s.pfds j).fd, revents j))
          s.pfdCount)], ?_, .inl ⟨by simp, fun i hi => absurd hi (hnone i)⟩⟩
        rw [hstep]
        exact polled_log s revents
  | scan i =>
      by_cases hi : i < s.pfdCount
      · have hcurrent := current_eq_some.2 ⟨hcontrol, hi⟩
        rw [step_scan hcurrent]
        rcases serve_cases s i a with ⟨hidle, hserve⟩ | ⟨_, hfd, hserve⟩ |
          ⟨hready, hfd, es, hserved⟩
        · refine ⟨[.pfds i], congrArg Server.log hserve, .inl ⟨by simp, ?_⟩⟩
          intro j hj hready
          rw [hcurrent] at hj
          cases hj
          exact absurd hready hidle
        · obtain ⟨e, hlog, hquiet⟩ :=
            accept_log (s := s.logging (.pfds i)) a.accept
          refine ⟨[e, .accept a.accept, .pfds i], ?_, .inl ⟨?_, ?_⟩⟩
          · exact (congrArg Server.log hserve).trans hlog
          · intro fd
            simp [hquiet fd]
          · intro j hj _
            rw [hcurrent] at hj
            cases hj
            exact hfd
        · refine ⟨es, ?_, .inr ⟨i, hcurrent, hready, hfd, hserved⟩⟩
          rcases hserved with hkept | hremoved
          · exact hkept.log
          · exact hremoved.log
      · refine ⟨[], ?_, .inl ⟨by simp, ?_⟩⟩
        · rw [step_done hcontrol hi, List.nil_append]
        · intro j hj
          obtain ⟨hj, hlt⟩ := current_eq_some.1 hj
          rw [hcontrol] at hj
          cases hj
          exact absurd hlt hi

theorem serve_listenfd (s : Server) (i : ℕ) (a : Answers) :
    (s.serve i a).listenfd = s.listenfd := by
  rcases serve_cases s i a with ⟨_, hserve⟩ | ⟨_, _, hserve⟩ |
    ⟨_, _, es, hkept | hremoved⟩
  · rw [hserve]
    rfl
  · rw [hserve]
    unfold acceptConnection
    simp only []
    split
    · rfl
    · rfl
  · exact hkept.listenfd
  · exact hremoved.listenfd

theorem step_listenfd (s : Server) (a : Answers) :
    (s.step a).listenfd = s.listenfd := by
  cases hcontrol : s.control with
  | poll =>
      rcases step_poll (a := a) hcontrol with hstep | ⟨revents, hstep⟩
      · rw [hstep]
      · rw [hstep]
        rfl
  | scan i =>
      by_cases hi : i < s.pfdCount
      · rw [step_scan (current_eq_some.2 ⟨hcontrol, hi⟩)]
        exact serve_listenfd s i a
      · rw [step_done hcontrol hi]

theorem run_listenfd (s : Server) (answers : List Answers) :
    (run s answers).listenfd = s.listenfd := by
  induction answers generalizing s with
  | nil => rfl
  | cons a answers ih => exact (ih (s.step a)).trans (step_listenfd s a)

/-! ## The invariant -/

/-- The table holds the listening descriptor and, once each, the connections
there are. -/
structure Exact (s : Server) : Prop where
  pos : 0 < s.pfdCount
  listens : (s.pfds 0).fd = s.listenfd
  table : s.clients.Perm (connections s.log)
  distinct : (s.listenfd :: connections s.log).Nodup

/-- The turn accepts a connection. -/
def Accepts (s : Server) : Prop :=
  ∃ i ∈ s.current, Ready (s.pfds i).revents ∧ (s.pfds i).fd = s.listenfd

/-- What is asked of a turn that accepts: an entry is free, and the descriptor
is none of those open. -/
def AcceptsFresh (s : Server) (a : Answers) : Prop :=
  s.Accepts → s.pfdCount < 10 ∧ a.accept ≠ s.listenfd ∧
    a.accept ∉ connections s.log

instance (s : Server) : Decidable s.Accepts :=
  inferInstanceAs (Decidable (∃ i ∈ s.current, _ ∧ _))

instance (s : Server) (a : Answers) : Decidable (s.AcceptsFresh a) :=
  inferInstanceAs (Decidable (_ → _))

theorem clients_congr {s' : Server} (hcount : s'.pfdCount = s.pfdCount)
    (hfd : ∀ k, (s'.pfds k).fd = (s.pfds k).fd) : s'.clients = s.clients := by
  unfold clients
  rw [hcount]
  exact entries_congr (fun k _ => hfd (k + 1))

theorem Exact.congr {s' : Server} (h : Exact s)
    (hlisten : s'.listenfd = s.listenfd) (hcount : s'.pfdCount = s.pfdCount)
    (hfd : ∀ k, (s'.pfds k).fd = (s.pfds k).fd)
    (hlog : connections s'.log = connections s.log) : Exact s' where
  pos := hcount ▸ h.pos
  listens := by
    rw [hfd, hlisten]
    exact h.listens
  table := by
    rw [clients_congr hcount hfd, hlog]
    exact h.table
  distinct := by
    rw [hlisten, hlog]
    exact h.distinct

theorem fd_mem_clients (hi : i < s.pfdCount) (h0 : i ≠ 0) :
    (s.pfds i).fd ∈ s.clients := by
  obtain ⟨j, rfl⟩ := Nat.exists_eq_succ_of_ne_zero h0
  exact mem_entries.2 ⟨j, by omega, rfl⟩

theorem Exact.polled (h : Exact s) (revents : ℕ → Short) :
    Exact (s.polled revents) := by
  refine h.congr rfl rfl ?_ rfl
  intro k
  show (if k < s.pfdCount then { s.pfds k with revents := revents k }
    else s.pfds k).fd = (s.pfds k).fd
  split <;> rfl

theorem Exact.accept (h : Exact s) {connfd : Int} (hroom : s.pfdCount < 10)
    (hlisten : connfd ≠ s.listenfd) (hfresh : connfd ∉ connections s.log) :
    Exact (s.acceptConnection connfd) := by
  have hpos := h.pos
  rw [acceptConnection_room connfd hroom.le]
  refine ⟨Nat.succ_pos _, ?_, ?_, ?_⟩
  · show (Function.update s.pfds s.pfdCount _ 0).fd = s.listenfd
    rw [Function.update_of_ne (by omega)]
    exact h.listens
  · obtain ⟨n, hn⟩ := Nat.exists_eq_succ_of_ne_zero (Nat.ne_of_gt hpos)
    have hfds : (fun k => (Function.update s.pfds s.pfdCount
        { s.pfds s.pfdCount with fd := connfd, events := POLLIN }
        (k + 1)).fd) =
        Function.update (fun k => (s.pfds (k + 1)).fd) n connfd := by
      funext k
      rcases eq_or_ne k n with rfl | hk
      · rw [Function.update_self, hn, Function.update_self]
      · rw [Function.update_of_ne hk, Function.update_of_ne (by omega)]
    have hclients : s.clients = entries (fun k => (s.pfds (k + 1)).fd) n := by
      rw [clients, hn]
      rfl
    show (entries _ (s.pfdCount + 1 - 1)).Perm (connfd :: connections s.log)
    rw [hfds, hn]
    show (entries _ (n + 1)).Perm _
    rw [entries_push, ← hclients]
    exact (List.perm_append_singleton _ _).trans (h.table.cons _)
  · show (s.listenfd :: connfd :: connections s.log).Nodup
    have hdistinct := List.nodup_cons.1 h.distinct
    rw [List.nodup_cons, List.mem_cons, not_or, List.nodup_cons]
    exact ⟨⟨hlisten.symm, hdistinct.1⟩, hfresh, hdistinct.2⟩

theorem Exact.ne_zero (h : Exact s) (hfd : (s.pfds i).fd ≠ s.listenfd) :
    i ≠ 0 := by
  rintro rfl
  exact hfd h.listens

/-- A removal takes the descriptor it closes out of the table and no other. -/
theorem Removed.clients {s' : Server} {es : List Event}
    (h : Removed s s' i es) (hi : i < s.pfdCount) (h0 : i ≠ 0) :
    s'.clients.Perm (s.clients.erase (s.pfds i).fd) := by
  obtain ⟨j, rfl⟩ := Nat.exists_eq_succ_of_ne_zero h0
  obtain ⟨n, hn⟩ : ∃ n, s.pfdCount = n + 2 := ⟨s.pfdCount - 2, by omega⟩
  have hfds : (fun k => (s'.pfds (k + 1)).fd) =
      Function.update (fun k => (s.pfds (k + 1)).fd) j
        (s.pfds (n + 1)).fd := by
    funext k
    rw [h.pfds, hn]
    rcases eq_or_ne k j with rfl | hk
    · rw [Function.update_self, Function.update_self]
      rfl
    · rw [Function.update_of_ne hk, Function.update_of_ne (by omega)]
  have hafter : s'.clients = entries (Function.update
      (fun k => (s.pfds (k + 1)).fd) j (s.pfds (n + 1)).fd) n := by
    unfold Server.clients
    rw [hfds, h.pfdCount, hn]
    rfl
  have hbefore : s.clients =
      entries (fun k => (s.pfds (k + 1)).fd) (n + 1) := by
    rw [Server.clients, hn]
    rfl
  have hswap := swapRemove_perm (f := fun k => (s.pfds (k + 1)).fd)
    (by omega : j < n + 1)
  rw [hafter, hbefore]
  have herase := hswap.erase (s.pfds (j + 1)).fd
  rw [List.erase_cons_head] at herase
  exact herase

theorem Removed.connections {s' : Server} {es : List Event}
    (h : Removed s s' i es) : connections s'.log =
      (connections s.log).erase (s.pfds i).fd := by
  obtain ⟨before, rfl, hbefore⟩ := h.closed
  have hserves := h.serves
  rw [List.forall_mem_cons, List.forall_mem_cons] at hserves
  rw [h.log]
  show (PollServer.connections (before ++ s.log)).erase _ = _
  rw [connections_append hserves.2.2 hbefore]

theorem Exact.serve (h : Exact s) (hi : i < s.pfdCount)
    (haccept : Ready (s.pfds i).revents → (s.pfds i).fd = s.listenfd →
      s.pfdCount < 10 ∧ a.accept ≠ s.listenfd ∧
        a.accept ∉ connections s.log) : Exact (s.serve i a) := by
  rcases serve_cases s i a with ⟨_, hserve⟩ | ⟨hready, hfd, hserve⟩ |
    ⟨_, hfd, es, hkept | hremoved⟩
  · rw [hserve]
    exact h.congr rfl rfl (fun _ => rfl) rfl
  · obtain ⟨hroom, hlisten, hfresh⟩ := haccept hready hfd
    have hlogged : Exact (s.logging (.pfds i)) :=
      h.congr rfl rfl (fun _ => rfl) rfl
    rw [hserve]
    exact hlogged.accept hroom hlisten hfresh
  · refine h.congr hkept.listenfd hkept.pfdCount ?_ ?_
    · intro k
      rw [hkept.pfds]
    · rw [hkept.log]
      exact connections_append hkept.serves hkept.open_
  · have h0 := h.ne_zero hfd
    refine ⟨?_, ?_, ?_, ?_⟩
    · rw [hremoved.pfdCount]
      omega
    · rw [hremoved.pfds, Function.update_of_ne h0.symm, hremoved.listenfd]
      exact h.listens
    · rw [hremoved.connections]
      exact (hremoved.clients hi h0).trans (h.table.erase _)
    · rw [hremoved.connections, hremoved.listenfd]
      have hdistinct := List.nodup_cons.1 h.distinct
      refine List.nodup_cons.2 ⟨?_, hdistinct.2.erase _⟩
      intro hmem
      exact hdistinct.1 (List.mem_of_mem_erase hmem)

theorem Exact.step (h : Exact s) (haccept : s.AcceptsFresh a) :
    Exact (s.step a) := by
  cases hcontrol : s.control with
  | poll =>
      rcases step_poll (a := a) hcontrol with hstep | ⟨revents, hstep⟩
      · rw [hstep]
        exact h
      · rw [hstep]
        exact (h.polled revents).congr rfl rfl (fun _ => rfl) rfl
  | scan i =>
      by_cases hi : i < s.pfdCount
      · have hcurrent := current_eq_some.2 ⟨hcontrol, hi⟩
        have hserve : Exact (s.serve i a) := by
          refine h.serve hi ?_
          intro hready hfd
          exact haccept ⟨i, hcurrent, hready, hfd⟩
        rw [step_scan hcurrent]
        exact hserve.congr rfl rfl (fun _ => rfl) rfl
      · rw [step_done hcontrol hi]
        exact h.congr rfl rfl (fun _ => rfl) rfl

theorem start_exact (listenfd : Int) (memory : ℕ → Pollfd) :
    Exact (start listenfd memory) where
  pos := Nat.one_pos
  listens := by simp [start]
  table := .nil
  distinct := List.nodup_singleton _

theorem Exact.nodup_clients (h : Exact s) : s.clients.Nodup :=
  h.table.nodup_iff.2 (List.nodup_cons.1 h.distinct).2

/-- A turn that closes an entry's connection closes the one it serves. -/
theorem Exact.close (h : Exact s) {fd : Int} {es : List Event}
    (hlog : (s.step a).log = es ++ s.log) (hclose : .close fd ∈ es) :
    ∃ i ∈ s.current, fd = (s.pfds i).fd ∧ fd ∈ s.clients ∧
      (s.step a).clients.Perm (s.clients.erase fd) := by
  obtain ⟨es', hlog', ⟨hquiet, _⟩ |
    ⟨i, hcurrent, _, hfd, hserved⟩⟩ := step_log s a
  · obtain rfl := List.append_cancel_right (hlog'.symm.trans hlog)
    exact absurd hclose (hquiet fd).2
  · obtain rfl := List.append_cancel_right (hlog'.symm.trans hlog)
    obtain ⟨_, hi⟩ := current_eq_some.1 hcurrent
    have h0 := h.ne_zero hfd
    refine ⟨i, hcurrent, ?_⟩
    rw [step_scan hcurrent]
    rcases hserved with hkept | hremoved
    · have hserves : fd = (s.pfds i).fd := hkept.serves _ hclose
      rw [hserves] at hclose
      exact absurd hclose hkept.open_
    · obtain rfl : fd = (s.pfds i).fd := hremoved.serves _ hclose
      exact ⟨rfl, fd_mem_clients hi h0, hremoved.clients hi h0⟩

end Server

end LearningCpp.PollServer
