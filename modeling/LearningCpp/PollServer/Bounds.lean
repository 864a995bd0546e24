import LearningCpp.PollServer.Table

/-!
# The accesses to the two arrays

The capacity of the table is compared with `sizeof(pfds)`, which counts bytes
and not entries, so nothing stops the tenth connection from being written past
the end. The message is given its terminator at the index of its length, which
is past the end for a message that fills the buffer. These two are all: as long
as no turn comes to one of them the count stays at most ten, and every other
index is below the count.
-/

namespace LearningCpp.PollServer

open LearningCpp.Lib

namespace Server

variable {s : Server} {i : ℕ} {a : Answers}

/-- Serving entry `i` accepts a connection when all ten entries are in use, or
receives a message that fills the buffer. -/
def OverrunsAt (s : Server) (i : ℕ) (a : Answers) : Prop :=
  Ready (s.pfds i).revents ∧
    (((s.pfds i).fd = s.listenfd ∧ s.pfdCount = 10) ∨
      ((s.pfds i).fd ≠ s.listenfd ∧ (s.pfds i).revents &&& POLLIN ≠ 0 ∧
        a.recv = 1024))

/-- The turn does. -/
def Overruns (s : Server) (a : Answers) : Prop :=
  ∃ i ∈ s.current, s.OverrunsAt i a

instance (s : Server) (i : ℕ) (a : Answers) : Decidable (s.OverrunsAt i a) :=
  inferInstanceAs (Decidable (_ ∧ _))

instance (s : Server) (a : Answers) : Decidable (s.Overruns a) :=
  inferInstanceAs (Decidable (∃ i ∈ s.current, _))

theorem inBounds_logging {e : Event} :
    (s.logging e).InBounds ↔ e.InBounds ∧ s.InBounds := by
  show (∀ e' ∈ e :: s.log, e'.InBounds) ↔ _
  rw [List.forall_mem_cons]
  rfl

theorem inBounds_congr {s' : Server} (h : s'.log = s.log) :
    s'.InBounds ↔ s.InBounds := by
  unfold InBounds
  rw [h]

/-- The guard compares with a number of bytes the count is not near to. -/
theorem acceptConnection_bounds (connfd : Int) (hcount : s.pfdCount ≤ 10) :
    (s.acceptConnection connfd).InBounds ↔
      s.InBounds ∧ s.pfdCount ≠ 10 := by
  have hlog : (s.acceptConnection connfd).log =
      ((s.logging (.accept connfd)).logging (.pfds s.pfdCount)).log := by
    rw [acceptConnection_room connfd hcount]
    rfl
  rw [inBounds_congr hlog, inBounds_logging, inBounds_logging]
  show s.pfdCount < 10 ∧ True ∧ s.InBounds ↔ _
  rw [true_and, and_comm]
  exact and_congr_right (fun _ => by omega)

theorem remove_bounds (hi : i < s.pfdCount) (hcount : s.pfdCount ≤ 10) :
    (s.remove i).InBounds ↔ s.InBounds := by
  have hlog : (s.remove i).log =
      ((s.logging (.close (s.pfds i).fd)).logging
        (.pfds (s.pfdCount - 1))).log := rfl
  rw [inBounds_congr hlog, inBounds_logging, inBounds_logging]
  show s.pfdCount - 1 < 10 ∧ True ∧ s.InBounds ↔ _
  rw [true_and]
  exact and_iff_right (by omega)

theorem receive_bounds {rcvd : Int} (hlow : -1 ≤ rcvd) (hhigh : rcvd ≤ 1024)
    (hi : i < s.pfdCount) (hcount : s.pfdCount ≤ 10) :
    (s.receive i rcvd).InBounds ↔ s.InBounds ∧ rcvd ≠ 1024 := by
  have hrecv : (s.logging (.recv (s.pfds i).fd)).InBounds ↔ s.InBounds := by
    rw [inBounds_logging]
    exact and_iff_right trivial
  unfold receive
  by_cases herror : rcvd = -1
  · rw [if_pos herror, hrecv]
    exact (and_iff_left (by omega)).symm
  · rw [if_neg herror]
    by_cases hzero : rcvd = 0
    · rw [if_pos hzero]
      refine (remove_bounds (s := s.logging (.recv (s.pfds i).fd)) hi
        hcount).trans ?_
      rw [hrecv]
      exact (and_iff_left (by omega)).symm
    · rw [if_neg hzero]
      show (((s.logging (.recv (s.pfds i).fd)).logging (.msg rcvd)).logging
        (.send (s.pfds i).fd)).InBounds ↔ _
      rw [inBounds_logging, inBounds_logging, hrecv]
      show True ∧ (0 ≤ rcvd ∧ rcvd < 1024) ∧ s.InBounds ↔ _
      rw [true_and, and_comm]
      exact and_congr_right (fun _ => by omega)

theorem receive_count (s : Server) (i : ℕ) (rcvd : Int) :
    (s.receive i rcvd).pfdCount ≤ s.pfdCount := by
  unfold receive
  simp only []
  split
  · exact le_rfl
  · split
    · exact Nat.sub_le _ _
    · exact le_rfl

/-- What the body of the scan accesses, and how many entries it leaves. -/
theorem serve_bounds (hlow : -1 ≤ a.recv) (hhigh : a.recv ≤ 1024)
    (hi : i < s.pfdCount) (hcount : s.pfdCount ≤ 10) :
    ((s.serve i a).InBounds ↔ s.InBounds ∧ ¬ s.OverrunsAt i a) ∧
      (¬ s.OverrunsAt i a → (s.serve i a).pfdCount ≤ 10) := by
  have hat : (s.logging (.pfds i)).InBounds ↔ s.InBounds := by
    rw [inBounds_logging]
    exact and_iff_right (show i < 10 by omega)
  by_cases hready : Ready (s.pfds i).revents
  · by_cases hfd : (s.pfds i).fd = s.listenfd
    · have hserve : s.serve i a =
          (s.logging (.pfds i)).acceptConnection a.accept :=
        (if_pos hready).trans (if_pos hfd)
      have hover : s.OverrunsAt i a ↔ s.pfdCount = 10 := by
        unfold OverrunsAt
        simp only [hready, hfd, true_and, ne_eq, not_true_eq_false, false_and,
          or_false]
      rw [hserve, hover]
      constructor
      · rw [acceptConnection_bounds (s := s.logging (.pfds i)) _ hcount, hat]
        rfl
      · intro hroom
        rw [acceptConnection_room (s := s.logging (.pfds i)) _ hcount]
        show s.pfdCount + 1 ≤ 10
        omega
    · by_cases hin : (s.pfds i).revents &&& POLLIN ≠ 0
      · have hserve : s.serve i a =
            (s.logging (.pfds i)).receive i a.recv :=
          (if_pos hready).trans ((if_neg hfd).trans (if_pos hin))
        have hover : s.OverrunsAt i a ↔ a.recv = 1024 := by
          unfold OverrunsAt
          simp only [hready, hfd, hin, true_and, false_and, false_or, ne_eq,
            not_false_eq_true]
        rw [hserve, hover]
        constructor
        · rw [receive_bounds (s := s.logging (.pfds i)) hlow hhigh hi hcount,
            hat]
        · intro _
          exact (receive_count _ i a.recv).trans hcount
      · have hserve : s.serve i a = (s.logging (.pfds i)).remove i :=
          (if_pos hready).trans ((if_neg hfd).trans ((if_neg hin).trans
            (if_pos (hready.pollhup (not_not.1 hin)))))
        have hover : ¬ s.OverrunsAt i a := by
          rintro ⟨_, ⟨h, _⟩ | ⟨_, h, _⟩⟩
          · exact hfd h
          · exact hin h
        rw [hserve]
        constructor
        · rw [remove_bounds (s := s.logging (.pfds i)) hi hcount, hat,
            and_iff_left hover]
        · intro _
          exact (Nat.sub_le _ _).trans hcount
  · have hserve : s.serve i a = s.logging (.pfds i) := if_neg hready
    have hover : ¬ s.OverrunsAt i a := fun h => hready h.1
    rw [hserve, hat, and_iff_left hover]
    exact ⟨Iff.rfl, fun _ => hcount⟩

/-- A turn keeps the accesses in bounds exactly if it does not overrun. -/
theorem step_bounds (hlow : -1 ≤ a.recv) (hhigh : a.recv ≤ 1024)
    (hcount : s.pfdCount ≤ 10) :
    ((s.step a).InBounds ↔ s.InBounds ∧ ¬ s.Overruns a) ∧
      (¬ s.Overruns a → (s.step a).pfdCount ≤ 10) := by
  cases hcontrol : s.control with
  | poll =>
      have hover : ¬ s.Overruns a := by
        rintro ⟨i, hi, _⟩
        rw [(current_eq_some.1 hi).1] at hcontrol
        cases hcontrol
      rw [and_iff_left hover]
      rcases step_poll (a := a) hcontrol with hstep | ⟨revents, hstep⟩
      · rw [hstep]
        exact ⟨Iff.rfl, fun _ => hcount⟩
      · rw [hstep]
        refine ⟨?_, fun _ => hcount⟩
        have hlog : ∀ c, ({ s.polled revents with control := c }).log =
            (s.logging (.poll (entries
              (fun j => ((s.pfds j).fd, revents j)) s.pfdCount))).log :=
          fun _ => polled_log s revents
        rw [inBounds_congr (hlog _), inBounds_logging]
        refine and_iff_right ?_
        show (entries _ s.pfdCount).length ≤ 10
        rw [length_entries]
        exact hcount
  | scan i =>
      by_cases hi : i < s.pfdCount
      · have hcurrent := current_eq_some.2 ⟨hcontrol, hi⟩
        have hover : s.Overruns a ↔ s.OverrunsAt i a := by
          unfold Overruns
          rw [hcurrent]
          simp only [Option.mem_some_iff, exists_eq_left']
        rw [hover, step_scan hcurrent]
        exact serve_bounds hlow hhigh hi hcount
      · have hover : ¬ s.Overruns a := by
          rintro ⟨j, hj, _⟩
          obtain ⟨hj, hlt⟩ := current_eq_some.1 hj
          rw [hcontrol] at hj
          cases hj
          exact hi hlt
        rw [and_iff_left hover, step_done hcontrol hi]
        exact ⟨Iff.rfl, fun _ => hcount⟩

theorem InBounds.of_step (h : (s.step a).InBounds) : s.InBounds := by
  obtain ⟨es, hlog, _⟩ := step_log s a
  intro e he
  refine h e ?_
  rw [hlog]
  exact List.mem_append_right _ he

/-- What was out of bounds stays so. -/
theorem InBounds.of_run (answers : List Answers)
    (h : (run s answers).InBounds) : s.InBounds :=
  of_foldl (fun _ _ h => h.of_step) h

theorem run_bounds (answers : List Answers) :
    ∀ {s : Server}, (∀ a ∈ answers, -1 ≤ a.recv ∧ a.recv ≤ 1024) →
      s.pfdCount ≤ 10 →
      ((run s answers).InBounds ↔ s.InBounds ∧
        Along Server.step (fun s a => ¬ s.Overruns a) s answers) := by
  induction answers with
  | nil => intro s _ _; exact (and_iff_left trivial).symm
  | cons a answers ih =>
      intro s hrecv hcount
      rw [List.forall_mem_cons] at hrecv
      have hstep := step_bounds hrecv.1.1 hrecv.1.2 hcount
      by_cases hover : s.Overruns a
      · constructor
        · intro h
          exact absurd hover (hstep.1.1 (h.of_run answers)).2
        · intro h
          exact absurd hover h.2.1
      · have hrun := ih hrecv.2 (hstep.2 hover)
        rw [hstep.1, and_assoc] at hrun
        exact hrun

/-- The accesses of a run stay in bounds exactly if it never accepts a
connection with all ten entries in use and never receives a message that fills
the buffer. -/
theorem accesses_inBounds_iff {listenfd : Int} {memory : ℕ → Pollfd}
    {answers : List Answers}
    (hrecv : ∀ a ∈ answers, -1 ≤ a.recv ∧ a.recv ≤ 1024) :
    (run (start listenfd memory) answers).InBounds ↔
      Along step (fun s a => ¬ s.Overruns a) (start listenfd memory)
        answers := by
  have hstart : (start listenfd memory).pfdCount ≤ 10 := by
    show 1 ≤ 10
    omega
  rw [run_bounds answers hrecv hstart]
  refine and_iff_right ?_
  intro e he
  cases he

/-- Two clients connect, and the first leaves. -/
def twoClients : List Answers :=
  [⟨some (fun _ => POLLIN), 0, 0⟩, ⟨none, 4, 0⟩, ⟨none, 0, 0⟩, ⟨none, 0, 0⟩,
    ⟨some (fun j => if j = 0 then POLLIN else 0), 0, 0⟩, ⟨none, 5, 0⟩,
    ⟨none, 0, 0⟩, ⟨none, 0, 0⟩, ⟨none, 0, 0⟩,
    ⟨some (fun j => if j = 1 then POLLIN else 0), 0, 0⟩, ⟨none, 0, 0⟩,
    ⟨none, 0, 0⟩]

theorem accesses_inBounds_two :
    (run (start 3 (fun _ => ⟨0, 0, 0⟩)) twoClients).InBounds :=
  (accesses_inBounds_iff (by decide)).2 (by decide)

/-- `n` clients connect, one in each iteration, and send nothing. -/
def connecting : ℕ → List Answers
  | 0 => []
  | n + 1 => connecting n ++
      [⟨some (fun j => if j = 0 then POLLIN else 0), 0, 0⟩, ⟨none, 4 + n, 0⟩] ++
      List.replicate (n + 2) ⟨none, 0, 0⟩

/-- One client sends as much as the buffer holds; or ten clients connect. -/
theorem accesses_outOfBounds :
    ¬ (run (start 3 (fun _ => ⟨0, 0, 0⟩))
        (connecting 1 ++
          [⟨some (fun j => if j = 1 then POLLIN else 0), 0, 0⟩, ⟨none, 0, 0⟩,
            ⟨none, 0, 1024⟩])).InBounds ∧
      ¬ (run (start 3 (fun _ => ⟨0, 0, 0⟩)) (connecting 10)).InBounds := by
  decide +kernel

end Server

end LearningCpp.PollServer
