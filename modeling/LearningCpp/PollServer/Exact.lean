import LearningCpp.PollServer.Bounds

/-!
# The table over a run of the program

The table is exact wherever a run of the program gets to, and what it gets to is
settled by the messages: with room for every connection, the one access out of
bounds is the terminator of a message that fills the buffer. A run has a table
to speak of exactly as long as no such message comes.
-/

namespace LearningCpp.PollServer

open LearningCpp.Lib

namespace Server

variable {s s' : Server} {a : Answers}

theorem exec_eq_some_iff :
    s.exec a = some s' ↔ (s.step a).InBounds ∧ s.step a = s' :=
  guarded_eq_some_iff

/-- What a run of the program keeps: the table is exact, and no access was out
of bounds. -/
structure Sound (s : Server) : Prop where
  exact : Exact s
  count : s.pfdCount ≤ 10
  inBounds : s.InBounds

theorem start_sound (listenfd : Int) (memory : ℕ → Pollfd) :
    Sound (start listenfd memory) where
  exact := start_exact listenfd memory
  count := (by omega : 1 ≤ 10)
  inBounds := fun e he => by cases he

/-- A turn of the program has a result exactly if it does not overrun. -/
theorem Sound.exec_iff (h : Sound s) (hlow : -1 ≤ a.recv)
    (hhigh : a.recv ≤ 1024) :
    s.exec a = some (s.step a) ↔ ¬ s.Overruns a := by
  rw [exec_eq_some_iff, and_iff_left rfl,
    (step_bounds hlow hhigh h.count).1, and_iff_right h.inBounds]

theorem Sound.step (h : Sound s) (hlow : -1 ≤ a.recv) (hhigh : a.recv ≤ 1024)
    (hfresh : s.AcceptsFresh a) (hover : ¬ s.Overruns a) :
    Sound (s.step a) := by
  have hbounds := step_bounds hlow hhigh h.count
  exact ⟨h.exact.step hfresh, hbounds.2 hover,
    hbounds.1.2 ⟨h.inBounds, hover⟩⟩

/-- The turn receives a message that fills the buffer. -/
def FillsMsg (s : Server) (a : Answers) : Prop :=
  ∃ i ∈ s.current, Ready (s.pfds i).revents ∧ (s.pfds i).fd ≠ s.listenfd ∧
    (s.pfds i).revents &&& POLLIN ≠ 0 ∧ a.recv = 1024

instance (s : Server) (a : Answers) : Decidable (s.FillsMsg a) :=
  inferInstanceAs (Decidable (∃ i ∈ s.current, _ ∧ _))

/-- With room for every connection, that is the one way to overrun. -/
theorem AcceptsFresh.overruns_iff (h : s.AcceptsFresh a) :
    s.Overruns a ↔ s.FillsMsg a := by
  constructor
  · rintro ⟨i, hi, hready, ⟨hfd, hfull⟩ | ⟨hfd, hin, hrecv⟩⟩
    · have hroom := (h ⟨i, hi, hready, hfd⟩).1
      omega
    · exact ⟨i, hi, hready, hfd, hin, hrecv⟩
  · rintro ⟨i, hi, hready, hfd, hin, hrecv⟩
    exact ⟨i, hi, hready, .inr ⟨hfd, hin, hrecv⟩⟩

/-- The first entry is the listening descriptor and the others are the
connections accepted and not yet closed, each once; and a turn that closes a
connection closes the one of the entry it serves, which is the one descriptor
the table loses. -/
structure TableExact (listenfd : Int) (s : Server) : Prop where
  listens : (s.pfds 0).fd = listenfd
  nodup : s.clients.Nodup
  mem : ∀ fd, fd ∈ s.clients ↔ fd ∈ connections s.log
  closes : ∀ a s' es fd, s.exec a = some s' → s'.log = es ++ s.log →
    .close fd ∈ es → ∃ i ∈ s.current, fd = (s.pfds i).fd ∧ fd ∈ s.clients ∧
      s'.clients.Perm (s.clients.erase fd)

theorem Exact.tableExact (h : Exact s) : TableExact s.listenfd s where
  listens := h.listens
  nodup := h.nodup_clients
  mem := fun _ => h.table.mem_iff
  closes := by
    intro a s' es fd hexec hlog hclose
    obtain ⟨-, rfl⟩ := exec_eq_some_iff.1 hexec
    exact h.close hlog hclose

/-- What is asked of the answers of a turn. -/
def Answered (s : Server) (a : Answers) : Prop :=
  s.AcceptsFresh a ∧ -1 ≤ a.recv ∧ a.recv ≤ 1024

theorem Sound.exec (h : Sound s) (ha : s.Answered a)
    (hexec : s.exec a = some s') : Sound s' := by
  obtain ⟨hfresh, hlow, hhigh⟩ := ha
  obtain ⟨-, rfl⟩ := exec_eq_some_iff.1 hexec
  exact h.step hlow hhigh hfresh ((h.exec_iff hlow hhigh).1 hexec)

theorem Sound.exec_defined_iff (h : Sound s) (ha : s.Answered a) :
    (∃ s', s.exec a = some s') ↔ ¬ s.FillsMsg a := by
  obtain ⟨hfresh, hlow, hhigh⟩ := ha
  rw [← hfresh.overruns_iff, ← h.exec_iff hlow hhigh]
  constructor
  · rintro ⟨s', hexec⟩
    obtain ⟨-, rfl⟩ := exec_eq_some_iff.1 hexec
    exact hexec
  · exact fun hexec => ⟨_, hexec⟩

/-- Where the answers are as asked, a run has a meaning exactly as long as no
message fills the buffer. -/
theorem Sound.execute_iff (h : Sound s) {answers : List Answers}
    (hanswers : AlongPartial Server.exec Answered s answers) :
    (∃ t, execute s answers = some t) ↔
      AlongPartial Server.exec (fun s a => ¬ s.FillsMsg a) s answers := by
  refine hanswers.defined_iff (I := Sound) ?_ ?_ h
  · intro s a s' hs ha hexec
    exact hs.exec ha hexec
  · intro s a hs ha
    exact hs.exec_defined_iff ha

/-- The table is exact at every turn, at the start of an iteration and in the
middle of a scan, exactly if no message fills the buffer: a run in which one
does has no table after it. -/
theorem table_exact_iff {listenfd : Int} {memory : ℕ → Pollfd}
    {answers : List Answers}
    (haccepts : AlongPartial exec AcceptsFresh (start listenfd memory) answers)
    (hrecv : ∀ a ∈ answers, -1 ≤ a.recv ∧ a.recv ≤ 1024) :
    (∀ before, before <+: answers →
        ∃ s ∈ execute (start listenfd memory) before,
          s.TableExact listenfd) ↔
      AlongPartial exec (fun s a => ¬ s.FillsMsg a) (start listenfd memory)
        answers := by
  have hstart := start_sound listenfd memory
  have hanswers : AlongPartial exec Answered (start listenfd memory) answers :=
    haccepts.and_forall hrecv
  constructor
  · intro h
    obtain ⟨s, hs, _⟩ := h answers List.prefix_rfl
    exact (hstart.execute_iff hanswers).1 ⟨s, hs⟩
  · rintro h before ⟨after, rfl⟩
    have hbefore := hanswers.of_append
    obtain ⟨s, hs⟩ := (hstart.execute_iff hbefore).2 h.of_append
    have hsound := hbefore.invariant
      (fun s a s' hs ha hexec => Sound.exec hs ha hexec) hstart hs
    have hlisten : s.listenfd = listenfd := by
      rw [← guarded_run hs]
      exact run_listenfd _ _
    refine ⟨s, hs, ?_⟩
    rw [← hlisten]
    exact hsound.exact.tableExact

theorem table_exact_iff_two :
    ∃ s ∈ execute (start 3 (fun _ => ⟨0, 0, 0⟩)) twoClients,
      s.TableExact 3 ∧ s.clients = [5] := by
  obtain ⟨s, hs, hclients⟩ :
      ∃ s ∈ execute (start 3 (fun _ => ⟨0, 0, 0⟩)) twoClients,
        s.clients = [5] := by decide
  obtain ⟨s', hs', hexact⟩ : ∃ s ∈ execute (start 3 (fun _ => ⟨0, 0, 0⟩))
      twoClients, s.TableExact 3 :=
    (table_exact_iff (by decide) (by decide)).2 (by decide) _ List.prefix_rfl
  obtain rfl : s' = s := Option.some.inj (hs'.symm.trans hs)
  exact ⟨s', hs, hexact, hclients⟩

/-- One client connects and sends as much as the buffer holds. -/
def fullMessage : List Answers :=
  connecting 1 ++
    [⟨some (fun j => if j = 1 then POLLIN else 0), 0, 0⟩, ⟨none, 0, 0⟩,
      ⟨none, 0, 1024⟩]

theorem table_lost :
    AlongPartial exec AcceptsFresh (start 3 (fun _ => ⟨0, 0, 0⟩))
        fullMessage ∧
      (∀ a ∈ fullMessage, -1 ≤ a.recv ∧ a.recv ≤ 1024) ∧
      ¬ ∀ before, before <+: fullMessage →
        ∃ s ∈ execute (start 3 (fun _ => ⟨0, 0, 0⟩)) before,
          s.TableExact 3 := by
  refine ⟨by decide, by decide, ?_⟩
  intro h
  obtain ⟨s, hs, _⟩ := h fullMessage List.prefix_rfl
  have hnone : execute (start 3 (fun _ => ⟨0, 0, 0⟩)) fullMessage = none :=
    Option.isNone_iff_eq_none.1 (by decide)
  rw [hnone] at hs
  cases hs

end Server

end LearningCpp.PollServer
