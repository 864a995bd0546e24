import LearningCpp.PollServer.Exact

/-!
# What the scan serves

The scan trusts the `revents` of every entry below the count. `poll` wrote those
it was given; an entry added by the scan itself still has what was left in its
place. So the server acts on what `poll` reported exactly as long as no such
left-over makes it serve a connection that has only just been accepted.

That the entries `poll` did write are served with what it wrote there needs the
removals looked at: they copy an entry over one the scan is done with, and so
change none it still has to come to.

All this is about runs that have a meaning, so the condition also keeps the
accesses in bounds.
-/

namespace LearningCpp.PollServer

open LearningCpp.Lib

/-- What the latest `poll` reported. -/
def lastReport : List Event → List (Int × Short)
  | [] => []
  | .poll reported :: _ => reported
  | _ :: es => lastReport es

/-- The latest `poll` reported the descriptor as ready. -/
def ReportedReady (es : List Event) (fd : Int) : Prop :=
  ∃ p ∈ lastReport es, p.1 = fd ∧ Ready p.2

/-- Every `recv`, and every `close` of a connection in the table, is on a
descriptor the latest `poll` before it reported as ready. -/
def ServesReady : List Event → Prop
  | [] => True
  | .recv fd :: es => ReportedReady es fd ∧ ServesReady es
  | .close fd :: es => ReportedReady es fd ∧ ServesReady es
  | _ :: es => ServesReady es

instance (es : List Event) (fd : Int) : Decidable (ReportedReady es fd) :=
  inferInstanceAs (Decidable (∃ p ∈ lastReport es, _ ∧ _))

instance instDecidableServesReady :
    (es : List Event) → Decidable (ServesReady es)
  | [] => inferInstanceAs (Decidable True)
  | e :: es =>
      have : Decidable (ServesReady es) := instDecidableServesReady es
      match e with
      | .recv _ => inferInstanceAs (Decidable (_ ∧ _))
      | .close _ => inferInstanceAs (Decidable (_ ∧ _))
      | .poll _ => inferInstanceAs (Decidable (ServesReady es))
      | .accept _ => inferInstanceAs (Decidable (ServesReady es))
      | .refuse _ => inferInstanceAs (Decidable (ServesReady es))
      | .send _ => inferInstanceAs (Decidable (ServesReady es))
      | .pfds _ => inferInstanceAs (Decidable (ServesReady es))
      | .msg _ => inferInstanceAs (Decidable (ServesReady es))

theorem lastReport_append {fd : Int} {es log : List Event}
    (hes : ∀ e ∈ es, e.Serves fd) :
    lastReport (es ++ log) = lastReport log := by
  induction es with
  | nil => rfl
  | cons e es ih =>
      rw [List.forall_mem_cons] at hes
      have hrest := ih hes.2
      cases e with
      | recv _ => exact hrest
      | send _ => exact hrest
      | close _ => exact hrest
      | pfds _ => exact hrest
      | msg _ => exact hrest
      | poll _ => exact hes.1.elim
      | accept _ => exact hes.1.elim
      | refuse _ => exact hes.1.elim

theorem servesReady_quiet {es log : List Event}
    (hes : ∀ fd, .recv fd ∉ es ∧ .close fd ∉ es) :
    ServesReady (es ++ log) ↔ ServesReady log := by
  induction es with
  | nil => rfl
  | cons e es ih =>
      have hrest := ih (fun fd => ⟨fun h => (hes fd).1 (.tail _ h),
        fun h => (hes fd).2 (.tail _ h)⟩)
      cases e with
      | recv fd => exact absurd List.mem_cons_self (hes fd).1
      | close fd => exact absurd List.mem_cons_self (hes fd).2
      | send _ => exact hrest
      | pfds _ => exact hrest
      | msg _ => exact hrest
      | poll _ => exact hrest
      | accept _ => exact hrest
      | refuse _ => exact hrest

/-- Serving a connection is right if it was reported. -/
theorem servesReady_append {fd : Int} {es log : List Event}
    (hes : ∀ e ∈ es, e.Serves fd) :
    ServesReady (es ++ log) ↔ ServesReady log ∧
      (.recv fd ∈ es ∨ .close fd ∈ es → ReportedReady log fd) := by
  induction es with
  | nil => simp
  | cons e es ih =>
      rw [List.forall_mem_cons] at hes
      have hrest := ih hes.2
      have hreport : lastReport (es ++ log) = lastReport log :=
        lastReport_append hes.2
      cases e with
      | recv fd' =>
          obtain rfl : fd' = fd := hes.1
          show ReportedReady (es ++ log) fd' ∧ ServesReady (es ++ log) ↔ _
          rw [ReportedReady, hreport, hrest]
          simp only [List.mem_cons, true_or, forall_const]
          constructor
          · rintro ⟨hnow, hlog, _⟩
            exact ⟨hlog, hnow⟩
          · rintro ⟨hlog, hnow⟩
            exact ⟨hnow, hlog, fun _ => hnow⟩
      | close fd' =>
          obtain rfl : fd' = fd := hes.1
          show ReportedReady (es ++ log) fd' ∧ ServesReady (es ++ log) ↔ _
          rw [ReportedReady, hreport, hrest]
          simp only [List.mem_cons, true_or, or_true, forall_const]
          constructor
          · rintro ⟨hnow, hlog, _⟩
            exact ⟨hlog, hnow⟩
          · rintro ⟨hlog, hnow⟩
            exact ⟨hnow, hlog, fun _ => hnow⟩
      | send _ => simpa [ServesReady] using hrest
      | pfds _ => simpa [ServesReady] using hrest
      | msg _ => simpa [ServesReady] using hrest
      | poll _ => exact hes.1.elim
      | accept _ => exact hes.1.elim
      | refuse _ => exact hes.1.elim

namespace Server

variable {s s' : Server} {i : ℕ} {a : Answers}

/-- The scan has come to an entry the last `poll` was not given, and what was
left in its `revents` has `POLLIN` or `POLLHUP`. -/
def ReachesStale (s : Server) : Prop :=
  ∃ i ∈ s.current, (lastReport s.log).length ≤ i ∧ Ready (s.pfds i).revents

instance (s : Server) : Decidable s.ReachesStale :=
  inferInstanceAs (Decidable (∃ i ∈ s.current, _ ∧ _))

/-- What the scan for `i` finds from there on: the entries `poll` wrote are as it
wrote them, and the others hold no descriptor it was given. -/
structure Scanning (s : Server) (i : ℕ) : Prop where
  written : ∀ k, i ≤ k → k < s.pfdCount →
    ∀ hk : k < (lastReport s.log).length,
    (lastReport s.log)[k] = ((s.pfds k).fd, (s.pfds k).revents)
  added : ∀ k, (lastReport s.log).length ≤ k → k < s.pfdCount →
    ∀ p ∈ lastReport s.log, p.1 ≠ (s.pfds k).fd
  first : i = 0 → lastReport s.log =
    entries (fun k => ((s.pfds k).fd, (s.pfds k).revents)) s.pfdCount

/-- The table is exact, and in a scan the report fits it. -/
structure Consistent (s : Server) : Prop where
  exact : Exact s
  scanning : ∀ i, s.control = .scan i → Scanning s i

theorem Scanning.polled (s : Server) (revents : ℕ → Short) :
    Scanning (s.polled revents) 0 := by
  have hreport : lastReport (s.polled revents).log = entries (fun k =>
      (((s.polled revents).pfds k).fd, ((s.polled revents).pfds k).revents))
      s.pfdCount := rfl
  refine ⟨?_, ?_, fun _ => hreport⟩
  · intro k _ _ hk
    simp only [hreport, getElem_entries]
  · intro k hk hlt
    rw [hreport, length_entries] at hk
    exact absurd hlt (Nat.not_lt.2 hk)

theorem Scanning.next (h : Scanning s i)
    (hreport : lastReport s'.log = lastReport s.log)
    (hcount : s'.pfdCount = s.pfdCount) (hpfds : s'.pfds = s.pfds) :
    Scanning s' (i + 1) := by
  refine ⟨?_, ?_, by omega⟩
  · rw [hreport, hcount, hpfds]
    intro k hi hk hlt
    exact h.written k (by omega) hk hlt
  · rw [hreport, hcount, hpfds]
    exact h.added

/-- Only the listening descriptor is accepted from, and that is in front. -/
theorem Exact.eq_zero (h : Exact s) (hi : i < s.pfdCount)
    (hfd : (s.pfds i).fd = s.listenfd) : i = 0 := by
  by_contra h0
  have hmem := h.table.mem_iff.1 (fd_mem_clients hi h0)
  rw [hfd] at hmem
  exact (List.nodup_cons.1 h.distinct).1 hmem

theorem Scanning.accept {connfd : Int} (h : Scanning s 0) (hexact : Exact s)
    (hroom : s.pfdCount < 10) (hlisten : connfd ≠ s.listenfd)
    (hfresh : connfd ∉ connections s.log) :
    Scanning (s.acceptConnection connfd) 1 := by
  rw [acceptConnection_room connfd hroom.le]
  have hreport := h.first rfl
  have hlength : (lastReport s.log).length = s.pfdCount := by
    rw [hreport, length_entries]
  refine ⟨?_, ?_, by omega⟩
  · intro k _ _ hlt
    have hlt : k < (lastReport s.log).length := hlt
    have hk := h.written k (by omega) (by omega) hlt
    show (lastReport s.log)[k] =
      ((Function.update s.pfds s.pfdCount _ k).fd,
        (Function.update s.pfds s.pfdCount _ k).revents)
    rw [Function.update_of_ne (by omega)]
    exact hk
  · intro k hle hk p hp
    have hle : (lastReport s.log).length ≤ k := hle
    have hk : k < s.pfdCount + 1 := hk
    obtain rfl : k = s.pfdCount := by omega
    have hp : p ∈ lastReport s.log := hp
    rw [hreport] at hp
    obtain ⟨j, hj, rfl⟩ := mem_entries.1 hp
    show (s.pfds j).fd ≠ (Function.update s.pfds s.pfdCount _ s.pfdCount).fd
    rw [Function.update_self]
    show (s.pfds j).fd ≠ connfd
    rintro rfl
    by_cases h0 : j = 0
    · rw [h0] at hlisten
      exact hlisten hexact.listens
    · exact hfresh (hexact.table.mem_iff.1 (fd_mem_clients hj h0))

theorem Scanning.removed {es : List Event} (h : Scanning s i)
    (hi : i < s.pfdCount) (hs : Removed s s' i es) : Scanning s' (i + 1) := by
  have hreport : lastReport s'.log = lastReport s.log := by
    rw [hs.log, lastReport_append hs.serves]
  refine ⟨?_, ?_, by omega⟩
  · rw [hs.pfdCount, hs.pfds, hreport]
    intro k hik hk hlt
    rw [Function.update_of_ne (by omega)]
    exact h.written k (by omega) (by omega) hlt
  · rw [hs.pfdCount, hs.pfds, hreport]
    intro k hle hk p hp
    rcases eq_or_ne k i with rfl | hne
    · rw [Function.update_self]
      exact h.added _ (by omega) (by omega) p hp
    · rw [Function.update_of_ne hne]
      exact h.added k hle (by omega) p hp

theorem Consistent.step (h : Consistent s) (haccept : s.AcceptsFresh a) :
    Consistent (s.step a) := by
  refine ⟨h.exact.step haccept, ?_⟩
  cases hcontrol : s.control with
  | poll =>
      rcases step_poll (a := a) hcontrol with hstep | ⟨revents, hstep⟩
      · rw [hstep, hcontrol]
        intro i hi
        cases hi
      · rw [hstep]
        intro i hi
        cases hi
        have hpolled := Scanning.polled s revents
        exact ⟨hpolled.written, hpolled.added, hpolled.first⟩
  | scan j =>
      by_cases hj : j < s.pfdCount
      · have hcurrent := current_eq_some.2 ⟨hcontrol, hj⟩
        have hscan := h.scanning j hcontrol
        have hnext : Scanning (s.serve j a) (j + 1) := by
          rcases serve_cases s j a with ⟨_, hserve⟩ | ⟨hready, hfd, hserve⟩ |
            ⟨_, _, es, hkept | hremoved⟩
          · rw [hserve]
            exact hscan.next rfl rfl rfl
          · obtain rfl := h.exact.eq_zero hj hfd
            obtain ⟨hroom, hlisten, hfresh⟩ :=
              haccept ⟨0, hcurrent, hready, hfd⟩
            have hlogged : Exact (s.logging (.pfds 0)) :=
              h.exact.congr rfl rfl (fun _ => rfl) rfl
            have hscan : Scanning (s.logging (.pfds 0)) 0 :=
              ⟨hscan.written, hscan.added, hscan.first⟩
            rw [hserve]
            exact hscan.accept hlogged hroom hlisten hfresh
          · refine hscan.next ?_ hkept.pfdCount hkept.pfds
            rw [hkept.log, lastReport_append hkept.serves]
          · exact hscan.removed hj hremoved
        rw [step_scan hcurrent]
        intro i hi
        cases hi
        exact ⟨hnext.written, hnext.added, hnext.first⟩
      · rw [step_done hcontrol hj]
        intro i hi
        cases hi

/-- An entry the scan comes to was reported if `poll` was given it, and only
then. -/
theorem Scanning.reportedReady (h : Scanning s i) (hi : i < s.pfdCount)
    (hready : Ready (s.pfds i).revents) :
    ReportedReady s.log (s.pfds i).fd ↔ i < (lastReport s.log).length := by
  constructor
  · rintro ⟨p, hp, hfd, _⟩
    by_contra hlt
    exact h.added i (Nat.not_lt.1 hlt) hi p hp hfd
  · intro hlt
    have hwritten := h.written i (Nat.le_refl i) hi hlt
    refine ⟨_, List.getElem_mem hlt, ?_, ?_⟩
    · rw [hwritten]
    · rw [hwritten]
      exact hready

/-- A turn serves what was reported if it does not reach a left-over. -/
theorem Consistent.servesReady_step (h : Consistent s) (a : Answers) :
    ServesReady (s.step a).log ↔ ServesReady s.log ∧ ¬ s.ReachesStale := by
  obtain ⟨es, hlog, ⟨hquiet, hlisten⟩ |
    ⟨i, hcurrent, hready, hfd, hserved⟩⟩ := step_log s a
  · have hfresh : ¬ s.ReachesStale := by
      rintro ⟨i, hi, hle, hready⟩
      obtain ⟨hcontrol, hlt⟩ := current_eq_some.1 hi
      obtain rfl := h.exact.eq_zero hlt (hlisten i hi hready)
      rw [(h.scanning 0 hcontrol).first rfl, length_entries] at hle
      omega
    rw [hlog, servesReady_quiet hquiet, and_iff_left hfresh]
  · obtain ⟨hcontrol, hlt⟩ := current_eq_some.1 hcurrent
    have hserves : Served s (s.serve i a) i es := by
      rcases hserved with hkept | hremoved
      · exact hkept.toServed
      · exact hremoved.toServed
    have hstale : s.ReachesStale ↔ (lastReport s.log).length ≤ i := by
      constructor
      · rintro ⟨j, hj, hle, _⟩
        rw [hcurrent] at hj
        cases hj
        exact hle
      · intro hle
        exact ⟨i, hcurrent, hle, hready⟩
    rw [hlog, servesReady_append hserves.serves, hstale, Nat.not_le,
      ← (h.scanning i hcontrol).reportedReady hlt hready]
    exact and_congr_right (fun _ => forall_prop_of_true hserves.called)

theorem start_consistent (listenfd : Int) (memory : ℕ → Pollfd) :
    Consistent (start listenfd memory) where
  exact := start_exact listenfd memory
  scanning := fun _ h => by cases h

/-- What is asked of a turn that accepts: the descriptor is none of those
open. -/
def AcceptsNew (s : Server) (a : Answers) : Prop :=
  s.Accepts → a.accept ≠ s.listenfd ∧ a.accept ∉ connections s.log

instance (s : Server) (a : Answers) : Decidable (s.AcceptsNew a) :=
  inferInstanceAs (Decidable (_ → _))

/-- A turn that stays in bounds has an entry free. -/
theorem AcceptsNew.acceptsFresh (h : s.AcceptsNew a) (hcount : s.pfdCount ≤ 10)
    (hover : ¬ s.Overruns a) : s.AcceptsFresh a := by
  intro haccepts
  refine ⟨?_, h haccepts⟩
  obtain ⟨i, hi, hready, hfd⟩ := haccepts
  rcases hcount.lt_or_eq with hroom | hfull
  · exact hroom
  · exact absurd ⟨i, hi, hready, .inl ⟨hfd, hfull⟩⟩ hover

/-- What a run of the program keeps. -/
structure Ruled (s : Server) : Prop where
  sound : Sound s
  consistent : Consistent s

theorem Ruled.exec (h : Ruled s) (hnew : s.AcceptsNew a) (hlow : -1 ≤ a.recv)
    (hhigh : a.recv ≤ 1024) (hexec : s.exec a = some s') : Ruled s' := by
  obtain ⟨-, rfl⟩ := exec_eq_some_iff.1 hexec
  have hover := (h.sound.exec_iff hlow hhigh).1 hexec
  have hfresh := hnew.acceptsFresh h.sound.count hover
  exact ⟨h.sound.step hlow hhigh hfresh hover, h.consistent.step hfresh⟩

/-- A turn of the program has a result and serves what was reported if it
neither overruns nor reaches a left-over. -/
theorem Ruled.servesReady_exec (h : Ruled s) (hlow : -1 ≤ a.recv)
    (hhigh : a.recv ≤ 1024) :
    (∃ s', s.exec a = some s' ∧ ServesReady s'.log) ↔
      ServesReady s.log ∧ ¬ s.ReachesStale ∧ ¬ s.Overruns a := by
  have hexec := h.sound.exec_iff hlow hhigh
  rw [← and_assoc, ← h.consistent.servesReady_step a, ← hexec]
  constructor
  · rintro ⟨s', hs', hready⟩
    obtain ⟨-, rfl⟩ := exec_eq_some_iff.1 hs'
    exact ⟨hready, hs'⟩
  · rintro ⟨hready, hs'⟩
    exact ⟨_, hs', hready⟩

/-- The server gets through a run and serves only what `poll` reported exactly
if it never overruns its arrays and its scan never comes to an entry that was
filled since the poll and in whose place a ready `revents` was left. -/
theorem servesReady_iff {listenfd : Int} {memory : ℕ → Pollfd}
    {answers : List Answers}
    (haccepts : AlongPartial exec AcceptsNew (start listenfd memory) answers)
    (hrecv : ∀ a ∈ answers, -1 ≤ a.recv ∧ a.recv ≤ 1024) :
    (∃ s ∈ execute (start listenfd memory) answers, ServesReady s.log) ↔
      AlongPartial exec (fun s a => ¬ s.ReachesStale ∧ ¬ s.Overruns a)
        (start listenfd memory) answers := by
  have hstart : Ruled (start listenfd memory) :=
    ⟨start_sound listenfd memory, start_consistent listenfd memory⟩
  have hrun := (haccepts.and_forall hrecv).run_iff (I := Ruled)
    (P := fun s => ServesReady s.log)
    (B := fun s a => ¬ s.ReachesStale ∧ ¬ s.Overruns a)
    (fun s a s' hs ha hexec => hs.exec ha.1 ha.2.1 ha.2.2 hexec)
    (fun s a hs ha => hs.servesReady_exec ha.2.1 ha.2.2) hstart
  refine hrun.trans ?_
  exact and_iff_right trivial

theorem servesReady_iff_two :
    ∃ s ∈ execute (start 3 (fun _ => ⟨0, 0, 0⟩)) twoClients,
      ServesReady s.log :=
  (servesReady_iff (by decide) (by decide)).2 (by decide)

/-- A client connects and leaves; the next one is put where it was. -/
def leftover : List Answers :=
  [⟨some (fun _ => POLLIN), 0, 0⟩, ⟨none, 4, 0⟩, ⟨none, 0, 0⟩, ⟨none, 0, 0⟩,
    ⟨some (fun j => if j = 1 then POLLIN else 0), 0, 0⟩, ⟨none, 0, 0⟩,
    ⟨none, 0, 0⟩, ⟨none, 0, 0⟩, ⟨some (fun _ => POLLIN), 0, 0⟩, ⟨none, 5, 0⟩,
    ⟨none, 0, 7⟩]

/-- It is received from although `poll` was never asked about it, with every
access in bounds. -/
theorem servesReady_leftover :
    AlongPartial exec AcceptsNew (start 3 (fun _ => ⟨0, 0, 0⟩)) leftover ∧
      (∀ a ∈ leftover, -1 ≤ a.recv ∧ a.recv ≤ 1024) ∧
      ∃ s ∈ execute (start 3 (fun _ => ⟨0, 0, 0⟩)) leftover,
        ¬ ServesReady s.log := by
  decide

end Server

end LearningCpp.PollServer
