import LearningCpp.SelectServer.Model

/-!
# The master set is exact, and every scan serves what was reported

The set the server keeps is compared with the log, turn by turn. It holds the
listening descriptor and the connections accepted and not yet closed, and none
of them is above `max`, so `select` is asked about all of them.

A scan goes through the copy `select` has left, and that copy is not touched
until the next call. So what has been served since the last call is what was
reported and lies below the number the scan has come to, in ascending order. A
connection accepted on the way raises `max`, and the scan may come to its number;
its bit is not set there. And a descriptor is taken out of the master set only
when its own number is served, so each one is still open when the scan gets
there.
-/

namespace LearningCpp.SelectServer

open LearningCpp.Lib

/-- The connections accepted and not yet closed. -/
def connections : List Event → List Int
  | [] => []
  | .accept _ connfd :: es => connfd :: connections es
  | .close fd :: es => (connections es).erase fd
  | _ :: es => connections es

/-- The descriptors served since the last call of `select`, latest first. -/
def served : List Event → List Int
  | [] => []
  | .select _ _ _ :: _ => []
  | .accept fd _ :: es => fd :: served es
  | .recv fd _ :: es => fd :: served es
  | _ :: es => served es

/-- What the last call of `select` was given. -/
def given : List Event → FdSet
  | [] => ∅
  | .select _ fds _ :: _ => fds
  | _ :: es => given es

/-- What it left. -/
def reported : List Event → FdSet
  | [] => ∅
  | .select _ _ fds :: _ => fds
  | _ :: es => reported es

namespace Server

variable {s s' : Server} {a : Answers} {es : List Event}

/-- The number whose turn it is. -/
def current (s : Server) : Option Int :=
  match s.control with
  | .scan i => if i < s.max + 1 then some i else none
  | _ => none

/-- If this turn accepts, it is given a descriptor that is not open. -/
def AcceptsFresh (s : Server) (a : Answers) : Prop :=
  s.current = some s.listenfd → s.listenfd ∈ s.readfds →
    0 ≤ a.accept ∧ a.accept ≠ s.listenfd ∧ a.accept ∉ connections s.log

instance (s : Server) (a : Answers) : Decidable (s.AcceptsFresh a) :=
  inferInstanceAs (Decidable (_ → _ → _))

theorem current_of_scan {i : Int} (hcontrol : s.control = .scan i)
    (hi : i ≤ s.max) : s.current = some i := by
  unfold current
  rw [hcontrol]
  exact if_pos (by omega)

theorem control_of_current {i : Int} (h : s.current = some i) :
    s.control = .scan i ∧ i ≤ s.max := by
  unfold current at h
  split at h
  · next j hcontrol =>
      split at h
      · next hj =>
          cases h
          exact ⟨hcontrol, by omega⟩
      · cases h
  · cases h

/-- Only the turn that accepts needs a fresh descriptor. -/
theorem acceptsFresh_of_turn (hturn : Turn s a es s')
    (h : ∀ connfd, .accept s.listenfd connfd ∈ es →
      0 ≤ connfd ∧ connfd ≠ s.listenfd ∧ connfd ∉ connections s.log) :
    s.AcceptsFresh a := by
  intro hcurrent hready
  obtain ⟨hscan, hi⟩ := control_of_current hcurrent
  cases hturn with
  | accepted _ _ _ => exact h a.accept (by simp)
  | exited hcontrol => rw [hcontrol] at hscan; cases hscan
  | failed hcontrol _ => rw [hcontrol] at hscan; cases hscan
  | reported hcontrol _ => rw [hcontrol] at hscan; cases hscan
  | idle hcontrol _ hidle =>
      rw [hcontrol] at hscan
      cases hscan
      exact absurd hready hidle
  | recvFailed hcontrol _ _ hfd _ =>
      rw [hcontrol] at hscan
      cases hscan
      exact absurd rfl hfd
  | closed hcontrol _ _ hfd _ =>
      rw [hcontrol] at hscan
      cases hscan
      exact absurd rfl hfd
  | echoed hcontrol _ _ hfd _ _ =>
      rw [hcontrol] at hscan
      cases hscan
      exact absurd rfl hfd
  | done hcontrol hmax =>
      rw [hcontrol] at hscan
      cases hscan
      omega

/-- `s.scanned fd`: the scan has passed `fd`, or is over. -/
def scanned (s : Server) (fd : Int) : Prop :=
  ∀ i, s.control = .scan i → fd < i

theorem scanned_next {i : Int} (hcontrol : s.control = .scan (i + 1))
    (fd : Int) : s.scanned fd ↔ fd < i ∨ fd = i := by
  unfold scanned
  rw [hcontrol]
  constructor
  · intro h
    have hlt := h (i + 1) rfl
    omega
  · rintro hle j hj
    cases hj
    omega

theorem scanned_of_scan {i : Int} (hcontrol : s.control = .scan i) (fd : Int) :
    s.scanned fd ↔ fd < i := by
  unfold scanned
  rw [hcontrol]
  constructor
  · exact fun h => h i rfl
  · rintro hlt j hj
    cases hj
    exact hlt

theorem scanned_of_not_scan (hcontrol : ∀ i, s.control ≠ .scan i) (fd : Int) :
    s.scanned fd :=
  fun i hi => absurd hi (hcontrol i)

/-- The set holds the listening descriptor and, once each, the connections
there are; and `max` is above them all. -/
structure Exact (s : Server) : Prop where
  master : s.master = insert s.listenfd (connections s.log).toFinset
  distinct : (s.listenfd :: connections s.log).Nodup
  nonneg : ∀ fd ∈ s.master, 0 ≤ fd
  le_max : ∀ fd ∈ s.master, fd ≤ s.max

theorem Exact.mem_connections (h : Exact s) {fd : Int} (hfd : fd ≠ s.listenfd) :
    fd ∈ s.master ↔ fd ∈ connections s.log := by
  rw [h.master, Finset.mem_insert, List.mem_toFinset]
  exact or_iff_right hfd

/-- Turns that leave the set and the connections alone. -/
theorem Exact.congr (h : Exact s) (hmaster : s'.master = s.master)
    (hlistenfd : s'.listenfd = s.listenfd) (hmax : s'.max = s.max)
    (hlog : connections s'.log = connections s.log) : Exact s' where
  master := by rw [hmaster, hlistenfd, hlog]; exact h.master
  distinct := by rw [hlistenfd, hlog]; exact h.distinct
  nonneg := by rw [hmaster]; exact h.nonneg
  le_max := by rw [hmaster, hmax]; exact h.le_max

theorem Exact.turn (h : Exact s) (hfresh : s.AcceptsFresh a)
    (hturn : Turn s a es s') : Exact s' := by
  cases hturn with
  | exited _ => exact h
  | failed _ _ => exact h.congr rfl rfl rfl rfl
  | reported _ _ => exact h.congr rfl rfl rfl rfl
  | idle _ _ _ => exact h.congr rfl rfl rfl rfl
  | recvFailed _ _ _ _ _ => exact h.congr rfl rfl rfl rfl
  | echoed _ _ _ _ _ _ => exact h.congr rfl rfl rfl rfl
  | done _ _ => exact h.congr rfl rfl rfl rfl
  | accepted hcontrol hi hready =>
      obtain ⟨hnonneg, hlisten, hnew⟩ :=
        hfresh (current_of_scan hcontrol hi) hready
      refine ⟨?_, ?_, ?_, ?_⟩
      · show insert a.accept s.master = insert s.listenfd
          (a.accept :: connections s.log).toFinset
        rw [h.master, List.toFinset_cons, Finset.insert_comm]
      · show (s.listenfd :: a.accept :: connections s.log).Nodup
        have hdistinct := List.nodup_cons.1 h.distinct
        refine List.nodup_cons.2 ⟨?_, List.nodup_cons.2 ⟨hnew, hdistinct.2⟩⟩
        rw [List.mem_cons, not_or]
        exact ⟨hlisten.symm, hdistinct.1⟩
      · intro fd hfd
        rcases Finset.mem_insert.1 hfd with rfl | hold
        · exact hnonneg
        · exact h.nonneg fd hold
      · intro fd hfd
        show fd ≤ if a.accept > s.max then a.accept else s.max
        rcases Finset.mem_insert.1 hfd with rfl | hold
        · split <;> omega
        · have hle := h.le_max fd hold
          split <;> omega
  | @closed i hcontrol hi hready hfd hrecv =>
      have hdistinct := List.nodup_cons.1 h.distinct
      refine ⟨?_, ?_, ?_, ?_⟩
      · show s.master.erase i = insert s.listenfd
          ((connections s.log).erase i).toFinset
        have herase : ((connections s.log).erase i).toFinset =
            (connections s.log).toFinset.erase i := by
          ext fd
          rw [List.mem_toFinset, hdistinct.2.mem_erase_iff, Finset.mem_erase,
            List.mem_toFinset]
        rw [h.master, herase, Finset.erase_insert_of_ne hfd.symm]
      · show (s.listenfd :: (connections s.log).erase i).Nodup
        refine List.nodup_cons.2 ⟨?_, hdistinct.2.erase i⟩
        exact fun hmem => hdistinct.1 (List.mem_of_mem_erase hmem)
      · exact fun fd hmem => h.nonneg fd (Finset.mem_of_mem_erase hmem)
      · exact fun fd hmem => h.le_max fd (Finset.mem_of_mem_erase hmem)

/-- What has been served since the last call of `select`. -/
structure Scans (s : Server) : Prop where
  readfds : ∀ i, s.control = .scan i → s.readfds = reported s.log
  ascending : (served s.log).Pairwise (· > ·)
  exact : ∀ fd, fd ∈ served s.log ↔ fd ∈ reported s.log ∧ s.scanned fd
  /-- What is still to be served is open. -/
  waiting : ∀ fd ∈ reported s.log, ¬ s.scanned fd → fd ∈ s.master
  given : reported s.log ⊆ given s.log
  bounds : ∀ fd ∈ reported s.log, 0 ≤ fd ∧ fd ≤ s.max

/-- The body of the scan at one number, which is served if it was reported and
of which only its own bit leaves the master set. -/
theorem Scans.next (h : Scans s) {i : Int} (hcontrol : s.control = .scan i)
    (hcontrol' : s'.control = .scan (i + 1))
    (hreadfds : s'.readfds = s.readfds)
    (hreported : reported s'.log = reported s.log)
    (hgiven : SelectServer.given s'.log = SelectServer.given s.log)
    (hserved : served s'.log =
      if i ∈ s.readfds then i :: served s.log else served s.log)
    (hmaster : ∀ fd ∈ s.master, fd ≠ i → fd ∈ s'.master)
    (hmax : s.max ≤ s'.max) : Scans s' := by
  have hread := h.readfds i hcontrol
  have hexact : ∀ fd, fd ∈ served s.log ↔ fd ∈ reported s.log ∧ fd < i := by
    intro fd
    rw [h.exact fd, scanned_of_scan hcontrol]
  refine ⟨?_, ?_, ?_, ?_, ?_, ?_⟩
  · intro _ _
    rw [hreadfds, hreported, hread]
  · rw [hserved]
    split
    · refine List.pairwise_cons.2 ⟨?_, h.ascending⟩
      intro fd hfd
      exact ((hexact fd).1 hfd).2
    · exact h.ascending
  · intro fd
    rw [hserved, hreported, scanned_next hcontrol']
    split
    · next hready =>
        rw [List.mem_cons, hexact fd]
        constructor
        · rintro (rfl | ⟨hrep, hlt⟩)
          · exact ⟨hread ▸ hready, .inr rfl⟩
          · exact ⟨hrep, .inl hlt⟩
        · rintro ⟨hrep, hlt | heq⟩
          · exact .inr ⟨hrep, hlt⟩
          · exact .inl heq
    · next hidle =>
        rw [hexact fd]
        constructor
        · rintro ⟨hrep, hlt⟩
          exact ⟨hrep, .inl hlt⟩
        · rintro ⟨hrep, hlt | rfl⟩
          · exact ⟨hrep, hlt⟩
          · exact absurd (hread ▸ hrep) hidle
  · intro fd hfd hscanned
    rw [hreported] at hfd
    rw [scanned_next hcontrol', not_or] at hscanned
    refine hmaster fd (h.waiting fd hfd ?_) hscanned.2
    rw [scanned_of_scan hcontrol]
    exact hscanned.1
  · rw [hreported, hgiven]
    exact h.given
  · intro fd hfd
    rw [hreported] at hfd
    have hbounds := h.bounds fd hfd
    exact ⟨hbounds.1, by omega⟩

/-- Turns outside the scan that call nothing: `select` fails, or the scan is
over. -/
theorem Scans.rest (h : Scans s) (hscanned : ∀ fd ∈ reported s.log, s.scanned fd)
    (hcontrol : ∀ i, s'.control ≠ .scan i) (hlog : s'.log = s.log)
    (hmax : s'.max = s.max) : Scans s' where
  readfds := fun i hi => absurd hi (hcontrol i)
  ascending := by rw [hlog]; exact h.ascending
  exact := by
    intro fd
    rw [hlog, h.exact fd]
    constructor
    · rintro ⟨hfd, _⟩
      exact ⟨hfd, scanned_of_not_scan hcontrol fd⟩
    · rintro ⟨hfd, _⟩
      exact ⟨hfd, hscanned fd hfd⟩
  waiting := fun fd _ hnot => absurd (scanned_of_not_scan hcontrol fd) hnot
  given := by rw [hlog]; exact h.given
  bounds := by rw [hlog, hmax]; exact h.bounds

theorem mem_reports {ready : FdSet} {fd : Int} (h : fd ∈ s.reports ready) :
    fd ∈ s.master :=
  (Finset.mem_filter.1 h).1

theorem Scans.turn (h : Scans s) (hexact : Exact s) (hturn : Turn s a es s') :
    Scans s' := by
  have hoff : ∀ {c : Control}, s.control = c → (∀ i, c ≠ .scan i) →
      ∀ fd ∈ reported s.log, s.scanned fd := by
    rintro c rfl hc fd _
    exact scanned_of_not_scan hc fd
  cases hturn with
  | exited _ => exact h
  | failed hcontrol _ =>
      exact h.rest (hoff hcontrol (by simp)) (by simp) rfl rfl
  | done hcontrol hi =>
      refine h.rest ?_ (by simp) rfl rfl
      intro fd hfd
      rw [scanned_of_scan hcontrol]
      have hbounds := h.bounds fd hfd
      omega
  | @reported ready hcontrol _ =>
      refine ⟨fun _ _ => rfl, .nil, ?_, ?_, ?_, ?_⟩
      · intro fd
        rw [scanned_of_scan (i := 0) rfl]
        constructor
        · intro hfd
          cases hfd
        · rintro ⟨hfd, hlt⟩
          have hnonneg := hexact.nonneg fd (mem_reports hfd)
          omega
      · intro fd hfd _
        exact mem_reports hfd
      · intro fd hfd
        exact mem_reports hfd
      · intro fd hfd
        have hmem := mem_reports hfd
        exact ⟨hexact.nonneg fd hmem, hexact.le_max fd hmem⟩
  | @idle i hcontrol hi hidle =>
      exact h.next hcontrol rfl rfl rfl rfl (if_neg hidle).symm
        (fun _ hfd _ => hfd) (Int.le_refl _)
  | accepted hcontrol hi hready =>
      refine h.next hcontrol rfl rfl rfl rfl (if_pos hready).symm
        (fun _ hfd _ => Finset.mem_insert_of_mem hfd) ?_
      show s.max ≤ if a.accept > s.max then a.accept else s.max
      split <;> omega
  | @recvFailed i hcontrol hi hready _ _ =>
      exact h.next hcontrol rfl rfl rfl rfl (if_pos hready).symm
        (fun _ hfd _ => hfd) (Int.le_refl _)
  | @closed i hcontrol hi hready _ _ =>
      exact h.next hcontrol rfl rfl rfl rfl (if_pos hready).symm
        (fun _ hfd hne => Finset.mem_erase.2 ⟨hne, hfd⟩) (Int.le_refl _)
  | @echoed i _ hcontrol hi hready _ _ _ =>
      exact h.next hcontrol rfl rfl rfl rfl (if_pos hready).symm
        (fun _ hfd _ => hfd) (Int.le_refl _)

/-- A descriptor is received from, or closed, only while it is a connection. -/
def CallsOpen : List Event → Prop
  | [] => True
  | .recv fd _ :: es => fd ∈ connections es ∧ CallsOpen es
  | .send fd _ _ :: es => fd ∈ connections es ∧ CallsOpen es
  | .close fd :: es => fd ∈ connections es ∧ CallsOpen es
  | _ :: es => CallsOpen es

/-- What is served in a scan is open when its turn comes. -/
theorem Scans.serves_open (h : Scans s) (hexact : Exact s) {i : Int}
    (hcontrol : s.control = .scan i) (hready : i ∈ s.readfds)
    (hfd : i ≠ s.listenfd) : i ∈ connections s.log := by
  rw [← hexact.mem_connections hfd]
  refine h.waiting i ?_ ?_
  · rw [← h.readfds i hcontrol]
    exact hready
  · rw [scanned_of_scan hcontrol]
    exact lt_irrefl i

theorem callsOpen_turn (hcalls : CallsOpen s.log) (h : Scans s)
    (hexact : Exact s) (hturn : Turn s a es s') : CallsOpen s'.log := by
  cases hturn with
  | exited _ => exact hcalls
  | failed _ _ => exact hcalls
  | reported _ _ => exact hcalls
  | idle _ _ _ => exact hcalls
  | accepted _ _ _ => exact hcalls
  | done _ _ => exact hcalls
  | recvFailed hcontrol _ hready hfd _ =>
      exact ⟨h.serves_open hexact hcontrol hready hfd, hcalls⟩
  | closed hcontrol _ hready hfd _ =>
      have hopen := h.serves_open hexact hcontrol hready hfd
      exact ⟨hopen, hopen, hcalls⟩
  | echoed hcontrol _ hready hfd _ _ =>
      have hopen := h.serves_open hexact hcontrol hready hfd
      exact ⟨hopen, hopen, hcalls⟩

theorem start_exact {listenfd : Int} (hlisten : 0 ≤ listenfd) :
    Exact (start listenfd) where
  master := rfl
  distinct := List.nodup_singleton _
  nonneg := by
    intro fd hfd
    rw [Finset.mem_singleton.1 hfd]
    exact hlisten
  le_max := by
    intro fd hfd
    exact (Finset.mem_singleton.1 hfd).le

theorem start_scans (listenfd : Int) : Scans (start listenfd) where
  readfds := by intro i hi; cases hi
  ascending := .nil
  exact := by intro fd; simp [served, start, reported]
  waiting := by intro fd hfd; cases hfd
  given := Finset.empty_subset _
  bounds := by intro fd hfd; cases hfd

/-! ## Runs -/

/-- What every turn keeps. -/
structure Inv (s : Server) : Prop where
  exact : Exact s
  scans : Scans s
  calls : CallsOpen s.log

theorem Inv.step (h : Inv s) (hfresh : s.AcceptsFresh a) : Inv (s.step a) := by
  obtain ⟨es, hturn⟩ := step_turn s a
  exact ⟨h.exact.turn hfresh hturn, h.scans.turn h.exact hturn,
    callsOpen_turn h.calls h.scans h.exact hturn⟩

theorem run_inv {listenfd : Int} (hlisten : 0 ≤ listenfd)
    {answers : List Answers}
    (hfresh : Along step AcceptsFresh (start listenfd) answers) :
    Inv (run (start listenfd) answers) := by
  refine hfresh.invariant (P := Inv) (fun s a hs ha => hs.step ha) ?_
  exact ⟨start_exact hlisten, start_scans listenfd, trivial⟩

theorem run_listenfd (s : Server) (answers : List Answers) :
    (run s answers).listenfd = s.listenfd := by
  induction answers generalizing s with
  | nil => rfl
  | cons a answers ih =>
      obtain ⟨es, hturn⟩ := step_turn s a
      exact (ih (s.step a)).trans hturn.listenfd

/-- The same for a run of the program. -/
theorem execute_inv {listenfd : Int} {answers : List Answers}
    (hfresh : AlongPartial exec AcceptsFresh (start listenfd) answers)
    (hrun : execute listenfd answers = some s) :
    Inv s ∧ s.listenfd = listenfd := by
  obtain ⟨hbit, hturns⟩ := execute_eq_some hrun
  have hlast : run (start listenfd) answers = s := guarded_run hturns
  rw [← hlast]
  exact ⟨run_inv hbit.1 (hfresh.along hturns), run_listenfd _ _⟩

/-- At every turn of the program the set holds the listening descriptor and the
connections accepted and not yet closed, no two of which share a descriptor, and
the argument of the next `select` lies above them all. -/
theorem master_exact {listenfd : Int} {answers : List Answers}
    (hfresh : AlongPartial exec AcceptsFresh (start listenfd) answers)
    (hrun : execute listenfd answers = some s) :
    s.master = insert listenfd (connections s.log).toFinset ∧
      (listenfd :: connections s.log).Nodup ∧
      ∀ fd ∈ s.master, 0 ≤ fd ∧ fd < s.max + 1 := by
  obtain ⟨h, hsame⟩ := execute_inv hfresh hrun
  refine ⟨hsame ▸ h.exact.master, hsame ▸ h.exact.distinct, ?_⟩
  intro fd hfd
  have hle := h.exact.le_max fd hfd
  exact ⟨h.exact.nonneg fd hfd, by omega⟩

/-- A scan of the program serves what `select` reported, each descriptor once and
in ascending order, and nothing else; at any point of it, those below the number
it has come to. What it reported was watched, and whatever is received from, sent
to or closed is an open connection at that moment. -/
theorem scan_exact {listenfd : Int} {answers : List Answers}
    (hfresh : AlongPartial exec AcceptsFresh (start listenfd) answers)
    (hrun : execute listenfd answers = some s) :
    (served s.log).Pairwise (· > ·) ∧
      (∀ fd, fd ∈ served s.log ↔
        fd ∈ reported s.log ∧ ∀ i, s.control = .scan i → fd < i) ∧
      reported s.log ⊆ given s.log ∧ CallsOpen s.log := by
  obtain ⟨h, _⟩ := execute_inv hfresh hrun
  exact ⟨h.scans.ascending, h.scans.exact, h.scans.given, h.calls⟩

/-- A client connects, sends two bytes and leaves; while its bytes are read
another one connects. -/
def twoClients : List Answers :=
  let idle : Answers := ⟨none, 0, none, none⟩
  [{ idle with select := some {3} }, idle, idle, idle,
    { idle with accept := 4 }, idle, idle,
    { idle with select := some {3, 4} }, idle, idle, idle,
    { idle with accept := 5 },
    { idle with recv := some [104, 105], send := some 2 }, idle, idle,
    { idle with select := some {4} }, idle, idle, idle, idle,
    { idle with recv := some [] }]

theorem master_exact_two :
    ∃ s ∈ execute 3 twoClients, s.master = {3, 5} ∧
      s.master = insert 3 (connections s.log).toFinset := by
  obtain ⟨s, hrun, hmaster⟩ :
      ∃ s ∈ execute 3 twoClients, s.master = {3, 5} := by decide
  exact ⟨s, hrun, hmaster, (master_exact (by decide) hrun).1⟩

theorem scan_exact_two :
    ∃ s ∈ execute 3 twoClients,
      served s.log = [4] ∧ CallsOpen s.log := by
  obtain ⟨s, hrun, hserved⟩ :
      ∃ s ∈ execute 3 twoClients, served s.log = [4] := by decide
  exact ⟨s, hrun, hserved, (scan_exact (by decide) hrun).2.2.2⟩

end Server

end LearningCpp.SelectServer
