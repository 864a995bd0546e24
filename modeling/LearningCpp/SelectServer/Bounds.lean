import LearningCpp.SelectServer.Master

/-!
# Which runs of the select server stay inside their arrays

An `fd_set` has 1024 bits, and `accept` decides which of them are used: its
result goes into the set unchecked, `-1` included, and becomes the bound of the
scan when it is the largest so far. The buffer of a message has 1024 bytes and
`recv` may fill it, and the zero that is written behind the message is then
written behind the buffer.

Nothing else goes wrong: a run stays inside exactly if every descriptor it is
given has a bit and no message fills the buffer.
-/

namespace LearningCpp.SelectServer

namespace Server

variable {s s' : Server} {a : Answers} {es : List Event}

/-- Each access goes back to a call, and each call leads to its accesses. -/
structure Accounted (max : Int) (log : List Event) : Prop where
  bit : ∀ fd, .bit fd ∈ log → (0 ≤ fd ∧ fd ≤ max) ∨ ∃ f, .accept f fd ∈ log
  accept : ∀ f fd, .accept f fd ∈ log → .bit fd ∈ log
  msg : ∀ j, .msg j ∈ log → ∃ fd m, .recv fd (some m) ∈ log ∧ m.length = j
  recv : ∀ fd m, .recv fd (some m) ∈ log → m = [] ∨ .msg m.length ∈ log

theorem Accounted.mono {max max' : Int} {log : List Event}
    (h : Accounted max log) (hle : max ≤ max') : Accounted max' log := by
  refine ⟨?_, h.accept, h.msg, h.recv⟩
  intro fd hfd
  rcases h.bit fd hfd with ⟨hnonneg, hmax⟩ | haccept
  · exact .inl ⟨hnonneg, by omega⟩
  · exact .inr haccept

theorem Accounted.append {max : Int} {es log : List Event}
    (hes : Accounted max es) (hlog : Accounted max log) :
    Accounted max (es ++ log) := by
  refine ⟨?_, ?_, ?_, ?_⟩
  · intro fd hfd
    rcases List.mem_append.1 hfd with hnew | hold
    · rcases hes.bit fd hnew with hrange | ⟨f, hf⟩
      · exact .inl hrange
      · exact .inr ⟨f, List.mem_append_left _ hf⟩
    · rcases hlog.bit fd hold with hrange | ⟨f, hf⟩
      · exact .inl hrange
      · exact .inr ⟨f, List.mem_append_right _ hf⟩
  · intro f fd hf
    rcases List.mem_append.1 hf with hnew | hold
    · exact List.mem_append_left _ (hes.accept f fd hnew)
    · exact List.mem_append_right _ (hlog.accept f fd hold)
  · intro j hj
    rcases List.mem_append.1 hj with hnew | hold
    · obtain ⟨fd, m, hrecv, hlen⟩ := hes.msg j hnew
      exact ⟨fd, m, List.mem_append_left _ hrecv, hlen⟩
    · obtain ⟨fd, m, hrecv, hlen⟩ := hlog.msg j hold
      exact ⟨fd, m, List.mem_append_right _ hrecv, hlen⟩
  · intro fd m hm
    rcases List.mem_append.1 hm with hnew | hold
    · exact (hes.recv fd m hnew).imp id (List.mem_append_left _)
    · exact (hlog.recv fd m hold).imp id (List.mem_append_right _)

/-- The events of one turn account for each other, if the scan is at a number
that is not negative. -/
theorem Turn.accounted (hturn : Turn s a es s')
    (hnonneg : ∀ i, s.control = .scan i → 0 ≤ i) : Accounted s.max es := by
  cases hturn with
  | exited _ => exact ⟨by simp, by simp, by simp, by simp⟩
  | failed _ _ => exact ⟨by simp, by simp, by simp, by simp⟩
  | done _ _ => exact ⟨by simp, by simp, by simp, by simp⟩
  | reported _ _ => exact ⟨by simp, by simp, by simp, by simp⟩
  | idle hcontrol hi _ =>
      have h0 := hnonneg _ hcontrol
      exact ⟨by simp [h0, hi], by simp, by simp, by simp⟩
  | accepted hcontrol hi _ =>
      have h0 := hnonneg _ hcontrol
      exact ⟨by simp [h0, hi], by simp, by simp, by simp⟩
  | recvFailed hcontrol hi _ _ _ =>
      have h0 := hnonneg _ hcontrol
      exact ⟨by simp [h0, hi], by simp, by simp, by simp⟩
  | closed hcontrol hi _ _ _ =>
      have h0 := hnonneg _ hcontrol
      exact ⟨by simp [h0, hi], by simp, by simp, by simp⟩
  | @echoed i m hcontrol hi _ _ _ _ =>
      have h0 := hnonneg _ hcontrol
      refine ⟨by simp [h0, hi], by simp, ?_, by simp⟩
      intro j hj
      have hj : j = m.length := by simpa using hj
      exact ⟨i, m, by simp, hj.symm⟩

/-- The largest descriptor is one the run was given, and the scan goes up. -/
structure Tracked (s : Server) : Prop where
  accounted : Accounted s.max s.log
  max : s.max = s.listenfd ∨ ∃ f, .accept f s.max ∈ s.log
  nonneg : ∀ i, s.control = .scan i → 0 ≤ i

theorem Turn.max_le (hturn : Turn s a es s') : s.max ≤ s'.max := by
  cases hturn with
  | accepted _ _ _ =>
      show s.max ≤ if a.accept > s.max then a.accept else s.max
      split <;> omega
  | _ => exact Int.le_refl _

theorem Tracked.turn (h : Tracked s) (hturn : Turn s a es s') :
    Tracked s' := by
  have haccounted : Accounted s'.max s'.log := by
    rw [hturn.log]
    exact ((hturn.accounted h.nonneg).mono hturn.max_le).append
      (h.accounted.mono hturn.max_le)
  have hkept : ∀ es : List Event, s.max = s.listenfd ∨
      ∃ f, .accept f s.max ∈ es ++ s.log := by
    intro es
    exact h.max.imp id (fun ⟨f, hf⟩ => ⟨f, List.mem_append_right es hf⟩)
  cases hturn with
  | exited _ => exact h
  | failed _ _ => exact ⟨haccounted, h.max, by simp⟩
  | done _ _ => exact ⟨haccounted, h.max, by simp⟩
  | reported _ _ => exact ⟨haccounted, hkept [_], by simp⟩
  | idle hcontrol _ _ =>
      have h0 := h.nonneg _ hcontrol
      refine ⟨haccounted, hkept [_], ?_⟩
      rintro j ⟨⟩
      omega
  | accepted hcontrol _ _ =>
      have h0 := h.nonneg _ hcontrol
      refine ⟨haccounted, ?_, ?_⟩
      · simp only []
        split
        · exact .inr ⟨s.listenfd, by simp⟩
        · exact hkept _
      · rintro j ⟨⟩
        omega
  | recvFailed hcontrol _ _ _ _ =>
      have h0 := h.nonneg _ hcontrol
      refine ⟨haccounted, hkept _, ?_⟩
      rintro j ⟨⟩
      omega
  | closed hcontrol _ _ _ _ =>
      have h0 := h.nonneg _ hcontrol
      refine ⟨haccounted, hkept _, ?_⟩
      rintro j ⟨⟩
      omega
  | echoed hcontrol _ _ _ _ _ =>
      have h0 := h.nonneg _ hcontrol
      refine ⟨haccounted, hkept _, ?_⟩
      rintro j ⟨⟩
      omega

theorem start_tracked (listenfd : Int) : Tracked (start listenfd) where
  accounted := ⟨by simp [start], by simp [start], by simp [start],
    by simp [start]⟩
  max := .inl rfl
  nonneg := by simp [start]

theorem run_tracked (listenfd : Int) (answers : List Answers) :
    Tracked (run (start listenfd) answers) := by
  refine List.foldlRecOn answers step (start_tracked listenfd) ?_
  intro s hs a _
  obtain ⟨es, hturn⟩ := step_turn s a
  exact hs.turn hturn

/-- Whatever the system answers, a run stays inside the sets and the buffer
exactly if every descriptor it was given has a bit in a set and no message
filled the buffer. -/
theorem inBounds_iff {listenfd : Int} (hsize : listenfd < FD_SETSIZE)
    (answers : List Answers) :
    let s := run (start listenfd) answers
    (∀ e ∈ s.log, e.InBounds) ↔
      (∀ fd connfd : Int, .accept fd connfd ∈ s.log →
        0 ≤ connfd ∧ connfd < FD_SETSIZE) ∧
      ∀ fd m, .recv fd (some m) ∈ s.log → m.length < sizeofMsg := by
  intro s
  have h : Tracked s := run_tracked listenfd answers
  have hsame : s.listenfd = listenfd := run_listenfd _ _
  constructor
  · intro hbounds
    constructor
    · intro fd connfd haccept
      exact hbounds _ (h.accounted.accept fd connfd haccept)
    · intro fd m hrecv
      rcases h.accounted.recv fd m hrecv with rfl | hmsg
      · exact Nat.zero_lt_succ _
      · exact hbounds _ hmsg
  · rintro ⟨haccepts, hrecvs⟩ e he
    cases e with
    | bit fd =>
        rcases h.accounted.bit fd he with ⟨hnonneg, hle⟩ | ⟨f, hf⟩
        · refine ⟨hnonneg, ?_⟩
          rcases h.max with hmax | ⟨f, hf⟩
          · omega
          · have hlt := (haccepts f s.max hf).2
            omega
        · exact haccepts f fd hf
    | msg j =>
        obtain ⟨fd, m, hrecv, rfl⟩ := h.accounted.msg j he
        exact hrecvs fd m hrecv
    | _ => trivial

/-- A server that is given a descriptor without a bit. -/
theorem inBounds_iff_large : ¬ ∀ e ∈ (run (start 3)
    [⟨some {3}, 0, none, none⟩, ⟨none, 0, none, none⟩, ⟨none, 0, none, none⟩,
      ⟨none, 0, none, none⟩, ⟨none, 1024, none, none⟩]).log, e.InBounds := by
  intro h
  have hsmall := ((inBounds_iff (by decide) _).1 h).1 3 1024
    (by decide)
  exact absurd hsmall.2 (by decide)

end Server

end LearningCpp.SelectServer
