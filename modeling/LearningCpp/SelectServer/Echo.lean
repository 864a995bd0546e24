import LearningCpp.SelectServer.Master

/-!
# A connection is sent back what it sent, and nothing else

The bytes received on a connection and the bytes sent on it are read off the
log, from the last time its descriptor was accepted on. A turn receives and sends
on one descriptor, so the two go along with each other turn by turn, whatever
the other connections do in between.

The server does not look at how much `send` took. What it did not take is lost
and everything after it still arrives, in order.
-/

namespace LearningCpp.SelectServer

open LearningCpp.Lib

/-- The bytes received on the connection that has the descriptor `fd`. -/
def received (fd : Int) : List Event → List UInt8
  | [] => []
  | .accept _ connfd :: es => if connfd = fd then [] else received fd es
  | .recv fd' (some msg) :: es =>
      if fd' = fd then received fd es ++ msg else received fd es
  | _ :: es => received fd es

/-- The bytes `send` took for it. -/
def echoed (fd : Int) : List Event → List UInt8
  | [] => []
  | .accept _ connfd :: es => if connfd = fd then [] else echoed fd es
  | .send fd' msg sent :: es =>
      if fd' = fd then echoed fd es ++ msg.take (sent.getD 0) else echoed fd es
  | _ :: es => echoed fd es

/-- Every `send` took all it was given. -/
def Event.Whole : Event → Prop
  | .send _ m sent => sent = some m.length
  | _ => True

instance instDecidableWhole : ∀ e : Event, Decidable e.Whole
  | .send _ m sent => inferInstanceAs (Decidable (sent = some m.length))
  | .select _ _ _ | .accept _ _ | .recv _ _ | .close _ | .bit _ | .msg _ =>
      .isTrue trivial

namespace Server

variable {s s' : Server} {a : Answers} {es : List Event}

theorem echoed_sublist_turn (hturn : Turn s a es s') {fd : Int}
    (h : (echoed fd s.log).Sublist (received fd s.log)) :
    (echoed fd s'.log).Sublist (received fd s'.log) := by
  cases hturn with
  | exited _ => exact h
  | failed _ _ => exact h
  | done _ _ => exact h
  | reported _ _ => exact h
  | idle _ _ _ => exact h
  | recvFailed _ _ _ _ _ => exact h
  | accepted _ _ _ =>
      simp only [SelectServer.echoed, received, List.cons_append,
        List.nil_append]
      split
      · exact .slnil
      · exact h
  | closed _ _ _ _ _ =>
      simp only [SelectServer.echoed, received, List.cons_append,
        List.nil_append, List.append_nil, ite_self]
      exact h
  | @echoed i msg _ _ _ _ _ _ =>
      simp only [SelectServer.echoed, received, List.cons_append,
        List.nil_append]
      split
      · exact h.append (List.take_sublist _ _)
      · exact h

theorem echoed_eq_turn (hturn : Turn s a es s') (hwhole : ∀ e ∈ es, e.Whole)
    {fd : Int} (h : echoed fd s.log = received fd s.log) :
    echoed fd s'.log = received fd s'.log := by
  cases hturn with
  | exited _ => exact h
  | failed _ _ => exact h
  | done _ _ => exact h
  | reported _ _ => exact h
  | idle _ _ _ => exact h
  | recvFailed _ _ _ _ _ => exact h
  | accepted _ _ _ =>
      simp only [SelectServer.echoed, received, List.cons_append,
        List.nil_append, h]
  | closed _ _ _ _ _ =>
      simp only [SelectServer.echoed, received, List.cons_append,
        List.nil_append, List.append_nil, ite_self]
      exact h
  | @echoed i msg _ _ _ _ _ _ =>
      have hsent : a.send = some msg.length := hwhole _ List.mem_cons_self
      simp only [SelectServer.echoed, received, List.cons_append,
        List.nil_append, hsent, Option.getD_some, List.take_length, h]

theorem run_log_suffix (s : Server) (answers : List Answers) :
    s.log <:+ (run s answers).log := by
  induction answers generalizing s with
  | nil => exact List.suffix_refl _
  | cons a answers ih =>
      obtain ⟨es, hturn⟩ := step_turn s a
      refine List.IsSuffix.trans ?_ (ih (s.step a))
      rw [hturn.log]
      exact List.suffix_append es s.log

theorem run_echoed_sublist (answers : List Answers) (fd : Int) :
    ∀ {s : Server}, (echoed fd s.log).Sublist (received fd s.log) →
      (echoed fd (run s answers).log).Sublist
        (received fd (run s answers).log) := by
  induction answers with
  | nil => exact fun h => h
  | cons a answers ih =>
      intro s h
      obtain ⟨es, hturn⟩ := step_turn s a
      exact ih (echoed_sublist_turn hturn h)

theorem run_echoed_eq (answers : List Answers) (fd : Int) :
    ∀ {s : Server}, echoed fd s.log = received fd s.log →
      (∀ e ∈ (run s answers).log, e.Whole) →
      echoed fd (run s answers).log = received fd (run s answers).log := by
  induction answers with
  | nil => exact fun h _ => h
  | cons a answers ih =>
      intro s h hwhole
      obtain ⟨es, hturn⟩ := step_turn s a
      refine ih (echoed_eq_turn hturn ?_ h) hwhole
      intro e he
      refine hwhole e ((run_log_suffix (s.step a) answers).subset ?_)
      rw [hturn.log]
      exact List.mem_append_left _ he

/-- Whatever the system answers, as long as the program has a meaning: on every
connection the bytes sent back are bytes received on that same connection, in
their order; and if `send` took all it was given, they are all of them. -/
theorem echo_exact {listenfd : Int} {answers : List Answers}
    (hrun : execute listenfd answers = some s) (fd : Int) :
    (echoed fd s.log).Sublist (received fd s.log) ∧
      ((∀ e ∈ s.log, e.Whole) → echoed fd s.log = received fd s.log) := by
  have hlast : run (start listenfd) answers = s :=
    (execute_eq_some_iff.1 hrun).2.2
  rw [← hlast]
  exact ⟨run_echoed_sublist answers fd .slnil, run_echoed_eq answers fd rfl⟩

theorem echo_exact_two :
    ∃ s ∈ execute 3 twoClients,
      received 4 s.log = [104, 105] ∧ echoed 4 s.log = received 4 s.log := by
  obtain ⟨s, hrun, hreceived, hwhole⟩ :
      ∃ s ∈ execute 3 twoClients,
        received 4 s.log = [104, 105] ∧ ∀ e ∈ s.log, e.Whole := by decide
  exact ⟨s, hrun, hreceived, (echo_exact hrun 4).2 hwhole⟩

end Server

end LearningCpp.SelectServer
