import LearningCpp.Lib.Token

/-!
# The connection factories

`get_cracked/design_patterns/factory/main.cpp`. A factory gives out at most five
connections at a time. It counts them itself: up when it makes one, and down in a
callback it hands to the connection, which the destructor of the connection
calls. The callback captures `this`, so a connection has to be destroyed while
its factory is there.

The two classes of factories differ in the class of connections they make and
are one definition with that as a parameter. There may be any number of
factories, and connections are destroyed in any order.

The counter goes up before the connection is made, and nothing takes it down
when making it throws. So it counts the connections there are and the ones that
were never made, and the place of the latter is lost for good.
-/

namespace LearningCpp.DBConnections

open LearningCpp.Lib

/-- Which of the two databases. -/
inductive DBType where
  | mySQL
  | postgres
deriving DecidableEq, Repr

/-- `MAX_CONNECTIONS_` of both factories. -/
def maxConnections : Int := 5

/-- `MySQLConnFactory` or `PostgresConnFactory`. -/
structure DBConnectionFactory where
  type : DBType
  numConnections : Int
deriving DecidableEq, Repr

/-- `MySQLConn` or `PostgresConn`; `onDisconnect` is the factory the callback has
captured. -/
structure DBConnection (φ : Type*) where
  type : DBType
  onDisconnect : φ
deriving DecidableEq, Repr

/-- What is printed, and what the counting depends on: a factory is made, making
a connection throws. Latest first. -/
inductive Event (φ : Type*) where
  | made (f : φ)
  /-- `CreateConn(), num_connections_=`. -/
  | createConn (f : φ) (type : DBType) (numConnections : Int)
  | thrown (f : φ)
  /-- The destructor of the derived class. -/
  | destroyed (type : DBType)
  /-- `~DBConnection(): Calling disconnect callback`. -/
  | disconnect
deriving DecidableEq, Repr

/-- The objects there are. -/
structure World (φ γ : Type*) where
  factory : φ → Option DBConnectionFactory
  conn : γ → Option (DBConnection φ)
  log : List (Event φ)

/-- What a program does with factories and connections. `throws` says whether
making the connection, if it comes to that, throws. -/
inductive Op (φ γ : Type*) where
  | makeFactory (f : φ) (type : DBType)
  | createConn (f : φ) (c : γ) (throws : Bool)
  | destroyConn (c : γ)
  | destroyFactory (f : φ)
deriving DecidableEq, Repr

namespace World

variable {φ γ : Type*} {w w' : World φ γ} {f : φ} {c : γ}

def init : World φ γ := ⟨fun _ => none, fun _ => none, []⟩

def logging (w : World φ γ) (e : Event φ) : World φ γ :=
  { w with log := e :: w.log }

def setFactory [DecidableEq φ] (w : World φ γ) (f : φ)
    (factory : Option DBConnectionFactory) : World φ γ :=
  { w with factory := Function.update w.factory f factory }

def setConn [DecidableEq γ] (w : World φ γ) (c : γ)
    (conn : Option (DBConnection φ)) : World φ γ :=
  { w with conn := Function.update w.conn c conn }

@[simp] theorem logging_factory (e : Event φ) :
    (w.logging e).factory = w.factory := rfl

@[simp] theorem logging_conn (e : Event φ) : (w.logging e).conn = w.conn := rfl

@[simp] theorem logging_log (e : Event φ) : (w.logging e).log = e :: w.log :=
  rfl

section

variable [DecidableEq φ] (factory : Option DBConnectionFactory)

@[simp] theorem setFactory_factory :
    (w.setFactory f factory).factory = Function.update w.factory f factory :=
  rfl

@[simp] theorem setFactory_conn : (w.setFactory f factory).conn = w.conn := rfl

@[simp] theorem setFactory_log : (w.setFactory f factory).log = w.log := rfl

end

section

variable [DecidableEq γ] (conn : Option (DBConnection φ))

@[simp] theorem setConn_factory : (w.setConn c conn).factory = w.factory := rfl

@[simp] theorem setConn_conn :
    (w.setConn c conn).conn = Function.update w.conn c conn := rfl

@[simp] theorem setConn_log : (w.setConn c conn).log = w.log := rfl

end

variable [DecidableEq φ] [DecidableEq γ]

/-- `CreateConn` of the factory `f`, with the connection it returns. -/
def createConn (w : World φ γ) (f : φ) (factory : DBConnectionFactory) (c : γ)
    (throws : Bool) : World φ γ × Option γ :=
  let w := w.logging (.createConn f factory.type factory.numConnections)
  if factory.numConnections ≥ maxConnections then (w, none)
  else
    let w := w.setFactory f
      (some { factory with numConnections := factory.numConnections + 1 })
    if throws then (w.logging (.thrown f), none)
    else (w.setConn c (some ⟨factory.type, f⟩), some c)

/-- The destructors of a connection. `none` where the callback is called on a
factory that is gone. -/
def destroyConn (w : World φ γ) (c : γ) (conn : DBConnection φ) :
    Option (World φ γ) :=
  let w := w.logging (.destroyed conn.type)
  let w := w.logging .disconnect
  match w.factory conn.onDisconnect with
  | none => none
  | some factory =>
      let w := w.setFactory conn.onDisconnect
        (some { factory with numConnections := factory.numConnections - 1 })
      some (w.setConn c none)

/-- One use, `none` if it is undefined. -/
def step (w : World φ γ) : Op φ γ → Option (World φ γ)
  | .makeFactory f type =>
      some ((w.setFactory f (some ⟨type, 0⟩)).logging (.made f))
  | .createConn f c throws =>
      match w.factory f with
      | none => none
      | some factory => some (w.createConn f factory c throws).1
  | .destroyConn c =>
      match w.conn c with
      | none => none
      | some conn => w.destroyConn c conn
  | .destroyFactory f =>
      match w.factory f with
      | none => none
      | some _ => some (w.setFactory f none)

def run (w : World φ γ) : List (Op φ γ) → Option (World φ γ)
  | [] => some w
  | op :: ops => (w.step op).bind (fun w => w.run ops)

/-! ## Programs that keep the lifetimes in order -/

/-- The connection was made by `f` and is still there. -/
def Holds (w : World φ γ) (f : φ) (c : γ) : Prop :=
  (w.conn c).map DBConnection.onDisconnect = some f

/-- New objects are put where there are none, calls are made on objects that are
there, and a factory is destroyed after its connections. -/
def Allows (w : World φ γ) : Op φ γ → Prop
  | .makeFactory f _ => w.factory f = none
  | .createConn f c _ => w.factory f ≠ none ∧ w.conn c = none
  | .destroyConn c => w.conn c ≠ none
  | .destroyFactory f => w.factory f ≠ none ∧ ∀ c, ¬ w.Holds f c

/-- Every use of a run is allowed where it happens. -/
def Orderly (w : World φ γ) : List (Op φ γ) → Prop
  | [] => True
  | op :: ops => w.Allows op ∧ ∀ w' ∈ w.step op, w'.Orderly ops

instance instDecidableHolds (w : World φ γ) (f : φ) (c : γ) :
    Decidable (w.Holds f c) :=
  inferInstanceAs (Decidable (_ = _))

instance instDecidableAllows [Fintype γ] (w : World φ γ) :
    ∀ op : Op φ γ, Decidable (w.Allows op)
  | .makeFactory f _ => inferInstanceAs (Decidable (w.factory f = none))
  | .createConn f c _ =>
      inferInstanceAs (Decidable (w.factory f ≠ none ∧ w.conn c = none))
  | .destroyConn c => inferInstanceAs (Decidable (w.conn c ≠ none))
  | .destroyFactory f =>
      inferInstanceAs (Decidable (w.factory f ≠ none ∧ ∀ c, ¬ w.Holds f c))

instance instDecidableOrderly [Fintype γ] : ∀ (w : World φ γ)
    (ops : List (Op φ γ)), Decidable (w.Orderly ops)
  | _, [] => inferInstanceAs (Decidable True)
  | w, op :: ops =>
      have : ∀ w' : World φ γ, Decidable (w'.Orderly ops) :=
        fun w' => instDecidableOrderly w' ops
      inferInstanceAs (Decidable (w.Allows op ∧
        ∀ w' ∈ w.step op, w'.Orderly ops))

/-- How often making a connection has thrown, since the factory was made. -/
def lost (f : φ) : List (Event φ) → ℕ
  | [] => 0
  | .made g :: es => if g = f then 0 else lost f es
  | .thrown g :: es => if g = f then lost f es + 1 else lost f es
  | _ :: es => lost f es

omit [DecidableEq φ] [DecidableEq γ] in
theorem holds_of_conn {conn : DBConnection φ} (h : w.conn c = some conn) :
    w.Holds conn.onDisconnect c := by
  unfold Holds
  rw [h]
  rfl

/-- The counter of a factory is the number of its connections and of those that
were lost. -/
structure Counts (w : World φ γ) (f : φ) (factory : DBConnectionFactory) :
    Prop where
  exact : ∃ n : ℕ, {c | w.Holds f c}.encard = n ∧
    factory.numConnections = n + lost f w.log
  bounded : factory.numConnections ≤ maxConnections

/-- What every use keeps. -/
structure Inv (w : World φ γ) : Prop where
  counts : ∀ f factory, w.factory f = some factory → w.Counts f factory
  alive : ∀ c conn, w.conn c = some conn →
    ∃ factory, w.factory conn.onDisconnect = some factory ∧
      factory.type = conn.type

omit [DecidableEq γ] in
theorem init_inv : Inv (init : World φ γ) where
  counts := by intro f factory h; cases h
  alive := by intro c conn h; cases h

omit [DecidableEq γ] in
/-- A factory whose connections and losses stay as they are. -/
theorem Counts.congr {factory : DBConnectionFactory} (h : w.Counts f factory)
    (hholds : ∀ c, w'.Holds f c ↔ w.Holds f c)
    (hlost : lost f w'.log = lost f w.log) : w'.Counts f factory := by
  obtain ⟨n, hn, hnum⟩ := h.exact
  refine ⟨⟨n, ?_, ?_⟩, h.bounded⟩
  · rw [encard_congr hholds, hn]
  · rw [hlost, hnum]

omit [DecidableEq γ] in
/-- Connections stay alive when a counter changes. -/
theorem Inv.alive_update (h : Inv w) {factory : DBConnectionFactory}
    (hf : w.factory f = some factory) (numConnections : Int) (conn : DBConnection φ)
    (hconn : ∃ c, w.conn c = some conn) :
    ∃ factory', Function.update w.factory f
        (some { factory with numConnections := numConnections })
        conn.onDisconnect = some factory' ∧ factory'.type = conn.type := by
  obtain ⟨c, hc⟩ := hconn
  obtain ⟨factory', hfactory, htype⟩ := h.alive c conn hc
  by_cases hgf : conn.onDisconnect = f
  · rw [hgf, hf] at hfactory
    cases hfactory
    rw [hgf, Function.update_self]
    exact ⟨_, rfl, htype⟩
  · rw [Function.update_of_ne hgf]
    exact ⟨factory', hfactory, htype⟩

omit [DecidableEq γ] in
theorem Inv.makeFactory (h : Inv w) (hfree : w.factory f = none)
    (type : DBType) :
    Inv ((w.setFactory f (some ⟨type, 0⟩)).logging (.made f)) where
  counts := by
    intro g factory hg
    rw [logging_factory, setFactory_factory] at hg
    by_cases hgf : g = f
    · subst hgf
      rw [Function.update_self] at hg
      cases hg
      -- No connection has captured a factory that was not there.
      have hnone : ∀ c, ¬ w.Holds g c := by
        intro c hc
        obtain ⟨conn, hconn, rfl⟩ := Option.map_eq_some_iff.1 hc
        obtain ⟨factory, hfactory, _⟩ := h.alive c conn hconn
        rw [hfree] at hfactory
        cases hfactory
      exact ⟨⟨0, encard_eq_zero_of_not hnone, by simp [lost]⟩,
        by simp [maxConnections]⟩
    · rw [Function.update_of_ne hgf] at hg
      refine (h.counts g factory hg).congr (fun _ => Iff.rfl) ?_
      simp [lost, Ne.symm hgf]
  alive := by
    intro c conn hconn
    obtain ⟨factory, hfactory, htype⟩ := h.alive c conn hconn
    refine ⟨factory, ?_, htype⟩
    have hne : conn.onDisconnect ≠ f := by
      intro heq
      rw [heq, hfree] at hfactory
      cases hfactory
    rw [logging_factory, setFactory_factory, Function.update_of_ne hne]
    exact hfactory

omit [DecidableEq γ] in
theorem Inv.destroyFactory (h : Inv w)
    (hlast : ∀ c, ¬ w.Holds f c) : Inv (w.setFactory f none) where
  counts := by
    intro g factory hg
    rw [setFactory_factory] at hg
    by_cases hgf : g = f
    · subst hgf
      rw [Function.update_self] at hg
      cases hg
    · rw [Function.update_of_ne hgf] at hg
      exact (h.counts g factory hg).congr (fun _ => Iff.rfl) rfl
  alive := by
    intro c conn hconn
    obtain ⟨factory, hfactory, htype⟩ := h.alive c conn hconn
    refine ⟨factory, ?_, htype⟩
    have hne : conn.onDisconnect ≠ f := by
      rintro rfl
      exact hlast c (holds_of_conn hconn)
    rw [setFactory_factory, Function.update_of_ne hne]
    exact hfactory

theorem Inv.createConn (h : Inv w) {factory : DBConnectionFactory}
    (hf : w.factory f = some factory) (hc : w.conn c = none) (throws : Bool) :
    Inv (w.createConn f factory c throws).1 := by
  obtain ⟨n, hn, hnum⟩ := (h.counts f factory hf).exact
  have hfree : ¬ w.Holds f c := by simp [Holds, hc]
  unfold World.createConn
  simp only []
  split
  · -- Refused: nothing changes.
    exact ⟨fun g factory hg => (h.counts g factory hg).congr
      (fun _ => Iff.rfl) rfl, h.alive⟩
  · next hroom =>
      have hbounded : factory.numConnections + 1 ≤ maxConnections := by omega
      cases throws with
      | true =>
          refine ⟨?_, ?_⟩
          · intro g factory' hg
            simp only [if_true, logging_factory, setFactory_factory] at hg
            by_cases hgf : g = f
            · subst hgf
              rw [Function.update_self] at hg
              cases hg
              refine ⟨⟨n, hn, ?_⟩, hbounded⟩
              simp only [if_true, logging_log, setFactory_log, lost]
              push_cast
              omega
            · rw [Function.update_of_ne hgf] at hg
              refine (h.counts g factory' hg).congr (fun _ => Iff.rfl) ?_
              simp [lost, Ne.symm hgf]
          · intro d conn hconn
            exact h.alive_update hf _ conn ⟨d, hconn⟩
      | false =>
          refine ⟨?_, ?_⟩
          · intro g factory' hg
            simp only [Bool.false_eq_true, if_false, setConn_factory,
              setFactory_factory, logging_factory] at hg
            by_cases hgf : g = f
            · subst hgf
              rw [Function.update_self] at hg
              cases hg
              refine ⟨⟨n + 1, encard_gain hfree ?_ hn, ?_⟩, hbounded⟩
              · intro d
                by_cases hd : d = c
                · subst hd
                  simp [Holds]
                · simp [Holds, hd]
              · simp only [Bool.false_eq_true, if_false, setConn_log,
                  setFactory_log, logging_log, lost]
                push_cast
                omega
            · rw [Function.update_of_ne hgf] at hg
              refine (h.counts g factory' hg).congr ?_ ?_
              · intro d
                by_cases hd : d = c
                · subst hd
                  simp [Holds, hc, Ne.symm hgf]
                · simp [Holds, hd]
              · simp [lost]
          · intro d conn hconn
            simp only [Bool.false_eq_true, if_false, setConn_conn,
              setFactory_conn, logging_conn] at hconn
            simp only [Bool.false_eq_true, if_false, setConn_factory,
              setFactory_factory, logging_factory]
            by_cases hd : d = c
            · subst hd
              rw [Function.update_self] at hconn
              cases hconn
              rw [Function.update_self]
              exact ⟨_, rfl, rfl⟩
            · rw [Function.update_of_ne hd] at hconn
              exact h.alive_update hf _ conn ⟨d, hconn⟩

theorem Inv.destroyConn (h : Inv w) {conn : DBConnection φ}
    (hc : w.conn c = some conn) :
    ∃ w', w.destroyConn c conn = some w' ∧ Inv w' := by
  obtain ⟨factory, hf, htype⟩ := h.alive c conn hc
  have hholds := holds_of_conn hc
  unfold World.destroyConn
  simp only [logging_factory, hf]
  refine ⟨_, rfl, ?_, ?_⟩
  · intro g factory' hg
    rw [setConn_factory, setFactory_factory] at hg
    by_cases hgf : g = conn.onDisconnect
    · subst hgf
      rw [Function.update_self] at hg
      cases hg
      obtain ⟨n, hn, hnum⟩ := (h.counts _ factory hf).exact
      have hpos := pos_of_encard_eq hn hholds
      have hbounded := (h.counts _ factory hf).bounded
      refine ⟨⟨n - 1, encard_lose hholds ?_ ?_ hn, ?_⟩, ?_⟩
      · simp [Holds]
      · intro d hd
        simp [Holds, hd]
      · simp only [setConn_log, setFactory_log, logging_log, lost]
        omega
      · simp only []
        omega
    · rw [Function.update_of_ne hgf] at hg
      refine (h.counts g factory' hg).congr ?_ ?_
      · intro d
        by_cases hd : d = c
        · subst hd
          simp [Holds, hc, Ne.symm hgf]
        · simp [Holds, hd]
      · simp [lost]
  · intro d conn' hconn
    rw [setConn_conn] at hconn
    by_cases hd : d = c
    · subst hd
      rw [Function.update_self] at hconn
      cases hconn
    · rw [Function.update_of_ne hd] at hconn
      exact h.alive_update hf _ conn' ⟨d, hconn⟩

/-- An allowed use is defined. -/
theorem Inv.step (h : Inv w) {op : Op φ γ} (hallows : w.Allows op) :
    ∃ w', w.step op = some w' ∧ Inv w' := by
  cases op with
  | makeFactory f type => exact ⟨_, rfl, h.makeFactory hallows type⟩
  | createConn f c throws =>
      obtain ⟨factory, hf⟩ := Option.ne_none_iff_exists'.1 hallows.1
      refine ⟨(w.createConn f factory c throws).1, ?_,
        h.createConn hf hallows.2 throws⟩
      simp only [World.step, hf]
  | destroyConn c =>
      obtain ⟨conn, hc⟩ := Option.ne_none_iff_exists'.1 hallows
      obtain ⟨w', hw', hinv⟩ := h.destroyConn hc
      refine ⟨w', ?_, hinv⟩
      simp only [World.step, hc, hw']
  | destroyFactory f =>
      obtain ⟨factory, hf⟩ := Option.ne_none_iff_exists'.1 hallows.1
      refine ⟨_, ?_, h.destroyFactory hallows.2⟩
      simp only [World.step, hf]

theorem Inv.run {ops : List (Op φ γ)} : ∀ {w : World φ γ}, Inv w →
    w.Orderly ops → ∃ w', w.run ops = some w' ∧ Inv w' := by
  induction ops with
  | nil => exact fun h _ => ⟨_, rfl, h⟩
  | cons op ops ih =>
      intro w h horderly
      obtain ⟨mid, hmid, hinv⟩ := h.step horderly.1
      obtain ⟨w', hw', hinv'⟩ := ih hinv (horderly.2 mid hmid)
      refine ⟨w', ?_, hinv'⟩
      rw [World.run, hmid, Option.bind_some, hw']

theorem createConn_none {factory : DBConnectionFactory} {throws : Bool} :
    (w.createConn f factory c throws).2 = none ↔
      maxConnections ≤ factory.numConnections ∨ throws = true := by
  unfold createConn
  simp only []
  split
  · next hfull => simp [hfull]
  · next hroom =>
      cases throws <;> simp [hroom]

/-- In every run in which factories outlive their connections no callback is
called on a factory that is gone. Every connection belongs to a factory of its
kind, and the counter of every factory is the number of its connections and of
those lost to an exception, at most five; so another one is refused exactly when
the two are five. -/
theorem run_counts {ops : List (Op φ γ)}
    (horderly : (init : World φ γ).Orderly ops) :
    ∃ w, init.run ops = some w ∧
      (∀ c conn, w.conn c = some conn →
        ∃ factory, w.factory conn.onDisconnect = some factory ∧
          factory.type = conn.type) ∧
      ∀ f factory, w.factory f = some factory →
        ∃ n : ℕ, {c | w.Holds f c}.encard = n ∧
          factory.numConnections = n + lost f w.log ∧
          n + lost f w.log ≤ 5 ∧
          ∀ c, (w.createConn f factory c false).2 = none ↔
            n + lost f w.log = 5 := by
  obtain ⟨w, hw, hinv⟩ := init_inv.run horderly
  refine ⟨w, hw, hinv.alive, ?_⟩
  intro f factory hf
  obtain ⟨n, hn, hnum⟩ := (hinv.counts f factory hf).exact
  have hbounded := (hinv.counts f factory hf).bounded
  unfold maxConnections at hbounded
  refine ⟨n, hn, hnum, by omega, ?_⟩
  intro c
  rw [createConn_none, hnum, maxConnections]
  simp only [Bool.false_eq_true, or_false]
  omega

/-- `main`: six connections from a factory for Postgres, of which the last is
refused; the vector with the others is destroyed before the factory. -/
def mainOps : List (Op Unit (Fin 6)) :=
  [.makeFactory () .postgres, .createConn () 0 false, .createConn () 1 false,
    .createConn () 2 false, .createConn () 3 false, .createConn () 4 false,
    .createConn () 5 false, .destroyConn 0, .destroyConn 1, .destroyConn 2,
    .destroyConn 3, .destroyConn 4, .destroyFactory ()]

/-- `main` up to the end of its loop, and all of it. -/
theorem run_counts_main : ((init : World Unit (Fin 6)).run mainOps).isSome ∧
    ∃ w, (init : World Unit (Fin 6)).run (mainOps.take 7) = some w ∧
      ∃ n : ℕ, {c | w.Holds () c}.encard = n ∧ n + lost () w.log = 5 := by
  have horderly : (init : World Unit (Fin 6)).Orderly (mainOps.take 7) := by
    decide
  obtain ⟨w, hw, _, hcounts⟩ := run_counts horderly
  refine ⟨by decide, w, hw, ?_⟩
  cases hw
  obtain ⟨n, hn, _, _, hfull⟩ := hcounts () ⟨.postgres, 5⟩ rfl
  exact ⟨n, hn, (hfull 5).1 rfl⟩

end World

end LearningCpp.DBConnections
