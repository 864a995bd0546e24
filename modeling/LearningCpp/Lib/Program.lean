import Mathlib

/-!
# Programs that change a state, throw and may be undefined

A program takes a state to the state it ends in and to the value it returns or
the exception it ends with. Where what it does is undefined it has no result at
all. The lemmas below run a program: from what its first part does from a given
state follows what the whole does.
-/

namespace LearningCpp.Lib

universe u v

def Program (σ : Type u) (ε : Type v) (α : Type) :=
  σ → Option (Except ε α × σ)

namespace Program

variable {σ : Type u} {ε : Type v} {α β : Type}

instance : Monad (Program σ ε) where
  pure a := fun s => some (.ok a, s)
  bind c f := fun s =>
    match c s with
    | none => none
    | some (.ok a, s) => f a s
    | some (.error e, s) => some (.error e, s)

/-- Anything may happen. -/
def undefined : Program σ ε α := fun _ => none

def throw (e : ε) : Program σ ε α := fun s => some (.error e, s)

/-- Reads from the state, which has to have what is read. -/
def read (f : σ → Option α) : Program σ ε α :=
  fun s => (f s).map (fun a => (.ok a, s))

/-- Changes the state, which has to admit the change. -/
def update (f : σ → Option σ) : Program σ ε Unit :=
  fun s => (f s).map (fun s => (.ok (), s))

/-- `try { c } catch (...) { handler; throw; }` -/
def rethrow (c : Program σ ε α) (handler : Program σ ε Unit) :
    Program σ ε α := fun s =>
  match c s with
  | none => none
  | some (.ok a, s) => some (.ok a, s)
  | some (.error e, s) => (handler >>= fun _ => throw e : Program σ ε α) s

/-- Runs `c` and then, however `c` ended, `final`. -/
def ensuring (c : Program σ ε α) (final : Program σ ε Unit) :
    Program σ ε α := do
  let a ← rethrow c final
  final
  pure a

/-- `for (i = start; i < start + n; ++i) body(i)` -/
def forFrom (body : ℕ → Program σ ε Unit) (start : ℕ) :
    ℕ → Program σ ε Unit
  | 0 => pure ()
  | n + 1 => do
    body start
    forFrom body (start + 1) n

/-- `for (i = 0; i < n; ++i) body(i)` -/
def forUpto (n : ℕ) (body : ℕ → Program σ ε Unit) : Program σ ε Unit :=
  forFrom body 0 n

/-- The program returns `a`, in the state `s'`. -/
def Returns (c : Program σ ε α) (s : σ) (a : α) (s' : σ) : Prop :=
  c s = some (.ok a, s')

/-- The program throws `e`, in the state `s'`. -/
def Throws (c : Program σ ε α) (s : σ) (e : ε) (s' : σ) : Prop :=
  c s = some (.error e, s')

section Rules

variable {c : Program σ ε α} {f : α → Program σ ε β} {s s' s'' : σ} {a : α}
  {b : β} {e : ε}

theorem Returns.pure : Returns (pure a : Program σ ε α) s a s := rfl

theorem bind_returns (h : Returns c s a s') : (c >>= f) s = f a s' := by
  show (match c s with
    | none => none
    | some (.ok a, s) => f a s
    | some (.error e, s) => some (.error e, s)) = f a s'
  rw [h]

theorem Throws.bind (h : Throws c s e s') : Throws (c >>= f) s e s' := by
  show (match c s with
    | none => none
    | some (.ok a, s) => f a s
    | some (.error e, s) => some (.error e, s)) = some (.error e, s')
  rw [h]

/-- A sequence ends where its second part does, or where the first throws. -/
theorem bind_cases {r : Except ε β}
    (h : (c >>= f) s = some (r, s')) :
    (∃ a t, Returns c s a t ∧ f a t = some (r, s')) ∨
      ∃ e, Throws c s e s' ∧ r = .error e := by
  change (match c s with
    | none => none
    | some (.ok a, s) => f a s
    | some (.error e, s) => some (.error e, s)) = some (r, s') at h
  split at h
  · cases h
  · next a t hc => exact .inl ⟨a, t, hc, h⟩
  · next e t hc =>
      cases h
      exact .inr ⟨e, hc, rfl⟩

theorem Returns.bind (h : Returns c s a s') (hf : Returns (f a) s' b s'') :
    Returns (c >>= f) s b s'' := (bind_returns h).trans hf

theorem Returns.bind_throws (h : Returns c s a s')
    (hf : Throws (f a) s' e s'') : Throws (c >>= f) s e s'' :=
  (bind_returns h).trans hf

theorem Returns.read {g : σ → Option α} (h : g s = some a) :
    Returns (read g : Program σ ε α) s a s := by
  simp [Returns, Program.read, h]

theorem Returns.update {g : σ → Option σ} (h : g s = some s') :
    Returns (update g : Program σ ε Unit) s () s' := by
  simp [Returns, Program.update, h]

theorem Returns.rethrow {handler : Program σ ε Unit} (h : Returns c s a s') :
    Returns (rethrow c handler) s a s' := by
  unfold Returns Program.rethrow
  rw [h]

theorem Throws.rethrow {handler : Program σ ε Unit} (h : Throws c s e s')
    (hh : Returns handler s' () s'') : Throws (rethrow c handler) s e s'' := by
  unfold Throws Program.rethrow
  rw [h]
  exact bind_returns hh

theorem Returns.ensuring {final : Program σ ε Unit} (h : Returns c s a s')
    (hh : Returns final s' () s'') : Returns (ensuring c final) s a s'' :=
  h.rethrow.bind (hh.bind .pure)

theorem Throws.ensuring {final : Program σ ε Unit} (h : Throws c s e s')
    (hh : Returns final s' () s'') : Throws (ensuring c final) s e s'' :=
  (h.rethrow hh).bind

/-- A loop whose bodies take `g i` to `g (i + 1)`. -/
theorem Returns.forFrom {f : ℕ → Program σ ε Unit} {g : ℕ → σ} (n : ℕ) :
    ∀ start, (∀ i, start ≤ i → i < start + n →
      Returns (f i) (g i) () (g (i + 1))) →
      Returns (Program.forFrom f start n) (g start) () (g (start + n)) := by
  induction n with
  | zero => exact fun _ _ => rfl
  | succ n ih =>
      intro start hbody
      have hfirst := hbody start (Nat.le_refl _) (by omega)
      have hrest := ih (start + 1) (fun i hi hn => hbody i (by omega) (by omega))
      rw [show start + 1 + n = start + (n + 1) by omega] at hrest
      exact hfirst.bind hrest

theorem Returns.forUpto {f : ℕ → Program σ ε Unit} {g : ℕ → σ} {n : ℕ}
    (hbody : ∀ i, i < n → Returns (f i) (g i) () (g (i + 1))) :
    Returns (Program.forUpto n f) (g 0) () (g n) := by
  have h := Returns.forFrom (g := g) n 0
    (fun i _ hi => hbody i (by omega))
  rw [Nat.zero_add] at h
  exact h

/-- A loop whose body throws in round `j`. -/
theorem Throws.forFrom {f : ℕ → Program σ ε Unit} {g : ℕ → σ} (n : ℕ) :
    ∀ start j, j < n → (∀ i, start ≤ i → i < start + j →
      Returns (f i) (g i) () (g (i + 1))) →
      Throws (f (start + j)) (g (start + j)) e s' →
      Throws (Program.forFrom f start n) (g start) e s' := by
  induction n with
  | zero => exact fun _ j hj => absurd hj (Nat.not_lt_zero j)
  | succ n ih =>
      intro start j hj hbody hthrow
      cases j with
      | zero => exact hthrow.bind
      | succ j =>
          have hfirst := hbody start (Nat.le_refl _) (by omega)
          rw [show start + (j + 1) = start + 1 + j by omega] at hthrow
          exact hfirst.bind_throws (ih (start + 1) j (by omega)
            (fun i hi hn => hbody i (by omega) (by omega)) hthrow)

theorem Throws.forUpto {f : ℕ → Program σ ε Unit} {g : ℕ → σ} {n j : ℕ}
    {t : σ} (hj : j < n)
    (hbody : ∀ i, i < j → Returns (f i) (g i) () (g (i + 1)))
    (hthrow : Throws (f j) (g j) e t) :
    Throws (Program.forUpto n f) (g 0) e t := by
  refine Throws.forFrom (g := g) n 0 j hj
    (fun i _ hi => hbody i (by omega)) ?_
  rw [Nat.zero_add]
  exact hthrow

end Rules

end Program

end LearningCpp.Lib
