import LearningCpp.Lib.Run

/-!
# What the calls of a run cost together

A call that now and then does a lot is paid for by the calls before it: give the
state a potential, and let a call be charged what it costs and what it adds to
the potential. Over a run the potential cancels, so what all calls cost is at
most what all were charged, and what is left in the state counts too.
-/

namespace LearningCpp.Lib

variable {σ ι ο : Type*}

/-- The sum of something over the calls of a run, each in the state it is made
in. -/
def runTotal (step : σ → ι → σ × ο) (f : σ → ι → ℕ) : σ → List ι → ℕ
  | _, [] => 0
  | s, i :: is => f s i + runTotal step f (step s i).1 is

@[simp] theorem runTotal_nil (step : σ → ι → σ × ο) (f : σ → ι → ℕ) (s : σ) :
    runTotal step f s [] = 0 := rfl

@[simp] theorem runTotal_cons (step : σ → ι → σ × ο) (f : σ → ι → ℕ) (s : σ)
    (i : ι) (is : List ι) :
    runTotal step f s (i :: is) =
      f s i + runTotal step f (step s i).1 is := rfl

/-- The potential method. -/
theorem runTotal_amortized (potential : σ → ℕ) {step : σ → ι → σ × ο}
    {I : σ → Prop} {cost charge : σ → ι → ℕ}
    (hstep : ∀ s i, I s → I (step s i).1 ∧
      cost s i + potential (step s i).1 ≤ charge s i + potential s)
    {s : σ} (hs : I s) (is : List ι) :
    runTotal step cost s is + potential (runState step s is) ≤
      runTotal step charge s is + potential s := by
  induction is generalizing s with
  | nil => exact le_refl _
  | cons i is ih =>
      obtain ⟨hI, hpaid⟩ := hstep s i hs
      have hrest := ih hI
      rw [runTotal_cons, runTotal_cons, runState_cons]
      omega

end LearningCpp.Lib
