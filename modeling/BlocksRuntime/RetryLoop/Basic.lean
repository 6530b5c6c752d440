/-!
# Retry loops on one shared word

A lock-free update reads a word, decides from the value what to do, and
either returns at once or tries to swap in a new value.  If the swap fails
because the word has changed, it starts again.  `Attempt` is the decision
that one pass of such a loop takes, as a function of the value it read.  The
same decision serves two semantics: `Attempt.run` when nobody interferes, and
the interleaving of any number of threads in `RetryLoop.Linearize`.
-/

namespace RetryLoop

variable {σ ρ : Type}

/-- The decision of one pass over the value that was read. -/
inductive Attempt (σ ρ : Type) where
  /-- Return without touching the word. -/
  | exit (result : ρ)
  /-- Try to swap in `new`, and return `result` if that works. -/
  | cas (new : σ) (result : ρ)
  deriving DecidableEq, Repr

/-- The loop without interference: the first swap succeeds. -/
def Attempt.run (old : σ) : Attempt σ ρ → ρ × σ
  | .exit result => (result, old)
  | .cas new result => (result, new)

@[simp] theorem Attempt.run_exit (old : σ) (r : ρ) :
    (Attempt.exit r : Attempt σ ρ).run old = (r, old) := rfl

@[simp] theorem Attempt.run_cas (old new : σ) (r : ρ) :
    (Attempt.cas new r).run old = (r, new) := rfl

/-- Another view of the result. -/
def Attempt.map {τ : Type} (f : ρ → τ) : Attempt σ ρ → Attempt σ τ
  | .exit result => .exit (f result)
  | .cas new result => .cas new (f result)

theorem Attempt.run_map {τ : Type} (f : ρ → τ) (old : σ) (a : Attempt σ ρ) :
    (a.map f).run old = (f (a.run old).1, (a.run old).2) := by
  cases a <;> rfl

end RetryLoop
