/-
  Programs that run against a host.

  A `Resume` is a computation seen from outside: it either is over, or asks the host for something
  and goes on from the answer.  What it computes in between is not visible and not restricted.  The
  host keeps a state.  Two rules carry every proof about a run: what each call the program may make
  keeps, the run keeps; and two hosts that answer alike cannot be told apart.
-/
import Mathlib.Logic.Relation

namespace Base

/-- A program that calls a host for `C`, is answered with an `R`, and ends with an `A`. -/
inductive Resume (C R A : Type) where
  | done (a : A)
  | call (c : C) (next : R → Resume C R A)

namespace Resume

variable {C R A σ τ : Type}

/-- The run of a program against a host with a state. -/
def run (host : σ → C → σ × R) : Resume C R A → σ → σ × A
  | .done a, s => (s, a)
  | .call c next, s => run host (next (host s c).2) (host s c).1

/-- **The invariant rule.** What every call keeps, a run keeps. -/
theorem run_invariant {I : σ → Prop} (p : Resume C R A) (hcall : ∀ s c, I s → I (host s c).1) :
    ∀ s, I s → I (run host p s).1 := by
  induction p with
  | done a => exact fun s hI => hI
  | call c next ih => exact fun s hI => ih (host s c).2 _ (hcall s c hI)

end Resume
end Base
