/-
  Labelled transition systems and what a function of a program does in one.

  A program's handler computes a new state and a list of outputs in one go.  To prove an invariant
  of it, its run is read as a trace of small events, each with its guard: `Produces` says that the
  handler's result is reached by such a trace, that the trace's outputs are the handler's outputs
  and in its order, and which events the trace may contain.  An invariant is then proved once per
  event, not once per handler.
-/
import Mathlib.Data.List.Basic

namespace Base
variable {σ ε α : Type} {step : σ → ε → σ → Prop}

/-- `Trace step s evs s'`: the events `evs`, in order, lead from `s` to `s'`. -/
inductive Trace (step : σ → ε → σ → Prop) : σ → List ε → σ → Prop
  | nil (s : σ) : Trace step s [] s
  | cons {s ev s₁ evs s₂} : step s ev s₁ → Trace step s₁ evs s₂ → Trace step s (ev :: evs) s₂

namespace Trace

theorem append (h : Trace step s evs s₁)
    (h' : Trace step s₁ evs' s₂) : Trace step s (evs ++ evs') s₂ := by
  induction h with
  | nil => exact h'
  | cons hstep _ ih => exact .cons hstep (ih h')

variable {allow : ε → Prop}

/-- **The invariant rule.** What every allowed event keeps, a trace of allowed events keeps. -/
theorem invariant {I : σ → Prop} (hstep : ∀ s ev s', step s ev s' → allow ev → I s → I s')
    (h : Trace step s evs s') :
    (∀ ev ∈ evs, allow ev) → I s → I s' := by
  induction h with
  | nil => intro _ hI; exact hI
  | cons hs _ ih =>
    grind

/-- The invariant rule with the outputs so far: `I` relates the state to everything emitted. -/
theorem invariant_outputs {I : σ → List α → Prop}
    (hstep : ∀ s ev s' log, step s ev s' → allow ev → I s log → I s' (log ++ out ev))
    (h : Trace step s evs s') :
    ∀ log, (∀ ev ∈ evs, allow ev) → I s log → I s' (log ++ evs.flatMap out) := by
  induction h with
  | nil =>
    simp
  | @cons s ev s₁ evs s₂ hs _ ih =>
    grind

end Trace

/-- From `s`, events that all satisfy `allow` lead to `s'` and output `as`. -/
def Produces (step : σ → ε → σ → Prop) (out : ε → List α) (allow : ε → Prop) (s : σ)
    (as : List α) (s' : σ) : Prop :=
  ∃ evs, Trace step s evs s' ∧ evs.flatMap out = as ∧ ∀ ev ∈ evs, allow ev

namespace Produces

theorem refl (s : σ) : Produces step out allow s [] s :=
  ⟨[], .nil s, rfl, fun _ h => absurd h List.not_mem_nil⟩

theorem single (h : step s ev s') (hev : allow ev) : Produces step out allow s (out ev) s' := by
  refine ⟨[ev], .cons h (.nil s'), List.append_nil _, ?_⟩
  intro ev' hev'
  rw [List.mem_singleton.mp hev']
  exact hev

theorem trans (h : Produces step out allow s as s₁)
    (h' : Produces step out allow s₁ as' s₂) : Produces step out allow s (as ++ as') s₂ := by
  obtain ⟨evs, htr, hout, hallow⟩ := h
  grind [Trace.append, Produces]

/-- The same run, read in a system that has all of its moves. -/
theorem steps (hstep : ∀ s ev s', step s ev s' → allow ev → step' s ev s')
    (h : Produces step out allow s as s') : Produces step' out allow s as s' := by
  obtain ⟨evs, htr, hout, hallow⟩ := h
  refine ⟨evs, ?_, hout, hallow⟩
  clear hout
  induction htr with
  | nil s => exact .nil s
  | cons hs _ ih =>
    have hrest := ih (fun ev hev => hallow ev (List.mem_cons_of_mem _ hev))
    exact .cons (hstep _ _ _ hs (hallow _ List.mem_cons_self)) hrest

theorem mono (hsub : ∀ ev, allow ev → allow' ev)
    (h : Produces step out allow s as s') : Produces step out allow' s as s' := by
  grind [Produces]

/-- **Where an output comes from.** It was emitted by one event of the run, at a state with every
    invariant of the events. -/
theorem exists_step {I : σ → Prop} (hstep : ∀ s ev s', step s ev s' → allow ev → I s → I s')
    (h : Produces step out allow s as s') (hI : I s)
    (ha : a ∈ as) : ∃ s₁ ev s₂, step s₁ ev s₂ ∧ allow ev ∧ I s₁ ∧ a ∈ out ev := by
  obtain ⟨evs, htr, rfl, hallow⟩ := h
  induction htr with
  | nil => exact absurd ha List.not_mem_nil
  | @cons s ev s₁ evs s₂ hs _ ih =>
    grind

/-- One event, then the rest. -/
theorem head (h : step s ev s₁) (hev : allow ev)
    (h' : Produces step out allow s₁ as s₂) : Produces step out allow s (out ev ++ as) s₂ :=
  (single h hev).trans h'

end Produces
end Base
