import Mathlib.Data.Nat.Init

/-!
# Runs that end

A concurrent program is a relation `step` on its states: a step of any of its processes is a step of
the program. `EveryRunEnds step P s` says that no run from `s` is infinite and that every run that
cannot go on has reached a state of `P`, so a deadlock outside of `P` is excluded as well.

`EveryRunEnds.of_measure` proves it from an invariant, a measure, and what the invariant says of a
state without a step.
-/

namespace SchoolOS

variable {σ : Type*} {step : σ → σ → Prop} {P : σ → Prop}

/-- Every run from the state is finite, and ends in a state of `P`. -/
inductive EveryRunEnds (step : σ → σ → Prop) (P : σ → Prop) : σ → Prop
  | intro {s : σ} (next : ∀ t, step s t → EveryRunEnds step P t)
      (last : (∀ t, ¬ step s t) → P s) : EveryRunEnds step P s

/-- The end of every run, with less said about it. -/
theorem EveryRunEnds.mono {Q : σ → Prop} {s : σ} (h : EveryRunEnds step P s)
    (hPQ : ∀ s, P s → Q s) :
    EveryRunEnds step Q s := by
  induction h with
  | intro _ last ih => exact .intro ih fun hlast => hPQ _ (last hlast)

/-- The rule of an invariant `I` with a measure that every step decreases. -/
theorem EveryRunEnds.of_measure {I : σ → Prop} {s : σ} (μ : σ → ℕ) (hs : I s)
    (keep : ∀ s t, I s → step s t → I t) (down : ∀ s t, I s → step s t → μ t < μ s)
    (last : ∀ s, I s → (∀ t, ¬ step s t) → P s) : EveryRunEnds step P s := by
  -- Strong induction on the measure of the state.
  induction hn : μ s using Nat.strong_induction_on generalizing s with
  | h n ih =>
    subst hn
    refine .intro ?_ (last s hs)
    intro t ht
    exact ih (μ t) (down s t hs ht) (keep s t hs ht) rfl

end SchoolOS
