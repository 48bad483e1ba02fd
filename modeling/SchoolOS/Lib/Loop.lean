import Mathlib.Data.List.FinRange
import Mathlib.Order.Lattice
import Mathlib.Tactic.Common

/-!
# C loops

`forLoop body` is a counting loop over an array, with the rule `forLoop_invariant`.

`whileLoop cond body` runs a C `while` loop whose body may be undefined. The fuel counts the tests
of the loop condition, so `none` means that the fuel ran out or that some iteration was undefined.
`Returns` states that a program taking fuel has one result for all large enough fuel.

Its rules are an invariant for a terminating run (`whileLoop_eq_some_of_measure`), an invariant for
a run that is known to return (`whileLoop_invariant`), an invariant that keeps the loop from
returning (`not_returns_of_invariant`), a lockstep relation between two loops (`whileLoop_rel`), and
a stuttering simulation of one loop by another (`returns_of_stutter`).
-/

namespace SchoolOS

/-- `prog` returns `r`: every large enough amount of fuel gives `r`. -/
def Returns {α : Type*} (prog : ℕ → Option α) (r : α) : Prop :=
  ∃ N, ∀ fuel, N ≤ fuel → prog fuel = some r

/-- A program returns at most one result. -/
theorem Returns.unique {α : Type*} {prog : ℕ → Option α} {r r' : α}
    (h : Returns prog r) (h' : Returns prog r') : r = r' := by
  obtain ⟨N, hN⟩ := h
  obtain ⟨M, hM⟩ := h'
  have hr := hN (max N M) (le_max_left N M)
  rw [hM (max N M) (le_max_right N M)] at hr
  exact (Option.some.inj hr).symm

/-- Post-processing a result. -/
theorem Returns.map {α β : Type*} {prog : ℕ → Option α} {r : α} (h : Returns prog r) (f : α → β) :
    Returns (fun fuel => (prog fuel).map f) (f r) := by
  obtain ⟨N, hN⟩ := h
  exact ⟨N, fun fuel hfuel => by simp only [hN fuel hfuel, Option.map_some]⟩

namespace Loop

variable {σ τ : Type*}

/-- `for (int i = 0; i < n; i++) s = body(i, s);` -/
def forLoop {n : ℕ} (body : Fin n → σ → σ) (s : σ) : σ :=
  (List.finRange n).foldl (fun s i => body i s) s

/-- `P i` holds before iteration `i`, so `P n` holds at the end. -/
theorem forLoop_invariant {n : ℕ} {body : Fin n → σ → σ} (P : ℕ → σ → Prop) {s : σ} (h0 : P 0 s)
    (hstep : ∀ (i : Fin n) s, P i s → P (i + 1) (body i s)) : P n (forLoop body s) := by
  induction n with
  | zero => exact h0
  | succ n ih =>
    have hinit : P n (forLoop (fun i => body i.castSucc) s) :=
      ih fun i s hs => hstep i.castSucc s hs
    simp only [forLoop] at hinit ⊢
    rw [List.finRange_succ_last, List.foldl_append, List.foldl_map]
    exact hstep (Fin.last n) _ hinit

/-- A search loop stops at the least index. -/
theorem le_of_find?_finRange {n : ℕ} {p : Fin n → Bool} {i j : Fin n}
    (h : (List.finRange n).find? p = some i) (hj : p j = true) : i ≤ j := by
  obtain ⟨-, before, after, hsplit, hbefore⟩ := List.find?_eq_some_iff_append.mp h
  have hsorted := List.pairwise_lt_finRange n
  have hmem := List.mem_finRange j
  rw [hsplit] at hsorted hmem
  rcases List.mem_append.mp hmem with hmem | hmem
  · have hnot := hbefore j hmem
    simp [hj] at hnot
  · rcases List.mem_cons.mp hmem with hji | hmem
    · exact hji.ge
    · have hcons := (List.pairwise_append.mp hsorted).2.1
      exact (List.rel_of_pairwise_cons hcons hmem).le

/-- `while (cond s) s = body s;`, cut off after `fuel` tests of the condition. -/
def whileLoop (cond : σ → Bool) (body : σ → Option σ) : ℕ → σ → Option σ
  | 0, _ => none
  | fuel + 1, s => if cond s then (body s).bind (whileLoop cond body fuel) else some s

section Rules

variable {cond : σ → Bool} {body : σ → Option σ}

@[simp] theorem whileLoop_zero (s : σ) : whileLoop cond body 0 s = none := rfl

theorem whileLoop_of_not (fuel : ℕ) {s : σ} (h : cond s = false) :
    whileLoop cond body (fuel + 1) s = some s := by
  simp [whileLoop, h]

/-- A loop that is not entered returns the state it is given. -/
theorem eq_of_whileLoop_of_not {fuel : ℕ} {s s' : σ} (h : cond s = false)
    (hrun : whileLoop cond body fuel s = some s') : s' = s := by
  cases fuel with
  | zero => simp at hrun
  | succ fuel =>
    rw [whileLoop_of_not fuel h] at hrun
    exact (Option.some.inj hrun).symm

theorem whileLoop_of_body {fuel : ℕ} {s s' : σ} (h : cond s = true) (hb : body s = some s') :
    whileLoop cond body (fuel + 1) s = whileLoop cond body fuel s' := by
  simp [whileLoop, h, hb]

theorem returns_of_not {s : σ} (h : cond s = false) :
    Returns (fun fuel => whileLoop cond body fuel s) s := by
  refine ⟨1, fun fuel hfuel => ?_⟩
  obtain ⟨f, rfl⟩ : ∃ f, fuel = f + 1 := ⟨fuel - 1, by omega⟩
  exact whileLoop_of_not f h

/-- An iteration of a loop whose body is total. -/
theorem whileLoop_of_step {f : σ → σ} {fuel : ℕ} {s s' : σ} (h : cond s = true) (hf : f s = s') :
    whileLoop cond (fun s => some (f s)) (fuel + 1) s =
      whileLoop cond (fun s => some (f s)) fuel s' :=
  whileLoop_of_body h (congrArg some hf)

/-- Total correctness: under an invariant and a measure that every iteration decreases, the loop
returns for every fuel above the measure, in one and the same state. -/
theorem whileLoop_eq_some_of_measure (I : σ → Prop) (μ : σ → ℕ)
    (hstep : ∀ s, I s → cond s = true → ∃ s', body s = some s' ∧ I s' ∧ μ s' < μ s)
    (s : σ) (hs : I s) :
    ∃ s', (∀ fuel, μ s < fuel → whileLoop cond body fuel s = some s') ∧ I s' ∧
      cond s' = false := by
  induction hμ : μ s using Nat.strong_induction_on generalizing s with
  | _ m ih =>
    cases hc : cond s with
    | false =>
      refine ⟨s, ?_, hs, hc⟩
      intro fuel hfuel
      obtain ⟨f, rfl⟩ : ∃ f, fuel = f + 1 := ⟨fuel - 1, by omega⟩
      exact whileLoop_of_not f hc
    | true =>
      obtain ⟨s₁, hb, hI, hlt⟩ := hstep s hs hc
      obtain ⟨s', hrun, hI', hc'⟩ := ih (μ s₁) (hμ ▸ hlt) s₁ hI rfl
      refine ⟨s', ?_, hI', hc'⟩
      intro fuel hfuel
      obtain ⟨f, rfl⟩ : ∃ f, fuel = f + 1 := ⟨fuel - 1, by omega⟩
      rw [whileLoop_of_body hc hb]
      exact hrun f (by omega)

/-- `whileLoop_eq_some_of_measure`, without the bound on the fuel. -/
theorem returns_whileLoop (cond : σ → Bool) (body : σ → Option σ) (I : σ → Prop) (μ : σ → ℕ)
    (hstep : ∀ s, I s → cond s = true → ∃ s', body s = some s' ∧ I s' ∧ μ s' < μ s)
    (s : σ) (hs : I s) :
    ∃ s', Returns (fun fuel => whileLoop cond body fuel s) s' ∧ I s' ∧ cond s' = false := by
  obtain ⟨s', hrun, hI, hc⟩ := whileLoop_eq_some_of_measure I μ hstep s hs
  exact ⟨s', ⟨μ s + 1, hrun⟩, hI, hc⟩

/-- Partial correctness: an invariant of the body holds of every returned state. -/
theorem whileLoop_invariant (I : σ → Prop)
    (hstep : ∀ s s', I s → cond s = true → body s = some s' → I s')
    {fuel : ℕ} {s s' : σ} (hs : I s) (hrun : whileLoop cond body fuel s = some s') :
    I s' ∧ cond s' = false := by
  induction fuel generalizing s with
  | zero => simp at hrun
  | succ fuel ih =>
    cases hc : cond s with
    | false =>
      rw [whileLoop_of_not fuel hc] at hrun
      obtain rfl := Option.some.inj hrun
      exact ⟨hs, hc⟩
    | true =>
      simp only [whileLoop, hc, if_true] at hrun
      obtain ⟨s₁, hb, hrest⟩ := Option.bind_eq_some_iff.mp hrun
      exact ih (hstep s s₁ hs hc hb) hrest

/-- Divergence: a loop does not return if an invariant of its body keeps its condition true. -/
theorem not_returns_of_invariant (I : σ → Prop)
    (hstep : ∀ s s', I s → cond s = true → body s = some s' → I s')
    (hcond : ∀ s, I s → cond s = true) {s s' : σ} (hs : I s) :
    ¬ Returns (fun fuel => whileLoop cond body fuel s) s' := by
  rintro ⟨N, hN⟩
  obtain ⟨hI, hfalse⟩ := whileLoop_invariant I hstep hs (hN N le_rfl)
  rw [hcond s' hI] at hfalse
  exact Bool.false_ne_true hfalse.symm

/-- The states in which the loop that starts in `s₀` tests its condition. -/
inductive Visits (cond : σ → Bool) (body : σ → Option σ) (s₀ : σ) : σ → Prop
  | start : Visits cond body s₀ s₀
  | step {s s' : σ} : Visits cond body s₀ s → cond s = true → body s = some s' →
    Visits cond body s₀ s'

/-- An invariant of the body holds in every state the loop visits. -/
theorem Visits.invariant {s₀ s : σ} (h : Visits cond body s₀ s) (I : σ → Prop) (h0 : I s₀)
    (hstep : ∀ s s', I s → cond s = true → body s = some s' → I s') : I s := by
  induction h with
  | start => exact h0
  | step _ hc hb ih => exact hstep _ _ ih hc hb

/-- The state that a loop returns is the last one it visits. -/
theorem visits_of_whileLoop {fuel : ℕ} {s s' : σ} (hrun : whileLoop cond body fuel s = some s') :
    Visits cond body s s' :=
  (whileLoop_invariant (Visits cond body s) (fun _ _ h hc hb => .step h hc hb) .start hrun).1

/-- Lockstep: two loops whose conditions agree and whose bodies are defined for the same states and
keep `R` return related states after the same fuel. -/
theorem whileLoop_rel {cond' : τ → Bool} {body' : τ → Option τ} (R : σ → τ → Prop)
    (hcond : ∀ s t, R s t → cond s = cond' t)
    (hbody : ∀ s t, R s t → cond s = true → Option.Rel R (body s) (body' t))
    {s : σ} {t : τ} (hst : R s t) (fuel : ℕ) :
    Option.Rel R (whileLoop cond body fuel s) (whileLoop cond' body' fuel t) := by
  induction fuel generalizing s t with
  | zero => exact .none
  | succ fuel ih =>
    cases hc : cond s with
    | false =>
      have hc' : cond' t = false := hcond s t hst ▸ hc
      rw [whileLoop_of_not fuel hc, whileLoop_of_not fuel hc']
      exact .some hst
    | true =>
      have hc' : cond' t = true := hcond s t hst ▸ hc
      have hrel := hbody s t hst hc
      simp only [whileLoop, hc, hc', if_true]
      generalize body s = o at hrel ⊢
      generalize body' t = o' at hrel ⊢
      cases hrel with
      | none => exact .none
      | some hR => exact ih hR

/-- Lockstep between two loops that both return. -/
theorem rel_of_returns {cond' : τ → Bool} {body' : τ → Option τ} (R : σ → τ → Prop)
    (hcond : ∀ s t, R s t → cond s = cond' t)
    (hbody : ∀ s t, R s t → cond s = true →
      ∃ s' t', body s = some s' ∧ body' t = some t' ∧ R s' t')
    {s s' : σ} {t t' : τ} (hst : R s t) (hs : Returns (fun fuel => whileLoop cond body fuel s) s')
    (ht : Returns (fun fuel => whileLoop cond' body' fuel t) t') : R s' t' := by
  obtain ⟨N, hN⟩ := hs
  obtain ⟨M, hM⟩ := ht
  have hs' := hN (max N M) (le_max_left N M)
  have ht' := hM (max N M) (le_max_right N M)
  have hdefined : ∀ s t, R s t → cond s = true → Option.Rel R (body s) (body' t) := by
    intro s t hR hc
    obtain ⟨s₁, t₁, hb, hb', hR'⟩ := hbody s t hR hc
    rw [hb, hb']
    exact .some hR'
  have hrel := whileLoop_rel R hcond hdefined hst (max N M)
  simp only at hs' ht'
  rw [hs', ht'] at hrel
  cases hrel with
  | some hR => exact hR

/-- Stuttering simulation: when every iteration of a loop keeps `R` with the state of a second loop
or with its next state, and the second loop is over when the first one is, then it returns a related
state. -/
theorem returns_of_stutter {cond' : τ → Bool} {body' : τ → Option τ} (R : σ → τ → Prop)
    (hstep : ∀ s s' t, R s t → cond s = true → body s = some s' →
      R s' t ∨ ∃ t', cond' t = true ∧ body' t = some t' ∧ R s' t')
    (hend : ∀ s t, R s t → cond s = false → cond' t = false)
    {s s' : σ} {t : τ} (hst : R s t) (hs : Returns (fun fuel => whileLoop cond body fuel s) s') :
    ∃ t', Returns (fun fuel => whileLoop cond' body' fuel t) t' ∧ R s' t' := by
  obtain ⟨fuel, hN⟩ := hs
  have hrun := hN fuel le_rfl
  clear hN
  induction fuel generalizing s t with
  | zero => simp at hrun
  | succ fuel ih =>
    cases hc : cond s with
    | false =>
      obtain rfl := eq_of_whileLoop_of_not hc hrun
      exact ⟨t, returns_of_not (hend s' t hst hc), hst⟩
    | true =>
      simp only [whileLoop, hc, if_true] at hrun
      obtain ⟨s₁, hb, hrest⟩ := Option.bind_eq_some_iff.mp hrun
      rcases hstep s s₁ t hst hc hb with hR | ⟨t₁, hc', hb', hR⟩
      · exact ih hR hrest
      · obtain ⟨t', ⟨N, hN⟩, hR'⟩ := ih hR hrest
        refine ⟨t', ⟨N + 1, ?_⟩, hR'⟩
        intro fuel' hfuel'
        obtain ⟨m, rfl⟩ : ∃ m, fuel' = m + 1 := ⟨fuel' - 1, by omega⟩
        simp only [whileLoop_of_body hc' hb']
        exact hN m (by omega)

end Rules

end Loop

end SchoolOS
