import SchoolOS.Lib.Loop
import Mathlib.Data.Finset.Max
import Mathlib.Data.Fintype.Basic
import Mathlib.Logic.Function.Basic

/-!
# Event-driven scheduling without preemption

The textbook algorithm on one processor: when the processor is free, take one of the jobs that have
arrived, or wait for the next arrival if there is none, and run the job to its end. Time jumps from
one start to the next. `pick` chooses among the jobs that have arrived.
-/

namespace SchoolOS

open Function Loop

variable {n : ℕ}

/-- The jobs that have not run yet, the time at which the processor is free, and the times of the
others. -/
structure EventState (n : ℕ) where
  time : ℤ
  unfinished : Finset (Fin n)
  start : Fin n → ℤ
  finish : Fin n → ℤ

namespace EventState

variable (arrival burst : Fin n → ℤ) (pick : Finset (Fin n) → Option (Fin n))

/-- No job has run at time 0. -/
def initial (n : ℕ) : EventState n := ⟨0, Finset.univ, fun _ => 0, fun _ => 0⟩

/-- The unfinished jobs that have arrived by time `t`. -/
def arrived (e : EventState n) (t : ℤ) : Finset (Fin n) :=
  e.unfinished.filter fun i => arrival i ≤ t

/-- The next start: now if a job has arrived, else the least arrival of an unfinished job. -/
def wake (e : EventState n) : ℤ :=
  if (e.arrived arrival e.time).Nonempty then e.time
  else (e.unfinished.image arrival).min.untopD e.time

/-- Run one job to its end. -/
def step (e : EventState n) : Option (EventState n) :=
  (pick (e.arrived arrival (e.wake arrival))).map fun i =>
    { time := e.wake arrival + burst i
      unfinished := e.unfinished.erase i
      start := update e.start i (e.wake arrival)
      finish := update e.finish i (e.wake arrival + burst i) }

end EventState

/-- Run jobs until none is left. -/
def eventSchedule (arrival burst : Fin n → ℤ) (pick : Finset (Fin n) → Option (Fin n)) (fuel : ℕ) :
    Option (EventState n) :=
  whileLoop (fun e => e.unfinished.Nonempty) (EventState.step arrival burst pick) fuel
    (EventState.initial n)

/-- The job with the least `key`, and the least index among these. -/
def pickLeast (key : Fin n → ℤ) (jobs : Finset (Fin n)) : Option (Fin n) :=
  (List.finRange n).find? fun i => i ∈ jobs ∧ ∀ j ∈ jobs, key i ≤ key j

/-- The job with the least index. -/
def pickFirst (jobs : Finset (Fin n)) : Option (Fin n) := (List.finRange n).find? (· ∈ jobs)

namespace EventState

variable {arrival : Fin n → ℤ} {e : EventState n} {t : ℤ} {i : Fin n}

theorem mem_arrived : i ∈ e.arrived arrival t ↔ i ∈ e.unfinished ∧ arrival i ≤ t :=
  Finset.mem_filter

/-- A job that has arrived is started at once. -/
theorem wake_of_le (hi : i ∈ e.unfinished) (hle : arrival i ≤ e.time) : e.wake arrival = e.time :=
  if_pos ⟨i, mem_arrived.mpr ⟨hi, hle⟩⟩

/-- Without a job that has arrived, time jumps to the least arrival. -/
theorem wake_of_lt (hi : i ∈ e.unfinished) (hlt : ∀ j ∈ e.unfinished, e.time < arrival j)
    (hleast : ∀ j ∈ e.unfinished, arrival i ≤ arrival j) : e.wake arrival = arrival i := by
  have hempty : ¬ (e.arrived arrival e.time).Nonempty := by
    rintro ⟨j, hj⟩
    obtain ⟨hmem, hle⟩ := mem_arrived.mp hj
    have := hlt j hmem
    omega
  have hmin : (e.unfinished.image arrival).min = (arrival i : WithTop ℤ) := by
    apply le_antisymm
    · exact Finset.min_le (Finset.mem_image_of_mem arrival hi)
    · apply Finset.le_min
      intro a ha
      obtain ⟨j, hj, rfl⟩ := Finset.mem_image.mp ha
      exact WithTop.coe_le_coe.mpr (hleast j hj)
  rw [wake, if_neg hempty, hmin, WithTop.untopD_coe]

end EventState

theorem pickLeast_empty (key : Fin n → ℤ) : pickLeast key ∅ = none :=
  List.find?_eq_none.mpr fun i _ => by simp

theorem pickLeast_eq_some {key : Fin n → ℤ} {jobs : Finset (Fin n)} {i : Fin n} (hi : i ∈ jobs)
    (hleast : ∀ j ∈ jobs, key i < key j ∨ key i = key j ∧ i ≤ j) : pickLeast key jobs = some i := by
  have hp : i ∈ jobs ∧ ∀ j ∈ jobs, key i ≤ key j := by
    refine ⟨hi, fun j hj => ?_⟩
    rcases hleast j hj with hlt | ⟨heq, -⟩
    · exact hlt.le
    · exact heq.le
  cases hpick : pickLeast key jobs with
  | none =>
    have hnot := List.find?_eq_none.mp hpick i (List.mem_finRange i)
    exact absurd (decide_eq_true hp) hnot
  | some k =>
    have hk : k ∈ jobs ∧ ∀ j ∈ jobs, key k ≤ key j := by
      simpa only [decide_eq_true_eq] using List.find?_some hpick
    have hki : k ≤ i := le_of_find?_finRange hpick (decide_eq_true hp)
    rcases hleast k hk.1 with hlt | ⟨-, hik⟩
    · exact absurd (hk.2 i hi) (not_le.mpr hlt)
    · rw [le_antisymm hki hik]

/-! ## Jobs in the order of their arrival -/

/-- The finish time of the job before job `k`, and 0 for the first job. -/
def previousFinish (finish : Fin n → ℤ) : (k : ℕ) → k ≤ n → ℤ
  | 0, _ => 0
  | k + 1, h => finish ⟨k, h⟩

/-- The first `m` jobs have run, one after another. -/
structure InOrder (arrival burst : Fin n → ℤ) (e : EventState n) (m : ℕ) (hm : m ≤ n) : Prop where
  unfinished : ∀ i, i ∈ e.unfinished ↔ m ≤ i.val
  time : e.time = previousFinish e.finish m hm
  start : ∀ k : Fin n, k.val < m →
    e.start k = max (arrival k) (previousFinish e.finish k k.isLt.le)
  finish : ∀ k : Fin n, k.val < m → e.finish k = e.start k + burst k

theorem pickFirst_eq_some {jobs : Finset (Fin n)} {i : Fin n} (hi : i ∈ jobs)
    (hle : ∀ j ∈ jobs, i ≤ j) : pickFirst jobs = some i := by
  cases hpick : pickFirst jobs with
  | none =>
    have hnot := List.find?_eq_none.mp hpick i (List.mem_finRange i)
    exact absurd (decide_eq_true hi) hnot
  | some k =>
    have hk : k ∈ jobs := by simpa using List.find?_some hpick
    have hki : k ≤ i := le_of_find?_finRange hpick (decide_eq_true hi)
    rw [le_antisymm hki (hle k hk)]

/-- The finish time of the job before does not change when a later job runs. -/
theorem previousFinish_update (finish : Fin n → ℤ) {m : Fin n} (t : ℤ) {k : ℕ} (hk : k ≤ n)
    (hkm : k ≤ m) : previousFinish (update finish m t) k hk = previousFinish finish k hk := by
  cases k with
  | zero => rfl
  | succ k => exact update_of_ne (Fin.ne_of_val_ne (by simp only; omega)) _ _

namespace InOrder

variable {arrival burst : Fin n → ℤ} {e e' : EventState n} {m : ℕ} {hm : m ≤ n}

/-- The next job starts when it has arrived and the job before has finished. -/
theorem wake_eq (h : InOrder arrival burst e m hm)
    (hsorted : ∀ i j, i ≤ j → arrival i ≤ arrival j) (hlt : m < n) :
    e.wake arrival = max (arrival ⟨m, hlt⟩) e.time := by
  have hmem : (⟨m, hlt⟩ : Fin n) ∈ e.unfinished := (h.unfinished _).mpr le_rfl
  have hleast : ∀ j ∈ e.unfinished, arrival ⟨m, hlt⟩ ≤ arrival j :=
    fun j hj => hsorted _ j (Fin.mk_le_of_le_val ((h.unfinished j).mp hj))
  by_cases hle : arrival ⟨m, hlt⟩ ≤ e.time
  · rw [EventState.wake_of_le hmem hle, max_eq_right hle]
  · have hgt := not_le.mp hle
    rw [EventState.wake_of_lt hmem (fun j hj => hgt.trans_le (hleast j hj)) hleast,
      max_eq_left hgt.le]

/-- The next event is the next job. -/
theorem step (h : InOrder arrival burst e m hm)
    (hsorted : ∀ i j, i ≤ j → arrival i ≤ arrival j) (hlt : m < n)
    (hstep : e.step arrival burst pickFirst = some e') : InOrder arrival burst e' (m + 1) hlt := by
  have hwake := h.wake_eq hsorted hlt
  have hpick : pickFirst (e.arrived arrival (e.wake arrival)) = some ⟨m, hlt⟩ := by
    apply pickFirst_eq_some
    · exact EventState.mem_arrived.mpr ⟨(h.unfinished _).mpr le_rfl, hwake ▸ le_max_left _ _⟩
    · intro j hj
      exact Fin.mk_le_of_le_val ((h.unfinished j).mp (EventState.mem_arrived.mp hj).1)
  rw [EventState.step, hpick, Option.map_some] at hstep
  obtain rfl := Option.some.inj hstep
  have hne : ∀ k : Fin n, k.val < m → k ≠ ⟨m, hlt⟩ := fun k hk => Fin.ne_of_val_ne hk.ne
  have hlast : ∀ k : Fin n, k.val < m + 1 → ¬ k.val < m → k = ⟨m, hlt⟩ :=
    fun k hk hkm => Fin.ext (by simp only; omega)
  refine ⟨?_, ?_, ?_, ?_⟩
  · intro i
    rw [Finset.mem_erase, h.unfinished i, Ne, Fin.ext_iff]
    simp only
    omega
  · exact (update_self (⟨m, hlt⟩ : Fin n) _ e.finish).symm
  · intro k hk
    simp only
    by_cases hkm : k.val < m
    · rw [update_of_ne (hne k hkm), previousFinish_update _ _ _ hkm.le]
      exact h.start k hkm
    · obtain rfl := hlast k hk hkm
      rw [update_self, previousFinish_update _ _ _ le_rfl, hwake, h.time]
  · intro k hk
    simp only
    by_cases hkm : k.val < m
    · rw [update_of_ne (hne k hkm), update_of_ne (hne k hkm)]
      exact h.finish k hkm
    · obtain rfl := hlast k hk hkm
      rw [update_self, update_self]

end InOrder

/-- Jobs that are sorted by arrival and run in this order: each one starts when it has arrived and
the one before has finished. -/
theorem eventSchedule_pickFirst {arrival burst : Fin n → ℤ}
    (hsorted : ∀ i j, i ≤ j → arrival i ≤ arrival j) {e : EventState n}
    (h : Returns (eventSchedule arrival burst pickFirst) e) (k : Fin n) :
    e.start k = max (arrival k) (previousFinish e.finish k k.isLt.le) ∧
      e.finish k = e.start k + burst k := by
  obtain ⟨fuel, hfuel⟩ := h
  obtain ⟨⟨m, hm, horder⟩, hdone⟩ := whileLoop_invariant
    (fun e => ∃ m hm, InOrder arrival burst e m hm) (by
      rintro e e' ⟨m, hm, horder⟩ hne hstep
      obtain ⟨i, hi⟩ := of_decide_eq_true hne
      have hlt : m < n := ((horder.unfinished i).mp hi).trans_lt i.isLt
      exact ⟨m + 1, hlt, horder.step hsorted hlt hstep⟩)
    ⟨0, Nat.zero_le n, fun i => by simp [EventState.initial], rfl, fun k hk => absurd hk (by omega),
      fun k hk => absurd hk (by omega)⟩ (hfuel fuel le_rfl)
  have hkm : k.val < m := by
    by_contra hge
    have hempty : ¬ e.unfinished.Nonempty := of_decide_eq_false hdone
    exact hempty ⟨k, (horder.unfinished k).mpr (not_lt.mp hge)⟩
  exact ⟨horder.start k hkm, horder.finish k hkm⟩

end SchoolOS
