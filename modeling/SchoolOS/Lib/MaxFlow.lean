import Mathlib.Order.Interval.Finset.Fin
import SchoolOS.Lib.EventSchedule
import SchoolOS.Lib.UnitSchedule

/-!
# The largest flow time

The flow time of a job is the time from its arrival to its finish. Serving the jobs in the order of
their arrivals makes the largest flow time as small as it can be (`exists_flow_ge`): a job finishes
at the end of a block of jobs that leaves no slot empty (`exists_block`), and the last job of the
block in any other schedule finishes no earlier (`UnitSchedule.exists_le_finish`) and has not
arrived later.
-/

namespace SchoolOS

namespace UnitSchedule

variable {ι : Type*} [DecidableEq ι] {arrival burst : ι → ℤ} (S : UnitSchedule arrival burst)

omit [DecidableEq ι] in
theorem finish_pos (i : ι) : 0 < S.finish i := by
  obtain ⟨t, ht, -⟩ := S.last i
  omega

include S in
theorem burst_pos (i : ι) : 0 < burst i := by
  have hlt := S.served_lt_iff.mpr (S.finish_pos i)
  omega

/-- Jobs that arrive at time `a` or later share the slots from `a` on. -/
theorem sum_served_le {jobs : Finset ι} {a : ℤ} (ha : ∀ i ∈ jobs, a ≤ arrival i) (t : ℕ) :
    (∑ i ∈ jobs, (S.served i t : ℤ)) ≤ max 0 ((t : ℤ) - a) := by
  induction t with
  | zero => simp [served]
  | succ t ih =>
    simp only [served_succ, Nat.cast_add, Finset.sum_add_distrib]
    by_cases hslot : ∃ i ∈ jobs, S.slot t = some i
    · obtain ⟨i, hi, hslot⟩ := hslot
      have hone : (∑ j ∈ jobs, (((if S.slot t = some j then 1 else 0 : ℕ)) : ℤ)) = 1 := by
        simp [hslot, hi]
      have hlate := (ha i hi).trans (S.arrived t i hslot)
      rw [hone]
      push_cast
      omega
    · have hzero : (∑ j ∈ jobs, (((if S.slot t = some j then 1 else 0 : ℕ)) : ℤ)) = 0 := by
        refine Finset.sum_eq_zero fun j hj => ?_
        rw [if_neg fun hj' => hslot ⟨j, hj, hj'⟩, Nat.cast_zero]
      rw [hzero]
      push_cast
      omega

/-- Jobs that arrive at time `a` or later cannot all be finished before all their slots have
passed. -/
theorem exists_le_finish {jobs : Finset ι} (hne : jobs.Nonempty) {a : ℤ}
    (ha : ∀ i ∈ jobs, a ≤ arrival i) : ∃ i ∈ jobs, a + ∑ j ∈ jobs, burst j ≤ S.finish i := by
  obtain ⟨i, hi, hlast⟩ := jobs.exists_max_image S.finish hne
  refine ⟨i, hi, ?_⟩
  have hall : (∑ j ∈ jobs, (S.served j (S.finish i) : ℤ)) = ∑ j ∈ jobs, burst j :=
    Finset.sum_congr rfl fun j hj => S.served_of_finish_le (hlast j hj)
  have hle := S.sum_served_le ha (S.finish i)
  have hpos : 0 < ∑ j ∈ jobs, burst j := Finset.sum_pos (fun j _ => S.burst_pos j) hne
  rw [hall] at hle
  omega

end UnitSchedule

section InOrder

variable {n : ℕ} {arrival burst start finish : Fin n → ℤ}

/-- Jobs that are served in their order: job `k` finishes at the end of a block of jobs that are
served one after another, from the arrival of the first of them on. -/
theorem exists_block (harrival : ∀ k, 0 ≤ arrival k)
    (hstart : ∀ k, start k = max (arrival k) (previousFinish finish k k.isLt.le))
    (hfinish : ∀ k, finish k = start k + burst k) (k : Fin n) :
    ∃ b ≤ k, finish k = arrival b + ∑ i ∈ Finset.Icc b k, burst i := by
  obtain ⟨k, hk⟩ := k
  induction k with
  | zero =>
    refine ⟨⟨0, hk⟩, le_rfl, ?_⟩
    have hzero : previousFinish finish 0 (Nat.zero_le n) = 0 := rfl
    rw [hfinish, hstart, hzero, max_eq_left (harrival _), Finset.Icc_self, Finset.sum_singleton]
  | succ k ih =>
    have hprevious : previousFinish finish (k + 1) hk.le = finish ⟨k, by omega⟩ := rfl
    by_cases hidle : finish ⟨k, by omega⟩ ≤ arrival ⟨k + 1, hk⟩
    · refine ⟨⟨k + 1, hk⟩, le_rfl, ?_⟩
      rw [hfinish, hstart, hprevious, max_eq_left hidle, Finset.Icc_self, Finset.sum_singleton]
    · -- the job starts right after the one before it
      obtain ⟨b, hb, hblock⟩ := ih (by omega)
      have hbk : b.val ≤ k := hb
      refine ⟨b, Fin.le_def.mpr (by simp only; omega), ?_⟩
      have hIcc : Finset.Icc b ⟨k + 1, hk⟩ = insert ⟨k + 1, hk⟩ (Finset.Icc b ⟨k, by omega⟩) := by
        ext i
        simp only [Finset.mem_Icc, Finset.mem_insert, Fin.le_def, Fin.ext_iff]
        omega
      have hnew : (⟨k + 1, hk⟩ : Fin n) ∉ Finset.Icc b ⟨k, by omega⟩ := by
        simp [Finset.mem_Icc, Fin.le_def]
      rw [hfinish, hstart, hprevious, max_eq_right (by omega), hIcc, Finset.sum_insert hnew, hblock]
      ring

/-- Among all schedules, serving the jobs in the order of their arrivals has the least largest flow
time. -/
theorem exists_flow_ge (harrival : ∀ k, 0 ≤ arrival k)
    (hsorted : ∀ i j, i ≤ j → arrival i ≤ arrival j)
    (hstart : ∀ k, start k = max (arrival k) (previousFinish finish k k.isLt.le))
    (hfinish : ∀ k, finish k = start k + burst k) (S : UnitSchedule arrival burst) (k : Fin n) :
    ∃ j, finish k - arrival k ≤ S.finish j - arrival j := by
  obtain ⟨b, hb, hblock⟩ := exists_block harrival hstart hfinish k
  obtain ⟨j, hj, hlast⟩ := S.exists_le_finish (Finset.nonempty_Icc.mpr hb) (a := arrival b)
    fun i hi => hsorted b i (Finset.mem_Icc.mp hi).1
  have hjk := hsorted j k (Finset.mem_Icc.mp hj).2
  exact ⟨j, by omega⟩

end InOrder

end SchoolOS
