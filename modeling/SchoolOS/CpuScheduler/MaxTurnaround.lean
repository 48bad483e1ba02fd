import SchoolOS.CpuScheduler.Events
import SchoolOS.Lib.MaxFlow

/-!
# The longest turnaround

`FCFS` serves the processes in the order of their arrivals, so its longest turnaround time is the
shortest possible one (`fcfs_least_maxTurnaround`). The other schedulers trade it for other aims.
-/

namespace SchoolOS.CpuScheduler

open Function Loop

variable {n : ℕ}

theorem ValidSchedule.arrived_of_slot {list : Fin n → Process} {chart : List (Option (Fin n))}
    (h : ValidSchedule list chart) {t : ℕ} {i : Fin n} (ht : chart[t]?.join = some i) :
    arrivals list i ≤ t :=
  (h.within i t (Option.join_eq_some_iff.mp ht)).1

theorem ValidSchedule.ncard_slots {list : Fin n → Process} {chart : List (Option (Fin n))}
    (h : ValidSchedule list chart) (i : Fin n) :
    ({t : ℕ | chart[t]?.join = some i}.ncard : ℤ) = bursts list i := by
  have hset : {t : ℕ | chart[t]?.join = some i} =
      ((Finset.range chart.length).filter fun t => chart[t]? = some (some i) : Finset ℕ) := by
    ext t
    simp only [Set.mem_ofPred_eq, Option.join_eq_some_iff, Finset.coe_filter, Finset.mem_range,
      iff_and_self]
    exact fun ht => (List.getElem?_eq_some_iff.mp ht).1
  rw [hset, Set.ncard_coe_finset, ← Nat.count_eq_card_filter_range, ← count_take_eq,
    List.take_length, h.slots i]
  rfl

theorem ValidSchedule.exists_last_slot {list : Fin n → Process} {chart : List (Option (Fin n))}
    (h : ValidSchedule list chart) (i : Fin n) :
    ∃ t : ℕ, (list i).finish.toNat = t + 1 ∧ IsGreatest {t | chart[t]?.join = some i} t := by
  obtain ⟨t, ht, hlast⟩ := h.last i
  refine ⟨t, by omega, Option.join_eq_some_iff.mpr hlast.at_self, ?_⟩
  intro u hu
  by_contra hlt
  exact hlast.after u (Nat.lt_of_not_le hlt) (Option.join_eq_some_iff.mp hu)

/-- The schedule that the list and the chart of a result describe. -/
def ValidSchedule.toUnitSchedule {list : Fin n → Process} {chart : List (Option (Fin n))}
    (h : ValidSchedule list chart) : UnitSchedule (arrivals list) (bursts list) where
  slot t := chart[t]?.join
  finish i := (list i).finish.toNat
  arrived _ _ ht := h.arrived_of_slot ht
  card_slots i := h.ncard_slots i
  last i := h.exists_last_slot i

theorem ValidSchedule.finish_toUnitSchedule {list : Fin n → Process} {chart : List (Option (Fin n))}
    (h : ValidSchedule list chart) (i : Fin n) :
    (h.toUnitSchedule.finish i : ℤ) = (list i).finish := by
  obtain ⟨t, ht, -⟩ := h.last i
  have hfinish : h.toUnitSchedule.finish i = (list i).finish.toNat := rfl
  omega

/-- The turnaround time is computed after the loop. -/
def ComputesTurnaround (r : Result n) : Prop :=
  ∀ i, (r.list i).turnaround = (r.list i).finish - (r.list i).arrival

theorem computesTurnaround_of_returns {σ : Type} {loop : ℕ → Option σ} {result : σ → Result n}
    (hresult : ∀ s, ComputesTurnaround (result s)) {r : Result n}
    (h : Returns (fun fuel => (loop fuel).map result) r) : ComputesTurnaround r := by
  obtain ⟨N, hN⟩ := h
  obtain ⟨s, -, rfl⟩ := Option.map_eq_some_iff.mp (hN N le_rfl)
  exact hresult s

section Bound

variable {list : Fin n → Process} {r r' : Result n}

/-- No turnaround time of `r` exceeds all those of the schedule `S`. -/
def AtMost (r : Result n) (S : UnitSchedule (arrivals list) (bursts list)) : Prop :=
  ∀ i, ∃ j, (r.list i).turnaround ≤ S.finish j - (list j).arrival

/-- A bound by every schedule is a bound by every result. -/
theorem AtMost.result (h : ∀ S : UnitSchedule (arrivals list) (bursts list), AtMost r S)
    (hinput : ∀ i, (r'.list i).input = (list i).input) (hvalid : Valid r')
    (hturnaround : ComputesTurnaround r') (i : Fin n) :
    ∃ j, (r.list i).turnaround ≤ (r'.list j).turnaround := by
  have harrival : ∀ i, (list i).arrival = (r'.list i).arrival :=
    fun i => (Prod.mk.inj (Prod.mk.inj (hinput i)).2).1.symm
  have hburst : ∀ i, (list i).burst = (r'.list i).burst :=
    fun i => (Prod.mk.inj (Prod.mk.inj (hinput i)).2).2.symm
  let S' : UnitSchedule (arrivals list) (bursts list) :=
    hvalid.toUnitSchedule.relabel (Equiv.refl _) harrival hburst
  obtain ⟨j, hj⟩ := h S' i
  have hfinish := hvalid.finish_toUnitSchedule j
  refine ⟨j, ?_⟩
  rw [hturnaround j, ← hfinish, ← harrival j]
  exact hj

/-- The result of `FCFS` against any schedule of the same processes. -/
theorem fcfs_atMost (hload : Loaded list) (harrival : ∀ i, 0 ≤ (list i).arrival)
    (hburst : ∀ i, 1 ≤ (list i).burst) :
    ∃ r, Returns (fcfs list) r ∧
      ∀ S : UnitSchedule (arrivals list) (bursts list), AtMost r S := by
  obtain ⟨s, e, hrun, hevents, hinput, htimes⟩ := nonPreemptive_eq_eventSchedule
    selects_firstReady picks_firstReady hload.sortByArrival (one_le_burst_sortByArrival hburst)
  refine ⟨⟨fun i => (s.list i).timesFromStart, s.chart, n⟩, hrun.map _, fun S i => ?_⟩
  have hsort := sortByArrival_eq list
  -- the schedule `S`, with the processes at their positions in the sorted list
  let position := (Equiv.ofBijective _ (sortOrder_bijective Process.arrival list)).symm
  have hback : ∀ k, sortByArrival list (position k) = list k := by
    intro k
    rw [hsort]
    exact congrArg list (Equiv.ofBijective_apply_symm_apply _ (sortOrder_bijective _ list) k)
  let S' : UnitSchedule (arrivals (sortByArrival list)) (bursts (sortByArrival list)) :=
    S.relabel position (fun k => congrArg Process.arrival (hback k))
      fun k => congrArg Process.burst (hback k)
  have harrival' : ∀ k, 0 ≤ arrivals (sortByArrival list) k := by
    intro k
    rw [hsort]
    exact harrival _
  have hserved := eventSchedule_pickFirst (arrivals_sortByArrival_le list) hevents
  obtain ⟨j, hj⟩ := exists_flow_ge harrival' (arrivals_sortByArrival_le list)
    (fun k => (hserved k).1) (fun k => (hserved k).2) S' i
  refine ⟨position.symm j, ?_⟩
  have hi : (s.list i).arrival = (sortByArrival list i).arrival :=
    (Prod.mk.inj (Prod.mk.inj (hinput i)).2).1
  have hjarrival : (list (position.symm j)).arrival = (sortByArrival list j).arrival := by
    rw [← hback, Equiv.apply_symm_apply]
  have hturnaround :
      (s.list i).timesFromStart.turnaround = (s.list i).finish - (s.list i).arrival := rfl
  rw [hturnaround, (htimes i).2, hi, hjarrival]
  exact hj

end Bound

/-- The longest turnaround time of `FCFS` is the least among all schedules of the same processes, in
particular among those of the other schedulers. -/
theorem fcfs_least_maxTurnaround (list : Fin n → Process) (h : Input list) :
    ∃ r, Returns (fcfs list) r ∧
      (∀ S : UnitSchedule (fun i => (list i).arrival) (fun i => (list i).burst),
        ∀ i, ∃ j, (r.list i).turnaround ≤ S.finish j - (list j).arrival) ∧
      (∃ r', Returns (sjf list) r' ∧ ∀ i, ∃ j, (r.list i).turnaround ≤ (r'.list j).turnaround) ∧
      (∃ r', Returns (srtf list) r' ∧ ∀ i, ∃ j, (r.list i).turnaround ≤ (r'.list j).turnaround) ∧
      ∀ (maxSize : ℕ) (prevRun curSlice q : ℤ), 1 ≤ q → totalSlices q list ≤ maxSize →
        ∃ r', Returns (rr maxSize prevRun curSlice q list) r' ∧
          ∀ i, ∃ j, (r.list i).turnaround ≤ (r'.list j).turnaround := by
  obtain ⟨r, hrun, hall⟩ := fcfs_atMost h.loaded h.arrival h.burst
  refine ⟨r, hrun, hall, ?_, ?_, ?_⟩
  · obtain ⟨r', hrun', hinput, hvalid, -⟩ := sjf_spec h
    exact ⟨r', hrun', AtMost.result hall hinput hvalid
      (computesTurnaround_of_returns (fun _ _ => rfl) hrun')⟩
  · obtain ⟨r', hrun', hinput, hvalid, -⟩ := srtf_spec h
    exact ⟨r', hrun', AtMost.result hall hinput hvalid
      (computesTurnaround_of_returns (fun _ _ => rfl) hrun')⟩
  · intro maxSize prevRun curSlice q hq hmax
    obtain ⟨r', hrun', hinput, hvalid, -⟩ :=
      rr_spec h.loaded h.arrival h.burst hq hmax prevRun curSlice
    exact ⟨r', hrun', AtMost.result hall hinput hvalid
      (computesTurnaround_of_returns (fun _ _ => rfl) hrun')⟩

theorem fcfs_least_maxTurnaround_twoProcesses :
    Input twoProcesses ∧ ∃ r r', Returns (fcfs twoProcesses) r ∧ Returns (srtf twoProcesses) r' ∧
      ∀ i, ∃ j, (r.list i).turnaround ≤ (r'.list j).turnaround := by
  obtain ⟨r, hrun, -, -, ⟨r', hrun', hle⟩, -⟩ :=
    fcfs_least_maxTurnaround twoProcesses input_twoProcesses
  exact ⟨input_twoProcesses, r, r', hrun, hrun', hle⟩

end SchoolOS.CpuScheduler
