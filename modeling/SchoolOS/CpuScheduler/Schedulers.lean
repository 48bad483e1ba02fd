import SchoolOS.CpuScheduler.RoundRobin
import SchoolOS.CpuScheduler.Srtf

/-!
# The four schedulers

Each scheduler ends with a valid work-conserving schedule (`schedulers_valid`). Seen as schedules of
the input list, all four leave the same slots empty and finish at the same time
(`busyTime_independent`), and `SRTF` has the least sum of turnaround times (`srtf_optimal`).
-/

namespace SchoolOS.CpuScheduler

open Function Loop

variable {n : ℕ}

/-- What the schedulers are given: a list as loaded, with arrival times that are not negative and
burst times that are positive and can be told from `INT_MAX`. -/
structure Input (list : Fin n → Process) : Prop where
  loaded : Loaded list
  arrival : ∀ i, 0 ≤ (list i).arrival
  burst : ∀ i, 1 ≤ (list i).burst
  bound : ∀ i, (list i).burst < INT_MAX

/-- The order in which `FCFS` leaves the list: position `i` holds process `arrivalOrder list i` of
the input. -/
def arrivalOrder (list : Fin n → Process) : Fin n → Fin n := sortOrder Process.arrival list

theorem sortByArrival_eq (list : Fin n → Process) : sortByArrival list = list ∘ arrivalOrder list :=
  insertionSort_eq Process.arrival list

theorem Loaded.sortByArrival {list : Fin n → Process} (h : Loaded list) :
    Loaded (sortByArrival list) := by
  rw [sortByArrival_eq]
  exact fun i => h _

theorem one_le_burst_sortByArrival {list : Fin n → Process} (h : ∀ i, 1 ≤ (list i).burst)
    (i : Fin n) :
    1 ≤ (sortByArrival list i).burst := by
  rw [sortByArrival_eq]
  exact h _

/-- The schedule `S` of the input list is the one that a scheduler has computed. -/
structure Realizes {list : Fin n → Process} (S : UnitSchedule (arrivals list) (bursts list))
    (r : Result n) : Prop where
  workConserving : S.WorkConserving
  idle : ∀ t, S.slot t = none ↔ r.chart[t]?.join = none
  length : ∀ m, (∀ i, S.finish i ≤ m) ↔ r.chart.length ≤ m
  flow : ∑ i, (r.list i).turnaround = ∑ i, ((S.finish i : ℤ) - (list i).arrival)

/-- The schedule of a finished simulation, whichever formulas compute the other times. -/
theorem Inv.realizes {L : Fin n → Process} {s : Sim n} (h : Inv L s) (hdone : ¬ s.finCnt < n)
    {r : Result n} (hchart : r.chart = s.chart)
    (hturnaround : ∀ i, (r.list i).turnaround = (s.list i).finish - (s.list i).arrival) :
    Realizes (h.schedule hdone) r where
  workConserving := h.workConserving hdone
  idle t := by
    rw [hchart]
    exact Iff.rfl
  length m := by
    have hlength := h.length_eq hdone
    have hmax := maxFinish_le_iff s.list m
    rw [hchart, ← Nat.cast_le (α := ℤ), hlength, hmax]
    constructor
    · intro hall
      refine ⟨Nat.cast_nonneg m, fun i => ?_⟩
      have := hall i
      rw [← h.finish_eq hdone i]
      exact_mod_cast this
    · rintro ⟨-, hall⟩ i
      have := hall i
      rw [← h.finish_eq hdone i] at this
      exact_mod_cast this
  flow := by
    refine Finset.sum_congr rfl fun i _ => ?_
    rw [hturnaround i, h.finish_eq hdone i, h.arrival i]

/-- The schedule of a rearranged list, with the processes under their positions in the input. -/
theorem Realizes.relabel {list L : Fin n → Process} {S : UnitSchedule (arrivals L) (bursts L)}
    {r : Result n} (h : Realizes S r) (e : Fin n ≃ Fin n)
    (harrival : ∀ i, arrivals list (e i) = arrivals L i)
    (hburst : ∀ i, bursts list (e i) = bursts L i) :
    Realizes (S.relabel e harrival hburst) r where
  workConserving := by
    intro t hnone k hk
    refine h.workConserving t (Option.map_eq_none_iff.mp hnone) (e.symm k) ?_
    rw [← harrival, Equiv.apply_symm_apply]
    exact hk
  idle t := Option.map_eq_none_iff.trans (h.idle t)
  length m := by
    rw [← h.length m]
    show (∀ k, S.finish (e.symm k) ≤ m) ↔ _
    exact (e.symm.surjective.forall (p := fun i => S.finish i ≤ m)).symm
  flow := by
    rw [h.flow, ← Equiv.sum_comp e fun k => (((S.relabel e harrival hburst).finish k : ℕ) : ℤ) -
      (list k).arrival]
    refine Finset.sum_congr rfl fun i _ => ?_
    have hi : (list (e i)).arrival = (L i).arrival := harrival i
    rw [hi]
    simp [UnitSchedule.relabel]

/-! ## What each scheduler returns -/

section Specs

variable {list : Fin n → Process}

theorem fcfs_spec (hload : Loaded list) (hburst : ∀ i, 1 ≤ (list i).burst) :
    ∃ r, Returns (fcfs list) r ∧ (∀ i, (r.list i).input = (list (arrivalOrder list i)).input) ∧
      Valid r ∧ ∃ S : UnitSchedule (arrivals list) (bursts list), Realizes S r := by
  have hsort := sortByArrival_eq list
  have hburst' := one_le_burst_sortByArrival hburst
  obtain ⟨s, hrun, hinv, hpiece, hdone⟩ :=
    nonPreemptive_returns selects_firstReady hload.sortByArrival hburst'
  refine ⟨⟨fun i => (s.list i).timesFromStart, s.chart, n⟩, hrun.map _, ?_, ?_, ?_⟩
  · intro i
    exact (hinv.input i).trans (by rw [hsort]; rfl)
  · exact (hinv.validSchedule hdone hburst').valid_timesFromStart
      (fun i => hpiece.done i (hinv.ended hdone i)) n
  · have hreal : Realizes (hinv.schedule hdone)
        ⟨fun i => (s.list i).timesFromStart, s.chart, n⟩ :=
      hinv.realizes hdone rfl fun _ => rfl
    exact ⟨_, hreal.relabel (Equiv.ofBijective _ (sortOrder_bijective Process.arrival list))
      (fun i => by rw [hsort]; rfl) (fun i => by rw [hsort]; rfl)⟩

theorem sjf_spec (h : Input list) :
    ∃ r, Returns (sjf list) r ∧ (∀ i, (r.list i).input = (list i).input) ∧ Valid r ∧
      ∃ S : UnitSchedule (arrivals list) (bursts list), Realizes S r := by
  obtain ⟨s, hrun, hinv, hpiece, hdone⟩ :=
    nonPreemptive_returns (selects_scanMin_burst h.bound) h.loaded h.burst
  refine ⟨⟨fun i => (s.list i).timesFromStart, s.chart, n⟩, hrun.map _, hinv.input, ?_,
    hinv.schedule hdone, hinv.realizes hdone rfl fun _ => rfl⟩
  exact (hinv.validSchedule hdone h.burst).valid_timesFromStart
    (fun i => hpiece.done i (hinv.ended hdone i)) n

theorem srtf_spec (h : Input list) :
    ∃ r, Returns (srtf list) r ∧ (∀ i, (r.list i).input = (list i).input) ∧ Valid r ∧
      ∃ S : UnitSchedule (arrivals list) (bursts list), Realizes S r ∧ S.ShortestFirst := by
  obtain ⟨s, hrun, hinv, hshort, hdone⟩ := srtf_returns h.loaded h.burst h.bound
  refine ⟨⟨fun i => (s.list i).timesFromFinish, s.chart, s.contextSwitch⟩, hrun.map _, hinv.input,
    (hinv.validSchedule hdone h.burst).valid_timesFromFinish _, hinv.schedule hdone,
    hinv.realizes hdone rfl fun _ => rfl, ?_⟩
  exact hinv.conserving.shortestFirst (hinv.count_eq hdone) _ (hinv.last hdone) hshort

theorem rr_spec {maxSize : ℕ} {q : ℤ} (hload : Loaded list) (harrival : ∀ i, 0 ≤ (list i).arrival)
    (hburst : ∀ i, 1 ≤ (list i).burst) (hq : 1 ≤ q) (hmax : totalSlices q list ≤ maxSize)
    (prevRun curSlice : ℤ) :
    ∃ r, Returns (rr maxSize prevRun curSlice q list) r ∧
      (∀ i, (r.list i).input = (list i).input) ∧ Valid r ∧
      ∃ S : UnitSchedule (arrivals list) (bursts list), Realizes S r := by
  obtain ⟨s, hrun, hrr, hdone⟩ := rr_returns hload hburst harrival hq hmax prevRun curSlice
  have hinv := hrr.inv
  exact ⟨⟨fun i => (s.list i).timesFromFinish, s.chart, s.contextSwitch⟩, hrun.map _, hinv.input,
    (hinv.validSchedule hdone hburst).valid_timesFromFinish _, hinv.schedule hdone,
    hinv.realizes hdone rfl fun _ => rfl⟩

end Specs

/-- Every scheduler ends, and its list and its chart describe a valid work-conserving schedule. `RR`
needs a queue array with room for one push for each slice. -/
theorem schedulers_valid (list : Fin n → Process) (h : Input list) :
    (∃ r, Returns (fcfs list) r ∧ (∀ i, (r.list i).input = (list (arrivalOrder list i)).input) ∧
      Bijective (arrivalOrder list) ∧ Valid r) ∧
    (∃ r, Returns (sjf list) r ∧ (∀ i, (r.list i).input = (list i).input) ∧ Valid r) ∧
    (∃ r, Returns (srtf list) r ∧ (∀ i, (r.list i).input = (list i).input) ∧ Valid r) ∧
    ∀ (maxSize : ℕ) (prevRun curSlice q : ℤ), 1 ≤ q → totalSlices q list ≤ maxSize →
      ∃ r, Returns (rr maxSize prevRun curSlice q list) r ∧
        (∀ i, (r.list i).input = (list i).input) ∧ Valid r := by
  refine ⟨?_, ?_, ?_, ?_⟩
  · obtain ⟨r, hrun, hinput, hvalid, -⟩ := fcfs_spec h.loaded h.burst
    exact ⟨r, hrun, hinput, sortOrder_bijective _ _, hvalid⟩
  · obtain ⟨r, hrun, hinput, hvalid, -⟩ := sjf_spec h
    exact ⟨r, hrun, hinput, hvalid⟩
  · obtain ⟨r, hrun, hinput, hvalid, -⟩ := srtf_spec h
    exact ⟨r, hrun, hinput, hvalid⟩
  · intro maxSize prevRun curSlice q hq hmax
    obtain ⟨r, hrun, hinput, hvalid, -⟩ :=
      rr_spec h.loaded h.arrival h.burst hq hmax prevRun curSlice
    exact ⟨r, hrun, hinput, hvalid⟩

/-- A process as `init_list` loads it, with zero in the fields that are not initialised. -/
def loadedProcess (pid arrival burst : ℤ) : Process :=
  ⟨pid, arrival, burst, burst, 0, 0, 0, 0, 0, 0⟩

/-- A long process at time 0 and a short one at time 1. -/
def twoProcesses (i : Fin 2) : Process := if i = 0 then loadedProcess 1 0 3 else loadedProcess 2 1 1

theorem input_twoProcesses : Input twoProcesses where
  loaded := Fin.forall_fin_two.mpr ⟨⟨rfl, rfl⟩, ⟨rfl, rfl⟩⟩
  arrival := by decide
  burst := by decide
  bound := by decide

theorem schedulers_valid_twoProcesses :
    Input twoProcesses ∧ (∃ r, Returns (srtf twoProcesses) r ∧ Valid r) ∧
      totalSlices 2 twoProcesses ≤ MAX_SIZE ∧
      ∃ r, Returns (rr MAX_SIZE 0 0 2 twoProcesses) r ∧ Valid r := by
  have hmax : totalSlices 2 twoProcesses ≤ MAX_SIZE := by decide
  obtain ⟨-, -, ⟨r, hrun, -, hvalid⟩, hrr⟩ := schedulers_valid twoProcesses input_twoProcesses
  obtain ⟨r', hrun', -, hvalid'⟩ := hrr MAX_SIZE 0 0 2 (by decide) hmax
  exact ⟨input_twoProcesses, ⟨r, hrun, hvalid⟩, hmax, r', hrun', hvalid'⟩

/-! ## Busy time -/

/-- The empty slots of a chart. -/
def idleSlots (chart : List (Option (Fin n))) : Set ℕ := {t | chart[t]? = some none}

/-- Two results for the same input have the same empty slots and the same length. -/
theorem Realizes.busyTime_eq {list : Fin n → Process}
    {S S' : UnitSchedule (arrivals list) (bursts list)}
    {r r' : Result n} (h : Realizes S r) (h' : Realizes S' r') :
    idleSlots r.chart = idleSlots r'.chart ∧ r.chart.length = r'.chart.length := by
  have hnone : ∀ t, S.slot t = none ↔ S'.slot t = none :=
    h.workConserving.slot_eq_none_iff h'.workConserving
  have hlength : r.chart.length = r'.chart.length := by
    apply eq_of_forall_ge_iff
    intro m
    rw [← h.length m, ← h'.length m, S.finish_le_iff, S'.finish_le_iff]
    simp only [Ne, hnone]
  refine ⟨Set.ext fun t => ?_, hlength⟩
  have hidle : ∀ chart : List (Option (Fin n)),
      t ∈ idleSlots chart ↔ t < chart.length ∧ chart[t]?.join = none := by
    intro chart
    show chart[t]? = some none ↔ _
    cases ht : chart[t]? with
    | none =>
      have := List.getElem?_eq_none_iff.mp ht
      simp
      omega
    | some o =>
      have := (List.getElem?_eq_some_iff.mp ht).1
      simp [this]
  rw [hidle, hidle, hlength, ← h.idle, ← h'.idle, hnone]

/-- The empty slots and the latest finish time are the same for the four schedulers. -/
theorem busyTime_independent (list : Fin n → Process) (h : Input list) :
    ∃ r, Returns (fcfs list) r ∧
      (∃ r', Returns (sjf list) r' ∧ idleSlots r'.chart = idleSlots r.chart ∧
        maxFinish r'.list = maxFinish r.list) ∧
      (∃ r', Returns (srtf list) r' ∧ idleSlots r'.chart = idleSlots r.chart ∧
        maxFinish r'.list = maxFinish r.list) ∧
      ∀ (maxSize : ℕ) (prevRun curSlice q : ℤ), 1 ≤ q → totalSlices q list ≤ maxSize →
        ∃ r', Returns (rr maxSize prevRun curSlice q list) r' ∧
          idleSlots r'.chart = idleSlots r.chart ∧ maxFinish r'.list = maxFinish r.list := by
  obtain ⟨r, hrun, -, hvalid, S, hS⟩ := fcfs_spec h.loaded h.burst
  have hsame : ∀ {r' : Result n} {S' : UnitSchedule (arrivals list) (bursts list)}, Valid r' →
      Realizes S' r' → idleSlots r'.chart = idleSlots r.chart ∧
        maxFinish r'.list = maxFinish r.list := by
    intro r' S' hvalid' hS'
    obtain ⟨hidle, hlength⟩ := hS'.busyTime_eq hS
    exact ⟨hidle, by rw [← hvalid'.length, ← hvalid.length, hlength]⟩
  refine ⟨r, hrun, ?_, ?_, ?_⟩
  · obtain ⟨r', hrun', -, hvalid', S', hS'⟩ := sjf_spec h
    exact ⟨r', hrun', hsame hvalid' hS'⟩
  · obtain ⟨r', hrun', -, hvalid', S', hS', -⟩ := srtf_spec h
    exact ⟨r', hrun', hsame hvalid' hS'⟩
  · intro maxSize prevRun curSlice q hq hmax
    obtain ⟨r', hrun', -, hvalid', S', hS'⟩ :=
      rr_spec h.loaded h.arrival h.burst hq hmax prevRun curSlice
    exact ⟨r', hrun', hsame hvalid' hS'⟩

theorem busyTime_independent_twoProcesses :
    Input twoProcesses ∧ ∃ r r', Returns (fcfs twoProcesses) r ∧ Returns (srtf twoProcesses) r' ∧
      idleSlots r'.chart = idleSlots r.chart ∧ maxFinish r'.list = maxFinish r.list := by
  obtain ⟨r, hrun, -, ⟨r', hrun', hsame⟩, -⟩ :=
    busyTime_independent twoProcesses input_twoProcesses
  exact ⟨input_twoProcesses, r, r', hrun, hrun', hsame⟩

/-! ## Turnaround -/

/-- The sum of the turnaround times of a result. -/
def totalTurnaround (r : Result n) : ℤ := ∑ i, (r.list i).turnaround

section Shortest

variable {list : Fin n → Process} {S S' : UnitSchedule (arrivals list) (bursts list)}
  {r r' : Result n}

/-- A shortest-first result has the least sum of turnaround times. -/
theorem Realizes.totalTurnaround_le_flow (h : Realizes S r) (hshort : S.ShortestFirst)
    (harrival : ∀ i, 0 ≤ (list i).arrival) (S' : UnitSchedule (arrivals list) (bursts list)) :
    totalTurnaround r ≤ ∑ i, ((S'.finish i : ℤ) - (list i).arrival) := by
  rw [totalTurnaround, h.flow]
  exact UnitSchedule.sum_flow_le h.workConserving hshort harrival S'

theorem Realizes.totalTurnaround_le (h : Realizes S r) (hshort : S.ShortestFirst)
    (harrival : ∀ i, 0 ≤ (list i).arrival) (h' : Realizes S' r') :
    totalTurnaround r ≤ totalTurnaround r' := by
  rw [totalTurnaround.eq_def r', h'.flow]
  exact h.totalTurnaround_le_flow hshort harrival S'

end Shortest

/-- `SRTF` has the least sum of turnaround times among all schedules of the same processes, in
particular among those of the other schedulers. -/
theorem srtf_optimal (list : Fin n → Process) (h : Input list) :
    ∃ r, Returns (srtf list) r ∧
      (∀ S : UnitSchedule (fun i => (list i).arrival) (fun i => (list i).burst),
        totalTurnaround r ≤ ∑ i, ((S.finish i : ℤ) - (list i).arrival)) ∧
      (∃ r', Returns (fcfs list) r' ∧ totalTurnaround r ≤ totalTurnaround r') ∧
      (∃ r', Returns (sjf list) r' ∧ totalTurnaround r ≤ totalTurnaround r') ∧
      ∀ (maxSize : ℕ) (prevRun curSlice q : ℤ), 1 ≤ q → totalSlices q list ≤ maxSize →
        ∃ r', Returns (rr maxSize prevRun curSlice q list) r' ∧
          totalTurnaround r ≤ totalTurnaround r' := by
  obtain ⟨r, hrun, -, -, S, hS, hshort⟩ := srtf_spec h
  have hresult : ∀ {r' : Result n} {S' : UnitSchedule (arrivals list) (bursts list)},
      Realizes S' r' → totalTurnaround r ≤ totalTurnaround r' :=
    fun hS' => hS.totalTurnaround_le hshort h.arrival hS'
  refine ⟨r, hrun, hS.totalTurnaround_le_flow hshort h.arrival, ?_, ?_, ?_⟩
  · obtain ⟨r', hrun', -, -, S', hS'⟩ := fcfs_spec h.loaded h.burst
    exact ⟨r', hrun', hresult hS'⟩
  · obtain ⟨r', hrun', -, -, S', hS'⟩ := sjf_spec h
    exact ⟨r', hrun', hresult hS'⟩
  · intro maxSize prevRun curSlice q hq hmax
    obtain ⟨r', hrun', -, -, S', hS'⟩ :=
      rr_spec h.loaded h.arrival h.burst hq hmax prevRun curSlice
    exact ⟨r', hrun', hresult hS'⟩

theorem srtf_optimal_twoProcesses :
    Input twoProcesses ∧ ∃ r r', Returns (srtf twoProcesses) r ∧ Returns (fcfs twoProcesses) r' ∧
      totalTurnaround r ≤ totalTurnaround r' := by
  obtain ⟨r, hrun, -, ⟨r', hrun', hle⟩, -⟩ := srtf_optimal twoProcesses input_twoProcesses
  exact ⟨input_twoProcesses, r, r', hrun, hrun', hle⟩

end SchoolOS.CpuScheduler
