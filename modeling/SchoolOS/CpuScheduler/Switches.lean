import SchoolOS.CpuScheduler.EqualArrivals
import SchoolOS.CpuScheduler.QueueBounds

/-!
# The context switches in the Gantt chart

The four schedulers count context switches in different ways: `FCFS` and `SJF` return the length of
the list, `SRTF` compares with `running`, which is `-1` after a completion, and `RR` with
`prev_run`, which stays. All four numbers can be read off the Gantt chart: they say how often the
chart changes to another process (`ret_eq_switches`). Empty slots do not count, and neither does a
process that gets the processor again right after its slice.

`RR` compares the first process with whatever `prev_run` holds at the beginning.
-/

namespace SchoolOS.CpuScheduler

open Function Loop

/-! ## Changes of a chart -/

section Chart

variable {ι : Type} [DecidableEq ι]

/-- The last process of the chart, or `prev` if all its slots are empty. -/
def lastRun (prev : Option ι) (chart : List (Option ι)) : Option ι :=
  chart.foldl (fun last slot => slot.or last) prev

/-- How often the chart changes to another process, where `prev` has run before. -/
def switches (prev : Option ι) : List (Option ι) → ℕ
  | [] => 0
  | none :: chart => switches prev chart
  | some i :: chart => (if prev = some i then 0 else 1) + switches (some i) chart

variable (prev : Option ι) (chart : List (Option ι))

omit [DecidableEq ι] in
theorem lastRun_idle : lastRun prev (chart ++ [none]) = lastRun prev chart := by
  rw [lastRun, List.foldl_append, List.foldl_cons, List.foldl_nil, Option.none_or, lastRun]

omit [DecidableEq ι] in
theorem lastRun_run (i : ι) : lastRun prev (chart ++ [some i]) = some i := by
  rw [lastRun, List.foldl_append, List.foldl_cons, List.foldl_nil, Option.some_or]

theorem switches_idle : switches prev (chart ++ [none]) = switches prev chart := by
  induction chart generalizing prev with
  | nil => rfl
  | cons slot chart ih =>
    cases slot with
    | none => exact ih prev
    | some j =>
      rw [List.cons_append, switches, ih, switches]

theorem switches_run (i : ι) :
    switches prev (chart ++ [some i]) =
      switches prev chart + if lastRun prev chart = some i then 0 else 1 := by
  induction chart generalizing prev with
  | nil =>
    rw [List.nil_append, switches, switches, switches, Nat.add_zero, Nat.zero_add]
    rfl
  | cons slot chart ih =>
    cases slot with
    | none => exact ih prev
    | some j =>
      rw [List.cons_append, switches, ih, switches, Nat.add_assoc]
      rfl

end Chart

variable {n : ℕ} {L : Fin n → Process}

/-! ## `FCFS`, `SJF` and `SRTF` -/

/-- An empty slot, printed or not, changes nothing. -/
theorem Sim.changes_idle (prev : Option (Fin n)) (s : Sim n) :
    lastRun prev s.idle.chart = lastRun prev s.chart ∧
      switches prev s.idle.chart = switches prev s.chart := by
  unfold Sim.idle
  simp only
  split
  · exact ⟨lastRun_idle prev s.chart, switches_idle prev s.chart⟩
  · exact ⟨rfl, rfl⟩

/-- The running process is the last one in the chart. If none is running, the last one has ended. -/
structure Sim.Tracks (s : Sim n) : Prop where
  running : ∀ i, s.running = some i → lastRun none s.chart = some i
  ended : s.running = none → ∀ i, lastRun none s.chart = some i → (s.list i).ended ≠ 0

namespace Sim.Tracks

variable {s : Sim n} {i : Fin n}

theorem complete (h : s.Tracks) : s.complete.Tracks := by
  rcases s.complete_cases with ⟨heq, -⟩ | ⟨i, hrun, -, heq⟩
  · rwa [heq]
  · rw [heq]
    refine ⟨fun j hj => absurd hj (by simp), fun _ j hj => ?_⟩
    obtain rfl := Option.some.inj ((h.running i hrun).symm.trans hj)
    simp [Process.exit]

theorem idle (h : s.Tracks) : s.idle.Tracks := by
  have hlast := (s.changes_idle none).1
  refine ⟨fun i hi => ?_, fun hnone i hi => ?_⟩
  · rw [hlast]
    exact h.running i hi
  · rw [hlast] at hi
    exact h.ended hnone i hi

/-- After a slot of process `i`. -/
theorem run {s' : Sim n} (hrun : s'.running = some i) (hchart : s'.chart = s.chart ++ [some i]) :
    s'.Tracks := by
  refine ⟨fun j hj => ?_, fun hnone => absurd (hrun.symm.trans hnone) (by simp)⟩
  rw [hchart, lastRun_run, ← hrun, hj]

/-- A process that is ready and does not run comes after another one. -/
theorem switches_run (h : s.Tracks) (hready : s.Ready i) :
    switches none (s.chart ++ [some i]) =
      switches none s.chart + if s.running = some i then 0 else 1 := by
  rw [CpuScheduler.switches_run]
  cases hrun : s.running with
  | some j => rw [h.running j hrun]
  | none =>
    rw [if_neg fun hlast => h.ended hrun i hlast hready.2, if_neg (by simp)]

end Sim.Tracks

theorem Sim.tracks_start (list : Fin n → Process) : (Sim.start list).Tracks :=
  ⟨fun _ hi => absurd hi (by simp [Sim.start]),
    fun _ _ hi => absurd hi (by simp [Sim.start, lastRun])⟩

/-- One tick of `SRTF`. -/
theorem srtfTick_switches {s : Srtf n} (h : s.toSim.Tracks)
    (hcount : s.contextSwitch = switches none s.chart) :
    (srtfTick s).toSim.Tracks ∧ (srtfTick s).contextSwitch = switches none (srtfTick s).chart := by
  have hcomplete := h.complete
  rw [← s.toSim.complete_chart] at hcount
  cases hscan : s.toSim.complete.scanMin Process.remain with
  | none =>
    have htick : srtfTick s = ⟨s.toSim.complete.idle, s.contextSwitch⟩ := by
      simp only [srtfTick, hscan]
    rw [htick]
    exact ⟨hcomplete.idle, hcount.trans (s.toSim.complete.changes_idle none).2.symm⟩
  | some i =>
    have htick : srtfTick s = ⟨(s.toSim.complete.resume i).execute i,
        if s.toSim.complete.running ≠ some i then s.contextSwitch + 1 else s.contextSwitch⟩ := by
      simp only [srtfTick, hscan]
    have hready := (Sim.scanMin_eq_some hscan).1
    rw [htick, Sim.resume_execute]
    refine ⟨Sim.Tracks.run rfl rfl, ?_⟩
    simp only
    rw [hcomplete.switches_run hready, ← hcount]
    by_cases hrun : s.toSim.complete.running = some i
    · rw [if_neg (not_not.mpr hrun), if_pos hrun, Nat.add_zero]
    · rw [if_pos hrun, if_neg hrun]

/-- One tick of `FCFS` or `SJF`. -/
theorem nonPreemptiveTick_switches {select : Sim n → Option (Fin n)} {s : Sim n}
    (hselect : ∀ i, select s.complete = some i → s.complete.Ready i)
    (hrunning : ∀ i, s.complete.running = some i → s.complete.Ready i) (h : s.Tracks)
    (hcount : s.started = switches none s.chart) :
    (s.nonPreemptiveTick select).Tracks ∧
      (s.nonPreemptiveTick select).started = switches none (s.nonPreemptiveTick select).chart := by
  have hcomplete := h.complete
  rw [← s.complete_chart, ← s.complete_started] at hcount
  unfold Sim.nonPreemptiveTick
  simp only
  cases hrun : s.complete.running with
  | some i =>
    refine ⟨Sim.Tracks.run hrun rfl, ?_⟩
    show s.complete.started = switches none (s.complete.chart ++ [some i])
    rw [hcomplete.switches_run (hrunning i hrun), if_pos hrun, hcount, Nat.add_zero]
  | none =>
    cases hsel : select s.complete with
    | none =>
      refine ⟨hcomplete.idle, ?_⟩
      rw [(s.complete.changes_idle none).2, ← hcount]
      rfl
    | some i =>
      refine ⟨Sim.Tracks.run rfl rfl, ?_⟩
      show s.complete.finCnt + 1 = switches none (s.complete.chart ++ [some i])
      rw [hcomplete.switches_run (hselect i hsel), ← hcount, Sim.started, hrun, if_neg (by simp)]
      rfl

/-- The loop of `FCFS` or `SJF` ends with a chart that changes once to each process. -/
theorem nonPreemptive_switches {select : Sim n → Option (Fin n)} (hselect : Selects L select)
    (hload : Loaded L) (hburst : ∀ i, 1 ≤ (L i).burst) :
    ∃ s, Returns (fun fuel => whileLoop Sim.active (fun s => some (s.nonPreemptiveTick select)) fuel
      (Sim.start L)) s ∧ n = switches none s.chart := by
  obtain ⟨s, hrun, hinv, -, hdone⟩ := nonPreemptive_returns hselect hload hburst
  refine ⟨s, hrun, ?_⟩
  obtain ⟨N, hN⟩ := hrun
  have hloop := whileLoop_invariant
    (fun s => (Inv L s ∧ OnePiece s) ∧ s.Tracks ∧ s.started = switches none s.chart) (by
      rintro s s' ⟨⟨hinv, hpiece⟩, htracks, hcount⟩ hactive hbody
      obtain rfl := Option.some.inj hbody
      have hlt : s.finCnt < n := by simpa [Sim.active] using hactive
      have hset := hinv.complete hlt
      obtain ⟨hstep, hpiece'⟩ := nonPreemptiveTick_step hselect hinv hpiece hlt
      exact ⟨⟨(hinv.step hburst hlt hstep).1, hpiece'⟩,
        nonPreemptiveTick_switches (hselect _ hset).1 (fun i => hset.ready_of_running) htracks
          hcount⟩)
    ⟨⟨inv_start hload hburst, onePiece_start hload⟩, Sim.tracks_start L, rfl⟩ (hN N le_rfl)
  rw [← hloop.1.2.2, hinv.started_eq hdone]

/-- The loop of `SRTF`. -/
theorem srtfLoop_switches {list : Fin n → Process} {fuel : ℕ} {s : Srtf n}
    (h : srtfLoop fuel ⟨Sim.start list, 0⟩ = some s) : s.contextSwitch = switches none s.chart := by
  have hloop := whileLoop_invariant
    (fun s : Srtf n => s.toSim.Tracks ∧ s.contextSwitch = switches none s.chart) (by
      rintro s s' ⟨htracks, hcount⟩ - hbody
      obtain rfl := Option.some.inj hbody
      exact srtfTick_switches htracks hcount)
    ⟨Sim.tracks_start list, rfl⟩ h
  exact hloop.1.2

/-! ## `RR` -/

/-- The process that the value of `prev_run` stands for, if any. -/
def processAt (n : ℕ) (prevRun : ℤ) : Option (Fin n) :=
  if h : 0 ≤ prevRun ∧ prevRun < n then some ⟨prevRun.toNat, by omega⟩ else none

theorem processAt_eq_some_iff {prevRun : ℤ} {i : Fin n} :
    processAt n prevRun = some i ↔ prevRun = (i : ℕ) := by
  unfold processAt
  split
  · rw [Option.some.injEq, Fin.ext_iff]
    simp only
    omega
  · have := i.isLt
    simp only [reduceCtorEq, false_iff]
    omega

/-- `prev_run` is the last process in the chart, and the running process is the same. -/
structure Rr.Tracks (prev : Option (Fin n)) (s : Rr n) : Prop where
  prevRun : ∀ i : Fin n, s.prevRun = (i : ℕ) ↔ lastRun prev s.chart = some i
  running : ∀ i, s.running = some i → lastRun prev s.chart = some i
  count : s.contextSwitch = switches prev s.chart

namespace Rr.Tracks

variable {prev : Option (Fin n)} {s : Rr n} {q : ℤ}

theorem arrived (h : s.Tracks prev) : s.arrived.Tracks prev := ⟨h.prevRun, h.running, h.count⟩

theorem released (h : s.Tracks prev) : s.released.Tracks prev := by
  unfold Rr.released
  cases hrun : s.running with
  | none => exact h
  | some i =>
    simp only
    split
    · have hchart : s.completed.chart = s.chart := s.toSim.complete_chart
      refine ⟨?_, fun j hj => ?_, ?_⟩
      · rw [hchart]
        exact h.prevRun
      · rw [hchart]
        rcases s.toSim.complete_cases with ⟨heq, -⟩ | ⟨k, -, -, heq⟩
        · exact h.running j (by rwa [← heq])
        · have hnone : s.completed.running = none := by
            show s.toSim.complete.running = none
            rw [heq]
          exact absurd (hj.symm.trans hnone) (by simp)
      · rw [hchart]
        exact h.count
    · split
      · exact ⟨h.prevRun, fun j hj => absurd hj (by simp), h.count⟩
      · exact h

theorem choose (h : s.Tracks prev) : (s.choose q).Tracks prev := by
  have hrunning : ∀ (s' : Rr n) (i : Fin n), s'.running = some i → s'.chart = s.chart ++ [some i] →
      s'.prevRun = (i : ℕ) →
      s'.contextSwitch = s.contextSwitch + (if lastRun prev s.chart = some i then 0 else 1) →
      s'.Tracks prev := by
    intro s' i hrun hchart hprev hcount
    refine ⟨fun j => ?_, fun j hj => ?_, ?_⟩
    · rw [hchart, lastRun_run, hprev, Option.some.injEq, Fin.ext_iff, Nat.cast_inj]
    · rw [hchart, lastRun_run, ← hrun, hj]
    · rw [hchart, switches_run, hcount, h.count]
  rcases s.choose_cases q with ⟨i, hrun, heq⟩ | ⟨hrun, -, heq⟩ | ⟨i, hrun, -, heq⟩
  · rw [heq]
    refine hrunning _ i hrun rfl rfl ?_
    rw [if_pos (h.running i hrun)]
    rfl
  · rw [heq]
    obtain ⟨hlast, hsame⟩ := s.toSim.changes_idle prev
    refine ⟨fun i => ?_, fun i hi => absurd (hi.symm.trans hrun) (by simp), ?_⟩
    · exact (h.prevRun i).trans (by rw [← hlast])
    · exact h.count.trans hsame.symm
  · rw [heq]
    refine hrunning _ i ?_ ?_ rfl ?_
    · exact Sim.resume_running _ i
    · show (s.toSim.resume i).chart ++ [some i] = s.chart ++ [some i]
      rw [Sim.resume_eq]
    · show (if s.prevRun ≠ (i : ℕ) then s.contextSwitch + 1 else s.contextSwitch) = _
      by_cases hsame : s.prevRun = (i : ℕ)
      · rw [if_neg (not_not.mpr hsame), if_pos ((h.prevRun i).mp hsame), Nat.add_zero]
      · rw [if_pos hsame, if_neg fun hlast => hsame ((h.prevRun i).mpr hlast)]

end Rr.Tracks

/-- The loop of `RR`. -/
theorem rrLoop_switches {list : Fin n → Process} {maxSize fuel : ℕ} {prevRun curSlice q : ℤ}
    {s : Rr n} (h : rrLoop maxSize q fuel (Rr.start list prevRun curSlice) = some s) :
    s.contextSwitch = switches (processAt n prevRun) s.chart := by
  have hloop := whileLoop_invariant
    (fun s : Rr n => s.Tracks (processAt n prevRun) ∧ s.queue.length ≤ maxSize) (by
      rintro s s' ⟨htracks, hle⟩ - hbody
      rw [Rr.tick_eq hle] at hbody
      split at hbody
      · rename_i hle'
        obtain rfl := Option.some.inj hbody
        exact ⟨htracks.arrived.released.choose, hle'⟩
      · simp at hbody)
    ⟨⟨fun i => processAt_eq_some_iff.symm, fun i hi => absurd hi (by simp [Rr.start, Sim.start]),
      rfl⟩, Nat.zero_le _⟩ h
  exact hloop.1.1.count

/-! ## The four schedulers -/

/-- The number that a scheduler returns is the number of changes to another process in its Gantt
chart. In `RR` the first process is compared with the value that `prev_run` happens to have. -/
theorem ret_eq_switches (list : Fin n → Process) (h : Input list) :
    (∃ r, Returns (fcfs list) r ∧ r.ret = switches none r.chart) ∧
    (∃ r, Returns (sjf list) r ∧ r.ret = switches none r.chart) ∧
    (∃ r, Returns (srtf list) r ∧ r.ret = switches none r.chart) ∧
    ∀ (maxSize : ℕ) (prevRun curSlice q : ℤ), 1 ≤ q → totalSlices q list ≤ maxSize →
      ∃ r, Returns (rr maxSize prevRun curSlice q list) r ∧
        r.ret = switches (processAt n prevRun) r.chart := by
  refine ⟨?_, ?_, ?_, ?_⟩
  · obtain ⟨s, hrun, hcount⟩ := nonPreemptive_switches selects_firstReady h.loaded.sortByArrival
      (one_le_burst_sortByArrival h.burst)
    exact ⟨_, hrun.map _, congrArg Nat.cast hcount⟩
  · obtain ⟨s, hrun, hcount⟩ :=
      nonPreemptive_switches (selects_scanMin_burst h.bound) h.loaded h.burst
    exact ⟨_, hrun.map _, congrArg Nat.cast hcount⟩
  · obtain ⟨s, hrun, -⟩ := srtf_returns h.loaded h.burst h.bound
    obtain ⟨N, hN⟩ := id hrun
    exact ⟨_, hrun.map _, congrArg Nat.cast (srtfLoop_switches (hN N le_rfl))⟩
  · intro maxSize prevRun curSlice q hq hmax
    obtain ⟨s, hrun, -⟩ := rr_returns h.loaded h.burst h.arrival hq hmax prevRun curSlice
    obtain ⟨N, hN⟩ := id hrun
    exact ⟨_, hrun.map _, congrArg Nat.cast (rrLoop_switches (hN N le_rfl))⟩

theorem ret_eq_switches_twoProcesses :
    Input twoProcesses ∧ totalSlices 2 twoProcesses ≤ MAX_SIZE ∧
      ∃ r r', Returns (srtf twoProcesses) r ∧ r.ret = switches none r.chart ∧
        Returns (rr MAX_SIZE (-1) 0 2 twoProcesses) r' ∧ r'.ret = switches none r'.chart := by
  have hmax : totalSlices 2 twoProcesses ≤ MAX_SIZE := by decide
  obtain ⟨-, -, ⟨r, hrun, hret⟩, hrr⟩ := ret_eq_switches twoProcesses input_twoProcesses
  obtain ⟨r', hrun', hret'⟩ := hrr MAX_SIZE (-1) 0 2 (by decide) hmax
  exact ⟨input_twoProcesses, hmax, r, r', hrun, hret, hrun', hret'⟩

end SchoolOS.CpuScheduler
