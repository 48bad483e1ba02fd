import SchoolOS.CpuScheduler.Schedulers

/-!
# The context switches of `SRTF`

After every tick, the running process has less time left than every other process that was ready: it
had no more than the others, and has just used a slot (`RunsShortest`). So a process that takes the
processor from an unfinished one arrives at this very tick (`RunsShortest.preempted`). It has less
time left; or the same, if it stands before the running process in the list.

Every switch starts a process, or resumes one that has been suspended. A process is only suspended
when another one is started, and the first start suspends nobody. This is the invariant `Charged`,
and it bounds the number of switches of a whole run (`srtf_contextSwitch_bounds`).
-/

namespace SchoolOS.CpuScheduler

open Function Loop

variable {n : ℕ} {L : Fin n → Process} {s : Sim n} {i j : Fin n}

/-! ## Preemption -/

/-- The running process has less time left than every other process that was ready at the last
tick. -/
def Sim.RunsShortest (s : Sim n) : Prop :=
  ∀ i, s.running = some i → ∀ j, j ≠ i → s.WasReady j → (s.list i).remain < (s.list j).remain

theorem Sim.RunsShortest.complete (h : s.RunsShortest) : s.complete.RunsShortest := by
  rcases s.complete_cases with ⟨heq, -⟩ | ⟨i, -, -, heq⟩
  · rwa [heq]
  · rw [heq]
    intro j hj
    simp at hj

/-- The process that is selected has used one more slot after the tick. -/
theorem Sim.runsShortest_run (hprec : ∀ k, s.Ready k → s.Precedes Process.remain j k) :
    ((s.resume j).execute j).RunsShortest := by
  intro i hi k hki hk
  rw [Sim.wasReady_run_iff] at hk
  rw [Sim.resume_execute] at hi ⊢
  obtain rfl : j = i := Option.some.inj hi
  have hle := hprec k hk
  simp only [update_self, update_of_ne hki, Process.afterSlot]
  rcases hle with hlt | ⟨heq, -⟩
  · omega
  · omega

/-- A process that takes the processor from a process with time left has just arrived. -/
theorem Sim.RunsShortest.preempted (h : s.RunsShortest) (hrun : s.running = some i) (hj : s.Ready j)
    (hji : j ≠ i) (hprec : s.Precedes Process.remain j i) :
    (s.list j).arrival = s.time ∧
      ((s.list j).remain < (s.list i).remain ∨ (s.list j).remain = (s.list i).remain ∧ j < i) := by
  have hnew : ¬ (s.list j).arrival < s.time := by
    intro hlt
    have hless := h i hrun j hji ⟨hlt, hj.2⟩
    rcases hprec with hlt' | ⟨heq, -⟩
    · omega
    · omega
  have harrived := hj.1
  refine ⟨by omega, ?_⟩
  rcases hprec with hlt | ⟨heq, hle⟩
  · exact Or.inl hlt
  · exact Or.inr ⟨heq, lt_of_le_of_ne hle hji⟩

/-! ## Started and suspended processes -/

/-- The processes that have had a slot. -/
def Sim.begun (s : Sim n) : Finset (Fin n) := Finset.univ.filter fun i => some i ∈ s.chart

/-- The processes that have had a slot, have not been completed and are not running. -/
def Sim.suspended (s : Sim n) : Finset (Fin n) :=
  s.begun.filter fun i => (s.list i).ended = 0 ∧ s.running ≠ some i

theorem Sim.mem_begun : i ∈ s.begun ↔ some i ∈ s.chart := by simp [Sim.begun]

theorem Sim.mem_suspended :
    i ∈ s.suspended ↔ some i ∈ s.chart ∧ (s.list i).ended = 0 ∧ s.running ≠ some i := by
  rw [Sim.suspended, Finset.mem_filter, Sim.mem_begun]

theorem Sim.complete_begun (s : Sim n) : s.complete.begun = s.begun := by
  rw [Sim.begun, s.complete_chart, Sim.begun]

theorem Sim.complete_suspended (s : Sim n) : s.complete.suspended = s.suspended := by
  rcases s.complete_cases with ⟨heq, -⟩ | ⟨i, hrun, -, heq⟩
  · rw [heq]
  · ext k
    rw [heq, Sim.mem_suspended, Sim.mem_suspended, hrun]
    by_cases hki : k = i
    · simp [hki]
    · simp [hki, Ne.symm hki]

theorem Sim.mem_chart_idle : some i ∈ s.idle.chart ↔ some i ∈ s.chart := by
  unfold Sim.idle
  split
  · simp
  · rfl

theorem Sim.idle_begun (s : Sim n) : s.idle.begun = s.begun := by
  ext k
  rw [Sim.mem_begun, Sim.mem_begun, Sim.mem_chart_idle]

theorem Sim.idle_suspended (s : Sim n) : s.idle.suspended = s.suspended := by
  ext k
  rw [Sim.mem_suspended, Sim.mem_suspended, Sim.mem_chart_idle]
  rfl

theorem Sim.run_begun (s : Sim n) (j : Fin n) :
    ((s.resume j).execute j).begun = insert j s.begun := by
  ext k
  rw [Finset.mem_insert, Sim.mem_begun, Sim.mem_begun, Sim.resume_execute]
  simp [or_comm]

/-- When process `j` gets the slot, the process that was running is suspended. -/
theorem Inv.mem_suspended_run (h : Inv L s) (j k : Fin n) :
    k ∈ ((s.resume j).execute j).suspended ↔ k ≠ j ∧ (k ∈ s.suspended ∨ s.running = some k) := by
  rw [Sim.mem_suspended, Sim.mem_suspended, Sim.resume_execute]
  by_cases hkj : k = j
  · simp [hkj]
  · have hrunning := h.running k
    simp only [List.mem_append, List.mem_singleton, Option.some.injEq, hkj, or_false, ne_eq,
      update_of_ne hkj, Ne.symm hkj, not_false_eq_true, and_true, true_and]
    constructor
    · rintro ⟨hchart, hended⟩
      by_cases hrun : s.running = some k
      · exact Or.inr hrun
      · exact Or.inl ⟨hchart, hended, hrun⟩
    · rintro (⟨hchart, hended, -⟩ | hrun)
      · exact ⟨hchart, hended⟩
      · exact ⟨List.mem_of_getLast? (hrunning hrun).2, (hrunning hrun).1⟩

/-- `k` switches have been counted: at least one for each process that has been started, and at most
two, less the resumptions that are still owed to suspended processes and one for the first start. -/
structure Charged (s : Sim n) (k : ℕ) : Prop where
  begun_le : s.begun.card ≤ k
  le_begun : k + s.suspended.card ≤ 2 * s.begun.card - 1

/-- A process is started: the switch is paid for by the start, and so is the resumption of the
process that was running, if there was one. -/
theorem Charged.start {k : ℕ} (h : Charged s k) (hinv : Inv L s) (hj : some j ∉ s.chart) :
    Charged ((s.resume j).execute j) (k + 1) := by
  have hbegun : ((s.resume j).execute j).begun.card = s.begun.card + 1 := by
    rw [s.run_begun, Finset.card_insert_of_notMem (by rwa [Sim.mem_begun])]
  have hle := h.le_begun
  refine ⟨by rw [hbegun]; exact Nat.succ_le_succ h.begun_le, ?_⟩
  rw [hbegun]
  cases hrun : s.running with
  | none =>
    have hsub : ((s.resume j).execute j).suspended ⊆ s.suspended := by
      intro k hk
      simpa [hrun] using ((hinv.mem_suspended_run j k).mp hk).2
    have hcard := Finset.card_le_card hsub
    omega
  | some i =>
    have hsub : ((s.resume j).execute j).suspended ⊆ insert i s.suspended := by
      intro k hk
      rw [Finset.mem_insert]
      rcases ((hinv.mem_suspended_run j k).mp hk).2 with hk | hk
      · exact Or.inr hk
      · exact Or.inl (Option.some.inj (hk.symm.trans hrun))
    have hcard := (Finset.card_le_card hsub).trans (Finset.card_insert_le i s.suspended)
    have hpos : 0 < s.begun.card := by
      apply Finset.card_pos.mpr
      exact ⟨i, Sim.mem_begun.mpr (List.mem_of_getLast? (hinv.running i hrun).2)⟩
    omega

/-- A suspended process is resumed while no process is running. -/
theorem Charged.resume {k : ℕ} (h : Charged s k) (hinv : Inv L s) (hrun : s.running = none)
    (hj : j ∈ s.suspended) : Charged ((s.resume j).execute j) (k + 1) := by
  have hmem : j ∈ s.begun := Sim.mem_begun.mpr (Sim.mem_suspended.mp hj).1
  have hbegun : ((s.resume j).execute j).begun = s.begun := by
    rw [s.run_begun, Finset.insert_eq_of_mem hmem]
  have hsuspended : ((s.resume j).execute j).suspended = s.suspended.erase j := by
    ext k
    rw [hinv.mem_suspended_run, Finset.mem_erase, hrun]
    simp
  have hcard := Finset.card_erase_add_one hj
  have hle := h.le_begun
  refine ⟨by rw [hbegun]; exact h.begun_le.trans (Nat.le_succ k), ?_⟩
  rw [hbegun, hsuspended]
  omega

/-- The running process keeps the processor. -/
theorem Charged.keep {k : ℕ} (h : Charged s k) (hinv : Inv L s) (hrun : s.running = some j) :
    Charged ((s.resume j).execute j) k := by
  have hmem : j ∈ s.begun := Sim.mem_begun.mpr (List.mem_of_getLast? (hinv.running j hrun).2)
  have hbegun : ((s.resume j).execute j).begun = s.begun := by
    rw [s.run_begun, Finset.insert_eq_of_mem hmem]
  have hsub : ((s.resume j).execute j).suspended ⊆ s.suspended := by
    intro k hk
    obtain ⟨hkj, hk⟩ := (hinv.mem_suspended_run j k).mp hk
    rcases hk with hk | hk
    · exact hk
    · exact absurd (Option.some.inj (hk.symm.trans hrun)) hkj
  have hcard := Finset.card_le_card hsub
  have hle := h.le_begun
  refine ⟨by rw [hbegun]; exact h.begun_le, ?_⟩
  rw [hbegun]
  omega

/-- A slot of `SRTF`. -/
theorem Charged.run {k : ℕ} (h : Charged s k) (hset : Settled L s) (hshort : s.RunsShortest)
    (hj : s.Ready j) (hprec : ∀ k, s.Ready k → s.Precedes Process.remain j k) :
    Charged ((s.resume j).execute j) (if s.running ≠ some j then k + 1 else k) := by
  have hinv := hset.toInv
  have hlt := hset.finCnt_lt_iff.mpr ⟨j, hj.2⟩
  cases hrun : s.running with
  | none =>
    rw [if_pos (by simp)]
    by_cases hmem : some j ∈ s.chart
    · exact h.resume hinv hrun (Sim.mem_suspended.mpr ⟨hmem, hj.2, by simp [hrun]⟩)
    · exact h.start hinv hmem
  | some i =>
    by_cases hji : j = i
    · subst hji
      rw [if_neg (by simp)]
      exact h.keep hinv hrun
    · -- a process that preempts has just arrived, so it has not been suspended
      have hprec' := hprec i (hset.ready_of_running hrun)
      have harrival := (hshort.preempted hrun hj hji hprec').1
      rw [if_pos (by simpa using Ne.symm hji)]
      exact h.start hinv (hset.notMem_chart hlt harrival.symm)

/-! ## Whole runs -/

/-- The invariant of the tick loop of `SRTF`. -/
structure SrtfInv (L : Fin n → Process) (s : Srtf n) : Prop where
  inv : Inv L s.toSim
  shortest : s.toSim.RunsShortest
  charged : Charged s.toSim s.contextSwitch

theorem srtfInv_start (hload : Loaded L) (hburst : ∀ i, 1 ≤ (L i).burst) :
    SrtfInv L ⟨Sim.start L, 0⟩ where
  inv := inv_start hload hburst
  shortest i hi := by simp [Sim.start] at hi
  charged := by
    have hbegun : (Sim.start L).begun = ∅ := by simp [Sim.begun, Sim.start]
    constructor
    · simp [hbegun]
    · simp [hbegun, Sim.suspended]

theorem SrtfInv.tick {s : Srtf n} (h : SrtfInv L s) (hburst : ∀ i, 1 ≤ (L i).burst)
    (hmax : ∀ i, (L i).burst < INT_MAX) (hlt : s.finCnt < n) : SrtfInv L (srtfTick s) := by
  have hset := h.inv.complete hlt
  have hinv := (h.inv.step hburst hlt (srtfTick_step h.inv hmax hlt)).1
  have hcharged : Charged s.toSim.complete s.contextSwitch := by
    refine ⟨?_, ?_⟩
    · rw [Sim.complete_begun]
      exact h.charged.begun_le
    · rw [Sim.complete_begun, Sim.complete_suspended]
      exact h.charged.le_begun
  rcases srtfTick_cases hset hmax with ⟨hnone, htick⟩ | ⟨j, hready, hprec, htick⟩
  · have hrun := hset.running_eq_none hnone
    rw [htick] at hinv ⊢
    refine ⟨hinv, fun i hi => ?_, ?_, ?_⟩
    · simp [Sim.idle, hrun] at hi
    · rw [Sim.idle_begun]
      exact hcharged.begun_le
    · rw [Sim.idle_begun, Sim.idle_suspended]
      exact hcharged.le_begun
  · rw [htick] at hinv ⊢
    exact ⟨hinv, Sim.runsShortest_run hprec,
      hcharged.run hset h.shortest.complete hready hprec⟩

/-- The states that the tick loop of `SRTF` visits. -/
def SrtfVisits (list : Fin n → Process) (s : Srtf n) : Prop :=
  Visits (fun s : Srtf n => s.active) (fun s => some (srtfTick s)) ⟨Sim.start list, 0⟩ s

theorem SrtfVisits.inv {list : Fin n → Process} (h : Input list) {s : Srtf n}
    (hs : SrtfVisits list s) : SrtfInv list s := by
  apply hs.invariant (SrtfInv list) (srtfInv_start h.loaded h.burst)
  intro s s' hinv hactive htick
  obtain rfl := Option.some.inj htick
  exact hinv.tick h.burst h.bound (by simpa [Sim.active] using hactive)

/-- `SRTF` takes the processor from an unfinished process only for one that arrives at this tick and
has less time left, or the same time and a place before the running process in the list. Only then
is a context switch counted. -/
theorem srtf_preempts (list : Fin n → Process) (h : Input list) (s : Srtf n)
    (hs : SrtfVisits list s) (hactive : s.active = true) (i : Fin n) (hrun : s.running = some i)
    (hrem : (s.list i).remain ≠ 0) :
    ∃ j, (srtfTick s).running = some j ∧
      (srtfTick s).contextSwitch = s.contextSwitch + (if j = i then 0 else 1) ∧
      (j ≠ i → (s.list j).arrival = s.time ∧ (s.list j).ended = 0 ∧
        ((s.list j).remain < (s.list i).remain ∨ (s.list j).remain = (s.list i).remain ∧
          j < i)) := by
  have hinv := hs.inv h
  have hset := hinv.inv.complete (by simpa [Sim.active] using hactive)
  have hcomplete : s.toSim.complete = s.toSim := by simp [Sim.complete, hrun, hrem]
  have hcases := srtfTick_cases hset h.bound
  rw [hcomplete] at hset hcases
  have hready := hset.ready_of_running hrun
  rcases hcases with ⟨hnone, -⟩ | ⟨j, hj, hprec, htick⟩
  · exact absurd hready (hnone i)
  · refine ⟨j, ?_, ?_, fun hji => ?_⟩
    · rw [htick, Sim.resume_execute]
    · rw [htick, hrun]
      by_cases hji : j = i
      · simp [hji]
      · simp [hji, Ne.symm hji]
    · obtain ⟨harrival, hless⟩ := hinv.shortest.preempted hrun hj hji (hprec i hready)
      exact ⟨harrival, hj.2, hless⟩

/-- In the second tick for `twoProcesses`, the second process takes the processor. -/
theorem srtf_preempts_twoProcesses :
    Input twoProcesses ∧ ∃ s i, SrtfVisits twoProcesses s ∧ s.running = some i ∧
      ∃ j, (srtfTick s).running = some j ∧ j ≠ i ∧
        (srtfTick s).contextSwitch = s.contextSwitch + (if j = i then 0 else 1) ∧
        (j ≠ i → (s.list j).arrival = s.time ∧ (s.list j).ended = 0 ∧
          ((s.list j).remain < (s.list i).remain ∨
            (s.list j).remain = (s.list i).remain ∧ j < i)) := by
  have h := input_twoProcesses
  have hs : SrtfVisits twoProcesses (srtfTick ⟨Sim.start twoProcesses, 0⟩) :=
    Visits.step .start (by decide) rfl
  obtain ⟨j, hj, hcount, hless⟩ :=
    srtf_preempts twoProcesses h _ hs (by decide) 0 (by decide) (by decide)
  refine ⟨h, _, 0, hs, by decide, j, hj, ?_, hcount, hless⟩
  rintro rfl
  exact absurd hj (by decide)

/-- The first process of the list arrives when the second one has run for one slot, and both have
two slots left. -/
def tiedProcesses (i : Fin 2) : Process :=
  if i.val = 0 then loadedProcess 1 1 2 else loadedProcess 2 0 3

/-- A switch is made and counted for a process that has no less time left. -/
theorem srtf_preempts_tiedProcesses :
    Input tiedProcesses ∧ ∃ s i j, SrtfVisits tiedProcesses s ∧ s.active = true ∧
      s.running = some i ∧ (s.list i).remain ≠ 0 ∧ (srtfTick s).running = some j ∧ j ≠ i ∧
      ¬ (s.list j).remain < (s.list i).remain ∧
      (srtfTick s).contextSwitch = s.contextSwitch + 1 := by
  have hload : Loaded tiedProcesses := Fin.forall_fin_two.mpr ⟨⟨rfl, rfl⟩, ⟨rfl, rfl⟩⟩
  refine ⟨⟨hload, by decide, by decide, by decide⟩, srtfTick ⟨Sim.start tiedProcesses, 0⟩, 1, 0, ?_,
    ?_⟩
  · exact Visits.step .start (by decide) rfl
  · decide

/-- `SRTF` counts at least `n` and at most `2n - 1` context switches. -/
theorem srtf_contextSwitch_bounds (list : Fin n → Process) (h : Input list) (hn : 1 ≤ n) :
    ∃ r, Returns (srtf list) r ∧ n ≤ r.ret ∧ r.ret ≤ 2 * n - 1 := by
  obtain ⟨s, hrun, hinv, -, hdone⟩ := srtf_returns h.loaded h.burst h.bound
  have hvisits : SrtfVisits list s := by
    obtain ⟨N, hN⟩ := hrun
    exact visits_of_whileLoop (hN N le_rfl)
  have hcharged := (hvisits.inv h).charged
  have hbegun : s.toSim.begun.card = n := by
    have huniv : s.toSim.begun = Finset.univ := by
      ext i
      have hburst := h.burst i
      have hcount := hinv.count_eq hdone i
      rw [Sim.mem_begun, ← List.count_pos_iff]
      simp only [Finset.mem_univ, iff_true]
      omega
    rw [huniv, Finset.card_univ, Fintype.card_fin]
  have hlower := hcharged.begun_le
  have hupper := hcharged.le_begun
  refine ⟨_, hrun.map _, ?_, ?_⟩
  · show (n : ℤ) ≤ s.contextSwitch
    omega
  · show (s.contextSwitch : ℤ) ≤ 2 * n - 1
    omega

theorem srtf_contextSwitch_bounds_twoProcesses :
    Input twoProcesses ∧ ∃ r, Returns (srtf twoProcesses) r ∧ (2 : ℕ) ≤ r.ret ∧
      r.ret ≤ 2 * (2 : ℕ) - 1 :=
  ⟨input_twoProcesses, srtf_contextSwitch_bounds twoProcesses input_twoProcesses (by decide)⟩

end SchoolOS.CpuScheduler
