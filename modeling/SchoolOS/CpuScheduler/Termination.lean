import SchoolOS.CpuScheduler.QueueBounds

/-!
# When the tick loops end

A process is completed by the test `remain == 0`, one tick after the slot that used up its time. A
process with a burst time of 0 gets a slot before the test is made: its `remain` is negative from
then on, and the test never succeeds. `Stuck i` is the invariant of a loop that waits for such a
process `i`. It holds whichever processes get the slots, so it is kept by the ticks of all four
schedulers, and each of their loops ends exactly if every burst time is positive.
-/

namespace SchoolOS.CpuScheduler

open Function Loop

variable {n : ℕ} {s : Sim n} {i : Fin n}

/-- The test `remain == 0` of process `j` will not succeed any more. -/
def Sim.Passed (s : Sim n) (j : Fin n) : Prop :=
  (s.list j).remain ≤ 0 ∧ (s.running = some j → (s.list j).remain < 0)

/-- Process `i` is not completed and never will be, and no process is completed twice. -/
structure Stuck (i : Fin n) (s : Sim n) : Prop where
  passed : s.Passed i
  ended : (s.list i).ended = 0
  others : ∀ j, (s.list j).ended ≠ 0 → s.Passed j
  finCnt : s.finCnt = (Finset.univ.filter fun j => (s.list j).ended ≠ 0).card

theorem Stuck.active (h : Stuck i s) : s.active = true := by
  have hlt := Sim.card_ended_lt h.ended
  rw [← h.finCnt] at hlt
  simpa [Sim.active] using hlt

/-! ## One tick -/

/-- The invariant reads `ended`, `finCnt` and which processes have passed their test. -/
theorem Stuck.congr {s' : Sim n} (h : Stuck i s)
    (hended : ∀ j, (s'.list j).ended = (s.list j).ended)
    (hfin : s'.finCnt = s.finCnt) (hpassed : ∀ j, s.Passed j → s'.Passed j) : Stuck i s' where
  passed := hpassed i h.passed
  ended := (hended i).trans h.ended
  others j hj := hpassed j (h.others j (by rwa [← hended j]))
  finCnt := by
    simp only [hended]
    rw [hfin, h.finCnt]

theorem Stuck.complete (h : Stuck i s) : Stuck i s.complete := by
  rcases s.complete_cases with ⟨heq, -⟩ | ⟨k, hrun, hzero, heq⟩
  · rwa [heq]
  · -- the process that is completed has not passed its test before
    have hnot : ¬ s.Passed k := by
      rintro ⟨-, hlt⟩
      have := hlt hrun
      omega
    have hki : i ≠ k := by
      rintro rfl
      exact hnot h.passed
    have hk : (s.list k).ended = 0 := by
      by_contra hne
      exact hnot (h.others k hne)
    have hremain := s.complete_remain
    have hpassed : ∀ j, (s.list j).remain ≤ 0 → s.complete.Passed j := by
      intro j hj
      refine ⟨by rwa [hremain j], ?_⟩
      rw [heq]
      simp
    have hother : ∀ j, j ≠ k → s.complete.list j = s.list j := by
      intro j hj
      rw [heq]
      exact update_of_ne hj _ _
    refine ⟨hpassed i h.passed.1, by rw [hother i hki, h.ended], fun j hj => ?_, ?_⟩
    · by_cases hjk : j = k
      · exact hpassed j (by rw [hjk, hzero])
      · rw [hother j hjk] at hj
        exact hpassed j (h.others j hj).1
    · have hfilter : (Finset.univ.filter fun j => (s.complete.list j).ended ≠ 0) =
          insert k (Finset.univ.filter fun j => (s.list j).ended ≠ 0) := by
        ext j
        by_cases hjk : j = k
        · simp [heq, hjk]
        · simp [hother j hjk, hjk]
      rw [hfilter, Finset.card_insert_of_notMem (by simp [hk]), ← h.finCnt, heq]

theorem Stuck.idle (h : Stuck i s) : Stuck i s.idle :=
  h.congr (fun _ => rfl) rfl fun _ hj => hj

/-- The running process loses the processor. -/
theorem Stuck.preempt (h : Stuck i s) : Stuck i { s with running := none } :=
  h.congr (fun _ => rfl) rfl fun _ hj => ⟨hj.1, by simp⟩

/-- A slot of process `k`, in a state `s₁` that differs from `s` in the process that is running. -/
theorem Stuck.execute {s₁ : Sim n} {k : Fin n} (h : Stuck i s) (hrun : s₁.running = some k)
    (hremain : ∀ j, (s₁.list j).remain = (s.list j).remain)
    (hended : ∀ j, (s₁.list j).ended = (s.list j).ended) (hfin : s₁.finCnt = s.finCnt) :
    Stuck i (s₁.execute k) := by
  refine h.congr (fun j => ?_) hfin (fun j hj => ?_)
  · rw [← hended j]
    exact field_update Process.ended s₁.list k
      { s₁.list k with remain := (s₁.list k).remain - 1 } rfl j
  · obtain ⟨hle, -⟩ := hj
    rw [← hremain j] at hle
    by_cases hjk : j = k
    · subst hjk
      refine ⟨?_, fun _ => ?_⟩
      · simp only [Sim.execute, update_self]
        omega
      · simp only [Sim.execute, update_self]
        omega
    · refine ⟨?_, fun hj => ?_⟩
      · simpa only [Sim.execute, update_of_ne hjk] using hle
      · exact absurd (Option.some.inj (hrun.symm.trans hj)).symm hjk

theorem Stuck.resume_execute (h : Stuck i s) (k : Fin n) : Stuck i ((s.resume k).execute k) := by
  refine h.execute (s.resume_running k) (s.resume_remain k) (fun j => ?_) ?_
  · rw [Sim.resume_eq]
    exact field_update Process.ended s.list k ((s.list k).resumed s.time) rfl j
  · rw [Sim.resume_eq]

theorem Stuck.dispatch_execute (h : Stuck i s) (k : Fin n) : Stuck i ((s.dispatch k).execute k) :=
  h.execute rfl (field_update Process.remain s.list k _ rfl)
    (field_update Process.ended s.list k _ rfl)
    rfl

theorem Stuck.nonPreemptiveTick (h : Stuck i s) (select : Sim n → Option (Fin n)) :
    Stuck i (s.nonPreemptiveTick select) := by
  have hcomplete := h.complete
  unfold Sim.nonPreemptiveTick
  dsimp only
  split
  · rename_i k hrun
    exact hcomplete.execute hrun (fun _ => rfl) (fun _ => rfl) rfl
  · split
    · exact hcomplete.idle
    · exact hcomplete.dispatch_execute _

theorem Stuck.srtfTick {s : Srtf n} (h : Stuck i s.toSim) : Stuck i (srtfTick s).toSim := by
  have hcomplete := h.complete
  unfold CpuScheduler.srtfTick
  dsimp only
  split
  · exact hcomplete.idle
  · exact hcomplete.resume_execute _

theorem Stuck.released {s : Rr n} (h : Stuck i s.toSim) : Stuck i s.released.toSim := by
  unfold Rr.released
  split
  · exact h
  · split
    · exact h.complete
    · split
      · exact h.preempt
      · exact h

theorem Stuck.choose {s : Rr n} (q : ℤ) (h : Stuck i s.toSim) : Stuck i (s.choose q).toSim := by
  rcases s.choose_cases q with ⟨k, hrun, heq⟩ | ⟨-, -, heq⟩ | ⟨k, -, -, heq⟩
  · rw [heq]
    exact h.execute hrun (fun _ => rfl) (fun _ => rfl) rfl
  · rw [heq]
    exact h.idle
  · rw [heq]
    exact h.resume_execute k

theorem Stuck.next {s : Rr n} (q : ℤ) (h : Stuck i s.toSim) : Stuck i (s.next q).toSim :=
  Stuck.choose q (Stuck.released (s := s.arrived) h)

/-! ## Whole runs -/

/-- The tick loop of `RR` with an array that has room for every push. -/
def rrUnboundedLoop (timeSlice : ℤ) (fuel : ℕ) (s : Rr n) : Option (Rr n) :=
  whileLoop (fun s => s.active) (fun s => some (s.next timeSlice)) fuel s

section Runs

variable {L : Fin n → Process}

/-- A process that is loaded with a burst time of 0. -/
theorem stuck_start (hload : Loaded L) (h : (L i).burst ≤ 0) : Stuck i (Sim.start L) where
  passed := ⟨by simpa [Sim.start, (hload i).1] using h, by simp [Sim.start]⟩
  ended := (hload i).2
  others j hj := absurd (hload j).2 hj
  finCnt := by simp [Sim.start, (hload _).2]

/-- A tick that keeps a stuck process stuck makes a loop without end. -/
theorem not_returns_of_stuck {σ : Type} (sim : σ → Sim n) (tick : σ → σ)
    (htick : ∀ t, Stuck i (sim t) → Stuck i (sim (tick t))) {t t' : σ} (h : Stuck i (sim t)) :
    ¬ Returns
      (fun fuel => whileLoop (fun t => (sim t).active) (fun t => some (tick t)) fuel t) t' := by
  refine not_returns_of_invariant (fun t => Stuck i (sim t)) (fun t t₁ ht _ hbody => ?_)
    (fun t ht => ht.active) h
  obtain rfl := Option.some.inj hbody
  exact htick t ht

theorem not_fcfsLoop_returns (hload : Loaded L) (h : (L i).burst ≤ 0) (s : Sim n) :
    ¬ Returns (fun fuel => fcfsLoop fuel (Sim.start (sortByArrival L))) s := by
  obtain ⟨j, hj⟩ := (sortOrder_bijective Process.arrival L).2 i
  have hzero : (sortByArrival L j).burst ≤ 0 := by
    rw [sortByArrival_eq]
    exact (congrArg (fun k => (L k).burst) hj).trans_le h
  exact not_returns_of_stuck id fcfsTick (fun _ ht => ht.nonPreemptiveTick Sim.firstReady)
    (stuck_start hload.sortByArrival hzero)

theorem not_sjfLoop_returns (hload : Loaded L) (h : (L i).burst ≤ 0) (s : Sim n) :
    ¬ Returns (fun fuel => sjfLoop fuel (Sim.start L)) s :=
  not_returns_of_stuck id sjfTick
    (fun _ ht => ht.nonPreemptiveTick fun s => s.scanMin Process.burst)
    (stuck_start hload h)

theorem not_srtfLoop_returns (hload : Loaded L) (h : (L i).burst ≤ 0) (s : Srtf n) :
    ¬ Returns (fun fuel => srtfLoop fuel ⟨Sim.start L, 0⟩) s :=
  not_returns_of_stuck Srtf.toSim srtfTick (fun _ ht => ht.srtfTick) (stuck_start hload h)

theorem not_rrUnboundedLoop_returns (hload : Loaded L) (h : (L i).burst ≤ 0)
    (q prevRun curSlice : ℤ) (s : Rr n) :
    ¬ Returns (fun fuel => rrUnboundedLoop q fuel (Rr.start L prevRun curSlice)) s :=
  not_returns_of_stuck Rr.toSim (Rr.next q) (fun _ ht => ht.next q) (stuck_start hload h)

theorem Inv.finCnt_eq (h : Inv L s) (hdone : ¬ s.finCnt < n) : s.finCnt = n := by
  have hle : s.finCnt ≤ n := by
    rw [h.finCnt]
    exact (Finset.card_le_univ _).trans_eq (Fintype.card_fin n)
  omega

theorem rrUnbounded_returns {q : ℤ} (hload : Loaded L) (hburst : ∀ i, 1 ≤ (L i).burst)
    (harrival : ∀ i, 0 ≤ (L i).arrival) (hq : 1 ≤ q) (prevRun curSlice : ℤ) :
    ∃ s, Returns (fun fuel => rrUnboundedLoop q fuel (Rr.start L prevRun curSlice)) s ∧
      RrInv L q (totalSlices q L) s ∧ ¬ s.finCnt < n := by
  obtain ⟨s, hrun, hinv, hdone⟩ := returns_whileLoop (fun s : Rr n => s.active)
    (fun s => some (s.next q)) (RrInv L q (totalSlices q L)) (fun s => measure L s.toSim) (by
      intro s hinv hactive
      have hlt : s.finCnt < n := by simpa [Sim.active] using hactive
      obtain ⟨hinv', hmeasure⟩ := hinv.next hburst hq hlt
      exact ⟨_, rfl, hinv', hmeasure⟩)
    _ (rrInv_start hload hburst harrival prevRun curSlice)
  exact ⟨s, hrun, hinv, by simpa [Sim.active] using hdone⟩

/-- A loop that ends for positive burst times, and does not for one of 0. -/
theorem ends_iff {σ : Type} {run : ℕ → Option σ} {P : σ → Prop}
    (hstuck : ∀ i, (L i).burst ≤ 0 → ∀ s, ¬ Returns run s)
    (hends : (∀ i, 1 ≤ (L i).burst) → ∃ s, Returns run s ∧ P s) :
    (∃ s, Returns run s ∧ P s) ↔ ∀ i, 1 ≤ (L i).burst := by
  refine ⟨?_, hends⟩
  rintro ⟨s, hrun, -⟩ i
  by_contra hlt
  exact hstuck i (by omega) s hrun

end Runs

/-- For a list as loaded, with no negative arrival or burst time, each of the four tick loops ends,
with all processes completed, exactly if there is no burst time of 0. -/
theorem loops_end_iff (list : Fin n → Process) (hload : Loaded list)
    (harrival : ∀ i, 0 ≤ (list i).arrival)
    (hburst : ∀ i, 0 ≤ (list i).burst ∧ (list i).burst < INT_MAX) (q : ℤ) (hq : 1 ≤ q)
    (prevRun curSlice : ℤ) :
    ((∃ s, Returns (fun fuel => fcfsLoop fuel (Sim.start (sortByArrival list))) s ∧ s.finCnt = n) ↔
      ∀ i, 1 ≤ (list i).burst) ∧
    ((∃ s, Returns (fun fuel => sjfLoop fuel (Sim.start list)) s ∧ s.finCnt = n) ↔
      ∀ i, 1 ≤ (list i).burst) ∧
    ((∃ s, Returns (fun fuel => srtfLoop fuel ⟨Sim.start list, 0⟩) s ∧ s.finCnt = n) ↔
      ∀ i, 1 ≤ (list i).burst) ∧
    ((∃ s, Returns (fun fuel => rrUnboundedLoop q fuel (Rr.start list prevRun curSlice)) s ∧
        s.finCnt = n) ↔
      ∀ i, 1 ≤ (list i).burst) := by
  have hbound := fun i => (hburst i).2
  refine ⟨ends_iff (fun _ => not_fcfsLoop_returns hload) fun hpos => ?_,
    ends_iff (fun _ => not_sjfLoop_returns hload) fun hpos => ?_,
    ends_iff (fun _ => not_srtfLoop_returns hload) fun hpos => ?_,
    ends_iff (fun _ h => not_rrUnboundedLoop_returns hload h q prevRun curSlice) fun hpos => ?_⟩
  · obtain ⟨s, hrun, hinv, -, hdone⟩ := nonPreemptive_returns selects_firstReady
      hload.sortByArrival (one_le_burst_sortByArrival hpos)
    exact ⟨s, hrun, hinv.finCnt_eq hdone⟩
  · obtain ⟨s, hrun, hinv, -, hdone⟩ :=
      nonPreemptive_returns (selects_scanMin_burst hbound) hload hpos
    exact ⟨s, hrun, hinv.finCnt_eq hdone⟩
  · obtain ⟨s, hrun, hinv, -, hdone⟩ := srtf_returns hload hpos hbound
    exact ⟨s, hrun, hinv.finCnt_eq hdone⟩
  · obtain ⟨s, hrun, hrr, hdone⟩ := rrUnbounded_returns hload hpos harrival hq prevRun curSlice
    exact ⟨s, hrun, hrr.inv.finCnt_eq hdone⟩

theorem loops_end_iff_twoProcesses :
    Input twoProcesses ∧
      (∃ s, Returns (fun fuel => srtfLoop fuel ⟨Sim.start twoProcesses, 0⟩) s ∧ s.finCnt = 2) ∧
      ∃ s, Returns (fun fuel => rrUnboundedLoop 2 fuel (Rr.start twoProcesses 0 0)) s ∧
        s.finCnt = 2 := by
  have h := input_twoProcesses
  have hburst : ∀ i, 0 ≤ (twoProcesses i).burst ∧ (twoProcesses i).burst < INT_MAX :=
    fun i => ⟨zero_le_one.trans (h.burst i), h.bound i⟩
  obtain ⟨-, -, hsrtf, hrr⟩ :=
    loops_end_iff twoProcesses h.loaded h.arrival hburst 2 (by decide) 0 0
  exact ⟨h, hsrtf.mpr h.burst, hrr.mpr h.burst⟩

/-- One process that has nothing to do. -/
def emptyProcess (_ : Fin 1) : Process := loadedProcess 1 0 0

/-- None of the four tick loops ends. -/
theorem not_loops_end_emptyProcess :
    (Loaded emptyProcess ∧ (∀ i, 0 ≤ (emptyProcess i).arrival) ∧
      ∀ i, 0 ≤ (emptyProcess i).burst ∧ (emptyProcess i).burst < INT_MAX) ∧
    (¬ ∃ s, Returns (fun fuel => fcfsLoop fuel (Sim.start (sortByArrival emptyProcess))) s) ∧
    (¬ ∃ s, Returns (fun fuel => sjfLoop fuel (Sim.start emptyProcess)) s) ∧
    (¬ ∃ s, Returns (fun fuel => srtfLoop fuel ⟨Sim.start emptyProcess, 0⟩) s) ∧
    ¬ ∃ s, Returns (fun fuel => rrUnboundedLoop 1 fuel (Rr.start emptyProcess 0 0)) s := by
  have hload : Loaded emptyProcess := fun _ => ⟨rfl, rfl⟩
  have hzero : (emptyProcess 0).burst ≤ 0 := le_rfl
  refine ⟨⟨hload, fun _ => le_rfl, by decide⟩, ?_, ?_, ?_, ?_⟩
  · rintro ⟨s, hrun⟩
    exact not_fcfsLoop_returns hload hzero s hrun
  · rintro ⟨s, hrun⟩
    exact not_sjfLoop_returns hload hzero s hrun
  · rintro ⟨s, hrun⟩
    exact not_srtfLoop_returns hload hzero s hrun
  · rintro ⟨s, hrun⟩
    exact not_rrUnboundedLoop_returns hload hzero 1 0 0 s hrun

end SchoolOS.CpuScheduler
