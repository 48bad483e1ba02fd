import SchoolOS.CpuScheduler.NonPreemptive
import SchoolOS.Lib.Srpt

/-!
# `SRTF`

Every tick of `SRTF` is a `Step`, and it gives the slot to a process with the least time left, so
the chart is that of a shortest-first schedule.
-/

namespace SchoolOS.CpuScheduler

open Function Loop

variable {n : ℕ} {L : Fin n → Process}

/-- No process has more time left than its burst time. -/
theorem Inv.remain_le {s : Sim n} (h : Inv L s) (i : Fin n) : (s.list i).remain ≤ (L i).burst := by
  have := h.remain i
  omega

/-- What a tick of `SRTF` can do: leave the slot empty, or give it to the process that the selection
loop finds. -/
theorem srtfTick_cases {s : Srtf n} (h : Settled L s.toSim.complete)
    (hmax : ∀ i, (L i).burst < INT_MAX) :
    ((∀ i, ¬ s.toSim.complete.Ready i) ∧ srtfTick s = ⟨s.toSim.complete.idle, s.contextSwitch⟩) ∨
    ∃ j, s.toSim.complete.Ready j ∧
      (∀ k, s.toSim.complete.Ready k → s.toSim.complete.Precedes Process.remain j k) ∧
      srtfTick s = ⟨(s.toSim.complete.resume j).execute j,
        if s.toSim.complete.running ≠ some j then s.contextSwitch + 1 else s.contextSwitch⟩ := by
  cases hscan : s.toSim.complete.scanMin Process.remain with
  | none =>
    refine Or.inl ⟨fun i hi => ?_, by simp only [srtfTick, hscan]⟩
    have hge := Sim.scanMin_eq_none hscan hi
    have hle := h.remain_le i
    exact absurd (hmax i) (by omega)
  | some j =>
    obtain ⟨hready, hprec⟩ := Sim.scanMin_eq_some hscan
    exact Or.inr ⟨j, hready, hprec, by simp only [srtfTick, hscan]⟩

theorem srtfTick_step {s : Srtf n} (h : Inv L s.toSim) (hmax : ∀ i, (L i).burst < INT_MAX)
    (hlt : s.finCnt < n) : Step s.toSim (srtfTick s).toSim := by
  rcases srtfTick_cases (h.complete hlt) hmax with ⟨hnone, htick⟩ | ⟨j, hready, -, htick⟩
  · rw [htick]
    exact .idle hnone
  · rw [htick]
    exact .run hready

/-- A tick of `SRTF` gives the slot to a process with the least time left. -/
theorem srtfTick_shortest {s : Srtf n} (h : Inv L s.toSim) (hburst : ∀ i, 1 ≤ (L i).burst)
    (hmax : ∀ i, (L i).burst < INT_MAX) (hlt : s.finCnt < n)
    (hshort : ShortestChart (arrivals L) (bursts L) s.chart) :
    ShortestChart (arrivals L) (bursts L) (srtfTick s).chart := by
  have hset := h.complete hlt
  have hchart := s.toSim.complete_chart
  rw [← hchart] at hshort
  rcases srtfTick_cases hset hmax with ⟨-, htick⟩ | ⟨i, hready, hmin, htick⟩
  · rw [htick]
    unfold Sim.idle
    split
    · exact hshort.concat (by simp)
    · exact hshort
  · have hlt' := hset.finCnt_lt_iff.mpr ⟨i, hready.2⟩
    rw [htick, Sim.resume_execute]
    apply hshort.concat
    rintro _ ⟨⟩ j hj
    have hprec := hmin j ((hset.ready_iff hburst hlt' j).mpr hj)
    have hi := hset.remain i
    have hj' := hset.remain j
    unfold Sim.Precedes at hprec
    unfold bursts
    omega

/-- The tick loop of `SRTF` ends, with the chart of a shortest-first schedule. -/
theorem srtf_returns (hload : Loaded L) (hburst : ∀ i, 1 ≤ (L i).burst)
    (hmax : ∀ i, (L i).burst < INT_MAX) :
    ∃ s, Returns (fun fuel => srtfLoop fuel ⟨Sim.start L, 0⟩) s ∧ Inv L s.toSim ∧
      ShortestChart (arrivals L) (bursts L) s.chart ∧ ¬ s.finCnt < n := by
  obtain ⟨s, hrun, ⟨hinv, hshort⟩, hdone⟩ := returns_whileLoop (fun s : Srtf n => s.active)
    (fun s => some (srtfTick s))
    (fun s => Inv L s.toSim ∧ ShortestChart (arrivals L) (bursts L) s.chart)
    (fun s => measure L s.toSim) (by
      rintro s ⟨hinv, hshort⟩ hactive
      have hlt : s.finCnt < n := by simpa [Sim.active] using hactive
      obtain ⟨hinv', hmeasure⟩ := hinv.step hburst hlt (srtfTick_step hinv hmax hlt)
      exact ⟨_, rfl, ⟨hinv', srtfTick_shortest hinv hburst hmax hlt hshort⟩, hmeasure⟩)
    ⟨Sim.start L, 0⟩ ⟨inv_start hload hburst, fun t i ht => by simp [Sim.start] at ht⟩
  exact ⟨s, hrun, hinv, hshort, by simpa [Sim.active] using hdone⟩

end SchoolOS.CpuScheduler
