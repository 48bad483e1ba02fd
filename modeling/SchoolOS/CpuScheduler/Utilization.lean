import Mathlib.Data.Finset.Option
import Mathlib.Data.List.ReduceOption
import SchoolOS.CpuScheduler.Leftover
import SchoolOS.CpuScheduler.Switches

/-!
# The CPU utilization that `main` prints

`main` divides the sum of the burst times by `total = max_finish + 0.1*context_switch`. The sum and
`max_finish` are the same for the four schedulers, so the utilization depends on the context
switches only. A schedule changes at least once to each process, and `FCFS` and `SJF` change exactly
once to each: they have the best utilization (`total_least`).
-/

namespace SchoolOS.CpuScheduler

open Function Loop

variable {n : ℕ}

/-- Ten times the `total` of `main`. -/
def tenTotal (r : Result n) : ℤ := 10 * maxFinish r.list + r.ret

/-- A chart changes at least once to each of its processes, except the one that has run before. -/
theorem card_le_switches {ι : Type} [DecidableEq ι] (prev : Option ι) (chart : List (Option ι)) :
    (prev.toFinset ∪ chart.reduceOption.toFinset).card ≤ switches prev chart +
      prev.toFinset.card := by
  suffices hboth : (prev.toFinset ∪ chart.reduceOption.toFinset).card ≤
      switches prev chart + prev.toFinset.card ∧
      ∀ i, lastRun prev chart = some i →
        i ∈ prev.toFinset ∪ chart.reduceOption.toFinset from hboth.1
  induction chart using List.reverseRecOn with
  | nil =>
    refine ⟨by simp [switches], fun i hi => ?_⟩
    rw [lastRun, List.foldl_nil] at hi
    simp [hi]
  | append_singleton chart slot ih =>
    cases slot with
    | none =>
      rw [switches_idle, lastRun_idle, List.reduceOption_append]
      simpa using ih
    | some j =>
      have hset : prev.toFinset ∪ (chart ++ [some j]).reduceOption.toFinset =
          insert j (prev.toFinset ∪ chart.reduceOption.toFinset) := by
        rw [List.reduceOption_append]
        ext x
        simp only [List.reduceOption_singleton, Option.toList_some, List.toFinset_append,
          List.toFinset_cons, List.toFinset_nil, Finset.mem_union, Finset.mem_insert,
          Finset.notMem_empty, or_false]
        tauto
      rw [hset, switches_run, lastRun_run]
      refine ⟨?_, fun i hi => ?_⟩
      · by_cases hlast : lastRun prev chart = some j
        · rw [if_pos hlast, Finset.insert_eq_of_mem (ih.2 j hlast)]
          exact ih.1
        · have hcard := Finset.card_insert_le j (prev.toFinset ∪ chart.reduceOption.toFinset)
          rw [if_neg hlast]
          omega
      · obtain rfl := Option.some.inj hi
        exact Finset.mem_insert_self _ _

/-- A schedule of all processes changes to each of them. -/
theorem ValidSchedule.le_switches {list : Fin n → Process} {chart : List (Option (Fin n))}
    (h : ValidSchedule list chart) (prev : Option (Fin n)) :
    n ≤ switches prev chart + prev.toFinset.card := by
  have hall : (Finset.univ : Finset (Fin n)) ⊆ prev.toFinset ∪ chart.reduceOption.toFinset := by
    intro i _
    obtain ⟨t, -, hfirst⟩ := h.first i
    have hmem : some i ∈ chart := List.mem_of_getElem? hfirst.at_self
    exact Finset.mem_union_right _ (List.mem_toFinset.mpr (List.reduceOption_mem_iff.mpr hmem))
  have hcard := (Finset.card_le_card hall).trans (card_le_switches prev chart)
  rwa [Finset.card_univ, Fintype.card_fin] at hcard

/-! ## The switches of `RR` -/

theorem Rr.released_head (s : Rr n) : s.released.head = s.head := by
  unfold Rr.released
  split
  · rfl
  · split
    · rfl
    · split
      · rfl
      · rfl

/-- A switch happens only when a process is popped from the queue. -/
theorem rrLoop_contextSwitch_le {list : Fin n → Process} {maxSize fuel : ℕ} {prevRun curSlice q : ℤ}
    {s : Rr n} (h : rrLoop maxSize q fuel (Rr.start list prevRun curSlice) = some s) :
    s.contextSwitch ≤ s.head := by
  have hloop := whileLoop_invariant
    (fun s : Rr n => s.contextSwitch ≤ s.head ∧ s.queue.length ≤ maxSize) (by
      rintro s s' ⟨hle, hlength⟩ - hbody
      rw [Rr.tick_eq hlength] at hbody
      split at hbody
      · rename_i hlength'
        obtain rfl := Option.some.inj hbody
        refine ⟨?_, hlength'⟩
        have hhead : s.arrived.released.head = s.head := s.arrived.released_head
        have hcount : s.arrived.released.contextSwitch = s.contextSwitch :=
          (Rr.released_counts s.arrived).2
        unfold Rr.next
        rcases s.arrived.released.choose_cases q with ⟨i, -, heq⟩ | ⟨-, -, heq⟩ | ⟨i, -, -, heq⟩
        · rw [heq]
          show s.arrived.released.contextSwitch ≤ s.arrived.released.head
          omega
        · rw [heq]
          show s.arrived.released.contextSwitch ≤ s.arrived.released.head
          omega
        · rw [heq]
          show (if s.arrived.released.prevRun ≠ (i : ℕ) then s.arrived.released.contextSwitch + 1
            else s.arrived.released.contextSwitch) ≤ s.arrived.released.head + 1
          split
          · omega
          · omega
      · simp at hbody)
    ⟨le_rfl, Nat.zero_le _⟩ h
  exact hloop.1.1

/-- `RR` counts a switch for each process, except for a first process that is the value of
`prev_run`, and at most one for each slice. -/
theorem rr_ret_bounds {list : Fin n → Process} (h : Input list) {maxSize : ℕ} {q : ℤ} (hq : 1 ≤ q)
    (hmax : totalSlices q list ≤ maxSize) (prevRun curSlice : ℤ) :
    ∃ r, Returns (rr maxSize prevRun curSlice q list) r ∧ Valid r ∧
      (∃ S : UnitSchedule (arrivals list) (bursts list), Realizes S r) ∧
      n ≤ r.ret + (processAt n prevRun).toFinset.card ∧ r.ret ≤ totalSlices q list := by
  obtain ⟨s, hrun, hrr, hdone⟩ := rr_returns h.loaded h.burst h.arrival hq hmax prevRun curSlice
  have hinv := hrr.inv
  obtain ⟨N, hN⟩ := id hrun
  have hswitches := rrLoop_switches (hN N le_rfl)
  have hpops := rrLoop_contextSwitch_le (hN N le_rfl)
  have hlength := hrr.length_eq hq hdone
  have hhead := hrr.queue.head_le
  have hvalid := hinv.validSchedule hdone h.burst
  have hall := hvalid.le_switches (processAt n prevRun)
  refine ⟨_, hrun.map _, hvalid.valid_timesFromFinish _,
    ⟨_, hinv.realizes hdone rfl fun _ => rfl⟩, ?_, ?_⟩
  · rw [← hswitches] at hall
    simp only
    exact_mod_cast hall
  · simp only
    exact_mod_cast (hpops.trans hhead).trans hlength.le

/-! ## The best utilization -/

/-- `total`, the denominator of the CPU utilization, is the same for `FCFS` and `SJF` and at least
as large for `SRTF` and `RR`, where `RR` misses a switch if the first process to run happens to be
the value of `prev_run`. `RR` counts at most one switch for each slice. -/
theorem total_least (list : Fin n → Process) (h : Input list) :
    ∃ f s t, Returns (fcfs list) f ∧ Returns (sjf list) s ∧ Returns (srtf list) t ∧
      tenTotal s = tenTotal f ∧ tenTotal f ≤ tenTotal t ∧
      ∀ (maxSize : ℕ) (prevRun curSlice q : ℤ), 1 ≤ q → totalSlices q list ≤ maxSize →
        ∃ r, Returns (rr maxSize prevRun curSlice q list) r ∧
          tenTotal f ≤ tenTotal r + (if 0 ≤ prevRun ∧ prevRun < n then 1 else 0) ∧
          tenTotal r ≤ tenTotal f + (totalSlices q list - n) := by
  obtain ⟨f, hf, -, hfvalid, F, hF⟩ := fcfs_spec h.loaded h.burst
  obtain ⟨s, hs, -, hsvalid, S, hS⟩ := sjf_spec h
  obtain ⟨t, ht, -, htvalid, T, hT, -⟩ := srtf_spec h
  have hfinish : ∀ {r : Result n} {R : UnitSchedule (arrivals list) (bursts list)}, Valid r →
      Realizes R r → maxFinish r.list = maxFinish f.list := by
    intro r R hvalid hR
    rw [← hvalid.length, ← hfvalid.length, (hR.busyTime_eq hF).2]
  -- `FCFS` and `SJF` return the number of processes
  have hfret : f.ret = n := by
    obtain ⟨N, hN⟩ := hf
    obtain ⟨-, -, rfl⟩ := Option.map_eq_some_iff.mp (hN N le_rfl)
    rfl
  have hsret : s.ret = n := by
    obtain ⟨N, hN⟩ := hs
    obtain ⟨-, -, rfl⟩ := Option.map_eq_some_iff.mp (hN N le_rfl)
    rfl
  -- every process is somewhere in the chart of `SRTF`
  have htret : (n : ℤ) ≤ t.ret := by
    obtain ⟨N, hN⟩ := id ht
    obtain ⟨u, hu, rfl⟩ := Option.map_eq_some_iff.mp (hN N le_rfl)
    have hall := htvalid.le_switches none
    rw [Option.toFinset_none, Finset.card_empty, Nat.add_zero] at hall
    rw [← srtfLoop_switches hu] at hall
    simp only
    exact_mod_cast hall
  refine ⟨f, s, t, hf, hs, ht, ?_, ?_, ?_⟩
  · rw [tenTotal, tenTotal, hfinish hsvalid hS, hsret, hfret]
  · rw [tenTotal, tenTotal, hfinish htvalid hT, hfret]
    omega
  · intro maxSize prevRun curSlice q hq hmax
    obtain ⟨r, hr, hrvalid, ⟨R, hR⟩, hlow, hhigh⟩ := rr_ret_bounds h hq hmax prevRun curSlice
    refine ⟨r, hr, ?_, ?_⟩
    · -- only the process `prev_run` can come first without a switch
      rw [tenTotal, tenTotal, hfinish hrvalid hR, hfret]
      have hcard : (processAt n prevRun).toFinset.card =
          if 0 ≤ prevRun ∧ prevRun < n then 1 else 0 := by
        unfold processAt
        split
        · simp
        · simp
      rw [hcard] at hlow
      push_cast at hlow
      omega
    · rw [tenTotal, tenTotal, hfinish hrvalid hR, hfret]
      omega

theorem total_least_twoProcesses :
    Input twoProcesses ∧ ∃ f t, Returns (fcfs twoProcesses) f ∧ Returns (srtf twoProcesses) t ∧
      tenTotal f ≤ tenTotal t := by
  obtain ⟨f, -, t, hf, -, ht, -, hle, -⟩ := total_least twoProcesses input_twoProcesses
  exact ⟨input_twoProcesses, f, t, hf, ht, hle⟩

end SchoolOS.CpuScheduler
