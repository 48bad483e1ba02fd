import SchoolOS.CpuScheduler.Schedulers

/-!
# `RR` with a long slice

When no burst time exceeds the time slice, `RR` is `FCFS`. The sort of `FCFS` and the queue of `RR`
put the processes in the same order: by arrival time, and by position in the input among those that
arrive together (`StableLt`). A process in the queue is never overtaken, because a slice does not
run out before the process does.

The two simulations run on differently ordered lists, so they are compared through the order of the
sort (`SameUpTo`).
-/

namespace SchoolOS.CpuScheduler

open Function Loop

variable {n : ℕ} {list : Fin n → Process}

/-! ## Simulations of rearranged lists -/

/-- `t` is the simulation `s` with process `i` under the index `σ i`. -/
structure SameUpTo (σ : Fin n → Fin n) (s t : Sim n) : Prop where
  list : ∀ i, t.list (σ i) = s.list i
  finCnt : t.finCnt = s.finCnt
  time : t.time = s.time
  running : t.running = s.running.map σ
  chart : t.chart = s.chart.map (Option.map σ)

namespace SameUpTo

variable {σ : Fin n → Fin n} {s t : Sim n}

theorem ready_iff (h : SameUpTo σ s t) (i : Fin n) : t.Ready (σ i) ↔ s.Ready i := by
  rw [Sim.Ready, Sim.Ready, h.list i, h.time]

theorem update_list (h : SameUpTo σ s t) (hσ : Injective σ) (i : Fin n) (p : Process) (j : Fin n) :
    update t.list (σ i) p (σ j) = update s.list i p j := by
  by_cases hj : j = i
  · rw [hj, update_self, update_self]
  · rw [update_of_ne hj, update_of_ne (hσ.ne hj), h.list j]

theorem complete (h : SameUpTo σ s t) (hσ : Injective σ) : SameUpTo σ s.complete t.complete := by
  have hrunning := h.running
  unfold Sim.complete
  cases hrun : s.running with
  | none =>
    rw [hrun] at hrunning
    simp only [Option.map_none] at hrunning
    simp only [hrunning]
    exact h
  | some i =>
    rw [hrun] at hrunning
    simp only [Option.map_some] at hrunning
    simp only [hrunning, h.list i]
    split
    · refine ⟨?_, by simp only [h.finCnt], h.time, rfl, h.chart⟩
      intro j
      rw [h.time]
      exact h.update_list hσ i _ j
    · exact h

theorem slot (h : SameUpTo σ s t) (hσ : Injective σ) (o : Option (Fin n)) :
    SameUpTo σ (s.slot o) (t.slot (o.map σ)) := by
  cases o with
  | none =>
    refine ⟨h.list, h.finCnt, by simp [Sim.slot, Sim.idle, h.time], h.running, ?_⟩
    simp only [Option.map_none, Sim.slot, Sim.idle, h.finCnt, h.chart]
    split
    · simp
    · rfl
  | some i =>
    simp only [Option.map_some, Sim.slot, Sim.resume_execute, h.list i, h.time]
    refine ⟨h.update_list hσ i _, h.finCnt, rfl, rfl, ?_⟩
    simp [h.chart]

end SameUpTo

/-- The printed chart does not depend on the order of the list. -/
theorem Result.gantt_eq {r r' : Result n} (σ : Fin n → Fin n)
    (hlist : ∀ i, r'.list (σ i) = r.list i)
    (hchart : r'.chart = r.chart.map (Option.map σ)) : r'.gantt = r.gantt := by
  unfold Result.gantt
  rw [hchart, List.flatMap_map]
  congr 3
  funext slot
  cases slot with
  | none => rfl
  | some i => simp only [Option.map_some, hlist]

/-! ## The queue of `RR` -/

variable {q : ℤ} {total maxSize : ℕ} {t : Rr n}

/-- The processes that arrive go to the end of the queue, in the order of the sort. -/
theorem RrInv.sorted_arrived (h : RrInv list q total t)
    (hsorted : t.waiting.Pairwise (StableLt (arrivals list))) :
    t.arrived.waiting.Pairwise (StableLt (arrivals list)) := by
  have harriving : ∀ i ∈ t.arriving, arrivals list i = t.time := by
    intro i hi
    have htime : (t.time : ℤ) = (t.list i).arrival := by simpa [Rr.arriving] using hi
    rw [arrivals, ← h.inv.arrival i, htime]
  rw [Rr.waiting_arrived h.queue.head_le, List.pairwise_append]
  refine ⟨hsorted, ?_, ?_⟩
  · have hlt : t.arriving.Pairwise (· < ·) := (List.pairwise_lt_finRange n).filter _
    apply hlt.imp_of_mem
    intro i j hi hj hij
    exact Or.inr ⟨(harriving i hi).trans (harriving j hj).symm, hij⟩
  · intro i hi j hj
    have hbefore := ((h.waiting i).mp hi).1.1
    rw [h.inv.arrival i] at hbefore
    exact Or.inl (hbefore.trans_eq (harriving j hj).symm)

/-- The running process has no more time left than its slice. -/
def Rr.SliceCovers (t : Rr n) : Prop := ∀ i, t.running = some i → (t.list i).remain ≤ t.curSlice

/-- A slice does not run out before the process does. -/
theorem Rr.SliceCovers.release (h : t.SliceCovers) (hnonneg : ∀ i, 0 ≤ (t.list i).remain) :
    t.release maxSize = some t.completed := by
  unfold Rr.release Rr.completed
  cases hrun : t.running with
  | none => simp [Sim.complete, hrun]
  | some i =>
    by_cases hzero : (t.list i).remain = 0
    · simp [hzero]
    · have hslice := h i hrun
      have hpos := hnonneg i
      have hne : t.curSlice ≠ 0 := by omega
      simp [Sim.complete, hrun, hzero, hne]

theorem Rr.SliceCovers.completed (h : t.SliceCovers) : t.completed.SliceCovers := by
  unfold Rr.completed
  rcases t.toSim.complete_cases with ⟨heq, -⟩ | ⟨j, -, -, heq⟩
  · rwa [heq]
  · rw [heq]
    intro i hi
    simp at hi

/-- `RR` goes on with the running process, or takes the first one of the queue. -/
theorem Rr.choose_toSim (h : Settled list t.toSim) :
    (t.choose q).toSim = t.toSim.slot (t.running.or t.waiting.head?) := by
  rw [Rr.waiting, List.head?_drop]
  rcases t.choose_cases q with ⟨i, hrun, heq⟩ | ⟨hrun, hhead, heq⟩ | ⟨i, hrun, hhead, heq⟩
  · rw [heq, hrun]
    show t.toSim.execute i = (t.toSim.resume i).execute i
    rw [h.resume_of_running hrun]
  · rw [heq, hrun, hhead]
    rfl
  · rw [heq, hrun, hhead]
    rfl

theorem Rr.choose_waiting_suffix (t : Rr n) : (t.choose q).waiting <:+ t.waiting := by
  rcases t.choose_cases q with ⟨i, -, heq⟩ | ⟨-, -, heq⟩ | ⟨i, -, -, heq⟩
  · rw [heq]
    exact List.suffix_rfl
  · rw [heq]
    exact List.suffix_rfl
  · rw [heq]
    show t.queue.drop (t.head + 1) <:+ t.queue.drop t.head
    rw [← List.drop_drop]
    exact List.drop_suffix _ _

theorem Rr.SliceCovers.choose (h : t.SliceCovers) (hlong : ∀ i, (t.list i).remain ≤ q) :
    (t.choose q).SliceCovers := by
  rcases t.choose_cases q with ⟨i, hrun, heq⟩ | ⟨hrun, -, heq⟩ | ⟨i, -, -, heq⟩
  · rw [heq]
    intro j hj
    obtain rfl : i = j := Option.some.inj (hrun.symm.trans hj)
    have hslice := h i hrun
    simp only [Rr.execute, Sim.execute, update_self]
    omega
  · rw [heq]
    intro j hj
    exact absurd (hrun.symm.trans hj) (by simp)
  · rw [heq]
    intro j hj
    have hj' : (t.toSim.resume i).running = some j := hj
    obtain rfl : i = j := Option.some.inj ((Sim.resume_running _ i).symm.trans hj')
    have hremain := t.toSim.resume_remain i i
    have hle := hlong i
    simp only [Rr.execute, Rr.dispatch, Sim.execute, update_self]
    omega

/-- The parts of a tick of `RR` within a slice. -/
theorem RrInv.tick_eq (h : RrInv list q total t) (hslice : t.SliceCovers)
    (hburst : ∀ i, 1 ≤ (list i).burst) (hq : 1 ≤ q) (hmax : total ≤ maxSize) (hlt : t.finCnt < n) :
    t.tick maxSize q = some (t.arrived.completed.choose q) ∧
      RrInv list q total (t.arrived.completed.choose q) ∧
      ∀ i, i ∈ t.arrived.completed.waiting ↔
        t.arrived.completed.Ready i ∧ t.arrived.completed.running ≠ some i := by
  obtain ⟨hpush, hqueue, hwait⟩ := h.pushArrivals hburst hq hmax hlt
  have hslice' : t.arrived.SliceCovers := hslice
  have hrelease : t.arrived.release maxSize = some t.arrived.completed :=
    hslice'.release (h.inv.remain_nonneg hburst)
  have htick : t.tick maxSize q = some (t.arrived.completed.choose q) := by
    simp [Rr.tick, hpush, hrelease]
  -- `release` and `tick` are functions, so what their specifications say is about these states
  obtain ⟨t₁, hrelease', hreleased⟩ :=
    release_spec (s := t.arrived) h.inv hburst hlt hqueue hq hmax hwait
  obtain rfl : t.arrived.completed = t₁ := Option.some.inj (hrelease.symm.trans hrelease')
  obtain ⟨t₂, htick', hrr, -⟩ := h.tick hburst hq hmax hlt
  obtain rfl : t.arrived.completed.choose q = t₂ := Option.some.inj (htick.symm.trans htick')
  exact ⟨htick, hrr, hreleased.waiting⟩

/-! ## `FCFS` and `RR` in lockstep -/

/-- The first process of the queue is the first one that `FCFS` finds. -/
theorem SameUpTo.head?_waiting {s : Sim n} (h : SameUpTo (arrivalOrder list) s t.toSim)
    (hsorted : t.waiting.Pairwise (StableLt (arrivals list)))
    (hmem : ∀ i, i ∈ t.waiting ↔ t.Ready i ∧ t.running ≠ some i) (hrun : s.running = none) :
    t.waiting.head? = s.firstReady.map (arrivalOrder list) := by
  have hbij : Bijective (arrivalOrder list) := sortOrder_bijective Process.arrival list
  have hmem' : ∀ i, arrivalOrder list i ∈ t.waiting ↔ s.Ready i := by
    intro i
    rw [hmem, h.ready_iff, h.running, hrun]
    simp
  cases hfirst : s.firstReady with
  | none =>
    suffices hnil : t.waiting = [] by rw [hnil]; rfl
    apply List.eq_nil_iff_forall_not_mem.mpr
    intro k hk
    obtain ⟨i, rfl⟩ := hbij.surjective k
    exact Sim.firstReady_eq_none hfirst i ((hmem' i).mp hk)
  | some i =>
    have hi := (hmem' i).mpr (Sim.firstReady_eq_some hfirst)
    cases hwait : t.waiting with
    | nil => simp [hwait] at hi
    | cons k rest =>
      obtain ⟨j, rfl⟩ := hbij.surjective k
      have hj : s.Ready j := (hmem' j).mp (by simp [hwait])
      -- the process `j` at the head of the queue cannot come after `i`
      rcases (Sim.firstReady_le hfirst hj).eq_or_lt with hij | hij
      · simp [hij]
      · have hne : arrivalOrder list i ≠ arrivalOrder list j := hbij.injective.ne hij.ne
        have hstable : StableLt (arrivals list) (arrivalOrder list i) (arrivalOrder list j) :=
          sortOrder_stable Process.arrival list hij
        rw [hwait] at hi hsorted
        have hrest : arrivalOrder list i ∈ rest := (List.mem_cons.mp hi).resolve_left hne
        exact absurd (List.rel_of_pairwise_cons hsorted hrest) hstable.asymm

/-- The state `s` of `FCFS` and the state `t` of `RR`, at the beginning of a tick. -/
structure InStep (list : Fin n → Process) (q : ℤ) (s : Sim n) (t : Rr n) : Prop where
  same : SameUpTo (arrivalOrder list) s t.toSim
  inv : Inv (sortByArrival list) s
  piece : OnePiece s
  rr : RrInv list q (totalSlices q list) t
  sorted : t.waiting.Pairwise (StableLt (arrivals list))
  slice : t.SliceCovers

/-- A tick of both loops: `RR` gives the slot to the same process as `FCFS`. -/
theorem InStep.tick {s : Sim n} (h : InStep list q s t) (hburst : ∀ i, 1 ≤ (list i).burst)
    (hlong : ∀ i, (list i).burst ≤ q) (hq : 1 ≤ q) (hmax : totalSlices q list ≤ maxSize)
    (hlt : s.finCnt < n) :
    ∃ t', t.tick maxSize q = some t' ∧ InStep list q (fcfsTick s) t' := by
  have hσ : Injective (arrivalOrder list) := (sortOrder_bijective Process.arrival list).injective
  have hlt' : t.finCnt < n := by rwa [h.same.finCnt]
  have hset := h.inv.complete hlt
  have hset' := h.rr.inv.complete hlt'
  have hsame := h.same.complete hσ
  obtain ⟨htick, hrr, hwait⟩ := h.rr.tick_eq h.slice hburst hq hmax hlt'
  have hsorted : t.arrived.completed.waiting.Pairwise (StableLt (arrivals list)) :=
    h.rr.sorted_arrived h.sorted
  have hslice : t.arrived.completed.SliceCovers := Rr.SliceCovers.completed (t := t.arrived) h.slice
  have hfcfs : fcfsTick s = s.complete.slot (s.complete.running.or s.complete.firstReady) :=
    nonPreemptiveTick_eq hset h.piece.complete fun i hi => Sim.firstReady_eq_some hi
  have hchoice : t.arrived.completed.running.or t.arrived.completed.waiting.head? =
      (s.complete.running.or s.complete.firstReady).map (arrivalOrder list) := by
    have hrunning : t.arrived.completed.running = s.complete.running.map (arrivalOrder list) :=
      hsame.running
    rw [hrunning, Option.map_or]
    cases hrun : s.complete.running with
    | some i => rfl
    | none => rw [SameUpTo.head?_waiting (t := t.arrived.completed) hsame hsorted hwait hrun]
  obtain ⟨hstep, hpiece⟩ := nonPreemptiveTick_step selects_firstReady h.inv h.piece hlt
  have hinv := (h.inv.step (one_le_burst_sortByArrival hburst) hlt hstep).1
  refine ⟨_, htick, ?_, hinv, hpiece, hrr, ?_, ?_⟩
  · rw [hfcfs, Rr.choose_toSim hset', hchoice]
    exact hsame.slot hσ _
  · exact hsorted.sublist (Rr.choose_waiting_suffix _).sublist
  · exact hslice.choose fun i => (hset'.remain_le i).trans (hlong i)

theorem inStep_start (hload : Loaded list) (harrival : ∀ i, 0 ≤ (list i).arrival)
    (hburst : ∀ i, 1 ≤ (list i).burst) (prevRun curSlice : ℤ) :
    InStep list q (Sim.start (sortByArrival list))
      ⟨Sim.start list, 0, [], 0, prevRun, curSlice⟩ where
  same := ⟨fun i => by simp [Sim.start, sortByArrival_eq], rfl, rfl, rfl, rfl⟩
  inv := inv_start hload.sortByArrival (one_le_burst_sortByArrival hburst)
  piece := onePiece_start hload.sortByArrival
  rr := rrInv_start hload hburst harrival prevRun curSlice
  sorted := by simp [Rr.waiting]
  slice i hi := by simp [Sim.start] at hi

/-- Every process needs one slice. -/
theorem totalSlices_eq (hburst : ∀ i, 1 ≤ (list i).burst) (hlong : ∀ i, (list i).burst ≤ q)
    (hq : 1 ≤ q) : totalSlices q list = n := by
  have hone : ∀ i, slices q (list i).burst = 1 := by
    intro i
    have := hlong i
    rw [slices_eq_succ hq (hburst i), slices_eq_zero hq (by omega)]
  simp [totalSlices, hone]

/-- `RR` with a slice that no burst time exceeds computes the same times and prints the same chart
as `FCFS`. Process `arrivalOrder list i` of the input is the one that `FCFS` leaves at position
`i`. -/
theorem rr_eq_fcfs_of_long_slice (list : Fin n → Process) (hload : Loaded list)
    (harrival : ∀ i, 0 ≤ (list i).arrival) (hburst : ∀ i, 1 ≤ (list i).burst) (hn : n ≤ MAX_SIZE)
    (q : ℤ) (hlong : ∀ i, (list i).burst ≤ q) (prevRun curSlice : ℤ) :
    Bijective (arrivalOrder list) ∧ sortByArrival list = list ∘ arrivalOrder list ∧
      ∃ r r', Returns (fcfs list) r ∧ Returns (rr MAX_SIZE prevRun curSlice q list) r' ∧
        (∀ i, r'.list (arrivalOrder list i) = r.list i) ∧ r'.gantt = r.gantt := by
  refine ⟨sortOrder_bijective Process.arrival list, sortByArrival_eq list, ?_⟩
  rcases n.eq_zero_or_pos with rfl | hpos
  · -- without processes nothing is known about the slice
    exact ⟨_, _, (returns_of_not rfl).map _, (returns_of_not rfl).map _, fun i => i.elim0, rfl⟩
  have hq : 1 ≤ q := (hburst ⟨0, hpos⟩).trans (hlong ⟨0, hpos⟩)
  have hmax : totalSlices q list ≤ MAX_SIZE := (totalSlices_eq hburst hlong hq).trans_le hn
  obtain ⟨s, hfcfs, hinv, hpiece, hdone⟩ := nonPreemptive_returns selects_firstReady
    hload.sortByArrival (one_le_burst_sortByArrival hburst)
  obtain ⟨t, hrr, -⟩ := rr_returns hload hburst harrival hq hmax prevRun curSlice
  have hstep : InStep list q s t := by
    apply rel_of_returns (InStep list q) _ _ (inStep_start hload harrival hburst prevRun curSlice)
      hfcfs hrr
    · intro s t hst
      simp [Sim.active, hst.same.finCnt]
    · intro s t hst hactive
      have hlt : s.finCnt < n := by simpa [Sim.active] using hactive
      obtain ⟨t', htick, hst'⟩ := hst.tick hburst hlong hq hmax hlt
      exact ⟨_, t', rfl, htick, hst'⟩
  have htimes :
      ∀ i, (t.list (arrivalOrder list i)).timesFromFinish = (s.list i).timesFromStart := by
    intro i
    rw [hstep.same.list i, hpiece.timesFromFinish_eq (hinv.ended hdone i)]
  exact ⟨_, _, hfcfs.map _, hrr.map _, htimes, Result.gantt_eq _ htimes hstep.same.chart⟩

theorem rr_eq_fcfs_of_long_slice_twoProcesses :
    2 ≤ MAX_SIZE ∧ (∀ i, (twoProcesses i).burst ≤ 3) ∧
      ∃ r r', Returns (fcfs twoProcesses) r ∧ Returns (rr MAX_SIZE 0 0 3 twoProcesses) r' ∧
        ∀ i, r'.list (arrivalOrder twoProcesses i) = r.list i := by
  have hn : 2 ≤ MAX_SIZE := by decide
  have hlong : ∀ i, (twoProcesses i).burst ≤ 3 := by decide
  obtain ⟨-, -, r, r', hrun, hrun', hlist, -⟩ := rr_eq_fcfs_of_long_slice twoProcesses
    input_twoProcesses.loaded input_twoProcesses.arrival input_twoProcesses.burst hn 3 hlong 0 0
  exact ⟨hn, hlong, r, r', hrun, hrun', hlist⟩

end SchoolOS.CpuScheduler
