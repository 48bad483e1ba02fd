import SchoolOS.CpuScheduler.Schedulers
import SchoolOS.Lib.EventSchedule

/-!
# The tick loops of `FCFS` and `SJF` and the jumps in time

The tick loops of `FCFS` and `SJF` simulate the event-driven algorithm of `Lib.EventSchedule`: a
tick that starts a process is one event, and all other ticks stutter (`Follows.tick`). While a
process runs, the event-driven state is already at the end of it; while the processor is idle, it is
still at the end of the process before.

For `SJF` this is the algorithm that picks the shortest process (`sjf_eq_eventSchedule`). For
`FCFS`, whose list is sorted by arrival time, the events are the processes in the order of the list,
so its start and finish times satisfy the first-come-first-served recurrence (`fcfs_recurrence`).
-/

namespace SchoolOS.CpuScheduler

open Function Loop

variable {n : ℕ} {L : Fin n → Process} {s : Sim n} {e : EventState n}
  {select : Sim n → Option (Fin n)} {pick : Finset (Fin n) → Option (Fin n)}

/-- The processes that the selection loops consider. -/
def Sim.readySet (s : Sim n) : Finset (Fin n) := Finset.univ.filter fun i => s.Ready i

theorem Sim.mem_readySet {i : Fin n} : i ∈ s.readySet ↔ s.Ready i := by
  simp [Sim.readySet]

/-- The selection depends only on which processes are ready. -/
def Picks (L : Fin n → Process) (select : Sim n → Option (Fin n))
    (pick : Finset (Fin n) → Option (Fin n)) : Prop :=
  ∀ s, Settled L s → select s = pick s.readySet

/-- The tick loop in state `s` has started the processes that the event-driven algorithm has run in
state `e`. -/
structure Follows (L : Fin n → Process) (s : Sim n) (e : EventState n) : Prop where
  inv : Inv L s
  piece : OnePiece s
  unfinished : ∀ i, i ∈ e.unfinished ↔ (s.list i).ended = 0 ∧ s.running ≠ some i
  start : ∀ i, i ∉ e.unfinished → e.start i = (s.list i).start
  finish : ∀ i, i ∉ e.unfinished → e.finish i = (s.list i).start + (L i).burst
  busy : ∀ i, s.running = some i → e.time = s.time + (s.list i).remain
  free : s.running = none → e.time ≤ s.time ∧
    ((s.time : ℤ) ≤ e.time ∨ ∀ i ∈ e.unfinished, (s.time : ℤ) ≤ (L i).arrival)

namespace Follows

/-- The end of a process is an event that has already been counted. -/
theorem complete (h : Follows L s e) (hlt : s.finCnt < n) : Follows L s.complete e := by
  have hset := h.inv.complete hlt
  rcases s.complete_cases with ⟨heq, -⟩ | ⟨i, hrun, hzero, heq⟩
  · rwa [heq]
  · have hpiece := h.piece.complete
    have htime := h.busy i hrun
    have hstart := field_update Process.start s.list i ((s.list i).exit s.time) rfl
    rw [heq] at hset hpiece ⊢
    refine ⟨hset.toInv, hpiece, ?_, ?_, ?_, by simp, ?_⟩
    · intro j
      by_cases hji : j = i
      · subst hji
        simp [h.unfinished, hrun]
      · simp [h.unfinished, hrun, hji, Ne.symm hji]
    · intro j hj
      rw [h.start j hj, ← hstart j]
    · intro j hj
      rw [h.finish j hj, ← hstart j]
    · intro _
      simp only
      omega

/-- A slot of the running process. -/
theorem execute (h : Follows L s e) (hset : Settled L s) (hburst : ∀ i, 1 ≤ (L i).burst) {i : Fin n}
    (hrun : s.running = some i) : Follows L (s.slot (some i)) e := by
  have hready := hset.ready_of_running hrun
  have hinv := hset.run hburst hready
  have hpiece := h.piece.run hready (Or.inl hrun) hset
  have hne := hset.remain_lt_of_running hrun
  have htime := h.busy i hrun
  simp only [Sim.slot]
  rw [Sim.resume_execute] at hinv hpiece ⊢
  have hstart := field_update Process.start s.list i ((s.list i).afterSlot s.time)
    (by simp only [Process.afterSlot, if_neg hne.ne'])
  refine ⟨hinv, hpiece, ?_, ?_, ?_, ?_, by simp⟩
  · intro j
    rw [h.unfinished j, hrun]
    simp only [field_update Process.ended s.list i ((s.list i).afterSlot s.time) rfl]
  · intro j hj
    rw [h.start j hj, ← hstart j]
  · intro j hj
    rw [h.finish j hj, ← hstart j]
  · rintro j ⟨⟩
    simp only [update_self, Process.afterSlot]
    push_cast
    omega

/-- A slot without a process that is ready. -/
theorem idle (h : Follows L s e) (hset : Settled L s) (hburst : ∀ i, 1 ≤ (L i).burst)
    (hnone : ∀ i, ¬ s.Ready i) : Follows L s.idle e := by
  have hrun := hset.running_eq_none hnone
  obtain ⟨hle, -⟩ := h.free hrun
  refine ⟨hset.idle hburst hnone, h.piece.idle hrun, h.unfinished, h.start, h.finish, ?_, ?_⟩
  · intro i hi
    exact absurd (hrun.symm.trans hi) (by simp)
  · intro _
    have htime : (s.idle.time : ℤ) = s.time + 1 := by simp [Sim.idle]
    rw [htime]
    refine ⟨by omega, Or.inr fun i hi => ?_⟩
    have hended := ((h.unfinished i).mp hi).1
    by_contra hlate
    refine hnone i ⟨?_, hended⟩
    rw [hset.arrival i]
    omega

/-- When a process is ready, the event-driven algorithm starts its next one now. -/
theorem wake_eq (h : Follows L s e) (hset : Settled L s) (hrun : s.running = none) {i : Fin n}
    (hready : s.Ready i) : e.wake (arrivals L) = s.time := by
  obtain ⟨hle, hlate⟩ := h.free hrun
  have hi : i ∈ e.unfinished := (h.unfinished i).mpr ⟨hready.2, by simp [hrun]⟩
  have harrival : arrivals L i ≤ s.time := by
    rw [arrivals, ← hset.arrival i]
    exact hready.1
  by_cases hnow : (s.time : ℤ) ≤ e.time
  · have htime : e.time = s.time := le_antisymm hle hnow
    rw [EventState.wake_of_le hi (htime ▸ harrival), htime]
  · -- nothing had arrived at the last event, and this is the next arrival
    have hwait : ∀ j ∈ e.unfinished, (s.time : ℤ) ≤ arrivals L j := hlate.resolve_left hnow
    rw [EventState.wake_of_lt hi (fun j hj => (not_le.mp hnow).trans_le (hwait j hj))
      (fun j hj => harrival.trans (hwait j hj))]
    exact le_antisymm harrival (hwait i hi)

/-- The processes that have arrived are the ready ones. -/
theorem arrived_eq (h : Follows L s e) (hset : Settled L s) (hrun : s.running = none) :
    e.arrived (arrivals L) s.time = s.readySet := by
  ext i
  rw [EventState.mem_arrived, Sim.mem_readySet, h.unfinished i, Sim.Ready, hset.arrival i, arrivals,
    hrun]
  simp [and_comm]

/-- A process that starts is one event. -/
theorem dispatch (h : Follows L s e) (hset : Settled L s) (hburst : ∀ i, 1 ≤ (L i).burst)
    (hrun : s.running = none) {i : Fin n} (hready : s.Ready i) (hpick : pick s.readySet = some i) :
    ∃ e', e.step (arrivals L) (bursts L) pick = some e' ∧ Follows L (s.slot (some i)) e' := by
  have hwake := h.wake_eq hset hrun hready
  have hi : i ∈ e.unfinished := (h.unfinished i).mpr ⟨hready.2, by simp [hrun]⟩
  have hfull := h.piece.untouched i hready.2 (by simp [hrun])
  have hinv := hset.run hburst hready
  have hpiece := h.piece.run hready (Or.inr hrun) hset
  refine ⟨_, by rw [EventState.step, hwake, h.arrived_eq hset hrun, hpick]; rfl, ?_⟩
  simp only [Sim.slot]
  rw [Sim.resume_execute] at hinv hpiece ⊢
  refine ⟨hinv, hpiece, ?_, ?_, ?_, ?_, by simp⟩
  · intro j
    rw [Finset.mem_erase, h.unfinished j, hrun]
    simp only [field_update Process.ended s.list i ((s.list i).afterSlot s.time) rfl]
    by_cases hji : j = i
    · simp [hji]
    · simp [hji, Ne.symm hji]
  · intro j hj
    by_cases hji : j = i
    · subst hji
      simp [Process.afterSlot, hfull]
    · simp only [update_of_ne hji]
      exact h.start j fun hmem => hj (Finset.mem_erase.mpr ⟨hji, hmem⟩)
  · intro j hj
    by_cases hji : j = i
    · subst hji
      simp [Process.afterSlot, hfull, bursts]
    · simp only [update_of_ne hji]
      exact h.finish j fun hmem => hj (Finset.mem_erase.mpr ⟨hji, hmem⟩)
  · rintro j ⟨⟩
    have hb := hset.burst i
    simp only [update_self, Process.afterSlot, bursts]
    push_cast
    omega

/-- Every tick is one event, or none. -/
theorem tick (h : Follows L s e) (hselect : Selects L select) (hpicks : Picks L select pick)
    (hburst : ∀ i, 1 ≤ (L i).burst) (hlt : s.finCnt < n) :
    Follows L (s.nonPreemptiveTick select) e ∨
      ∃ e', e.unfinished.Nonempty ∧ e.step (arrivals L) (bursts L) pick = some e' ∧
        Follows L (s.nonPreemptiveTick select) e' := by
  have hset := h.inv.complete hlt
  have hcomplete := h.complete hlt
  obtain ⟨hsome, hnone⟩ := hselect s.complete hset
  rw [nonPreemptiveTick_eq hset hcomplete.piece hsome]
  cases hrun : s.complete.running with
  | some i => exact Or.inl (hcomplete.execute hset hburst hrun)
  | none =>
    cases hsel : select s.complete with
    | none => exact Or.inl (hcomplete.idle hset hburst (hnone hsel))
    | some i =>
      have hready := hsome i hsel
      obtain ⟨e', hstep, hfollows⟩ := hcomplete.dispatch hset hburst hrun hready
        ((hpicks s.complete hset).symm.trans hsel)
      exact Or.inr ⟨e', ⟨i, (hcomplete.unfinished i).mpr ⟨hready.2, by simp [hrun]⟩⟩, hstep,
        hfollows⟩

end Follows

theorem follows_start (hload : Loaded L) (hburst : ∀ i, 1 ≤ (L i).burst) :
    Follows L (Sim.start L) (EventState.initial n) where
  inv := inv_start hload hburst
  piece := onePiece_start hload
  unfinished i := by simp [EventState.initial, Sim.start, (hload i).2]
  start i hi := absurd (Finset.mem_univ i) hi
  finish i hi := absurd (Finset.mem_univ i) hi
  busy i hi := by simp [Sim.start] at hi
  free _ := ⟨le_rfl, Or.inl le_rfl⟩

/-- A tick loop without preemption computes the start and finish times of the event-driven
algorithm. -/
theorem nonPreemptive_eq_eventSchedule (hselect : Selects L select) (hpicks : Picks L select pick)
    (hload : Loaded L) (hburst : ∀ i, 1 ≤ (L i).burst) :
    ∃ s e,
      Returns (fun fuel => whileLoop Sim.active (fun s => some (s.nonPreemptiveTick select)) fuel
        (Sim.start L)) s ∧
      Returns (eventSchedule (arrivals L) (bursts L) pick) e ∧
      (∀ i, (s.list i).input = (L i).input) ∧
      ∀ i, (s.list i).start = e.start i ∧ (s.list i).finish = e.finish i := by
  obtain ⟨s, hrun, hinv, hpiece, hdone⟩ := nonPreemptive_returns hselect hload hburst
  have hstep : ∀ s s' e, Follows L s e → Sim.active s = true →
      some (s.nonPreemptiveTick select) = some s' → Follows L s' e ∨
        ∃ e', decide e.unfinished.Nonempty = true ∧
          e.step (arrivals L) (bursts L) pick = some e' ∧ Follows L s' e' := by
    intro s s' e h hactive hbody
    obtain rfl := Option.some.inj hbody
    have hlt : s.finCnt < n := by simpa [Sim.active] using hactive
    rcases h.tick hselect hpicks hburst hlt with hsame | ⟨e', hne, hnext, hfollows⟩
    · exact Or.inl hsame
    · exact Or.inr ⟨e', decide_eq_true hne, hnext, hfollows⟩
  have hend : ∀ s e, Follows L s e → Sim.active s = false →
      decide e.unfinished.Nonempty = false := by
    intro s e h hactive
    have hall : ¬ s.finCnt < n := by simpa [Sim.active] using hactive
    simp only [decide_eq_false_iff_not, Finset.not_nonempty_iff_eq_empty]
    refine Finset.eq_empty_of_forall_notMem fun i hi => ?_
    exact h.inv.ended hall i ((h.unfinished i).mp hi).1
  obtain ⟨e, hevents, hfollows⟩ :=
    returns_of_stutter (Follows L) hstep hend (follows_start hload hburst) hrun
  refine ⟨s, e, hrun, hevents, hinv.input, fun i => ?_⟩
  have hended := hinv.ended hdone i
  have hmem : i ∉ e.unfinished := fun hi => hended ((hfollows.unfinished i).mp hi).1
  refine ⟨(hfollows.start i hmem).symm, ?_⟩
  rw [hfollows.finish i hmem, hpiece.done i hended, hinv.burst i]

/-! ## `SJF` -/

theorem picks_scanMin_burst (hmax : ∀ i, (L i).burst < INT_MAX) :
    Picks L (fun s => s.scanMin Process.burst) (pickLeast (bursts L)) := by
  intro s hset
  dsimp only
  cases hscan : s.scanMin Process.burst with
  | none =>
    have hempty : s.readySet = ∅ := by
      refine Finset.eq_empty_of_forall_notMem fun i hi => ?_
      exact (selects_scanMin_burst hmax s hset).2 hscan i (Sim.mem_readySet.mp hi)
    rw [hempty, pickLeast_empty]
  | some i =>
    obtain ⟨hready, hprec⟩ := Sim.scanMin_eq_some hscan
    refine (pickLeast_eq_some (Sim.mem_readySet.mpr hready) fun j hj => ?_).symm
    have hij := hprec j (Sim.mem_readySet.mp hj)
    rwa [Sim.Precedes, hset.burst i, hset.burst j] at hij

/-- The tick simulation of `SJF` computes the start and finish times of the event-driven algorithm:
from time 0 on, jump to the least arrival of an unfinished process if none has arrived, run the
shortest of those that have arrived (the first one in the list among equals) to its end, and go on
from there. -/
theorem sjf_eq_eventSchedule (list : Fin n → Process) (hload : Loaded list)
    (hburst : ∀ i, 1 ≤ (list i).burst) (hmax : ∀ i, (list i).burst < INT_MAX) :
    ∃ r e, Returns (sjf list) r ∧
      Returns (eventSchedule (arrivals list) (bursts list) (pickLeast (bursts list))) e ∧
      ∀ i, (r.list i).start = e.start i ∧ (r.list i).finish = e.finish i := by
  obtain ⟨s, e, hrun, hevents, -, htimes⟩ := nonPreemptive_eq_eventSchedule
    (selects_scanMin_burst hmax) (picks_scanMin_burst hmax) hload hburst
  exact ⟨⟨fun i => (s.list i).timesFromStart, s.chart, n⟩, e, hrun.map _, hevents, htimes⟩

theorem sjf_eq_eventSchedule_twoProcesses :
    Input twoProcesses ∧ ∃ r e, Returns (sjf twoProcesses) r ∧
      Returns (eventSchedule (arrivals twoProcesses) (bursts twoProcesses)
        (pickLeast (bursts twoProcesses))) e ∧
      ∀ i, (r.list i).start = e.start i ∧ (r.list i).finish = e.finish i :=
  have h := input_twoProcesses
  ⟨h, sjf_eq_eventSchedule twoProcesses h.loaded h.burst h.bound⟩

/-! ## `FCFS` -/

theorem picks_firstReady : Picks L Sim.firstReady pickFirst := by
  intro s _
  simp only [Sim.firstReady, pickFirst, Sim.mem_readySet]

theorem arrivals_sortByArrival_le (list : Fin n → Process) (i j : Fin n) (hij : i ≤ j) :
    arrivals (sortByArrival list) i ≤ arrivals (sortByArrival list) j := by
  rw [sortByArrival_eq]
  rcases hij.lt_or_eq with hlt | rfl
  · rcases sortOrder_stable Process.arrival list hlt with hlt' | ⟨heq, -⟩
    · exact hlt'.le
    · exact heq.le
  · exact le_rfl

/-- `FCFS` sorts the list by arrival, stably, and then runs it first come, first served: each
process starts when it has arrived and the one before it has finished (time 0 for the first one),
and runs for its burst time. -/
theorem fcfs_recurrence (list : Fin n → Process) (hload : Loaded list)
    (hburst : ∀ i, 1 ≤ (list i).burst) :
    (Bijective (arrivalOrder list) ∧ (∀ i, sortByArrival list i = list (arrivalOrder list i)) ∧
      ∀ i j, i < j → (sortByArrival list i).arrival ≤ (sortByArrival list j).arrival ∧
        ((sortByArrival list i).arrival = (sortByArrival list j).arrival →
          arrivalOrder list i < arrivalOrder list j)) ∧
    ∃ r, Returns (fcfs list) r ∧ (∀ k, (r.list k).input = (sortByArrival list k).input) ∧
      ∀ k, (r.list k).start =
          max (r.list k).arrival (previousFinish (fun i => (r.list i).finish) k k.isLt.le) ∧
        (r.list k).finish = (r.list k).start + (r.list k).burst := by
  refine ⟨⟨sortOrder_bijective _ _, fun i => by rw [sortByArrival_eq]; rfl, ?_⟩, ?_⟩
  · intro i j hij
    refine ⟨arrivals_sortByArrival_le list i j hij.le, fun heq => ?_⟩
    rw [sortByArrival_eq] at heq
    rcases sortOrder_stable Process.arrival list hij with hlt | ⟨-, hlt⟩
    · exact absurd heq hlt.ne
    · exact hlt
  · obtain ⟨s, e, hrun, hevents, hinput, htimes⟩ := nonPreemptive_eq_eventSchedule
      selects_firstReady picks_firstReady hload.sortByArrival (one_le_burst_sortByArrival hburst)
    refine ⟨⟨fun i => (s.list i).timesFromStart, s.chart, n⟩, hrun.map _, hinput, fun k => ?_⟩
    obtain ⟨hstart, hfinish⟩ :=
      eventSchedule_pickFirst (arrivals_sortByArrival_le list) hevents k
    have hfin : (fun i => (s.list i).finish) = e.finish := funext fun i => (htimes i).2
    obtain ⟨harrival, hlen⟩ := Prod.mk.inj (Prod.mk.inj (hinput k)).2
    simp only [Process.timesFromStart]
    rw [hfin, (htimes k).1, (htimes k).2, hlen, harrival]
    exact ⟨hstart, hfinish⟩

theorem fcfs_recurrence_twoProcesses :
    Loaded twoProcesses ∧ ∃ r, Returns (fcfs twoProcesses) r ∧
      ∀ k, (r.list k).start =
          max (r.list k).arrival (previousFinish (fun i => (r.list i).finish) k k.isLt.le) ∧
        (r.list k).finish = (r.list k).start + (r.list k).burst := by
  have h := input_twoProcesses
  obtain ⟨-, r, hrun, -, hrec⟩ := fcfs_recurrence twoProcesses h.loaded h.burst
  exact ⟨h.loaded, r, hrun, hrec⟩

end SchoolOS.CpuScheduler
