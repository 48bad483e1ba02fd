import Mathlib.Order.Lattice.Nat
import SchoolOS.CpuScheduler.Defs
import SchoolOS.Lib.UnitSchedule

/-!
# The invariant of the tick loops

`Inv L s` relates the fields of the processes to the chart printed so far, for a simulation that
started with the list `L`. It is the same for the four schedulers: each of their ticks is a `Step`,
that is, it completes the running process if it has no time left, and then runs one process that is
ready, or leaves the slot empty if there is none. `Inv.step` is the only place where the invariant
is shown to survive a tick, and where a tick is shown to bring the loop closer to its end.
-/

namespace SchoolOS.CpuScheduler

open Function

variable {n : ℕ} {L : Fin n → Process} {s : Sim n}

/-- The arrival times of a list. -/
def arrivals (L : Fin n → Process) (i : Fin n) : ℤ := (L i).arrival

/-- The burst times of a list. -/
def bursts (L : Fin n → Process) (i : Fin n) : ℤ := (L i).burst

/-- What the fields and the locals say about the chart when a tick begins. -/
structure Inv (L : Fin n → Process) (s : Sim n) : Prop where
  input : ∀ i, (s.list i).input = (L i).input
  remain : ∀ i, (s.list i).remain = (L i).burst - s.chart.count (some i)
  conserving : Conserving (arrivals L) (bursts L) s.chart
  time : s.finCnt < n → s.time = s.chart.length
  first : ∀ i, some i ∈ s.chart → ∃ t : ℕ, (s.list i).start = t ∧ FirstAt s.chart (some i) t
  unfinished : ∀ i, (s.list i).ended = 0 → (s.list i).remain ≠ 0 ∨ s.running = some i
  finished : ∀ i, (s.list i).ended ≠ 0 → (s.list i).ended = 1 ∧ (s.list i).remain = 0 ∧
    ∃ t : ℕ, (s.list i).finish = t + 1 ∧ LastAt s.chart (some i) t
  running : ∀ i, s.running = some i → (s.list i).ended = 0 ∧ s.chart.getLast? = some (some i)
  finCnt : s.finCnt = (Finset.univ.filter fun i => (s.list i).ended ≠ 0).card

/-- The invariant between `complete` and the choice of a process: no process that has used all its
slots is waiting for its completion. -/
structure Settled (L : Fin n → Process) (s : Sim n) : Prop extends Inv L s where
  pending : ∀ i, (s.list i).ended = 0 → (s.list i).remain ≠ 0

theorem Inv.arrival (h : Inv L s) (i : Fin n) : (s.list i).arrival = (L i).arrival :=
  (Prod.mk.inj (Prod.mk.inj (h.input i)).2).1

theorem Inv.burst (h : Inv L s) (i : Fin n) : (s.list i).burst = (L i).burst :=
  (Prod.mk.inj (Prod.mk.inj (h.input i)).2).2

theorem Sim.card_ended_lt {i : Fin n} (hi : (s.list i).ended = 0) :
    (Finset.univ.filter fun j => (s.list j).ended ≠ 0).card < n := by
  have hssub : (Finset.univ.filter fun j => (s.list j).ended ≠ 0) ⊂ Finset.univ :=
    Finset.filter_ssubset.mpr ⟨i, Finset.mem_univ i, by simpa using hi⟩
  simpa using Finset.card_lt_card hssub

theorem Inv.finCnt_lt_iff (h : Inv L s) : s.finCnt < n ↔ ∃ i, (s.list i).ended = 0 := by
  rw [h.finCnt]
  constructor
  · intro hlt
    by_contra hall
    push Not at hall
    have hcard := Finset.card_filter_eq_iff.mpr fun (i : Fin n) (_ : i ∈ Finset.univ) => hall i
    rw [Finset.card_univ, Fintype.card_fin] at hcard
    omega
  · rintro ⟨i, hi⟩
    exact Sim.card_ended_lt hi

/-- A process has not had more slots than its burst time. -/
theorem Inv.remain_nonneg (h : Inv L s) (hburst : ∀ i, 1 ≤ (L i).burst) (i : Fin n) :
    0 ≤ (s.list i).remain := by
  have hb := hburst i
  have hcount : (s.chart.count (some i) : ℤ) ≤ (L i).burst :=
    h.conserving.count_le (show 0 ≤ bursts L i by simp only [bursts]; omega)
  rw [h.remain i]
  omega

/-- Changing one process keeps the fields that the change keeps. -/
theorem field_update {β : Type} (f : Process → β) (list : Fin n → Process) (i : Fin n) (p : Process)
    (hf : f p = f (list i)) (j : Fin n) : f (update list i p j) = f (list j) := by
  by_cases hj : j = i
  · rw [hj, update_self, hf]
  · rw [update_of_ne hj]

/-! ## Before the first tick -/

theorem inv_start (hload : Loaded L) (hburst : ∀ i, 1 ≤ (L i).burst) : Inv L (Sim.start L) where
  input _ := rfl
  remain i := by simp [Sim.start, (hload i).1]
  conserving := .nil
  time _ := rfl
  first i hi := by simp [Sim.start] at hi
  unfinished i _ := by
    left
    have := hburst i
    simp only [Sim.start, (hload i).1]
    omega
  finished i hi := absurd (hload i).2 hi
  running i hi := by simp [Sim.start] at hi
  finCnt := by simp [Sim.start, (hload _).2]

/-! ## Completing the running process -/

/-- `complete` does nothing, or ends the running process. -/
theorem Sim.complete_cases (s : Sim n) :
    (s.complete = s ∧ ∀ i, s.running = some i → (s.list i).remain ≠ 0) ∨
    ∃ i, s.running = some i ∧ (s.list i).remain = 0 ∧
      s.complete = { s with
        list := update s.list i ((s.list i).exit s.time)
        running := none
        finCnt := s.finCnt + 1 } := by
  unfold Sim.complete
  cases hrun : s.running with
  | none => exact Or.inl ⟨rfl, by simp⟩
  | some i =>
    by_cases hzero : (s.list i).remain = 0
    · exact Or.inr ⟨i, rfl, hzero, by simp [hzero]⟩
    · refine Or.inl ⟨by simp [hzero], ?_⟩
      rintro j ⟨⟩
      exact hzero

theorem Inv.complete (h : Inv L s) (hlt : s.finCnt < n) : Settled L s.complete := by
  rcases s.complete_cases with ⟨heq, hne⟩ | ⟨i, hrun, hzero, heq⟩
  · rw [heq]
    refine ⟨h, fun i hi => ?_⟩
    rcases h.unfinished i hi with hrem | hrun
    · exact hrem
    · exact hne i hrun
  · obtain ⟨hended, hlast⟩ := h.running i hrun
    rw [heq]
    -- only `finish` and `ended` of process `i` change
    have hother : ∀ j, j ≠ i → update s.list i ((s.list i).exit s.time) j = s.list j :=
      fun j hj => update_of_ne hj _ _
    have hkeep : ∀ {β : Type} (f : Process → β), f ((s.list i).exit s.time) = f (s.list i) →
        ∀ j, f (update s.list i ((s.list i).exit s.time) j) = f (s.list j) :=
      fun f => field_update f s.list i _
    refine ⟨⟨?_, ?_, h.conserving, ?_, ?_, ?_, ?_, by simp, ?_⟩, ?_⟩
    · exact fun j => (hkeep Process.input rfl j).trans (h.input j)
    · exact fun j => (hkeep Process.remain rfl j).trans (h.remain j)
    · exact fun _ => h.time hlt
    · intro j hj
      obtain ⟨t, ht, hfirst⟩ := h.first j hj
      exact ⟨t, (hkeep Process.start rfl j).trans ht, hfirst⟩
    · intro j hj
      by_cases hji : j = i
      · simp [hji] at hj
      · simp only [hother j hji] at hj ⊢
        rcases h.unfinished j hj with hrem | hrun'
        · exact Or.inl hrem
        · exact absurd (Option.some.inj (hrun'.symm.trans hrun)) hji
    · intro j hj
      by_cases hji : j = i
      · subst hji
        have hpos : 0 < s.chart.length := by
          obtain ⟨init, hinit⟩ := List.getLast?_eq_some_iff.mp hlast
          simp [hinit]
        refine ⟨by simp, by simp [hzero], s.chart.length - 1, ?_, lastAt_of_getLast? hlast⟩
        simp only [update_self, Process.exit_finish, h.time hlt]
        omega
      · simp only [hother j hji] at hj ⊢
        exact h.finished j hj
    · have hfilter : (Finset.univ.filter fun j => (update s.list i
          ((s.list i).exit s.time) j).ended ≠ 0) =
          insert i (Finset.univ.filter fun j => (s.list j).ended ≠ 0) := by
        ext j
        by_cases hji : j = i
        · simp [hji]
        · simp [hji]
      rw [hfilter, Finset.card_insert_of_notMem (by simp [hended]), ← h.finCnt]
    · intro j hj
      by_cases hji : j = i
      · simp [hji] at hj
      · simp only [hother j hji] at hj ⊢
        rcases h.unfinished j hj with hrem | hrun'
        · exact hrem
        · exact absurd (Option.some.inj (hrun'.symm.trans hrun)) hji

/-! ## Using a slot -/

/-- Process `i` after one more slot at time `time`. -/
def Process.afterSlot (p : Process) (time : ℤ) : Process :=
  { p with
    start := if p.burst = p.remain then time else p.start
    remain := p.remain - 1 }

/-- What one slot of process `i` does to the state. -/
theorem Sim.resume_execute (s : Sim n) (i : Fin n) :
    (s.resume i).execute i =
      { s with
        list := update s.list i ((s.list i).afterSlot s.time)
        running := some i
        chart := s.chart ++ [some i]
        time := s.time + 1 } := by
  unfold Sim.resume Process.afterSlot
  split
  · rename_i heq
    simp [Sim.dispatch, Sim.execute, heq]
  · simp [Sim.execute]

theorem Settled.time_eq (h : Settled L s) {i : Fin n} (hi : (s.list i).ended = 0) :
    s.time = s.chart.length :=
  h.time (h.finCnt_lt_iff.mpr ⟨i, hi⟩)

/-- While some process is not finished, the ready processes are the pending jobs of the chart. -/
theorem Settled.ready_iff (h : Settled L s) (hburst : ∀ i, 1 ≤ (L i).burst) (hlt : s.finCnt < n)
    (i : Fin n) : s.Ready i ↔ Pending (arrivals L) (bursts L) s.chart i := by
  have hnonneg := h.remain_nonneg hburst i
  have hremain := h.remain i
  have hended : (s.list i).ended = 0 ↔ (s.list i).remain ≠ 0 := by
    refine ⟨h.pending i, fun hne => ?_⟩
    by_contra hended
    exact hne (h.finished i hended).2.1
  unfold Sim.Ready Pending arrivals bursts
  rw [h.arrival i, h.time hlt, hended]
  apply and_congr_right
  intro _
  omega

theorem Settled.run (h : Settled L s) (hburst : ∀ i, 1 ≤ (L i).burst) {i : Fin n}
    (hready : s.Ready i) : Inv L ((s.resume i).execute i) := by
  have hlt := h.finCnt_lt_iff.mpr ⟨i, hready.2⟩
  have htime := h.time hlt
  have hremain := h.remain i
  have hpending := (h.ready_iff hburst hlt i).mp hready
  rw [Sim.resume_execute]
  have hother : ∀ j, j ≠ i → update s.list i ((s.list i).afterSlot s.time) j = s.list j :=
    fun j hj => update_of_ne hj _ _
  have hended : ∀ j, (update s.list i ((s.list i).afterSlot s.time) j).ended = (s.list j).ended :=
    field_update Process.ended s.list i _ rfl
  refine ⟨?_, ?_, h.conserving.run hpending, ?_, ?_, ?_, ?_, ?_, ?_⟩
  · exact fun j =>
      (field_update Process.input s.list i ((s.list i).afterSlot s.time) rfl j).trans (h.input j)
  · -- `remain` falls by the slot that the chart gains
    intro j
    by_cases hji : j = i
    · subst hji
      simp only [update_self, Process.afterSlot, List.count_append, List.count_singleton_self]
      push_cast
      omega
    · simp only [hother j hji, h.remain j, List.count_append]
      rw [List.count_singleton]
      simp [Ne.symm hji]
  · intro _
    simp [htime]
  · intro j hj
    by_cases hji : j = i
    · subst hji
      simp only [update_self, Process.afterSlot]
      by_cases hfirst : (s.list j).burst = (s.list j).remain
      · -- the first slot of the process
        have hnotMem : some j ∉ s.chart := by
          rw [← List.count_eq_zero]
          have := h.burst j
          omega
        exact ⟨s.chart.length, by simp [hfirst, htime], firstAt_concat hnotMem⟩
      · have hmem : some j ∈ s.chart := by
          rw [← List.count_pos_iff]
          have := h.burst j
          omega
        obtain ⟨t, ht, hat⟩ := h.first j hmem
        exact ⟨t, by simp [hfirst, ht], hat.concat _⟩
    · have hmem : some j ∈ s.chart := by simpa [hji] using hj
      obtain ⟨t, ht, hat⟩ := h.first j hmem
      exact ⟨t, by simpa only [hother j hji] using ht, hat.concat _⟩
  · intro j hj
    by_cases hji : j = i
    · exact Or.inr (congrArg some hji.symm)
    · simp only [hother j hji] at hj ⊢
      exact Or.inl (h.pending j hj)
  · -- the last slot of a process that has ended is not the new one
    intro j hj
    have hji : j ≠ i := by
      rintro rfl
      exact hj ((hended j).trans hready.2)
    simp only [hother j hji] at hj ⊢
    obtain ⟨hone, hzero, t, ht, hlast⟩ := h.finished j hj
    exact ⟨hone, hzero, t, ht, hlast.concat (by simpa using hji.symm)⟩
  · rintro j ⟨⟩
    exact ⟨(hended i).trans hready.2, by simp⟩
  · simp only [hended]
    exact h.finCnt

/-- The running process is ready: it has had a slot, so it has arrived. -/
theorem Settled.ready_of_running (h : Settled L s) {i : Fin n} (hi : s.running = some i) :
    s.Ready i := by
  obtain ⟨hended, hlast⟩ := h.running i hi
  have hslot := (lastAt_of_getLast? hlast).at_self
  have harrived := (h.conserving.pending_of_run hslot).1
  refine ⟨?_, hended⟩
  rw [h.arrival i, h.time_eq hended]
  rw [arrivals, List.length_take] at harrived
  omega

/-- A process that arrives now has had no slot yet. -/
theorem Inv.notMem_chart (h : Inv L s) (hlt : s.finCnt < n) {i : Fin n}
    (hi : (s.time : ℤ) = (s.list i).arrival) : some i ∉ s.chart := by
  intro hmem
  obtain ⟨t, ht⟩ := List.getElem?_of_mem hmem
  have hlength := (List.getElem?_eq_some_iff.mp ht).1
  have harrived := (h.conserving.pending_of_run ht).1
  have htime := h.time hlt
  rw [List.length_take_of_le hlength.le, arrivals, ← h.arrival i, ← hi] at harrived
  omega

/-- No process is running when none is ready. -/
theorem Settled.running_eq_none (h : Settled L s) (hnone : ∀ i, ¬ s.Ready i) :
    s.running = none := by
  by_contra hne
  obtain ⟨i, hi⟩ := Option.ne_none_iff_exists'.mp hne
  exact hnone i (h.ready_of_running hi)

/-- The running process has used part of its burst time. -/
theorem Settled.remain_lt_of_running (h : Settled L s) {i : Fin n} (hi : s.running = some i) :
    (s.list i).remain < (s.list i).burst := by
  have hmem : some i ∈ s.chart := List.mem_of_getLast? (h.running i hi).2
  have hcount := List.count_pos_iff.mpr hmem
  rw [h.remain i, h.burst i]
  omega

/-- The running process does not start again. -/
theorem Settled.resume_of_running (h : Settled L s) {i : Fin n} (hi : s.running = some i) :
    s.resume i = s := by
  have hlt := h.remain_lt_of_running hi
  rw [Sim.resume, if_neg (by omega), ← hi]

theorem Settled.idle (h : Settled L s) (hburst : ∀ i, 1 ≤ (L i).burst) (hnone : ∀ i, ¬ s.Ready i) :
    Inv L s.idle := by
  have hrunning := h.running_eq_none hnone
  have hinv := h.toInv
  unfold Sim.idle
  by_cases hlt : s.finCnt < n
  · have htime := h.time hlt
    have hidle : Conserving (arrivals L) (bursts L) (s.chart ++ [none]) := by
      apply h.conserving.idle
      · intro i hi
        exact hnone i ((h.ready_iff hburst hlt i).mpr hi)
      · obtain ⟨i, hi⟩ := h.finCnt_lt_iff.mp hlt
        have hnonneg := h.remain_nonneg hburst i
        have hne := h.pending i hi
        have hremain := h.remain i
        refine ⟨i, ?_⟩
        rw [bursts]
        omega
    rw [if_pos hlt]
    refine ⟨h.input, ?_, hidle, ?_, ?_, h.unfinished, ?_, ?_, h.finCnt⟩
    · intro i
      simpa using h.remain i
    · intro _
      simp [htime]
    · intro i hi
      obtain ⟨t, ht, hfirst⟩ := h.first i (by simpa using hi)
      exact ⟨t, ht, hfirst.concat _⟩
    · intro i hi
      obtain ⟨hone, hzero, t, ht, hlast⟩ := h.finished i hi
      exact ⟨hone, hzero, t, ht, hlast.concat (by simp)⟩
    · intro i hi
      simp [hrunning] at hi
  · rw [if_neg hlt]
    exact { hinv with time := fun hlt' => absurd hlt' hlt }

/-! ## A tick -/

/-- Give the slot to a process, or leave it empty. -/
def Sim.slot (s : Sim n) : Option (Fin n) → Sim n
  | some i => (s.resume i).execute i
  | none => s.idle

/-- One tick of any of the schedulers: complete the running process if it has no time left, then
give the slot to a process that is ready, or leave it empty if there is none. -/
inductive Step (s : Sim n) : Sim n → Prop
  | run {i : Fin n} : s.complete.Ready i → Step s ((s.complete.resume i).execute i)
  | idle : (∀ i, ¬ s.complete.Ready i) → Step s s.complete.idle

/-- The latest arrival time. -/
def lastArrival (L : Fin n → Process) : ℕ := Finset.univ.sup fun i => (L i).arrival.toNat

/-- What every tick decreases: the time left to run, the time until the last arrival, or the number
of processes that have not been completed. -/
def measure (L : Fin n → Process) (s : Sim n) : ℕ :=
  (∑ i, (s.list i).remain.toNat) + (lastArrival L + 1 - s.time) + (n - s.finCnt)

theorem Sim.complete_remain (s : Sim n) (i : Fin n) :
    (s.complete.list i).remain = (s.list i).remain := by
  rcases s.complete_cases with ⟨heq, -⟩ | ⟨j, -, -, heq⟩
  · rw [heq]
  · rw [heq]
    exact field_update Process.remain s.list j ((s.list j).exit s.time) rfl i

theorem Sim.complete_time (s : Sim n) : s.complete.time = s.time := by
  rcases s.complete_cases with ⟨heq, -⟩ | ⟨j, -, -, heq⟩
  · rw [heq]
  · rw [heq]

theorem Sim.complete_chart (s : Sim n) : s.complete.chart = s.chart := by
  rcases s.complete_cases with ⟨heq, -⟩ | ⟨j, -, -, heq⟩
  · rw [heq]
  · rw [heq]

theorem Sim.finCnt_le_complete (s : Sim n) : s.finCnt ≤ s.complete.finCnt := by
  rcases s.complete_cases with ⟨heq, -⟩ | ⟨j, -, -, heq⟩
  · rw [heq]
  · rw [heq]
    exact Nat.le_succ _

/-- Every tick keeps the invariant and comes closer to the end of the loop. -/
theorem Inv.step {s' : Sim n} (h : Inv L s) (hburst : ∀ i, 1 ≤ (L i).burst) (hlt : s.finCnt < n)
    (hstep : Step s s') : Inv L s' ∧ measure L s' < measure L s := by
  have hset := h.complete hlt
  have hcnt := s.finCnt_le_complete
  cases hstep with
  | @run i hready =>
    -- the sum of the remaining times falls by one
    refine ⟨hset.run hburst hready, ?_⟩
    have hrem : 0 < (s.complete.list i).remain :=
      lt_of_le_of_ne (hset.remain_nonneg hburst i) (hset.pending i hready.2).symm
    have hsum : ∑ j, (((s.complete.resume i).execute i).list j).remain.toNat <
        ∑ j, (s.list j).remain.toNat := by
      rw [Sim.resume_execute]
      apply Finset.sum_lt_sum
      · intro j _
        by_cases hji : j = i
        · subst hji
          rw [← s.complete_remain j]
          simp only [update_self, Process.afterSlot]
          omega
        · simp only [update_of_ne hji, s.complete_remain j, le_refl]
      · refine ⟨i, Finset.mem_univ i, ?_⟩
        rw [← s.complete_remain i]
        simp only [update_self, Process.afterSlot]
        omega
    have htime : ((s.complete.resume i).execute i).time = s.time + 1 := by
      rw [Sim.resume_execute, ← s.complete_time]
    have hfin : ((s.complete.resume i).execute i).finCnt = s.complete.finCnt := by
      rw [Sim.resume_execute]
    unfold measure
    omega
  | idle hnone =>
    refine ⟨hset.idle hburst hnone, ?_⟩
    have hsum : ∑ j, (s.complete.idle.list j).remain.toNat = ∑ j, (s.list j).remain.toNat :=
      Finset.sum_congr rfl fun j _ => congrArg Int.toNat (s.complete_remain j)
    have htime : s.complete.idle.time = s.time + 1 := by
      rw [← s.complete_time]
      rfl
    have hfin : s.complete.idle.finCnt = s.complete.finCnt := rfl
    unfold measure
    by_cases hall : s.complete.finCnt < n
    · -- some process has not arrived yet
      obtain ⟨i, hi⟩ := hset.finCnt_lt_iff.mp hall
      have hlate : ¬ (s.complete.list i).arrival ≤ s.complete.time := fun harr => hnone i ⟨harr, hi⟩
      rw [hset.arrival i, s.complete_time] at hlate
      have hle : (L i).arrival.toNat ≤ lastArrival L :=
        Finset.le_sup (f := fun i => (L i).arrival.toNat) (Finset.mem_univ i)
      omega
    · omega

/-! ## After the last tick -/

theorem Inv.ended (h : Inv L s) (hdone : ¬ s.finCnt < n) (i : Fin n) : (s.list i).ended ≠ 0 := by
  intro hi
  exact hdone (h.finCnt_lt_iff.mpr ⟨i, hi⟩)

/-- In the end, every process has had as many slots as its burst time. -/
theorem Inv.count_eq (h : Inv L s) (hdone : ¬ s.finCnt < n) (i : Fin n) :
    (s.chart.count (some i) : ℤ) = (L i).burst := by
  have hzero := (h.finished i (h.ended hdone i)).2.1
  have hremain := h.remain i
  omega

end SchoolOS.CpuScheduler
