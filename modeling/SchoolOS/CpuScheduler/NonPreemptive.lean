import SchoolOS.CpuScheduler.Valid

/-!
# `FCFS` and `SJF`

The two schedulers differ only in the process they select when the processor is free. What both need
of the selection is `Selects`: it finds a process that is ready if there is one. Then every tick is
a `Step`, and every process runs in one piece (`OnePiece`), so the waiting times that are computed
from the start times are right.
-/

namespace SchoolOS.CpuScheduler

open Function Loop

variable {n : ℕ} {L : Fin n → Process} {s : Sim n}

/-! ## Selection loops -/

/-- Process `i` comes before `j` in the order of a selection loop: a smaller key, or the same key
and a smaller index. -/
def Sim.Precedes (s : Sim n) (key : Process → ℤ) (i j : Fin n) : Prop :=
  key (s.list i) < key (s.list j) ∨ key (s.list i) = key (s.list j) ∧ i ≤ j

/-- `m` is the result of a selection loop over the processes below `k`. -/
def Sim.ScanTo (s : Sim n) (key : Process → ℤ) (k : ℕ) (m : Sim.Scan n) : Prop :=
  match m.minIdx with
  | none => m.min = INT_MAX ∧ ∀ j : Fin n, j.val < k → s.Ready j → INT_MAX ≤ key (s.list j)
  | some i => m.min = key (s.list i) ∧ m.min < INT_MAX ∧ s.Ready i ∧ i.val < k ∧
    ∀ j : Fin n, j.val < k → s.Ready j → s.Precedes key i j

theorem Sim.scanTo_step (s : Sim n) (key : Process → ℤ) (k : Fin n) (m : Sim.Scan n)
    (h : s.ScanTo key k m) : s.ScanTo key (k + 1) (s.scanStep key k m) := by
  obtain ⟨min, minIdx⟩ := m
  unfold Sim.scanStep
  by_cases htake : s.Ready k ∧ min > key (s.list k)
  · -- `k` is below everything so far
    rw [if_pos htake]
    obtain ⟨hready, hlt⟩ := htake
    refine ⟨rfl, ?_, hready, Nat.lt_succ_self _, ?_⟩
    · cases minIdx with
      | none => exact h.1 ▸ hlt
      | some i => exact hlt.trans h.2.1
    · intro j hj hjready
      by_cases hjk : j = k
      · exact Or.inr ⟨by rw [hjk], hjk ▸ le_rfl⟩
      · have hjlt : j.val < k.val := by omega
        left
        cases minIdx with
        | none =>
          have := h.2 j hjlt hjready
          have := h.1
          simp only at *
          omega
        | some i =>
          have hmin := h.1
          rcases h.2.2.2.2 j hjlt hjready with hprec | ⟨hprec, -⟩
          · simp only at hmin
            omega
          · simp only at hmin
            omega
  · -- an earlier process of the same key stays in front of `k`
    rw [if_neg htake]
    cases minIdx with
    | none =>
      refine ⟨h.1, fun j hj hjready => ?_⟩
      by_cases hjk : j = k
      · subst hjk
        have hmin : min = INT_MAX := h.1
        by_contra hlt
        exact htake ⟨hjready, by omega⟩
      · exact h.2 j (by omega) hjready
    | some i =>
      obtain ⟨hmin, hlt, hready, hik, hprec⟩ := h
      refine ⟨hmin, hlt, hready, by omega, fun j hj hjready => ?_⟩
      by_cases hjk : j = k
      · subst hjk
        simp only at hmin
        unfold Sim.Precedes
        have hge : ¬ min > key (s.list j) := fun hgt => htake ⟨hjready, hgt⟩
        rcases lt_or_eq_of_le (show key (s.list i) ≤ key (s.list j) by omega) with hlt' | heq
        · exact Or.inl hlt'
        · exact Or.inr ⟨heq, Fin.le_of_lt hik⟩
      · exact hprec j (by omega) hjready

theorem Sim.scanTo_scanMin (s : Sim n) (key : Process → ℤ) :
    s.ScanTo key n (forLoop (s.scanStep key) ⟨INT_MAX, none⟩) := by
  apply forLoop_invariant (s.ScanTo key)
  · exact ⟨rfl, fun j hj => absurd hj (Nat.not_lt_zero _)⟩
  · exact fun k m hm => s.scanTo_step key k m hm

/-- The selected process is ready, and comes before all other ready processes. -/
theorem Sim.scanMin_eq_some {key : Process → ℤ} {i : Fin n} (h : s.scanMin key = some i) :
    s.Ready i ∧ ∀ j, s.Ready j → s.Precedes key i j := by
  have hscan := s.scanTo_scanMin key
  unfold Sim.scanMin at h
  unfold Sim.ScanTo at hscan
  rw [h] at hscan
  obtain ⟨-, -, hready, -, hprec⟩ := hscan
  exact ⟨hready, fun j hj => hprec j j.isLt hj⟩

/-- No process is selected only if no key is below `INT_MAX`. -/
theorem Sim.scanMin_eq_none {key : Process → ℤ} (h : s.scanMin key = none) {i : Fin n}
    (hi : s.Ready i) : INT_MAX ≤ key (s.list i) := by
  have hscan := s.scanTo_scanMin key
  unfold Sim.scanMin at h
  unfold Sim.ScanTo at hscan
  rw [h] at hscan
  exact hscan.2 i i.isLt hi

theorem Sim.firstReady_eq_some {i : Fin n} (h : s.firstReady = some i) : s.Ready i := by
  simpa using List.find?_some h

/-- The processes before the first one that is ready are not ready. -/
theorem Sim.firstReady_le {i j : Fin n} (h : s.firstReady = some i) (hj : s.Ready j) : i ≤ j :=
  le_of_find?_finRange h (decide_eq_true hj)

theorem Sim.firstReady_eq_none (h : s.firstReady = none) (i : Fin n) : ¬ s.Ready i := by
  simpa using List.find?_eq_none.mp h i (List.mem_finRange i)

/-! ## Ticks that do not preempt -/

/-- The selection finds a process that is ready, if there is one. -/
def Selects (L : Fin n → Process) (select : Sim n → Option (Fin n)) : Prop :=
  ∀ s, Settled L s → (∀ i, select s = some i → s.Ready i) ∧ (select s = none → ∀ i, ¬ s.Ready i)

theorem selects_firstReady : Selects L Sim.firstReady :=
  fun _ _ => ⟨fun _ => Sim.firstReady_eq_some, Sim.firstReady_eq_none⟩

theorem selects_scanMin_burst (hmax : ∀ i, (L i).burst < INT_MAX) :
    Selects L fun s => s.scanMin Process.burst := by
  intro s hs
  refine ⟨fun _ hi => (Sim.scanMin_eq_some hi).1, fun hnone i hi => ?_⟩
  have hge := Sim.scanMin_eq_none hnone hi
  rw [hs.burst i] at hge
  exact absurd (hmax i) (not_lt.mpr hge)

/-- Every process runs in one piece. -/
structure OnePiece (s : Sim n) : Prop where
  untouched : ∀ i, (s.list i).ended = 0 → s.running ≠ some i → (s.list i).remain = (s.list i).burst
  running : ∀ i, s.running = some i →
    (s.list i).start + ((s.list i).burst - (s.list i).remain) = s.time
  done : ∀ i, (s.list i).ended ≠ 0 → (s.list i).finish = (s.list i).start + (s.list i).burst

theorem onePiece_start (hload : Loaded L) : OnePiece (Sim.start L) where
  untouched i _ _ := (hload i).1
  running i hi := by simp [Sim.start] at hi
  done i hi := absurd (hload i).2 hi

theorem OnePiece.complete (h : OnePiece s) : OnePiece s.complete := by
  rcases s.complete_cases with ⟨heq, -⟩ | ⟨i, hrun, hzero, heq⟩
  · rwa [heq]
  · rw [heq]
    refine ⟨?_, by simp, ?_⟩
    · intro j hj _
      by_cases hji : j = i
      · simp [hji] at hj
      · simp only [update_of_ne hji] at hj ⊢
        exact h.untouched j hj (by simpa [hrun] using Ne.symm hji)
    · intro j hj
      by_cases hji : j = i
      · subst hji
        have := h.running j hrun
        simp only [update_self, Process.exit_finish, Process.exit_start, Process.exit_burst]
        omega
      · simp only [update_of_ne hji] at hj ⊢
        exact h.done j hj

/-- A slot for the running process, or for a new one when none is running. -/
theorem OnePiece.run (h : OnePiece s) {i : Fin n} (hready : s.Ready i)
    (hnew : s.running = some i ∨ s.running = none) (hset : Settled L s) :
    OnePiece ((s.resume i).execute i) := by
  rw [Sim.resume_execute]
  have hended : (s.list i).ended = 0 := hready.2
  refine ⟨?_, ?_, ?_⟩
  · intro j hj hne
    have hji : j ≠ i := fun hji => hne (congrArg some hji.symm)
    simp only [update_of_ne hji] at hj ⊢
    apply h.untouched j hj
    rcases hnew with hrun | hrun
    · simpa [hrun] using hji.symm
    · simp [hrun]
  · rintro j ⟨⟩
    simp only [update_self, Process.afterSlot]
    rcases hnew with hrun | hrun
    · have hlt := hset.remain_lt_of_running hrun
      have hpiece := h.running i hrun
      rw [if_neg (by omega)]
      push_cast
      omega
    · have hfull := h.untouched i hended (by simp [hrun])
      rw [if_pos hfull.symm]
      push_cast
      omega
  · intro j hj
    have hji : j ≠ i := by
      rintro rfl
      simp [Process.afterSlot, hended] at hj
    simp only [update_of_ne hji] at hj ⊢
    exact h.done j hj

/-- A process that is selected while none is running starts for the first time. -/
theorem OnePiece.resume_eq_dispatch (h : OnePiece s) (hrun : s.running = none) {i : Fin n}
    (hready : s.Ready i) : s.resume i = s.dispatch i := by
  have hfull := h.untouched i hready.2 (by simp [hrun])
  rw [Sim.resume, if_pos hfull.symm]

/-- The two formulas for the waiting time agree on a process that has run in one piece. -/
theorem OnePiece.timesFromFinish_eq (h : OnePiece s) {i : Fin n} (hi : (s.list i).ended ≠ 0) :
    (s.list i).timesFromFinish = (s.list i).timesFromStart := by
  have hdone := h.done i hi
  have hwaiting : (s.list i).finish - (s.list i).arrival - (s.list i).burst =
      (s.list i).start - (s.list i).arrival := by omega
  simp only [Process.timesFromFinish, Process.timesFromStart, hwaiting]

theorem OnePiece.idle (h : OnePiece s) (hrun : s.running = none) : OnePiece s.idle where
  untouched := h.untouched
  running i hi := by simp [Sim.idle, hrun] at hi
  done := h.done

/-- A tick of `FCFS` or `SJF` goes on with the running process, or takes the one that is
selected. -/
theorem nonPreemptiveTick_eq {select : Sim n → Option (Fin n)} (hset : Settled L s.complete)
    (hpiece : OnePiece s.complete) (hsome : ∀ i, select s.complete = some i → s.complete.Ready i) :
    s.nonPreemptiveTick select = s.complete.slot (s.complete.running.or (select s.complete)) := by
  simp only [Sim.nonPreemptiveTick]
  cases hrun : s.complete.running with
  | some i =>
    show s.complete.execute i = (s.complete.resume i).execute i
    rw [hset.resume_of_running hrun]
  | none =>
    cases hsel : select s.complete with
    | none => rfl
    | some i =>
      show (s.complete.dispatch i).execute i = (s.complete.resume i).execute i
      rw [hpiece.resume_eq_dispatch hrun (hsome i hsel)]

theorem nonPreemptiveTick_step {select : Sim n → Option (Fin n)} (hselect : Selects L select)
    (h : Inv L s) (hpiece : OnePiece s) (hlt : s.finCnt < n) :
    Step s (s.nonPreemptiveTick select) ∧ OnePiece (s.nonPreemptiveTick select) := by
  have hset := h.complete hlt
  have hpiece' := hpiece.complete
  obtain ⟨hsome, hnone⟩ := hselect s.complete hset
  rw [nonPreemptiveTick_eq hset hpiece' hsome]
  cases hchoice : s.complete.running.or (select s.complete) with
  | none =>
    obtain ⟨hrun, hsel⟩ := Option.or_eq_none_iff.mp hchoice
    exact ⟨.idle (hnone hsel), hpiece'.idle hrun⟩
  | some i =>
    rcases Option.or_eq_some_iff.mp hchoice with hrun | ⟨hrun, hsel⟩
    · have hready := hset.ready_of_running hrun
      exact ⟨.run hready, hpiece'.run hready (Or.inl hrun) hset⟩
    · have hready := hsome i hsel
      exact ⟨.run hready, hpiece'.run hready (Or.inr hrun) hset⟩

/-- The tick loop of `FCFS` or `SJF` ends, with every process run in one piece. -/
theorem nonPreemptive_returns {select : Sim n → Option (Fin n)} (hselect : Selects L select)
    (hload : Loaded L) (hburst : ∀ i, 1 ≤ (L i).burst) :
    ∃ s, Returns (fun fuel => whileLoop Sim.active (fun s => some (s.nonPreemptiveTick select)) fuel
      (Sim.start L)) s ∧ Inv L s ∧ OnePiece s ∧ ¬ s.finCnt < n := by
  obtain ⟨s, hrun, ⟨hinv, hpiece⟩, hdone⟩ := returns_whileLoop Sim.active
    (fun s => some (s.nonPreemptiveTick select)) (fun s => Inv L s ∧ OnePiece s) (measure L) (by
      rintro s ⟨hinv, hpiece⟩ hactive
      have hlt : s.finCnt < n := by simpa [Sim.active] using hactive
      obtain ⟨hstep, hpiece'⟩ := nonPreemptiveTick_step hselect hinv hpiece hlt
      obtain ⟨hinv', hmeasure⟩ := hinv.step hburst hlt hstep
      exact ⟨_, rfl, ⟨hinv', hpiece'⟩, hmeasure⟩)
    (Sim.start L) ⟨inv_start hload hburst, onePiece_start hload⟩
  exact ⟨s, hrun, hinv, hpiece, by simpa [Sim.active] using hdone⟩

end SchoolOS.CpuScheduler
