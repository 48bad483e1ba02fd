import SchoolOS.CpuScheduler.Schedulers

/-!
# `SJF` and `SRTF` without staggered arrivals

When all processes arrive at the same time, `SRTF` never preempts. The two tick loops run in
lockstep: after a slot of the shortest process, its time left is less than that of every other
unfinished process (`Lockstep.least`), so the selection of `SRTF` finds it again, until it is
completed. The number of context switches is then the number of processes that have been started.
-/

namespace SchoolOS.CpuScheduler

open Function Loop

variable {n : ℕ} {L : Fin n → Process} {s : Sim n}

/-- Only the keys of the ready processes matter for a selection loop. -/
theorem Sim.scanMin_congr {key key' : Process → ℤ}
    (h : ∀ i, s.Ready i → key (s.list i) = key' (s.list i)) : s.scanMin key = s.scanMin key' := by
  have hstep : s.scanStep key = s.scanStep key' := by
    funext i m
    unfold Sim.scanStep
    by_cases hi : s.Ready i
    · rw [h i hi]
    · rw [if_neg fun h => hi h.1, if_neg fun h => hi h.1]
  rw [Sim.scanMin, Sim.scanMin, hstep]

/-- A selection loop finds the process whose key is below all others. -/
theorem Sim.scanMin_eq_of_least {key : Process → ℤ} {i : Fin n} (hi : s.Ready i)
    (hmax : key (s.list i) < INT_MAX)
    (hleast : ∀ j, j ≠ i → s.Ready j → key (s.list i) < key (s.list j)) :
    s.scanMin key = some i := by
  cases hscan : s.scanMin key with
  | none =>
    have hge := Sim.scanMin_eq_none hscan hi
    omega
  | some j =>
    obtain ⟨hj, hprec⟩ := Sim.scanMin_eq_some hscan
    by_contra hne
    have hji : j ≠ i := fun hji => hne (congrArg some hji)
    have hlt := hleast j hji hj
    rcases hprec i hi with hlt' | ⟨heq, -⟩
    · omega
    · omega

/-- The running process has less time left than every other unfinished process. -/
def Sim.RunsLeast (s : Sim n) : Prop :=
  ∀ i, s.running = some i → ∀ j, j ≠ i → (s.list j).ended = 0 →
    (s.list i).remain < (s.list j).remain

/-- The number of processes that have been started, if every process runs in one piece. -/
def Sim.started (s : Sim n) : ℕ := s.finCnt + s.running.toList.length

/-- The state `s` of `SJF` and the state `t` of `SRTF`, at the beginning of a tick. -/
structure Lockstep (L : Fin n → Process) (s : Sim n) (t : Srtf n) : Prop where
  inv : Inv L s
  piece : OnePiece s
  least : s.RunsLeast
  eq : t = ⟨s, s.started⟩

/-- `complete` counts the process that stops running. -/
theorem Sim.complete_started (s : Sim n) : s.complete.started = s.started := by
  unfold Sim.started
  rcases s.complete_cases with ⟨heq, -⟩ | ⟨i, hrun, -, heq⟩
  · rw [heq]
  · rw [heq, hrun]
    rfl

theorem Sim.RunsLeast.complete (h : s.RunsLeast) : s.complete.RunsLeast := by
  rcases s.complete_cases with ⟨heq, -⟩ | ⟨j, -, -, heq⟩
  · rwa [heq]
  · rw [heq]
    intro i hi
    simp at hi

/-- A slot of a process with the least time left makes it the only one with so little. -/
theorem Settled.runsLeast_run (h : Settled L s) (hequal : ∀ i j, (L i).arrival = (L j).arrival)
    {i : Fin n} (hready : s.Ready i)
    (hmin : ∀ j, s.Ready j → (s.list i).remain ≤ (s.list j).remain) :
    ((s.resume i).execute i).RunsLeast := by
  rw [Sim.resume_execute]
  rintro k ⟨⟩ j hji hj
  simp only [update_of_ne hji, update_self, Process.afterSlot] at hj ⊢
  -- process `j` has arrived too
  have harrival : (s.list j).arrival ≤ s.time := by
    rw [h.arrival j, hequal j i, ← h.arrival i]
    exact hready.1
  have := hmin j ⟨harrival, hj⟩
  omega

/-- The selection of `SRTF` goes on with the running process, and otherwise agrees with that of
`SJF`. -/
theorem Settled.scanMin_remain (h : Settled L s) (hpiece : OnePiece s) (hleast : s.RunsLeast)
    (hmax : ∀ i, (L i).burst < INT_MAX) :
    s.scanMin Process.remain = s.running.or (s.scanMin Process.burst) := by
  cases hrun : s.running with
  | some i =>
    apply Sim.scanMin_eq_of_least (h.ready_of_running hrun)
    · exact (h.remain_le i).trans_lt (hmax i)
    · intro j hji hj
      exact hleast i hrun j hji hj.2
  | none =>
    apply Sim.scanMin_congr
    intro i hi
    exact hpiece.untouched i hi.2 (by simp [hrun])

/-- A tick of `SRTF` has a context switch exactly if it starts a process. -/
theorem Lockstep.tick {t : Srtf n} (h : Lockstep L s t) (hburst : ∀ i, 1 ≤ (L i).burst)
    (hmax : ∀ i, (L i).burst < INT_MAX) (hequal : ∀ i j, (L i).arrival = (L j).arrival)
    (hlt : s.finCnt < n) : Lockstep L (sjfTick s) (srtfTick t) := by
  obtain ⟨hinv, hpiece, hleast, rfl⟩ := h
  have hset := hinv.complete hlt
  have hstarted := s.complete_started
  have hscan := hset.scanMin_remain hpiece.complete hleast.complete hmax
  obtain ⟨hstep, hpiece'⟩ := nonPreemptiveTick_step (selects_scanMin_burst hmax) hinv hpiece hlt
  have hinv' : Inv L (sjfTick s) := (hinv.step hburst hlt hstep).1
  -- `SJF` gives the slot to the process that `SRTF` selects
  have hsjf : sjfTick s = s.complete.slot (s.complete.scanMin Process.remain) := by
    rw [hscan]
    exact nonPreemptiveTick_eq hset hpiece.complete fun i hi => (Sim.scanMin_eq_some hi).1
  cases hsel : s.complete.scanMin Process.remain with
  | none =>
    rw [hsel] at hsjf hscan
    have hrun := (Option.or_eq_none_iff.mp hscan.symm).1
    refine ⟨hinv', hpiece', ?_, ?_⟩
    · rw [hsjf]
      intro i hi
      exact absurd (hrun.symm.trans hi) (by simp)
    · rw [hsjf]
      simp only [srtfTick, hsel, ← hstarted]
      rfl
  | some i =>
    rw [hsel] at hsjf hscan
    obtain ⟨hready, hprec⟩ := Sim.scanMin_eq_some hsel
    refine ⟨hinv', hpiece', ?_, ?_⟩
    · rw [hsjf]
      apply hset.runsLeast_run hequal hready
      intro j hj
      rcases hprec j hj with hlt' | ⟨heq, -⟩
      · exact hlt'.le
      · exact heq.le
    · rw [hsjf]
      simp only [srtfTick, hsel, ← hstarted]
      congr 1
      rw [Sim.slot, Sim.resume_execute]
      unfold Sim.started
      rcases Option.or_eq_some_iff.mp hscan.symm with hrun | ⟨hrun, -⟩
      · simp [hrun]
      · simp [hrun]

theorem lockstep_start (hload : Loaded L) (hburst : ∀ i, 1 ≤ (L i).burst) :
    Lockstep L (Sim.start L) ⟨Sim.start L, 0⟩ where
  inv := inv_start hload hburst
  piece := onePiece_start hload
  least i hi := by simp [Sim.start] at hi
  eq := rfl

/-- All processes have been started when the loop ends. -/
theorem Inv.started_eq (h : Inv L s) (hdone : ¬ s.finCnt < n) : s.started = n := by
  have hrun : s.running = none := by
    by_contra hne
    obtain ⟨i, hi⟩ := Option.ne_none_iff_exists'.mp hne
    exact h.ended hdone i (h.running i hi).1
  have hcard := Finset.card_le_univ (Finset.univ.filter fun i => (s.list i).ended ≠ 0)
  rw [← h.finCnt, Fintype.card_fin] at hcard
  simp only [Sim.started, hrun, Option.toList_none, List.length_nil]
  omega

/-- When all processes arrive at the same time, `SJF` and `SRTF` have the same result: the same
list, the same chart and the same number of context switches. -/
theorem srtf_eq_sjf_of_equal_arrivals (list : Fin n → Process) (h : Input list)
    (hequal : ∀ i j, (list i).arrival = (list j).arrival) :
    ∃ r, Returns (sjf list) r ∧ Returns (srtf list) r := by
  obtain ⟨s, hsjf, hinv, hpiece, hdone⟩ :=
    nonPreemptive_returns (selects_scanMin_burst h.bound) h.loaded h.burst
  obtain ⟨t, hsrtf, -⟩ := srtf_returns h.loaded h.burst h.bound
  have hlock : Lockstep list s t := by
    apply rel_of_returns (Lockstep list) _ _ (lockstep_start h.loaded h.burst) hsjf hsrtf
    · rintro s _ ⟨-, -, -, rfl⟩
      rfl
    · intro s t hst hactive
      have hlt : s.finCnt < n := by simpa [Sim.active] using hactive
      exact ⟨_, _, rfl, rfl, hst.tick h.burst h.bound hequal hlt⟩
  obtain rfl := hlock.eq
  have hlist : ∀ i, (s.list i).timesFromFinish = (s.list i).timesFromStart :=
    fun i => hpiece.timesFromFinish_eq (hinv.ended hdone i)
  have hresult : (⟨fun i => (s.list i).timesFromFinish, s.chart, s.started⟩ : Result n) =
      ⟨fun i => (s.list i).timesFromStart, s.chart, n⟩ := by
    simp only [hlist, hinv.started_eq hdone]
  exact ⟨_, hsjf.map _, hresult ▸ hsrtf.map _⟩

/-- A long process and a short one, both at time 0. -/
def twoAtOnce (i : Fin 2) : Process := loadedProcess (i.val + 1) 0 (if i.val = 0 then 3 else 1)

theorem srtf_eq_sjf_of_equal_arrivals_twoAtOnce :
    Input twoAtOnce ∧ (∀ i j, (twoAtOnce i).arrival = (twoAtOnce j).arrival) ∧
      ∃ r, Returns (sjf twoAtOnce) r ∧ Returns (srtf twoAtOnce) r := by
  have hinput : Input twoAtOnce :=
    ⟨Fin.forall_fin_two.mpr ⟨⟨rfl, rfl⟩, ⟨rfl, rfl⟩⟩, by decide, by decide, by decide⟩
  have hequal : ∀ i j, (twoAtOnce i).arrival = (twoAtOnce j).arrival := by decide
  exact ⟨hinput, hequal, srtf_eq_sjf_of_equal_arrivals twoAtOnce hinput hequal⟩

end SchoolOS.CpuScheduler
