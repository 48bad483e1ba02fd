import SchoolOS.CpuScheduler.Schedulers

/-!
# The queue array of `RR`

`RR` never reuses the front of its array, so the array must hold every push of the run: one for each
slice. `Rr.next` is a tick in an array with room for every push, and `Rr.tick_eq` says that a tick
of the source is `next` as long as the pushes fit. The run therefore stays inside the array exactly
if `totalSlices` does not exceed its size (`staysInside_iff`).
-/

namespace SchoolOS.CpuScheduler

open Function Loop

variable {n : ℕ} {L : Fin n → Process} {q : ℤ} {maxSize total : ℕ} {s s' : Rr n}

/-! ## A tick, and the pushes it makes -/

/-- The state after the running process has been completed, or pushed when its slice is used up. -/
def Rr.released (s : Rr n) : Rr n :=
  match s.running with
  | none => s
  | some i =>
    if (s.list i).remain = 0 then s.completed
    else if s.curSlice = 0 then { s.pushed i with toSim := { s.toSim with running := none } }
    else s

/-- A tick in an array with room for every push. -/
def Rr.next (q : ℤ) (s : Rr n) : Rr n := s.arrived.released.choose q

theorem Rr.pushArrivals_eq (h : s.queue.length ≤ maxSize) :
    s.pushArrivals maxSize = if s.arrived.queue.length ≤ maxSize then some s.arrived else none := by
  -- by induction on the part of the list that is left
  suffices hfold : ∀ (l : List (Fin n)) (s : Rr n), s.queue.length ≤ maxSize →
      l.foldlM (fun s i =>
          if (s.time : ℤ) = (s.list i).arrival then s.push maxSize i else some s) s =
        if (s.queue ++ l.filter fun i => (s.time : ℤ) = (s.list i).arrival).length ≤ maxSize then
          some { s with queue := s.queue ++ l.filter fun i => (s.time : ℤ) = (s.list i).arrival }
        else none from
    hfold _ s h
  intro l
  induction l with
  | nil =>
    intro s hs
    simp [hs]
  | cons i l ih =>
    intro s hs
    rw [List.foldlM_cons]
    by_cases harrives : (s.time : ℤ) = (s.list i).arrival
    · rw [if_pos harrives, List.filter_cons_of_pos (by simpa using harrives)]
      by_cases hlt : s.queue.length < maxSize
      · have hlength : (s.pushed i).queue.length ≤ maxSize := by simpa [Rr.pushed] using hlt
        rw [Rr.push_eq hlt, List.append_cons]
        exact ih (s.pushed i) hlength
      · have hnone : s.push maxSize i = none := by simp [Rr.push, hlt]
        rw [hnone, if_neg]
        · rfl
        · simp only [List.length_append, List.length_cons]
          omega
    · rw [if_neg harrives, List.filter_cons_of_neg (by simpa using harrives)]
      exact ih s hs

theorem Rr.release_eq (h : s.queue.length ≤ maxSize) :
    s.release maxSize = if s.released.queue.length ≤ maxSize then some s.released else none := by
  unfold Rr.release Rr.released
  cases s.running with
  | none => simp [h]
  | some i =>
    by_cases hzero : (s.list i).remain = 0
    · simp [hzero, Rr.completed, h]
    · by_cases hempty : s.curSlice = 0
      · by_cases hlt : s.queue.length < maxSize
        · simp [hzero, hempty, Rr.push, Rr.pushed, hlt, Nat.succ_le_of_lt hlt]
        · simp [hzero, hempty, Rr.push, Rr.pushed, hlt]
      · simp [hzero, hempty, h]

theorem Rr.length_le_released (s : Rr n) : s.queue.length ≤ s.released.queue.length := by
  unfold Rr.released
  split
  · exact le_rfl
  · split
    · exact le_rfl
    · split
      · simp [Rr.pushed]
      · exact le_rfl

theorem Rr.choose_queue (s : Rr n) : (s.choose q).queue = s.queue := by
  unfold Rr.choose
  split
  · rfl
  · dsimp only
    split
    · rfl
    · rfl

/-- A tick is defined as long as its pushes fit into the array. -/
theorem Rr.tick_eq (h : s.queue.length ≤ maxSize) :
    s.tick maxSize q = if (s.next q).queue.length ≤ maxSize then some (s.next q) else none := by
  have hle := s.arrived.length_le_released
  rw [Rr.next, Rr.choose_queue, Rr.tick, Rr.pushArrivals_eq h]
  by_cases harrived : s.arrived.queue.length ≤ maxSize
  · rw [if_pos harrived]
    simp only [Option.bind_eq_bind, Option.bind_some]
    rw [Rr.release_eq harrived]
    split
    · rfl
    · rfl
  · rw [if_neg harrived, if_neg (by omega)]
    rfl

/-! ## The invariant, whatever the size of the array -/

theorem RrInv.length_le (h : RrInv L q total s) : s.queue.length ≤ total := by
  have := h.queue.potential
  omega

/-- The invariant does not depend on the size of the array. -/
theorem RrInv.next (h : RrInv L q total s) (hburst : ∀ i, 1 ≤ (L i).burst) (hq : 1 ≤ q)
    (hlt : s.finCnt < n) :
    RrInv L q total (s.next q) ∧ measure L (s.next q).toSim < measure L s.toSim := by
  obtain ⟨s', htick, hinv, hmeasure⟩ := h.tick hburst hq le_rfl hlt
  rw [Rr.tick_eq h.length_le] at htick
  split at htick
  · obtain rfl := Option.some.inj htick
    exact ⟨hinv, hmeasure⟩
  · simp at htick

/-- In the end, every slice has been pushed. -/
theorem RrInv.length_eq (h : RrInv L q total s) (hq : 1 ≤ q) (hdone : ¬ s.finCnt < n) :
    s.queue.length = total := by
  have hended := h.inv.ended hdone
  have hfuture : ∀ i, s.future q i = 0 := by
    intro i
    have hrun : s.running ≠ some i := fun hrun => hended i (h.inv.running i hrun).1
    have hzero := (h.inv.finished i (hended i)).2.1
    have hnone := slices_eq_zero hq hzero.le
    rw [Rr.future, if_neg hrun, hnone]
    split
    · rfl
    · rfl
  have hpotential := h.queue.potential
  rwa [Finset.sum_eq_zero fun i _ => hfuture i, Nat.add_zero] at hpotential

/-! ## Staying inside the array -/

/-- The locals of `RR` before the first tick. -/
def Rr.start (list : Fin n → Process) (prevRun curSlice : ℤ) : Rr n :=
  ⟨Sim.start list, 0, [], 0, prevRun, curSlice⟩

/-- What `RR` computes from the state in which its tick loop ends. -/
def Rr.result (s : Rr n) : Result n :=
  ⟨fun i => (s.list i).timesFromFinish, s.chart, s.contextSwitch⟩

theorem rr_eq (prevRun curSlice : ℤ) (list : Fin n → Process) (fuel : ℕ) :
    rr maxSize prevRun curSlice q list fuel =
      (rrLoop maxSize q fuel (Rr.start list prevRun curSlice)).map Rr.result := rfl

/-- In every state that the tick loop visits, `head` is at most `tail` and `tail` at most the size
of the array, and the next tick is defined: it pushes no process behind the array. (A process is
read from the array at `head`, and only when `head` is not `tail`.) -/
def StaysInside (maxSize : ℕ) (q : ℤ) (s₀ : Rr n) : Prop :=
  ∀ s, Visits (fun s => s.active) (Rr.tick maxSize q) s₀ s →
    s.head ≤ s.queue.length ∧ s.queue.length ≤ maxSize ∧
      (s.active = true → (s.tick maxSize q).isSome = true)

theorem not_finCnt_lt_of_rrLoop {fuel : ℕ} (h : rrLoop maxSize q fuel s = some s') :
    ¬ s'.finCnt < n := by
  have hactive := (whileLoop_invariant (fun _ => True) (fun _ _ _ _ _ => trivial) trivial h).2
  simpa [Sim.active] using hactive

section Run

variable {list : Fin n → Process} (hload : Loaded list) (harrival : ∀ i, 0 ≤ (list i).arrival)
  (hburst : ∀ i, 1 ≤ (list i).burst) (hq : 1 ≤ q) (prevRun curSlice : ℤ)

include hload harrival hburst hq

/-- The invariant holds in every state that the tick loop visits. -/
theorem rrInv_of_visits
    (h : Visits (fun s => s.active) (Rr.tick maxSize q) (Rr.start list prevRun curSlice) s) :
    RrInv list q (totalSlices q list) s ∧ s.queue.length ≤ maxSize := by
  refine h.invariant (fun s => RrInv list q (totalSlices q list) s ∧ s.queue.length ≤ maxSize)
    ⟨rrInv_start hload hburst harrival prevRun curSlice, Nat.zero_le _⟩ ?_
  rintro s s' ⟨hinv, hle⟩ hactive htick
  have hlt : s.finCnt < n := by simpa [Sim.active] using hactive
  rw [Rr.tick_eq hle] at htick
  split at htick
  · rename_i hlength
    obtain rfl := Option.some.inj htick
    exact ⟨(hinv.next hburst hq hlt).1, hlength⟩
  · simp at htick

/-- A run that returns has had room for every slice. -/
theorem totalSlices_le_of_rrLoop {fuel : ℕ}
    (h : rrLoop maxSize q fuel (Rr.start list prevRun curSlice) = some s) :
    totalSlices q list ≤ maxSize := by
  obtain ⟨hinv, hle⟩ :=
    rrInv_of_visits hload harrival hburst hq prevRun curSlice (visits_of_whileLoop h)
  rw [← hinv.length_eq hq (not_finCnt_lt_of_rrLoop h)]
  exact hle

/-- A run that stays inside the array ends, so it has had room for every slice. -/
theorem totalSlices_le_of_staysInside
    (h : StaysInside maxSize q (Rr.start list prevRun curSlice)) :
    totalSlices q list ≤ maxSize := by
  obtain ⟨s, ⟨fuel, hrun⟩, -, -⟩ := returns_whileLoop (fun s : Rr n => s.active)
    (Rr.tick maxSize q) (Visits (fun s => s.active) (Rr.tick maxSize q)
      (Rr.start list prevRun curSlice)) (fun s => measure list s.toSim) (by
      intro s hs hactive
      have hlt : s.finCnt < n := by simpa [Sim.active] using hactive
      have hinv := (rrInv_of_visits hload harrival hburst hq prevRun curSlice hs).1
      obtain ⟨-, hle, hsome⟩ := h s hs
      obtain ⟨s', hs'⟩ := Option.isSome_iff_exists.mp (hsome hactive)
      refine ⟨s', hs', .step hs hactive hs', ?_⟩
      rw [Rr.tick_eq hle] at hs'
      split at hs'
      · obtain rfl := Option.some.inj hs'
        exact (hinv.next hburst hq hlt).2
      · simp at hs') _ .start
  exact totalSlices_le_of_rrLoop hload harrival hburst hq prevRun curSlice (hrun fuel le_rfl)

/-- A run that has room for every slice stays inside the array. -/
theorem staysInside_of_totalSlices_le (hmax : totalSlices q list ≤ maxSize) :
    StaysInside maxSize q (Rr.start list prevRun curSlice) := by
  intro s hs
  have hinv := (rrInv_of_visits hload harrival hburst hq prevRun curSlice hs).1
  refine ⟨hinv.queue.head_le, hinv.length_le.trans hmax, fun hactive => ?_⟩
  obtain ⟨s', htick, -⟩ := hinv.tick hburst hq hmax (by simpa [Sim.active] using hactive)
  rw [htick]
  rfl

end Run

/-- `RR` stays inside its queue array exactly if the array has room for as many pushes as there are
slices; `head` never passes `tail`, whatever the array. -/
theorem staysInside_iff (maxSize : ℕ) (list : Fin n → Process) (hload : Loaded list)
    (harrival : ∀ i, 0 ≤ (list i).arrival) (hburst : ∀ i, 1 ≤ (list i).burst) (hq : 1 ≤ q)
    (prevRun curSlice : ℤ) :
    (∀ s, Visits (fun s => s.active) (Rr.tick maxSize q) (Rr.start list prevRun curSlice) s →
      s.head ≤ s.queue.length) ∧
    (StaysInside maxSize q (Rr.start list prevRun curSlice) ↔ totalSlices q list ≤ maxSize) := by
  refine ⟨fun s hs => ?_, ?_, ?_⟩
  · exact (rrInv_of_visits hload harrival hburst hq prevRun curSlice hs).1.queue.head_le
  · exact totalSlices_le_of_staysInside hload harrival hburst hq prevRun curSlice
  · exact staysInside_of_totalSlices_le hload harrival hburst hq prevRun curSlice

theorem staysInside_iff_twoProcesses :
    Input twoProcesses ∧ totalSlices 2 twoProcesses ≤ MAX_SIZE ∧
      StaysInside MAX_SIZE 2 (Rr.start twoProcesses 0 0) := by
  have h := input_twoProcesses
  have hmax : totalSlices 2 twoProcesses ≤ MAX_SIZE := by decide
  have hiff := (staysInside_iff MAX_SIZE twoProcesses h.loaded h.arrival h.burst
    (q := 2) (by decide) 0 0).2
  exact ⟨h, hmax, hiff.mpr hmax⟩

/-- One process that runs longer than the array has places. -/
def longProcess (_ : Fin 1) : Process := loadedProcess 1 0 1001

/-- A slice of 1 and a burst time of 1001: the last push is behind the array. -/
theorem not_staysInside_longProcess :
    Input longProcess ∧ ¬ StaysInside MAX_SIZE 1 (Rr.start longProcess 0 0) := by
  have h : Input longProcess :=
    ⟨fun _ => ⟨rfl, rfl⟩, by decide, by decide, by decide⟩
  refine ⟨h, fun hstays => ?_⟩
  have hle := totalSlices_le_of_staysInside h.loaded h.arrival h.burst (by decide) 0 0 hstays
  exact absurd hle (by decide)

end SchoolOS.CpuScheduler
