import SchoolOS.CpuScheduler.Schedulers

/-!
# The order of the input lines

Permuting the input list changes which of several equally short processes runs first, and so the
times of single processes. The sums of the waiting and turnaround times stay the same.

For `SRTF` this follows from its optimality, which does not depend on the order. `SJF` is not
optimal; its two runs are compared tick by tick through a bijection of their processes (`Matched`).
Whenever they select different processes, these have the same burst time, and the bijection is
changed so that it takes one to the other (`Matched.swap`).
-/

namespace SchoolOS.CpuScheduler

open Function Loop

variable {n : ℕ} {L L' : Fin n → Process} {s t : Sim n} {e : Equiv.Perm (Fin n)}

/-! ## Two runs of `SJF` -/

/-- At time `time`, the process `q` is as far as the process `p`. Their arrival times may differ
once both have arrived. -/
structure SameJob (time : ℕ) (p q : Process) : Prop where
  burst : q.burst = p.burst
  remain : q.remain = p.remain
  ended : q.ended = p.ended
  finish : p.ended ≠ 0 → q.finish = p.finish
  arrived : max q.arrival time = max p.arrival time

/-- Process `e i` of `t` is as far as process `i` of `s`. -/
structure Matched (e : Equiv.Perm (Fin n)) (s t : Sim n) : Prop where
  job : ∀ i, SameJob s.time (s.list i) (t.list (e i))
  finCnt : t.finCnt = s.finCnt
  time : t.time = s.time
  running : t.running = s.running.map e

/-- Changing two processes that are matched. -/
theorem sameJob_update {time : ℕ} {list list' : Fin n → Process} (e : Equiv.Perm (Fin n))
    (i : Fin n) {p q : Process} (hpq : SameJob time p q)
    (hother : ∀ j, j ≠ i → SameJob time (list j) (list' (e j))) (j : Fin n) :
    SameJob time (update list i p j) (update list' (e i) q (e j)) := by
  by_cases hj : j = i
  · rw [hj, update_self, update_self]
    exact hpq
  · rw [update_of_ne hj, update_of_ne (e.injective.ne hj)]
    exact hother j hj

/-- Processes stay matched while time goes on. -/
theorem SameJob.later {time time' : ℕ} {p q : Process} (h : SameJob time p q) (hle : time ≤ time') :
    SameJob time' p q where
  burst := h.burst
  remain := h.remain
  ended := h.ended
  finish := h.finish
  arrived := by
    have := h.arrived
    omega

namespace Matched

theorem ready_iff (h : Matched e s t) (i : Fin n) : t.Ready (e i) ↔ s.Ready i := by
  have harrived := (h.job i).arrived
  rw [Sim.Ready, Sim.Ready, (h.job i).ended, h.time, ← max_eq_right_iff, harrived, max_eq_right_iff]

theorem complete (h : Matched e s t) : Matched e s.complete t.complete := by
  have hrunning := h.running
  unfold Sim.complete
  cases hrun : s.running with
  | none =>
    rw [hrun, Option.map_none] at hrunning
    simp only [hrunning]
    exact h
  | some i =>
    rw [hrun, Option.map_some] at hrunning
    simp only [hrunning, (h.job i).remain]
    split
    · refine ⟨sameJob_update e i ?_ fun j _ => h.job j, ?_, h.time, rfl⟩
      · obtain ⟨hburst, hremain, -, -, harrived⟩ := h.job i
        exact ⟨hburst, hremain, rfl, fun _ => by simp [h.time], harrived⟩
      · simp only [h.finCnt]
    · exact h

theorem slot (h : Matched e s t) (o : Option (Fin n)) :
    Matched e (s.slot o) (t.slot (o.map e)) := by
  cases o with
  | none =>
    refine ⟨fun i => (h.job i).later (Nat.le_succ _), h.finCnt, ?_, h.running⟩
    simp [Sim.slot, Sim.idle, h.time]
  | some i =>
    simp only [Option.map_some, Sim.slot, Sim.resume_execute]
    refine ⟨sameJob_update e i ?_ fun j _ => (h.job j).later (Nat.le_succ _), h.finCnt, ?_, rfl⟩
    · obtain ⟨hburst, hremain, hended, hfinish, harrived⟩ := (h.job i).later (Nat.le_succ _)
      exact ⟨hburst, by simp [Process.afterSlot, hremain], hended, hfinish, harrived⟩
    · simp only [h.time]

/-- Two ready processes with the same burst time that have not started can be matched. -/
theorem swap (h : Matched e s t) (hs : OnePiece s) (ht : OnePiece t) (hrun : s.running = none)
    {i k : Fin n} (hi : s.Ready i) (hk : t.Ready k) (hburst : (t.list k).burst = (s.list i).burst) :
    ∃ e', Matched e' s t ∧ e' i = k := by
  have hrun' : t.running = none := by rw [h.running, hrun, Option.map_none]
  -- a process that is ready and has not started is determined by its burst time
  have hready : ∀ j l, s.Ready j → t.Ready l → (t.list l).burst = (s.list j).burst →
      SameJob s.time (s.list j) (t.list l) := by
    intro j l hj hl heq
    have hfull := hs.untouched j hj.2 (by simp [hrun])
    have hfull' := ht.untouched l hl.2 (by simp [hrun'])
    have harrived := hj.1
    have harrived' := hl.1
    rw [h.time] at harrived'
    exact ⟨heq, by omega, by rw [hj.2, hl.2], fun hne => absurd hj.2 hne, by omega⟩
  refine ⟨e.trans (Equiv.swap (e i) k), ⟨?_, h.finCnt, h.time, by simp [hrun, hrun']⟩, by simp⟩
  intro j
  rw [Equiv.trans_apply]
  by_cases hji : j = i
  · rw [hji, Equiv.swap_apply_left]
    exact hready i k hi hk hburst
  · by_cases hjk : e j = k
    · have hj : s.Ready j := (h.ready_iff j).mp (hjk ▸ hk)
      rw [hjk, Equiv.swap_apply_right]
      apply hready j (e i) hj ((h.ready_iff i).mpr hi)
      rw [(h.job i).burst, ← hburst, ← hjk, (h.job j).burst]
    · rw [Equiv.swap_apply_of_ne_of_ne (e.injective.ne hji) hjk]
      exact h.job j

/-- Both runs give the slot to matched processes, after a change of the matching if need be. -/
theorem select (h : Matched e s t) (hset : Settled L s) (hset' : Settled L' t) (hs : OnePiece s)
    (ht : OnePiece t) (hmax : ∀ i, (L i).burst < INT_MAX) (hmax' : ∀ i, (L' i).burst < INT_MAX) :
    ∃ e', Matched e' s t ∧ t.running.or (t.scanMin Process.burst) =
      (s.running.or (s.scanMin Process.burst)).map e' := by
  obtain ⟨hready, hnone⟩ := selects_scanMin_burst hmax s hset
  obtain ⟨hready', hnone'⟩ := selects_scanMin_burst hmax' t hset'
  cases hrun : s.running with
  | some i => exact ⟨e, h, by rw [h.running, hrun]; rfl⟩
  | none =>
    have hrun' : t.running = none := by rw [h.running, hrun, Option.map_none]
    rw [hrun', Option.none_or, Option.none_or]
    cases hscan : s.scanMin Process.burst with
    | none =>
      refine ⟨e, h, ?_⟩
      cases hscan' : t.scanMin Process.burst with
      | none => rfl
      | some k =>
        have hk := (h.ready_iff (e.symm k)).mp (by rw [e.apply_symm_apply]; exact hready' k hscan')
        exact absurd hk (hnone hscan _)
    | some i =>
      have hi := hready i hscan
      cases hscan' : t.scanMin Process.burst with
      | none => exact absurd ((h.ready_iff i).mpr hi) (hnone' hscan' _)
      | some k =>
        have hk := hready' k hscan'
        -- the least burst time is the same in both runs
        have hburst : (t.list k).burst = (s.list i).burst := by
          have hle := (Sim.scanMin_eq_some hscan).2 (e.symm k)
            ((h.ready_iff _).mp (by rwa [e.apply_symm_apply]))
          have hle' := (Sim.scanMin_eq_some hscan').2 (e i) ((h.ready_iff i).mpr hi)
          have hi' := (h.job i).burst
          have hk' := (h.job (e.symm k)).burst
          rw [e.apply_symm_apply] at hk'
          unfold Sim.Precedes at hle hle'
          omega
        obtain ⟨e', h', hik⟩ := h.swap hs ht hrun hi hk hburst
        exact ⟨e', h', by rw [Option.map_some, hik]⟩

end Matched

/-- Two runs of `SJF` at the beginning of a tick. -/
structure MatchedRuns (L L' : Fin n → Process) (s t : Sim n) : Prop where
  matched : ∃ e, Matched e s t
  inv : Inv L s
  inv' : Inv L' t
  piece : OnePiece s
  piece' : OnePiece t

theorem MatchedRuns.tick (h : MatchedRuns L L' s t) (hL : Input L) (hL' : Input L')
    (hlt : s.finCnt < n) : MatchedRuns L L' (sjfTick s) (sjfTick t) := by
  obtain ⟨⟨e, hmatched⟩, hinv, hinv', hpiece, hpiece'⟩ := h
  have hlt' : t.finCnt < n := by rwa [hmatched.finCnt]
  have hset := hinv.complete hlt
  have hset' := hinv'.complete hlt'
  obtain ⟨e', hmatched', hchoice⟩ := hmatched.complete.select hset hset' hpiece.complete
    hpiece'.complete hL.bound hL'.bound
  have hsjf : sjfTick s = _ :=
    nonPreemptiveTick_eq hset hpiece.complete fun i hi => (Sim.scanMin_eq_some hi).1
  have hsjf' : sjfTick t = _ :=
    nonPreemptiveTick_eq hset' hpiece'.complete fun i hi => (Sim.scanMin_eq_some hi).1
  obtain ⟨hstep, hrest⟩ :=
    nonPreemptiveTick_step (selects_scanMin_burst hL.bound) hinv hpiece hlt
  obtain ⟨hstep', hrest'⟩ :=
    nonPreemptiveTick_step (selects_scanMin_burst hL'.bound) hinv' hpiece' hlt'
  refine ⟨⟨e', ?_⟩, (hinv.step hL.burst hlt hstep).1, (hinv'.step hL'.burst hlt' hstep').1, hrest,
    hrest'⟩
  rw [hsjf, hsjf', hchoice]
  exact hmatched'.slot _

/-! ## The sums -/

/-- The sum of the waiting times of a result. -/
def totalWaiting (r : Result n) : ℤ := ∑ i, (r.list i).waiting

/-- The two sums differ by the sum of the burst times. -/
theorem Valid.totalWaiting_eq {r : Result n} (h : Valid r)
    (hinput : ∀ i, (r.list i).input = (L i).input) :
    totalWaiting r = totalTurnaround r - ∑ i, (L i).burst := by
  rw [totalWaiting, totalTurnaround, ← Finset.sum_sub_distrib]
  refine Finset.sum_congr rfl fun i _ => ?_
  have hburst : (r.list i).burst = (L i).burst := (Prod.mk.inj (Prod.mk.inj (hinput i)).2).2
  have := h.turnaround i
  omega

theorem Input.comp (h : Input L) (e : Equiv.Perm (Fin n)) : Input (L ∘ e) where
  loaded i := h.loaded (e i)
  arrival i := h.arrival (e i)
  burst i := h.burst (e i)
  bound i := h.bound (e i)

/-- The sum of the turnaround times of `SJF` does not depend on the order. -/
theorem sjf_totalTurnaround_comp (h : Input L) (e : Equiv.Perm (Fin n)) {r r' : Result n}
    (hr : Returns (sjf L) r) (hr' : Returns (sjf (L ∘ e)) r') :
    totalTurnaround r' = totalTurnaround r := by
  have h' := h.comp e
  obtain ⟨s, hrun, hinv, hpiece, hdone⟩ :=
    nonPreemptive_returns (selects_scanMin_burst h.bound) h.loaded h.burst
  obtain ⟨t, hrun', hinv', -⟩ :=
    nonPreemptive_returns (selects_scanMin_burst h'.bound) h'.loaded h'.burst
  have hruns : MatchedRuns L (L ∘ e) s t := by
    apply rel_of_returns (MatchedRuns L (L ∘ e)) _ _ _ hrun hrun'
    · rintro s t ⟨⟨e', hmatched⟩, -⟩
      simp [Sim.active, hmatched.finCnt]
    · intro s t hst hactive
      have hlt : s.finCnt < n := by simpa [Sim.active] using hactive
      exact ⟨_, _, rfl, rfl, hst.tick h h' hlt⟩
    · refine ⟨⟨e.symm, ⟨fun i => ?_, rfl, rfl, rfl⟩⟩, inv_start h.loaded h.burst,
        inv_start h'.loaded h'.burst, onePiece_start h.loaded, onePiece_start h'.loaded⟩
      simp only [Sim.start, comp_apply, Equiv.apply_symm_apply]
      exact ⟨rfl, rfl, rfl, fun _ => rfl, rfl⟩
  obtain ⟨e', hmatched⟩ := hruns.matched
  obtain rfl := (hrun.map _).unique hr
  obtain rfl := (hrun'.map _).unique hr'
  have hfinish : ∑ i, (t.list i).finish = ∑ i, (s.list i).finish := by
    rw [← Equiv.sum_comp e' fun i => (t.list i).finish]
    exact Finset.sum_congr rfl fun i _ => (hmatched.job i).finish (hinv.ended hdone i)
  have harrival : ∑ i, (t.list i).arrival = ∑ i, (s.list i).arrival := by
    rw [Finset.sum_congr rfl fun i _ => hinv'.arrival i,
      Finset.sum_congr rfl fun i _ => hinv.arrival i]
    exact Equiv.sum_comp e fun i => (L i).arrival
  show ∑ i, ((t.list i).finish - (t.list i).arrival) = ∑ i, ((s.list i).finish - (s.list i).arrival)
  rw [Finset.sum_sub_distrib, Finset.sum_sub_distrib, hfinish, harrival]

/-- The sum of the turnaround times of `SRTF` does not depend on the order. -/
theorem srtf_totalTurnaround_comp (h : Input L) (e : Equiv.Perm (Fin n)) {r r' : Result n}
    (hr : Returns (srtf L) r) (hr' : Returns (srtf (L ∘ e)) r') :
    totalTurnaround r' = totalTurnaround r := by
  have h' := h.comp e
  obtain ⟨r₁, hrun, -, -, S, hS, hshort⟩ := srtf_spec h
  obtain ⟨r₂, hrun', -, -, S', hS', hshort'⟩ := srtf_spec h'
  obtain rfl := hrun.unique hr
  obtain rfl := hrun'.unique hr'
  have harrival : ∀ i, arrivals (L ∘ e) (e.symm i) = arrivals L i := fun i => by simp [arrivals]
  have hburst : ∀ i, bursts (L ∘ e) (e.symm i) = bursts L i := fun i => by simp [bursts]
  apply le_antisymm
  · exact hS'.totalTurnaround_le hshort' h'.arrival (hS.relabel e.symm harrival hburst)
  · exact hS.totalTurnaround_le hshort h.arrival (hS'.relabel e (fun _ => rfl) fun _ => rfl)

/-- The averages of `SJF` and `SRTF` do not depend on the order of the lines of the input file. -/
theorem sums_independent_of_order (list : Fin n → Process) (h : Input list)
    (e : Equiv.Perm (Fin n)) :
    (∃ r r', Returns (sjf list) r ∧ Returns (sjf (list ∘ e)) r' ∧ totalWaiting r' = totalWaiting r ∧
      totalTurnaround r' = totalTurnaround r) ∧
    ∃ r r', Returns (srtf list) r ∧ Returns (srtf (list ∘ e)) r' ∧
      totalWaiting r' = totalWaiting r ∧
      totalTurnaround r' = totalTurnaround r := by
  have hburst : ∑ i, ((list ∘ e) i).burst = ∑ i, (list i).burst :=
    Equiv.sum_comp e fun i => (list i).burst
  constructor
  · obtain ⟨r, hr, hinput, hvalid, -⟩ := sjf_spec h
    obtain ⟨r', hr', hinput', hvalid', -⟩ := sjf_spec (h.comp e)
    have hturnaround := sjf_totalTurnaround_comp h e hr hr'
    refine ⟨r, r', hr, hr', ?_, hturnaround⟩
    rw [hvalid'.totalWaiting_eq hinput', hvalid.totalWaiting_eq hinput, hburst, hturnaround]
  · obtain ⟨r, hr, hinput, hvalid, -⟩ := srtf_spec h
    obtain ⟨r', hr', hinput', hvalid', -⟩ := srtf_spec (h.comp e)
    have hturnaround := srtf_totalTurnaround_comp h e hr hr'
    refine ⟨r, r', hr, hr', ?_, hturnaround⟩
    rw [hvalid'.totalWaiting_eq hinput', hvalid.totalWaiting_eq hinput, hburst, hturnaround]

theorem sums_independent_of_order_twoProcesses :
    Input twoProcesses ∧ ∃ r r', Returns (sjf twoProcesses) r ∧
      Returns (sjf (twoProcesses ∘ Fin.revPerm)) r' ∧ totalWaiting r' = totalWaiting r := by
  obtain ⟨⟨r, r', hr, hr', hwaiting, -⟩, -⟩ :=
    sums_independent_of_order twoProcesses input_twoProcesses Fin.revPerm
  exact ⟨input_twoProcesses, r, r', hr, hr', hwaiting⟩

end SchoolOS.CpuScheduler
