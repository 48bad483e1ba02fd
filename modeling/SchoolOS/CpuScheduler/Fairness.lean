import SchoolOS.CpuScheduler.QueueBounds
import SchoolOS.Lib.Turns
import Mathlib.Logic.Relation
import Mathlib.Tactic.Linarith

/-!
# `RR` is fair

A tick of `RR` is made of at most four moves (`RrInv.moves`): arrivals are pushed; the running
process is completed, or goes back to the end of the queue; the first process of the queue is
popped; and one slot is used, or left empty. Each property below is shown to survive every move.

* `Serving`: the chart consists of one piece of `min q (time left)` slots for each pop, and of empty
  slots between the pieces.
* `Spread`: between two pops of a process no other process is popped twice, because what stands in
  the queue when a process is pushed has no duplicates.
* `Waits`: the time that a process has waited, together with the slots that are still ahead of it,
  is at most `(n - 1) * q` for each of its pops.
-/

namespace SchoolOS.CpuScheduler

open Function Loop

variable {n : ℕ} {L : Fin n → Process} {q : ℤ} {total : ℕ} {s s' : Rr n}

/-! ## The moves of a tick -/

/-- The state after the slice of process `i` is used up. -/
def Rr.expired (s : Rr n) (i : Fin n) : Rr n :=
  { s.pushed i with toSim := { s.toSim with running := none } }

/-- One move of a tick. -/
inductive Move (q : ℤ) (s : Rr n) : Rr n → Prop
  | arrive : (∀ i ∈ s.arriving, i ∉ s.waiting ∧ s.running ≠ some i ∧ 1 ≤ (s.list i).remain ∧
      some i ∉ s.chart) → Move q s s.arrived
  | complete {i : Fin n} : s.running = some i → (s.list i).remain = 0 → Move q s s.completed
  | expire {i : Fin n} : s.running = some i → 1 ≤ (s.list i).remain → s.curSlice = 0 →
    Move q s (s.expired i)
  | idle : s.running = none → s.waiting = [] →
    Move q s { s with toSim := s.toSim.idle, curSlice := q }
  | dispatch {i : Fin n} {rest : List (Fin n)} : s.running = none → s.waiting = i :: rest →
    1 ≤ (s.list i).remain → Move q s (Rr.dispatch { s with curSlice := q } i)
  | execute {i : Fin n} : s.running = some i → 1 ≤ (s.list i).remain → 1 ≤ s.curSlice →
    Move q s (s.execute i)

/-- What `Released` says of the state after `release`, with room for every push. -/
theorem RrInv.released (h : RrInv L q total s) (hburst : ∀ i, 1 ≤ (L i).burst) (hq : 1 ≤ q)
    (hlt : s.finCnt < n) : Released q total s.arrived s.arrived.released := by
  obtain ⟨-, hqueue, hwait⟩ := h.pushArrivals hburst hq le_rfl hlt
  obtain ⟨s', hrelease, hrel⟩ :=
    release_spec (s := s.arrived) h.inv hburst hlt hqueue hq le_rfl hwait
  have hle : s.arrived.queue.length ≤ total := by
    have := hqueue.potential
    omega
  -- the overrun of the array is the only way not to get a state
  rw [Rr.release_eq hle] at hrelease
  split at hrelease
  · obtain rfl := Option.some.inj hrelease
    exact hrel
  · simp at hrelease

theorem RrInv.move_arrive (h : RrInv L q total s) (hburst : ∀ i, 1 ≤ (L i).burst)
    (hlt : s.finCnt < n) : Move q s s.arrived := by
  refine .arrive fun i hi => ?_
  have htime : (s.time : ℤ) = (s.list i).arrival := by simpa [Rr.arriving] using hi
  obtain ⟨hwait, hrun, hrem, -⟩ := h.arriving hburst hlt htime
  exact ⟨hwait, hrun, hrem, h.inv.notMem_chart hlt htime⟩

theorem moves_released (hnonneg : ∀ i, 0 ≤ (s.list i).remain) :
    Relation.ReflTransGen (Move q) s s.released := by
  unfold Rr.released
  split
  · exact .refl
  · rename_i i hrun
    have hremain := hnonneg i
    split
    · rename_i hzero
      exact .single (.complete hrun hzero)
    · split
      · rename_i hempty
        exact .single (.expire hrun (by omega) hempty)
      · exact .refl

/-- The slot goes to the running process, or to the first process of the queue. -/
theorem Released.moves_choose (h : Released q total s s')
    (hremain : ∀ i, s.toSim.complete.Ready i → 1 ≤ (s'.list i).remain)
    (hready : ∀ i, s.toSim.complete.running = some i → s.toSim.complete.Ready i) (hq : 1 ≤ q) :
    Relation.ReflTransGen (Move q) s' (s'.choose q) := by
  rcases s'.choose_cases q with ⟨i, hrun, heq⟩ | ⟨hrun, hhead, heq⟩ | ⟨i, hrun, hhead, heq⟩
  · obtain ⟨hcrun, hslice⟩ := h.running i hrun
    rw [heq]
    exact .single (.execute hrun (hremain i (hready i hcrun)) hslice)
  · rw [heq]
    exact .single (.idle hrun (List.drop_of_length_le (List.getElem?_eq_none_iff.mp hhead)))
  · -- two moves: the pop, and the first slot of the slice
    have hwait := waiting_eq_cons hhead
    have hi := hremain i ((h.waiting i).mp (by simp [hwait])).1
    rw [heq]
    refine (Relation.ReflTransGen.single (.dispatch hrun hwait hi)).tail (.execute ?_ ?_ hq)
    · exact Sim.resume_running _ i
    · show 1 ≤ ((s'.toSim.resume i).list i).remain
      rw [Sim.resume_remain]
      exact hi

/-- A tick is a sequence of moves. -/
theorem RrInv.moves (h : RrInv L q total s) (hburst : ∀ i, 1 ≤ (L i).burst) (hq : 1 ≤ q)
    (hlt : s.finCnt < n) : Relation.ReflTransGen (Move q) s (s.next q) := by
  have hrel := h.released hburst hq hlt
  have hset : Settled L s.arrived.toSim.complete := h.inv.complete hlt
  -- whoever is ready after a completion has time left, or it would have been completed
  have hremain : ∀ i, s.arrived.toSim.complete.Ready i →
      1 ≤ (s.arrived.released.list i).remain := by
    intro i hready
    have hne := hset.pending i hready.2
    have hnonneg := hset.remain_nonneg hburst i
    rw [hrel.sim]
    show 1 ≤ (s.arrived.toSim.complete.list i).remain
    omega
  have hrelease : Relation.ReflTransGen (Move q) s s.arrived.released :=
    .head (h.move_arrive hburst hlt) (moves_released (h.inv.remain_nonneg hburst))
  exact hrelease.trans (hrel.moves_choose hremain (fun i => hset.ready_of_running) hq)

/-! ## The queue -/

namespace Rr

/-- The processes that have been popped, in this order. -/
def pops (s : Rr n) : List (Fin n) := s.queue.take s.head

theorem pops_append_waiting (s : Rr n) : s.pops ++ s.waiting = s.queue := List.take_append_drop _ _

theorem pops_arrived (h : s.head ≤ s.queue.length) : s.arrived.pops = s.pops :=
  List.take_append_of_le_length h

theorem pops_expired (h : s.head ≤ s.queue.length) (i : Fin n) : (s.expired i).pops = s.pops :=
  List.take_append_of_le_length h

theorem waiting_expired (h : s.head ≤ s.queue.length) (i : Fin n) :
    (s.expired i).waiting = s.waiting ++ [i] :=
  waiting_pushed h i

section Dispatch

variable {i : Fin n} {rest : List (Fin n)}

theorem waiting_dispatch (h : s.waiting = i :: rest) (c : ℤ) :
    (Rr.dispatch { s with curSlice := c } i).waiting = rest := by
  show s.queue.drop (s.head + 1) = rest
  rw [← List.drop_drop, ← waiting, h]
  rfl

theorem pops_dispatch (h : s.waiting = i :: rest) (c : ℤ) :
    (Rr.dispatch { s with curSlice := c } i).pops = s.pops ++ [i] := by
  have hlt := head_lt h
  have hget : s.queue[s.head] = i := by
    rw [waiting, List.drop_eq_getElem_cons hlt] at h
    exact (List.cons.inj h).1
  show s.queue.take (s.head + 1) = s.queue.take s.head ++ [i]
  rw [List.take_add_one, List.getElem?_eq_getElem hlt, hget]
  rfl

end Dispatch

theorem completed_eq {i : Fin n} (hrun : s.running = some i) (hzero : (s.list i).remain = 0) :
    s.completed =
      { s with
        list := update s.list i ((s.list i).exit s.time)
        running := none
        finCnt := s.finCnt + 1 } := by
  simp [completed, Sim.complete, hrun, hzero]

end Rr

/-- What every move keeps: the queue invariant, and the time left is what the chart says. -/
structure Base (L : Fin n → Process) (q : ℤ) (total : ℕ) (s : Rr n) : Prop extends
    QueueInv q total s where
  slice_le : s.running ≠ none → s.curSlice ≤ q
  burst : ∀ i, (s.list i).burst = (L i).burst
  remain : ∀ i, (s.list i).remain = timeLeft (bursts L) s.chart i

theorem timeLeft_idle (s : Sim n) (i : Fin n) :
    timeLeft (bursts L) s.idle.chart i = timeLeft (bursts L) s.chart i := by
  unfold Sim.idle timeLeft
  split
  · simp
  · rfl

namespace Base

theorem arrive (h : Base L q total s) (hq : 1 ≤ q)
    (hnew : ∀ i ∈ s.arriving, i ∉ s.waiting ∧ s.running ≠ some i ∧ 1 ≤ (s.list i).remain ∧
      some i ∉ s.chart) : Base L q total s.arrived := by
  have hspec := pushArrivals_spec h.toQueueInv hq le_rfl fun i hi => by
    obtain ⟨hwait, hrun, hrem, -⟩ := hnew i (by simpa [Rr.arriving] using hi)
    exact ⟨hwait, hrun, hrem⟩
  exact ⟨hspec.2, h.slice_le, h.burst, h.remain⟩

theorem complete {i : Fin n} (h : Base L q total s) (hq : 1 ≤ q) (hrun : s.running = some i)
    (hzero : (s.list i).remain = 0) : Base L q total s.completed := by
  have hremain := s.toSim.complete_remain
  have heq := Rr.completed_eq hrun hzero
  refine ⟨?_, by simp [heq], fun j => ?_, fun j => ?_⟩
  · exact h.stop hrun rfl (by simp [heq]) hremain (Or.inl ⟨rfl, hzero.le⟩) hq
  · rw [heq, ← h.burst j]
    exact field_update Process.burst s.list i ((s.list i).exit s.time) rfl j
  · rw [heq, ← h.remain j]
    exact field_update Process.remain s.list i ((s.list i).exit s.time) rfl j

theorem expire {i : Fin n} (h : Base L q total s) (hq : 1 ≤ q) (hrun : s.running = some i)
    (hrem : 1 ≤ (s.list i).remain) (hempty : s.curSlice = 0) : Base L q total (s.expired i) := by
  refine ⟨?_, by simp [Rr.expired], h.burst, h.remain⟩
  exact h.stop hrun rfl rfl (fun _ => rfl) (Or.inr ⟨rfl, hempty, hrem⟩) hq

theorem idle (h : Base L q total s) (hrun : s.running = none) :
    Base L q total { s with toSim := s.toSim.idle, curSlice := q } := by
  refine ⟨h.congr rfl rfl rfl (fun hne => absurd hrun hne) (fun _ => rfl), fun _ => le_rfl, h.burst,
    fun j => ?_⟩
  rw [timeLeft_idle]
  exact h.remain j

theorem dispatch {i : Fin n} {rest : List (Fin n)} (h : Base L q total s) (hq : 1 ≤ q)
    (hrun : s.running = none) (hwait : s.waiting = i :: rest) (hrem : 1 ≤ (s.list i).remain) :
    Base L q total (Rr.dispatch { s with curSlice := q } i) := by
  have hsim : (Rr.dispatch { s with curSlice := q } i).toSim = s.toSim.resume i := rfl
  have hremain :
      ∀ j, ((Rr.dispatch { s with curSlice := q } i).list j).remain = (s.list j).remain :=
    s.toSim.resume_remain i
  refine ⟨?_, fun _ => le_rfl, fun j => ?_, fun j => ?_⟩
  · exact h.toQueueInv.dispatch hq hrun hwait hrem rfl rfl (s.toSim.resume_running i) rfl hremain
  · rw [hsim, Sim.resume_eq, ← h.burst j]
    exact field_update Process.burst s.list i ((s.list i).resumed s.time) rfl j
  · rw [hremain j, h.remain j, hsim, Sim.resume_eq]

theorem execute {i : Fin n} (h : Base L q total s) (hrun : s.running = some i)
    (hslice : 1 ≤ s.curSlice) : Base L q total (s.execute i) := by
  refine ⟨h.toQueueInv.execute hrun hslice, fun hne => ?_, fun j => ?_, fun j => ?_⟩
  · have hle := h.slice_le hne
    show s.curSlice - 1 ≤ q
    omega
  · rw [← h.burst j]
    exact field_update Process.burst s.list i
      { s.list i with remain := (s.list i).remain - 1 } rfl j
  · -- the time left and the chart change by the same slot
    have hleft := timeLeft_append_replicate (bursts L) s.chart i j 1
    show (update s.list i _ j).remain = timeLeft (bursts L) (s.chart ++ List.replicate 1 (some i)) j
    rw [hleft, ← h.remain j]
    by_cases hji : j = i
    · simp [hji]
    · simp [hji, Ne.symm hji]

theorem move (h : Base L q total s) (hq : 1 ≤ q) (hmove : Move q s s') : Base L q total s' := by
  cases hmove with
  | arrive hnew => exact h.arrive hq hnew
  | complete hrun hzero => exact h.complete hq hrun hzero
  | expire hrun hrem hempty => exact h.expire hq hrun hrem hempty
  | idle hrun _ => exact h.idle hrun
  | dispatch hrun hwait hrem => exact h.dispatch hq hrun hwait hrem
  | execute hrun _ hslice => exact h.execute hrun hslice

end Base

/-! ## The pieces of the chart -/

/-- The chart consists of the pieces of the pops. The piece of the running process is still going
on: `k` slots of it have been used. -/
structure Serving (L : Fin n → Process) (q : ℤ) (s : Rr n) : Prop where
  rest : s.running = none → Served (bursts L) q s.pops s.chart
  piece : ∀ i, s.running = some i → ∃ pops chart, ∃ k : ℕ, s.pops = pops ++ [i] ∧
    s.chart = chart ++ List.replicate k (some i) ∧ Served (bursts L) q pops chart ∧
    k + s.curSlice = q ∧ k ≤ timeLeft (bursts L) chart i ∧ 1 ≤ timeLeft (bursts L) chart i

/-- A piece is over when the process has used all its time, or `q` slots. -/
theorem Serving.over (h : Serving L q s) (hbase : Base L q total s) {i : Fin n}
    (hrun : s.running = some i) (hover : (s.list i).remain = 0 ∨ s.curSlice = 0) :
    Served (bursts L) q s.pops s.chart := by
  obtain ⟨pops, chart, k, hpops, hchart, hserved, hk, hle, hleft⟩ := h.piece i hrun
  have hslice := hbase.slice (by simp [hrun])
  have hremain : (s.list i).remain = timeLeft (bursts L) chart i - k := by
    rw [hbase.remain i, hchart, timeLeft_append_replicate, if_pos rfl]
  -- `k` slots were used, and either nothing of the slice or nothing of the time is left
  have hlength : (min q (timeLeft (bursts L) chart i)).toNat = k := by omega
  rw [hpops, hchart, ← hlength]
  exact hserved.slice hleft

theorem Serving.move (h : Serving L q s) (hbase : Base L q total s) (hmove : Move q s s') :
    Serving L q s' := by
  cases hmove with
  | arrive hnew =>
    have hpops := Rr.pops_arrived hbase.head_le
    refine ⟨fun hrun => ?_, fun i hrun => ?_⟩
    · rw [hpops]
      exact h.rest hrun
    · rw [hpops]
      exact h.piece i hrun
  | @complete i hrun hzero =>
    rw [Rr.completed_eq hrun hzero]
    exact ⟨fun _ => h.over hbase hrun (Or.inl hzero), by simp⟩
  | @expire i hrun hrem hempty =>
    refine ⟨fun _ => ?_, by simp [Rr.expired]⟩
    rw [Rr.pops_expired hbase.head_le]
    exact h.over hbase hrun (Or.inr hempty)
  | idle hrun hempty =>
    refine ⟨fun _ => ?_, by simp [Sim.idle, hrun]⟩
    show Served (bursts L) q s.pops s.toSim.idle.chart
    unfold Sim.idle
    split
    · exact (h.rest hrun).idle
    · exact h.rest hrun
  | @dispatch i rest hrun hwait hrem =>
    have hsim : (Rr.dispatch { s with curSlice := q } i).toSim = s.toSim.resume i := rfl
    refine ⟨?_, ?_⟩
    · rw [hsim, Sim.resume_running]
      simp
    · rw [hsim, Sim.resume_running, Rr.pops_dispatch hwait, Sim.resume_eq]
      -- the new piece is still empty
      rintro _ ⟨⟩
      have hleft := hbase.remain i ▸ hrem
      exact ⟨s.pops, s.chart, 0, rfl, by simp, h.rest hrun, by simp [Rr.dispatch], by omega, hleft⟩
  | @execute i hrun hrem hslice =>
    refine ⟨fun hnone => by simp [Rr.execute, Sim.execute, hrun] at hnone, fun j hj => ?_⟩
    obtain rfl : i = j := Option.some.inj (hrun.symm.trans hj)
    obtain ⟨pops, chart, k, hpops, hchart, hserved, hk, hle, hleft⟩ := h.piece i hrun
    -- the slot is in the piece of `i`, so `k` is still at most the time it had at the pop
    have hremain : (s.list i).remain = timeLeft (bursts L) chart i - k := by
      rw [hbase.remain i, hchart, timeLeft_append_replicate, if_pos rfl]
    refine ⟨pops, chart, k + 1, hpops, ?_, hserved, ?_, ?_, hleft⟩
    · show s.chart ++ [some i] = _
      rw [hchart, List.append_assoc, ← List.replicate_succ']
    · show ((k + 1 : ℕ) : ℤ) + (s.curSlice - 1) = q
      omega
    · omega

/-- A process that has been popped and is not running has had a slot. -/
theorem Serving.mem_chart (h : Serving L q s) (hq : 1 ≤ q) {i : Fin n} (hi : i ∈ s.pops)
    (hrun : s.running ≠ some i) : some i ∈ s.chart := by
  cases hrunning : s.running with
  | none => exact ((h.rest hrunning).mem_iff hq i).mp hi
  | some j =>
    obtain ⟨pops, chart, k, hpops, hchart, hserved, -⟩ := h.piece j hrunning
    have hne : i ≠ j := fun hij => hrun (hij ▸ hrunning)
    rw [hpops] at hi
    have hmem : i ∈ pops := by simpa [hne] using hi
    rw [hchart]
    exact List.mem_append_left _ ((hserved.mem_iff hq i).mp hmem)

/-- `burst == remain` holds for the processes that have not been popped yet. -/
theorem Serving.burst_eq_remain_iff (h : Serving L q s) (hbase : Base L q total s) (hq : 1 ≤ q)
    (hrun : s.running = none) (i : Fin n) :
    (s.list i).burst = (s.list i).remain ↔ i ∉ s.pops := by
  rw [(h.rest hrun).mem_iff hq, ← List.count_eq_zero, hbase.burst, hbase.remain, timeLeft, bursts]
  omega

/-! ## Between two pops -/

theorem spread_move (h : Spread s.queue) (hbase : Base L q total s) (hserving : Serving L q s)
    (hq : 1 ≤ q) (hmove : Move q s s') : Spread s'.queue := by
  cases hmove with
  | arrive hnew =>
    -- a process that arrives has been pushed by nobody: it has no slot yet and does not wait
    apply h.append_new ((List.nodup_finRange n).filter _)
    intro i hi hmem
    obtain ⟨hwait, hrun, -, hchart⟩ := hnew i hi
    rw [← s.pops_append_waiting] at hmem
    rcases List.mem_append.mp hmem with hmem | hmem
    · exact hchart (hserving.mem_chart hq hmem hrun)
    · exact hwait hmem
  | @expire i hrun hrem hempty =>
    -- the process that expires has been popped last, and the waiting processes are all different
    obtain ⟨pops, -, -, hpops, -⟩ := hserving.piece i hrun
    have hqueue : s.queue = pops ++ i :: s.waiting := by
      rw [← s.pops_append_waiting, hpops, List.append_assoc]
      rfl
    show Spread (s.queue ++ [i])
    rw [hqueue] at h ⊢
    exact h.concat_again (fun hi => hbase.apart i hi hrun) hbase.nodup
  | complete hrun hzero => exact h
  | idle hrun hempty => exact h
  | dispatch hrun hwait hrem => exact h
  | execute hrun hrem hslice => exact h

/-! ## Waiting times -/

/-- The time that a process has waited since its arrival. -/
def Process.waited (p : Process) (time : ℤ) : ℤ := time - p.arrival - (p.burst - p.remain)

/-- The slots that may be used before process `i` of the queue gets its next one: those left in the
running slice, and one slice for each process in front of `i`. -/
def Rr.ahead (q : ℤ) (s : Rr n) (i : Fin n) : ℤ :=
  (if s.running = none then 0 else s.curSlice) + q * s.waiting.idxOf i

theorem turn_nonneg (i : Fin n) (hq : 1 ≤ q) : 0 ≤ ((n : ℤ) - 1) * q := by
  have hn := i.pos
  exact mul_nonneg (by omega) (by omega)

/-- There are at most `n - 1` slices in front of a process. -/
theorem Base.ahead_le (h : Base L q total s) (hq : 1 ≤ q) {i : Fin n} (hi : i ∈ s.waiting) :
    s.ahead q i ≤ (n - 1) * q := by
  have hidx := List.idxOf_lt_length_of_mem hi
  unfold Rr.ahead
  cases hrun : s.running with
  | none =>
    have hlength := h.nodup.length_le_card
    rw [Fintype.card_fin] at hlength
    have hle : (s.waiting.idxOf i : ℤ) ≤ n - 1 := by omega
    rw [if_pos rfl]
    nlinarith
  | some r =>
    -- the running process takes one of the `n` places
    have hnodup : (r :: s.waiting).Nodup :=
      List.nodup_cons.mpr ⟨fun hr => h.apart r hr hrun, h.nodup⟩
    have hlength := hnodup.length_le_card
    rw [Fintype.card_fin, List.length_cons] at hlength
    have hle : (s.waiting.idxOf i : ℤ) ≤ n - 2 := by omega
    have hslice := h.slice_le (by simp [hrun])
    rw [if_neg (by simp)]
    nlinarith

/-- Each pop of a process is preceded by at most `(n - 1) * q` slots of waiting. -/
structure Waits (q : ℤ) (s : Rr n) : Prop where
  waiting : ∀ i ∈ s.waiting,
    (s.list i).waited s.time + s.ahead q i ≤ (n - 1) * q * (s.pops.count i + 1)
  running : ∀ i, s.running = some i → (s.list i).waited s.time ≤ (n - 1) * q * s.pops.count i
  started : ∀ i ∈ s.pops, (s.list i).start - (s.list i).arrival ≤ (n - 1) * q
  finished : ∀ i, (s.list i).ended ≠ 0 →
    (s.list i).finish - (s.list i).arrival - (s.list i).burst ≤ (n - 1) * q * s.pops.count i

namespace Waits

variable {i : Fin n}

theorem arrive (h : Waits q s) (hbase : Base L q total s) (hbase' : Base L q total s.arrived)
    (hq : 1 ≤ q) (hnew : ∀ i ∈ s.arriving, some i ∉ s.chart) : Waits q s.arrived := by
  have hpops := Rr.pops_arrived hbase.head_le
  refine ⟨fun i hi => ?_, fun i hi => ?_, fun i hi => ?_, fun i hi => ?_⟩
  · have hahead := hbase'.ahead_le hq hi
    rw [hpops]
    rw [Rr.waiting_arrived hbase.head_le] at hi
    by_cases hwait : i ∈ s.waiting
    · have hsame : s.arrived.ahead q i = s.ahead q i := by
        rw [Rr.ahead, Rr.waiting_arrived hbase.head_le, List.idxOf_append_of_mem hwait]
        rfl
      rw [hsame]
      exact h.waiting i hwait
    · -- a process that has just arrived has not waited yet
      have harriving : i ∈ s.arriving := (List.mem_append.mp hi).resolve_left hwait
      have htime : (s.time : ℤ) = (s.list i).arrival := by simpa [Rr.arriving] using harriving
      have hcount := List.count_eq_zero.mpr (hnew i harriving)
      have hzero : (s.list i).waited s.time = 0 := by
        rw [Process.waited, hbase.remain i, timeLeft, hcount, hbase.burst i, bursts, htime]
        simp
      show (s.list i).waited s.time + _ ≤ _
      have hturn := turn_nonneg i hq
      rw [hzero]
      nlinarith
  · rw [hpops]
    exact h.running i hi
  · rw [hpops] at hi
    exact h.started i hi
  · rw [hpops]
    exact h.finished i hi

theorem complete (h : Waits q s) (hbase : Base L q total s) (hrun : s.running = some i)
    (hzero : (s.list i).remain = 0) : Waits q s.completed := by
  have hslice := hbase.slice (by simp [hrun])
  have hkeep : ∀ (f : Process → ℤ), f ((s.list i).exit s.time) = f (s.list i) →
      ∀ j, f (update s.list i ((s.list i).exit s.time) j) = f (s.list j) :=
    fun f => field_update f s.list i _
  rw [Rr.completed_eq hrun hzero]
  refine ⟨fun j hj => ?_, by simp, fun j hj => ?_, fun j hj => ?_⟩
  · -- what is left of the slice is not used, so `j` waits less than expected
    have hwaited := hkeep (fun p => p.waited s.time) rfl j
    have hbefore := h.waiting j hj
    rw [Rr.ahead, if_neg (by simp [hrun])] at hbefore
    show (update s.list i ((s.list i).exit s.time) j).waited s.time + (0 + q * s.waiting.idxOf j) ≤
      (n - 1) * q * (s.pops.count j + 1)
    rw [hwaited]
    omega
  · have hstart := hkeep (fun p => p.start - p.arrival) rfl j
    exact hstart.trans_le (h.started j hj)
  · by_cases hji : j = i
    · subst hji
      have hbefore := h.running j hrun
      show _ ≤ ((n : ℤ) - 1) * q * s.pops.count j
      simpa [Process.waited, hzero] using hbefore
    · simp only [update_of_ne hji] at hj ⊢
      exact h.finished j hj

theorem expire (h : Waits q s) (hbase : Base L q total s) (hbase' : Base L q total (s.expired i))
    (hq : 1 ≤ q) (hrun : s.running = some i) (hempty : s.curSlice = 0) : Waits q (s.expired i) := by
  have hpops := Rr.pops_expired hbase.head_le i
  refine ⟨fun j hj => ?_, by simp [Rr.expired], fun j hj => ?_, fun j hj => ?_⟩
  · have hahead := hbase'.ahead_le hq hj
    rw [hpops]
    rw [Rr.waiting_expired hbase.head_le] at hj
    show (s.list j).waited s.time + _ ≤ _
    by_cases hwait : j ∈ s.waiting
    · have hsame : (s.expired i).ahead q j = s.ahead q j := by
        rw [Rr.ahead, Rr.ahead, Rr.waiting_expired hbase.head_le, List.idxOf_append_of_mem hwait]
        simp [Rr.expired, hrun, hempty]
      rw [hsame]
      exact h.waiting j hwait
    · -- the process itself waits for its next pop from now on
      obtain rfl : j = i := by simpa [hwait] using hj
      have hbefore := h.running j hrun
      linarith
  · rw [hpops] at hj
    exact h.started j hj
  · rw [hpops]
    exact h.finished j hj

theorem dispatch (h : Waits q s) (hbase : Base L q total s) (hserving : Serving L q s) (hq : 1 ≤ q)
    (hrun : s.running = none) {rest : List (Fin n)} (hwait : s.waiting = i :: rest) :
    Waits q (Rr.dispatch { s with curSlice := q } i) := by
  have hpops := Rr.pops_dispatch hwait q
  have hwaiting := Rr.waiting_dispatch hwait q
  have hsim : (Rr.dispatch { s with curSlice := q } i).toSim =
      { s.toSim with
        list := update s.list i ((s.list i).resumed s.time), running := some i } :=
          s.toSim.resume_eq i
  have hkeep : ∀ (f : Process → ℤ), f ((s.list i).resumed s.time) = f (s.list i) →
      ∀ j, f (update s.list i ((s.list i).resumed s.time) j) = f (s.list j) :=
    fun f => field_update f s.list i _
  have hnotMem : i ∉ rest := by
    have hnodup := hbase.nodup
    rw [hwait, List.nodup_cons] at hnodup
    exact hnodup.1
  have hself := h.waiting i (by simp [hwait])
  have hahead : s.ahead q i = 0 := by simp [Rr.ahead, hrun, hwait]
  rw [hahead, add_zero] at hself
  refine ⟨fun j hj => ?_, fun j hj => ?_, fun j hj => ?_, fun j hj => ?_⟩
  · -- the slice of `i` is the first of those that were ahead of `j`
    rw [hwaiting] at hj
    have hji : j ≠ i := fun hji => hnotMem (hji ▸ hj)
    have hbefore := h.waiting j (by simp [hwait, hj])
    rw [Rr.ahead, if_pos hrun, hwait, List.idxOf_cons_ne _ hji.symm] at hbefore
    rw [Rr.ahead, hwaiting, hpops, hsim, List.count_append, List.count_singleton]
    simp only [update_of_ne hji, hji.symm, beq_iff_eq, if_false, reduceCtorEq, Nat.add_zero]
    show _ + (q + q * rest.idxOf j) ≤ _
    push_cast at hbefore
    linarith
  · rw [hsim] at hj
    obtain rfl : i = j := Option.some.inj hj
    have hwaited := hkeep (fun p => p.waited s.time) rfl i
    rw [hpops, hsim, List.count_append, List.count_singleton_self]
    push_cast
    exact hwaited.trans_le hself
  · rw [hpops] at hj
    rw [hsim]
    by_cases hji : j = i
    · subst hji
      simp only [update_self, Process.resumed]
      split
      · -- the first pop
        rename_i hfirst
        have hcount :=
          List.count_eq_zero.mpr ((hserving.burst_eq_remain_iff hbase hq hrun j).mp hfirst)
        rw [hcount, Process.waited, hfirst] at hself
        simpa using hself
      · rename_i hagain
        exact h.started j
          (not_not.mp fun hnew => hagain ((hserving.burst_eq_remain_iff hbase hq hrun j).mpr hnew))
    · simp only [update_of_ne hji]
      exact h.started j (by simpa [hji] using hj)
  · have hended := hkeep Process.ended rfl j
    have hfinish := hkeep (fun p => p.finish - p.arrival - p.burst) rfl j
    rw [hsim] at hj ⊢
    have hbefore := h.finished j (hended ▸ hj)
    -- one more pop of `i` only raises the bound
    have hturn := turn_nonneg j hq
    have hcount : (s.pops.count j : ℤ) ≤ (s.pops ++ [i]).count j := by
      rw [List.count_append]
      omega
    rw [hpops]
    exact (hfinish.trans_le hbefore).trans (mul_le_mul_of_nonneg_left hcount hturn)

theorem execute (h : Waits q s) (hbase : Base L q total s) (hrun : s.running = some i) :
    Waits q (s.execute i) := by
  have hkeep : ∀ (f : Process → ℤ),
      f { s.list i with remain := (s.list i).remain - 1 } = f (s.list i) → ∀ j,
      f (update s.list i { s.list i with remain := (s.list i).remain - 1 } j) = f (s.list j) :=
    fun f => field_update f s.list i _
  refine ⟨fun j hj => ?_, fun j hj => ?_, fun j hj => ?_, fun j hj => ?_⟩
  · -- `j` has waited one slot more, and one less is ahead of it
    have hji : j ≠ i := fun hji => hbase.apart j hj (hji ▸ hrun)
    have hbefore := h.waiting j hj
    rw [Rr.ahead, if_neg (by simp [hrun]), Process.waited] at hbefore
    rw [Rr.ahead, if_neg (by simp [Rr.execute, Sim.execute, hrun])]
    simp only [Rr.execute, Sim.execute, update_of_ne hji, Process.waited]
    show _ + (s.curSlice - 1 + q * s.waiting.idxOf j) ≤ ((n : ℤ) - 1) * q * (s.pops.count j + 1)
    push_cast
    linarith
  · obtain rfl : i = j := Option.some.inj (hrun.symm.trans hj)
    have hbefore := h.running i hrun
    rw [Process.waited] at hbefore
    simp only [Rr.execute, Sim.execute, update_self, Process.waited]
    show _ ≤ ((n : ℤ) - 1) * q * s.pops.count i
    push_cast
    linarith
  · have hstart := hkeep (fun p => p.start - p.arrival) rfl j
    exact hstart.trans_le (h.started j hj)
  · have hended := hkeep Process.ended rfl j
    have hfinish := hkeep (fun p => p.finish - p.arrival - p.burst) rfl j
    exact hfinish.trans_le (h.finished j (hended ▸ hj))

theorem move (h : Waits q s) (hbase : Base L q total s) (hbase' : Base L q total s')
    (hserving : Serving L q s) (hq : 1 ≤ q) (hmove : Move q s s') : Waits q s' := by
  cases hmove with
  | arrive hnew => exact h.arrive hbase hbase' hq fun i hi => (hnew i hi).2.2.2
  | complete hrun hzero => exact h.complete hbase hrun hzero
  | expire hrun hrem hempty => exact h.expire hbase hbase' hq hrun hempty
  | idle hrun hempty =>
    refine ⟨fun j hj => ?_, fun j hj => ?_, h.started, h.finished⟩
    · have hmem : j ∈ s.waiting := hj
      simp [hempty] at hmem
    · simp [Sim.idle, hrun] at hj
  | dispatch hrun hwait hrem => exact h.dispatch hbase hserving hq hrun hwait
  | execute hrun hrem hslice => exact h.execute hbase hrun

end Waits

/-! ## Whole runs -/

/-- The properties that every move keeps. -/
structure Fair (L : Fin n → Process) (q : ℤ) (total : ℕ) (s : Rr n) : Prop where
  base : Base L q total s
  serving : Serving L q s
  spread : Spread s.queue
  waits : Waits q s

theorem Fair.move (h : Fair L q total s) (hq : 1 ≤ q) (hmove : Move q s s') :
    Fair L q total s' := by
  have hbase := h.base.move hq hmove
  exact ⟨hbase, h.serving.move h.base hmove, spread_move h.spread h.base h.serving hq hmove,
    h.waits.move h.base hbase h.serving hq hmove⟩

theorem Fair.moves (h : Fair L q total s) (hq : 1 ≤ q)
    (hmoves : Relation.ReflTransGen (Move q) s s') :
    Fair L q total s' := by
  induction hmoves with
  | refl => exact h
  | tail _ hmove ih => exact ih.move hq hmove

theorem fair_start (hload : Loaded L) (harrival : ∀ i, 0 ≤ (L i).arrival)
    (hburst : ∀ i, 1 ≤ (L i).burst) (prevRun curSlice : ℤ) :
    Fair L q (totalSlices q L) (Rr.start L prevRun curSlice) where
  base := by
    have hqueue := (rrInv_start (q := q) hload hburst harrival prevRun curSlice).queue
    refine ⟨hqueue, by simp [Rr.start, Sim.start], fun _ => rfl, fun i => ?_⟩
    simpa [Rr.start, Sim.start, timeLeft, bursts] using (hload i).1
  serving := ⟨fun _ => .nil, by simp [Rr.start, Sim.start]⟩
  spread := spread_nil
  waits := by
    refine ⟨by simp [Rr.start, Rr.waiting], by simp [Rr.start, Sim.start],
      by simp [Rr.start, Rr.pops], fun i hi => ?_⟩
    exact absurd (hload i).2 hi

/-- A job is popped once for each slice that it has used. -/
theorem count_pops {pops : List (Fin n)} {chart : List (Option (Fin n))} {burst : Fin n → ℤ}
    (h : Served burst q pops chart) (hq : 1 ≤ q) (i : Fin n) :
    pops.count i + slices q (timeLeft burst chart i) = slices q (burst i) := by
  induction h with
  | nil => simp [timeLeft]
  | idle _ ih => simpa [timeLeft] using ih
  | @slice pops chart j _ hleft ih =>
    rw [timeLeft_append_replicate, List.count_append, List.count_singleton]
    by_cases hji : j = i
    · subst hji
      have hsucc := slices_eq_succ hq hleft
      simp only [beq_self_eq_true, if_true]
      -- a whole slice, or the last one
      rcases le_total q (timeLeft burst chart j) with hle | hle
      · rw [min_eq_left hle, Int.toNat_of_nonneg (by omega)]
        omega
      · have hzero := slices_eq_zero hq (sub_nonpos.mpr hle)
        have hnone : slices q 0 = 0 := slices_eq_zero hq le_rfl
        rw [min_eq_right hle, Int.toNat_of_nonneg (by omega), sub_self]
        omega
    · simpa [hji] using ih

/-- A fair run: what has been popped, and what the run leaves behind. -/
structure FairRun (list : Fin n → Process) (q : ℤ) (pops : List (Fin n)) (r : Result n) : Prop where
  count : ∀ i, pops.count i = slices q (list i).burst
  served : Served (bursts list) q pops r.chart
  spread : Spread pops
  response : ∀ i, (r.list i).response ≤ (n - 1) * q
  waiting : ∀ i, (r.list i).waiting ≤ (n - 1) * q * slices q (list i).burst

theorem Fair.fairRun (h : Fair L q total s) (hinv : Inv L s.toSim) (hburst : ∀ i, 1 ≤ (L i).burst)
    (hq : 1 ≤ q) (hdone : ¬ s.finCnt < n) : FairRun L q s.pops s.result := by
  have hended := hinv.ended hdone
  -- all processes have ended, so the last piece is over and nobody has time left
  have hrun : s.running = none := by
    by_contra hne
    obtain ⟨i, hi⟩ := Option.ne_none_iff_exists'.mp hne
    exact hended i (hinv.running i hi).1
  have hserved := h.serving.rest hrun
  have hcount : ∀ i, s.pops.count i = slices q (L i).burst := by
    intro i
    have hpops := count_pops hserved hq i
    have hzero := (hinv.finished i (hended i)).2.1
    rw [h.base.remain i] at hzero
    have hnone : slices q 0 = 0 := slices_eq_zero hq le_rfl
    rwa [hzero, hnone, Nat.add_zero] at hpops
  refine ⟨hcount, hserved, ?_, fun i => ?_, fun i => ?_⟩
  · have hspread := h.spread
    rw [← s.pops_append_waiting] at hspread
    exact hspread.of_append
  · apply h.waits.started i
    rw [← List.count_pos_iff, hcount i, slices_eq_succ hq (hburst i)]
    omega
  · rw [← hcount i]
    exact h.waits.finished i (hended i)

/-- `RR` is fair: process `i` is popped once for each of its slices and then runs for a whole slice
or until it has finished, no other process is popped twice between two of its pops, and it waits at
most `(n - 1) * q` slots for each pop. -/
theorem rr_fair (maxSize : ℕ) (list : Fin n → Process) (hload : Loaded list)
    (harrival : ∀ i, 0 ≤ (list i).arrival) (hburst : ∀ i, 1 ≤ (list i).burst) (hq : 1 ≤ q)
    (prevRun curSlice : ℤ) (hstays : StaysInside maxSize q (Rr.start list prevRun curSlice)) :
    ∃ s, Returns (fun fuel => rrLoop maxSize q fuel (Rr.start list prevRun curSlice)) s ∧
      Returns (rr maxSize prevRun curSlice q list) s.result ∧ FairRun list q s.pops s.result := by
  have hmax := totalSlices_le_of_staysInside hload harrival hburst hq prevRun curSlice hstays
  obtain ⟨s, hrun, ⟨hinv, hfair⟩, hdone⟩ := returns_whileLoop (fun s : Rr n => s.active)
    (Rr.tick maxSize q)
    (fun s => RrInv list q (totalSlices q list) s ∧ Fair list q (totalSlices q list) s)
    (fun s => measure list s.toSim) (by
      rintro s ⟨hinv, hfair⟩ hactive
      have hlt : s.finCnt < n := by simpa [Sim.active] using hactive
      obtain ⟨hinv', hmeasure⟩ := hinv.next hburst hq hlt
      refine ⟨s.next q, ?_, ⟨hinv', hfair.moves hq (hinv.moves hburst hq hlt)⟩, hmeasure⟩
      rw [Rr.tick_eq (hinv.length_le.trans hmax), if_pos (hinv'.length_le.trans hmax)])
    (Rr.start list prevRun curSlice)
    ⟨rrInv_start hload hburst harrival prevRun curSlice,
      fair_start hload harrival hburst prevRun curSlice⟩
  refine ⟨s, hrun, hrun.map _, hfair.fairRun hinv.inv hburst hq ?_⟩
  simpa [Sim.active] using hdone

theorem rr_fair_twoProcesses :
    Input twoProcesses ∧ StaysInside MAX_SIZE 2 (Rr.start twoProcesses 0 0) ∧
      ∃ s, Returns (fun fuel => rrLoop MAX_SIZE 2 fuel (Rr.start twoProcesses 0 0)) s ∧
        Returns (rr MAX_SIZE 0 0 2 twoProcesses) s.result ∧
        FairRun twoProcesses 2 s.pops s.result := by
  have h := input_twoProcesses
  have hstays : StaysInside MAX_SIZE 2 (Rr.start twoProcesses 0 0) :=
    staysInside_of_totalSlices_le h.loaded h.arrival h.burst (by decide) 0 0 (by decide)
  exact ⟨h, hstays, rr_fair MAX_SIZE twoProcesses h.loaded h.arrival h.burst (by decide) 0 0 hstays⟩

end SchoolOS.CpuScheduler
