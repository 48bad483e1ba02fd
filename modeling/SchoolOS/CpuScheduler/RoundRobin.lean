import SchoolOS.CpuScheduler.Valid

/-!
# `RR`

The part of the queue array between `head` and `tail` holds every process that has arrived, is not
finished and is not running, exactly once. So a tick of `RR` is a `Step` like those of the other
schedulers.

The array never shrinks: every push is paid for by a slice. `Rr.future` counts the pushes that are
still to come for a process, and `QueueInv.potential` says that the pushes done and to come are as
many as the slices that all processes need together. This is the size the array must have.
-/

namespace SchoolOS.CpuScheduler

open Function Loop

variable {n : ℕ} {L : Fin n → Process} {q : ℤ}

/-! ## Slices -/

/-- The number of slices of length `q` that a process with `r` slots left needs. -/
def slices (q r : ℤ) : ℕ := ((r + q - 1) / q).toNat

theorem slices_eq_zero (hq : 1 ≤ q) {r : ℤ} (hr : r ≤ 0) : slices q r = 0 := by
  have hlt : (r + q - 1) / q < 1 := Int.ediv_lt_of_lt_mul (by omega) (by omega)
  unfold slices
  omega

theorem slices_eq_succ (hq : 1 ≤ q) {r : ℤ} (hr : 1 ≤ r) : slices q r = slices q (r - q) + 1 := by
  have hnonneg : 0 ≤ (r - 1) / q := Int.ediv_nonneg (by omega) (by omega)
  have hadd : (r + q - 1) / q = (r - 1) / q + 1 := by
    rw [show r + q - 1 = r - 1 + 1 * q by omega, Int.add_mul_ediv_right _ _ (by omega)]
  have hsub : (r - q + q - 1) / q = (r - 1) / q := by rw [Int.sub_add_cancel]
  unfold slices
  rw [hadd, hsub]
  omega

/-! ## The queue -/

namespace Rr

/-- The part of the queue array between `head` and `tail`. -/
def waiting (s : Rr n) : List (Fin n) := s.queue.drop s.head

/-- The number of times that process `i` will still be pushed. -/
def future (q : ℤ) (s : Rr n) (i : Fin n) : ℕ :=
  if s.running = some i then slices q ((s.list i).remain - s.curSlice)
  else if i ∈ s.waiting then slices q (s.list i).remain - 1
  else slices q (s.list i).remain

/-- The state after a push. -/
def pushed (s : Rr n) (i : Fin n) : Rr n := { s with queue := s.queue ++ [i] }

theorem push_eq {maxSize : ℕ} {s : Rr n} (h : s.queue.length < maxSize) (i : Fin n) :
    s.push maxSize i = some (s.pushed i) := by
  simp [push, pushed, h]

theorem waiting_pushed {s : Rr n} (h : s.head ≤ s.queue.length) (i : Fin n) :
    (s.pushed i).waiting = s.waiting ++ [i] :=
  List.drop_append_of_le_length h

theorem head_lt {s : Rr n} {i : Fin n} {rest : List (Fin n)} (h : s.waiting = i :: rest) :
    s.head < s.queue.length := by
  by_contra hge
  rw [waiting, List.drop_of_length_le (Nat.le_of_not_lt hge)] at h
  simp at h

end Rr

/-- The queue holds each process at most once, and never the running one. `total` is the number of
pushes of the whole run. -/
structure QueueInv (q : ℤ) (total : ℕ) (s : Rr n) : Prop where
  head_le : s.head ≤ s.queue.length
  nodup : s.waiting.Nodup
  apart : ∀ i ∈ s.waiting, s.running ≠ some i
  slice : s.running ≠ none → 0 ≤ s.curSlice
  potential : s.queue.length + ∑ i, s.future q i = total

/-- Two sums that differ in one term. -/
theorem sum_add_eq_of_ne {f g : Fin n → ℕ} (i : Fin n) (h : ∀ j, j ≠ i → g j = f j) :
    ∑ j, g j + f i = ∑ j, f j + g i := by
  have hrest : ∑ j ∈ Finset.univ.erase i, g j = ∑ j ∈ Finset.univ.erase i, f j :=
    Finset.sum_congr rfl fun j hj => h j (Finset.ne_of_mem_erase hj)
  rw [← Finset.add_sum_erase _ f (Finset.mem_univ i),
    ← Finset.add_sum_erase _ g (Finset.mem_univ i)]
  omega

namespace QueueInv

variable {total : ℕ} {s : Rr n}

/-- Pushing a process that is neither waiting nor running. -/
theorem push (h : QueueInv q total s) {i : Fin n} (hq : 1 ≤ q) (hwait : i ∉ s.waiting)
    (hrun : s.running ≠ some i) (hrem : 1 ≤ (s.list i).remain) :
    s.queue.length < total ∧ QueueInv q total (s.pushed i) := by
  have hwaiting := Rr.waiting_pushed h.head_le i
  have hbefore : s.future q i = slices q (s.list i).remain := by
    rw [Rr.future, if_neg hrun, if_neg hwait]
  have hafter : (s.pushed i).future q i = slices q (s.list i).remain - 1 := by
    rw [Rr.future, if_neg (show (s.pushed i).running ≠ some i from hrun),
      if_pos (by simp [hwaiting])]
    rfl
  have hother : ∀ j, j ≠ i → (s.pushed i).future q j = s.future q j := by
    intro j hj
    unfold Rr.future
    rw [hwaiting]
    simp only [List.mem_append, List.mem_singleton, hj, or_false]
    rfl
  have hsum := sum_add_eq_of_ne i hother
  have hone := slices_eq_succ hq hrem
  have hpotential := h.potential
  have hle : s.future q i ≤ ∑ j, s.future q j :=
    Finset.single_le_sum (fun _ _ => Nat.zero_le _) (Finset.mem_univ i)
  have hlength : (s.pushed i).queue.length = s.queue.length + 1 := by simp [Rr.pushed]
  refine ⟨by omega, by rw [hlength]; exact h.head_le.trans (Nat.le_succ _), ?_, ?_, h.slice,
    by omega⟩
  · rw [hwaiting, ← List.concat_eq_append]
    exact h.nodup.concat hwait
  · intro j hj
    rw [hwaiting] at hj
    rcases List.mem_append.mp hj with hj | hj
    · exact h.apart j hj
    · exact List.mem_singleton.mp hj ▸ hrun

/-- The queue only depends on the fields that `future` reads. -/
theorem congr (h : QueueInv q total s) {s' : Rr n} (hqueue : s'.queue = s.queue)
    (hhead : s'.head = s.head) (hrunning : s'.running = s.running)
    (hslice : s.running ≠ none → s'.curSlice = s.curSlice)
    (hremain : ∀ i, (s'.list i).remain = (s.list i).remain) : QueueInv q total s' := by
  have hwaiting : s'.waiting = s.waiting := by rw [Rr.waiting, hqueue, hhead, Rr.waiting]
  have hfuture : ∀ i, s'.future q i = s.future q i := by
    intro i
    unfold Rr.future
    rw [hrunning, hremain i, hwaiting]
    by_cases hi : s.running = some i
    · rw [if_pos hi, if_pos hi, hslice (by simp [hi])]
    · rw [if_neg hi, if_neg hi]
  refine ⟨by rw [hhead, hqueue]; exact h.head_le, by rw [hwaiting]; exact h.nodup, ?_, ?_, ?_⟩
  · rw [hwaiting, hrunning]
    exact h.apart
  · intro hne
    rw [hrunning] at hne
    rw [hslice hne]
    exact h.slice hne
  · rw [hqueue, Finset.sum_congr rfl fun i _ => hfuture i]
    exact h.potential

/-- The running process stops: it has used its last slot, or has been pushed. -/
theorem stop (h : QueueInv q total s) {i : Fin n} (hrun : s.running = some i) {s' : Rr n}
    (hhead : s'.head = s.head) (hrunning : s'.running = none)
    (hremain : ∀ j, (s'.list j).remain = (s.list j).remain)
    (hqueue : s'.queue = s.queue ∧ (s.list i).remain ≤ 0 ∨
      s'.queue = s.queue ++ [i] ∧ s.curSlice = 0 ∧ 1 ≤ (s.list i).remain) (hq : 1 ≤ q) :
    QueueInv q total s' := by
  have hwait : i ∉ s.waiting := fun hmem => h.apart i hmem hrun
  have hbefore : s.future q i = slices q ((s.list i).remain - s.curSlice) := if_pos hrun
  have hpotential := h.potential
  have hslice := h.slice (by simp [hrun])
  have hother : ∀ j, j ≠ i → (∀ k, k ≠ i → (k ∈ s'.waiting ↔ k ∈ s.waiting)) →
      s'.future q j = s.future q j := by
    intro j hj hmem
    have hne : s.running ≠ some j := by simpa [hrun] using hj.symm
    unfold Rr.future
    rw [if_neg (by simp [hrunning]), if_neg hne, hremain j]
    simp only [hmem j hj]
  rcases hqueue with ⟨hqueue, hzero⟩ | ⟨hqueue, hempty, hrem⟩
  · -- it is completed, and has no slices any more
    have hwaiting : s'.waiting = s.waiting := by rw [Rr.waiting, hqueue, hhead, Rr.waiting]
    have hafter : s'.future q i = slices q (s.list i).remain := by
      rw [Rr.future, if_neg (by simp [hrunning]), if_neg (by rwa [hwaiting]), hremain i]
    have hsum := sum_add_eq_of_ne i fun j hj => hother j hj fun k _ => by rw [hwaiting]
    rw [slices_eq_zero hq (by omega)] at hbefore hafter
    refine ⟨by rw [hhead, hqueue]; exact h.head_le, by rw [hwaiting]; exact h.nodup,
      by simp [hrunning], by simp [hrunning], ?_⟩
    rw [hqueue]
    omega
  · -- it goes back to the queue, and the push is one of the slices that it still had
    have hwaiting : s'.waiting = s.waiting ++ [i] := by
      rw [Rr.waiting, hqueue, hhead, List.drop_append_of_le_length h.head_le, Rr.waiting]
    have hafter : s'.future q i = slices q (s.list i).remain - 1 := by
      rw [Rr.future, if_neg (by simp [hrunning]), if_pos (by simp [hwaiting]), hremain i]
    have hsum := sum_add_eq_of_ne i fun j hj => hother j hj fun k hk => by simp [hwaiting, hk]
    have hone := slices_eq_succ hq hrem
    rw [hempty, sub_zero] at hbefore
    have hlength : s'.queue.length = s.queue.length + 1 := by simp [hqueue]
    refine ⟨by rw [hhead, hlength]; exact h.head_le.trans (Nat.le_succ _), ?_, by simp [hrunning],
      by simp [hrunning], by omega⟩
    rw [hwaiting, ← List.concat_eq_append]
    exact h.nodup.concat hwait

/-- The first waiting process starts to run. -/
theorem dispatch (h : QueueInv q total s) (hq : 1 ≤ q) (hrun : s.running = none) {i : Fin n}
    {rest : List (Fin n)} (hwait : s.waiting = i :: rest) (hrem : 1 ≤ (s.list i).remain) {s' : Rr n}
    (hqueue : s'.queue = s.queue) (hhead : s'.head = s.head + 1) (hrunning : s'.running = some i)
    (hslice : s'.curSlice = q) (hremain : ∀ j, (s'.list j).remain = (s.list j).remain) :
    QueueInv q total s' := by
  have hwaiting : s'.waiting = rest := by
    rw [Rr.waiting, hqueue, hhead, ← List.drop_drop]
    rw [Rr.waiting] at hwait
    rw [hwait]
    rfl
  have hnodup := h.nodup
  rw [hwait, List.nodup_cons] at hnodup
  have hbefore : s.future q i = slices q (s.list i).remain - 1 := by
    rw [Rr.future, if_neg (by simp [hrun]), if_pos (by simp [hwait])]
  have hafter : s'.future q i = slices q ((s.list i).remain - q) := by
    rw [Rr.future, if_pos hrunning, hremain i, hslice]
  have hother : ∀ j, j ≠ i → s'.future q j = s.future q j := by
    intro j hj
    have hne : s'.running ≠ some j := by simpa [hrunning] using hj.symm
    have hne' : s.running ≠ some j := by simp [hrun]
    rw [Rr.future, Rr.future, if_neg hne, if_neg hne', hremain j, hwaiting, hwait]
    simp [hj]
  have hsum := sum_add_eq_of_ne i hother
  have hone := slices_eq_succ hq hrem
  have hpotential := h.potential
  have hlength := Rr.head_lt hwait
  refine ⟨by rw [hhead, hqueue]; exact hlength, by rw [hwaiting]; exact hnodup.2, ?_, ?_, ?_⟩
  · intro j hj
    rw [hwaiting] at hj
    rw [hrunning]
    intro hij
    obtain rfl := Option.some.inj hij
    exact hnodup.1 hj
  · intro _
    rw [hslice]
    omega
  · rw [hqueue]
    omega

/-- The running process uses a slot of its slice. -/
theorem execute (h : QueueInv q total s) {i : Fin n} (hrun : s.running = some i)
    (hslice : 1 ≤ s.curSlice) : QueueInv q total (s.execute i) := by
  have hremain : ∀ j, j ≠ i → ((s.execute i).list j) = s.list j := fun j hj => update_of_ne hj _ _
  have hfuture : ∀ j, (s.execute i).future q j = s.future q j := by
    intro j
    by_cases hj : j = i
    · subst hj
      have hself : ((s.execute j).list j).remain = (s.list j).remain - 1 := by
        simp [Rr.execute, Sim.execute]
      rw [Rr.future, Rr.future, if_pos hrun, if_pos (show (s.execute j).running = some j from hrun),
        hself]
      congr 1
      show (s.list j).remain - 1 - (s.curSlice - 1) = (s.list j).remain - s.curSlice
      omega
    · have hne : s.running ≠ some j := by simpa [hrun] using Ne.symm hj
      rw [Rr.future, Rr.future, hremain j hj, if_neg hne,
        if_neg (show (s.execute i).running ≠ some j from hne)]
      rfl
  refine ⟨h.head_le, h.nodup, h.apart, ?_, ?_⟩
  · intro _
    show 0 ≤ s.curSlice - 1
    omega
  · rw [Finset.sum_congr rfl fun j _ => hfuture j]
    exact h.potential

end QueueInv

/-! ## The parts of a tick -/

/-- The processes that arrive at this tick, in the order of the list. -/
def Rr.arriving (s : Rr n) : List (Fin n) :=
  (List.finRange n).filter fun i => (s.time : ℤ) = (s.list i).arrival

/-- The state after the arrivals have been pushed. -/
def Rr.arrived (s : Rr n) : Rr n := { s with queue := s.queue ++ s.arriving }

theorem Rr.waiting_arrived {s : Rr n} (h : s.head ≤ s.queue.length) :
    s.arrived.waiting = s.waiting ++ s.arriving :=
  List.drop_append_of_le_length h

theorem pushArrivals_spec {total maxSize : ℕ} {s : Rr n} (h : QueueInv q total s) (hq : 1 ≤ q)
    (hmax : total ≤ maxSize)
    (hnew : ∀ i, (s.time : ℤ) = (s.list i).arrival →
      i ∉ s.waiting ∧ s.running ≠ some i ∧ 1 ≤ (s.list i).remain) :
    s.pushArrivals maxSize = some s.arrived ∧ QueueInv q total s.arrived := by
  -- by induction on the part of the list that is left; no process occurs twice in it
  suffices hfold : ∀ (l : List (Fin n)) (s : Rr n), l.Nodup → QueueInv q total s →
      (∀ i ∈ l, (s.time : ℤ) = (s.list i).arrival →
        i ∉ s.waiting ∧ s.running ≠ some i ∧ 1 ≤ (s.list i).remain) →
      l.foldlM (fun s i =>
          if (s.time : ℤ) = (s.list i).arrival then s.push maxSize i else some s) s =
        some { s with queue := s.queue ++ l.filter fun i => (s.time : ℤ) = (s.list i).arrival } ∧
        QueueInv q total
          { s with queue := s.queue ++ l.filter fun i => (s.time : ℤ) = (s.list i).arrival } from
    hfold _ s (List.nodup_finRange n) h fun i _ => hnew i
  intro l
  induction l with
  | nil =>
    intro s _ hs _
    simpa using hs
  | cons i l ih =>
    intro s hnodup hs hnew
    obtain ⟨hi, hl⟩ := List.nodup_cons.mp hnodup
    rw [List.foldlM_cons]
    by_cases harrives : (s.time : ℤ) = (s.list i).arrival
    · obtain ⟨hwait, hrun, hrem⟩ := hnew i List.mem_cons_self harrives
      obtain ⟨hlt, hpushed⟩ := hs.push hq hwait hrun hrem
      have hrest := ih (s.pushed i) hl hpushed (by
        intro j hj harrives'
        obtain ⟨hjwait, hjrun, hjrem⟩ := hnew j (List.mem_cons_of_mem i hj) harrives'
        refine ⟨?_, hjrun, hjrem⟩
        rw [Rr.waiting_pushed hs.head_le]
        simp only [List.mem_append, List.mem_singleton, not_or]
        exact ⟨hjwait, fun hji => hi (hji ▸ hj)⟩)
      rw [if_pos harrives, Rr.push_eq (hlt.trans_le hmax),
        List.filter_cons_of_pos (by simpa using harrives), List.append_cons]
      exact hrest
    · rw [if_neg harrives, List.filter_cons_of_neg (by simpa using harrives)]
      exact ih s hl hs fun j hj => hnew j (List.mem_cons_of_mem i hj)

/-- What `release` leaves behind: the running process has been completed or has gone back to the end
of the queue, or has time left in its slice. The queue holds the other ready processes. -/
structure Released (q : ℤ) (total : ℕ) (s s' : Rr n) : Prop where
  sim : s'.toSim = { s.toSim.complete with running := s'.running }
  queue : QueueInv q total s'
  running : ∀ i, s'.running = some i → s.toSim.complete.running = some i ∧ 1 ≤ s'.curSlice
  free : s'.running = none → s'.waiting = [] → s.toSim.complete.running = none
  waiting : ∀ i, i ∈ s'.waiting ↔ s.toSim.complete.Ready i ∧ s'.running ≠ some i

section Release

variable {total maxSize : ℕ} {s : Rr n}

/-- No process is running, or it has time left, also in its slice. -/
theorem QueueInv.released_self (h : QueueInv q total s) (hcomplete : s.toSim.complete = s.toSim)
    (hslice : s.running ≠ none → 1 ≤ s.curSlice)
    (hwait : ∀ i, i ∈ s.waiting ↔ s.Ready i ∧ s.running ≠ some i) : Released q total s s := by
  refine ⟨by rw [hcomplete], h, ?_, ?_, ?_⟩
  · intro i hi
    rw [hcomplete]
    exact ⟨hi, hslice (by simp [hi])⟩
  · intro hnone _
    rw [hcomplete, hnone]
  · intro i
    rw [hcomplete]
    exact hwait i

/-- The state after the running process has been completed. -/
def Rr.completed (s : Rr n) : Rr n := { s with toSim := s.toSim.complete }

/-- The running process has used its last slot. -/
theorem QueueInv.released_completed (h : QueueInv q total s) (hq : 1 ≤ q) {i : Fin n}
    (hrun : s.running = some i) (hzero : (s.list i).remain = 0)
    (hwait : ∀ i, i ∈ s.waiting ↔ s.Ready i ∧ s.running ≠ some i) :
    Released q total s s.completed := by
  have hcomplete : s.toSim.complete = { s.toSim with
      list := update s.list i ((s.list i).exit s.time)
      running := none
      finCnt := s.finCnt + 1 } := by simp [Sim.complete, hrun, hzero]
  have hrunning : s.toSim.complete.running = none := by rw [hcomplete]
  refine ⟨rfl, ?_, ?_, fun _ _ => hrunning, ?_⟩
  · exact h.stop hrun rfl hrunning s.toSim.complete_remain (Or.inl ⟨rfl, hzero.le⟩) hq
  · intro j hj
    exact absurd (hj.symm.trans hrunning) (by simp)
  · intro j
    show j ∈ s.waiting ↔ s.toSim.complete.Ready j ∧ s.toSim.complete.running ≠ some j
    rw [hwait j, hrunning, hrun, hcomplete]
    by_cases hji : j = i
    · simp [hji, Sim.Ready]
    · simp [hji, Ne.symm hji, Sim.Ready]

/-- The running process has used its slice: it goes to the end of the queue. -/
theorem QueueInv.released_expired (h : QueueInv q total s) (hq : 1 ≤ q) {i : Fin n}
    (hrun : s.running = some i) (hrem : 1 ≤ (s.list i).remain) (hempty : s.curSlice = 0)
    (hready : s.Ready i) (hwait : ∀ i, i ∈ s.waiting ↔ s.Ready i ∧ s.running ≠ some i) :
    s.queue.length < total ∧
      Released q total s { s.pushed i with toSim := { s.toSim with running := none } } := by
  have hne : (s.list i).remain ≠ 0 := by omega
  have hcomplete : s.toSim.complete = s.toSim := by simp [Sim.complete, hrun, hne]
  have hwaiting := Rr.waiting_pushed h.head_le i
  have hqueue : QueueInv q total { s.pushed i with toSim := { s.toSim with running := none } } :=
    h.stop hrun rfl rfl (fun _ => rfl) (Or.inr ⟨rfl, hempty, hrem⟩) hq
  have hlength : (s.pushed i).queue.length = s.queue.length + 1 := by simp [Rr.pushed]
  have hpotential := hqueue.potential
  simp only [hlength] at hpotential
  refine ⟨by omega, by rw [hcomplete], hqueue, by simp, ?_, ?_⟩
  · intro _ hnil
    have hnil' : (s.pushed i).waiting = [] := hnil
    simp [hwaiting] at hnil'
  · intro j
    show j ∈ (s.pushed i).waiting ↔ s.toSim.complete.Ready j ∧ none ≠ some j
    rw [hwaiting, hcomplete, List.mem_append, List.mem_singleton, hwait j, hrun]
    by_cases hji : j = i
    · simp [hji, hready]
    · simp [hji, Ne.symm hji]

theorem release_spec (hinv : Inv L s.toSim) (hburst : ∀ i, 1 ≤ (L i).burst) (hlt : s.finCnt < n)
    (h : QueueInv q total s) (hq : 1 ≤ q) (hmax : total ≤ maxSize)
    (hwait : ∀ i, i ∈ s.waiting ↔ s.Ready i ∧ s.running ≠ some i) :
    ∃ s', s.release maxSize = some s' ∧ Released q total s s' := by
  have hset := hinv.complete hlt
  unfold Rr.release
  cases hrun : s.running with
  | none =>
    have hcomplete : s.toSim.complete = s.toSim := by simp [Sim.complete, hrun]
    exact ⟨s, rfl, h.released_self hcomplete (fun hne => absurd hrun hne) hwait⟩
  | some i =>
    by_cases hzero : (s.list i).remain = 0
    · exact ⟨s.completed, by simp [hzero, Rr.completed], h.released_completed hq hrun hzero hwait⟩
    · have hcomplete : s.toSim.complete = s.toSim := by simp [Sim.complete, hrun, hzero]
      rw [hcomplete] at hset
      by_cases hempty : s.curSlice = 0
      · have hnonneg := hinv.remain_nonneg hburst i
        obtain ⟨hlength, hrel⟩ := h.released_expired hq hrun (by omega) hempty
          (hset.ready_of_running hrun) hwait
        refine ⟨_, ?_, hrel⟩
        simp [hzero, hempty, Rr.push_eq (hlength.trans_le hmax), Rr.pushed]
      · have hslice := h.slice (by simp [hrun])
        refine ⟨s, by simp [hzero, hempty], h.released_self hcomplete (fun _ => ?_) hwait⟩
        omega

end Release

/-! ## A tick -/

/-- Process `i` was ready at the last tick, and is not finished. -/
def Sim.WasReady (s : Sim n) (i : Fin n) : Prop :=
  (s.list i).arrival < s.time ∧ (s.list i).ended = 0

theorem Sim.wasReady_run_iff (s : Sim n) (i j : Fin n) :
    ((s.resume i).execute i).WasReady j ↔ s.Ready j := by
  have harrival := field_update Process.arrival s.list i ((s.list i).afterSlot s.time) rfl j
  have hended := field_update Process.ended s.list i ((s.list i).afterSlot s.time) rfl j
  rw [Sim.resume_execute, Sim.WasReady, Sim.Ready]
  simp only [harrival, hended]
  push_cast
  rw [Int.lt_add_one_iff]

theorem Sim.wasReady_idle_iff (s : Sim n) (j : Fin n) : s.idle.WasReady j ↔ s.Ready j := by
  unfold Sim.idle Sim.WasReady Sim.Ready
  push_cast
  rw [Int.lt_add_one_iff]

/-- The invariant of the tick loop of `RR`. -/
structure RrInv (L : Fin n → Process) (q : ℤ) (total : ℕ) (s : Rr n) : Prop where
  inv : Inv L s.toSim
  queue : QueueInv q total s
  waiting : ∀ i, i ∈ s.waiting ↔ s.WasReady i ∧ s.running ≠ some i

/-- A process that arrives now is neither waiting nor running, and has its burst time to run. -/
theorem RrInv.arriving {total : ℕ} {s : Rr n} (h : RrInv L q total s)
    (hburst : ∀ i, 1 ≤ (L i).burst) (hlt : s.finCnt < n) {i : Fin n}
    (hi : (s.time : ℤ) = (s.list i).arrival) :
    i ∉ s.waiting ∧ s.running ≠ some i ∧ 1 ≤ (s.list i).remain ∧ (s.list i).ended = 0 := by
  have hnotMem := h.inv.notMem_chart hlt hi
  refine ⟨?_, ?_, ?_, ?_⟩
  · intro hmem
    have := ((h.waiting i).mp hmem).1.1
    omega
  · intro hrun
    exact hnotMem (List.mem_of_getLast? (h.inv.running i hrun).2)
  · have hremain := h.inv.remain i
    rw [List.count_eq_zero.mpr hnotMem] at hremain
    have := hburst i
    omega
  · by_contra hended
    obtain ⟨-, -, t, -, hlast⟩ := h.inv.finished i hended
    exact hnotMem (List.mem_of_getElem? hlast.at_self)

/-- The queue after the arrivals: it holds the processes that are ready and not running. -/
theorem RrInv.pushArrivals {total maxSize : ℕ} {s : Rr n} (h : RrInv L q total s)
    (hburst : ∀ i, 1 ≤ (L i).burst) (hq : 1 ≤ q) (hmax : total ≤ maxSize) (hlt : s.finCnt < n) :
    s.pushArrivals maxSize = some s.arrived ∧ QueueInv q total s.arrived ∧
      ∀ i, i ∈ s.arrived.waiting ↔ s.Ready i ∧ s.running ≠ some i := by
  obtain ⟨hpush, hqueue⟩ := pushArrivals_spec h.queue hq hmax fun i hi => by
    obtain ⟨hwait, hrun, hrem, -⟩ := h.arriving hburst hlt hi
    exact ⟨hwait, hrun, hrem⟩
  refine ⟨hpush, hqueue, fun i => ?_⟩
  have harriving : i ∈ s.arriving ↔ (s.time : ℤ) = (s.list i).arrival := by simp [Rr.arriving]
  rw [Rr.waiting_arrived h.queue.head_le, List.mem_append, h.waiting i, harriving]
  constructor
  · rintro (⟨⟨harr, hended⟩, hrun⟩ | harr)
    · exact ⟨⟨harr.le, hended⟩, hrun⟩
    · obtain ⟨-, hrun, -, hended⟩ := h.arriving hburst hlt harr
      exact ⟨⟨harr.ge, hended⟩, hrun⟩
  · rintro ⟨⟨harr, hended⟩, hrun⟩
    rcases harr.lt_or_eq with hlt' | heq
    · exact Or.inl ⟨⟨hlt', hended⟩, hrun⟩
    · exact Or.inr heq.symm

theorem Rr.choose_running {s : Rr n} {i : Fin n} (hrun : s.running = some i) :
    s.choose q = s.execute i := by
  simp [Rr.choose, hrun]

theorem Rr.choose_idle {s : Rr n} (hrun : s.running = none) (hhead : s.queue[s.head]? = none) :
    s.choose q = { s with toSim := s.toSim.idle, curSlice := q } := by
  simp [Rr.choose, hrun, hhead]

theorem Rr.choose_dispatch {s : Rr n} {i : Fin n} (hrun : s.running = none)
    (hhead : s.queue[s.head]? = some i) :
    s.choose q = (Rr.dispatch { s with curSlice := q } i).execute i := by
  simp [Rr.choose, hrun, hhead]

/-- The slot goes to the running process, to none, or to the first process of the queue. -/
theorem Rr.choose_cases (s : Rr n) (q : ℤ) :
    (∃ i, s.running = some i ∧ s.choose q = s.execute i) ∨
      (s.running = none ∧ s.queue[s.head]? = none ∧
        s.choose q = { s with toSim := s.toSim.idle, curSlice := q }) ∨
      ∃ i, s.running = none ∧ s.queue[s.head]? = some i ∧
        s.choose q = (Rr.dispatch { s with curSlice := q } i).execute i := by
  cases hrun : s.running with
  | some i => exact Or.inl ⟨i, rfl, Rr.choose_running hrun⟩
  | none =>
    cases hhead : s.queue[s.head]? with
    | none => exact Or.inr (Or.inl ⟨rfl, rfl, Rr.choose_idle hrun hhead⟩)
    | some i => exact Or.inr (Or.inr ⟨i, rfl, rfl, Rr.choose_dispatch hrun hhead⟩)

/-- A process that gets the processor at time `time`. -/
def Process.resumed (p : Process) (time : ℤ) : Process :=
  { p with start := if p.burst = p.remain then time else p.start }

theorem Sim.resume_eq (s : Sim n) (i : Fin n) :
    s.resume i =
      { s with list := update s.list i ((s.list i).resumed s.time), running := some i } := by
  unfold Sim.resume Process.resumed
  split
  · rfl
  · simp

theorem Sim.resume_running (s : Sim n) (i : Fin n) : (s.resume i).running = some i := by
  rw [Sim.resume_eq]

theorem Sim.resume_remain (s : Sim n) (i j : Fin n) :
    ((s.resume i).list j).remain = (s.list j).remain := by
  rw [Sim.resume_eq]
  exact field_update Process.remain s.list i ((s.list i).resumed s.time) rfl j

/-- Which process was running before does not matter. -/
theorem Sim.resume_congr (s : Sim n) (o : Option (Fin n)) (i : Fin n) :
    Sim.resume { s with running := o } i = s.resume i := by
  rw [Sim.resume_eq, Sim.resume_eq]

/-- `s'` results from a tick that has started in `s`: a `Step`, after which the queue holds the
other processes that were ready. -/
structure Ticked (q : ℤ) (total : ℕ) (s s' : Rr n) : Prop where
  step : Step s.toSim s'.toSim
  queue : QueueInv q total s'
  waiting : ∀ i, i ∈ s'.waiting ↔ s'.WasReady i ∧ s'.running ≠ some i

section Choose

variable {total : ℕ} {s s' : Rr n}

/-- The slice goes on. -/
theorem Released.ticked_running (h : Released q total s s') (hset : Settled L s.toSim.complete)
    {i : Fin n} (hrun : s'.running = some i) : Ticked q total s (s'.execute i) := by
  obtain ⟨hcrun, hslice⟩ := h.running i hrun
  have hsim : (s'.execute i).toSim = (s.toSim.complete.resume i).execute i := by
    show s'.toSim.execute i = _
    rw [hset.resume_of_running hcrun, h.sim, hrun, ← hcrun]
  refine ⟨hsim ▸ .run (hset.ready_of_running hcrun), h.queue.execute hrun hslice, fun j => ?_⟩
  rw [hsim, Sim.wasReady_run_iff, ← hsim]
  exact h.waiting j

/-- Nothing is ready. -/
theorem Released.ticked_idle (h : Released q total s s') (hrun : s'.running = none)
    (hempty : s'.waiting = []) :
    Ticked q total s { s' with toSim := s'.toSim.idle, curSlice := q } := by
  have hnone : ∀ i, ¬ s.toSim.complete.Ready i := by
    intro i hi
    have := (h.waiting i).mpr ⟨hi, by simp [hrun]⟩
    simp [hempty] at this
  have hsim : s'.toSim = s.toSim.complete := by
    rw [h.sim, hrun, ← h.free hrun hempty]
  refine ⟨?_, ?_, fun j => ?_⟩
  · show Step s.toSim s'.toSim.idle
    rw [hsim]
    exact .idle hnone
  · exact h.queue.congr rfl rfl rfl (fun hne => absurd hrun hne) fun _ => rfl
  · show j ∈ s'.waiting ↔ s'.toSim.idle.WasReady j ∧ s'.running ≠ some j
    rw [Sim.wasReady_idle_iff, h.waiting j, hsim]

/-- The first process of the queue runs. -/
theorem Released.ticked_dispatch (h : Released q total s s') (hset : Settled L s.toSim.complete)
    (hburst : ∀ i, 1 ≤ (L i).burst) (hq : 1 ≤ q) (hrun : s'.running = none) {i : Fin n}
    (hwait : s'.waiting = i :: s'.queue.drop (s'.head + 1)) :
    Ticked q total s ((Rr.dispatch { s' with curSlice := q } i).execute i) := by
  have hsim : s'.toSim = { s.toSim.complete with running := none } := by rw [h.sim, hrun]
  have hready : s.toSim.complete.Ready i := ((h.waiting i).mp (by simp [hwait])).1
  have hremain : 1 ≤ (s'.list i).remain := by
    have hnonneg := hset.remain_nonneg hburst i
    have hne := hset.pending i hready.2
    rw [hsim]
    show 1 ≤ (s.toSim.complete.list i).remain
    omega
  set d : Rr n := Rr.dispatch { s' with curSlice := q } i with hd
  have hresume : d.toSim = s.toSim.complete.resume i := by
    show s'.toSim.resume i = _
    rw [hsim, Sim.resume_congr]
  have hdrun : d.running = some i := hresume ▸ Sim.resume_running _ i
  have hqueue : QueueInv q total d :=
    h.queue.dispatch hq hrun hwait hremain rfl rfl hdrun rfl (Sim.resume_remain s'.toSim i)
  have hsim' : (d.execute i).toSim = (s.toSim.complete.resume i).execute i := by
    show d.toSim.execute i = _
    rw [hresume]
  refine ⟨hsim' ▸ .run hready, hqueue.execute hdrun hq, fun j => ?_⟩
  show j ∈ s'.queue.drop (s'.head + 1) ↔ (d.execute i).toSim.WasReady j ∧ d.running ≠ some j
  have hnodup := h.queue.nodup
  rw [hwait, List.nodup_cons] at hnodup
  have hmem := h.waiting j
  rw [hwait, List.mem_cons] at hmem
  rw [hsim', Sim.wasReady_run_iff, hdrun]
  by_cases hji : j = i
  · subst hji
    simp [hnodup.1]
  · simpa [hji, Ne.symm hji, hrun] using hmem

/-- The queue with a process at its head. -/
theorem waiting_eq_cons {i : Fin n} (hhead : s'.queue[s'.head]? = some i) :
    s'.waiting = i :: s'.queue.drop (s'.head + 1) := by
  obtain ⟨hlength, hget⟩ := List.getElem?_eq_some_iff.mp hhead
  rw [Rr.waiting, List.drop_eq_getElem_cons hlength, hget]

theorem choose_spec (h : Released q total s s') (hset : Settled L s.toSim.complete)
    (hburst : ∀ i, 1 ≤ (L i).burst) (hq : 1 ≤ q) : Ticked q total s (s'.choose q) := by
  rcases s'.choose_cases q with ⟨i, hrun, heq⟩ | ⟨hrun, hhead, heq⟩ | ⟨i, hrun, hhead, heq⟩
  · rw [heq]
    exact h.ticked_running hset hrun
  · rw [heq]
    exact h.ticked_idle hrun (List.drop_of_length_le (List.getElem?_eq_none_iff.mp hhead))
  · rw [heq]
    apply h.ticked_dispatch hset hburst hq hrun
    exact waiting_eq_cons hhead

end Choose

/-- A tick of `RR`. -/
theorem RrInv.tick {total maxSize : ℕ} {s : Rr n} (h : RrInv L q total s)
    (hburst : ∀ i, 1 ≤ (L i).burst) (hq : 1 ≤ q) (hmax : total ≤ maxSize) (hlt : s.finCnt < n) :
    ∃ s', Rr.tick maxSize q s = some s' ∧ RrInv L q total s' ∧
      measure L s'.toSim < measure L s.toSim := by
  obtain ⟨hpush, hqueue, hwait⟩ := h.pushArrivals hburst hq hmax hlt
  obtain ⟨s', hrelease, hrel⟩ := release_spec (s := s.arrived) h.inv hburst hlt hqueue hq hmax hwait
  have hticked := choose_spec hrel (h.inv.complete hlt) hburst hq
  obtain ⟨hinv', hmeasure⟩ := h.inv.step hburst hlt hticked.step
  refine ⟨s'.choose q, ?_, ⟨hinv', hticked.queue, hticked.waiting⟩, hmeasure⟩
  simp [Rr.tick, hpush, hrelease]

/-- The number of slices that all processes need together. -/
def totalSlices (q : ℤ) (list : Fin n → Process) : ℕ := ∑ i, slices q (list i).burst

theorem rrInv_start (hload : Loaded L) (hburst : ∀ i, 1 ≤ (L i).burst)
    (harrival : ∀ i, 0 ≤ (L i).arrival) (prevRun curSlice : ℤ) :
    RrInv L q (totalSlices q L) ⟨Sim.start L, 0, [], 0, prevRun, curSlice⟩ where
  inv := inv_start hload hburst
  queue := by
    refine ⟨le_rfl, by simp [Rr.waiting], by simp [Rr.waiting], by simp [Sim.start], ?_⟩
    simp [Rr.future, Rr.waiting, totalSlices, Sim.start, (hload _).1]
  waiting i := by
    have := harrival i
    simp [Rr.waiting, Sim.WasReady, Sim.start]
    omega

/-- The tick loop of `RR` ends, if the queue array has room for as many pushes as there are
slices. -/
theorem rr_returns {maxSize : ℕ} (hload : Loaded L) (hburst : ∀ i, 1 ≤ (L i).burst)
    (harrival : ∀ i, 0 ≤ (L i).arrival) (hq : 1 ≤ q) (hmax : totalSlices q L ≤ maxSize)
    (prevRun curSlice : ℤ) :
    ∃ s, Returns (fun fuel => rrLoop maxSize q fuel ⟨Sim.start L, 0, [], 0, prevRun, curSlice⟩) s ∧
      RrInv L q (totalSlices q L) s ∧ ¬ s.finCnt < n := by
  obtain ⟨s, hrun, hinv, hdone⟩ := returns_whileLoop (fun s : Rr n => s.active)
    (Rr.tick maxSize q) (RrInv L q (totalSlices q L)) (fun s => measure L s.toSim) (by
      intro s hinv hactive
      have hlt : s.finCnt < n := by simpa [Sim.active] using hactive
      exact hinv.tick hburst hq hmax hlt)
    _ (rrInv_start hload hburst harrival prevRun curSlice)
  exact ⟨s, hrun, hinv, by simpa [Sim.active] using hdone⟩

end SchoolOS.CpuScheduler
