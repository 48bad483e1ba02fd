import SchoolOS.CpuScheduler.Invariant
import Mathlib.Order.Interval.Finset.Nat

/-!
# What a finished simulation has computed

`ValidSchedule list chart` says that the fields `start` and `finish` of the processes and the Gantt
chart describe one work-conserving schedule. It follows from the invariant once all processes have
been completed (`Inv.validSchedule`). `Valid r` adds the times that are computed after the loop, for
which the two formulas of the source need different facts: `finish - arrival - burst` is right for
every schedule, `start - arrival` only for one that runs each process in one piece.
-/

namespace SchoolOS.CpuScheduler

open Function Loop

variable {n : ℕ} {L : Fin n → Process} {s : Sim n}

/-- The processes and the chart describe one complete work-conserving schedule. -/
structure ValidSchedule (list : Fin n → Process) (chart : List (Option (Fin n))) : Prop where
  ended : ∀ i, (list i).ended = 1 ∧ (list i).remain = 0
  slots : ∀ i, (chart.count (some i) : ℤ) = (list i).burst
  within : ∀ i (t : ℕ), chart[t]? = some (some i) → (list i).arrival ≤ t ∧ (t : ℤ) < (list i).finish
  first : ∀ i, ∃ t : ℕ, (list i).start = t ∧ FirstAt chart (some i) t
  last : ∀ i, ∃ t : ℕ, (list i).finish - 1 = t ∧ LastAt chart (some i) t
  idle : ∀ t : ℕ, t < chart.length → (chart[t]? = some none ↔
    ¬ ∃ i, (list i).arrival ≤ t ∧ (t : ℤ) < (list i).finish)
  length : (chart.length : ℤ) = maxFinish list

/-- `ValidSchedule`, with the times computed after the loop. -/
structure Valid (r : Result n) : Prop extends ValidSchedule r.list r.chart where
  turnaround : ∀ i, (r.list i).turnaround = (r.list i).waiting + (r.list i).burst
  response : ∀ i, 0 ≤ (r.list i).response ∧ (r.list i).response ≤ (r.list i).waiting

/-! ## The latest finish time -/

/-- `max_finish` is the least number above `0` and all finish times. -/
theorem maxFinish_le_iff (list : Fin n → Process) (m : ℤ) :
    maxFinish list ≤ m ↔ 0 ≤ m ∧ ∀ i, (list i).finish ≤ m := by
  have hmax : ∀ l : List (Fin n), ∀ a : ℤ,
      l.foldl (fun m i => if m > (list i).finish then m else (list i).finish) a ≤ m ↔
        a ≤ m ∧ ∀ i ∈ l, (list i).finish ≤ m := by
    intro l
    induction l with
    | nil => simp
    | cons i l ih =>
      intro a
      rw [List.foldl_cons, ih, List.forall_mem_cons, ← and_assoc]
      refine and_congr_left fun _ => ?_
      split
      · omega
      · omega
  rw [maxFinish, forLoop, hmax]
  simp

/-! ## The schedule of a finished simulation -/

/-- The finish time of a process lies behind its last slot. -/
theorem Inv.last (h : Inv L s) (hdone : ¬ s.finCnt < n) (i : Fin n) :
    ∃ t, (s.list i).finish.toNat = t + 1 ∧ LastAt s.chart (some i) t := by
  obtain ⟨-, -, t, ht, hlast⟩ := h.finished i (h.ended hdone i)
  exact ⟨t, by omega, hlast⟩

/-- The schedule that the chart describes. -/
def Inv.schedule (h : Inv L s) (hdone : ¬ s.finCnt < n) : UnitSchedule (arrivals L) (bursts L) :=
  h.conserving.toUnitSchedule (h.count_eq hdone) (fun i => (s.list i).finish.toNat) (h.last hdone)

theorem Inv.workConserving (h : Inv L s) (hdone : ¬ s.finCnt < n) :
    (h.schedule hdone).WorkConserving :=
  h.conserving.workConserving (h.count_eq hdone) _ (h.last hdone)

theorem Inv.slot_eq_some_iff (h : Inv L s) (hdone : ¬ s.finCnt < n) {t : ℕ} {i : Fin n} :
    (h.schedule hdone).slot t = some i ↔ s.chart[t]? = some (some i) :=
  Option.join_eq_some_iff

theorem Inv.finish_eq (h : Inv L s) (hdone : ¬ s.finCnt < n) (i : Fin n) :
    ((h.schedule hdone).finish i : ℤ) = (s.list i).finish := by
  obtain ⟨-, -, t, ht, -⟩ := h.finished i (h.ended hdone i)
  have : (h.schedule hdone).finish i = (s.list i).finish.toNat := rfl
  omega

/-- The chart is as long as the latest finish time. -/
theorem Inv.length_eq (h : Inv L s) (hdone : ¬ s.finCnt < n) :
    (s.chart.length : ℤ) = maxFinish s.list := by
  apply eq_of_forall_ge_iff
  intro m
  rw [maxFinish_le_iff]
  constructor
  · intro hm
    refine ⟨by omega, fun i => ?_⟩
    obtain ⟨t, ht, hlast⟩ := h.last hdone i
    have := (List.getElem?_eq_some_iff.mp hlast.at_self).1
    omega
  · rintro ⟨hm, hfin⟩
    rcases List.eq_nil_or_concat s.chart with hnil | ⟨init, o, hchart⟩
    · simpa [hnil] using hm
    · -- the last slot of the chart is the last slot of some process
      cases o with
      | none =>
        exact absurd (by simp [hchart]) (h.conserving.getLast?_ne_none (h.count_eq hdone))
      | some i =>
        obtain ⟨t, ht, hlast⟩ := h.last hdone i
        have hle : init.length ≤ t := by
          by_contra hlt
          apply hlast.after init.length (Nat.lt_of_not_le hlt)
          simp [hchart]
        have hi := hfin i
        simp only [hchart, List.concat_eq_append, List.length_append, List.length_singleton]
        push_cast
        omega

theorem Inv.validSchedule (h : Inv L s) (hdone : ¬ s.finCnt < n) (hburst : ∀ i, 1 ≤ (L i).burst) :
    ValidSchedule s.list s.chart where
  ended i := by
    obtain ⟨hone, hzero, -⟩ := h.finished i (h.ended hdone i)
    exact ⟨hone, hzero⟩
  slots i := by rw [h.count_eq hdone i, h.burst i]
  within i t ht := by
    have hslot := (h.slot_eq_some_iff hdone).mpr ht
    have harrived := (h.schedule hdone).arrived t i hslot
    have hlt := (h.schedule hdone).slot_lt_finish hslot
    rw [arrivals, ← h.arrival i] at harrived
    rw [← h.finish_eq hdone i]
    exact ⟨harrived, by exact_mod_cast hlt⟩
  first i := by
    apply h.first i
    rw [← List.count_pos_iff]
    have hcount := h.count_eq hdone i
    have := hburst i
    omega
  last i := by
    obtain ⟨-, -, t, ht, hlast⟩ := h.finished i (h.ended hdone i)
    exact ⟨t, by omega, hlast⟩
  idle t ht := by
    constructor
    · rintro hidle ⟨i, harrived, hlt⟩
      have hslot : (h.schedule hdone).slot t = none := by
        show s.chart[t]?.join = none
        rw [hidle]
        rfl
      have hle := h.workConserving hdone t hslot i (by rw [arrivals, ← h.arrival i]; exact harrived)
      have := h.finish_eq hdone i
      omega
    · -- a process in the slot would be one that has arrived and not finished
      intro hnone
      cases hslot : s.chart[t]? with
      | none => exact absurd (List.getElem?_eq_none_iff.mp hslot) (by omega)
      | some o =>
        cases o with
        | none => rfl
        | some i =>
          have hsome := (h.slot_eq_some_iff hdone).mpr hslot
          have harrived := (h.schedule hdone).arrived t i hsome
          have hlt := (h.schedule hdone).slot_lt_finish hsome
          rw [arrivals, ← h.arrival i] at harrived
          refine absurd ⟨i, harrived, ?_⟩ hnone
          rw [← h.finish_eq hdone i]
          exact_mod_cast hlt
  length := h.length_eq hdone

/-! ## The computed times -/

section Times

variable {list : Fin n → Process} {chart : List (Option (Fin n))}

/-- The slots of a process lie between its start and its finish. -/
theorem ValidSchedule.start_add_burst_le (h : ValidSchedule list chart) (i : Fin n) :
    (list i).start + (list i).burst ≤ (list i).finish := by
  obtain ⟨a, ha, hfirst⟩ := h.first i
  obtain ⟨b, hb, hlast⟩ := h.last i
  have hsub : ((Finset.range chart.length).filter fun t => chart[t]? = some (some i)) ⊆
      Finset.Ico a (b + 1) := by
    intro t ht
    have hslot := (Finset.mem_filter.mp ht).2
    have hle : a ≤ t := by
      by_contra hlt
      exact hfirst.before t (Nat.lt_of_not_le hlt) hslot
    have hge : t ≤ b := by
      by_contra hlt
      exact hlast.after t (Nat.lt_of_not_le hlt) hslot
    exact Finset.mem_Ico.mpr ⟨hle, by omega⟩
  have hcard := Finset.card_le_card hsub
  rw [← Nat.count_eq_card_filter_range, ← count_take_eq, List.take_length, Nat.card_Ico] at hcard
  have hab : a ≤ b := by
    by_contra hlt
    exact hfirst.before b (Nat.lt_of_not_le hlt) hlast.at_self
  have hslots := h.slots i
  omega

theorem ValidSchedule.arrival_le_start (h : ValidSchedule list chart) (i : Fin n) :
    (list i).arrival ≤ (list i).start := by
  obtain ⟨t, ht, hfirst⟩ := h.first i
  rw [ht]
  exact (h.within i t hfirst.at_self).1

/-- The result of a scheduler that computes the waiting times from the finish times. -/
theorem ValidSchedule.valid_timesFromFinish (h : ValidSchedule list chart) (ret : ℤ) :
    Valid ⟨fun i => (list i).timesFromFinish, chart, ret⟩ where
  toValidSchedule := ⟨h.ended, h.slots, h.within, h.first, h.last, h.idle, h.length⟩
  turnaround i := by
    simp only [Process.timesFromFinish]
    omega
  response i := by
    have hstart := h.arrival_le_start i
    have hburst := h.start_add_burst_le i
    simp only [Process.timesFromFinish]
    omega

/-- The result of a scheduler that computes the waiting times from the start times, and has run each
process in one piece. -/
theorem ValidSchedule.valid_timesFromStart (h : ValidSchedule list chart)
    (hpiece : ∀ i, (list i).finish = (list i).start + (list i).burst) (ret : ℤ) :
    Valid ⟨fun i => (list i).timesFromStart, chart, ret⟩ where
  toValidSchedule := ⟨h.ended, h.slots, h.within, h.first, h.last, h.idle, h.length⟩
  turnaround i := by
    have := hpiece i
    simp only [Process.timesFromStart]
    omega
  response i := by
    have hstart := h.arrival_le_start i
    simp only [Process.timesFromStart]
    omega

end Times

end SchoolOS.CpuScheduler
