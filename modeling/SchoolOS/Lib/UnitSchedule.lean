import Mathlib.Algebra.Order.BigOperators.Ring.Finset
import Mathlib.Data.List.Basic
import Mathlib.Data.Set.Card
import SchoolOS.Lib.Occurrences

/-!
# Unit-slot schedules of one processor

Jobs `ι` with an arrival time and a number of slots they need share one processor, one job for each
slot `t = 0, 1, …`.

A `UnitSchedule` gives every job all its slots, none before its arrival. It is work-conserving if a
slot is empty only while no job is waiting; all work-conserving schedules of the same jobs leave the
same slots empty (`WorkConserving.slot_eq_none_iff`).

A `Conserving` chart is such a schedule in the making, as a list of slots that grows at its end.
When every job has had its slots, it is a work-conserving schedule (`Conserving.toUnitSchedule`).
-/

namespace SchoolOS

/-! ## Schedules -/

/-- A schedule of jobs with the given arrival times and numbers of slots. `finish` is the time after
the last slot of a job. -/
structure UnitSchedule {ι : Type*} (arrival burst : ι → ℤ) where
  slot : ℕ → Option ι
  finish : ι → ℕ
  arrived : ∀ t i, slot t = some i → arrival i ≤ t
  card_slots : ∀ i, ({t | slot t = some i}.ncard : ℤ) = burst i
  last : ∀ i, ∃ t, finish i = t + 1 ∧ IsGreatest {t | slot t = some i} t

namespace UnitSchedule

variable {ι : Type*} [DecidableEq ι] {arrival burst : ι → ℤ}

/-- The number of slots job `i` has had before time `t`. -/
def served (S : UnitSchedule arrival burst) (i : ι) (t : ℕ) : ℕ :=
  Nat.count (fun u => S.slot u = some i) t

/-- A slot is empty only if every job that has arrived is finished. -/
def WorkConserving (S : UnitSchedule arrival burst) : Prop :=
  ∀ t, S.slot t = none → ∀ i, arrival i ≤ t → S.finish i ≤ t

variable (S : UnitSchedule arrival burst)

omit [DecidableEq ι] in
theorem slot_lt_finish {t : ℕ} {i : ι} (h : S.slot t = some i) : t < S.finish i := by
  obtain ⟨u, hu, -, hlast⟩ := S.last i
  have := hlast h
  omega

theorem served_succ (i : ι) (t : ℕ) :
    S.served i (t + 1) = S.served i t + if S.slot t = some i then 1 else 0 :=
  Nat.count_succ _ _

theorem served_mono (i : ι) : Monotone (S.served i) := Nat.count_monotone _

/-- A finished job has had all its slots. -/
theorem served_of_finish_le {i : ι} {t : ℕ} (h : S.finish i ≤ t) :
    (S.served i t : ℤ) = burst i := by
  have hset : {u | S.slot u = some i} =
      ((Finset.range t).filter fun u => S.slot u = some i : Finset ℕ) := by
    ext u
    simp only [Set.mem_ofPred_eq, Finset.coe_filter, Finset.mem_range, iff_and_self]
    intro hu
    have := S.slot_lt_finish hu
    omega
  rw [← S.card_slots i, hset, Set.ncard_coe_finset, served, Nat.count_eq_card_filter_range]

/-- A job that is not finished still needs a slot. -/
theorem served_lt_iff {i : ι} {t : ℕ} : (S.served i t : ℤ) < burst i ↔ t < S.finish i := by
  constructor
  · intro hlt
    by_contra hle
    rw [S.served_of_finish_le (Nat.le_of_not_lt hle)] at hlt
    exact lt_irrefl _ hlt
  · intro hlt
    obtain ⟨u, hu, hlast⟩ := S.last i
    have hslot : S.slot u = some i := hlast.1
    have hmono := S.served_mono i (show t ≤ u by omega)
    have hfin := S.served_of_finish_le hu.le
    rw [served_succ, if_pos hslot] at hfin
    omega

theorem served_le (i : ι) (t : ℕ) : (S.served i t : ℤ) ≤ burst i := by
  rcases lt_or_ge t (S.finish i) with hlt | hge
  · exact (S.served_lt_iff.mpr hlt).le
  · exact (S.served_of_finish_le hge).le

/-- Before its arrival, a job has had no slot. -/
theorem served_eq_zero {i : ι} {t : ℕ} (h : (t : ℤ) < arrival i + 1) : S.served i t = 0 := by
  induction t with
  | zero => exact Nat.count_zero _
  | succ t ih =>
    rw [served_succ, ih (by omega), if_neg]
    intro hslot
    have := S.arrived t i hslot
    omega

/-! ### Empty slots -/

section Idle

variable [Fintype ι]

/-- The slots in use before `t` are those that the jobs have had. -/
theorem sum_served (t : ℕ) : ∑ i, S.served i t = Nat.count (fun u => S.slot u ≠ none) t := by
  induction t with
  | zero => simp [served]
  | succ t ih =>
    simp only [served_succ, Finset.sum_add_distrib, ih, Nat.count_succ]
    congr 1
    cases S.slot t with
    | none => simp
    | some i => simp

/-- A slot is empty exactly if the jobs that have arrived have had as many slots as they need. -/
theorem WorkConserving.slot_eq_none {S : UnitSchedule arrival burst} (h : S.WorkConserving)
    (t : ℕ) :
    S.slot t = none ↔
      ∑ i with arrival i ≤ t, burst i = (Nat.count (fun u => S.slot u ≠ none) t : ℤ) := by
  have hserved : (∑ i with arrival i ≤ t, (S.served i t : ℤ)) =
      (Nat.count (fun u => S.slot u ≠ none) t : ℤ) := by
    rw [← S.sum_served t, Nat.cast_sum]
    apply Finset.sum_filter_of_ne
    intro i _ hi
    by_contra hlate
    exact hi (by rw [S.served_eq_zero (by omega), Nat.cast_zero])
  rw [← hserved, @eq_comm ℤ, Finset.sum_eq_sum_iff_of_le fun i _ => S.served_le i t]
  constructor
  · intro hnone i hi
    exact S.served_of_finish_le (h t hnone i (Finset.mem_filter.mp hi).2)
  · intro hall
    cases hslot : S.slot t with
    | none => rfl
    | some i =>
      have hi := hall i (Finset.mem_filter.mpr ⟨Finset.mem_univ i, S.arrived t i hslot⟩)
      have := S.served_lt_iff.mpr (S.slot_lt_finish hslot)
      omega

/-- All work-conserving schedules of the same jobs leave the same slots empty. -/
theorem WorkConserving.slot_eq_none_iff {S S' : UnitSchedule arrival burst} (h : S.WorkConserving)
    (h' : S'.WorkConserving) (t : ℕ) : S.slot t = none ↔ S'.slot t = none := by
  -- the schedules have used the same number of slots before every time
  have hcount : ∀ t, Nat.count (fun u => S.slot u ≠ none) t =
      Nat.count (fun u => S'.slot u ≠ none) t := by
    intro t
    induction t with
    | zero => simp
    | succ t ih =>
      have hslot : S.slot t ≠ none ↔ S'.slot t ≠ none := by
        rw [Ne, Ne, h.slot_eq_none t, h'.slot_eq_none t, ih]
      rw [Nat.count_succ, Nat.count_succ, ih]
      simp only [hslot]
  rw [h.slot_eq_none t, h'.slot_eq_none t, hcount t]

omit [DecidableEq ι] [Fintype ι] in
/-- All jobs are finished at time `m` exactly if all slots in use lie before `m`. -/
theorem finish_le_iff (m : ℕ) : (∀ i, S.finish i ≤ m) ↔ ∀ t, S.slot t ≠ none → t < m := by
  constructor
  · intro hfin t ht
    obtain ⟨i, hi⟩ := Option.ne_none_iff_exists'.mp ht
    exact (S.slot_lt_finish hi).trans_le (hfin i)
  · intro hbusy i
    obtain ⟨t, ht, hlast⟩ := S.last i
    have hslot : S.slot t = some i := hlast.1
    have := hbusy t (by simp [hslot])
    omega

end Idle

/-- The same schedule, for jobs under other names. -/
def relabel {κ : Type*} (e : ι ≃ κ) {arrival' burst' : κ → ℤ}
    (harrival : ∀ i, arrival' (e i) = arrival i)
    (hburst : ∀ i, burst' (e i) = burst i) : UnitSchedule arrival' burst' where
  slot t := (S.slot t).map e
  finish k := S.finish (e.symm k)
  arrived t k h := by
    obtain ⟨i, hi, rfl⟩ := Option.map_eq_some_iff.mp h
    rw [harrival]
    exact S.arrived t i hi
  card_slots k := by
    obtain ⟨i, rfl⟩ := e.surjective k
    rw [hburst, ← S.card_slots i]
    simp
  last k := by
    obtain ⟨i, rfl⟩ := e.surjective k
    simpa using S.last i

end UnitSchedule

/-! ## Charts -/

section Charts

variable {ι : Type*} [DecidableEq ι] {arrival burst : ι → ℤ} {chart : List (Option ι)}

/-- Job `i` has arrived by the end of the chart, and needs more slots. -/
def Pending (arrival burst : ι → ℤ) (chart : List (Option ι)) (i : ι) : Prop :=
  arrival i ≤ chart.length ∧ (chart.count (some i) : ℤ) < burst i

/-- The charts that give every slot to a pending job and leave a slot empty only if there is none
and some job is still to come. -/
inductive Conserving (arrival burst : ι → ℤ) : List (Option ι) → Prop
  | nil : Conserving arrival burst []
  | run {chart : List (Option ι)} {i : ι} : Conserving arrival burst chart →
    Pending arrival burst chart i → Conserving arrival burst (chart ++ [some i])
  | idle {chart : List (Option ι)} : Conserving arrival burst chart →
    (∀ i, ¬ Pending arrival burst chart i) → (∃ i, (chart.count (some i) : ℤ) < burst i) →
    Conserving arrival burst (chart ++ [none])

namespace Conserving

/-- A slot is given to a pending job. -/
theorem pending_of_run (h : Conserving arrival burst chart) {t : ℕ} {i : ι}
    (ht : chart[t]? = some (some i)) : Pending arrival burst (chart.take t) i := by
  induction h with
  | nil => simp at ht
  | run _ hpending ih =>
    rcases getElem?_concat_iff.mp ht with hold | ⟨rfl, hi⟩
    · rw [List.take_append_of_le_length (List.getElem?_eq_some_iff.mp hold).1.le]
      exact ih hold
    · obtain rfl := Option.some.inj hi
      rwa [List.take_left]
  | idle _ _ _ ih =>
    rcases getElem?_concat_iff.mp ht with hold | ⟨-, hi⟩
    · rw [List.take_append_of_le_length (List.getElem?_eq_some_iff.mp hold).1.le]
      exact ih hold
    · simp at hi

/-- A slot is left empty only if no job is pending. -/
theorem not_pending_of_idle (h : Conserving arrival burst chart) {t : ℕ}
    (ht : chart[t]? = some none) (i : ι) : ¬ Pending arrival burst (chart.take t) i := by
  induction h with
  | nil => simp at ht
  | run _ _ ih =>
    rcases getElem?_concat_iff.mp ht with hold | ⟨-, hi⟩
    · rw [List.take_append_of_le_length (List.getElem?_eq_some_iff.mp hold).1.le]
      exact ih hold
    · simp at hi
  | idle _ hnone _ ih =>
    rcases getElem?_concat_iff.mp ht with hold | ⟨rfl, -⟩
    · rw [List.take_append_of_le_length (List.getElem?_eq_some_iff.mp hold).1.le]
      exact ih hold
    · rw [List.take_left]
      exact hnone i

theorem count_le (h : Conserving arrival burst chart) {i : ι} (hburst : 0 ≤ burst i) :
    (chart.count (some i) : ℤ) ≤ burst i := by
  induction h with
  | nil => simpa using hburst
  | @run chart j _ hpending ih =>
    by_cases hij : j = i
    · subst hij
      have := hpending.2
      simp
      omega
    · simpa [hij] using ih
  | idle _ _ _ ih => simpa using ih

/-- The last slot of a chart that has given every job its slots is in use. -/
theorem getLast?_ne_none (h : Conserving arrival burst chart)
    (hcount : ∀ i, (chart.count (some i) : ℤ) = burst i) : chart.getLast? ≠ some none := by
  cases h with
  | nil => simp
  | run => simp
  | idle _ _ hwork =>
    obtain ⟨i, hi⟩ := hwork
    have := hcount i
    simp at this
    omega

section Complete

variable (h : Conserving arrival burst chart) (hcount : ∀ i, (chart.count (some i) : ℤ) = burst i)
  (finish : ι → ℕ) (hlast : ∀ i, ∃ t, finish i = t + 1 ∧ LastAt chart (some i) t)

/-- The schedule of a chart that has given every job its slots. -/
def toUnitSchedule : UnitSchedule arrival burst where
  slot t := chart[t]?.join
  finish := finish
  arrived t i ht := by
    have hlt := (List.getElem?_eq_some_iff.mp (Option.join_eq_some_iff.mp ht)).1
    have hpending := h.pending_of_run (Option.join_eq_some_iff.mp ht)
    rw [Pending, List.length_take_of_le hlt.le] at hpending
    exact hpending.1
  card_slots i := by
    have hset : {t : ℕ | chart[t]?.join = some i} =
        ((Finset.range chart.length).filter fun t => chart[t]? = some (some i) : Finset ℕ) := by
      ext t
      simp only [Set.mem_ofPred_eq, Option.join_eq_some_iff, Finset.coe_filter, Finset.mem_range,
        iff_and_self]
      exact fun ht => (List.getElem?_eq_some_iff.mp ht).1
    rw [hset, Set.ncard_coe_finset, ← Nat.count_eq_card_filter_range, ← count_take_eq,
      List.take_length, hcount i]
  last i := by
    obtain ⟨t, ht, hlast⟩ := hlast i
    refine ⟨t, ht, Option.join_eq_some_iff.mpr hlast.at_self, ?_⟩
    intro u hu
    by_contra hlt
    exact hlast.after u (Nat.lt_of_not_le hlt) (Option.join_eq_some_iff.mp hu)

theorem served_toUnitSchedule (i : ι) (t : ℕ) :
    (h.toUnitSchedule hcount finish hlast).served i t = (chart.take t).count (some i) := by
  rw [count_take_eq]
  simp only [UnitSchedule.served, toUnitSchedule, Option.join_eq_some_iff]

theorem workConserving : (h.toUnitSchedule hcount finish hlast).WorkConserving := by
  intro t hnone i harrival
  by_contra hunfinished
  rcases lt_or_ge t chart.length with hlt | hge
  · have hidle : chart[t]? = some none := by
      have hjoin : chart[t]?.join = none := hnone
      rw [List.getElem?_eq_getElem hlt] at hjoin ⊢
      simpa using hjoin
    apply h.not_pending_of_idle hidle i
    rw [Pending, List.length_take_of_le hlt.le, ← h.served_toUnitSchedule hcount finish hlast]
    exact ⟨harrival, (UnitSchedule.served_lt_iff _).mpr (Nat.lt_of_not_le hunfinished)⟩
  · obtain ⟨u, hu, hlast⟩ := hlast i
    have := (List.getElem?_eq_some_iff.mp hlast.at_self).1
    exact hunfinished (show finish i ≤ t by omega)

end Complete

end Conserving

end Charts

end SchoolOS
