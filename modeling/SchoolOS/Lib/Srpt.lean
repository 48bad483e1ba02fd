import SchoolOS.Lib.UnitSchedule
import Mathlib.Order.Interval.Finset.Nat

/-!
# Shortest remaining time first is optimal

A work-conserving schedule that gives every slot to a job with the least time left has the least
total flow time, the sum of `finish - arrival`, among all schedules of the same jobs
(`sum_flow_le`).

The total flow time is the number of unfinished jobs, summed over time. So it is enough that at
every time the schedule has the fewest unfinished jobs. This follows from `Dominates`: whichever
jobs are left out on the other side, as many can be left out on this side such that no more work is
left. Slots and arrivals keep this relation.
-/

namespace SchoolOS

open Function

section Dominates

variable {ι : Type*} [Fintype ι] [DecidableEq ι] {R R' : ι → ℕ}

/-- Whichever jobs are left out of `R'`, as many can be left out of `R` so that no more is left. -/
def Dominates (R R' : ι → ℕ) : Prop :=
  ∀ S' : Finset ι, ∃ S : Finset ι, S.card ≤ S'.card ∧ ∑ i ∈ Sᶜ, R i ≤ ∑ i ∈ S'ᶜ, R' i

theorem Dominates.refl (R : ι → ℕ) : Dominates R R := fun S => ⟨S, le_rfl, le_rfl⟩

/-- The dominating side has no more unfinished jobs. -/
theorem Dominates.card_le (h : Dominates R R') :
    (Finset.univ.filter fun i => R i ≠ 0).card ≤ (Finset.univ.filter fun i => R' i ≠ 0).card := by
  obtain ⟨S, hcard, hsum⟩ := h (Finset.univ.filter fun i => R' i ≠ 0)
  have hzero' : ∑ i ∈ (Finset.univ.filter fun i => R' i ≠ 0)ᶜ, R' i = 0 := by
    apply Finset.sum_eq_zero
    intro i hi
    simpa using hi
  have hzero : ∑ i ∈ Sᶜ, R i = 0 := Nat.le_zero.mp (hsum.trans hzero'.le)
  refine (Finset.card_le_card fun i hi => ?_).trans hcard
  by_contra hiS
  exact (Finset.mem_filter.mp hi).2
    (Finset.sum_eq_zero_iff.mp hzero i (Finset.mem_compl.mpr hiS))

/-- The jobs of `A` arrive on both sides. -/
theorem Dominates.arrive (h : Dominates R R') (A : Finset ι) (b : ι → ℕ) (hR : ∀ i ∈ A, R i = 0)
    (hR' : ∀ i ∈ A, R' i = 0) :
    Dominates (fun i => if i ∈ A then b i else R i) fun i => if i ∈ A then b i else R' i := by
  -- outside `A` nothing changes, and the jobs of `A` are left out on both sides or on neither
  have hsplit : ∀ (Q : ι → ℕ) (T : Finset ι), (∀ i ∈ A, Q i = 0) →
      ∑ i ∈ Tᶜ, (if i ∈ A then b i else Q i) = ∑ i ∈ Tᶜ, Q i + ∑ i ∈ A \ T, b i := by
    intro Q T hQ
    have hA : ∑ i ∈ A \ T, b i = ∑ i ∈ Tᶜ, if i ∈ A then b i else 0 := by
      rw [← Finset.sum_filter]
      apply Finset.sum_congr _ fun _ _ => rfl
      ext i
      simp [and_comm]
    rw [hA, ← Finset.sum_add_distrib]
    refine Finset.sum_congr rfl fun i _ => ?_
    by_cases hi : i ∈ A
    · simp [hi, hQ i hi]
    · simp [hi]
  intro V
  obtain ⟨S, hcard, hsum⟩ := h (V \ A)
  refine ⟨S \ A ∪ (V ∩ A), ?_, ?_⟩
  · calc (S \ A ∪ (V ∩ A)).card ≤ (S \ A).card + (V ∩ A).card := Finset.card_union_le _ _
      _ ≤ S.card + (V ∩ A).card := Nat.add_le_add_right (Finset.card_le_card Finset.sdiff_subset) _
      _ ≤ (V \ A).card + (V ∩ A).card := Nat.add_le_add_right hcard _
      _ = V.card := Finset.card_sdiff_add_card_inter V A
  · have hdiff : A \ (S \ A ∪ (V ∩ A)) = A \ V := by
      ext i
      simp only [Finset.mem_sdiff, Finset.mem_union, Finset.mem_inter]
      tauto
    -- jobs of `A` count nothing in `R` and `R'`
    have hout : ∀ (Q : ι → ℕ) (T U : Finset ι), (∀ i ∈ A, Q i = 0) → (∀ i ∉ A, i ∈ T ↔ i ∈ U) →
        ∑ i ∈ Tᶜ, Q i = ∑ i ∈ Uᶜ, Q i := by
      intro Q T U hQ hTU
      rw [← Finset.sum_filter_ne_zero, ← Finset.sum_filter_ne_zero (s := Uᶜ)]
      apply Finset.sum_congr _ fun _ _ => rfl
      ext i
      by_cases hi : i ∈ A
      · simp [hQ i hi]
      · simp [hTU i hi]
    rw [hsplit R _ hR, hsplit R' _ hR', hdiff]
    apply Nat.add_le_add_right
    calc ∑ i ∈ (S \ A ∪ (V ∩ A))ᶜ, R i = ∑ i ∈ Sᶜ, R i :=
          hout R _ _ hR fun i hi => by simp [hi]
      _ ≤ ∑ i ∈ (V \ A)ᶜ, R' i := hsum
      _ = ∑ i ∈ Vᶜ, R' i := hout R' _ _ hR' fun i hi => by simp [hi]

/-- The time left after a slot that was given to a job, or to none. -/
def serve (R : ι → ℕ) : Option ι → ι → ℕ
  | none => R
  | some i => update R i (R i - 1)

section Serve

omit [Fintype ι]

theorem serve_le (R : ι → ℕ) (o : Option ι) (i : ι) : serve R o i ≤ R i := by
  cases o with
  | none => exact le_rfl
  | some j =>
    by_cases hij : i = j
    · subst hij
      simp [serve]
    · simp [serve, hij]

/-- A slot takes one unit from a set that contains the job it is given to, if the job has one
left. -/
theorem sum_serve_of_mem {j : ι} {S : Finset ι} (hj : j ∈ S) :
    ∑ i ∈ S, serve R (some j) i + R j = ∑ i ∈ S, R i + (R j - 1) := by
  have hrest : ∑ i ∈ S.erase j, serve R (some j) i = ∑ i ∈ S.erase j, R i :=
    Finset.sum_congr rfl fun i hi => update_of_ne (Finset.ne_of_mem_erase hi) _ _
  have hjob : serve R (some j) j = R j - 1 := update_self _ _ _
  rw [← Finset.add_sum_erase S R hj, ← Finset.add_sum_erase S (serve R (some j)) hj]
  omega

/-- A slot takes at most one unit from any set of jobs. -/
theorem sum_le_sum_serve (R : ι → ℕ) (o : Option ι) (S : Finset ι) :
    ∑ i ∈ S, R i ≤ ∑ i ∈ S, serve R o i + 1 := by
  cases o with
  | none => exact Nat.le_succ _
  | some j =>
    by_cases hj : j ∈ S
    · have := sum_serve_of_mem (R := R) hj
      omega
    · have hrest : ∑ i ∈ S, serve R (some j) i = ∑ i ∈ S, R i := by
        refine Finset.sum_congr rfl fun i hi => update_of_ne ?_ _ _
        rintro rfl
        exact hj hi
      omega

end Serve

/-- Leaving out `m` instead of a shorter job `j`. -/
theorem exists_swap {S : Finset ι} {j m : ι} (hj : j ∈ S) (hm : m ∉ S) (hle : R j ≤ R m) :
    ∃ T : Finset ι, T.card = S.card ∧ j ∉ T ∧ ∑ i ∈ Tᶜ, R i ≤ ∑ i ∈ Sᶜ, R i := by
  have hjm : j ≠ m := fun hjm => hm (hjm ▸ hj)
  refine ⟨insert m (S.erase j), ?_, ?_, ?_⟩
  · rw [Finset.card_insert_of_notMem (by simp [hm]), Finset.card_erase_add_one hj]
  · simp [hjm]
  · have hcompl : (insert m (S.erase j))ᶜ = insert j (Sᶜ.erase m) := by
      ext i
      simp only [Finset.mem_compl, Finset.mem_insert, Finset.mem_erase]
      by_cases hij : i = j
      · subst hij
        simp [hjm]
      · simp [hij]
    rw [hcompl, Finset.sum_insert (by simp [hj])]
    have := Finset.add_sum_erase Sᶜ R (Finset.mem_compl.mpr hm)
    omega

/-- A slot on both sides, given to a shortest job on this side and to any job on the other. -/
theorem Dominates.serve (h : Dominates R R') {o : Option ι} (o' : Option ι)
    (hidle : o = none → ∀ i, R i = 0)
    (hshortest : ∀ j, o = some j → 0 < R j ∧ ∀ i, 0 < R i → R j ≤ R i) :
    Dominates (serve R o) (serve R' o') := by
  intro S'
  obtain ⟨S, hcard, hsum⟩ := h S'
  have hother := sum_le_sum_serve R' o' S'ᶜ
  by_cases hzero : ∑ i ∈ Sᶜ, R i = 0
  · refine ⟨S, hcard, ?_⟩
    have hle : ∑ i ∈ Sᶜ, SchoolOS.serve R o i ≤ ∑ i ∈ Sᶜ, R i :=
      Finset.sum_le_sum fun i _ => serve_le R o i
    omega
  · -- some job outside `S` is unfinished, so the slot is in use
    obtain ⟨m, hm, hmpos⟩ := Finset.exists_ne_zero_of_sum_ne_zero hzero
    cases o with
    | none => exact absurd (hidle rfl m) hmpos
    | some j =>
      obtain ⟨hpos, hshort⟩ := hshortest j rfl
      by_cases hj : j ∈ S
      · obtain ⟨T, hT, hjT, hle⟩ := exists_swap hj (Finset.mem_compl.mp hm)
          (hshort m (Nat.pos_of_ne_zero hmpos))
        refine ⟨T, hT.trans_le hcard, ?_⟩
        have := sum_serve_of_mem (R := R) (Finset.mem_compl.mpr hjT)
        omega
      · refine ⟨S, hcard, ?_⟩
        have := sum_serve_of_mem (R := R) (Finset.mem_compl.mpr hj)
        omega

end Dominates

namespace UnitSchedule

variable {ι : Type*} [DecidableEq ι] {arrival burst : ι → ℤ} (S : UnitSchedule arrival burst)

/-- The time that job `i` still needs at time `t`, nothing before its arrival. -/
def outstanding (t : ℕ) (i : ι) : ℕ :=
  if arrival i ≤ t then (burst i - S.served i t).toNat else 0

/-- Every slot is given to a job with the least time left. -/
def ShortestFirst : Prop :=
  ∀ t i, S.slot t = some i → ∀ j, arrival j ≤ t → t < S.finish j →
    burst i - S.served i t ≤ burst j - S.served j t

theorem outstanding_ne_zero_iff {t : ℕ} {i : ι} :
    S.outstanding t i ≠ 0 ↔ arrival i ≤ t ∧ t < S.finish i := by
  unfold outstanding
  rw [← S.served_lt_iff]
  split
  · rename_i harrived
    simp only [harrived, true_and, ne_eq, Int.toNat_eq_zero]
    omega
  · rename_i hlate
    simp [hlate]

/-- From one slot to the next: the slot is used, then new jobs arrive. -/
theorem outstanding_succ [Fintype ι] (t : ℕ) :
    S.outstanding (t + 1) = fun i =>
      if i ∈ Finset.univ.filter (fun i => arrival i = t + 1) then (burst i).toNat
      else serve (S.outstanding t) (S.slot t) i := by
  funext i
  simp only [Finset.mem_filter, Finset.mem_univ, true_and]
  have hslot : ¬ arrival i ≤ t → S.slot t ≠ some i := fun hlate hslot =>
    hlate (S.arrived t i hslot)
  have hserve : serve (S.outstanding t) (S.slot t) i =
      S.outstanding t i - if S.slot t = some i then 1 else 0 := by
    cases hj : S.slot t with
    | none => simp [serve]
    | some j =>
      by_cases hij : i = j
      · subst hij
        simp [serve]
      · simp [serve, hij, Ne.symm hij]
  rw [hserve]
  unfold outstanding
  push_cast
  by_cases hnow : arrival i = t + 1
  · rw [if_pos hnow, if_pos hnow.le, S.served_eq_zero (by push_cast; omega)]
    simp
  · rw [if_neg hnow]
    by_cases harrived : arrival i ≤ t
    · rw [if_pos harrived, if_pos (by omega), S.served_succ]
      split
      · push_cast
        omega
      · simp
    · rw [if_neg harrived, if_neg (by omega)]
      simp

variable [Fintype ι]

/-- At every time, a shortest-first schedule dominates every other schedule. -/
theorem dominates {S : UnitSchedule arrival burst} (hwork : S.WorkConserving)
    (hshort : S.ShortestFirst) (S' : UnitSchedule arrival burst) (t : ℕ) :
    Dominates (S.outstanding t) (S'.outstanding t) := by
  induction t with
  | zero =>
    have hsame : S'.outstanding 0 = S.outstanding 0 := by
      funext i
      simp [outstanding, served]
    rw [hsame]
    exact Dominates.refl _
  | succ t ih =>
    rw [S.outstanding_succ, S'.outstanding_succ]
    have hnew : ∀ (Q : UnitSchedule arrival burst), ∀ i ∈ Finset.univ.filter
        (fun i => arrival i = t + 1), serve (Q.outstanding t) (Q.slot t) i = 0 := by
      intro Q i hi
      have hlate : ¬ arrival i ≤ t := by
        have := (Finset.mem_filter.mp hi).2
        omega
      have hle := serve_le (Q.outstanding t) (Q.slot t) i
      simp only [outstanding, if_neg hlate] at hle
      omega
    refine Dominates.arrive ?_ _ _ (hnew S) (hnew S')
    apply ih.serve
    · intro hnone i
      by_contra hne
      obtain ⟨harrived, hlt⟩ := S.outstanding_ne_zero_iff.mp hne
      exact absurd (hwork t hnone i harrived) (by omega)
    · intro j hj
      have harrived := S.arrived t j hj
      have hpos := S.outstanding_ne_zero_iff.mpr ⟨harrived, S.slot_lt_finish hj⟩
      refine ⟨Nat.pos_of_ne_zero hpos, fun i hi => ?_⟩
      obtain ⟨hiarrived, hilt⟩ := S.outstanding_ne_zero_iff.mp hi.ne'
      have hle := hshort t j hj i hiarrived hilt
      simp only [outstanding, if_pos harrived, if_pos hiarrived]
      exact Int.toNat_le_toNat hle

/-- The total flow time is the number of unfinished jobs, summed over time. -/
theorem sum_flow (harrival : ∀ i, 0 ≤ arrival i) {T : ℕ} (hT : ∀ i, S.finish i ≤ T) :
    ∑ i, ((S.finish i : ℤ) - arrival i) =
      ∑ t ∈ Finset.range T, ((Finset.univ.filter fun i => S.outstanding t i ≠ 0).card : ℤ) := by
  have hjob : ∀ i, (S.finish i : ℤ) - arrival i =
      ∑ t ∈ Finset.range T, if S.outstanding t i ≠ 0 then 1 else 0 := by
    intro i
    have hfilter : (Finset.range T).filter (fun t => S.outstanding t i ≠ 0) =
        Finset.Ico (arrival i).toNat (S.finish i) := by
      ext t
      have := hT i
      rw [Finset.mem_filter, Finset.mem_range, S.outstanding_ne_zero_iff, Finset.mem_Ico]
      omega
    obtain ⟨t, ht, hlast⟩ := S.last i
    have hle := S.arrived t i hlast.1
    have := harrival i
    rw [← Finset.sum_filter, Finset.sum_const, hfilter, Nat.card_Ico, nsmul_one]
    omega
  rw [Finset.sum_congr rfl fun i _ => hjob i, Finset.sum_comm]
  refine Finset.sum_congr rfl fun t _ => ?_
  rw [Finset.card_filter]
  push_cast
  rfl

/-- A work-conserving shortest-first schedule has the least total flow time. -/
theorem sum_flow_le {S : UnitSchedule arrival burst} (hwork : S.WorkConserving)
    (hshort : S.ShortestFirst) (harrival : ∀ i, 0 ≤ arrival i) (S' : UnitSchedule arrival burst) :
    ∑ i, ((S.finish i : ℤ) - arrival i) ≤ ∑ i, ((S'.finish i : ℤ) - arrival i) := by
  set T := Finset.univ.sup S.finish + Finset.univ.sup S'.finish with hT
  have hfin : ∀ i, S.finish i ≤ T := fun i =>
    (Finset.le_sup (Finset.mem_univ i)).trans (Nat.le_add_right _ _)
  have hfin' : ∀ i, S'.finish i ≤ T := fun i =>
    (Finset.le_sup (Finset.mem_univ i)).trans (Nat.le_add_left _ _)
  rw [S.sum_flow harrival hfin, S'.sum_flow harrival hfin']
  refine Finset.sum_le_sum fun t _ => ?_
  exact_mod_cast (dominates hwork hshort S' t).card_le

end UnitSchedule

/-! ## Charts -/

section Charts

variable {ι : Type*} [DecidableEq ι] {arrival burst : ι → ℤ} {chart : List (Option ι)}

/-- Every slot of the chart was given to a pending job with the least time left. -/
def ShortestChart (arrival burst : ι → ℤ) (chart : List (Option ι)) : Prop :=
  ∀ (t : ℕ) i, chart[t]? = some (some i) → ∀ j, Pending arrival burst (chart.take t) j →
    burst i - (chart.take t).count (some i) ≤ burst j - (chart.take t).count (some j)

theorem ShortestChart.concat {o : Option ι} (h : ShortestChart arrival burst chart)
    (ho : ∀ i, o = some i → ∀ j, Pending arrival burst chart j →
      burst i - chart.count (some i) ≤ burst j - chart.count (some j)) :
    ShortestChart arrival burst (chart ++ [o]) := by
  intro t i ht
  rcases getElem?_concat_iff.mp ht with hold | ⟨rfl, hi⟩
  · rw [List.take_append_of_le_length (List.getElem?_eq_some_iff.mp hold).1.le]
    exact h t i hold
  · rw [List.take_left]
    exact ho i hi

theorem Conserving.shortestFirst (h : Conserving arrival burst chart)
    (hcount : ∀ i, (chart.count (some i) : ℤ) = burst i) (finish : ι → ℕ)
    (hlast : ∀ i, ∃ t, finish i = t + 1 ∧ LastAt chart (some i) t)
    (hshort : ShortestChart arrival burst chart) :
    (h.toUnitSchedule hcount finish hlast).ShortestFirst := by
  intro t i hslot j harrived hlt
  have hslot' : chart[t]? = some (some i) := Option.join_eq_some_iff.mp hslot
  have hserved := (UnitSchedule.served_lt_iff _).mpr hlt
  rw [h.served_toUnitSchedule] at hserved ⊢
  rw [h.served_toUnitSchedule]
  apply hshort t i hslot' j
  refine ⟨?_, hserved⟩
  rwa [List.length_take_of_le (List.getElem?_eq_some_iff.mp hslot').1.le]

end Charts

end SchoolOS
