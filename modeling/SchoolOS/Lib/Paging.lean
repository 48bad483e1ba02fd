import Mathlib.Data.ENat.Basic
import Mathlib.Data.Finset.Card
import Mathlib.Data.Fintype.Card
import Mathlib.Data.Fintype.Fin

/-!
# Demand paging

A reference string is served by a table of `m` frames. `DemandRun` describes the sets of resident
pages of a simulator that changes the table only on a page fault, and then replaces at most one
page. `Policy` describes an arbitrary competitor, which may also drop pages at any time.

`OptimalRun.faults_le` is the optimality of replacing a page whose next use is farthest away.
Compare the resident sets `S` and `T` of the two runs on the pages `N` of the next `t` references,
for every `t`: as long as the faults of the first run do not exceed those of the second, `T` may
hold more pages of `N` than `S` only by the difference of the faults (`Ahead`).
-/

namespace SchoolOS.Paging

variable {α : Type*} [DecidableEq α]

/-- The table before and after a reference to `p`. A page is replaced exactly if the table is
full. -/
inductive Replaces (m : ℕ) (S : Finset α) (p : α) : Finset α → Prop
  | hit : p ∈ S → Replaces m S p S
  | fill : p ∉ S → S.card < m → Replaces m S p (insert p S)
  | evict {v : α} : p ∉ S → S.card = m → v ∈ S → Replaces m S p (insert p (S.erase v))

/-- The resident sets of a run: `S i` is the set before reference `i`. -/
structure DemandRun (m : ℕ) (string : List α) (S : ℕ → Finset α) : Prop where
  start : S 0 = ∅
  step : ∀ i (hi : i < string.length), Replaces m (S i) string[i] (S (i + 1))

/-- The resident sets of any demand-paging policy with `m` frames. -/
structure Policy (m : ℕ) (string : List α) (S : ℕ → Finset α) : Prop where
  start : S 0 = ∅
  resident : ∀ i (hi : i < string.length), string[i] ∈ S (i + 1)
  subset : ∀ i (hi : i < string.length), S (i + 1) ⊆ insert string[i] (S i)
  card_le : ∀ i < string.length, (S (i + 1)).card ≤ m

/-- The number of references to a page that is not resident. -/
def faults (string : List α) (S : ℕ → Finset α) : ℕ :=
  (Finset.univ.filter fun i : Fin string.length => string[i] ∉ S i).card

/-- The number of faults among the first `k` references. -/
def faultsUpTo (string : List α) (S : ℕ → Finset α) (k : ℕ) : ℕ :=
  (Finset.univ.filter fun i : Fin string.length => i.val < k ∧ string[i] ∉ S i).card

variable {m : ℕ} {string : List α} {S T : ℕ → Finset α}

@[simp] theorem faultsUpTo_zero : faultsUpTo string S 0 = 0 := by
  simp [faultsUpTo]

theorem faultsUpTo_length : faultsUpTo string S string.length = faults string S := by
  simp [faultsUpTo, faults]

theorem faultsUpTo_succ {k : ℕ} (hk : k < string.length) :
    faultsUpTo string S (k + 1) = faultsUpTo string S k + if string[k] ∈ S k then 0 else 1 := by
  unfold faultsUpTo
  by_cases hmem : string[k] ∈ S k
  · rw [if_pos hmem, Nat.add_zero]
    refine congrArg Finset.card (Finset.filter_congr fun i _ => and_congr_left fun hi => ?_)
    have hne : i.val ≠ k := by
      rintro rfl
      exact hi hmem
    omega
  · have hinsert :
      (Finset.univ.filter fun i : Fin string.length => i.val < k + 1 ∧ string[i] ∉ S i) =
        insert ⟨k, hk⟩ (Finset.univ.filter fun i : Fin string.length => i.val < k ∧
          string[i] ∉ S i) := by
      ext i
      by_cases hi : i = ⟨k, hk⟩
      · simp [hi, hmem]
      · have hne : i.val ≠ k := fun h => hi (Fin.ext h)
        have hlt : i.val < k + 1 ↔ i.val < k := by omega
        simp only [Finset.mem_insert, Finset.mem_filter, Finset.mem_univ, true_and, hi, false_or,
          hlt]
    rw [if_neg hmem, hinsert, Finset.card_insert_of_notMem (by simp)]

/-- A run that always holds the pages of another one has at most as many faults. -/
theorem faultsUpTo_anti {k : ℕ} (h : ∀ i < string.length, S i ⊆ T i) :
    faultsUpTo string T k ≤ faultsUpTo string S k := by
  apply Finset.card_le_card
  apply Finset.monotone_filter_right
  exact fun i _ hi => ⟨hi.1, fun hmem => hi.2 (h i i.isLt hmem)⟩

theorem toFinset_take_succ {k : ℕ} (hk : k < string.length) :
    (string.take (k + 1)).toFinset = insert string[k] (string.take k).toFinset := by
  rw [List.take_succ_eq_append_getElem hk, List.toFinset_append, List.toFinset_cons,
    List.toFinset_nil, insert_empty_eq, Finset.union_comm, ← Finset.insert_eq]

/-! ## Runs that change the table only on a fault -/

namespace Replaces

variable {A B : Finset α} {p : α}

theorem mem (h : Replaces m A p B) : p ∈ B := by
  cases h with
  | hit hp => exact hp
  | fill => exact Finset.mem_insert_self _ _
  | evict => exact Finset.mem_insert_self _ _

theorem subset (h : Replaces m A p B) : B ⊆ insert p A := by
  cases h with
  | hit => exact Finset.subset_insert _ _
  | fill => exact Finset.Subset.refl _
  | evict => exact Finset.insert_subset_insert _ (Finset.erase_subset _ _)

theorem card_le (h : Replaces m A p B) (hA : A.card ≤ m) : B.card ≤ m := by
  cases h with
  | hit => exact hA
  | fill hp hlt =>
    rw [Finset.card_insert_of_notMem hp]
    exact hlt
  | @evict v hp hfull hv =>
    rw [Finset.card_insert_of_notMem fun hmem => hp (Finset.mem_of_mem_erase hmem),
      Finset.card_erase_of_mem hv, hfull]
    have := Finset.card_pos.mpr ⟨v, hv⟩
    omega

end Replaces

namespace DemandRun

theorem card_le (h : DemandRun m string S) {k : ℕ} (hk : k ≤ string.length) : (S k).card ≤ m := by
  induction k with
  | zero => simp [h.start]
  | succ k ih => exact (h.step k hk).card_le (ih (Nat.le_of_succ_le hk))

theorem policy (h : DemandRun m string S) : Policy m string S where
  start := h.start
  resident i hi := (h.step i hi).mem
  subset i hi := (h.step i hi).subset
  card_le _ hi := h.card_le hi

/-- A resident page has been referenced. -/
theorem subset_take (h : DemandRun m string S) {k : ℕ} (hk : k ≤ string.length) :
    S k ⊆ (string.take k).toFinset := by
  induction k with
  | zero => simp [h.start]
  | succ k ih =>
    rw [toFinset_take_succ hk]
    exact (h.step k hk).subset.trans
      (Finset.insert_subset_insert _ (ih (Nat.le_of_succ_le hk)))

theorem faults_le_length (string : List α) (S : ℕ → Finset α) :
    faults string S ≤ string.length := by
  have hcard :=
    Finset.card_le_univ (Finset.univ.filter fun i : Fin string.length => string[i] ∉ S i)
  rwa [Fintype.card_fin] at hcard

/-- Every page faults at its first reference. -/
theorem card_toFinset_le_faults (h : DemandRun m string S) :
    string.toFinset.card ≤ faults string S := by
  suffices hall : ∀ k ≤ string.length, (string.take k).toFinset.card ≤ faultsUpTo string S k by
    have := hall string.length le_rfl
    rwa [List.take_length, faultsUpTo_length] at this
  intro k hk
  induction k with
  | zero => simp
  | succ k ih =>
    have ih := ih (Nat.le_of_succ_le hk)
    rw [toFinset_take_succ hk, faultsUpTo_succ hk]
    by_cases hmem : string[k] ∈ (string.take k).toFinset
    · rw [Finset.insert_eq_of_mem hmem]
      omega
    · have hnew : string[k] ∉ S k := fun hS => hmem (h.subset_take (Nat.le_of_succ_le hk) hS)
      rw [Finset.card_insert_of_notMem hmem, if_neg hnew]
      omega

/-- With a frame for every page, no page is replaced. -/
theorem faults_eq (h : DemandRun m string S) (hm : string.toFinset.card ≤ m) :
    faults string S = string.toFinset.card := by
  suffices hall : ∀ k ≤ string.length, S k = (string.take k).toFinset ∧
      faultsUpTo string S k = (string.take k).toFinset.card by
    have := (hall string.length le_rfl).2
    rwa [List.take_length, faultsUpTo_length] at this
  intro k hk
  induction k with
  | zero => simp [h.start]
  | succ k ih =>
    obtain ⟨hS, hfaults⟩ := ih (Nat.le_of_succ_le hk)
    rw [toFinset_take_succ hk, faultsUpTo_succ hk, hfaults, ← hS]
    have hstep := h.step k hk
    generalize S (k + 1) = B at hstep ⊢
    cases hstep with
    | hit hp =>
      rw [Finset.insert_eq_of_mem hp, if_pos hp]
      exact ⟨rfl, rfl⟩
    | fill hp =>
      rw [if_neg hp, Finset.card_insert_of_notMem hp]
      exact ⟨rfl, rfl⟩
    | evict hp hfull =>
      -- the page and the table would be more pages than the string has
      have hsub : insert string[k] (S k) ⊆ string.toFinset := by
        rw [Finset.insert_subset_iff, hS]
        refine ⟨List.mem_toFinset.mpr (List.getElem_mem hk), fun x hx => ?_⟩
        rw [List.mem_toFinset] at hx ⊢
        exact List.mem_of_mem_take hx
      have hcard := Finset.card_le_card hsub
      rw [Finset.card_insert_of_notMem hp] at hcard
      omega

end DemandRun

/-! ## Replacing the page that is used last -/

/-- No page of `A` is referenced later than `v`. A page that is not referenced any more is as late
as can be. -/
def Farthest (A : Finset α) (v : α) (future : List α) : Prop :=
  ∀ x ∈ A, ∀ t, v ∈ future.take t → x ∈ future.take t

/-- The position of the next reference to `x`. -/
def nextUse (future : List α) (x : α) : ℕ∞ := if x ∈ future then (future.idxOf x : ℕ∞) else ⊤

theorem Farthest.nextUse_le {A : Finset α} {v x : α} {future : List α} (h : Farthest A v future)
    (hx : x ∈ A) : nextUse future x ≤ nextUse future v := by
  unfold nextUse
  by_cases hv : v ∈ future
  · -- as soon as `v` has been referenced, so has `x`
    have hlast :=
      h x hx (future.idxOf v + 1) ((List.mem_take_iff_idxOf_lt hv).mpr (Nat.lt_succ_self _))
    have hxv := List.mem_of_mem_take hlast
    have hlt := (List.mem_take_iff_idxOf_lt hxv).mp hlast
    rw [if_pos hv, if_pos hxv]
    exact_mod_cast Nat.le_of_lt_succ hlt
  · rw [if_neg hv]
    exact le_top

/-- A run that replaces a page whose next use is farthest away. -/
structure OptimalRun (m : ℕ) (string : List α) (S : ℕ → Finset α) : Prop extends
    DemandRun m string S where
  farthest : ∀ i (hi : i < string.length), string[i] ∉ S i → (S i).card = m →
    ∃ v ∈ S i, Farthest (S i) v (string.drop (i + 1)) ∧
      S (i + 1) = insert string[i] ((S i).erase v)

/-- What a reference does to the table. -/
theorem OptimalRun.step_cases (h : OptimalRun m string S) {k : ℕ} (hk : k < string.length) :
    string[k] ∈ S k ∧ S (k + 1) = S k ∨
      string[k] ∉ S k ∧ ((S k).card < m ∧ S (k + 1) = insert string[k] (S k) ∨
        (S k).card = m ∧ ∃ v ∈ S k, S (k + 1) = insert string[k] ((S k).erase v) ∧
          Farthest (S k) v (string.drop (k + 1))) := by
  have hfarthest := h.farthest k hk
  have hstep := h.step k hk
  generalize S (k + 1) = B at hstep hfarthest ⊢
  cases hstep with
  | hit hp => exact Or.inl ⟨hp, rfl⟩
  | fill hp hlt => exact Or.inr ⟨hp, Or.inl ⟨hlt, rfl⟩⟩
  | evict hp hfull =>
    obtain ⟨v, hv, hfar, heq⟩ := hfarthest hp hfull
    exact Or.inr ⟨hp, Or.inr ⟨hfull, v, hv, heq, hfar⟩⟩

/-- After `a` faults with the resident set `A` and `b` faults with the resident set `B`, the second
run holds more of the next pages only at the price of more faults. -/
def Ahead (A B : Finset α) (future : List α) (a b : ℕ) : Prop :=
  ∀ t, (B ∩ (future.take t).toFinset).card + a ≤ (A ∩ (future.take t).toFinset).card + b

section Step

variable {A B A' B' N : Finset α} {p : α} {future : List α} {a b : ℕ}

theorem card_inter_insert (A N : Finset α) (p : α) :
    (A ∩ insert p N).card = (A ∩ N).card + if p ∈ A ∧ p ∉ N then 1 else 0 := by
  by_cases hA : p ∈ A
  · rw [Finset.inter_insert_of_mem hA]
    by_cases hN : p ∈ N
    · rw [Finset.insert_eq_of_mem (Finset.mem_inter.mpr ⟨hA, hN⟩), if_neg (by simp [hN]),
        Nat.add_zero]
    · rw [Finset.card_insert_of_notMem (by simp [hN]), if_pos ⟨hA, hN⟩]
  · rw [Finset.inter_insert_of_notMem hA, if_neg (by simp [hA]), Nat.add_zero]

/-- A new page takes part exactly if it is among the next pages. -/
theorem card_insert_inter (hp : p ∉ A) (N : Finset α) :
    (insert p A ∩ N).card = (A ∩ N).card + if p ∈ N then 1 else 0 := by
  rw [Finset.inter_comm, card_inter_insert, Finset.inter_comm]
  simp [hp]

/-- The next pages that the competitor holds after a reference to `p`. -/
theorem card_policy_inter_le (hB : B' ⊆ insert p B) (hp : p ∈ B') (hcard : B'.card ≤ m)
    (N : Finset α) :
    (B' ∩ N).card ≤ (B ∩ N).card + (if p ∉ B ∧ p ∈ N then 1 else 0) ∧
      (B' ∩ N).card + (if p ∈ N then 0 else 1) ≤ m := by
  constructor
  · calc (B' ∩ N).card ≤ (N ∩ insert p B).card := by
          rw [Finset.inter_comm]
          exact Finset.card_le_card (Finset.inter_subset_inter_left hB)
      _ = (B ∩ N).card + (if p ∉ B ∧ p ∈ N then 1 else 0) := by
          rw [card_inter_insert, Finset.inter_comm]
          simp only [and_comm]
  · by_cases hN : p ∈ N
    · rw [if_pos hN]
      exact (Finset.card_le_card Finset.inter_subset_left).trans hcard
    · rw [if_neg hN]
      have hssub : B' ∩ N ⊂ B' :=
        (Finset.ssubset_iff_of_subset Finset.inter_subset_left).mpr ⟨p, hp, by simp [hN]⟩
      exact (Finset.card_lt_card hssub).trans_le hcard

/-- The next pages that are held after a fault: the new page is added, and if one of them is
replaced, the table is full of them. -/
theorem card_fault_inter (hp : p ∉ A) (hA : A.card < m ∧ A' = insert p A ∨
      A.card = m ∧ ∃ v ∈ A, A' = insert p (A.erase v) ∧ (v ∈ N → A ⊆ N)) :
    (A ∩ N).card + (if p ∈ N then 1 else 0) ≤ (A' ∩ N).card ∨
      m ≤ (A' ∩ N).card + (if p ∈ N then 0 else 1) := by
  rcases hA with ⟨-, rfl⟩ | ⟨hfull, v, hv, rfl, hall⟩
  · exact Or.inl (card_insert_inter hp N).ge
  · have hpe : p ∉ A.erase v := fun hmem => hp (Finset.mem_of_mem_erase hmem)
    rw [card_insert_inter hpe]
    by_cases hN : v ∈ N
    · right
      have hsub : A.erase v ⊆ N := (Finset.erase_subset _ _).trans (hall hN)
      have hpos := Finset.card_pos.mpr ⟨v, hv⟩
      rw [Finset.inter_eq_left.mpr hsub, Finset.card_erase_of_mem hv]
      split
      · omega
      · omega
    · left
      rw [Finset.erase_inter, Finset.erase_eq_of_notMem (by simp [hN])]

/-- One reference. -/
theorem Ahead.step (h : Ahead A B (p :: future) a b)
    (hA : p ∈ A ∧ A' = A ∨ p ∉ A ∧ (A.card < m ∧ A' = insert p A ∨
      A.card = m ∧ ∃ v ∈ A, A' = insert p (A.erase v) ∧ Farthest A v future))
    (hB : B' ⊆ insert p B) (hp : p ∈ B') (hcard : B'.card ≤ m) :
    Ahead A' B' future (a + if p ∈ A then 0 else 1) (b + if p ∈ B then 0 else 1) := by
  intro t
  have hone := h 1
  have hnext := h (t + 1)
  simp only [List.take_succ_cons, List.take_zero, List.toFinset_cons, List.toFinset_nil,
    card_inter_insert, Finset.inter_empty, Finset.card_empty, Finset.notMem_empty,
    not_false_eq_true, and_true] at hone hnext
  set N := (future.take t).toFinset with hN
  obtain ⟨hle, hfull⟩ := card_policy_inter_le hB hp hcard N
  rcases hA with ⟨hpA, rfl⟩ | ⟨hpA, hA⟩
  · -- A hit: only the competitor may fault, and then it gains at most the new page.
    by_cases hpB : p ∈ B
    · by_cases hpN : p ∈ N
      · simp [hpA, hpB, hpN] at hle hnext ⊢
        omega
      · simp [hpA, hpB, hpN] at hle hnext ⊢
        omega
    · by_cases hpN : p ∈ N
      · simp [hpA, hpB, hpN] at hle hnext ⊢
        omega
      · simp [hpA, hpB, hpN] at hle hnext ⊢
        omega
  · have hkept : (A ∩ N).card + (if p ∈ N then 1 else 0) ≤ (A' ∩ N).card ∨
        m ≤ (A' ∩ N).card + (if p ∈ N then 0 else 1) := by
      apply card_fault_inter hpA
      rcases hA with hA | ⟨hcardA, v, hv, heq, hfar⟩
      · exact Or.inl hA
      · refine Or.inr ⟨hcardA, v, hv, heq, fun hvN x hx => ?_⟩
        rw [hN, List.mem_toFinset] at hvN ⊢
        exact hfar x hx t hvN
    -- A fault: if the competitor has the page, it is ahead by a fault already.
    by_cases hpB : p ∈ B
    · by_cases hpN : p ∈ N
      · simp [hpA, hpB, hpN] at hle hfull hone hnext hkept ⊢
        omega
      · simp [hpA, hpB, hpN] at hle hfull hone hnext hkept ⊢
        omega
    · by_cases hpN : p ∈ N
      · simp [hpA, hpB, hpN] at hle hfull hone hnext hkept ⊢
        omega
      · simp [hpA, hpB, hpN] at hle hfull hone hnext hkept ⊢
        omega

end Step

/-- No policy has fewer faults than a run that replaces a page whose next use is farthest away. -/
theorem OptimalRun.faults_le (hS : OptimalRun m string S) (hT : Policy m string T) :
    faults string S ≤ faults string T := by
  have hahead : ∀ k ≤ string.length, Ahead (S k) (T k) (string.drop k) (faultsUpTo string S k)
      (faultsUpTo string T k) := by
    intro k hk
    induction k with
    | zero =>
      intro t
      simp [hS.start, hT.start]
    | succ k ih =>
      have ih := ih (Nat.le_of_succ_le hk)
      rw [List.drop_eq_getElem_cons hk] at ih
      rw [faultsUpTo_succ hk, faultsUpTo_succ hk]
      exact ih.step (hS.step_cases hk) (hT.subset k hk) (hT.resident k hk) (hT.card_le k hk)
  have hend := hahead string.length le_rfl 0
  simpa [faultsUpTo_length] using hend

end SchoolOS.Paging
