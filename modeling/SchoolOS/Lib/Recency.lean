import Mathlib.Data.Finset.Card
import Mathlib.Data.List.DropRight
import SchoolOS.Lib.Occurrences

/-!
# The recency list

The distinct elements of a list, ordered by their last occurrences, are its `dedup`. Appending an
element moves it to the end (`dedup_concat`). The last `m` elements of the recency list are the `m`
most recent ones (`mostRecent_rtake`).
-/

namespace SchoolOS

variable {α : Type*} {L l pre : List α} {x y z : α} {n : ℕ}

/-! ## Last occurrences -/

/-- The last occurrence of `x` comes before that of `y`. -/
def UsedBefore (pre : List α) (x y : α) : Prop := ∃ i j, LastAt pre x i ∧ LastAt pre y j ∧ i < j

theorem UsedBefore.concat (h : UsedBefore pre x y) (hx : z ≠ x) (hy : z ≠ y) :
    UsedBefore (pre ++ [z]) x y := by
  obtain ⟨i, j, hi, hj, hlt⟩ := h
  exact ⟨i, j, hi.concat hx, hj.concat hy, hlt⟩

theorem usedBefore_concat (h : x ∈ pre) (hne : z ≠ x) : UsedBefore (pre ++ [z]) x z := by
  obtain ⟨i, hi⟩ := exists_lastAt h
  exact ⟨i, pre.length, hi.concat hne, lastAt_concat pre z, hi.lt_length⟩

/-! ## The last elements of a list -/

theorem rtake_append {A : List α} (h : l.length = n ∨ A = [] ∧ l.length < n) :
    (A ++ l).rtake n = l := by
  rcases h with rfl | ⟨rfl, hlt⟩
  · simp [List.rtake]
  · rw [List.nil_append, List.rtake, Nat.sub_eq_zero_of_le hlt.le, List.drop_zero]

theorem exists_append_rtake (L : List α) (n : ℕ) :
    ∃ A, L = A ++ L.rtake n ∧ ((L.rtake n).length = n ∨ A = [] ∧ (L.rtake n).length < n) := by
  refine ⟨L.rdrop n, (List.take_append_drop _ _).symm, ?_⟩
  by_cases hle : n ≤ L.length
  · left
    rw [List.rtake, List.length_drop]
    omega
  · right
    rw [List.rdrop, List.rtake, Nat.sub_eq_zero_of_le (by omega), List.take_zero, List.drop_zero]
    exact ⟨rfl, by omega⟩

section

variable [DecidableEq α]

/-- The element is among the last `n + 1`. -/
theorem rtake_erase_of_mem (hL : L.Nodup) (hx : x ∈ L.rtake (n + 1)) :
    (L.erase x).rtake n = (L.rtake (n + 1)).erase x := by
  obtain ⟨A, hA, hlength⟩ := exists_append_rtake L (n + 1)
  have hold : x ∉ A := by
    rw [hA, List.nodup_append] at hL
    exact fun hmem => hL.2.2 x hmem x hx rfl
  have herase := List.length_erase_of_mem hx
  conv_lhs => rw [hA, List.erase_append_right _ hold]
  apply rtake_append
  rcases hlength with hfull | ⟨hnil, hlt⟩
  · exact Or.inl (by omega)
  · have hpos := List.length_pos_of_mem hx
    exact Or.inr ⟨hnil, by omega⟩

/-- The element is not among the last `n + 1`. -/
theorem rtake_erase_of_notMem (hx : x ∉ L.rtake (n + 1)) :
    (L.erase x).rtake n =
      if (L.rtake (n + 1)).length = n + 1 then (L.rtake (n + 1)).tail else L.rtake (n + 1) := by
  obtain ⟨A, hA, hlength⟩ := exists_append_rtake L (n + 1)
  have herase : L.erase x = A.erase x ++ L.rtake (n + 1) := by
    conv_lhs => rw [hA, List.erase_append]
    by_cases hmem : x ∈ A
    · rw [if_pos hmem]
    · rw [if_neg hmem, List.erase_of_not_mem hx, List.erase_of_not_mem hmem]
  rw [herase]
  rcases hlength with hfull | ⟨rfl, hlt⟩
  · rw [if_pos hfull]
    obtain ⟨first, tail, hcons⟩ := List.exists_cons_of_length_eq_add_one hfull
    rw [hcons, List.length_cons] at hfull
    rw [hcons, List.tail_cons, List.append_cons]
    exact rtake_append (Or.inl (by omega))
  · rw [if_neg (by omega), List.erase_nil]
    apply rtake_append
    by_cases hn : (L.rtake (n + 1)).length = n
    · exact Or.inl hn
    · exact Or.inr ⟨rfl, by omega⟩

/-! ## The recency list -/

/-- A new occurrence moves its element to the end of the recency list. -/
theorem dedup_concat (l : List α) (z : α) : (l ++ [z]).dedup = l.dedup.erase z ++ [z] := by
  induction l with
  | nil => rfl
  | cons a l ih =>
    rw [List.cons_append]
    by_cases hl : a ∈ l
    · rw [List.dedup_cons_of_mem (List.mem_append_left _ hl), ih, List.dedup_cons_of_mem hl]
    · rw [List.dedup_cons_of_notMem hl]
      by_cases ha : a = z
      · subst ha
        have hnot : a ∉ l.dedup := fun hmem => hl (List.mem_dedup.mp hmem)
        rw [List.dedup_cons_of_mem (by simp), ih, List.erase_cons_head, List.erase_of_not_mem hnot]
      · have hnot : a ∉ l ++ [z] := by simp [hl, ha]
        rw [List.dedup_cons_of_notMem hnot, ih, List.erase_cons_tail (by simpa using ha),
          List.cons_append]

theorem pairwise_dedup (pre : List α) : pre.dedup.Pairwise (UsedBefore pre) := by
  induction pre using List.reverseRecOn with
  | nil => exact List.Pairwise.nil
  | append_singleton pre z ih =>
    have hother : ∀ x ∈ pre.dedup.erase z, x ∈ pre ∧ z ≠ x := by
      intro x hx
      rw [(List.nodup_dedup pre).mem_erase_iff, List.mem_dedup] at hx
      exact ⟨hx.2, hx.1.symm⟩
    rw [dedup_concat, List.pairwise_append]
    refine ⟨?_, List.pairwise_singleton _ _, fun x hx y hy => ?_⟩
    · refine (ih.sublist List.erase_sublist).imp_of_mem fun {x y} hx hy hxy => ?_
      exact hxy.concat (hother x hx).2 (hother y hy).2
    · rw [List.mem_singleton] at hy
      subst hy
      exact usedBefore_concat (hother x hx).1 (hother x hx).2

/-- The `m` elements of `pre` with the latest last occurrences (all of them, if there are fewer),
ordered by their last occurrences. -/
structure MostRecent (m : ℕ) (pre l : List α) : Prop where
  length_eq : l.length = min m pre.toFinset.card
  nodup : l.Nodup
  subset : ∀ x ∈ l, x ∈ pre
  ordered : l.Pairwise (UsedBefore pre)
  latest : ∀ x ∈ l, ∀ y ∈ pre, y ∉ l → UsedBefore pre y x

theorem mostRecent_rtake (m : ℕ) (pre : List α) : MostRecent m pre (pre.dedup.rtake m) := by
  have hsplit : pre.dedup = pre.dedup.rdrop m ++ pre.dedup.rtake m :=
    (List.take_append_drop _ _).symm
  have hsuffix : pre.dedup.rtake m <:+ pre.dedup := List.drop_suffix _ _
  have hpairwise := pairwise_dedup pre
  refine ⟨?_, (List.nodup_dedup pre).sublist hsuffix.sublist, fun x hx => ?_,
    hpairwise.sublist hsuffix.sublist, fun x hx y hy hold => ?_⟩
  · rw [List.card_toFinset, List.rtake, List.length_drop]
    omega
  · exact List.mem_dedup.mp (hsuffix.subset hx)
  · -- an element that is not among the last ones is in front of all of them
    rw [hsplit, List.pairwise_append] at hpairwise
    rw [← List.mem_dedup, hsplit, List.mem_append] at hy
    exact hpairwise.2.2 y (hy.resolve_right hold) x hx

end

end SchoolOS
