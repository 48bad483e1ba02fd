import Mathlib.Data.List.Basic
import Mathlib.Data.Nat.Count

/-!
# First and last occurrences in a list

The list is a chart of slots or a reference string, and it grows at its end.
-/

namespace SchoolOS

variable {α : Type*}

/-- `x` occurs first at position `t` of `l`. -/
structure FirstAt (l : List α) (x : α) (t : ℕ) : Prop where
  at_self : l[t]? = some x
  before : ∀ u, u < t → l[u]? ≠ some x

/-- `x` occurs last at position `t` of `l`. -/
structure LastAt (l : List α) (x : α) (t : ℕ) : Prop where
  at_self : l[t]? = some x
  after : ∀ u, t < u → l[u]? ≠ some x

theorem getElem?_concat_iff {l : List α} {x y : α} {t : ℕ} :
    (l ++ [y])[t]? = some x ↔ l[t]? = some x ∨ t = l.length ∧ y = x := by
  rcases lt_trichotomy t l.length with hlt | rfl | hgt
  · rw [List.getElem?_append_left hlt]
    simp [hlt.ne]
  · simp
  · rw [List.getElem?_eq_none (by simp; omega), List.getElem?_eq_none hgt.le]
    simp [hgt.ne']

theorem FirstAt.concat {l : List α} {x : α} {t : ℕ} (h : FirstAt l x t) (y : α) :
    FirstAt (l ++ [y]) x t where
  at_self := getElem?_concat_iff.mpr (Or.inl h.at_self)
  before := by
    intro u hu hx
    have hlt := (List.getElem?_eq_some_iff.mp h.at_self).1
    rcases getElem?_concat_iff.mp hx with hx | ⟨rfl, -⟩
    · exact h.before u hu hx
    · omega

theorem firstAt_concat {l : List α} {x : α} (h : x ∉ l) : FirstAt (l ++ [x]) x l.length where
  at_self := getElem?_concat_iff.mpr (Or.inr ⟨rfl, rfl⟩)
  before := by
    intro u hu hx
    rcases getElem?_concat_iff.mp hx with hx | ⟨rfl, -⟩
    · exact h (List.mem_of_getElem? hx)
    · omega

theorem LastAt.concat {l : List α} {x y : α} {t : ℕ} (h : LastAt l x t) (hne : y ≠ x) :
    LastAt (l ++ [y]) x t where
  at_self := getElem?_concat_iff.mpr (Or.inl h.at_self)
  after := by
    intro u hu hx
    rcases getElem?_concat_iff.mp hx with hx | ⟨-, hyx⟩
    · exact h.after u hu hx
    · exact hne hyx

theorem lastAt_concat (l : List α) (x : α) : LastAt (l ++ [x]) x l.length where
  at_self := getElem?_concat_iff.mpr (Or.inr ⟨rfl, rfl⟩)
  after := by
    intro u hu hx
    rcases getElem?_concat_iff.mp hx with hx | ⟨rfl, -⟩
    · have := (List.getElem?_eq_some_iff.mp hx).1
      omega
    · omega

theorem LastAt.lt_length {l : List α} {x : α} {t : ℕ} (h : LastAt l x t) : t < l.length :=
  (List.getElem?_eq_some_iff.mp h.at_self).1

theorem exists_lastAt {l : List α} {x : α} (h : x ∈ l) : ∃ t, LastAt l x t := by
  induction l using List.reverseRecOn with
  | nil => exact absurd h List.not_mem_nil
  | append_singleton l y ih =>
    by_cases hyx : y = x
    · subst hyx
      exact ⟨_, lastAt_concat l y⟩
    · have hmem : x ∈ l := by simpa [Ne.symm hyx] using h
      obtain ⟨t, ht⟩ := ih hmem
      exact ⟨t, ht.concat hyx⟩

/-- A list that ends with `x`. -/
theorem lastAt_of_getLast? {l : List α} {x : α} (h : l.getLast? = some x) :
    LastAt l x (l.length - 1) := by
  obtain ⟨init, rfl⟩ := List.getLast?_eq_some_iff.mp h
  simpa using lastAt_concat init x

/-- The occurrences before position `t`, counted. -/
theorem count_take_eq [DecidableEq α] [BEq α] [LawfulBEq α] (l : List α) (x : α) (t : ℕ) :
    (l.take t).count x = Nat.count (fun u => l[u]? = some x) t := by
  induction t with
  | zero => simp
  | succ t ih =>
    rw [Nat.count_succ, ← ih, List.take_add_one, List.count_append]
    cases hlt : l[t]? with
    | none => simp
    | some y =>
      by_cases hyx : y = x
      · simp [hyx]
      · simp [hyx]

end SchoolOS
