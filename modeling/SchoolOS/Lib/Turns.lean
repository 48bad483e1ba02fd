import Mathlib.Algebra.Order.Group.Int
import Mathlib.Data.List.Nodup
import Mathlib.Tactic.Common

/-!
# Serving jobs in turns

A processor serves jobs from a queue, each for at most `q` slots at a time. `Served pops chart` says
that the chart has one piece for each entry of `pops`, as long as the job needs or `q` slots long,
and empty slots between the pieces.

`Spread l` says that no element occurs twice between two consecutive occurrences of another one. A
queue keeps this property when a job that is new is pushed (`Spread.concat_new`), and when the job
that was popped last is pushed again behind jobs that are all different (`Spread.concat_again`).
-/

namespace SchoolOS

section Spread

variable {α : Type*} {l : List α} {i : α}

/-- Between two consecutive occurrences of an element, every other element occurs at most once. -/
def Spread (l : List α) : Prop :=
  ∀ i before between after, l = before ++ i :: (between ++ i :: after) → i ∉ between → between.Nodup

theorem spread_nil : Spread ([] : List α) := by
  intro i before between after h
  simp at h

theorem Spread.of_append {l' : List α} (h : Spread (l ++ l')) : Spread l := by
  intro i before between after hl
  apply h i before between (after ++ l')
  simp [hl]

/-- Only the last two occurrences of the new element have to be looked at. -/
theorem Spread.concat (h : Spread l)
    (hlast : ∀ before between, l = before ++ i :: between → i ∉ between → between.Nodup) :
    Spread (l ++ [i]) := by
  intro j before between after heq hj
  rcases List.eq_nil_or_concat after with rfl | ⟨after, k, rfl⟩
  · have hsplit : l ++ [i] = (before ++ j :: between) ++ [j] := by simpa using heq
    obtain ⟨hl, hij⟩ := List.append_inj' hsplit rfl
    obtain rfl : i = j := by simpa using hij
    exact hlast before between hl hj
  · have hsplit : l ++ [i] = (before ++ j :: (between ++ j :: after)) ++ [k] := by simpa using heq
    obtain ⟨hl, -⟩ := List.append_inj' hsplit rfl
    exact h j before between after hl hj

theorem Spread.concat_new (h : Spread l) (hi : i ∉ l) : Spread (l ++ [i]) := by
  apply h.concat
  rintro before between rfl
  simp at hi

theorem Spread.append_new {l' : List α} (h : Spread l) (hnodup : l'.Nodup)
    (hnew : ∀ i ∈ l', i ∉ l) :
    Spread (l ++ l') := by
  induction l' generalizing l with
  | nil => simpa using h
  | cons i l' ih =>
    obtain ⟨hi, hl'⟩ := List.nodup_cons.mp hnodup
    rw [List.append_cons]
    apply ih (h.concat_new (hnew i List.mem_cons_self)) hl'
    intro j hj
    simp only [List.mem_append, List.mem_singleton, not_or]
    exact ⟨hnew j (List.mem_cons_of_mem i hj), fun hji => hi (hji ▸ hj)⟩

/-- What stands behind the last occurrence of an element. -/
theorem eq_of_append_cons_eq {before before' rest rest' : List α}
    (h : before ++ i :: rest = before' ++ i :: rest') (hi : i ∉ rest) (hi' : i ∉ rest') :
    rest = rest' := by
  rcases List.append_eq_append_iff.mp h with ⟨mid, -, hmid⟩ | ⟨mid, -, hmid⟩
  · cases mid with
    | nil => simpa using hmid
    | cons j mid =>
      obtain ⟨-, rfl⟩ := List.cons.inj hmid
      simp at hi
  · cases mid with
    | nil => simpa using hmid.symm
    | cons j mid =>
      obtain ⟨-, rfl⟩ := List.cons.inj hmid
      simp at hi'

theorem Spread.concat_again {before rest : List α} (h : Spread (before ++ i :: rest))
    (hi : i ∉ rest) (hnodup : rest.Nodup) : Spread (before ++ i :: rest ++ [i]) := by
  apply h.concat
  intro before' between heq hbetween
  rwa [← eq_of_append_cons_eq heq hi hbetween]

end Spread

section Served

variable {ι : Type*} [DecidableEq ι] {burst : ι → ℤ} {q : ℤ} {pops : List ι}
  {chart : List (Option ι)}

/-- The slots that job `i` still needs. -/
def timeLeft (burst : ι → ℤ) (chart : List (Option ι)) (i : ι) : ℤ := burst i - chart.count (some i)

/-- The chart of jobs that are served for at most `q` slots at a time, in the order of `pops`. -/
inductive Served (burst : ι → ℤ) (q : ℤ) : List ι → List (Option ι) → Prop
  | nil : Served burst q [] []
  | idle {pops : List ι} {chart : List (Option ι)} : Served burst q pops chart →
    Served burst q pops (chart ++ [none])
  | slice {pops : List ι} {chart : List (Option ι)} {i : ι} : Served burst q pops chart →
    1 ≤ timeLeft burst chart i →
    Served burst q (pops ++ [i])
      (chart ++ List.replicate (min q (timeLeft burst chart i)).toNat (some i))

theorem timeLeft_append_replicate (burst : ι → ℤ) (chart : List (Option ι)) (i j : ι) (k : ℕ) :
    timeLeft burst (chart ++ List.replicate k (some i)) j =
      timeLeft burst chart j - if i = j then (k : ℤ) else 0 := by
  unfold timeLeft
  rw [List.count_append, List.count_replicate]
  by_cases hij : i = j
  · simp [hij, sub_sub]
  · simp [hij]

/-- The jobs that have been popped are those that have had a slot. -/
theorem Served.mem_iff (h : Served burst q pops chart) (hq : 1 ≤ q) (i : ι) :
    i ∈ pops ↔ some i ∈ chart := by
  induction h with
  | nil => simp
  | idle _ ih => simpa using ih
  | @slice pops chart j _ hleft ih =>
    have hne : (min q (timeLeft burst chart j)).toNat ≠ 0 := by omega
    rw [List.mem_append, List.mem_append, List.mem_replicate, ih]
    simp [hne]

end Served

end SchoolOS
