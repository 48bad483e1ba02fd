import Mathlib.Data.List.Basic
import Mathlib.Tactic.Common

/-!
# The second-chance machine

A table of `m` slots with a use bit each, and a hand that walks around the table. The machine is
given for any type of pages. `turn` is the walk of the hand to the first slot that is not in use.
-/

namespace SchoolOS

/-- The filled slots with their use bits, the slot at the hand, and the number of faults. -/
structure SecondChance (α : Type) where
  pages : List α
  bits : List Bool
  hand : ℕ
  faults : ℕ

namespace SecondChance

/-- `while bit[h] = 1 { bit[h] := 0; h := (h+1) mod m }` -/
def turn (m : ℕ) (bits : List Bool) (h : ℕ) : List Bool × ℕ :=
  if bits[h]? = some true then turn m (bits.set h false) ((h + 1) % m) else (bits, h)
termination_by bits.count true
decreasing_by
  -- every iteration clears a bit
  rename_i hbit
  obtain ⟨hlt, hget⟩ := List.getElem?_eq_some_iff.mp hbit
  have hpos : 0 < bits.count true := List.count_pos_iff.mpr (hget ▸ List.getElem_mem hlt)
  have hcount : (bits.set h false).count true = bits.count true - 1 := by
    simp [List.count_set hlt, hget]
  omega

variable {α : Type} [DecidableEq α]

/-- The machine before the first reference. -/
def start : SecondChance α := ⟨[], [], 0, 0⟩

/-- One reference. -/
def step (m : ℕ) (s : SecondChance α) (page : α) : SecondChance α :=
  if page ∈ s.pages then { s with bits := s.bits.set (s.pages.idxOf page) true }
  else if s.pages.length < m then
    -- an empty slot is filled, and the hand does not move
    { s with pages := s.pages ++ [page], bits := s.bits ++ [false], faults := s.faults + 1 }
  else
    let (bits, h) := turn m s.bits s.hand
    ⟨s.pages.set h page, bits.set h false, (h + 1) % m, s.faults + 1⟩

/-- The machine after a reference string. -/
def run (m : ℕ) (string : List α) : SecondChance α := string.foldl (step m) start

/-! ## The walk of the hand -/

variable {m h : ℕ} {bits : List Bool}

theorem turn_of_set (hbit : bits[h]? = some true) :
    turn m bits h = turn m (bits.set h false) ((h + 1) % m) := by
  rw [turn, if_pos hbit]

theorem turn_of_clear (hbit : bits[h]? = some false) : turn m bits h = (bits, h) := by
  rw [turn, if_neg (by simp [hbit])]

/-! ## The cases of a step -/

variable {s : SecondChance α} {page : α}

theorem step_hit (hpage : page ∈ s.pages) :
    s.step m page = { s with bits := s.bits.set (s.pages.idxOf page) true } :=
  if_pos hpage

theorem step_fill (hpage : page ∉ s.pages) (hlt : s.pages.length < m) :
    s.step m page =
      { s with pages := s.pages ++ [page], bits := s.bits ++ [false], faults := s.faults + 1 } := by
  rw [step, if_neg hpage, if_pos hlt]

theorem step_evict (hpage : page ∉ s.pages) (hfull : s.pages.length = m)
    (hturn : turn m s.bits s.hand = (bits, h)) :
    s.step m page = ⟨s.pages.set h page, bits.set h false, (h + 1) % m, s.faults + 1⟩ := by
  rw [step, if_neg hpage, if_neg (by omega), hturn]

theorem run_concat (m : ℕ) (string : List α) (page : α) :
    run m (string ++ [page]) = (run m string).step m page := by
  rw [run, List.foldl_append]
  rfl

end SecondChance

end SchoolOS
