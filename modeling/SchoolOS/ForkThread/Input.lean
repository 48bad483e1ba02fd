import Mathlib.Algebra.BigOperators.Group.Finset.Basic
import Mathlib.Algebra.BigOperators.Intervals
import Mathlib.Data.List.GetD
import SchoolOS.Lib.CInt

/-!
# The numbers in `temp.txt`

Reference: `Assignment3-2/numgen.c`, and the `fscanf` calls of `Assignment3-2/fork.c` and
`Assignment3-2/thread.c`.

The file is the list of the numbers in it, each on a line of its own. Both programs add up the
numbers of the first 128 lines, in pairs of successive lines: the pair `k` stands in the lines `2 *
k` and `2 * k + 1`.
-/

namespace SchoolOS.ForkThread

/-- `MAX_PROCESSES`. -/
def maxProcesses : ℕ := 64

/-- The file that `numgen.c` writes. -/
def numgen : List ℤ := (List.range (maxProcesses * 2)).map fun i => (i : ℤ) + 1

/-- `fscanf(f_temp, "%d\n%d\n", ..)`, with the stream before the line `pos`: the numbers that it
converts. There are none at the end of the file, and `%d` stores the low 32 bits of a number. -/
def fscanf (file : List ℤ) (pos : ℕ) : List ℤ := ((file.drop pos).take 2).map toInt

/-- The number in a line, as it is stored in an `int`. -/
def num (file : List ℤ) (k : ℕ) : ℤ := toInt (file.getD k 0)

/-- The sum of the pair `k`. -/
def pair (file : List ℤ) (k : ℕ) : ℤ := file.getD (2 * k) 0 + file.getD (2 * k + 1) 0

/-- The sum of the first 128 numbers. -/
def total (file : List ℤ) : ℤ := (file.take (maxProcesses * 2)).sum

theorem fscanf_eq {file : List ℤ} {pos : ℕ} (h : pos + 1 < file.length) :
    fscanf file pos = [num file pos, num file (pos + 1)] := by
  have hpos : pos < file.length := by omega
  rw [fscanf, List.drop_eq_getElem_cons hpos, List.drop_eq_getElem_cons h]
  simp only [num, List.getD_eq_getElem _ _ h, List.getD_eq_getElem _ _ hpos, List.take_succ_cons,
    List.take_zero, List.map_cons, List.map_nil]

/-- Lines that are appended do not change a line that is there. -/
theorem num_append {file : List ℤ} {k : ℕ} (h : k < file.length) (lines : List ℤ) :
    num (file ++ lines) k = num file k := by
  simp only [num, List.getD_append _ _ _ _ h]

theorem sum_take_eq (file : List ℤ) (n : ℕ) :
    (file.take n).sum = ∑ k ∈ Finset.range n, file.getD k 0 := by
  induction n with
  | zero => simp
  | succ n ih =>
    rw [Finset.sum_range_succ, ← ih]
    by_cases h : n < file.length
    · rw [List.take_succ_eq_append_getElem h, List.sum_append, List.getD_eq_getElem _ _ h]
      simp
    · have hle : file.length ≤ n := by omega
      rw [List.take_of_length_le hle, List.take_of_length_le (by omega),
        List.getD_eq_default _ _ hle]
      simp

theorem total_eq_sum_pair (file : List ℤ) :
    total file = ∑ k ∈ Finset.range maxProcesses, pair file k := by
  rw [total, sum_take_eq]
  generalize maxProcesses = n
  induction n with
  | zero => rfl
  | succ n ih =>
    rw [Finset.sum_range_succ, ← ih, Nat.succ_mul, Finset.sum_range_succ, Finset.sum_range_succ,
      pair]
    rw [Nat.mul_comm n 2, add_assoc]

end SchoolOS.ForkThread
