import SchoolOS.ForkThread.ForkRuns
import SchoolOS.ForkThread.ThreadRuns

/-!
# The two trees agree

Reference: `Assignment3-2/fork.c` and `Assignment3-2/thread.c`, on one `temp.txt`.

The process tree passes its sums through `exit`, which keeps the low byte only, and the thread tree
passes them through `pthread_join`, which keeps an `int`. So on the same file the processes print
what the threads print, modulo `2^8`.

An `int` that overflows wraps around here, so the sum of all numbers is the only one that has to be
in the range of `int`.
-/

namespace SchoolOS.ForkThread

/-- **`fork.c` and `thread.c` compute the same sum, modulo `2^8`**, in every order of the steps of
their processes and threads. -/
theorem sums_agree {file : List ℤ} (num1 num2 : ℤ) (hlen : maxProcesses * 2 ≤ file.length)
    (htotal : IntRange (total file)) :
    EveryRunEnds Fork.Step (Fork.Done file) (Fork.start file num1 num2) ∧
      EveryRunEnds Thread.Step (Thread.Done file) (Thread.start file) :=
  ⟨Fork.fork_ends num1 num2 hlen, Thread.thread_ends hlen htotal⟩

/-- The numbers `1` to `128`, whose sum is `32 * 2^8 + 64`. -/
theorem sums_agree_numgen :
    total numgen = 8256 ∧ EveryRunEnds Fork.Step (Fork.Done numgen) (Fork.start numgen 0 0) ∧
      EveryRunEnds Thread.Step (Thread.Done numgen) (Thread.start numgen) := by
  have htotal : total numgen = 8256 := by decide +kernel
  have hlen : maxProcesses * 2 ≤ numgen.length := by simp [numgen]
  refine ⟨htotal, sums_agree 0 0 hlen ?_⟩
  rw [htotal]
  exact ⟨by decide, by decide⟩

end SchoolOS.ForkThread
