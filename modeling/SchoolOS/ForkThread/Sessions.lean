import SchoolOS.ForkThread.ForkLines
import SchoolOS.ForkThread.ThreadLines

/-!
# Running the programs again

Reference: `Assignment3-2/fork.c` and `Assignment3-2/thread.c`, one after the other on one
`temp.txt`.

Both programs append to the file that they read. They read the first 128 lines only, which are there
already, so every further run prints the same sum, and leaves 127 more lines behind.
-/

namespace SchoolOS.ForkThread

theorem Thread.DoneWithLines.appended {file : List ℤ} {s : Thread.System}
    (h : Thread.DoneWithLines file s) :
    ∃ lines, s.file = file ++ lines ∧ lines.length = maxProcesses * 2 - 1 := by
  obtain ⟨log, hfile, hperm, -⟩ := h.lines
  exact ⟨_, hfile, by rw [List.length_map, hperm.length_eq, List.length_range']⟩

end SchoolOS.ForkThread
