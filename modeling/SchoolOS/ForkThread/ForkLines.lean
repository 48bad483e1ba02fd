import SchoolOS.ForkThread.ForkRuns

/-!
# The lines of the processes

Reference: `fprintf(f_temp_w, ..)` of `Assignment3-2/fork.c`.

Every process appends a line for its pair and one for each child that it reaps. `f_temp_w` is
buffered: `fork` copies the buffer, `fprintf` adds a line to the buffer of the process, and `exit`
writes the buffer out. A process forks before it prints, so no line is written twice (`fork_lines`).
-/

namespace SchoolOS.ForkThread.Fork

/-- The processes, with the lines in the buffer of each process id, and the file. -/
structure Logged where
  sys : System
  buffers : ℕ → List ℤ
  file : List ℤ

/-- The state after the first `fork`. -/
def Logged.start (file : List ℤ) (num1 num2 : ℤ) : Logged :=
  ⟨Fork.start file num1 num2, fun _ => [], file⟩

/-- A line of a process. -/
def Logged.print (s : Logged) (pid : ℕ) (line : ℤ) : ℕ → List ℤ :=
  Function.update s.buffers pid (s.buffers pid ++ [line])

/-- The steps of `Step`, with their lines. -/
inductive LogStep : Logged → Logged → Prop
  | fork {s : Logged} {p : Proc} {M : Multiset Proc} {i : ℕ} (hs : s.sys.procs = p ::ₘ M)
      (hp : p.pc = .forking i) (hi : i < rounds) :
      LogStep s ⟨{ s.sys with
        procs := { p with pc := .forking (i + 1) } ::ₘ
          { p with
            pid := s.sys.nextPid, ppid := p.pid, idx := p.idx + 2 ^ i
            pc := .forking (i + 1) } ::ₘ M
        nextPid := s.sys.nextPid + 1 },
        Function.update s.buffers s.sys.nextPid (s.buffers p.pid), s.file⟩
  | readFirst {s : Logged} {p : Proc} {M : Multiset Proc} {i : ℕ} {n : ℤ} {q : Pipe}
      (hs : s.sys.procs = p ::ₘ M) (hp : p.pc = .forking i) (hi : ¬ i < rounds)
      (hq : (s.sys.pipes p.idx).read p.num1 = some (n, q)) :
      LogStep s { s with sys := { s.sys with
        procs := { p with num1 := n, pc := .reading } ::ₘ M
        pipes := Function.update s.sys.pipes p.idx q } }
  /-- `fprintf(f_temp_w, "%d\n", sum);` of the pair -/
  | readSecond {s : Logged} {p : Proc} {M : Multiset Proc} {n : ℤ} {q : Pipe}
      (hs : s.sys.procs = p ::ₘ M) (hp : p.pc = .reading)
      (hq : (s.sys.pipes p.idx).read p.num2 = some (n, q)) :
      LogStep s ⟨{ s.sys with
        procs := { p with num2 := n, pc := .reaping (toInt (p.num1 + n)) } ::ₘ M
        pipes := Function.update s.sys.pipes p.idx q
        reads := (p.pid, p.idx) ::ₘ s.sys.reads }, s.print p.pid (toInt (p.num1 + n)), s.file⟩
  /-- `fprintf(f_temp_w, "%d\n", sum);` in the loop of `wait` -/
  | reap {s : Logged} {p c : Proc} {M : Multiset Proc} {sum status : ℤ}
      (hs : s.sys.procs = p ::ₘ c ::ₘ M) (hp : p.pc = .reaping sum) (hc : c.pc = .exited status)
      (hpid : c.ppid = p.pid) :
      LogStep s ⟨{ s.sys with
        procs := { p with pc := .reaping (toInt (sum + status / 2 ^ 8)) } ::ₘ M },
        s.print p.pid (toInt (sum + status / 2 ^ 8)), s.file⟩
  /-- `exit` writes out the buffer. -/
  | exit {s : Logged} {p : Proc} {M : Multiset Proc} {sum : ℤ} (hs : s.sys.procs = p ::ₘ M)
      (hp : p.pc = .reaping sum) (hno : ∀ c ∈ M, c.ppid ≠ p.pid) :
      LogStep s ⟨{ s.sys with procs := { p with pc := .exited (sum % 2 ^ 8 * 2 ^ 8) } ::ₘ M },
        Function.update s.buffers p.pid [], s.file ++ s.buffers p.pid⟩
  | print {s : Logged} {c : Proc} {M : Multiset Proc} {status : ℤ} (hs : s.sys.procs = c ::ₘ M)
      (hc : c.pc = .exited status) (hroot : c.ppid = 0) :
      LogStep s { s with sys := { s.sys with procs := M, printed := some (status / 2 ^ 8) } }

theorem LogStep.step {s t : Logged} (h : LogStep s t) : Step s.sys t.sys := by
  cases h with
  | fork hs hp hi => exact .fork hs hp hi
  | readFirst hs hp hi hq => exact .readFirst hs hp hi hq
  | readSecond hs hp hq => exact .readSecond hs hp hq
  | reap hs hp hc hpid => exact .reap hs hp hc hpid
  | exit hs hp hno => exact .exit hs hp hno
  | print hs hc hroot => exact .print hs hc hroot

/-- The lines that a process, its children to come and the process that reaps it are still to
print. -/
def Proc.due (p : Proc) : ℕ :=
  (match p.pc with
    | .forking i => 2 * 2 ^ (rounds - i) - 1
    | .reading => 1
    | .reaping _ => 0
    | .exited _ => 0) + if p.ppid = 0 then 0 else 1

/-- The lines that are printed or due for a process. -/
def Logged.share (buffers : ℕ → List ℤ) (p : Proc) : ℕ := (buffers p.pid).length + p.due

/-- What holds of the lines in every run on the file. -/
structure LinesInv (file : List ℤ) (s : Logged) : Prop where
  appended : ∃ lines, s.file = file ++ lines
  -- A process has printed nothing before it adds its pair, and holds nothing back when it exits.
  empty : ∀ p ∈ s.sys.procs, (∀ sum, p.pc ≠ .reaping sum) → s.buffers p.pid = []
  count : s.file.length + (s.sys.procs.map (Logged.share s.buffers)).sum =
    file.length + (maxProcesses * 2 - 1)

section Keep

variable {file : List ℤ} {s t : Logged} {p c : Proc} {M : Multiset Proc}

/-- The other processes have other process ids. -/
theorem Inv.pid_ne {sys : System} (h : Inv file sys) (hs : sys.procs = p ::ₘ M) {q : Proc}
    (hq : q ∈ M) :
    q.pid ≠ p.pid := by
  have hpids := h.pids
  rw [hs, Multiset.map_cons, Multiset.nodup_cons] at hpids
  exact fun heq => hpids.1 (Multiset.mem_map.mpr ⟨q, hq, heq⟩)

/-- The shares of processes whose buffers are not touched. -/
theorem map_share_update {buffers : ℕ → List ℤ} {pid : ℕ} (lines : List ℤ)
    (hM : ∀ q ∈ M, q.pid ≠ pid) :
    M.map (Logged.share (Function.update buffers pid lines)) = M.map (Logged.share buffers) := by
  refine Multiset.map_congr rfl fun q hq => ?_
  rw [Logged.share, Logged.share, Function.update_of_ne (hM q hq)]

/-- A step of `p` that leaves the other processes alone, except that `N` are reaped. -/
theorem LinesInv.replace (h : LinesInv file s) (hinv : Inv file s.sys) (p p' : Proc)
    (N M : Multiset Proc)
    (hs : s.sys.procs = p ::ₘ (N + M)) {sys' : System} (hs' : sys'.procs = p' ::ₘ M)
    (hpid : p'.pid = p.pid) {lines file' : List ℤ} (hfile : ∃ out, file' = s.file ++ out)
    (hempty : (∀ sum, p'.pc ≠ .reaping sum) → lines = [])
    (hcount : file'.length + lines.length + p'.due =
      s.file.length + (s.buffers p.pid).length + p.due + (N.map (Logged.share s.buffers)).sum) :
    LinesInv file ⟨sys', Function.update s.buffers p.pid lines, file'⟩ := by
  have hother : ∀ q ∈ M, q.pid ≠ p.pid :=
    fun q hq => hinv.pid_ne hs (Multiset.mem_add.mpr (.inr hq))
  refine ⟨?_, ?_, ?_⟩
  · obtain ⟨lines₀, hlines₀⟩ := h.appended
    obtain ⟨out, hout⟩ := hfile
    exact ⟨lines₀ ++ out, by rw [hout, hlines₀, List.append_assoc]⟩
  · rw [hs']
    refine Multiset.forall_mem_cons.mpr ⟨fun hpc => ?_, fun q hq hpc => ?_⟩
    · simp only [hpid, Function.update_self]
      exact hempty hpc
    · simp only [Function.update_of_ne (hother q hq)]
      exact h.empty q (hs ▸ Multiset.mem_cons_of_mem (Multiset.mem_add.mpr (.inr hq))) hpc
  · have hold := h.count
    rw [hs, Multiset.map_cons, Multiset.sum_cons, Multiset.map_add, Multiset.sum_add] at hold
    rw [hs', Multiset.map_cons, Multiset.sum_cons, map_share_update lines hother]
    simp only [Logged.share, hpid, Function.update_self] at hold ⊢
    omega

/-- `fork` copies an empty buffer. -/
theorem LinesInv.fork (h : LinesInv file s) (hinv : Inv file s.sys) (hs : s.sys.procs = p ::ₘ M)
    {i : ℕ} (hp : p.pc = .forking i) (hi : i < rounds) :
    LinesInv file ⟨{ s.sys with
      procs := { p with pc := .forking (i + 1) } ::ₘ
        { p with
          pid := s.sys.nextPid, ppid := p.pid, idx := p.idx + 2 ^ i
          pc := .forking (i + 1) } ::ₘ M
      nextPid := s.sys.nextPid + 1 },
      Function.update s.buffers s.sys.nextPid (s.buffers p.pid), s.file⟩ := by
  have hmem : p ∈ s.sys.procs := hs ▸ Multiset.mem_cons_self p M
  have hbuffer : s.buffers p.pid = [] := h.empty p hmem (by simp [hp])
  have hnew : ∀ q ∈ s.sys.procs, q.pid ≠ s.sys.nextPid := fun q hq => (hinv.fresh q hq).ne
  have hrest : ∀ q ∈ M, q ∈ s.sys.procs := fun q hq => hs ▸ Multiset.mem_cons_of_mem hq
  rw [hbuffer]
  refine ⟨h.appended, ?_, ?_⟩
  · refine Multiset.forall_mem_cons.mpr
      ⟨fun _ => ?_, Multiset.forall_mem_cons.mpr ⟨fun _ => ?_, ?_⟩⟩
    · exact (Function.update_of_ne (hnew p hmem) _ _).trans hbuffer
    · exact Function.update_self _ _ _
    · intro q hq hpc
      exact (Function.update_of_ne (hnew q (hrest q hq)) _ _).trans (h.empty q (hrest q hq) hpc)
  · have hold := h.count
    have hpow : 2 ^ (rounds - i) = 2 * 2 ^ (rounds - (i + 1)) := by
      rw [← pow_succ', ← Nat.sub_sub, Nat.sub_add_cancel (by omega)]
    have hpos : 0 < 2 ^ (rounds - (i + 1)) := Nat.two_pow_pos _
    have hpid : p.pid ≠ 0 := hinv.pid_ne_zero hmem
    simp only [hs, Multiset.map_cons, Multiset.sum_cons, Logged.share, hbuffer, List.length_nil,
      Proc.due, hp, hpow] at hold
    simp only [Multiset.map_cons, Multiset.sum_cons,
      map_share_update _ fun q hq => hnew q (hrest q hq)]
    simp only [Logged.share, Proc.due, Function.update_of_ne (hnew p hmem), Function.update_self,
      hbuffer, List.length_nil, if_neg hpid]
    omega

theorem LinesInv.step (h : LinesInv file s) (hinv : Inv file s.sys) (hstep : LogStep s t) :
    LinesInv file t := by
  cases hstep with
  | fork hs hp hi => exact h.fork hinv hs hp hi
  | @readFirst p M i n q hs hp hi hq =>
    have hmem : p ∈ s.sys.procs := hs ▸ Multiset.mem_cons_self p M
    have hbuffer : s.buffers p.pid = [] := h.empty p hmem (by simp [hp])
    have hkeep : LinesInv file ⟨{ s.sys with
        procs := { p with num1 := n, pc := .reading } ::ₘ M
        pipes := Function.update s.sys.pipes p.idx q },
        Function.update s.buffers p.pid (s.buffers p.pid), s.file⟩ := by
      refine h.replace hinv p { p with num1 := n, pc := .reading } 0 M (by rw [zero_add]; exact hs)
        rfl rfl ⟨[], (List.append_nil _).symm⟩ (fun _ => hbuffer) ?_
      simp [Proc.due, hp, hinv.eq_rounds hmem hp hi]
    rwa [Function.update_eq_self] at hkeep
  | @readSecond p M n q hs hp hq =>
    refine h.replace hinv p { p with num2 := n, pc := .reaping (toInt (p.num1 + n)) } 0 M
      (by rw [zero_add]; exact hs) rfl rfl ⟨[], (List.append_nil _).symm⟩
        (fun hpc => absurd rfl (hpc _)) ?_
    simp [Proc.due, hp]
    omega
  | @reap p c M sum status hs hp hc hpid =>
    have hmem : c ∈ s.sys.procs := hs ▸ Multiset.mem_cons_of_mem (Multiset.mem_cons_self c M)
    have hbuffer : s.buffers c.pid = [] := h.empty c hmem (by simp [hc])
    have hppid : c.ppid ≠ 0 := hpid ▸ hinv.pid_ne_zero (hs ▸ Multiset.mem_cons_self p _)
    refine h.replace hinv p { p with pc := .reaping (toInt (sum + status / 2 ^ 8)) } {c} M
      (by rw [Multiset.singleton_add]; exact hs) rfl rfl ⟨[], (List.append_nil _).symm⟩
      (fun hpc => absurd rfl (hpc _)) ?_
    simp [Logged.share, Proc.due, hp, hc, hppid, hbuffer]
    omega
  | @exit p M sum hs hp hno =>
    refine h.replace hinv p { p with pc := .exited (sum % 2 ^ 8 * 2 ^ 8) } 0 M
      (by rw [zero_add]; exact hs)
      rfl rfl ⟨s.buffers p.pid, rfl⟩ (fun _ => rfl) ?_
    simp [Proc.due, hp]
  | @print c M status hs hc hroot =>
    have hmem : c ∈ s.sys.procs := hs ▸ Multiset.mem_cons_self c M
    have hbuffer : s.buffers c.pid = [] := h.empty c hmem (by simp [hc])
    refine ⟨h.appended, fun q hq => h.empty q (hs ▸ Multiset.mem_cons_of_mem hq), ?_⟩
    have hold := h.count
    simp only [hs, Multiset.map_cons, Multiset.sum_cons, Logged.share, hbuffer, List.length_nil,
      Proc.due, hc, if_pos hroot] at hold
    simpa using hold

/-- What a run leads to: the sum, and 127 lines at the end of the file. -/
structure DoneWithLines (file : List ℤ) (s : Logged) : Prop where
  done : Done file s.sys
  lines : ∃ lines, s.file = file ++ lines ∧ lines.length = maxProcesses * 2 - 1

end Keep

end SchoolOS.ForkThread.Fork
