import SchoolOS.ProcInfo.Listing

/-!
# The buffer that grows

Reference: `Assignment5-1/proc_info.c`, the branch of `my_read` for all processes.

Here the locals of `my_read` are kept apart as the source has them: the string in `buffer`, the size
that it has been allocated, the variable `buf_size`, and the scratch buffer `buf`. A `strcat` does
not look at the sizes; it is recorded with those that it finds. `Roomy` is the invariant of the
loop, kept by each of its three append-or-double blocks (`Locals.append_roomy`), and so every
`strcat` of the run has found room for the string and its terminator.
-/

namespace SchoolOS.ProcInfo

/-- What a `strcat(buffer, buf)` finds. -/
structure Strcat where
  strlenBuffer : ℕ
  buf : Bytes
  bufSize : ℕ
  allocated : ℕ

/-- The locals of `my_read`, and the calls of `strcat` so far. -/
structure Locals where
  buffer : Bytes
  allocated : ℕ
  bufSize : ℕ
  buf : Bytes
  strcats : List Strcat

namespace Locals

/-- `strcat(buffer, buf);` -/
def strcat (l : Locals) : Locals :=
  { l with
    buffer := l.buffer ++ l.buf
    strcats := l.strcats ++ [⟨l.buffer.length, l.buf, l.bufSize, l.allocated⟩] }

/-- Append `buf`, after doubling the buffer if the size lacks. `buf_size - strlen(buffer)` is
computed without a sign, and is never negative. It is `none` if `krealloc` fails. -/
def append (alloc : ℕ → Bool) (l : Locals) : Option Locals :=
  if l.buf.length < l.bufSize - l.buffer.length then some l.strcat
  else if alloc (l.bufSize * 2) then
    some (strcat { l with allocated := l.bufSize * 2, bufSize := l.bufSize * 2 })
  else none

/-- The state column in `buf`, which stays as it is if no test succeeds. -/
def sprintfState (t : Task) (l : Locals) : Locals :=
  match stateLabel t with
  | some label => { l with buf := padRight 20 label }
  | none => l

/-- One iteration of `for_each_process`. -/
def process (alloc : ℕ → Bool) (l : Locals) (t : Task) : Option Locals := do
  let l ← append alloc { l with buf := columns t }
  let l ← append alloc (l.sprintfState t)
  append alloc { l with buf := nameColumn t }

/-- The locals behind the two lines of the header, in a buffer of `BUF_SIZE` bytes. -/
def start : Locals :=
  strcat { strcat ⟨[], BUF_SIZE, BUF_SIZE, header, []⟩ with buf := ruler }

end Locals

/-- The text of all processes. -/
def buildAll (alloc : ℕ → Bool) (tasks : List Task) : Option Locals :=
  if alloc BUF_SIZE then tasks.foldlM (Locals.process alloc) Locals.start else none

/-! ## The invariant -/

/-- The call has room for the string and its terminator, and `buf_size` is the allocated size. -/
def Strcat.Safe (c : Strcat) : Prop :=
  c.strlenBuffer + c.buf.length + 1 ≤ c.bufSize ∧ c.bufSize = c.allocated

/-- `buf_size` is the allocated size, the string in `buffer` fits into it, and every `strcat` so far
was safe and has added its chunk. -/
structure Roomy (l : Locals) : Prop where
  chunks : l.buffer = (l.strcats.map Strcat.buf).flatten
  size : l.bufSize = l.allocated
  fits : l.buffer.length < l.bufSize
  large : BUF_SIZE ≤ l.bufSize
  safe : ∀ c ∈ l.strcats, c.Safe

section Loop

variable {alloc : ℕ → Bool} {l : Locals}

theorem Locals.strcat_roomy (h : Roomy l) (hroom : l.buffer.length + l.buf.length < l.bufSize) :
    Roomy l.strcat where
  chunks := by simp [Locals.strcat, h.chunks]
  size := h.size
  fits := by simpa [Locals.strcat] using hroom
  large := h.large
  safe c hc := by
    rcases List.mem_append.mp hc with hc | hc
    · exact h.safe c hc
    · rw [List.mem_singleton.mp hc]
      exact ⟨hroom, h.size⟩

/-- An append-or-double block: one more `strcat`, which is safe. -/
theorem Locals.append_roomy (h : Roomy l) (halloc : ∀ n, alloc n = true)
    (hbuf : l.buf.length < 512) :
    ∃ l', l.append alloc = some l' ∧ Roomy l' ∧ l'.buffer = l.buffer ++ l.buf ∧ l'.buf = l.buf ∧
      l'.strcats.length = l.strcats.length + 1 := by
  have hsize : BUF_SIZE = 4096 := rfl
  have hfits := h.fits
  have hlarge := h.large
  unfold Locals.append
  by_cases hroom : l.buf.length < l.bufSize - l.buffer.length
  · rw [if_pos hroom]
    exact ⟨_, rfl, Locals.strcat_roomy h (by omega), rfl, rfl, by simp [Locals.strcat]⟩
  · rw [if_neg hroom, if_pos (halloc _)]
    -- the old size is more than 512, so the double has room
    have hdouble : Roomy { l with allocated := l.bufSize * 2, bufSize := l.bufSize * 2 } :=
      ⟨h.chunks, rfl, hfits.trans_le (Nat.le_mul_of_pos_right _ two_pos),
        hlarge.trans (Nat.le_mul_of_pos_right _ two_pos), h.safe⟩
    refine ⟨_, rfl, Locals.strcat_roomy hdouble ?_, rfl, rfl, by simp [Locals.strcat]⟩
    show l.buffer.length + l.buf.length < l.bufSize * 2
    omega

theorem Roomy.setBuf (h : Roomy l) (s : Bytes) : Roomy { l with buf := s } :=
  ⟨h.chunks, h.size, h.fits, h.large, h.safe⟩

/-- Between the columns and the name, `buf` holds the state column. -/
theorem Locals.sprintfState_eq {t : Task} (h : l.buf = columns t) :
    l.sprintfState t = { l with buf := stateColumn t } := by
  unfold Locals.sprintfState stateColumn
  cases stateLabel t with
  | some label => rfl
  | none => exact congrArg (fun s => { l with buf := s }) h

theorem Locals.process_roomy (h : Roomy l) (halloc : ∀ n, alloc n = true) (t : Task) :
    ∃ l', l.process alloc t = some l' ∧ Roomy l' ∧ l'.buffer = l.buffer ++ (chunks t).flatten ∧
      l'.strcats.length = l.strcats.length + 3 := by
  obtain ⟨l₁, happend₁, h₁, hbuffer₁, hbuf₁, hcount₁⟩ :=
    Locals.append_roomy (h.setBuf (columns t)) halloc (length_columns_lt t)
  obtain ⟨l₂, happend₂, h₂, hbuffer₂, -, hcount₂⟩ :=
    Locals.append_roomy (h₁.setBuf (stateColumn t)) halloc (length_stateColumn_lt t)
  obtain ⟨l₃, happend₃, h₃, hbuffer₃, -, hcount₃⟩ :=
    Locals.append_roomy (h₂.setBuf (nameColumn t)) halloc (length_nameColumn_lt t)
  refine ⟨l₃, ?_, h₃, ?_, ?_⟩
  · simp only [Locals.process, happend₁, Option.bind_eq_bind, Option.bind_some,
      Locals.sprintfState_eq hbuf₁, happend₂, happend₃]
  · rw [hbuffer₃, hbuffer₂, hbuffer₁]
    simp [chunks]
  · simp only at hcount₁ hcount₂ hcount₃
    omega

theorem Locals.foldlM_roomy (h : Roomy l) (halloc : ∀ n, alloc n = true) (tasks : List Task) :
    ∃ l', tasks.foldlM (Locals.process alloc) l = some l' ∧ Roomy l' ∧
      l'.buffer = l.buffer ++ (tasks.flatMap chunks).flatten ∧
      l'.strcats.length = l.strcats.length + 3 * tasks.length := by
  induction tasks generalizing l with
  | nil => exact ⟨l, rfl, h, by simp, rfl⟩
  | cons t tasks ih =>
    obtain ⟨l₁, hprocess, h₁, hbuffer₁, hcount₁⟩ := Locals.process_roomy h halloc t
    obtain ⟨l', hfold, h', hbuffer, hcount⟩ := ih h₁
    refine ⟨l', ?_, h', ?_, ?_⟩
    · rw [List.foldlM_cons, hprocess]
      exact hfold
    · rw [hbuffer, hbuffer₁, List.flatMap_cons, List.flatten_append, List.append_assoc]
    · rw [List.length_cons]
      omega

end Loop

theorem Locals.start_roomy : Roomy Locals.start := by
  have hempty : Roomy ⟨[], BUF_SIZE, BUF_SIZE, header, []⟩ :=
    ⟨rfl, rfl, by decide, le_rfl, by simp⟩
  have hheader := Locals.strcat_roomy hempty (by rw [length_header]; decide)
  refine Locals.strcat_roomy (hheader.setBuf ruler) ?_
  show ([] ++ header).length + ruler.length < BUF_SIZE
  rw [List.nil_append, length_header, length_ruler]
  decide

/-- Every `strcat` of the listing of all processes has room for the string and its terminator in a
buffer of the allocated size `buf_size`. There is one for each line of the header and three for each
task. In the end `buffer` holds all that they were given, in order: the header followed by the
chunks of all tasks, which is the text that `build` computes. -/
theorem buildAll_safe (k : Kernel) (alloc : ℕ → Bool) (curProc : ℤ) (halloc : ∀ n, alloc n = true)
    (hall : selected k curProc = none) :
    ∃ l, buildAll alloc k.tasks = some l ∧
      (∀ c ∈ l.strcats, c.strlenBuffer + c.buf.length + 1 ≤ c.bufSize ∧ c.bufSize = c.allocated) ∧
      l.strcats.length = 2 + 3 * k.tasks.length ∧
      l.buffer = (l.strcats.map Strcat.buf).flatten ∧
      l.buffer = header ++ ruler ++ (k.tasks.flatMap chunks).flatten ∧
      ∃ b, build k alloc curProc = .ok b ∧ b.str = l.buffer := by
  obtain ⟨l, hfold, hroomy, hbuffer, hcount⟩ :=
    Locals.foldlM_roomy Locals.start_roomy halloc k.tasks
  have hstr : l.buffer = header ++ ruler ++ (k.tasks.flatMap chunks).flatten := by
    rw [hbuffer]
    rfl
  have htext : text k curProc = l.buffer := by
    rw [hstr, text, rows, hall]
  obtain ⟨b, hb, hbstr⟩ := (build_eq k alloc curProc).1 (granted_of_alloc halloc _)
  exact ⟨l, by rw [buildAll, if_pos (halloc _), hfold], hroomy.safe, hcount, hroomy.chunks, hstr,
    b, hb, hbstr.trans htext⟩

/-- A sleeping task. -/
def initTask : Task :=
  ⟨1, 0, 0, 0, 3, 4, TASK_INTERRUPTIBLE, 0, ⟨ascii "init", by decide⟩, by decide⟩

/-- A kernel with sixty tasks, which do not fit into `BUF_SIZE` bytes. -/
def manyTasks : Kernel := ⟨List.replicate 60 initTask, fun _ => none⟩

theorem length_chunks_initTask : 70 ≤ (chunks initTask).flatten.length := by decide +kernel

theorem length_chunks_manyTasks : BUF_SIZE ≤ (manyTasks.tasks.flatMap chunks).flatten.length := by
  have hlength : ∀ n, ((List.replicate n initTask).flatMap chunks).flatten.length =
      n * (chunks initTask).flatten.length := by
    intro n
    induction n with
    | zero => simp
    | succ n ih =>
      rw [List.replicate_succ, List.flatMap_cons, List.flatten_append, List.length_append, ih,
        Nat.succ_mul, Nat.add_comm]
  calc BUF_SIZE ≤ 60 * 70 := by decide
    _ ≤ 60 * (chunks initTask).flatten.length := Nat.mul_le_mul_left 60 length_chunks_initTask
    _ = (manyTasks.tasks.flatMap chunks).flatten.length := (hlength 60).symm

theorem buildAll_safe_manyTasks :
    ∃ l, buildAll (fun _ => true) manyTasks.tasks = some l ∧
      (∀ c ∈ l.strcats, c.strlenBuffer + c.buf.length + 1 ≤ c.bufSize ∧ c.bufSize = c.allocated) ∧
      l.strcats.length = 182 ∧
      ∃ b, build manyTasks (fun _ => true) (-1) = .ok b ∧ b.str = l.buffer ∧ BUF_SIZE < b.size := by
  obtain ⟨l, hl, hsafe, hcount, -, hbuffer, b, hb, hstr⟩ :=
    buildAll_safe manyTasks (fun _ => true) (-1) (fun _ => rfl) rfl
  refine ⟨l, hl, hsafe, hcount, b, hb, hstr, lt_of_le_of_lt ?_ b.fits⟩
  rw [hstr, hbuffer, List.length_append]
  exact length_chunks_manyTasks.trans (Nat.le_add_left _ _)

end SchoolOS.ProcInfo
