import Mathlib.Data.List.Zip
import SchoolOS.ProcInfo.Listing

/-!
# The state column

Reference: `Assignment5-1/proc_info.c`, the state chain of `my_read`.

The chain of tests has no final `else`. For a task that passes none of them the scratch buffer still
holds the numeric columns, and they are appended a second time in the place of the state. `HasLabel`
says which words of `state` and `exit_state` pass a test, and the listing has one state label in
each row exactly if it holds for all tasks listed.
-/

namespace SchoolOS.ProcInfo

/-- The labels of the state column. -/
def labels : List Bytes :=
  [ascii "R (running)", ascii "S (sleeping)", ascii "D (disk sleep)", ascii "T (stopped)",
    ascii "t (tracing stop)", ascii "X (dead)", ascii "Z (zombie)", ascii "P (parked)",
    ascii "I (idle)"]

/-- A row with the numeric columns, a label and the name. -/
def row (t : Task) (label : Bytes) : Bytes := columns t ++ padRight 20 label ++ nameColumn t

/-- The tasks that have a row. -/
def listed (k : Kernel) (curProc : ℤ) : List Task :=
  match selected k curProc with
  | some t => [t]
  | none => k.tasks

/-- The text is the header followed by one row for each task, in order, each with one state
label. -/
def OneLabelEach (tasks : List Task) (s : Bytes) : Prop :=
  ∃ ls : List Bytes, ls.length = tasks.length ∧ (∀ l ∈ ls, l ∈ labels) ∧
    s = header ++ ruler ++ (List.zipWith row tasks ls).flatten

/-- The task is running, or has a bit of `TASK_INTERRUPTIBLE`, `TASK_UNINTERRUPTIBLE`,
`TASK_STOPPED`, `__TASK_TRACED`, `TASK_PARKED` or `TASK_IDLE` in `state`, or one of `EXIT_DEAD` or
`EXIT_ZOMBIE` in `exit_state`. -/
def HasLabel (t : Task) : Prop := t.state = 0 ∨ t.state &&& 0x054F ≠ 0 ∨ t.exitState &&& 0x0030 ≠ 0

/-! ## Which tasks pass a test -/

theorem and_or_eq_zero64 (x a b : UInt64) : x &&& (a ||| b) = 0 ↔ x &&& a = 0 ∧ x &&& b = 0 := by
  rw [← UInt64.or_eq_zero_iff, ← UInt64.toBitVec_inj, ← UInt64.toBitVec_inj]
  simp only [UInt64.toBitVec_and, UInt64.toBitVec_or, BitVec.and_or_distrib_left]

theorem and_or_eq_zero32 (x a b : UInt32) : x &&& (a ||| b) = 0 ↔ x &&& a = 0 ∧ x &&& b = 0 := by
  rw [← UInt32.or_eq_zero_iff, ← UInt32.toBitVec_inj, ← UInt32.toBitVec_inj]
  simp only [UInt32.toBitVec_and, UInt32.toBitVec_or, BitVec.and_or_distrib_left]

theorem ite_some_eq_none {c : Prop} [Decidable c] {a : Bytes} {x : Option Bytes} :
    (if c then some a else x) = none ↔ ¬ c ∧ x = none := by
  split
  · simp [*]
  · simp [*]

theorem stateLabel_eq_none_iff (t : Task) : stateLabel t = none ↔ ¬ HasLabel t := by
  have hstate : t.state &&& 0x054F = 0 ↔ t.state &&& TASK_INTERRUPTIBLE = 0 ∧
      t.state &&& TASK_UNINTERRUPTIBLE = 0 ∧ t.state &&& TASK_STOPPED = 0 ∧
      t.state &&& (0x0004 ||| 0x0008) = 0 ∧ t.state &&& TASK_PARKED = 0 ∧
      t.state &&& TASK_IDLE = 0 := by
    have hmask :
      (0x054F : UInt64) = TASK_INTERRUPTIBLE ||| (TASK_UNINTERRUPTIBLE ||| (TASK_STOPPED |||
        ((0x0004 ||| 0x0008) ||| (TASK_PARKED ||| TASK_IDLE)))) := by decide
    rw [hmask]
    simp only [and_or_eq_zero64]
  have hexit : t.exitState &&& 0x0030 = 0 ↔ t.exitState &&& EXIT_DEAD = 0 ∧
      t.exitState &&& EXIT_ZOMBIE = 0 := by
    have hmask : (0x0030 : UInt32) = EXIT_DEAD ||| EXIT_ZOMBIE := by decide
    rw [hmask, and_or_eq_zero32]
  simp only [stateLabel, ite_some_eq_none, taskIsStoppedOrTraced, HasLabel, not_or, Ne, not_not,
    decide_not, Bool.not_eq_true', decide_eq_false_iff_not, hstate, hexit]
  tauto

theorem mem_labels (t : Task) : ∀ label ∈ stateLabel t, label ∈ labels := by
  unfold stateLabel
  iterate 9 refine forall_mem_ite (· ∈ labels) (by decide) ?_
  exact fun label hlabel => absurd hlabel (by simp)

/-! ## The rows -/

theorem rows_eq (k : Kernel) (curProc : ℤ) :
    rows k curProc = (listed k curProc).flatMap chunks := by
  unfold rows listed
  cases selected k curProc with
  | some t => simp
  | none => rfl

theorem length_labels : ∀ l ∈ labels, l.length ≤ 20 := by decide

theorem length_columns_ge (t : Task) : 72 ≤ (columns t).length := by
  simp only [columns, List.length_append, length_padRight]
  omega

theorem length_row {t : Task} {label : Bytes} (h : label ∈ labels) :
    (row t label).length = (columns t).length + 20 + (nameColumn t).length := by
  have hle := length_labels label h
  rw [row, List.length_append, List.length_append, length_padRight, Nat.max_eq_left hle]

theorem length_chunks (t : Task) : (chunks t).flatten.length =
    (columns t).length + (stateColumn t).length + (nameColumn t).length := by
  simp [chunks, Nat.add_assoc]

/-- A state column is a label exactly if it is 20 bytes long. -/
theorem length_stateColumn (t : Task) :
    20 ≤ (stateColumn t).length ∧ ((stateColumn t).length = 20 → HasLabel t) := by
  unfold stateColumn
  cases hlabel : stateLabel t with
  | none =>
    have hge := length_columns_ge t
    rw [Option.elim_none]
    exact ⟨by omega, fun h => by omega⟩
  | some label =>
    have hhas : HasLabel t := by
      by_contra hnot
      rw [(stateLabel_eq_none_iff t).mpr hnot] at hlabel
      simp at hlabel
    rw [Option.elim_some, length_padRight]
    exact ⟨by omega, fun _ => hhas⟩

/-- The listing is as long as one with a label in each row only if there is one. -/
theorem length_rows_le {tasks : List Task} {ls : List Bytes} (hlen : ls.length = tasks.length)
    (hls : ∀ l ∈ ls, l ∈ labels) :
    (List.zipWith row tasks ls).flatten.length ≤ (tasks.flatMap chunks).flatten.length ∧
      ((List.zipWith row tasks ls).flatten.length = (tasks.flatMap chunks).flatten.length →
        ∀ t ∈ tasks, HasLabel t) := by
  induction tasks generalizing ls with
  | nil => simp
  | cons t tasks ih =>
    obtain ⟨l, ls, rfl⟩ : ∃ l ls', ls = l :: ls' := List.exists_cons_of_length_eq_add_one hlen
    obtain ⟨hl, hls⟩ := List.forall_mem_cons.mp hls
    obtain ⟨hle, heq⟩ := ih (by simpa using hlen) hls
    obtain ⟨hge, hlabel⟩ := length_stateColumn t
    simp only [List.zipWith_cons_cons, List.flatten_cons, List.flatMap_cons, List.flatten_append,
      List.length_append, length_row hl, length_chunks]
    refine ⟨by omega, fun hsum => List.forall_mem_cons.mpr ⟨hlabel (by omega), heq (by omega)⟩⟩

theorem flatten_rows {tasks : List Task} (h : ∀ t ∈ tasks, HasLabel t) :
    ∃ ls : List Bytes, ls.length = tasks.length ∧ (∀ l ∈ ls, l ∈ labels) ∧
      (tasks.flatMap chunks).flatten = (List.zipWith row tasks ls).flatten := by
  induction tasks with
  | nil => exact ⟨[], rfl, by simp, rfl⟩
  | cons t tasks ih =>
    obtain ⟨ht, htasks⟩ := List.forall_mem_cons.mp h
    obtain ⟨ls, hlen, hls, hflat⟩ := ih htasks
    obtain ⟨label, hlabel⟩ : ∃ label, stateLabel t = some label := by
      rw [← Option.ne_none_iff_exists']
      exact fun hnone => (stateLabel_eq_none_iff t).mp hnone ht
    refine ⟨label :: ls, by simp [hlen], List.forall_mem_cons.mpr ⟨mem_labels t label hlabel, hls⟩,
      ?_⟩
    rw [List.zipWith_cons_cons, List.flatten_cons, ← hflat, List.flatMap_cons, List.flatten_append]
    simp [chunks, row, stateColumn, hlabel]

theorem oneLabelEach_text_iff (k : Kernel) (curProc : ℤ) :
    OneLabelEach (listed k curProc) (text k curProc) ↔ ∀ t ∈ listed k curProc, HasLabel t := by
  rw [text, rows_eq]
  constructor
  · rintro ⟨ls, hlen, hls, heq⟩
    refine (length_rows_le hlen hls).2 ?_
    exact congrArg List.length (List.append_cancel_left heq).symm
  · intro h
    obtain ⟨ls, hlen, hls, hflat⟩ := flatten_rows h
    exact ⟨ls, hlen, hls, by rw [hflat]⟩

/-- The listing has the numeric columns, one state label and the name of each task, exactly if every
task that is listed passes one of the tests. -/
theorem listing_oneLabelEach_iff (k : Kernel) (alloc : ℕ → Bool) (curProc : ℤ)
    (h : Granted alloc (text k curProc).length) :
    ∃ b, build k alloc curProc = .ok b ∧
      (OneLabelEach (listed k curProc) b.str ↔ ∀ t ∈ listed k curProc, HasLabel t) := by
  obtain ⟨b, hb, hstr⟩ := (build_eq k alloc curProc).1 h
  exact ⟨b, hb, by rw [hstr, oneLabelEach_text_iff]⟩

theorem nul_free_shell : (0 : UInt8) ∉ ascii "sh" := by decide

/-- The name of a shell. -/
def shell : CString := ⟨ascii "sh", nul_free_shell⟩

theorem length_shell : shell.bytes.length < 16 := by decide

/-- A shell in the given state. -/
def taskInState (state : UInt64) : Task := ⟨7, 1, 0, 0, 0, 0, state, 0, shell, length_shell⟩

/-- A kernel with one task. -/
def oneTask (state : UInt64) : Kernel := ⟨[taskInState state], fun _ => none⟩

theorem listed_oneTask (state : UInt64) : listed (oneTask state) (-1) = [taskInState state] := rfl

/-- A shell that runs and one that sleeps. -/
def twoStates : Kernel := ⟨[taskInState 0, taskInState TASK_INTERRUPTIBLE], fun _ => none⟩

theorem listing_oneLabelEach_twoStates :
    Granted (fun _ => true) (text twoStates (-1)).length ∧
      ∃ b, build twoStates (fun _ => true) (-1) = .ok b ∧
        OneLabelEach [taskInState 0, taskInState TASK_INTERRUPTIBLE] b.str := by
  have hgranted : Granted (fun _ => true) (text twoStates (-1)).length :=
    granted_of_alloc (fun _ => rfl) _
  obtain ⟨b, hb, hiff⟩ := listing_oneLabelEach_iff twoStates (fun _ => true) (-1) hgranted
  refine ⟨hgranted, b, hb, hiff.mpr fun t ht => ?_⟩
  rcases List.mem_pair.mp ht with rfl | rfl
  · exact Or.inl (by decide)
  · exact Or.inr (Or.inl (by decide))

/-- A task in the state `TASK_NEW` (`0x0800`), which no test asks for: the numeric columns stand
twice in its row. -/
theorem not_oneLabelEach_new :
    ∃ b, build (oneTask 0x0800) (fun _ => true) (-1) = .ok b ∧
      b.str = header ++ ruler ++ (columns (taskInState 0x0800) ++ (columns (taskInState 0x0800) ++
        nameColumn (taskInState 0x0800))) ∧
      ¬ OneLabelEach [taskInState 0x0800] b.str := by
  have hnot : ¬ HasLabel (taskInState 0x0800) := by
    rintro (h | h | h)
    · exact absurd h (by decide)
    · exact absurd h (by decide)
    · exact absurd h (by decide)
  obtain ⟨b, hb, hstr⟩ :=
    (build_eq (oneTask 0x0800) (fun _ => true) (-1)).1 (granted_of_alloc (fun _ => rfl) _)
  refine ⟨b, hb, ?_, fun h => ?_⟩
  · rw [hstr]
    show header ++ ruler ++ [columns (taskInState 0x0800), stateColumn (taskInState 0x0800),
      nameColumn (taskInState 0x0800)].flatten = _
    rw [stateColumn, (stateLabel_eq_none_iff _).mpr hnot]
    simp
  · rw [hstr, ← listed_oneTask] at h
    have hall := (oneLabelEach_text_iff (oneTask 0x0800) (-1)).mp h
    exact hnot (hall _ (List.mem_singleton.mpr rfl))

end SchoolOS.ProcInfo
