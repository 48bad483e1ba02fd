import SchoolOS.ProcInfo.Defs

/-!
# Tracing a task

Reference: `process_tracer` of `Assignment3-1/Process_tracer.c`, and `_do_fork` and `copy_process`
of `Assignment3-1/fork.c`, which keep the numbers and the lists that it prints.

The kernel is a memory of tasks. `copy_process` makes the new task visible in one step, under
`tasklist_lock`. The rest of `_do_fork` runs without a lock: `current->fork_count++` reads and then
writes, and `p->fork_count` still holds the number of the parent until it is set. `Step` is one step
of any task in `_do_fork`, or of the rest of the kernel, which is a parameter.
-/

namespace SchoolOS.ProcessTracer

open Function
open ProcInfo (TASK_INTERRUPTIBLE TASK_UNINTERRUPTIBLE TASK_STOPPED EXIT_DEAD EXIT_ZOMBIE)

/-- The address of a `task_struct`. -/
abbrev Ptr := ℕ

/-- The fields of a `task_struct` that are printed or followed. `children` is the list that starts
at the field of this name, in its order. -/
structure Task where
  pid : ℤ
  comm : Bytes
  state : UInt64
  exitState : UInt32
  groupLeader : Ptr
  nvcsw : UInt64
  nivcsw : UInt64
  forkCount : ℤ
  realParent : Ptr
  children : List Ptr

/-- The tasks in memory, and `pid_task(find_vpid(pid), PIDTYPE_PID)`. -/
structure Kernel where
  task : Ptr → Option Task
  pidTask : ℤ → Option Ptr

/-- Write a task. -/
def Kernel.set (k : Kernel) (p : Ptr) (t : Task) : Kernel :=
  { k with task := update k.task p (some t) }

/-! ## `process_tracer` -/

/-- `[%d] %s` of a task. -/
def Task.name (t : Task) : Bytes := ascii "[" ++ decimal t.pid ++ ascii "] " ++ t.comm

def headerLine (t : Task) : Bytes :=
  ascii "##### TASK INFORMATION of ''" ++ t.name ++ ascii "'' #####\n"

/-- The label of the first test that succeeds. -/
def Task.stateLabel (t : Task) : Bytes :=
  if t.state = 0 then ascii "Running or ready"
  else if t.state &&& TASK_INTERRUPTIBLE ≠ 0 then ascii "Wait"
  else if t.state &&& TASK_UNINTERRUPTIBLE ≠ 0 then ascii "Wait with ignoring all signals"
  else if t.state &&& TASK_STOPPED ≠ 0 then ascii "Stopped"
  else if t.exitState &&& EXIT_DEAD ≠ 0 then ascii "Dead"
  else if t.exitState &&& EXIT_ZOMBIE ≠ 0 then ascii "Zombie process"
  else ascii "etc."

def stateLine (t : Task) : Bytes := ascii "- task state : " ++ t.stateLabel ++ ascii "\n"

def leaderLine (leader : Task) : Bytes :=
  ascii "- Process Group Leader : " ++ leader.name ++ ascii "\n"

/-- `%d` prints the low 32 bits of the sum, which is an `unsigned long`. -/
def switchLine (t : Task) : Bytes :=
  ascii "- Number of context switches : " ++ decimal (toInt (t.nvcsw + t.nivcsw).toNat) ++
    ascii "\n"

def forkLine (count : ℤ) : Bytes :=
  ascii "- Number of calling fork() : " ++ decimal count ++ ascii "\n"

def parentLine (parent : Task) : Bytes :=
  ascii "- it's parent process : " ++ parent.name ++ ascii "\n"

def entryLine (t : Task) : Bytes := ascii "   > " ++ t.name ++ ascii "\n"

/-- The line behind a list of `cnt` tasks. -/
def countLine (kin : Bytes) (cnt : ℕ) : Bytes :=
  if cnt = 0 then ascii "   > It has no " ++ kin ++ ascii ".\n"
  else ascii "   > This process has " ++ decimal cnt ++ ascii " " ++ kin ++ ascii " process(es)\n"

/-- `list_for_each_entry` with a line for each task of the list except `skip`, and their number. -/
def listTasks (k : Kernel) (skip : Option Ptr) (list : List Ptr) : Option (List Bytes × ℕ) :=
  list.foldlM
    (fun s p => if skip = some p then some s
      else (k.task p).map fun t => (s.1 ++ [entryLine t], s.2 + 1))
    ([], 0)

/-- The lines of a task. -/
def report (t leader parent : Task) (siblings children : List Bytes × ℕ) : List Bytes :=
  [headerLine t, stateLine t, leaderLine leader, switchLine t, forkLine t.forkCount,
    parentLine parent, ascii "- it's sibling process(es) :\n"] ++ siblings.1 ++
  [countLine (ascii "sibling") siblings.2, ascii "- it's child process(es) :\n"] ++ children.1 ++
  [countLine (ascii "child") children.2, ascii "##### END OF INFORMATION #####\n"]

/-- `process_tracer` with the argument in the register `di`: the return value and the lines that are
printed. `none` stands for a pointer to a task that does not exist. -/
def processTracer (k : Kernel) (di : UInt64) : Option (ℤ × List Bytes) :=
  let pid := toInt di.toNat
  match k.pidTask pid with
  | none => some (-1, [])
  | some tracePtr => do
    let t ← k.task tracePtr
    let leader ← k.task t.groupLeader
    let parent ← k.task t.realParent
    -- start from `parent->children`, except for `trace_ptr`
    let siblings ← listTasks k (some tracePtr) parent.children
    let children ← listTasks k none t.children
    some (pid, report t leader parent siblings children)

/-! ## `_do_fork` -/

/-- The flags of `clone` that decide where the new task is put. -/
structure CloneFlags where
  parent : Bool
  thread : Bool

/-- What the rest of the kernel gives to a new task: its address, its pid (`alloc_pid`) and its
first state (`sched_fork`). -/
structure NewTask where
  ptr : Ptr
  pid : ℤ
  state : UInt64

/-- The new task: a copy of the task `cur` at `current`, with its own numbers and lists. -/
def Task.copy (cur : Task) (current : Ptr) (flags : CloneFlags) (new : NewTask) : Task :=
  { cur with
    pid := new.pid
    state := new.state
    nvcsw := 0
    nivcsw := 0
    groupLeader := if flags.thread then cur.groupLeader else new.ptr
    -- CLONE_PARENT re-uses the old parent
    realParent := if flags.parent || flags.thread then cur.realParent else current
    children := [] }

/-- Put a task into memory, and attach its pid. -/
def Kernel.attach (k : Kernel) (p : Ptr) (t : Task) : Kernel :=
  { k.set p t with pidTask := update k.pidTask t.pid (some p) }

/-- `list_add_tail(&p->sibling, &parent->children)`. -/
def Kernel.addChild (k : Kernel) (parent p : Ptr) : Option Kernel := do
  let t ← k.task parent
  some (k.set parent { t with children := t.children ++ [p] })

/-- `copy_process`, when it succeeds. A new task that is not a thread is put at the end of the list
of its parent. -/
def copyProcess (k : Kernel) (current : Ptr) (flags : CloneFlags) (new : NewTask) :
    Option Kernel := do
  let cur ← k.task current
  let p := cur.copy current flags new
  let k := k.attach new.ptr p
  if flags.thread then some k else k.addChild p.realParent new.ptr

/-- Where a task is in `_do_fork`, with the new task `p` and with the number that
`current->fork_count++` has read. A task that has not been woken up yet is asleep. -/
inductive Pc
  | outside
  | copied (p : Ptr)
  | loaded (p : Ptr) (count : ℤ)
  | counted (p : Ptr)
  | reset (p : Ptr)
  | asleep
deriving DecidableEq

structure System where
  kernel : Kernel
  pc : Ptr → Pc

/-- `copy_process` has succeeded for a task, or anything else has happened. -/
inductive Event
  | copy (current p : Ptr)
  | tick
deriving DecidableEq

/-- A step of a task in `_do_fork`, or a step of the rest of the kernel. An unsuccessful call of
`copy_process` is part of the rest. -/
inductive Step (rest : System → Kernel → Prop) : System → Event → System → Prop
  /-- `p = copy_process(NULL, trace, NUMA_NO_NODE, args);` -/
  | copy {s : System} {current : Ptr} {flags : CloneFlags} {new : NewTask} {k : Kernel}
      (hpc : s.pc current = .outside) (hptr : s.kernel.task new.ptr = none)
      (hpid : s.kernel.pidTask new.pid = none)
      (hcopy : copyProcess s.kernel current flags new = some k) :
      Step rest s (.copy current new.ptr)
        ⟨k, update (update s.pc new.ptr .asleep) current (.copied new.ptr)⟩
  /-- `current->fork_count++;` reads the number, -/
  | load {s : System} {current p : Ptr} {t : Task} (hpc : s.pc current = .copied p)
      (ht : s.kernel.task current = some t) :
      Step rest s .tick { s with pc := update s.pc current (.loaded p t.forkCount) }
  /-- and writes the next one. -/
  | store {s : System} {current p : Ptr} {count : ℤ} {t : Task}
      (hpc : s.pc current = .loaded p count)
      (ht : s.kernel.task current = some t) :
      Step rest s .tick ⟨s.kernel.set current { t with forkCount := toInt (count + 1) },
        update s.pc current (.counted p)⟩
  /-- `p->fork_count = 0;` -/
  | reset {s : System} {current p : Ptr} {t : Task} (hpc : s.pc current = .counted p)
      (ht : s.kernel.task p = some t) :
      Step rest s .tick ⟨s.kernel.set p { t with forkCount := 0 }, update s.pc current (.reset p)⟩
  /-- `wake_up_new_task(p);` -/
  | wake {s : System} {current p : Ptr} (hpc : s.pc current = .reset p) :
      Step rest s .tick { s with pc := update (update s.pc current .outside) p .outside }
  | rest {s : System} {k : Kernel} (hrest : rest s k) : Step rest s .tick { s with kernel := k }

/-- The pointer to `init_task`. -/
def initTask : Ptr := 0

/-- The kernel at boot: only `init_task`, with some name, and with the process id 0 that no lookup
finds. -/
def boot (comm : Bytes) : System where
  kernel :=
    { task := update (fun _ => none) initTask
        (some ⟨0, comm, 0, 0, initTask, 0, 0, 0, initTask, []⟩)
      pidTask := fun _ => none }
  pc := fun _ => .outside

/-- The states that a run reaches from the boot, with its events, the last one first. -/
inductive Reaches (rest : System → Kernel → Prop) : List Event → System → Prop
  | boot (comm : Bytes) : Reaches rest [] (boot comm)
  | step {events : List Event} {s s' : System} {e : Event} : Reaches rest events s →
    Step rest s e s' → Reaches rest (e :: events) s'

end SchoolOS.ProcessTracer
