import SchoolOS.Lib.CInt
import SchoolOS.Lib.Stdio

/-!
# The process listing in `/proc`

Reference: `Assignment5-1/proc_info.c`, `my_open` and `my_read`, and the task states of
`Assignment3-1/sched.h`.

The kernel is given by its list of tasks, by `pid_task`, and by which allocations succeed. The text
is built in a buffer on the heap, which carries its size: `strcat` outside the buffer is an
overflow.
-/

namespace SchoolOS.ProcInfo

/-- `#define BUF_SIZE 4096` -/
def BUF_SIZE : ℕ := 4096

/-- The fields of a `task_struct` that are printed. `comm` is a `char[TASK_COMM_LEN]`. -/
structure Task where
  pid : Int32
  ppid : Int32
  uid : UInt32
  gid : UInt32
  utime : UInt64
  stime : UInt64
  state : UInt64
  exitState : UInt32
  comm : CString
  comm_lt : comm.bytes.length < 16

/-- What a call sees of the kernel. -/
structure Kernel where
  tasks : List Task
  pidTask : ℤ → Option Task

/-! ## The text -/

/-- The `%-ns` conversion. -/
def padRight (n : ℕ) (s : Bytes) : Bytes := s ++ List.replicate (n - s.length) 32

/-- The titles of the columns. -/
def header : Bytes :=
  padRight 8 (ascii "Pid") ++ padRight 8 (ascii "PPid") ++ padRight 8 (ascii "Uid") ++
    padRight 8 (ascii "Gid") ++ padRight 20 (ascii "utime") ++ padRight 20 (ascii "stime") ++
    padRight 20 (ascii "State") ++ padRight 20 (ascii "Name") ++ [10]

/-- The line of 98 dashes. -/
def ruler : Bytes := List.replicate 98 45 ++ [10]

/-- The numeric columns of a row. `%d` prints the ids as signed numbers. -/
def columns (t : Task) : Bytes :=
  padRight 8 (decimal t.pid.toInt) ++ padRight 8 (decimal t.ppid.toInt) ++
    padRight 8 (decimal (toInt t.uid.toNat)) ++ padRight 8 (decimal (toInt t.gid.toNat)) ++
    padRight 20 (natDecimal t.utime.toNat) ++ padRight 20 (natDecimal t.stime.toNat)

def TASK_INTERRUPTIBLE : UInt64 := 0x0001

def TASK_UNINTERRUPTIBLE : UInt64 := 0x0002

def TASK_STOPPED : UInt64 := 0x0100 ||| 0x0004

def EXIT_DEAD : UInt32 := 0x0010

def EXIT_ZOMBIE : UInt32 := 0x0020

def TASK_PARKED : UInt64 := 0x0040

def TASK_IDLE : UInt64 := 0x0002 ||| 0x0400

/-- `task_is_stopped_or_traced`. -/
def taskIsStoppedOrTraced (t : Task) : Bool := t.state &&& (0x0004 ||| 0x0008) ≠ 0

/-- The label of the first test that succeeds. There is no final `else`. -/
def stateLabel (t : Task) : Option Bytes :=
  if t.state = 0 then some (ascii "R (running)")
  else if t.state &&& TASK_INTERRUPTIBLE ≠ 0 then some (ascii "S (sleeping)")
  else if t.state &&& TASK_UNINTERRUPTIBLE ≠ 0 then some (ascii "D (disk sleep)")
  else if t.state &&& TASK_STOPPED ≠ 0 then some (ascii "T (stopped)")
  else if taskIsStoppedOrTraced t then some (ascii "t (tracing stop)")
  else if t.exitState &&& EXIT_DEAD ≠ 0 then some (ascii "X (dead)")
  else if t.exitState &&& EXIT_ZOMBIE ≠ 0 then some (ascii "Z (zombie)")
  else if t.state &&& TASK_PARKED ≠ 0 then some (ascii "P (parked)")
  else if t.state &&& TASK_IDLE ≠ 0 then some (ascii "I (idle)")
  else none

/-- The name column and the end of the row. -/
def nameColumn (t : Task) : Bytes := padRight 20 t.comm.bytes ++ [10]

/-! ## The buffers -/

/-- Why the construction of the text stops. -/
inductive Stop
  | overflow
  | noMemory
deriving DecidableEq

/-- A buffer of `size` bytes on the heap, and the string in it. -/
structure Buffer where
  size : ℕ
  str : Bytes
  fits : str.length < size

/-- `sprintf` into `char buf[512]`. -/
def sprintf (s : Bytes) : Except Stop Bytes := if s.length < 512 then .ok s else .error .overflow

/-- `kmalloc(BUF_SIZE)` and `buffer[0] = '\0'`. `alloc` says which sizes are granted. -/
def kmalloc (alloc : ℕ → Bool) : Except Stop Buffer :=
  if alloc BUF_SIZE then .ok ⟨BUF_SIZE, [], by decide⟩ else .error .noMemory

namespace Buffer

/-- `strcat`. -/
def strcat (b : Buffer) (s : Bytes) : Except Stop Buffer :=
  if h : b.str.length + s.length < b.size then
    .ok ⟨b.size, b.str ++ s, by rwa [List.length_append]⟩
  else .error .overflow

/-- `krealloc(buffer, buf_size*2)`. -/
def krealloc (alloc : ℕ → Bool) (b : Buffer) : Except Stop Buffer :=
  if alloc (b.size * 2) then .ok ⟨b.size * 2, b.str, by have := b.fits; omega⟩ else .error .noMemory

/-- `strcat`, after doubling the buffer if the size lacks. -/
def append (alloc : ℕ → Bool) (b : Buffer) (s : Bytes) : Except Stop Buffer :=
  if s.length < b.size - b.str.length then b.strcat s
  else do
    let b ← b.krealloc alloc
    b.strcat s

end Buffer

/-- The state column in `buf`. If no test succeeds, `buf` still holds the numeric columns. -/
def sprintfState (t : Task) (buf : Bytes) : Except Stop Bytes :=
  match stateLabel t with
  | some label => sprintf (padRight 20 label)
  | none => .ok buf

/-- The row of one process. -/
def oneProcess (t : Task) (b : Buffer) : Except Stop Buffer := do
  let buf ← sprintf (columns t)
  let b ← b.strcat buf
  let buf ← sprintfState t buf
  let b ← b.strcat buf
  let buf ← sprintf (nameColumn t)
  b.strcat buf

/-- One iteration of `for_each_process`. -/
def eachProcess (alloc : ℕ → Bool) (b : Buffer) (t : Task) : Except Stop Buffer := do
  let buf ← sprintf (columns t)
  let b ← b.append alloc buf
  let buf ← sprintfState t buf
  let b ← b.append alloc buf
  let buf ← sprintf (nameColumn t)
  b.append alloc buf

/-- The process that is selected by `cur_proc`. `find_vpid` takes an `int`. -/
def selected (k : Kernel) (curProc : ℤ) : Option Task :=
  if curProc ≤ 0 then none else k.pidTask (toInt curProc)

/-- The rows of the selected process, or of all processes. -/
def appendRows (k : Kernel) (alloc : ℕ → Bool) (curProc : ℤ) (b : Buffer) : Except Stop Buffer :=
  match selected k curProc with
  | some t => oneProcess t b
  | none => k.tasks.foldlM (eachProcess alloc) b

/-- The text that `my_read` builds. -/
def build (k : Kernel) (alloc : ℕ → Bool) (curProc : ℤ) : Except Stop Buffer := do
  let b ← kmalloc alloc
  let buf ← sprintf header
  let b ← b.strcat buf
  let b ← b.strcat ruler
  appendRows k alloc curProc b

/-! ## The file operations -/

/-- The global variables. -/
structure Globals where
  curProc : ℤ
  isProcessed : ℤ

/-- `my_open`. -/
def myOpen (s : Globals) : Globals × ℤ := ({ s with isProcessed := 0 }, 0)

/-- What a read writes to the user's memory, and what it returns. -/
structure Read where
  copied : Bytes
  ret : ℕ
deriving DecidableEq

/-- `my_read`. The length of the user's buffer takes no part in it. -/
def myRead (k : Kernel) (alloc : ℕ → Bool) (_len : ℕ) (s : Globals) : Option (Read × Globals) :=
  if s.isProcessed ≠ 0 then some (⟨[], 0⟩, s)
  else match build k alloc s.curProc with
    | .error .overflow => none
    | .error .noMemory => some (⟨[], 0⟩, s)
    | .ok b =>
      -- the terminator is counted and copied
      let lenWritten := b.str.length + 1
      some (⟨(b.str ++ [0]).take lenWritten, lenWritten⟩,
        { s with isProcessed := s.isProcessed + 1 })

end SchoolOS.ProcInfo
