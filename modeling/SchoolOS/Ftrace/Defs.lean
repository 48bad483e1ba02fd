import SchoolOS.Lib.CInt
import SchoolOS.Lib.CString

/-!
# Tracing the file system calls of a process

Reference: `Assignment2-3/ftracehooking.c`, the variables and `my_ftrace`, and
`Assignment2-3/iotracehooking.c`, the hooks of the five file system calls. Both modules are loaded.

A history is a list of system calls, each made by one process and carried out as a whole. The real
system calls are not modelled: a call comes with the value that the real call returns.
-/

namespace SchoolOS.Ftrace

/-- The variables that `ftracehooking.c` exports. -/
structure Vars where
  curPid : ℤ
  fileName : CharArray 50
  readB : ℤ
  writeB : ℤ
  oCnt : ℤ
  cCnt : ℤ
  rCnt : ℤ
  wCnt : ℤ
  lCnt : ℤ

/-- The variables of a newly loaded module. -/
def Vars.loaded : Vars := ⟨0, .zero 50, 0, 0, 0, 0, 0, 0, 0⟩

/-- The arguments of the three `printk` calls of a report. `comm` is `current->comm`. -/
structure Report where
  comm : Bytes
  fileName : CharArray 50
  readB : ℤ
  writeB : ℤ
  oCnt : ℤ
  cCnt : ℤ
  rCnt : ℤ
  wCnt : ℤ
  lCnt : ℤ
  curPid : ℤ
deriving DecidableEq

/-- The report of a process named `comm`. -/
def Vars.report (s : Vars) (comm : Bytes) : Report :=
  ⟨comm, s.fileName, s.readB, s.writeB, s.oCnt, s.cCnt, s.rCnt, s.wCnt, s.lCnt, s.curPid⟩

/-- What `my_ftrace` prints. -/
inductive Printk
  | report (r : Report)
  | start (curPid : ℤ)
deriving DecidableEq

/-- `my_ftrace`: the variables, what is printed, and the return value. -/
def myFtrace (comm : Bytes) (pid : ℤ) (s : Vars) : Vars × Printk × ℤ :=
  if pid = 0 then (s, .report (s.report comm), 0)
  else
    let s :=
      { s with
        readB := 0, writeB := 0, oCnt := 0, cCnt := 0, rCnt := 0, wCnt := 0, lCnt := 0
        curPid := pid }
    (s, .start s.curPid, s.curPid)

/-- A hook updates the variables only for the traced process. It returns what the real call
returned. -/
def hook (update : Vars → Vars) (pid ret : ℤ) (s : Vars) : Vars × ℤ :=
  (if s.curPid = pid then update s else s, ret)

/-- `ftrace_openat`. `path` holds the 50 bytes that `copy_from_user` copies. -/
def ftraceOpenat (pid : ℤ) (path : CharArray 50) : ℤ → Vars → Vars × ℤ :=
  hook (fun s => { s with oCnt := toInt (s.oCnt + 1), fileName := path }) pid

/-- `ftrace_close`. -/
def ftraceClose (pid : ℤ) : ℤ → Vars → Vars × ℤ :=
  hook (fun s => { s with cCnt := toInt (s.cCnt + 1) }) pid

/-- `ftrace_read`. -/
def ftraceRead (pid readReturn : ℤ) : Vars → Vars × ℤ :=
  hook (fun s => { s with rCnt := toInt (s.rCnt + 1), readB := toInt (s.readB + readReturn) }) pid
    readReturn

/-- `ftrace_write`. -/
def ftraceWrite (pid writeReturn : ℤ) : Vars → Vars × ℤ :=
  hook (fun s => { s with wCnt := toInt (s.wCnt + 1), writeB := toInt (s.writeB + writeReturn) })
    pid writeReturn

/-- `ftrace_lseek`. -/
def ftraceLseek (pid : ℤ) : ℤ → Vars → Vars × ℤ :=
  hook (fun s => { s with lCnt := toInt (s.lCnt + 1) }) pid

/-! ## Histories -/

/-- A system call, with the return value of the real one. -/
inductive Syscall
  | osFtrace (pid : ℤ)
  | openat (path : CharArray 50) (ret : ℤ)
  | close (ret : ℤ)
  | read (ret : ℤ)
  | write (ret : ℤ)
  | lseek (ret : ℤ)

/-- A system call of the process `pid`, whose `comm` is given. -/
structure Call where
  pid : ℤ
  comm : Bytes
  sys : Syscall

/-- The variables after a call, and what it prints. -/
def Call.run (s : Vars) (c : Call) : Vars × Option Printk :=
  match c.sys with
  | .osFtrace pid =>
    let r := myFtrace c.comm pid s
    (r.1, some r.2.1)
  | .openat path ret => ((ftraceOpenat c.pid path ret s).1, none)
  | .close ret => ((ftraceClose c.pid ret s).1, none)
  | .read ret => ((ftraceRead c.pid ret s).1, none)
  | .write ret => ((ftraceWrite c.pid ret s).1, none)
  | .lseek ret => ((ftraceLseek c.pid ret s).1, none)

/-- The variables after a history. -/
def exec (s : Vars) (history : List Call) : Vars := history.foldl (fun s c => (c.run s).1) s

/-- What the last call of a history prints. -/
def printed (history : List Call) (c : Call) : Option Printk := (c.run (exec .loaded history)).2

end SchoolOS.Ftrace
