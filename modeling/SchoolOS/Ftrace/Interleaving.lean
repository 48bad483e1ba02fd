import Mathlib.Logic.Function.Basic
import SchoolOS.Ftrace.Sessions

/-!
# Hooks at the same time

The hooks of `Assignment2-3/iotracehooking.c` and `my_ftrace` of `Assignment2-3/ftracehooking.c` run
in the context of many processes at the same time, and share the variables without a lock. Here
every process is somewhere in its system call. A step is one access to a number, so that `o_cnt++`
takes two, or the whole copy of a path to `file_name`, or all that one `printk` of a report reads.

Only the traced process passes the test of a hook. So no two hooks write at the same time, and a
report of the traced process is the one of a sequence of whole calls, in the order of their tests
(`report_interleaved`). The exception is a call of `os_ftrace(pid)` that overlaps a hook, a report
or another one (`Exclusive`): a hook, for example, then writes back a number of the old session.
-/

namespace SchoolOS.Ftrace

open Function

/-! ## The statements -/

/-- The numbers among the variables. -/
inductive Cell
  | readB
  | writeB
  | oCnt
  | cCnt
  | rCnt
  | wCnt
  | lCnt
deriving DecidableEq

def Vars.get (s : Vars) : Cell → ℤ
  | .readB => s.readB
  | .writeB => s.writeB
  | .oCnt => s.oCnt
  | .cCnt => s.cCnt
  | .rCnt => s.rCnt
  | .wCnt => s.wCnt
  | .lCnt => s.lCnt

def Vars.set (s : Vars) (value : ℤ) : Cell → Vars
  | .readB => { s with readB := value }
  | .writeB => { s with writeB := value }
  | .oCnt => { s with oCnt := value }
  | .cCnt => { s with cCnt := value }
  | .rCnt => { s with rCnt := value }
  | .wCnt => { s with wCnt := value }
  | .lCnt => { s with lCnt := value }

/-- A statement of a hook: `x += d;`, or `copy_from_user` to `file_name`. -/
inductive Stmt
  | add (x : Cell) (d : ℤ)
  | copyName (path : CharArray 50)

def Stmt.exec (s : Vars) : Stmt → Vars
  | .add x d => s.set (toInt (s.get x + d)) x
  | .copyName path => { s with fileName := path }

/-- The statements of a hook for the traced process. -/
def Syscall.body : Syscall → List Stmt
  | .osFtrace _ => []
  | .openat path _ => [.add .oCnt 1, .copyName path]
  | .close _ => [.add .cCnt 1]
  | .read ret => [.add .rCnt 1, .add .readB ret]
  | .write ret => [.add .wCnt 1, .add .writeB ret]
  | .lseek _ => [.add .lCnt 1]

/-- The numbers that `my_ftrace` clears, in its order. -/
def cleared : List Cell := [.readB, .writeB, .oCnt, .cCnt, .rCnt, .wCnt, .lCnt]

/-! ## The processes -/

/-- Where a process is. Everything outside of the hooks and `my_ftrace` is `user`, and a hook of
another process than the traced one is over after its test. -/
inductive Pc
  | user
  /-- Before the first access to the variables. `ftrace_read` and `ftrace_write` make the real call
  first, and their return value is known by then. -/
  | entered (comm : Bytes) (sys : Syscall)
  | hook (todo : List Stmt)
  /-- `x += d;` has read the value of `x`. -/
  | loaded (x : Cell) (value d : ℤ) (todo : List Stmt)
  | clear (comm : Bytes) (pid : ℤ) (todo : List Cell)
  | started
  /-- The first `printk` of a report has read the variables. -/
  | first (comm : Bytes) (file : Vars)
  /-- And the second one. -/
  | second (comm : Bytes) (file counts : Vars)

/-- The variables, and where the process with each `current->pid` is. -/
structure System where
  vars : Vars
  pc : ℤ → Pc

/-- A process goes on. -/
def System.goto (s : System) (p : ℤ) (pc : Pc) : System := { s with pc := update s.pc p pc }

@[simp] theorem System.vars_goto (s : System) (p : ℤ) (pc : Pc) : (s.goto p pc).vars = s.vars := rfl

@[simp] theorem System.pc_goto_self (s : System) (p : ℤ) (pc : Pc) : (s.goto p pc).pc p = pc :=
  update_self _ _ _

theorem System.pc_goto_of_ne (s : System) {p q : ℤ} (pc : Pc) (hq : q ≠ p) :
    (s.goto p pc).pc q = s.pc q :=
  update_of_ne hq _ _

/-- One step of a process. The labels are the call that takes effect with this step, and what is
printed. -/
inductive Step : System → Option Call → Option Printk → System → Prop
  | call {s : System} {p : ℤ} (hpc : s.pc p = .user) (comm : Bytes) (sys : Syscall) :
      Step s none none (s.goto p (.entered comm sys))
  /-- `if (cur_pid == current->pid)` -/
  | test {s : System} {p : ℤ} {comm : Bytes} {sys : Syscall} (hpc : s.pc p = .entered comm sys)
      (hsys : ∀ pid, sys ≠ .osFtrace pid) :
      Step s (some ⟨p, comm, sys⟩) none
        (s.goto p (if s.vars.curPid = p then .hook sys.body else .user))
  | load {s : System} {p : ℤ} {x : Cell} {d : ℤ} {todo : List Stmt}
      (hpc : s.pc p = .hook (.add x d :: todo)) :
      Step s none none (s.goto p (.loaded x (s.vars.get x) d todo))
  | store {s : System} {p : ℤ} {x : Cell} {value d : ℤ} {todo : List Stmt}
      (hpc : s.pc p = .loaded x value d todo) :
      Step s none none ⟨s.vars.set (toInt (value + d)) x, update s.pc p (.hook todo)⟩
  | copyName {s : System} {p : ℤ} {path : CharArray 50} {todo : List Stmt}
      (hpc : s.pc p = .hook (.copyName path :: todo)) :
      Step s none none ⟨{ s.vars with fileName := path }, update s.pc p (.hook todo)⟩
  | leave {s : System} {p : ℤ} (hpc : s.pc p = .hook []) : Step s none none (s.goto p .user)
  /-- `my_ftrace` of another pid than 0. -/
  | start {s : System} {p : ℤ} {comm : Bytes} {pid : ℤ}
      (hpc : s.pc p = .entered comm (.osFtrace pid))
      (hpid : pid ≠ 0) : Step s none none (s.goto p (.clear comm pid cleared))
  | clear {s : System} {p : ℤ} {comm : Bytes} {pid : ℤ} {x : Cell} {todo : List Cell}
      (hpc : s.pc p = .clear comm pid (x :: todo)) :
      Step s none none ⟨s.vars.set 0 x, update s.pc p (.clear comm pid todo)⟩
  /-- `cur_pid = (pid_t)regs->di;` -/
  | setPid {s : System} {p : ℤ} {comm : Bytes} {pid : ℤ} (hpc : s.pc p = .clear comm pid []) :
      Step s (some ⟨p, comm, .osFtrace pid⟩) none
        ⟨{ s.vars with curPid := pid }, update s.pc p .started⟩
  | printStart {s : System} {p : ℤ} (hpc : s.pc p = .started) :
      Step s none (some (.start s.vars.curPid)) (s.goto p .user)
  /-- `my_ftrace` of 0. -/
  | printFile {s : System} {p : ℤ} {comm : Bytes} (hpc : s.pc p = .entered comm (.osFtrace 0)) :
      Step s none none (s.goto p (.first comm s.vars))
  | printCounts {s : System} {p : ℤ} {comm : Bytes} {file : Vars}
      (hpc : s.pc p = .first comm file) :
      Step s none none (s.goto p (.second comm file s.vars))
  | printEnd {s : System} {p : ℤ} {comm : Bytes} {file counts : Vars}
      (hpc : s.pc p = .second comm file counts) :
      Step s (some ⟨p, comm, .osFtrace 0⟩)
        (some (.report ⟨comm, file.fileName, file.readB, file.writeB, counts.oCnt, counts.cCnt,
          counts.rCnt, counts.wCnt, counts.lCnt, s.vars.curPid⟩))
        (s.goto p .user)

/-- The system after both modules are loaded. -/
def System.loaded : System := ⟨.loaded, fun _ => .user⟩

/-- The states of the runs through states with `ok`, each with the calls in the order in which they
took effect. -/
inductive Reaches (ok : System → Prop) : List Call → System → Prop
  | loaded : Reaches ok [] .loaded
  | step {history : List Call} {s s' : System} {call : Option Call} {printk : Option Printk} :
      Reaches ok history s → Step s call printk s' → ok s' → Reaches ok (history ++ call.toList) s'

/-- The process is in the middle of writing to the variables. -/
def Pc.writes : Pc → Bool
  | .hook _ => true
  | .loaded _ _ _ _ => true
  | .clear _ _ _ => true
  | _ => false

/-- The process is in the middle of a report. -/
def Pc.prints : Pc → Bool
  | .first _ _ => true
  | .second _ _ _ => true
  | _ => false

def Pc.clears : Pc → Bool
  | .clear _ _ _ => true
  | _ => false

/-- While a process executes `os_ftrace(pid)`, no other one is in the middle of a hook for the
traced process, of a report or of another `os_ftrace(pid)`. -/
def Exclusive (s : System) : Prop :=
  ∀ p q, (s.pc p).clears = true → (s.pc q).writes = true ∨ (s.pc q).prints = true → p = q

theorem Exclusive.other {s : System} (h : Exclusive s) {p q : ℤ} (hp : (s.pc p).clears = true)
    (hq : q ≠ p) :
    (s.pc q).writes = false ∧ (s.pc q).prints = false := by
  constructor
  · by_contra hne
    exact hq (h p q hp (Or.inl (by simpa using hne))).symm
  · by_contra hne
    exact hq (h p q hp (Or.inr (by simpa using hne))).symm

/-! ## The invariant -/

/-- The state of one process, where `spec` are the variables after the calls that took effect. -/
def Fits (spec vars : Vars) (p : ℤ) : Pc → Prop
  | .hook todo => vars.curPid = p ∧ todo.foldl Stmt.exec vars = spec
  | .loaded x value d todo =>
    vars.curPid = p ∧ value = vars.get x ∧ (Stmt.add x d :: todo).foldl Stmt.exec vars = spec
  | .clear _ pid todo =>
    pid ≠ 0 ∧ vars.curPid = spec.curPid ∧ vars.fileName = spec.fileName ∧ ∀ x ∉ todo, vars.get x = 0
  | .first _ file => vars.curPid = p → file = vars
  | .second _ file counts => vars.curPid = p → file = vars ∧ counts = vars
  | _ => True

structure Inv (spec : Vars) (s : System) : Prop where
  unique : ∀ {p q}, (s.pc p).writes = true → (s.pc q).writes = true → p = q
  idle : (∀ p, (s.pc p).writes = false) → s.vars = spec
  fits : ∀ p, Fits spec s.vars p (s.pc p)

/-! ## The variables -/

@[simp] theorem Vars.curPid_set (s : Vars) (value : ℤ) (x : Cell) :
    (s.set value x).curPid = s.curPid := by
  cases x <;> rfl

@[simp] theorem Vars.fileName_set (s : Vars) (value : ℤ) (x : Cell) :
    (s.set value x).fileName = s.fileName := by
  cases x <;> rfl

theorem Vars.get_set (s : Vars) (value : ℤ) (x y : Cell) :
    (s.set value x).get y = if y = x then value else s.get y := by
  cases x <;> cases y <;> rfl

theorem curPid_foldl_exec (todo : List Stmt) (s : Vars) :
    (todo.foldl Stmt.exec s).curPid = s.curPid := by
  induction todo generalizing s with
  | nil => rfl
  | cons stmt todo ih =>
    rw [List.foldl_cons, ih]
    cases stmt with
    | add x d => exact Vars.curPid_set _ _ _
    | copyName path => rfl

/-- The statements of a hook do the same as the whole hook. -/
theorem run_eq_body {c : Call} {s : Vars} (hp : s.curPid = c.pid)
    (hc : ∀ pid, c.sys ≠ .osFtrace pid) :
    (c.run s).1 = c.sys.body.foldl Stmt.exec s := by
  cases hsys : c.sys with
  | osFtrace pid => exact absurd hsys (hc pid)
  | openat path ret =>
    simp [Call.run, hsys, ftraceOpenat, hook, hp, Syscall.body, Stmt.exec, Vars.set, Vars.get]
  | close ret =>
    simp [Call.run, hsys, ftraceClose, hook, hp, Syscall.body, Stmt.exec, Vars.set, Vars.get]
  | read ret =>
    simp [Call.run, hsys, ftraceRead, hook, hp, Syscall.body, Stmt.exec, Vars.set, Vars.get]
  | write ret =>
    simp [Call.run, hsys, ftraceWrite, hook, hp, Syscall.body, Stmt.exec, Vars.set, Vars.get]
  | lseek ret =>
    simp [Call.run, hsys, ftraceLseek, hook, hp, Syscall.body, Stmt.exec, Vars.set, Vars.get]

/-- When every number is cleared, the new `cur_pid` completes `my_ftrace`. -/
theorem run_osFtrace_eq {c : Call} {spec vars : Vars} {pid : ℤ} (hc : c.sys = .osFtrace pid)
    (hpid : pid ≠ 0) (hname : vars.fileName = spec.fileName) (hzero : ∀ x, vars.get x = 0) :
    (c.run spec).1 = { vars with curPid := pid } := by
  have hreadB : vars.readB = 0 := hzero .readB
  have hwriteB : vars.writeB = 0 := hzero .writeB
  have hoCnt : vars.oCnt = 0 := hzero .oCnt
  have hcCnt : vars.cCnt = 0 := hzero .cCnt
  have hrCnt : vars.rCnt = 0 := hzero .rCnt
  have hwCnt : vars.wCnt = 0 := hzero .wCnt
  have hlCnt : vars.lCnt = 0 := hzero .lCnt
  simp [Call.run, hc, myFtrace, hpid, hname, hreadB, hwriteB, hoCnt, hcCnt, hrCnt, hwCnt, hlCnt]

/-! ## The steps -/

namespace Inv

variable {spec : Vars} {s : System} {p : ℤ} {pc' : Pc}

/-- `cur_pid` is written last. -/
theorem curPid_eq (h : Inv spec s) : s.vars.curPid = spec.curPid := by
  by_cases hidle : ∀ p, (s.pc p).writes = false
  · rw [h.idle hidle]
  · push Not at hidle
    obtain ⟨p, hp⟩ := hidle
    have hfits := h.fits p
    rcases hpc : s.pc p with _ | _ | todo | ⟨x, value, d, todo⟩ | ⟨comm, pid, todo⟩ | _ | _ | _
    all_goals rw [hpc] at hp hfits
    case hook => rw [← hfits.2, curPid_foldl_exec]
    case loaded => rw [← hfits.2.2, curPid_foldl_exec]
    case clear => exact hfits.2.1
    all_goals exact absurd rfl hp

/-- A process that writes nothing goes on. -/
theorem quiet (h : Inv spec s) (hw : (s.pc p).writes = false) (hw' : pc'.writes = false)
    (hfits : Fits spec s.vars p pc') : Inv spec (s.goto p pc') := by
  have hwrites : ∀ q, ((s.goto p pc').pc q).writes = (s.pc q).writes := by
    intro q
    by_cases hq : q = p
    · subst hq
      rw [System.pc_goto_self, hw, hw']
    · rw [System.pc_goto_of_ne _ _ hq]
  refine ⟨fun {q r} hq hr => ?_, fun hidle => ?_, fun q => ?_⟩
  · rw [hwrites] at hq hr
    exact h.unique hq hr
  · exact h.idle fun q => (hwrites q).symm.trans (hidle q)
  · by_cases hq : q = p
    · subst hq
      rw [System.pc_goto_self]
      exact hfits
    · rw [System.pc_goto_of_ne _ _ hq]
      exact h.fits q

/-- The only process that may write goes on. -/
theorem writer {vars' : Vars} (hother : ∀ q ≠ p, (s.pc q).writes = false)
    (hprint : ∀ q ≠ p, vars'.curPid = q → (s.pc q).prints = false)
    (hdone : pc'.writes = false → vars' = spec) (hfits : Fits spec vars' p pc') :
    Inv spec ⟨vars', update s.pc p pc'⟩ := by
  have hself : ∀ q, (update s.pc p pc' q).writes = true → q = p := by
    intro q hq
    by_contra hne
    rw [update_of_ne hne, hother q hne] at hq
    exact absurd hq (by simp)
  refine ⟨fun {q r} hq hr => (hself q hq).trans (hself r hr).symm, fun hidle => ?_, fun q => ?_⟩
  · exact hdone (by simpa using hidle p)
  · by_cases hq : q = p
    · subst hq
      simp only [update_self]
      exact hfits
    · have hq' := hother q hq
      have hprints := hprint q hq
      simp only [update_of_ne hq]
      rcases hpc : s.pc q with _ | _ | _ | _ | _ | _ | ⟨comm, file⟩ | ⟨comm, file, counts⟩
      all_goals rw [hpc] at hq' hprints
      case first => exact fun hcur => absurd (hprints hcur) (by simp [Pc.prints])
      case second => exact fun hcur => absurd (hprints hcur) (by simp [Pc.prints])
      case hook => exact absurd hq' (by simp [Pc.writes])
      case loaded => exact absurd hq' (by simp [Pc.writes])
      case clear => exact absurd hq' (by simp [Pc.writes])
      all_goals trivial

/-- Who writes without clearing is the traced process. -/
theorem curPid_of_writes (h : Inv spec s) (hp : (s.pc p).writes = true)
    (hclears : (s.pc p).clears = false) :
    s.vars.curPid = p := by
  have hfits := h.fits p
  rcases hpc : s.pc p with _ | _ | _ | _ | _ | _ | _ | _
  all_goals rw [hpc] at hp hclears hfits
  case hook => exact hfits.1
  case loaded => exact hfits.1
  case clear => exact absurd hclears (by simp [Pc.clears])
  all_goals exact absurd hp (by simp [Pc.writes])

/-- The variables of the whole calls after a step. -/
def advance (spec : Vars) : Option Call → Vars
  | none => spec
  | some c => (c.run spec).1

/-- While a process writes, the others do not. -/
theorem writes_eq_false (h : Inv spec s) (hp : (s.pc p).writes = true) (q : ℤ) (hq : q ≠ p) :
    (s.pc q).writes = false := by
  by_contra hne
  exact hq (h.unique (by simpa using hne) hp)

/-- The process that writes is the traced one, and stays in its hook. -/
theorem hook_step {vars' : Vars} (h : Inv spec s) (hp : (s.pc p).writes = true)
    (hcur : vars'.curPid = p) (hw : pc'.writes = true) (hfits : Fits spec vars' p pc') :
    Inv spec ⟨vars', update s.pc p pc'⟩ :=
  writer (h.writes_eq_false hp) (fun _ hq hcur' => absurd (hcur'.symm.trans hcur) hq)
    (fun hw' => absurd (hw.symm.trans hw') (by simp)) hfits

/-- The process that executes `os_ftrace(pid)` goes on. -/
theorem clear_step {vars' : Vars}
    (hother : ∀ q ≠ p, (s.pc q).writes = false ∧ (s.pc q).prints = false)
    (hdone : pc'.writes = false → vars' = spec) (hfits : Fits spec vars' p pc') :
    Inv spec ⟨vars', update s.pc p pc'⟩ :=
  writer (fun q hq => (hother q hq).1) (fun q hq _ => (hother q hq).2) hdone hfits

/-- The variables, when `p` does not write and no other process does. -/
theorem vars_eq (h : Inv spec s) (hp : (s.pc p).writes = false)
    (hother : ∀ q ≠ p, (s.pc q).writes = false) : s.vars = spec := by
  refine h.idle fun q => ?_
  by_cases hq : q = p
  · rw [hq, hp]
  · exact hother q hq

/-- The test of a hook. The call takes effect here. -/
theorem test {comm : Bytes} {sys : Syscall} (h : Inv spec s) (hpc : s.pc p = .entered comm sys)
    (hsys : ∀ pid, sys ≠ .osFtrace pid)
    (hex' : Exclusive (s.goto p (if s.vars.curPid = p then .hook sys.body else .user))) :
    Inv (advance spec (some ⟨p, comm, sys⟩))
      (s.goto p (if s.vars.curPid = p then .hook sys.body else .user)) := by
  have hw : (s.pc p).writes = false := by rw [hpc]; rfl
  have hcur := h.curPid_eq
  by_cases hp : s.vars.curPid = p
  · rw [if_pos hp] at hex' ⊢
    have hother : ∀ q ≠ p, (s.pc q).writes = false := by
      intro q hq
      by_contra hne
      have hwrites : (s.pc q).writes = true := by simpa using hne
      have hclears : (s.pc q).clears = true := by
        by_contra hclears
        exact hq ((h.curPid_of_writes hwrites (by simpa using hclears)).symm.trans hp)
      -- the hook would begin while `q` executes `os_ftrace(pid)`
      have hself :=
        (hex'.other (p := q) (q := p) (by rwa [System.pc_goto_of_ne _ _ hq]) hq.symm).1
      rw [System.pc_goto_self] at hself
      exact absurd hself (by simp [Pc.writes])
    refine writer hother (fun q hq hcur => absurd (hcur.symm.trans hp) hq)
      (fun hw => absurd hw (by simp [Pc.writes])) ⟨hp, ?_⟩
    rw [h.vars_eq hw hother]
    exact (run_eq_body (c := ⟨p, comm, sys⟩) (hcur.symm.trans hp) hsys).symm
  · have hrun : advance spec (some ⟨p, comm, sys⟩) = spec :=
      run_of_ne (by rw [← hcur]; exact Ne.symm hp) fun pid hpid => absurd hpid (hsys pid)
    rw [if_neg hp, hrun]
    exact h.quiet hw rfl trivial

/-- `x += d;` reads `x`. -/
theorem load {x : Cell} {d : ℤ} {todo : List Stmt} (h : Inv spec s)
    (hpc : s.pc p = .hook (.add x d :: todo)) :
    Inv spec (s.goto p (.loaded x (s.vars.get x) d todo)) := by
  have hfits := h.fits p
  rw [hpc] at hfits
  exact h.hook_step (by rw [hpc]; rfl) hfits.1 rfl ⟨hfits.1, rfl, hfits.2⟩

/-- `x += d;` writes `x`. -/
theorem store {x : Cell} {value d : ℤ} {todo : List Stmt} (h : Inv spec s)
    (hpc : s.pc p = .loaded x value d todo) :
    Inv spec ⟨s.vars.set (toInt (value + d)) x, update s.pc p (.hook todo)⟩ := by
  have hfits := h.fits p
  rw [hpc] at hfits
  have hcur := (Vars.curPid_set s.vars (toInt (value + d)) x).trans hfits.1
  refine h.hook_step (by rw [hpc]; rfl) hcur rfl ⟨hcur, ?_⟩
  -- no other process has written `x` since it was read
  rw [hfits.2.1]
  exact hfits.2.2

/-- `copy_from_user` to `file_name`. -/
theorem copyName {path : CharArray 50} {todo : List Stmt} (h : Inv spec s)
    (hpc : s.pc p = .hook (.copyName path :: todo)) :
    Inv spec ⟨{ s.vars with fileName := path }, update s.pc p (.hook todo)⟩ := by
  have hfits := h.fits p
  rw [hpc] at hfits
  exact h.hook_step (by rw [hpc]; rfl) hfits.1 rfl hfits

/-- The end of a hook. -/
theorem leave (h : Inv spec s) (hpc : s.pc p = .hook []) : Inv spec (s.goto p .user) := by
  have hfits := h.fits p
  rw [hpc] at hfits
  exact writer (h.writes_eq_false (by rw [hpc]; rfl))
    (fun q hq hcur => absurd (hcur.symm.trans hfits.1) hq) (fun _ => hfits.2) trivial

/-- `my_ftrace` of another pid than 0 begins. -/
theorem start {comm : Bytes} {pid : ℤ} (h : Inv spec s)
    (hpc : s.pc p = .entered comm (.osFtrace pid))
    (hpid : pid ≠ 0) (hex' : Exclusive (s.goto p (.clear comm pid cleared))) :
    Inv spec (s.goto p (.clear comm pid cleared)) := by
  have hother : ∀ q ≠ p, (s.pc q).writes = false ∧ (s.pc q).prints = false := by
    intro q hq
    have hq' := hex'.other (p := p) (by rw [System.pc_goto_self]; rfl) hq
    rwa [System.pc_goto_of_ne _ _ hq] at hq'
  have hidle := h.vars_eq (by rw [hpc]; rfl) fun q hq => (hother q hq).1
  refine clear_step hother (fun hw => absurd hw (by simp [Pc.writes]))
    ⟨hpid, by rw [hidle], by rw [hidle], fun x hx => ?_⟩
  exact absurd (by cases x <;> simp [cleared]) hx

/-- `my_ftrace` clears a number. -/
theorem clear {comm : Bytes} {pid : ℤ} {x : Cell} {todo : List Cell} (h : Inv spec s)
    (hex : Exclusive s) (hpc : s.pc p = .clear comm pid (x :: todo)) :
    Inv spec ⟨s.vars.set 0 x, update s.pc p (.clear comm pid todo)⟩ := by
  have hfits := h.fits p
  rw [hpc] at hfits
  obtain ⟨hpid, hcur, hname, hzero⟩ := hfits
  have hother := fun q hq => hex.other (p := p) (q := q) (by rw [hpc]; rfl) hq
  refine clear_step hother (fun hw => absurd hw (by simp [Pc.writes]))
    ⟨hpid, ?_, ?_, fun y hy => ?_⟩
  · rw [Vars.curPid_set]
    exact hcur
  · rw [Vars.fileName_set]
    exact hname
  · rw [Vars.get_set]
    split
    · rfl
    · exact hzero y (by simp_all)

/-- `my_ftrace` writes `cur_pid`. The call takes effect here. -/
theorem setPid {comm : Bytes} {pid : ℤ} (h : Inv spec s) (hex : Exclusive s)
    (hpc : s.pc p = .clear comm pid []) :
    Inv (advance spec (some ⟨p, comm, .osFtrace pid⟩))
      ⟨{ s.vars with curPid := pid }, update s.pc p .started⟩ := by
  have hfits := h.fits p
  rw [hpc] at hfits
  obtain ⟨hpid, -, hname, hzero⟩ := hfits
  have hother := fun q hq => hex.other (p := p) (q := q) (by rw [hpc]; rfl) hq
  exact clear_step hother
    (fun _ => (run_osFtrace_eq rfl hpid hname fun x => hzero x List.not_mem_nil).symm) trivial

/-- The second `printk` of a report. -/
theorem printCounts {comm : Bytes} {file : Vars} (h : Inv spec s)
    (hpc : s.pc p = .first comm file) :
    Inv spec (s.goto p (.second comm file s.vars)) := by
  have hfits := h.fits p
  rw [hpc] at hfits
  exact h.quiet (by rw [hpc]; rfl) rfl fun hcur => ⟨hfits hcur, rfl⟩

/-- One step of the system. -/
theorem step {s' : System} {call : Option Call} {printk : Option Printk} (h : Inv spec s)
    (hex : Exclusive s) (hex' : Exclusive s') (hstep : Step s call printk s') :
    Inv (advance spec call) s' := by
  cases hstep with
  | call hpc => exact h.quiet (by rw [hpc]; rfl) rfl trivial
  | test hpc hsys => exact h.test hpc hsys hex'
  | load hpc => exact h.load hpc
  | store hpc => exact h.store hpc
  | copyName hpc => exact h.copyName hpc
  | leave hpc => exact h.leave hpc
  | start hpc hpid => exact h.start hpc hpid hex'
  | clear hpc => exact h.clear hex hpc
  | setPid hpc => exact h.setPid hex hpc
  | printStart hpc => exact h.quiet (by rw [hpc]; rfl) rfl trivial
  | printFile hpc => exact h.quiet (by rw [hpc]; rfl) rfl fun _ => rfl
  | printCounts hpc => exact h.printCounts hpc
  | printEnd hpc => exact h.quiet (by rw [hpc]; rfl) rfl trivial

end Inv

theorem inv_loaded : Inv .loaded .loaded where
  unique hp := absurd hp (by simp [System.loaded, Pc.writes])
  idle _ := rfl
  fits _ := trivial

theorem exclusive_loaded : Exclusive .loaded := by
  intro p q hp
  exact absurd hp (by simp [System.loaded, Pc.clears])

theorem Reaches.inv {history : List Call} {s : System} (h : Reaches Exclusive history s) :
    Inv (exec .loaded history) s ∧ Exclusive s := by
  induction h with
  | loaded => exact ⟨inv_loaded, exclusive_loaded⟩
  | @step history s s' call printk _ hstep hex' ih =>
    refine ⟨?_, hex'⟩
    have hexec :
        exec .loaded (history ++ call.toList) = Inv.advance (exec .loaded history) call := by
      rw [exec_append]
      cases call <;> rfl
    rw [hexec]
    exact ih.1.step ih.2 hex' hstep

/-- The variables that a report shows. -/
def Report.vars (r : Report) : Vars :=
  ⟨r.curPid, r.fileName, r.readB, r.writeB, r.oCnt, r.cCnt, r.rCnt, r.wCnt, r.lCnt⟩

/-- However the steps of the processes are interleaved: as long as no `os_ftrace(pid)` overlaps a
hook of the traced process, a report or another `os_ftrace(pid)`, the report of the traced process
is the one that whole calls would give, one after the other. No call of the session is lost or
counted twice. -/
theorem report_interleaved {history : List Call} {s s' : System} (h : Reaches Exclusive history s)
    {c : Call} {r : Report} (hstep : Step s (some c) (some (.report r)) s')
    (hp : s.vars.curPid = c.pid) :
    printed history c = some (.report r) ∧
      ∀ session, LastStart history c.pid session → Counts c.pid session r.vars := by
  cases hstep with
  | @printEnd p comm file counts hpc =>
    obtain ⟨hinv, hex⟩ := h.inv
    have hfits := hinv.fits p
    rw [hpc] at hfits
    obtain ⟨rfl, rfl⟩ := hfits hp
    -- the traced process is in no hook, and nobody starts a session during the report
    have hidle : s.vars = exec .loaded history := by
      refine hinv.idle fun q => ?_
      by_contra hne
      have hwrites : (s.pc q).writes = true := by simpa using hne
      have hq : p ≠ q := by
        rintro rfl
        rw [hpc] at hwrites
        exact absurd hwrites (by simp [Pc.writes])
      have hclears : (s.pc q).clears = true := by
        by_contra hclears
        exact hq (hp.symm.trans (hinv.curPid_of_writes hwrites (by simpa using hclears)))
      have hprints := (hex.other hclears hq).2
      rw [hpc] at hprints
      exact absurd hprints (by simp [Pc.prints])
    rw [hidle]
    exact ⟨rfl, fun session hsession => hsession.counts .loaded⟩

theorem pc_update (vars : Vars) (others : ℤ → Pc) (p : ℤ) (pc : Pc) :
    (System.mk vars (update others p pc)).pc p = pc := update_self _ _ _

/-- No process is in the middle of a hook for the traced process, of a report or of
`os_ftrace(pid)`. -/
def Outside (pc : ℤ → Pc) : Prop := ∀ q, (pc q).writes = false ∧ (pc q).prints = false

theorem Outside.update {others : ℤ → Pc} (h : Outside others) {q : ℤ} {pc : Pc}
    (hpc : pc.writes = false ∧ pc.prints = false) : Outside (update others q pc) := by
  intro r
  by_cases hr : r = q
  · rw [hr, update_self]
    exact hpc
  · rw [update_of_ne hr]
    exact h r

/-- If only `p` may be in the middle of something, nothing overlaps. -/
theorem Outside.exclusive {others : ℤ → Pc} (h : Outside others) (p : ℤ) (vars : Vars) (pc : Pc) :
    Exclusive ⟨vars, Function.update others p pc⟩ := by
  have hself : ∀ q, (Function.update others p pc q).writes = true ∨
      (Function.update others p pc q).prints = true → q = p := by
    intro q hq
    by_contra hne
    rw [update_of_ne hne, (h q).1, (h q).2] at hq
    simp at hq
  have hclears : ∀ pc : Pc, pc.clears = true → pc.writes = true := by
    rintro (_ | _ | _ | _ | _ | _ | _ | _) hpc <;>
      first | rfl | exact absurd hpc (by simp [Pc.clears])
  intro q r hq hr
  exact (hself q (Or.inl (hclears _ hq))).trans (hself r hr).symm

section Outside

variable {others : ℤ → Pc} {history : List Call} {p : ℤ} {vars vars' : Vars} {pc pc' : Pc}
  {call : Option Call} {printk : Option Printk}

/-- A step of `p`. -/
theorem Reaches.goOn (h : Reaches Exclusive history ⟨vars, update others p pc⟩)
    (hothers : Outside others)
    (hstep : Step ⟨vars, update others p pc⟩ call printk
      ⟨vars', update (update others p pc) p pc'⟩) :
    Reaches Exclusive (history ++ call.toList) ⟨vars', update others p pc'⟩ := by
  rw [update_idem] at hstep
  exact h.step hstep (hothers.exclusive p vars' pc')

/-- A step of another process. -/
theorem Reaches.aside {q : ℤ} (h : Reaches Exclusive history ⟨vars, update others p pc⟩)
    (hothers : Outside (update others q pc')) (hq : q ≠ p)
    (hstep : Step ⟨vars, update others p pc⟩ call printk
      ⟨vars, update (update others p pc) q pc'⟩) :
    Reaches Exclusive (history ++ call.toList) ⟨vars, update (update others q pc') p pc⟩ := by
  rw [update_comm hq.symm] at hstep
  exact h.step hstep (hothers.exclusive p vars pc)

/-- The numbers are cleared one after the other. -/
theorem Reaches.clearAll {comm : Bytes} {pid : ℤ} (todo : List Cell) (hothers : Outside others)
    (h : Reaches Exclusive history ⟨vars, update others p (.clear comm pid todo)⟩) :
    Reaches Exclusive history
      ⟨todo.foldl (fun vars x => vars.set 0 x) vars, update others p (.clear comm pid [])⟩ := by
  induction todo generalizing vars with
  | nil => exact h
  | cons x todo ih =>
    have hstep := h.goOn hothers (.clear (pc_update _ _ _ _))
    rw [Option.toList_none, List.append_nil] at hstep
    exact ih hstep

end Outside

/-- The process 7 traces itself, and closes a file at the same time as the process 9. -/
def closeHistory : List Call :=
  [⟨7, ascii "app", .osFtrace 7⟩, ⟨7, ascii "app", .close 0⟩, ⟨9, ascii "sh", .close 0⟩]

theorem lastStart_closeHistory : LastStart closeHistory 7 (closeHistory.drop 1) :=
  ⟨[], _, rfl, rfl, by decide, by simp [closeHistory]⟩

/-- The process 9 makes its call between the two accesses of the process 7 to `c_cnt`. -/
theorem report_interleaved_close :
    ∃ s s' r, Reaches Exclusive closeHistory s ∧
      Step s (some ⟨7, ascii "app", .osFtrace 0⟩) (some (.report r)) s' ∧ r.cCnt = 1 ∧
      printed closeHistory ⟨7, ascii "app", .osFtrace 0⟩ = some (.report r) ∧
      Counts 7 (closeHistory.drop 1) r.vars := by
  have huser : Outside fun _ : ℤ => Pc.user := fun _ => ⟨rfl, rfl⟩
  have hentered : Outside (update (fun _ : ℤ => Pc.user) 9 (.entered (ascii "sh") (.close 0))) :=
    huser.update ⟨rfl, rfl⟩
  have hleft : Outside (update (update (fun _ : ℤ => Pc.user) 9 (.entered (ascii "sh") (.close 0)))
      9 .user) := hentered.update ⟨rfl, rfl⟩
  have hloaded : Reaches Exclusive [] ⟨.loaded, update (fun _ : ℤ => Pc.user) 7 .user⟩ := by
    rw [update_eq_self 7 fun _ : ℤ => Pc.user]
    exact .loaded
  -- `os_ftrace(7)` by the process 7
  have hcall := hloaded.goOn huser (.call (pc_update _ _ _ _) (ascii "app") (.osFtrace 7))
  have hclear := (hcall.goOn huser (.start (pc_update _ _ _ _) (by decide))).clearAll _ huser
  have hpid := hclear.goOn huser (.setPid (pc_update _ _ _ _))
  have hstarted := hpid.goOn huser (.printStart (pc_update _ _ _ _))
  -- its `close`, up to the access that reads `c_cnt`
  have hcall := hstarted.goOn huser (.call (pc_update _ _ _ _) (ascii "app") (.close 0))
  have hhook := hcall.goOn huser (.test (pc_update _ _ _ _) (by simp))
  have hread := hhook.goOn huser (.load (pc_update _ _ _ _))
  -- the `close` of the process 9
  have hcall := hread.aside hentered (by decide) (.call rfl (ascii "sh") (.close 0))
  have htest := hcall.aside hleft (by decide) (.test rfl (by simp))
  -- the rest of the first `close`, and the report
  have hstored := htest.goOn hleft (.store (pc_update _ _ _ _))
  have hclosed := hstored.goOn hleft (.leave (pc_update _ _ _ _))
  have hcall := hclosed.goOn hleft (.call (pc_update _ _ _ _) (ascii "app") (.osFtrace 0))
  have hfile := hcall.goOn hleft (.printFile (pc_update _ _ _ _))
  have hreport := hfile.goOn hleft (.printCounts (pc_update _ _ _ _))
  obtain ⟨hprinted, hcounts⟩ := report_interleaved hreport (.printEnd (pc_update _ _ _ _)) rfl
  exact ⟨_, _, _, hreport, .printEnd (pc_update _ _ _ _), by decide, hprinted,
    hcounts _ lastStart_closeHistory⟩

end SchoolOS.Ftrace
