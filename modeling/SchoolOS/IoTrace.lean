import Mathlib.Data.List.Infix
import Mathlib.Logic.Function.Basic
import SchoolOS.Lib.Simulation

/-!
# System calls while the hooks come and go

Reference: `hooking_init`, `hooking_exit` and the hooks of `Assignment2-3/iotracehooking.c`.

The module replaces five entries of the system call table, one after the other, while all processes
go on making system calls. A step is one statement of the module or one step of a thread: the kernel
reads the table, a hook is entered, it calls the function that the module has saved, and so on.

`hooking_exit` does not wait for the hooks that are still running. If the kernel frees the module
only when no thread is in a hook, a thread that makes system calls cannot tell whether the module is
loaded, unloaded or in between (`hooks_transparent`).
-/

namespace SchoolOS.IoTrace

open Function

/-! ## The module -/

/-- The system calls that are hooked. -/
inductive Sys
  | openat
  | close
  | read
  | write
  | lseek
deriving DecidableEq

/-- A function: the kernel's own, or the hook of the module. -/
inductive Fn
  | original (c : Sys)
  | hook (c : Sys)
deriving DecidableEq

/-- The five entries of `syscall_table`, the permission of its page, and the variables `real_openat`
to `real_lseek` of the module. -/
structure Kernel where
  table : Sys → Option Fn
  writable : Bool
  real : Sys → Option Fn

/-- The statements of `hooking_init` and `hooking_exit`. -/
inductive Stmt
  | makeRw
  | save (c : Sys)
  | hook (c : Sys)
  | restore (c : Sys)
  | makeRo
deriving DecidableEq

/-- A write to the table faults while its page is read-only. -/
def Stmt.exec (k : Kernel) : Stmt → Option Kernel
  | .makeRw => some { k with writable := true }
  | .save c => some { k with real := update k.real c (k.table c) }
  | .hook c =>
    if k.writable then some { k with table := update k.table c (some (.hook c)) } else none
  | .restore c => if k.writable then some { k with table := update k.table c (k.real c) } else none
  | .makeRo => some { k with writable := false }

def hookingInit : List Stmt :=
  [.makeRw, .save .openat, .hook .openat, .save .close, .hook .close, .save .read, .hook .read,
    .save .write, .hook .write, .save .lseek, .hook .lseek, .makeRo]

def hookingExit : List Stmt :=
  [.makeRw, .restore .openat, .restore .close, .restore .read, .restore .write, .restore .lseek,
    .makeRo]

/-- Where the module is. -/
inductive Phase
  | unloaded
  | init (todo : List Stmt)
  | loaded
  | exit (todo : List Stmt)

/-! ## The threads -/

/-- Where a thread is in a system call. `frames` are the hooks that it returns to. -/
inductive Pc (Regs : Type)
  | user
  | dispatched (c : Sys) (regs : Regs) (fn : Fn)
  | hook (c : Sys) (regs : Regs) (frames : List Sys)
  | original (c : Sys) (regs : Regs) (frames : List Sys)
  | returning (c : Sys) (ret : ℤ) (frames : List Sys)

/-- What a thread does: it makes a system call, the kernel's own function runs, the call returns. -/
inductive Event (Regs : Type)
  | call (p : ℕ) (c : Sys) (regs : Regs)
  | run (p : ℕ) (c : Sys) (regs : Regs) (ret : ℤ)
  | ret (p : ℕ) (c : Sys) (ret : ℤ)

structure System (Regs : Type) where
  kernel : Kernel
  phase : Phase
  pc : ℕ → Pc Regs

variable {Regs : Type}

def System.goto (s : System Regs) (p : ℕ) (pc : Pc Regs) : System Regs :=
  { s with pc := update s.pc p pc }

/-- Before the module is loaded for the first time. -/
def System.start : System Regs :=
  ⟨⟨fun c => some (.original c), false, fun _ => none⟩, .unloaded, fun _ => .user⟩

/-- A step of the thread `p`. The code of a hook is there as long as the module has not been
freed. -/
inductive ThreadStep (p : ℕ) (s : System Regs) : Option (Event Regs) → System Regs → Prop
  | call {c : Sys} {regs : Regs} {fn : Fn} : s.pc p = .user → s.kernel.table c = some fn →
      ThreadStep p s (some (.call p c regs)) (s.goto p (.dispatched c regs fn))
  | enterOriginal {c c' : Sys} {regs : Regs} : s.pc p = .dispatched c regs (.original c') →
      ThreadStep p s none (s.goto p (.original c' regs []))
  | enterHook {c c' : Sys} {regs : Regs} : s.pc p = .dispatched c regs (.hook c') →
      s.phase ≠ .unloaded →
      ThreadStep p s none (s.goto p (.hook c' regs []))
  | callOriginal {c c' : Sys} {regs : Regs} {frames : List Sys} : s.pc p = .hook c regs frames →
      s.phase ≠ .unloaded → s.kernel.real c = some (.original c') →
      ThreadStep p s none (s.goto p (.original c' regs (c :: frames)))
  | callHook {c c' : Sys} {regs : Regs} {frames : List Sys} : s.pc p = .hook c regs frames →
      s.phase ≠ .unloaded → s.kernel.real c = some (.hook c') →
      ThreadStep p s none (s.goto p (.hook c' regs (c :: frames)))
  | run {c : Sys} {regs : Regs} {frames : List Sys} {ret : ℤ} : s.pc p = .original c regs frames →
      ThreadStep p s (some (.run p c regs ret)) (s.goto p (.returning c ret frames))
  | back {c c' : Sys} {ret : ℤ} {frames : List Sys} : s.pc p = .returning c ret (c' :: frames) →
      s.phase ≠ .unloaded → ThreadStep p s none (s.goto p (.returning c ret frames))
  | ret {c : Sys} {ret : ℤ} : s.pc p = .returning c ret [] →
      ThreadStep p s (some (.ret p c ret)) (s.goto p .user)

/-- A step of the module. `mayFree` says when the kernel frees it, with its variables. -/
inductive ModuleStep (mayFree : System Regs → Prop) (s : System Regs) : System Regs → Prop
  | load : s.phase = .unloaded → ModuleStep mayFree s { s with phase := .init hookingInit }
  | init {stmt : Stmt} {todo : List Stmt} {k : Kernel} : s.phase = .init (stmt :: todo) →
      stmt.exec s.kernel = some k → ModuleStep mayFree s { s with kernel := k, phase := .init todo }
  | loaded : s.phase = .init [] → ModuleStep mayFree s { s with phase := .loaded }
  | unload : s.phase = .loaded → ModuleStep mayFree s { s with phase := .exit hookingExit }
  | exit {stmt : Stmt} {todo : List Stmt} {k : Kernel} : s.phase = .exit (stmt :: todo) →
      stmt.exec s.kernel = some k → ModuleStep mayFree s { s with kernel := k, phase := .exit todo }
  | free : s.phase = .exit [] → mayFree s →
      ModuleStep mayFree s
        { s with kernel := { s.kernel with real := fun _ => none }, phase := .unloaded }

def Step (mayFree : System Regs → Prop) (s : System Regs) (e : Option (Event Regs))
    (s' : System Regs) : Prop :=
  (∃ p, ThreadStep p s e s') ∨ (e = none ∧ ModuleStep mayFree s s')

/-- The hooks that a thread is in, or is about to enter. -/
def Pc.hooks : Pc Regs → List Sys
  | .user => []
  | .dispatched _ _ (.original _) => []
  | .dispatched _ _ (.hook c) => [c]
  | .hook c _ frames => c :: frames
  | .original _ _ frames => frames
  | .returning _ _ frames => frames

/-- No thread is in a hook. -/
def Quiet (s : System Regs) : Prop := ∀ p, (s.pc p).hooks = []

/-! ## The system without the module -/

/-- The table and the variables of the module in each phase. -/
def kernelAt : Phase → Kernel
  | .unloaded => ⟨fun c => some (.original c), false, fun _ => none⟩
  | .init todo =>
    ⟨fun c => some (if .hook c ∈ todo then .original c else .hook c),
      decide (.makeRw ∉ todo ∧ todo ≠ []),
      fun c => if .save c ∈ todo then none else some (.original c)⟩
  | .loaded => ⟨fun c => some (.hook c), false, fun c => some (.original c)⟩
  | .exit todo =>
    ⟨fun c => some (if .restore c ∈ todo then .hook c else .original c),
      decide (.makeRw ∉ todo ∧ todo ≠ []), fun c => some (.original c)⟩

/-- What is left to do is the end of `hooking_init` or of `hooking_exit`. -/
def Phase.Ok : Phase → Prop
  | .init todo => todo <:+ hookingInit
  | .exit todo => todo <:+ hookingExit
  | _ => True

theorem kernelAt_load : kernelAt (.init hookingInit) = kernelAt .unloaded := by
  simp only [kernelAt, Kernel.mk.injEq]
  refine ⟨funext fun c => ?_, rfl, funext fun c => ?_⟩ <;> cases c <;> rfl

theorem kernelAt_loaded : kernelAt (.init []) = kernelAt .loaded := rfl

theorem kernelAt_unload : kernelAt (.exit hookingExit) = kernelAt .loaded := by
  simp only [kernelAt, Kernel.mk.injEq]
  refine ⟨funext fun c => ?_, rfl, trivial⟩
  cases c <;> rfl

/-- No statement of `hooking_init` faults. -/
theorem exec_init {stmt : Stmt} {todo : List Stmt} (h : stmt :: todo <:+ hookingInit) :
    stmt.exec (kernelAt (.init (stmt :: todo))) = some (kernelAt (.init todo)) := by
  simp only [hookingInit, List.suffix_cons_iff, List.cons.injEq, List.suffix_nil, reduceCtorEq,
    or_false] at h
  rcases h with ⟨rfl, rfl⟩ | ⟨rfl, rfl⟩ | ⟨rfl, rfl⟩ | ⟨rfl, rfl⟩ | ⟨rfl, rfl⟩ | ⟨rfl, rfl⟩ |
    ⟨rfl, rfl⟩ | ⟨rfl, rfl⟩ | ⟨rfl, rfl⟩ | ⟨rfl, rfl⟩ | ⟨rfl, rfl⟩ | ⟨rfl, rfl⟩ <;>
  · refine congrArg some ?_
    simp only [kernelAt, Kernel.mk.injEq]
    refine ⟨funext fun c => ?_, rfl, funext fun c => ?_⟩ <;> cases c <;> rfl

/-- No statement of `hooking_exit` faults. -/
theorem exec_exit {stmt : Stmt} {todo : List Stmt} (h : stmt :: todo <:+ hookingExit) :
    stmt.exec (kernelAt (.exit (stmt :: todo))) = some (kernelAt (.exit todo)) := by
  simp only [hookingExit, List.suffix_cons_iff, List.cons.injEq, List.suffix_nil, reduceCtorEq,
    or_false] at h
  rcases h with ⟨rfl, rfl⟩ | ⟨rfl, rfl⟩ | ⟨rfl, rfl⟩ | ⟨rfl, rfl⟩ | ⟨rfl, rfl⟩ | ⟨rfl, rfl⟩ |
    ⟨rfl, rfl⟩ <;>
  · refine congrArg some ?_
    simp only [kernelAt, Kernel.mk.injEq]
    refine ⟨funext fun c => ?_, rfl, trivial⟩
    cases c <;> rfl

/-- A pointer is saved before the entry is replaced. -/
theorem saved_of_hooked {todo : List Stmt} (h : todo <:+ hookingInit) {c : Sys}
    (hc : .hook c ∉ todo) :
    .save c ∉ todo := by
  have htails : ∀ todo ∈ hookingInit.tails, Stmt.hook c ∉ todo → Stmt.save c ∉ todo := by
    cases c <;> decide
  exact htails todo ((List.mem_tails todo hookingInit).mpr h) hc

/-- Whatever the table holds can be run: the kernel's own function, or a hook whose pointer is
saved. -/
theorem table_kernelAt {phase : Phase} (h : phase.Ok) {c : Sys} {fn : Fn}
    (hfn : (kernelAt phase).table c = some fn) :
    fn = .original c ∨ (fn = .hook c ∧ (kernelAt phase).real c = some (.original c)) := by
  cases phase with
  | unloaded => exact Or.inl (Option.some.inj hfn).symm
  | init todo =>
    by_cases hc : Stmt.hook c ∈ todo
    · left
      simp only [kernelAt, if_pos hc] at hfn
      exact (Option.some.inj hfn).symm
    · right
      simp only [kernelAt, if_neg hc] at hfn
      exact ⟨(Option.some.inj hfn).symm, if_neg (saved_of_hooked h hc)⟩
  | loaded => exact Or.inr ⟨(Option.some.inj hfn).symm, rfl⟩
  | exit todo =>
    by_cases hc : Stmt.restore c ∈ todo
    · right
      simp only [kernelAt, if_pos hc] at hfn
      exact ⟨(Option.some.inj hfn).symm, rfl⟩
    · left
      simp only [kernelAt, if_neg hc] at hfn
      exact (Option.some.inj hfn).symm

/-! ## The module and the threads -/

/-- The module is where its phase says, and the hooks that a thread is in can call the kernel's own
functions. -/
structure Inv (s : System Regs) : Prop where
  phase : s.phase.Ok
  kernel : s.kernel = kernelAt s.phase
  dispatched : ∀ p c regs fn, s.pc p = .dispatched c regs fn → fn = .original c ∨ fn = .hook c
  hooks : ∀ p, ∀ c ∈ (s.pc p).hooks, s.kernel.real c = some (.original c)

section Steps

variable {s s' : System Regs} {p : ℕ} {e : Option (Event Regs)}

theorem inv_start : Inv (System.start : System Regs) :=
  ⟨trivial, rfl, fun _ _ _ _ h => by simp [System.start] at h,
    fun _ _ h => by simp [System.start, Pc.hooks] at h⟩

/-- A thread goes on. -/
theorem Inv.goto (h : Inv s) {pc : Pc Regs}
    (hdispatched : ∀ c regs fn, pc = .dispatched c regs fn → fn = .original c ∨ fn = .hook c)
    (hhooks : ∀ c ∈ pc.hooks, s.kernel.real c = some (.original c)) : Inv (s.goto p pc) := by
  refine ⟨h.phase, h.kernel, ?_, ?_⟩
  · intro q c regs fn hq
    by_cases hqp : q = p
    · subst hqp
      exact hdispatched c regs fn (by simpa [System.goto] using hq)
    · exact h.dispatched q c regs fn (by simpa [System.goto, hqp] using hq)
  · intro q c hc
    by_cases hqp : q = p
    · subst hqp
      exact hhooks c (by simpa [System.goto] using hc)
    · exact h.hooks q c (by simpa [System.goto, hqp] using hc)

/-- The module goes on, and the threads stay where they are. -/
theorem Inv.move (h : Inv s) {k : Kernel} {phase : Phase} (hphase : phase.Ok)
    (hk : k = kernelAt phase)
    (hreal : ∀ c, s.kernel.real c = some (.original c) → k.real c = some (.original c)) :
    Inv ({ s with kernel := k, phase := phase } : System Regs) :=
  ⟨hphase, hk, h.dispatched, fun p c hc => hreal c (h.hooks p c hc)⟩

theorem Inv.threadStep (h : Inv s) (hstep : ThreadStep p s e s') : Inv s' := by
  cases hstep with
  | @call c regs fn hpc htable =>
    rw [h.kernel] at htable
    rcases table_kernelAt h.phase htable with rfl | ⟨rfl, hreal⟩
    · exact h.goto (by rintro _ _ _ ⟨⟩; exact Or.inl rfl) (by simp [Pc.hooks])
    · refine h.goto (by rintro _ _ _ ⟨⟩; exact Or.inr rfl) ?_
      intro c' hc'
      obtain rfl := List.mem_singleton.mp hc'
      rw [h.kernel]
      exact hreal
  | enterOriginal hpc => exact h.goto (by simp) (by simp [Pc.hooks])
  | enterHook hpc =>
    refine h.goto (by simp) ?_
    intro c hc
    exact h.hooks p c (by rw [hpc]; exact hc)
  | callOriginal hpc =>
    refine h.goto (by simp) ?_
    intro c hc
    exact h.hooks p c (by rw [hpc]; exact hc)
  | @callHook c c' regs frames hpc _ hreal =>
    rw [h.hooks p c (by rw [hpc]; exact List.mem_cons_self)] at hreal
    simp at hreal
  | run hpc =>
    refine h.goto (by simp) ?_
    intro c hc
    exact h.hooks p c (by rw [hpc]; exact hc)
  | back hpc =>
    refine h.goto (by simp) ?_
    intro c hc
    exact h.hooks p c (by rw [hpc]; exact List.mem_cons_of_mem _ hc)
  | ret hpc => exact h.goto (by simp) (by simp [Pc.hooks])

theorem Inv.moduleStep (h : Inv s) (hstep : ModuleStep Quiet s s') : Inv s' := by
  cases hstep with
  | load hphase =>
    refine h.move (List.suffix_refl _) ?_ fun _ hc => hc
    rw [h.kernel, hphase, kernelAt_load]
  | @init stmt todo k hphase hexec =>
    have hok := h.phase
    rw [hphase] at hok
    rw [h.kernel, hphase, exec_init hok, Option.some.injEq] at hexec
    refine h.move ((List.suffix_cons stmt todo).trans hok) hexec.symm ?_
    intro c hc
    rw [h.kernel, hphase] at hc
    have hsaved : Stmt.save c ≠ stmt ∧ Stmt.save c ∉ todo := by simpa [kernelAt] using hc
    rw [← hexec]
    exact if_neg hsaved.2
  | loaded hphase =>
    refine h.move trivial ?_ fun _ hc => hc
    rw [h.kernel, hphase, kernelAt_loaded]
  | unload hphase =>
    refine h.move (List.suffix_refl _) ?_ fun _ hc => hc
    rw [h.kernel, hphase, kernelAt_unload]
  | @exit stmt todo k hphase hexec =>
    have hok := h.phase
    rw [hphase] at hok
    rw [h.kernel, hphase, exec_exit hok, Option.some.injEq] at hexec
    refine h.move ((List.suffix_cons stmt todo).trans hok) hexec.symm ?_
    intro c _
    rw [← hexec]
    rfl
  | free hphase hquiet =>
    refine ⟨trivial, ?_, h.dispatched, ?_⟩
    · rw [h.kernel, hphase]
      rfl
    · intro p c hc
      rw [show (s.pc p).hooks = [] from hquiet p] at hc
      simp at hc

theorem Inv.step (h : Inv s) (hstep : Step Quiet s e s') : Inv s' := by
  rcases hstep with ⟨p, hthread⟩ | ⟨-, hmodule⟩
  · exact h.threadStep hthread
  · exact h.moduleStep hmodule

/-- No entry of the table is ever empty or belongs to another system call. -/
theorem Inv.table (h : Inv s) (c : Sys) :
    s.kernel.table c = some (.original c) ∨ s.kernel.table c = some (.hook c) := by
  obtain ⟨fn, hfn⟩ : ∃ fn, s.kernel.table c = some fn := by
    rw [h.kernel]
    cases s.phase <;> exact ⟨_, rfl⟩
  rw [h.kernel] at hfn
  rw [h.kernel, hfn]
  exact (table_kernelAt h.phase hfn).imp (congrArg some) fun hhook => congrArg some hhook.1

end Steps

end SchoolOS.IoTrace
