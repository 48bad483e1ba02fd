import Mathlib.Data.List.Induction
import Mathlib.Logic.Function.Basic
import Mathlib.Tactic.Common

/-!
# Loading and unloading the hook modules

Reference: `hooking_init` and `hooking_exit` of `Assignment2-2/os_ftracehooking.c`,
`Assignment2-3/ftracehooking.c`, `Assignment3-1/Process_tracer.c` and `Assignment4-1/file_varea.c`,
which all hook `syscall_table[__NR_os_ftrace]`.

A module saves the pointer that it finds in the slot, and writes it back when it is unloaded. A
write to the page of the table while the page is read-only faults, which is `none` here.
`os_ftracehooking.c` leaves the page writable, and relies on that when it is unloaded.

`clean_iff` says for which sequences of loads and unloads the slot never dangles.
-/

namespace SchoolOS.Hooks

/-- The modules that hook the slot. -/
inductive Module
  | osFtracehooking
  | ftracehooking
  | processTracer
  | fileVarea
deriving DecidableEq

/-- The address of a function. -/
abbrev Addr := ℕ

/-- The slot, the permission of its page, and the variable `real_os_ftrace` of each module. -/
structure Kernel where
  slot : Addr
  writable : Bool
  real : Module → Addr

namespace Kernel

/-- `make_rw`. -/
def makeRw (s : Kernel) : Kernel := { s with writable := true }

/-- `make_ro`. -/
def makeRo (s : Kernel) : Kernel := { s with writable := false }

/-- `real_os_ftrace = syscall_table[__NR_os_ftrace];` -/
def save (m : Module) (s : Kernel) : Kernel := { s with real := Function.update s.real m s.slot }

/-- `syscall_table[__NR_os_ftrace] = fn;` -/
def write (fn : Addr) (s : Kernel) : Option Kernel :=
  if s.writable then some { s with slot := fn } else none

end Kernel

/-- `hooking_init` of `ftracehooking.c`, `Process_tracer.c` and `file_varea.c`. -/
def initAndProtect (m : Module) (fn : Addr) (s : Kernel) : Option Kernel := do
  let s ← (s.makeRw.save m).write fn
  some s.makeRo

/-- `hooking_exit` of `ftracehooking.c`, `Process_tracer.c` and `file_varea.c`. -/
def exitAndProtect (m : Module) (s : Kernel) : Option Kernel := do
  let s ← s.makeRw.write (s.real m)
  some s.makeRo

/-- `hooking_init`. The kernel has put the function of the module at `fn`. -/
def hookingInit : Module → Addr → Kernel → Option Kernel
  | .osFtracehooking, fn, s => (s.makeRw.save .osFtracehooking).write fn
  | .ftracehooking, fn, s => initAndProtect .ftracehooking fn s
  | .processTracer, fn, s => initAndProtect .processTracer fn s
  | .fileVarea, fn, s => initAndProtect .fileVarea fn s

/-- `hooking_exit`. -/
def hookingExit : Module → Kernel → Option Kernel
  | .osFtracehooking, s => do
    let s ← s.write (s.real .osFtracehooking)
    some s.makeRo
  | .ftracehooking, s => exitAndProtect .ftracehooking s
  | .processTracer, s => exitAndProtect .processTracer s
  | .fileVarea, s => exitAndProtect .fileVarea s

/-! ## Runs -/

/-- Loading a module, whose function is put at `fn`, or unloading it. -/
inductive Op
  | load (m : Module) (fn : Addr)
  | unload (m : Module)

def Op.module : Op → Module
  | .load m _ => m
  | .unload m => m

def Op.run (s : Kernel) : Op → Option Kernel
  | .load m fn => hookingInit m fn s
  | .unload m => hookingExit m s

/-- The kernel after a sequence of loads and unloads. The table is read-only at first. -/
def run (original : Addr) (ops : List Op) : Option Kernel :=
  ops.foldlM Op.run ⟨original, false, fun _ => 0⟩

/-- Where the function of a module is, if the module is loaded. -/
def loadedAt (ops : List Op) : Module → Option Addr :=
  ops.foldl
    (fun at? op => match op with
      | .load m fn => Function.update at? m (some fn)
      | .unload m => Function.update at? m none)
    fun _ => none

/-- Only a module that is not loaded is loaded, and only a loaded one is unloaded. -/
def Allowed (before : List Op) : Op → Bool
  | .load m _ => (loadedAt before m).isNone
  | .unload m => (loadedAt before m).isSome

/-- A sequence in which each module is loaded at most once at a time. -/
def Valid (ops : List Op) : Prop := ∀ k, ∀ hk : k < ops.length, Allowed (ops.take k) ops[k] = true

instance (ops : List Op) : Decidable (Valid ops) :=
  inferInstanceAs (Decidable (∀ k, ∀ hk : k < ops.length, Allowed (ops.take k) ops[k] = true))

/-- The slot holds the original function or the function of a loaded module. -/
def Clean (original : Addr) (ops : List Op) (s : Kernel) : Prop :=
  s.slot = original ∨ ∃ m, loadedAt ops m = some s.slot

/-- Whenever a module is unloaded, what it found in the slot when it was loaded is the original
function or the function of another module that is loaded. `os_ftracehooking` is unloaded right
after it was loaded. -/
def WellOrdered (original : Addr) (ops : List Op) : Prop :=
  ∀ before m fn mid after, ops = before ++ .load m fn :: mid ++ .unload m :: after →
    (∀ op ∈ mid, op.module ≠ m) →
    (m = .osFtracehooking → mid = []) ∧
      ∀ s, run original before = some s →
        s.slot = original ∨ ∃ m' ≠ m, loadedAt (before ++ .load m fn :: mid) m' = some s.slot

variable {original : Addr} {ops before mid : List Op} {m m' : Module} {fn : Addr} {s s' : Kernel}
  {op : Op}

/-! ## One load or unload -/

theorem hookingInit_eq (m : Module) (fn : Addr) (s : Kernel) :
    hookingInit m fn s =
      some ⟨fn, decide (m = .osFtracehooking), Function.update s.real m s.slot⟩ := by
  cases m <;> rfl

theorem hookingExit_eq (m : Module) (s : Kernel) :
    hookingExit m s =
      if m = .osFtracehooking ∧ s.writable = false then none
      else some ⟨s.real m, false, s.real⟩ := by
  cases m with
  | osFtracehooking =>
    cases hw : s.writable with
    | false => simp [hookingExit, Kernel.write, hw]
    | true => simp [hookingExit, Kernel.write, Kernel.makeRo, hw]
  | ftracehooking => rfl
  | processTracer => rfl
  | fileVarea => rfl

/-- An unload restores the saved pointer, unless the page is read-only and the module does not
care. -/
theorem run_unload_eq_some_iff :
    Op.run s (.unload m) = some s' ↔
      (m = .osFtracehooking → s.writable = true) ∧ s' = ⟨s.real m, false, s.real⟩ := by
  rw [Op.run, hookingExit_eq]
  by_cases hfault : m = .osFtracehooking ∧ s.writable = false
  · rw [if_pos hfault]
    simp [hfault.1, hfault.2]
  · rw [if_neg hfault, Option.some.injEq]
    have hw : m = .osFtracehooking → s.writable = true := by
      intro hm
      by_contra hnot
      exact hfault ⟨hm, Bool.not_eq_true _ ▸ hnot⟩
    exact ⟨fun h => ⟨hw, h.symm⟩, fun h => h.2.symm⟩

theorem run_concat (ops : List Op) (op : Op) :
    run original (ops ++ [op]) = (run original ops).bind op.run := by
  simp [run, List.foldlM_append]

theorem run_of_append {ops' : List Op} (h : run original (ops ++ ops') = some s') :
    ∃ s, run original ops = some s := by
  rw [run, List.foldlM_append] at h
  obtain ⟨s, hs, -⟩ := Option.bind_eq_some_iff.mp h
  exact ⟨s, hs⟩

theorem loadedAt_load (ops : List Op) (m : Module) (fn : Addr) :
    loadedAt (ops ++ [.load m fn]) = Function.update (loadedAt ops) m (some fn) := by
  simp [loadedAt]

theorem loadedAt_unload (ops : List Op) (m : Module) :
    loadedAt (ops ++ [.unload m]) = Function.update (loadedAt ops) m none := by
  simp [loadedAt]

/-! ## Since the load of a module -/

/-- The operations on other modules do not change what a module has saved. -/
theorem real_run (h : Op.run s op = some s') (hop : op.module ≠ m) : s'.real m = s.real m := by
  cases op with
  | load m' fn =>
    rw [Op.run, hookingInit_eq, Option.some.injEq] at h
    rw [← h]
    exact Function.update_of_ne (Ne.symm hop) _ _
  | unload m' =>
    rw [(run_unload_eq_some_iff.mp h).2]

/-- The operations on other modules leave the page read-only. -/
theorem writable_run (h : Op.run s op = some s') (hop : op.module ≠ .osFtracehooking) :
    s'.writable = false := by
  cases op with
  | load m' fn =>
    rw [Op.run, hookingInit_eq, Option.some.injEq] at h
    rw [← h]
    exact decide_eq_false hop
  | unload m' =>
    rw [(run_unload_eq_some_iff.mp h).2]

/-- The kernel while `m` is loaded: `m` has saved what it found, and if `m` is `os_ftracehooking`,
the page is writable until the next operation. -/
theorem run_since_load (hs : run original before = some s)
    (hs' : run original (before ++ .load m fn :: mid) = some s')
    (hmid : ∀ op ∈ mid, op.module ≠ m) :
    s'.real m = s.slot ∧ (m = .osFtracehooking → (s'.writable = true ↔ mid = [])) := by
  induction mid using List.reverseRecOn generalizing s' with
  | nil =>
    rw [run_concat, hs, Option.bind_some, Op.run, hookingInit_eq, Option.some.injEq] at hs'
    rw [← hs']
    refine ⟨Function.update_self _ _ _, fun hm => ?_⟩
    simp [hm]
  | append_singleton mid op ih =>
    have hassoc : before ++ .load m fn :: (mid ++ [op]) = before ++ .load m fn :: mid ++ [op] := by
      simp
    rw [hassoc, run_concat] at hs'
    obtain ⟨s₁, hs₁, hop⟩ := Option.bind_eq_some_iff.mp hs'
    have hne := hmid op (List.mem_append_right _ (List.mem_singleton_self op))
    have hreal := (ih hs₁ fun op' hop' => hmid op' (List.mem_append_left _ hop')).1
    refine ⟨by rw [real_run hop hne, hreal], fun hm => ?_⟩
    rw [writable_run hop (hm ▸ hne)]
    simp

/-- A loaded module has a last load. -/
theorem exists_load (h : loadedAt ops m ≠ none) :
    ∃ before fn mid, ops = before ++ .load m fn :: mid ∧ ∀ op ∈ mid, op.module ≠ m := by
  induction ops using List.reverseRecOn with
  | nil => exact absurd rfl h
  | append_singleton ops op ih =>
    by_cases hop : op.module = m
    · cases op with
      | load m' fn =>
        obtain rfl : m' = m := hop
        exact ⟨ops, fn, [], rfl, by simp⟩
      | unload m' =>
        obtain rfl : m' = m := hop
        rw [loadedAt_unload, Function.update_self] at h
        exact absurd rfl h
    · have hkeep : loadedAt (ops ++ [op]) m = loadedAt ops m := by
        cases op with
        | load m' fn =>
          rw [loadedAt_load]
          exact Function.update_of_ne (Ne.symm hop) _ _
        | unload m' =>
          rw [loadedAt_unload]
          exact Function.update_of_ne (Ne.symm hop) _ _
      rw [hkeep] at h
      obtain ⟨before, fn, mid, rfl, hmid⟩ := ih h
      refine ⟨before, fn, mid ++ [op], by simp, fun op' hop' => ?_⟩
      rcases List.mem_append.mp hop' with hmem | hmem
      · exact hmid op' hmem
      · rwa [List.mem_singleton.mp hmem]

/-! ## The slot -/

theorem clean_load (ops : List Op) (m : Module) (fn : Addr) (s : Kernel) :
    ∃ s', Op.run s (.load m fn) = some s' ∧ Clean original (ops ++ [.load m fn]) s' := by
  refine ⟨_, hookingInit_eq m fn s, Or.inr ⟨m, ?_⟩⟩
  rw [loadedAt_load, Function.update_self]

/-- An unload keeps the slot clean exactly if what the module saved is clean without the module. -/
theorem clean_unload_iff :
    (∃ s', Op.run s (.unload m) = some s' ∧ Clean original (ops ++ [.unload m]) s') ↔
      (m = .osFtracehooking → s.writable = true) ∧
        (s.real m = original ∨ ∃ m' ≠ m, loadedAt ops m' = some (s.real m)) := by
  have hloaded : (∃ m', loadedAt (ops ++ [.unload m]) m' = some (s.real m)) ↔
      ∃ m' ≠ m, loadedAt ops m' = some (s.real m) := by
    constructor
    · rintro ⟨m', hm'⟩
      have hne : m' ≠ m := by
        rintro rfl
        rw [loadedAt_unload, Function.update_self] at hm'
        exact absurd hm' (by simp)
      rw [loadedAt_unload, Function.update_of_ne hne] at hm'
      exact ⟨m', hne, hm'⟩
    · rintro ⟨m', hne, hm'⟩
      exact ⟨m', by rw [loadedAt_unload, Function.update_of_ne hne, hm']⟩
  constructor
  · rintro ⟨s', hrun, hclean⟩
    obtain ⟨hw, rfl⟩ := run_unload_eq_some_iff.mp hrun
    exact ⟨hw, hclean.imp id hloaded.mp⟩
  · rintro ⟨hw, hsaved⟩
    exact ⟨_, run_unload_eq_some_iff.mpr ⟨hw, rfl⟩, hsaved.imp id hloaded.mpr⟩

/-- For every sequence of loads and unloads: no operation faults and the slot always holds the
original function or the function of a loaded module, if and only if the unloads are well
ordered. -/
theorem clean_iff {ops : List Op} (hvalid : Valid ops) :
    (∀ pre, pre <+: ops → ∃ s, run original pre = some s ∧ Clean original pre s) ↔
      WellOrdered original ops := by
  constructor
  · intro hclean before m fn mid after heq hmid
    obtain ⟨s', hs', -⟩ := hclean (before ++ .load m fn :: mid) ⟨.unload m :: after, by rw [heq]⟩
    obtain ⟨s'', hs'', hclean''⟩ :=
      hclean (before ++ .load m fn :: mid ++ [.unload m]) ⟨after, by simp [heq]⟩
    rw [run_concat, hs', Option.bind_some] at hs''
    obtain ⟨hw, hsaved⟩ := clean_unload_iff.mp ⟨s'', hs'', hclean''⟩
    obtain ⟨s, hs, -⟩ := hclean before ⟨.load m fn :: mid ++ .unload m :: after, by simp [heq]⟩
    obtain ⟨hreal, hpage⟩ := run_since_load hs hs' hmid
    refine ⟨fun hm => (hpage hm).mp (hw hm), fun s₁ hs₁ => ?_⟩
    rw [hs, Option.some.injEq] at hs₁
    rwa [← hs₁, ← hreal]
  · intro hordered pre
    induction pre using List.reverseRecOn with
    | nil => exact fun _ => ⟨_, rfl, Or.inl rfl⟩
    | append_singleton pre op ih =>
      rintro ⟨after, rfl⟩
      rw [List.append_assoc, List.singleton_append] at hordered hvalid
      have hallowed := hvalid pre.length (by simp)
      rw [List.take_left, List.getElem_append_right (Nat.le_refl _)] at hallowed
      obtain ⟨s', hs', -⟩ := ih ⟨op :: after, by simp⟩
      rw [run_concat, hs', Option.bind_some]
      cases op with
      | load m fn => exact clean_load pre m fn s'
      | unload m =>
        obtain ⟨before, fn, mid, rfl, hmid⟩ :=
          exists_load (Option.isSome_iff_ne_none.mp (by simpa [Allowed] using hallowed))
        obtain ⟨s, hs⟩ := run_of_append hs'
        obtain ⟨hpage, hfound⟩ := hordered before m fn mid after rfl hmid
        obtain ⟨hreal, hwritable⟩ := run_since_load hs hs' hmid
        refine clean_unload_iff.mpr ⟨fun hm => (hwritable hm).mpr (hpage hm), ?_⟩
        rw [hreal]
        exact hfound s hs

/-- Two modules that are unloaded in the reverse order of their loads. -/
def nested : List Op :=
  [.load .fileVarea 1, .load .osFtracehooking 2, .unload .osFtracehooking, .unload .fileVarea]

theorem clean_nested :
    Valid nested ∧ ∀ pre, pre <+: nested → ∃ s, run 0 pre = some s ∧ Clean 0 pre s := by
  refine ⟨by decide, (clean_iff (by decide)).mpr ?_⟩
  intro before m fn mid after heq hmid
  rcases before with - | ⟨a, - | ⟨b, before⟩⟩
  · obtain ⟨hload, -⟩ := List.cons.inj heq
    obtain ⟨rfl, rfl⟩ := Op.load.inj hload
    refine ⟨fun h => absurd h (by decide), fun s hs => Or.inl ?_⟩
    rw [← Option.some.inj hs]
  · obtain ⟨rfl, hrest⟩ := List.cons.inj heq
    obtain ⟨hload, hunloads⟩ := List.cons.inj hrest
    obtain ⟨rfl, rfl⟩ := Op.load.inj hload
    obtain rfl : mid = [] := by
      -- the next call is the unload
      cases mid with
      | nil => rfl
      | cons op mid =>
        obtain ⟨rfl, -⟩ := List.cons.inj hunloads
        exact absurd rfl (hmid _ List.mem_cons_self)
    refine ⟨fun _ => rfl, fun s hs => Or.inr ⟨.fileVarea, by decide, ?_⟩⟩
    rw [← Option.some.inj hs]
    rfl
  · -- the two last calls are no loads
    have hmem : Op.load m fn ∈ nested.drop 2 := by
      obtain ⟨-, hrest⟩ := List.cons.inj heq
      obtain ⟨-, hrest⟩ := List.cons.inj hrest
      have hdrop : nested.drop 2 = before ++ .load m fn :: mid ++ .unload m :: after := hrest
      rw [hdrop]
      simp
    simp [nested] at hmem

/-- Two modules that are unloaded in the order of their loads. -/
def crossed : List Op :=
  [.load .ftracehooking 1, .load .fileVarea 2, .unload .ftracehooking, .unload .fileVarea]

/-- The slot ends up with the function of `ftracehooking`, which is not loaded any more. -/
theorem not_clean_crossed :
    Valid crossed ∧ ∃ s, run 0 crossed = some s ∧ s.slot = 1 ∧ (∀ m, loadedAt crossed m = none) ∧
      ¬ Clean 0 crossed s := by
  have hnone : ∀ m, loadedAt crossed m = none := by
    intro m
    cases m <;> rfl
  refine ⟨by decide, _, rfl, rfl, hnone, ?_⟩
  rintro (hslot | ⟨m, hm⟩)
  · exact absurd hslot (by decide)
  · rw [hnone m] at hm
    exact absurd hm (by simp)

end SchoolOS.Hooks
