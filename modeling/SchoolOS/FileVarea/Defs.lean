import Mathlib.Logic.Function.Basic
import SchoolOS.Lib.CInt
import SchoolOS.Lib.Loop
import SchoolOS.Lib.Stdio

/-!
# The memory areas of a process

Reference: `file_varea` of `Assignment4-1/file_varea.c`, which prints them, and `copy_process`,
`copy_mm`, `dup_mm`, `dup_mmap`, `vm_area_dup`, `mm_init` and `mmput` of `Assignment3-1/fork.c`,
which copy or share them.

A process has a pointer to its `mm_struct`, with the head of the list of its areas. A kernel thread
has no `mm_struct`. The functions of the rest of the kernel are parameters, which may fail at any
time (`Calls`).
-/

namespace SchoolOS.FileVarea

open Function

/-- The address of a structure. -/
abbrev Ptr := ℕ

/-! ## Structures -/

/-- The flags of an area that `dup_mmap` reads or clears. -/
structure VmFlags where
  dontCopy : Bool
  account : Bool
  wipeOnFork : Bool
  locked : Bool
  lockOnFault : Bool
deriving DecidableEq

/-- What an area maps. -/
structure Area where
  vmStart : UInt64
  vmEnd : UInt64
  vmFlags : VmFlags
  vmFile : Option Ptr
deriving DecidableEq

/-- `vm_area_struct`. -/
structure VmArea extends Area where
  vmMm : Ptr
  vmPrev : Option Ptr
  vmNext : Option Ptr

/-- Where the code, the data and the heap of a program are. -/
structure Layout where
  startCode : UInt64
  endCode : UInt64
  startData : UInt64
  endData : UInt64
  startBrk : UInt64
  brk : UInt64
deriving DecidableEq

/-- `mm_struct`. -/
structure Mm extends Layout where
  mmap : Option Ptr
  mapCount : ℤ
  mmUsers : ℤ

/-- `task_struct`. -/
structure Task where
  pid : ℤ
  comm : Bytes
  mm : Option Ptr

/-- The structures in memory, and `pid_task(find_vpid(pid), PIDTYPE_PID)`. -/
structure Kernel where
  task : Ptr → Option Task
  pidTask : ℤ → Option Ptr
  mm : Ptr → Option Mm
  vma : Ptr → Option VmArea

def Kernel.setTask (k : Kernel) (p : Ptr) (t : Task) : Kernel :=
  { k with task := update k.task p (some t) }

def Kernel.freeTask (k : Kernel) (p : Ptr) : Kernel := { k with task := update k.task p none }

def Kernel.setMm (k : Kernel) (p : Ptr) (m : Mm) : Kernel := { k with mm := update k.mm p (some m) }

def Kernel.freeMm (k : Kernel) (p : Ptr) : Kernel := { k with mm := update k.mm p none }

def Kernel.setVma (k : Kernel) (p : Ptr) (v : VmArea) : Kernel :=
  { k with vma := update k.vma p (some v) }

def Kernel.vmAreaFree (k : Kernel) (p : Ptr) : Kernel := { k with vma := update k.vma p none }

@[simp] theorem Kernel.task_setTask (k : Kernel) (p : Ptr) (t : Task) :
    (k.setTask p t).task = update k.task p (some t) := rfl

@[simp] theorem Kernel.task_freeTask (k : Kernel) (p : Ptr) :
    (k.freeTask p).task = update k.task p none := rfl

@[simp] theorem Kernel.mm_setMm (k : Kernel) (p : Ptr) (m : Mm) :
    (k.setMm p m).mm = update k.mm p (some m) := rfl

@[simp] theorem Kernel.mm_freeMm (k : Kernel) (p : Ptr) : (k.freeMm p).mm = update k.mm p none :=
  rfl

/-! ## `file_varea` -/

def hexDigit (d : ℕ) : UInt8 := if d < 10 then UInt8.ofNat (48 + d) else UInt8.ofNat (87 + d)

/-- The text of a `%lx` conversion. -/
def hex (x : UInt64) : Bytes :=
  if x = 0 then [hexDigit 0] else (Nat.digits 16 x.toNat).reverse.map hexDigit

/-- ` name(%lx~%lx)` -/
def rangeText (name : Bytes) (a b : UInt64) : Bytes :=
  ascii " " ++ name ++ ascii "(" ++ hex a ++ ascii "~" ++ hex b ++ ascii ")"

def headerLine (t : Task) : Bytes :=
  ascii "######## Loaded files of a process '" ++ t.comm ++ ascii "(" ++ decimal t.pid ++
    ascii ")' in VM ########\n"

def footerLine : Bytes := ascii "#############################################################\n"

/-- The line of an area. `dPath` is the text that `%s` prints for what `d_path` returns. -/
def areaLine (dPath : Ptr → Bytes) (m : Layout) (a : Area) : Bytes :=
  rangeText (ascii "mem") a.vmStart a.vmEnd ++ rangeText (ascii "code") m.startCode m.endCode ++
    rangeText (ascii "data") m.startData m.endData ++ rangeText (ascii "heap") m.startBrk m.brk ++
    ascii " " ++ a.vmFile.elim (ascii "no file") dPath ++ ascii "\n"

/-- The variables of the loop in `file_varea`, and the lines that have been printed. -/
structure Walk where
  vm : Option Ptr
  lines : List Bytes

/-- Print one area. -/
def Walk.next (dPath : Ptr → Bytes) (k : Kernel) (s : Walk) : Option Walk := do
  let vm ← s.vm
  let v ← k.vma vm
  let m ← k.mm v.vmMm
  some ⟨v.vmNext, s.lines ++ [areaLine dPath m.toLayout v.toArea]⟩

/-- `file_varea` with the argument in the register `di`: the return value and the lines that are
printed. `none` stands for a null or wild pointer, or for a list that does not end within the
fuel. -/
def fileVarea (dPath : Ptr → Bytes) (k : Kernel) (di : UInt64) (fuel : ℕ) :
    Option (ℤ × List Bytes) :=
  let pid := toInt di.toNat
  match k.pidTask pid with
  | none => some (-1, [])
  | some pcb => do
    let t ← k.task pcb
    let mm ← t.mm
    let m ← k.mm mm
    let s ← Loop.whileLoop (fun s => s.vm.isSome) (Walk.next dPath k) fuel ⟨m.mmap, []⟩
    some (pid, headerLine t :: s.lines ++ [footerLine])

/-! ## What the rest of the kernel answers -/

def EINTR : ℤ := 4

def ENOMEM : ℤ := 12

/-- The answers in the iteration of `dup_mmap` for one area. -/
structure AreaCalls where
  fatalSignalPending : Bool
  /-- `security_vm_enough_memory_mm` refuses -/
  notEnoughMemory : Bool
  kmemCacheAlloc : Kernel → Option Ptr
  vmaDupPolicy : ℤ
  dupUserfaultfd : ℤ
  /-- `anon_vma_prepare` for `VM_WIPEONFORK`, otherwise `anon_vma_fork` -/
  anonVma : ℤ
  copyPageRange : ℤ
  /-- An object that is not in use. -/
  kmemCacheAlloc_fresh : ∀ k p, kmemCacheAlloc k = some p → k.vma p = none

/-- The answers in one call of `copy_process`. -/
structure Calls where
  allocateMm : Kernel → Option Ptr
  mmInit : Bool
  downWriteKillable : Bool
  ksmFork : ℤ
  khugepagedFork : ℤ
  area : Ptr → AreaCalls
  archDupMmap : ℤ
  /-- `mm->binfmt && !try_module_get(mm->binfmt->module)` -/
  binfmtGone : Bool
  /-- `exit_mmap`, which frees the areas of an `mm_struct` -/
  exitMmap : Ptr → (Ptr → Option VmArea) → Ptr → Option VmArea
  /-- The result of the steps of `copy_process` behind `copy_mm`. -/
  later : ℤ
  allocateMm_fresh : ∀ k p, allocateMm k = some p → k.mm p = none
  /-- `exit_mmap` leaves the areas of others alone. -/
  exitMmap_other : ∀ mm vma a v, vma a = some v → v.vmMm ≠ mm → exitMmap mm vma a = some v

/-! ## `dup_mmap` -/

/-- Where `pprev` points to. -/
inductive Slot
  | mmap (mm : Ptr)
  | vmNext (vma : Ptr)

/-- `*pprev = p` -/
def Kernel.store (k : Kernel) (pprev : Slot) (p : Option Ptr) : Option Kernel :=
  match pprev with
  | .mmap mm => (k.mm mm).map fun m => k.setMm mm { m with mmap := p }
  | .vmNext a => (k.vma a).map fun v => k.setVma a { v with vmNext := p }

/-- The variables of `dup_mmap`. `out` says that it has jumped to the label of this name. -/
structure Dup where
  kernel : Kernel
  mpnt : Option Ptr
  prev : Option Ptr
  pprev : Slot
  retval : ℤ
  out : Bool

def Dup.goOut (s : Dup) (k : Kernel) (retval : ℤ) : Dup :=
  { s with kernel := k, retval := retval, out := true }

def vmAreaDup (alloc : Kernel → Option Ptr) (orig : VmArea) (k : Kernel) : Option (Ptr × Kernel) :=
  (alloc k).map fun new => (new, k.setVma new orig)

/-- Set the fields of the new area, and link it in. -/
def Dup.link (mm tmp : Ptr) (s : Dup) : Option Dup := do
  let v ← s.kernel.vma tmp
  let k := s.kernel.setVma tmp { v with
    vmMm := mm
    vmFlags := { v.vmFlags with locked := false, lockOnFault := false }
    vmNext := none
    vmPrev := none }
  let k ← k.store s.pprev (some tmp)
  let v ← k.vma tmp
  let k := k.setVma tmp { v with vmPrev := s.prev }
  let m ← k.mm mm
  some { s with
    kernel := k.setMm mm { m with mapCount := m.mapCount + 1 }
    pprev := .vmNext tmp
    prev := some tmp }

/-- The iteration for an area that is copied. -/
def Dup.copyArea (c : AreaCalls) (mm : Ptr) (v : VmArea) (s : Dup) : Option Dup :=
  if c.fatalSignalPending then some (s.goOut s.kernel (-EINTR))
  else if v.vmFlags.account && c.notEnoughMemory then some (s.goOut s.kernel (-ENOMEM))
  else match vmAreaDup c.kmemCacheAlloc v s.kernel with
    | none => some (s.goOut s.kernel (-ENOMEM))
    | some (tmp, k) =>
      if c.vmaDupPolicy ≠ 0 ∨ c.dupUserfaultfd ≠ 0 ∨ c.anonVma ≠ 0 then
        some (s.goOut (k.vmAreaFree tmp) (-ENOMEM))
      else do
        let s ← Dup.link mm tmp { s with kernel := k }
        -- the page tables of an area with `VM_WIPEONFORK` are not copied
        if ¬ v.vmFlags.wipeOnFork ∧ c.copyPageRange ≠ 0 then some (s.goOut s.kernel c.copyPageRange)
        else some s

/-- One iteration, with the step to the next area. -/
def Dup.next (calls : Calls) (mm : Ptr) (s : Dup) : Option Dup := do
  let mpnt ← s.mpnt
  let v ← s.kernel.vma mpnt
  let s ← if v.vmFlags.dontCopy then some s else s.copyArea (calls.area mpnt) mm v
  if s.out then some s
  else do
    let v ← s.kernel.vma mpnt
    some { s with mpnt := v.vmNext }

def dupMmap (calls : Calls) (mm oldmm : Ptr) (k : Kernel) (fuel : ℕ) : Option (Kernel × ℤ) :=
  if calls.downWriteKillable then some (k, -EINTR)
  else if calls.ksmFork ≠ 0 then some (k, calls.ksmFork)
  else if calls.khugepagedFork ≠ 0 then some (k, calls.khugepagedFork)
  else do
    let old ← k.mm oldmm
    let s ← Loop.whileLoop (fun s => s.mpnt.isSome && !s.out) (Dup.next calls mm) fuel
      ⟨k, old.mmap, none, .mmap mm, 0, false⟩
    some (s.kernel, if s.out then s.retval else calls.archDupMmap)

/-! ## `dup_mm`, `copy_mm` and `copy_process` -/

/-- `mmput`: the last user frees the areas and the `mm_struct`. -/
def mmput (calls : Calls) (mm : Ptr) (k : Kernel) : Option Kernel :=
  (k.mm mm).map fun m =>
    if m.mmUsers - 1 = 0 then { k.freeMm mm with vma := calls.exitMmap mm k.vma }
    else k.setMm mm { m with mmUsers := m.mmUsers - 1 }

def dupMm (calls : Calls) (oldmm : Ptr) (k : Kernel) (fuel : ℕ) : Option (Kernel × Option Ptr) :=
  match calls.allocateMm k with
  | none => some (k, none)
  | some mm => do
    let old ← k.mm oldmm
    let k := k.setMm mm { old with mmap := none, mapCount := 0, mmUsers := 1 }
    if ¬ calls.mmInit then some (k.freeMm mm, none)
    else do
      let (k, err) ← dupMmap calls mm oldmm k fuel
      if err ≠ 0 ∨ calls.binfmtGone then (mmput calls mm k).map fun k => (k, none)
      else some (k, some mm)

/-- `copy_mm`, with `CLONE_VM` or not. -/
def copyMm (calls : Calls) (cloneVm : Bool) (current tsk : Ptr) (k : Kernel) (fuel : ℕ) :
    Option (Kernel × ℤ) := do
  let cur ← k.task current
  let t ← k.task tsk
  match cur.mm with
  | none => some (k.setTask tsk { t with mm := none }, 0)
  | some oldmm =>
    if cloneVm then do
      let m ← k.mm oldmm
      let k := k.setMm oldmm { m with mmUsers := m.mmUsers + 1 }
      some (k.setTask tsk { t with mm := some oldmm }, 0)
    else do
      let (k, mm) ← dupMm calls oldmm (k.setTask tsk { t with mm := none }) fuel
      match mm with
      | none => some (k, -ENOMEM)
      | some mm => some (k.setTask tsk { t with mm := some mm }, 0)

/-- The address and the pid of a new task. -/
structure NewTask where
  ptr : Ptr
  pid : ℤ

/-- `copy_process`, as far as the memory of the tasks is concerned. The new task gets its pid when
nothing can fail any more. -/
def copyProcess (calls : Calls) (cloneVm : Bool) (current : Ptr) (new : NewTask) (k : Kernel)
    (fuel : ℕ) :
    Option (Kernel × ℤ) := do
  let cur ← k.task current
  let (k, ret) ← copyMm calls cloneVm current new.ptr
    (k.setTask new.ptr { cur with pid := new.pid }) fuel
  if ret ≠ 0 then some (k.freeTask new.ptr, ret)
  else if calls.later ≠ 0 then do
    let t ← k.task new.ptr
    let k ← t.mm.elim (some k) fun mm => mmput calls mm k
    some (k.freeTask new.ptr, calls.later)
  else some ({ k with pidTask := update k.pidTask new.pid (some new.ptr) }, 0)

end SchoolOS.FileVarea
