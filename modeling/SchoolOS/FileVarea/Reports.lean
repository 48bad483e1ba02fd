import SchoolOS.FileVarea.Fork

/-!
# What `file_varea` prints

In every state that calls of `copy_process` and the rest of the kernel can reach, `file_varea` ends
and follows no wild pointer, unless it is asked for a kernel thread, which has no `mm_struct`
(`fileVarea_reachable`).

A new process prints the areas of its creator except those with `VM_DONTCOPY`, a new thread prints
all of them, and nobody prints anything else than before (`fileVarea_copyProcess`).
-/

namespace SchoolOS.FileVarea

open Function

/-! ## Runs -/

/-- The first task, which is a kernel thread without a pid that could be found. -/
def Kernel.boot : Kernel where
  task := update (fun _ => none) 0 (some ⟨0, ascii "swapper/0", none⟩)
  pidTask _ := none
  mm _ := none
  vma _ := none

/-- The states that calls of `copy_process` can reach, with steps of the rest of the kernel in
between: `mmap`, `execve`, `exit` and so on. -/
inductive Reaches (rest : Kernel → Kernel → Prop) : Kernel → Prop
  | boot : Reaches rest .boot
  | copyProcess {k k' : Kernel} {calls : Calls} {cloneVm : Bool} {current : Ptr} {cur : Task}
      {new : NewTask} {ret : ℤ} :
      Reaches rest k → k.task current = some cur → k.task new.ptr = none →
        k.pidTask new.pid = none →
      Returns (FileVarea.copyProcess calls cloneVm current new k) (k', ret) → Reaches rest k'
  | rest {k k' : Kernel} : Reaches rest k → rest k k' → Reaches rest k'

/-- The rest of the kernel keeps its lists of areas in order, and counts the users of an
`mm_struct`. -/
def KeepsInv (rest : Kernel → Kernel → Prop) : Prop := ∀ k k', Inv k → rest k k' → Inv k'

theorem inv_boot : Inv .boot := by
  refine ⟨fun p hp => absurd rfl hp, ?_, fun pid t ht => by simp [Kernel.boot] at ht⟩
  intro p
  refine ⟨∅, ?_, le_refl 0⟩
  intro t
  by_cases ht : t = 0
  · subst ht
    simp [Kernel.mmOf, Kernel.boot]
  · simp [Kernel.mmOf, Kernel.boot, ht]

theorem Reaches.inv {rest : Kernel → Kernel → Prop} (hrest : KeepsInv rest) {k : Kernel}
    (h : Reaches rest k) : Inv k := by
  induction h with
  | boot => exact inv_boot
  | @copyProcess k k' calls cloneVm current cur new ret _ hcur hptr _ hrun ih =>
    obtain ⟨memory, hmem⟩ := ih.exists_memory hcur
    obtain ⟨k'', ret', hrun', hspec⟩ := returns_copyProcess ih hcur hptr hmem calls cloneVm
    obtain ⟨rfl, rfl⟩ := Prod.mk.inj (hrun'.unique hrun)
    exact hspec.inv ih hptr
  | rest _ hstep ih => exact hrest _ _ ih hstep

/-- A shell with two areas, the second of which is not copied. -/
def Kernel.shell : Kernel where
  task := update Kernel.boot.task 1 (some ⟨1, ascii "sh", some 10⟩)
  pidTask := update (fun _ => none) 1 (some 1)
  mm := update (fun _ => none) 10 (some ⟨⟨4096, 8192, 8192, 12288, 16384, 20480⟩, some 20, 2, 1⟩)
  vma := update (update (fun _ => none)
    20 (some ⟨⟨4096, 12288, ⟨false, false, false, true, false⟩, some 30⟩, 10, none, some 21⟩))
    21 (some ⟨⟨16384, 20480, ⟨true, true, false, false, false⟩, none⟩, 10, some 20, none⟩)

theorem hasSpace_shell : ∃ space, Kernel.shell.HasSpace 10 [20, 21] space := by
  refine ⟨⟨⟨4096, 8192, 8192, 12288, 16384, 20480⟩,
    [⟨4096, 12288, ⟨false, false, false, true, false⟩, some 30⟩,
      ⟨16384, 20480, ⟨true, true, false, false, false⟩, none⟩], by decide⟩, ?_, ?_, rfl⟩
  · exact ⟨_, rfl, rfl, rfl, rfl, _, rfl, rfl, _, rfl, rfl⟩
  · intro a ha
    rcases List.mem_pair.mp ha with rfl | rfl
    · exact ⟨_, rfl, rfl⟩
    · exact ⟨_, rfl, rfl⟩

theorem inv_shell : Inv .shell := by
  refine ⟨?_, ?_, ?_⟩
  · intro p hp
    by_cases h : p = 10
    · subst h
      exact ⟨_, hasSpace_shell⟩
    · simp [Kernel.shell, h] at hp
  · intro p
    have hmmOf : ∀ t, Kernel.shell.mmOf t = if t = 1 then some 10 else none := by
      intro t
      by_cases h : t = 1
      · subst h
        rfl
      · rw [if_neg h, Kernel.mmOf, Kernel.shell]
        simp only [update_of_ne h]
        by_cases h0 : t = 0
        · subst h0
          rfl
        · simp [Kernel.boot, h0]
    by_cases h : p = 10
    · subst h
      exact ⟨{1}, by simp [hmmOf], le_refl 1⟩
    · refine ⟨∅, by simp [hmmOf, Ne.symm h], ?_⟩
      simp [Kernel.mmUsers, Kernel.shell, h]
  · intro pid t ht
    by_cases h : pid = 1
    · subst h
      obtain rfl : 1 = t := Option.some.inj ht
      exact ⟨_, rfl, rfl⟩
    · simp [Kernel.shell, h] at ht

/-- The first process starts the shell. -/
def execShell (k k' : Kernel) : Prop := k = .boot ∧ k' = .shell

theorem keepsInv_execShell : KeepsInv execShell := by
  rintro k k' - ⟨-, rfl⟩
  exact inv_shell

theorem reaches_shell : Reaches execShell .shell := .rest .boot ⟨rfl, rfl⟩

/-! ## Reports -/

/-- `file_varea` prints the memory of a task. For a kernel thread it follows a null pointer. -/
def Prints (dPath : Ptr → Bytes) (k : Kernel) (di : UInt64) (t : Task)
    (memory : Option AddressSpace) : Prop :=
  memory.elim (∀ fuel, fileVarea dPath k di fuel = none) fun space =>
    Returns (fileVarea dPath k di) (toInt di.toNat, report t (space.lines dPath))

theorem prints_of_hasMemory {k : Kernel} {di : UInt64} {pcb : Ptr} {t : Task}
    {memory : Option AddressSpace}
    (hpid : k.pidTask (toInt di.toNat) = some pcb) (ht : k.task pcb = some t)
    (hmem : k.HasMemory t.mm memory) (dPath : Ptr → Bytes) : Prints dPath k di t memory := by
  rcases hmem with ⟨hmm, rfl⟩ | ⟨p, cells, space, hmm, rfl, hspace⟩
  · intro fuel
    simp only [fileVarea, hpid, ht, hmm, Option.bind_eq_bind, Option.bind_some, Option.bind_none]
  · exact returns_fileVarea hpid ht hmm hspace dPath

theorem returns_unknown {k : Kernel} {di : UInt64} (hpid : k.pidTask (toInt di.toNat) = none)
    (dPath : Ptr → Bytes) : Returns (fileVarea dPath k di) (-1, []) :=
  ⟨0, fun fuel _ => by simp only [fileVarea, hpid]⟩

/-- A report is the same in a later state, if the pid still belongs to the same task with the same
memory. -/
theorem Inv.returns_of_spares {k k' : Kernel} (h : Inv k) (hspares : k.Spares k') {di : UInt64}
    (hpid : k'.pidTask (toInt di.toNat) = k.pidTask (toInt di.toNat))
    (htask : ∀ t task, k.task t = some task → k'.task t = some task) {dPath : Ptr → Bytes}
    {r : ℤ × List Bytes} (hr : Returns (fileVarea dPath k di) r) :
    Returns (fileVarea dPath k' di) r := by
  rcases hk : k.pidTask (toInt di.toNat) with _ | pcb
  · rw [hr.unique (returns_unknown hk dPath)]
    exact returns_unknown (hpid.trans hk) dPath
  · obtain ⟨t, ht, -⟩ := h.named _ _ hk
    obtain ⟨memory, hmem⟩ := h.exists_memory ht
    have hprints := prints_of_hasMemory hk ht hmem dPath
    have hprints' :=
      prints_of_hasMemory (hpid.trans hk) (htask _ _ ht) (hspares.hasMemory hmem) dPath
    cases memory with
    | none =>
      obtain ⟨N, hN⟩ := hr
      have hnone : fileVarea dPath k di N = none := hprints N
      rw [hN N le_rfl] at hnone
      simp at hnone
    | some space =>
      rw [hr.unique hprints]
      exact hprints'

/-- In every state that can be reached, `copy_process` returns, and the reports of all other tasks
stay the same, also if it fails. Let `memory` be what is in the memory of the creator, with the
flags of its areas. A new process prints the areas of `memory` that are copied, a new thread all of
them. -/
theorem fileVarea_copyProcess {rest : Kernel → Kernel → Prop} (hrest : KeepsInv rest) {k : Kernel}
    (h : Reaches rest k) (current : Ptr) {cur : Task} (new : NewTask)
    (hcur : k.task current = some cur)
    (hptr : k.task new.ptr = none) (hpid : k.pidTask new.pid = none) (calls : Calls)
    (cloneVm : Bool) (dPath : Ptr → Bytes) :
    ∃ k' ret memory, k.HasMemory cur.mm memory ∧
      Returns (copyProcess calls cloneVm current new k) (k', ret) ∧ Reaches rest k' ∧
      (∀ di : UInt64, k.pidTask (toInt di.toNat) = some current → Prints dPath k di cur memory) ∧
      (∀ di : UInt64, (ret = 0 → toInt di.toNat ≠ new.pid) → ∀ r, Returns (fileVarea dPath k di) r →
        Returns (fileVarea dPath k' di) r) ∧
      (ret = 0 → ∀ di : UInt64, toInt di.toNat = new.pid →
        Prints dPath k' di { cur with pid := new.pid }
          (if cloneVm then memory else memory.map AddressSpace.fork)) := by
  have hinv := h.inv hrest
  obtain ⟨memory, hmem⟩ := hinv.exists_memory hcur
  obtain ⟨k', ret, hrun, hspec⟩ := returns_copyProcess hinv hcur hptr hmem calls cloneVm
  refine ⟨k', ret, memory, hmem, hrun, .copyProcess h hcur hptr hpid hrun, ?_, ?_, ?_⟩
  · intro di hdi
    exact prints_of_hasMemory hdi hcur hmem dPath
  · intro di hdi r hr
    cases hspec with
    | failed _ htask hpidTask _ hspares =>
      refine hinv.returns_of_spares hspares (by rw [hpidTask]) ?_ hr
      intro t task ht
      rw [htask, ht]
    | new htask hpidTask _ hspares =>
      refine hinv.returns_of_spares hspares (by rw [hpidTask, update_of_ne (hdi rfl)]) ?_ hr
      intro t task ht
      have hne : t ≠ new.ptr := by
        rintro rfl
        rw [hptr] at ht
        simp at ht
      rw [htask, update_of_ne hne, ht]
  · rintro rfl di hdi
    cases hspec with
    | failed hret => exact absurd rfl hret
    | @new mm htask hpidTask hmem' =>
      have hpcb : k'.pidTask (toInt di.toNat) = some new.ptr := by rw [hpidTask, hdi, update_self]
      have ht : k'.task new.ptr = some { cur with pid := new.pid, mm := mm } := by
        rw [htask, update_self]
      exact prints_of_hasMemory hpcb ht hmem' dPath

/-- All calls succeed. A copy gets an address behind its original. -/
def Calls.succeed : Calls where
  allocateMm k := (k.mm 11).elim (some 11) fun _ => none
  mmInit := true
  downWriteKillable := false
  ksmFork := 0
  khugepagedFork := 0
  area a :=
    { fatalSignalPending := false
      notEnoughMemory := false
      kmemCacheAlloc := fun k => (k.vma (a + 100)).elim (some (a + 100)) fun _ => none
      vmaDupPolicy := 0
      dupUserfaultfd := 0
      anonVma := 0
      copyPageRange := 0
      kmemCacheAlloc_fresh := by
        intro k p hp
        rcases hk : k.vma (a + 100) with _ | v
        · rw [hk] at hp
          rwa [← Option.some.inj hp]
        · rw [hk] at hp
          simp at hp }
  archDupMmap := 0
  binfmtGone := false
  exitMmap mm vma a := (vma a).filter fun v => v.vmMm ≠ mm
  later := 0
  allocateMm_fresh := by
    intro k p hp
    rcases hk : k.mm 11 with _ | m
    · rw [hk] at hp
      rwa [← Option.some.inj hp]
    · rw [hk] at hp
      simp at hp
  exitMmap_other := by
    intro mm vma a v hv hne
    simp [hv, hne]

theorem fileVarea_copyProcess_shell :
    ∃ k' memory, Kernel.shell.HasMemory (some 10) memory ∧
      Returns (copyProcess .succeed false 1 ⟨2, 2⟩ .shell) (k', 0) ∧
      Prints (fun _ => ascii "/bin/sh") .shell 1 ⟨1, ascii "sh", some 10⟩ memory ∧
      Prints (fun _ => ascii "/bin/sh") k' 2 ⟨2, ascii "sh", some 10⟩
        (memory.map AddressSpace.fork) := by
  have hparentPid : toInt (1 : UInt64).toNat = 1 := by decide
  have hchildPid : toInt (2 : UInt64).toNat = 2 := by decide
  obtain ⟨k', ret, memory, hmem, hrun, -, hparent, -, hchild⟩ :=
    fileVarea_copyProcess keepsInv_execShell
    reaches_shell 1 ⟨2, 2⟩ rfl rfl rfl .succeed false (fun _ => ascii "/bin/sh")
  have hret : ret = 0 := by
    obtain ⟨N, hN⟩ := hrun
    have hsnd : (copyProcess .succeed false 1 ⟨2, 2⟩ .shell (N + 3)).map Prod.snd = some 0 := rfl
    rw [hN (N + 3) (by omega)] at hsnd
    exact Option.some.inj hsnd
  subst hret
  exact ⟨k', memory, hmem, hrun, hparent 1 (by rw [hparentPid]; rfl), hchild rfl 2 hchildPid⟩

end SchoolOS.FileVarea
