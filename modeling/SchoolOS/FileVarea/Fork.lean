import Mathlib.Data.Finset.Card
import Mathlib.Data.Finset.Insert
import SchoolOS.FileVarea.DupMmap

/-!
# New tasks

`copy_process` gives a new task no memory, if it is created by a kernel thread, the memory of its
creator with `CLONE_VM`, and otherwise a copy (`returns_copyProcess`). When it fails, it takes
everything back.

It keeps the lists of areas in order, and no `mm_struct` is freed while a task points to it (`Inv`).
-/

namespace SchoolOS.FileVarea

open Function

/-- The `mm_struct` of a task. -/
def Kernel.mmOf (k : Kernel) (t : Ptr) : Option Ptr := (k.task t).bind Task.mm

/-- How many users an `mm_struct` counts. -/
def Kernel.mmUsers (k : Kernel) (p : Ptr) : ℤ := (k.mm p).elim 0 Mm.mmUsers

/-- The invariant of the kernel. The users of an `mm_struct` are at least the tasks that point to
it. -/
structure Inv (k : Kernel) : Prop where
  space : ∀ p, k.mm p ≠ none → ∃ cells space, k.HasSpace p cells space
  users : ∀ p, ∃ users : Finset Ptr, (∀ t, t ∈ users ↔ k.mmOf t = some p) ∧ users.card ≤ k.mmUsers p
  named : ∀ pid t, k.pidTask pid = some t → ∃ task, k.task t = some task ∧ task.pid = pid

section Users

variable {k : Kernel} {t : Ptr} {task : Task} {p : Ptr}

/-- An `mm_struct` that a task points to has a user. -/
theorem Inv.mmUsers_pos (h : Inv k) (ht : k.mmOf t = some p) : 1 ≤ k.mmUsers p := by
  obtain ⟨users, hmem, hcard⟩ := h.users p
  have hpos : 0 < users.card := Finset.card_pos.mpr ⟨t, (hmem t).mpr ht⟩
  omega

/-- The `mm_struct` of a task has not been freed. -/
theorem Inv.exists_mm (h : Inv k) (ht : k.task t = some task) (hmm : task.mm = some p) :
    ∃ m, k.mm p = some m ∧ 1 ≤ m.mmUsers := by
  have hpos := h.mmUsers_pos (t := t) (p := p) (by rw [Kernel.mmOf, ht, Option.bind_some, hmm])
  rw [Kernel.mmUsers] at hpos
  rcases hm : k.mm p with _ | m
  · rw [hm] at hpos
    simp at hpos
  · rw [hm] at hpos
    exact ⟨m, rfl, hpos⟩

theorem Inv.exists_space (h : Inv k) (ht : k.task t = some task) (hmm : task.mm = some p) :
    ∃ cells space, k.HasSpace p cells space := by
  obtain ⟨m, hm, -⟩ := h.exists_mm ht hmm
  exact h.space p (by rw [hm]; simp)

end Users

/-! ## Frames -/

/-- Every address space is still there. -/
def Kernel.Spares (k k' : Kernel) : Prop :=
  ∀ p cells space, k.HasSpace p cells space → k'.HasSpace p cells space

/-- The step from `k` to `k'` keeps every `mm_struct` with its areas. -/
structure Kernel.Preserves (k k' : Kernel) : Prop where
  task : k'.task = k.task
  pidTask : k'.pidTask = k.pidTask
  mm : ∀ p m, k.mm p = some m → k'.mm p = some m
  vma : ∀ a v, k.vma a = some v → k.mm v.vmMm ≠ none → k'.vma a = some v

theorem Kernel.Preserves.spares {k k' : Kernel} (h : k.Preserves k') : k.Spares k' := by
  intro p cells space hspace
  obtain ⟨m, hm, -⟩ := hspace.mm
  refine hspace.congr ?_ ?_
  · intro m' hm'
    exact ⟨m'.mmUsers, h.mm p m' hm'⟩
  · intro a v hv howner
    refine h.vma a v hv ?_
    rw [howner, hm]
    simp

theorem Kernel.spares_of_memory {k k' : Kernel} (hmm : k'.mm = k.mm) (hvma : k'.vma = k.vma) :
    k.Spares k' := by
  intro p cells space hspace
  refine hspace.congr ?_ ?_
  · intro m hm
    exact ⟨m.mmUsers, by rw [hmm, hm]⟩
  · intro a v hv _
    rw [hvma, hv]

theorem Kernel.Spares.trans {k k' k'' : Kernel} (h : k.Spares k') (h' : k'.Spares k'') :
    k.Spares k'' :=
  fun p cells space hspace => h' p cells space (h p cells space hspace)

/-- The step from `k` to `k'` creates the `mm_struct` at `mm` for one user. -/
structure Kernel.Adds (k k' : Kernel) (mm : Ptr) : Prop where
  fresh : k.mm mm = none
  task : k'.task = k.task
  pidTask : k'.pidTask = k.pidTask
  others : ∀ p, p ≠ mm → k'.mm p = k.mm p
  vma : ∀ a v, k.vma a = some v → k'.vma a = some v
  users : ∃ m, k'.mm mm = some m ∧ m.mmUsers = 1

namespace Kernel.Adds

variable {k k' : Kernel} {mm : Ptr}

theorem preserves (h : k.Adds k' mm) : k.Preserves k' := by
  refine ⟨h.task, h.pidTask, ?_, fun a v hv _ => h.vma a v hv⟩
  intro p m hm
  have hne : p ≠ mm := by
    rintro rfl
    rw [h.fresh] at hm
    simp at hm
  rw [h.others p hne, hm]

/-- Giving back a new `mm_struct` leaves everything as it was. -/
theorem mmput (h : k.Adds k' mm) (calls : Calls) :
    ∃ k'', FileVarea.mmput calls mm k' = some k'' ∧ k.Preserves k'' ∧ k''.mm = k.mm := by
  obtain ⟨m, hm, husers⟩ := h.users
  have hmm : (k'.freeMm mm).mm = k.mm := by
    funext p
    by_cases hp : p = mm
    · subst hp
      rw [Kernel.mm_freeMm, update_self, h.fresh]
    · rw [Kernel.mm_freeMm, update_of_ne hp, h.others p hp]
  refine ⟨{ k'.freeMm mm with vma := calls.exitMmap mm k'.vma }, ?_, ⟨h.task, h.pidTask, ?_, ?_⟩,
    hmm⟩
  · rw [FileVarea.mmput, hm, Option.map_some, if_pos (by omega)]
  · intro p m' hm'
    rw [← hm']
    exact congrFun hmm p
  · intro a v hv howner
    refine calls.exitMmap_other mm k'.vma a v (h.vma a v hv) ?_
    rintro rfl
    exact howner h.fresh

end Kernel.Adds

/-! ## `dup_mm` -/

/-- What `dup_mm` does to the kernel. -/
inductive DupMmSpec (k : Kernel) (space : AddressSpace) (k' : Kernel) : Option Ptr → Prop
  | failed : k.Preserves k' → k'.mm = k.mm → DupMmSpec k space k' none
  | new {mm : Ptr} {cells : List Ptr} : k.Adds k' mm → k'.HasSpace mm cells space.fork →
      DupMmSpec k space k' (some mm)

theorem returns_dupMm {k : Kernel} {oldmm : Ptr} {cells : List Ptr} {space : AddressSpace}
    (h : k.HasSpace oldmm cells space) (calls : Calls) :
    ∃ k' r, Returns (dupMm calls oldmm k) (k', r) ∧ DupMmSpec k space k' r := by
  have hself : k.Preserves k := ⟨rfl, rfl, fun _ _ hm => hm, fun _ _ hv _ => hv⟩
  obtain ⟨old, hold, hlayout, -⟩ := h.mm
  rcases halloc : calls.allocateMm k with _ | mm
  · exact ⟨k, none, ⟨0, fun fuel _ => by simp only [dupMm, halloc]⟩, .failed hself rfl⟩
  have hfresh := calls.allocateMm_fresh k mm halloc
  have hne : oldmm ≠ mm := by
    rintro rfl
    rw [hfresh] at hold
    simp at hold
  set new : Mm := { old with mmap := none, mapCount := 0, mmUsers := 1 } with hnew
  set k₀ := k.setMm mm new with hk₀
  by_cases hinit : calls.mmInit = true
  · have hspace : k₀.HasSpace oldmm cells space := by
      refine h.congr ?_ fun a v hv _ => hv
      intro m hm
      exact ⟨m.mmUsers, by rw [hk₀, Kernel.mm_setMm, update_of_ne hne, hm]⟩
    have hmm : k₀.mm mm = some ⟨space.layout, none, 0, 1⟩ := by
      rw [hk₀, Kernel.mm_setMm, update_self, hnew, ← hlayout]
    obtain ⟨k₁, err, ⟨N, hN⟩, hkeeps, husers, hok⟩ := returns_dupMmap hspace hmm calls
    have hadds : k.Adds k₁ mm := by
      refine ⟨hfresh, hkeeps.task, hkeeps.pidTask, ?_, hkeeps.vma, husers⟩
      intro p hp
      rw [hkeeps.others p hp, hk₀, Kernel.mm_setMm, update_of_ne hp]
    by_cases hfails : err ≠ 0 ∨ calls.binfmtGone = true
    · -- `free_pt` gives back what has been copied
      obtain ⟨k₂, hput, hpreserves, hsame⟩ := hadds.mmput calls
      refine ⟨k₂, none, ⟨N, fun fuel hfuel => ?_⟩, .failed hpreserves hsame⟩
      simp only [dupMm, halloc, hold, Option.bind_eq_bind, Option.bind_some, ← hnew, ← hk₀, hinit,
        hN fuel hfuel, hput, if_pos hfails, not_true_eq_false, if_false, Option.map_some]
    · have herr : err = 0 := by
        by_contra herr
        exact hfails (Or.inl herr)
      obtain ⟨cells', hspace'⟩ := hok herr
      refine ⟨k₁, some mm, ⟨N, fun fuel hfuel => ?_⟩, .new hadds hspace'⟩
      simp only [dupMm, halloc, hold, Option.bind_eq_bind, Option.bind_some, ← hnew, ← hk₀, hinit,
        hN fuel hfuel, if_neg hfails, not_true_eq_false, if_false]
  · -- `mm_init` has freed the `mm_struct` that was just allocated
    have hfree : k₀.freeMm mm = k := by
      rw [hk₀, Kernel.freeMm, Kernel.setMm]
      simp [← hfresh]
    refine ⟨k, none, ⟨0, fun fuel _ => ?_⟩, .failed hself rfl⟩
    simp only [dupMm, halloc, hold, Option.bind_eq_bind, Option.bind_some, ← hnew, ← hk₀,
      if_pos hinit, hfree]

/-! ## `copy_mm` -/

/-- The memory of a task, which a kernel thread does not have. -/
def Kernel.HasMemory (k : Kernel) (mm : Option Ptr) (memory : Option AddressSpace) : Prop :=
  (mm = none ∧ memory = none) ∨
    ∃ p cells space, mm = some p ∧ memory = some space ∧ k.HasSpace p cells space

theorem Kernel.Spares.hasMemory {k k' : Kernel} (h : k.Spares k') {mm : Option Ptr}
    {memory : Option AddressSpace} (hmem : k.HasMemory mm memory) : k'.HasMemory mm memory := by
  rcases hmem with hnone | ⟨p, cells, space, hmm, hspace, hhas⟩
  · exact Or.inl hnone
  · exact Or.inr ⟨p, cells, space, hmm, hspace, h p cells space hhas⟩

/-- A task that has been created has the given memory, and counts as a user of it. The kernel can
take the memory back with `mmput`. -/
structure CopyMmSpec (calls : Calls) (k k' : Kernel) (mm : Option Ptr)
    (memory : Option AddressSpace) :
    Prop where
  memory : k'.HasMemory mm memory
  spares : k.Spares k'
  users : ∀ p, k'.mmUsers p = k.mmUsers p + if mm = some p then 1 else 0
  existing : ∀ p, k'.mm p ≠ none → k.mm p ≠ none ∨ mm = some p
  undo : ∃ k'', mm.elim (some k') (fun p => mmput calls p k') = some k'' ∧ k''.task = k'.task ∧
    k''.pidTask = k'.pidTask ∧ k''.mm = k.mm ∧ k.Spares k''

section CopyMm

variable {calls : Calls} {k : Kernel} {tsk : Ptr}

/-- A new kernel thread. -/
theorem copyMmSpec_none (t : Task) : CopyMmSpec calls k (k.setTask tsk t) none none := by
  have hspares : k.Spares (k.setTask tsk t) := Kernel.spares_of_memory rfl rfl
  refine ⟨Or.inl ⟨rfl, rfl⟩, hspares, ?_, fun p hp => Or.inl hp, ⟨_, rfl, rfl, rfl, rfl, hspares⟩⟩
  intro p
  simp [Kernel.mmUsers, Kernel.setTask]

/-- A new thread, which shares the memory. -/
theorem copyMmSpec_share {oldmm : Ptr} {m : Mm} {cells : List Ptr} {space : AddressSpace}
    (h : k.HasSpace oldmm cells space) (hm : k.mm oldmm = some m) (husers : 1 ≤ m.mmUsers)
    (t : Task) :
    CopyMmSpec calls k ((k.setMm oldmm { m with mmUsers := m.mmUsers + 1 }).setTask tsk t)
      (some oldmm) (some space) := by
  set k' := (k.setMm oldmm { m with mmUsers := m.mmUsers + 1 }).setTask tsk t with hk'
  have hself : k'.mm oldmm = some { m with mmUsers := m.mmUsers + 1 } := by
    rw [hk', Kernel.setTask, Kernel.mm_setMm, update_self]
  have hother : ∀ p, p ≠ oldmm → k'.mm p = k.mm p := by
    intro p hp
    rw [hk', Kernel.setTask, Kernel.mm_setMm, update_of_ne hp]
  have hspares : k.Spares k' := by
    intro p cells space hspace
    refine hspace.congr ?_ fun a v hv _ => hv
    intro m' hm'
    by_cases hp : p = oldmm
    · subst hp
      obtain rfl := Option.some.inj (hm.symm.trans hm')
      exact ⟨_, hself⟩
    · exact ⟨m'.mmUsers, by rw [hother p hp, hm']⟩
  refine ⟨Or.inr ⟨oldmm, cells, space, rfl, rfl, hspares _ _ _ h⟩, hspares, ?_, ?_, ?_⟩
  · intro p
    by_cases hp : p = oldmm
    · subst hp
      simp [Kernel.mmUsers, hself, hm]
    · simp [Kernel.mmUsers, hother p hp, Ne.symm hp]
  · intro p hp
    by_cases hold : p = oldmm
    · exact Or.inr (by rw [hold])
    · exact Or.inl (hother p hold ▸ hp)
  · -- the creator itself is a user, so `mmput` does not free anything
    have hmm : (k'.setMm oldmm m).mm = k.mm := by
      funext p
      by_cases hp : p = oldmm
      · subst hp
        rw [Kernel.mm_setMm, update_self, hm]
      · rw [Kernel.mm_setMm, update_of_ne hp, hother p hp]
    refine ⟨k'.setMm oldmm m, ?_, rfl, rfl, hmm, Kernel.spares_of_memory hmm rfl⟩
    rw [Option.elim_some, mmput, hself, Option.map_some, if_neg (by simp; omega)]
    simp

theorem mmput_setTask (calls : Calls) (mm : Ptr) (k : Kernel) (t : Task) :
    mmput calls mm (k.setTask tsk t) = (mmput calls mm k).map fun k => k.setTask tsk t := by
  have hmm : (k.setTask tsk t).mm = k.mm := rfl
  rw [mmput, mmput, hmm, Option.map_map]
  congr 1
  funext m
  by_cases hlast : m.mmUsers - 1 = 0
  · simp only [Function.comp, if_pos hlast]
    rfl
  · simp only [Function.comp, if_neg hlast]
    rfl

/-- A new process, with memory of its own. -/
theorem copyMmSpec_new {mm : Ptr} {k' : Kernel} {cells : List Ptr} {space : AddressSpace}
    (hadds : k.Adds k' mm) (h : k'.HasSpace mm cells space) (t : Task) :
    CopyMmSpec calls k (k'.setTask tsk t) (some mm) (some space) := by
  have hset : k'.Spares (k'.setTask tsk t) := Kernel.spares_of_memory rfl rfl
  obtain ⟨m, hm, husers⟩ := hadds.users
  refine ⟨Or.inr ⟨mm, cells, space, rfl, rfl, hset _ _ _ h⟩, hadds.preserves.spares.trans hset, ?_,
    ?_, ?_⟩
  · intro p
    by_cases hp : p = mm
    · subst hp
      simp [Kernel.mmUsers, Kernel.setTask, hm, husers, hadds.fresh]
    · simp [Kernel.mmUsers, Kernel.setTask, hadds.others p hp, Ne.symm hp]
  · intro p hp
    by_cases hnew : p = mm
    · exact Or.inr (by rw [hnew])
    · exact Or.inl (hadds.others p hnew ▸ hp)
  · obtain ⟨k'', hput, hpreserves, hmm⟩ := hadds.mmput calls
    refine ⟨k''.setTask tsk t, ?_, ?_, ?_, hmm,
      hpreserves.spares.trans (Kernel.spares_of_memory rfl rfl)⟩
    · rw [Option.elim_some, mmput_setTask, hput, Option.map_some]
    · rw [Kernel.task_setTask, Kernel.task_setTask, hpreserves.task, hadds.task]
    · exact hpreserves.pidTask.trans hadds.pidTask.symm

/-- `copy_mm` returns. It either fails and leaves no trace, or gives the new task its memory. -/
theorem returns_copyMm {current : Ptr} {cur t : Task} {memory : Option AddressSpace}
    (hcur : k.task current = some cur) (ht : k.task tsk = some t) (h : k.HasMemory cur.mm memory)
    (husers : ∀ p, cur.mm = some p → 1 ≤ k.mmUsers p) (calls : Calls) (cloneVm : Bool) :
    ∃ k' ret, Returns (copyMm calls cloneVm current tsk k) (k', ret) ∧ k'.pidTask = k.pidTask ∧
      ((ret ≠ 0 ∧ (∃ t', k'.task = update k.task tsk (some t')) ∧ k'.mm = k.mm ∧ k.Spares k') ∨
        (ret = 0 ∧ ∃ mm, k'.task = update k.task tsk (some { t with mm := mm }) ∧
          CopyMmSpec calls k k' mm
            (if cloneVm then memory else memory.map AddressSpace.fork))) := by
  rcases h with ⟨hmm, rfl⟩ | ⟨oldmm, cells, space, hmm, rfl, hspace⟩
  · refine ⟨k.setTask tsk { t with mm := none }, 0, ⟨0, fun fuel _ => ?_⟩, rfl,
      Or.inr ⟨rfl, none, rfl, ?_⟩⟩
    · simp only [copyMm, hcur, ht, hmm, Option.bind_eq_bind, Option.bind_some]
    · rw [Option.map_none, ite_self]
      exact copyMmSpec_none _
  obtain ⟨m, hm, -⟩ := hspace.mm
  cases cloneVm with
  | true =>
    have hpos : 1 ≤ m.mmUsers := by
      have := husers oldmm hmm
      rwa [Kernel.mmUsers, hm] at this
    refine ⟨(k.setMm oldmm { m with mmUsers := m.mmUsers + 1 }).setTask tsk
      { t with mm := some oldmm }, 0,
      ⟨0, fun fuel _ => ?_⟩, rfl, Or.inr ⟨rfl, some oldmm, rfl, copyMmSpec_share hspace hm hpos _⟩⟩
    simp only [copyMm, hcur, ht, hmm, hm, Option.bind_eq_bind, Option.bind_some, if_true]
  | false =>
    have hset : k.Spares (k.setTask tsk { t with mm := none }) := Kernel.spares_of_memory rfl rfl
    obtain ⟨k₁, r, ⟨N, hN⟩, hspec⟩ := returns_dupMm (hset _ _ _ hspace) calls
    cases hspec with
    | failed hpreserves hsame =>
      refine ⟨k₁, -ENOMEM, ⟨N, fun fuel hfuel => ?_⟩, hpreserves.pidTask,
        Or.inl ⟨by decide, ⟨_, hpreserves.task⟩, hsame, hset.trans hpreserves.spares⟩⟩
      simp only [copyMm, hcur, ht, hmm, hN fuel hfuel, Option.bind_eq_bind, Option.bind_some,
        Bool.false_eq_true, if_false]
    | @new mm cells' hadds hnew =>
      -- setting `tsk->mm` twice is setting it once
      have hadds' : k.Adds { k₁ with task := k.task } mm :=
        ⟨hadds.fresh, rfl, hadds.pidTask, hadds.others, hadds.vma, hadds.users⟩
      have htask : k₁.setTask tsk { t with mm := some mm } =
          Kernel.setTask { k₁ with task := k.task } tsk { t with mm := some mm } := by
        rw [Kernel.setTask, Kernel.setTask, hadds.task, Kernel.task_setTask, update_idem]
      have hback : k₁.Spares { k₁ with task := k.task } := Kernel.spares_of_memory rfl rfl
      refine ⟨k₁.setTask tsk { t with mm := some mm }, 0, ⟨N, fun fuel hfuel => ?_⟩, hadds.pidTask,
        Or.inr ⟨rfl, some mm, ?_, ?_⟩⟩
      · simp only [copyMm, hcur, ht, hmm, hN fuel hfuel, Option.bind_eq_bind, Option.bind_some,
          Bool.false_eq_true, if_false]
      · rw [htask]
        rfl
      · rw [htask]
        exact copyMmSpec_new hadds' (hback _ _ _ hnew) _

end CopyMm

/-! ## `copy_process` -/

/-- What `copy_process` does to the kernel. -/
inductive CopyProcessSpec (k : Kernel) (cur : Task) (new : NewTask) (memory : Option AddressSpace)
    (k' : Kernel) : ℤ → Prop
  | failed {ret : ℤ} : ret ≠ 0 → k'.task = k.task → k'.pidTask = k.pidTask → k'.mm = k.mm →
      k.Spares k' →
      CopyProcessSpec k cur new memory k' ret
  | new {mm : Option Ptr} :
      k'.task = update k.task new.ptr (some { cur with pid := new.pid, mm := mm }) →
      k'.pidTask = update k.pidTask new.pid (some new.ptr) → k'.HasMemory mm memory → k.Spares k' →
      (∀ p, k'.mmUsers p = k.mmUsers p + if mm = some p then 1 else 0) →
      (∀ p, k'.mm p ≠ none → k.mm p ≠ none ∨ mm = some p) → CopyProcessSpec k cur new memory k' 0

/-- Every task has memory, or is a kernel thread. -/
theorem Inv.exists_memory {k : Kernel} (h : Inv k) {t : Ptr} {task : Task}
    (ht : k.task t = some task) :
    ∃ memory, k.HasMemory task.mm memory := by
  rcases hmm : task.mm with _ | p
  · exact ⟨none, Or.inl ⟨rfl, rfl⟩⟩
  · obtain ⟨cells, space, hspace⟩ := h.exists_space ht hmm
    exact ⟨some space, Or.inr ⟨p, cells, space, rfl, rfl, hspace⟩⟩

theorem returns_copyProcess {k : Kernel} {current : Ptr} {cur : Task} {new : NewTask}
    {memory : Option AddressSpace} (h : Inv k) (hcur : k.task current = some cur)
    (hptr : k.task new.ptr = none) (hmem : k.HasMemory cur.mm memory) (calls : Calls)
    (cloneVm : Bool) :
    ∃ k' ret, Returns (copyProcess calls cloneVm current new k) (k', ret) ∧
      CopyProcessSpec k cur new
        (if cloneVm then memory else memory.map AddressSpace.fork) k' ret := by
  set k₀ := k.setTask new.ptr { cur with pid := new.pid } with hk₀
  have hne : current ≠ new.ptr := by
    intro heq
    rw [heq, hptr] at hcur
    simp at hcur
  have hspares : k.Spares k₀ := Kernel.spares_of_memory rfl rfl
  have hcur₀ : k₀.task current = some cur := by
    rw [hk₀, Kernel.task_setTask, update_of_ne hne, hcur]
  have hnew₀ : k₀.task new.ptr = some { cur with pid := new.pid } := by
    rw [hk₀, Kernel.task_setTask, update_self]
  have husers : ∀ p, cur.mm = some p → 1 ≤ k₀.mmUsers p := by
    intro p hp
    exact h.mmUsers_pos (t := current) (by rw [Kernel.mmOf, hcur, Option.bind_some, hp])
  -- removing the new task gives the tasks of `k`
  have hremove : ∀ t : Task, update (update k₀.task new.ptr (some t)) new.ptr none = k.task := by
    intro t
    rw [update_idem, hk₀, Kernel.task_setTask, update_idem, ← hptr, update_eq_self]
  obtain ⟨k₁, ret, ⟨N, hN⟩, hpid, ⟨hret, ⟨t', htask⟩, hmm, hspares₁⟩ | ⟨rfl, mm, htask, hspec⟩⟩ :=
    returns_copyMm hcur₀ hnew₀ (hspares.hasMemory hmem) husers calls cloneVm
  · refine ⟨k₁.freeTask new.ptr, ret, ⟨N, fun fuel hfuel => ?_⟩,
      .failed hret ?_ hpid hmm ((hspares.trans hspares₁).trans (Kernel.spares_of_memory rfl rfl))⟩
    · simp only [copyProcess, hcur, ← hk₀, hN fuel hfuel, if_pos hret, Option.bind_eq_bind,
        Option.bind_some]
    · rw [Kernel.task_freeTask, htask, hremove]
  have hnew₁ : k₁.task new.ptr = some { cur with pid := new.pid, mm := mm } := by
    rw [htask, update_self]
  by_cases hlater : calls.later = 0
  · have hattach : k₁.Spares { k₁ with pidTask := update k₁.pidTask new.pid (some new.ptr) } :=
      Kernel.spares_of_memory rfl rfl
    refine ⟨{ k₁ with pidTask := update k₁.pidTask new.pid (some new.ptr) }, 0,
      ⟨N, fun fuel hfuel => ?_⟩, .new ?_ ?_ (hattach.hasMemory hspec.memory)
        ((hspares.trans hspec.spares).trans hattach) hspec.users hspec.existing⟩
    · simp only [copyProcess, hcur, ← hk₀, hN fuel hfuel, hlater, Option.bind_eq_bind,
        Option.bind_some, ne_eq, not_true_eq_false, if_false]
    · rw [htask, hk₀, Kernel.task_setTask, update_idem]
    · rw [hpid]
      rfl
  · obtain ⟨k₂, hundo, htask₂, hpid₂, hmm₂, hspares₂⟩ := hspec.undo
    refine ⟨k₂.freeTask new.ptr, calls.later, ⟨N, fun fuel hfuel => ?_⟩,
      .failed hlater ?_ (hpid₂.trans hpid) hmm₂
        ((hspares.trans hspares₂).trans (Kernel.spares_of_memory rfl rfl))⟩
    · simp only [copyProcess, hcur, ← hk₀, hN fuel hfuel, hlater, hnew₁, hundo, Option.bind_eq_bind,
        Option.bind_some, ne_eq, not_true_eq_false, not_false_eq_true, if_false, if_true]
    · rw [Kernel.task_freeTask, htask₂, htask, hremove]

section NewTask

variable {k k' : Kernel} {tsk : Ptr} {t : Task}

/-- A new task is one more user of its `mm_struct`. -/
theorem Inv.users_update (h : Inv k) (hnew : k.task tsk = none)
    (htask : k'.task = update k.task tsk (some t))
    (husers : ∀ p, k'.mmUsers p = k.mmUsers p + if t.mm = some p then 1 else 0) (p : Ptr) :
    ∃ users : Finset Ptr, (∀ a, a ∈ users ↔ k'.mmOf a = some p) ∧ users.card ≤ k'.mmUsers p := by
  obtain ⟨users, hmem, hcard⟩ := h.users p
  have hold : tsk ∉ users := by
    rw [hmem, Kernel.mmOf, hnew]
    simp
  have hother : ∀ a, a ≠ tsk → k'.mmOf a = k.mmOf a := by
    intro a ha
    rw [Kernel.mmOf, Kernel.mmOf, htask, update_of_ne ha]
  have hself : k'.mmOf tsk = t.mm := by
    rw [Kernel.mmOf, htask, update_self, Option.bind_some]
  by_cases hp : t.mm = some p
  · refine ⟨insert tsk users, ?_, ?_⟩
    · intro a
      by_cases ha : a = tsk
      · subst ha
        simp [hself, hp]
      · simp [ha, hother a ha, hmem]
    · rw [Finset.card_insert_of_notMem hold, husers p, if_pos hp]
      push_cast
      omega
  · refine ⟨users, ?_, ?_⟩
    · intro a
      by_cases ha : a = tsk
      · subst ha
        simp [hself, hp, hold]
      · rw [hother a ha]
        exact hmem a
    · rw [husers p, if_neg hp, add_zero]
      exact hcard

/-- A new task is found under its pid. -/
theorem Inv.named_update (h : Inv k) (hnew : k.task tsk = none)
    (htask : k'.task = update k.task tsk (some t)) {pid : ℤ}
    (hpid : k'.pidTask = update k.pidTask pid (some tsk)) (ht : t.pid = pid) (pid' : ℤ) (a : Ptr)
    (ha : k'.pidTask pid' = some a) : ∃ task, k'.task a = some task ∧ task.pid = pid' := by
  rw [hpid] at ha
  by_cases hsame : pid' = pid
  · subst hsame
    rw [update_self] at ha
    obtain rfl := Option.some.inj ha
    exact ⟨t, by rw [htask, update_self], ht⟩
  · rw [update_of_ne hsame] at ha
    obtain ⟨task, hold, hpid'⟩ := h.named pid' a ha
    have hne : a ≠ tsk := by
      rintro rfl
      rw [hnew] at hold
      simp at hold
    exact ⟨task, by rw [htask, update_of_ne hne, hold], hpid'⟩

end NewTask

/-- `copy_process` keeps the invariant. -/
theorem CopyProcessSpec.inv {k k' : Kernel} {cur : Task} {new : NewTask}
    {memory : Option AddressSpace}
    {ret : ℤ} (h : CopyProcessSpec k cur new memory k' ret) (hinv : Inv k)
    (hptr : k.task new.ptr = none) :
    Inv k' := by
  cases h with
  | failed _ htask hpid hmm hspares =>
    refine ⟨?_, ?_, ?_⟩
    · intro p hp
      obtain ⟨cells, space, hspace⟩ := hinv.space p (hmm ▸ hp)
      exact ⟨cells, space, hspares _ _ _ hspace⟩
    · intro p
      simp only [Kernel.mmOf, Kernel.mmUsers, htask, hmm]
      exact hinv.users p
    · intro pid t hpidTask
      rw [htask]
      exact hinv.named pid t (hpid ▸ hpidTask)
  | @new mm htask hpid hmem hspares husers hexisting =>
    refine ⟨?_, ?_, ?_⟩
    · intro p hp
      rcases hexisting p hp with hold | rfl
      · obtain ⟨cells, space, hspace⟩ := hinv.space p hold
        exact ⟨cells, space, hspares _ _ _ hspace⟩
      · rcases hmem with ⟨hnone, -⟩ | ⟨q, cells, space, hq, -, hspace⟩
        · simp at hnone
        · obtain rfl := Option.some.inj hq
          exact ⟨cells, space, hspace⟩
    · exact hinv.users_update hptr htask husers
    · exact hinv.named_update hptr htask hpid rfl

end SchoolOS.FileVarea
