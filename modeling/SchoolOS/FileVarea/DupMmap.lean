import SchoolOS.FileVarea.AddressSpace

/-!
# Copying the areas

`dup_mmap` walks along the list of the parent and appends a copy of every area to the list of the
child, through the pointer `pprev` to the end of that list. It may be interrupted or run out of
memory in the middle of the list.

Whatever happens, the memory that was in use before is unchanged (`Kernel.Keeps`). When it succeeds,
the list of the child is the one of `AddressSpace.fork` (`returns_dupMmap`).
-/

namespace SchoolOS.FileVarea

open Function

/-- The step from `k` to `k'` only writes to new areas and to the `mm_struct` at `mm`. -/
structure Kernel.Keeps (k k' : Kernel) (mm : Ptr) : Prop where
  task : k'.task = k.task
  pidTask : k'.pidTask = k.pidTask
  others : ∀ p, p ≠ mm → k'.mm p = k.mm p
  vma : ∀ a v, k.vma a = some v → k'.vma a = some v

/-! ## Linking in one area -/

/-- The list of the child, which starts at `mm`, has the new areas `new`. `k` is the kernel before
`dup_mmap`, where `mm` holds `m`. -/
structure Linked (k : Kernel) (mm : Ptr) (m : Mm) (new : List Ptr) (s : Dup) : Prop where
  keeps : k.Keeps s.kernel mm
  fresh : ∀ a ∈ new, k.vma a = none
  nodup : new.Nodup
  head : s.kernel.mm mm = some { m with mmap := new.head?, mapCount := new.length }
  list : DList s.kernel.links none new.head? new
  owner : ∀ a ∈ new, ∃ v, s.kernel.vma a = some v ∧ v.vmMm = mm
  prev : s.prev = new.getLast?
  pprev : s.pprev = new.getLast?.elim (.mmap mm) .vmNext

/-- The new area when it is linked in. -/
def linkedArea (mm : Ptr) (prev : Option Ptr) (v : VmArea) : VmArea :=
  { v with
    vmMm := mm
    vmFlags := { v.vmFlags with locked := false, lockOnFault := false }
    vmNext := none
    vmPrev := prev }

section Link

variable {k : Kernel} {mm : Ptr} {m : Mm} {new : List Ptr} {s : Dup} {tmp : Ptr}

/-- A pointer to free memory is not in the list. -/
theorem Linked.notMem (h : Linked k mm m new s) (htmp : s.kernel.vma tmp = none) : tmp ∉ new := by
  intro hmem
  obtain ⟨w, hw, -⟩ := h.owner tmp hmem
  rw [htmp] at hw
  simp at hw

/-- The new area and the last area of the list are not areas of the parent. -/
theorem Linked.not_parent (h : Linked k mm m new s) (htmp : s.kernel.vma tmp = none) {a : Ptr}
    {w : VmArea} (hw : k.vma a = some w) : a ≠ tmp ∧ new.getLast? ≠ some a := by
  constructor
  · rintro rfl
    rw [h.keeps.vma a w hw] at htmp
    simp at htmp
  · intro hz
    rw [h.fresh a (List.mem_of_getLast? hz)] at hw
    simp at hw

/-- The memory after `link`: a new area, and a new pointer in the last area of the list or in
`mm`. -/
theorem Linked.link_eq (h : Linked k mm m new s) (htmp : s.kernel.vma tmp = none) (v : VmArea) :
    ∃ s', Dup.link mm tmp { s with kernel := s.kernel.setVma tmp v } = some s' ∧
      s'.kernel.task = s.kernel.task ∧ s'.kernel.pidTask = s.kernel.pidTask ∧
      s'.kernel.mm = update s.kernel.mm mm
        (some { m with mmap := (new ++ [tmp]).head?, mapCount := (new ++ [tmp]).length }) ∧
      (∀ a, s'.kernel.vma a = if a = tmp then some (linkedArea mm s.prev v)
        else if new.getLast? = some a then (s.kernel.vma a).map fun w =>
          { w with vmNext := some tmp }
        else s.kernel.vma a) ∧
      s'.mpnt = s.mpnt ∧ s'.out = s.out ∧ s'.prev = some tmp ∧ s'.pprev = .vmNext tmp := by
  rcases hlast : new.getLast? with _ | z
  · -- the first area: `pprev` is `&mm->mmap`
    obtain rfl := List.getLast?_eq_none_iff.mp hlast
    have hpprev : s.pprev = .mmap mm := h.pprev
    refine ⟨{ s with
      kernel := (s.kernel.setVma tmp (linkedArea mm s.prev v)).setMm mm
        { m with mmap := some tmp, mapCount := 1 }
      pprev := .vmNext tmp
      prev := some tmp }, ?_, rfl, rfl, rfl, ?_, rfl, rfl, rfl, rfl⟩
    · simp [Dup.link, Kernel.store, Kernel.setVma, Kernel.setMm, linkedArea, hpprev, h.head]
    · intro a
      simp [Kernel.setVma, Kernel.setMm, update_apply]
  · -- a later area: `pprev` is `&z->vm_next` of the last area so far
    have hz : z ∈ new := List.mem_of_getLast? hlast
    obtain ⟨w, hw, -⟩ := h.owner z hz
    have hne : z ≠ tmp := fun heq => h.notMem htmp (heq ▸ hz)
    have hpprev : s.pprev = .vmNext z := by rw [h.pprev, hlast]; rfl
    refine ⟨{ s with
      kernel := ((s.kernel.setVma z { w with vmNext := some tmp }).setVma tmp
        (linkedArea mm s.prev v)).setMm mm { m with mmap := new.head?, mapCount := new.length + 1 }
      pprev := .vmNext tmp
      prev := some tmp }, ?_, rfl, rfl, ?_, ?_, rfl, rfl, rfl, rfl⟩
    · simp [Dup.link, Kernel.store, Kernel.setVma, Kernel.setMm, linkedArea, hpprev, h.head, hne,
        hw, update_comm hne.symm]
    · cases new with
      | nil => simp at hz
      | cons c new => simp [Kernel.setVma, Kernel.setMm]
    · intro a
      by_cases haz : a = z
      · subst haz
        simp [Kernel.setVma, Kernel.setMm, hne, hw]
      · simp [Kernel.setVma, Kernel.setMm, update_apply, haz, Ne.symm haz]

/-- A new area becomes the last one of the list. -/
theorem Linked.link (h : Linked k mm m new s) (htmp : s.kernel.vma tmp = none) (v : VmArea) :
    ∃ s', Dup.link mm tmp { s with kernel := s.kernel.setVma tmp v } = some s' ∧
      Linked k mm m (new ++ [tmp]) s' ∧ s'.mpnt = s.mpnt ∧ s'.out = s.out ∧
      (new ++ [tmp]).filterMap s'.kernel.area =
        new.filterMap s.kernel.area ++ [(linkedArea mm s.prev v).toArea] := by
  obtain ⟨s', hlink, htask, hpid, hmm, hvma, hmpnt, hout, hprev, hpprev⟩ := h.link_eq htmp v
  have hnotMem := h.notMem htmp
  have hself : s'.kernel.vma tmp = some (linkedArea mm s.prev v) := by rw [hvma, if_pos rfl]
  have hother : ∀ a, a ≠ tmp → new.getLast? ≠ some a → s'.kernel.vma a = s.kernel.vma a := by
    intro a ha hlast
    rw [hvma, if_neg ha, if_neg hlast]
  have hlast : ∀ z, z ≠ tmp → new.getLast? = some z →
      s'.kernel.vma z = (s.kernel.vma z).map fun w => { w with vmNext := some tmp } := by
    intro z hz hlast
    rw [hvma, if_neg hz, if_pos hlast]
  have harea : ∀ a, a ≠ tmp → s'.kernel.area a = s.kernel.area a := by
    intro a ha
    by_cases hz : new.getLast? = some a
    · rw [Kernel.area, Kernel.area, hlast a ha hz, Option.map_map]
      rfl
    · rw [Kernel.area, Kernel.area, hother a ha hz]
  refine ⟨s', hlink, ⟨?_, ?_, ?_, ?_, ?_, ?_, ?_, ?_⟩, hmpnt, hout, ?_⟩
  · refine ⟨htask.trans h.keeps.task, hpid.trans h.keeps.pidTask, ?_, ?_⟩
    · intro p hp
      rw [hmm, update_of_ne hp, h.keeps.others p hp]
    · intro a w hw
      obtain ⟨hne, hnotLast⟩ := h.not_parent htmp hw
      rw [hother a hne hnotLast]
      exact h.keeps.vma a w hw
  · intro a ha
    rcases List.mem_append.mp ha with ha | ha
    · exact h.fresh a ha
    · obtain rfl := List.mem_singleton.mp ha
      rcases hk : k.vma a with _ | w
      · rfl
      · exact absurd rfl (h.not_parent htmp hk).1
  · refine h.nodup.append (List.nodup_singleton tmp) ?_
    rw [List.disjoint_singleton]
    exact hnotMem
  · rw [hmm, update_self]
  · have hhead : (new ++ [tmp]).head? = new.head?.or (some tmp) := by
      cases new <;> rfl
    rw [hhead]
    refine h.list.concat h.nodup ?_ ?_ ?_
    · rw [Kernel.links, hself, h.prev, Option.or_none]
      rfl
    · intro z hz
      have hne : z ≠ tmp := fun heq => hnotMem (heq ▸ List.mem_of_getLast? hz)
      rw [Kernel.links, Kernel.links, hlast z hne hz, Option.map_map, Option.map_map]
      rfl
    · intro a ha hnotLast
      rw [Kernel.links, Kernel.links, hother a (fun heq => hnotMem (heq ▸ ha)) hnotLast]
  · intro a ha
    rcases List.mem_append.mp ha with ha | ha
    · have hne : a ≠ tmp := fun heq => hnotMem (heq ▸ ha)
      obtain ⟨w, hw, howner⟩ := h.owner a ha
      by_cases hz : new.getLast? = some a
      · exact ⟨{ w with vmNext := some tmp }, by rw [hlast a hne hz, hw]; rfl, howner⟩
      · exact ⟨w, by rw [hother a hne hz, hw], howner⟩
    · obtain rfl := List.mem_singleton.mp ha
      exact ⟨_, hself, rfl⟩
  · rw [hprev, List.getLast?_concat]
  · rw [hpprev, List.getLast?_concat]
    rfl
  · rw [List.filterMap_append]
    congr 1
    · exact List.filterMap_congr fun a ha => harea a fun heq => hnotMem (heq ▸ ha)
    · rw [List.filterMap_cons_some (b := (linkedArea mm s.prev v).toArea), List.filterMap_nil]
      rw [Kernel.area, hself, Option.map_some]

theorem Linked.goOut (h : Linked k mm m new s) (retval : ℤ) :
    Linked k mm m new (s.goOut s.kernel retval) :=
  ⟨h.keeps, h.fresh, h.nodup, h.head, h.list, h.owner, h.prev, h.pprev⟩

end Link

/-! ## The loop -/

theorem Kernel.vmAreaFree_setVma {k : Kernel} {p : Ptr} (h : k.vma p = none) (v : VmArea) :
    (k.setVma p v).vmAreaFree p = k := by
  simp [Kernel.vmAreaFree, Kernel.setVma, ← h]

/-- The copy of the area at `a` in a new process, if it is copied. -/
def Kernel.copied (k : Kernel) (a : Ptr) : Option Area := (k.area a).bind Area.onFork

/-- `rest` is still to be copied. If the loop is left early, an error is returned. -/
def Copying (k : Kernel) (mm : Ptr) (m : Mm) (cells rest : List Ptr) (s : Dup) : Prop :=
  ∃ new, Linked k mm m new s ∧
    ((s.out = true ∧ s.retval ≠ 0) ∨
      (s.out = false ∧ (∃ prev, DList k.links prev s.mpnt rest) ∧ (∀ a ∈ rest, k.vma a ≠ none) ∧
        new.filterMap s.kernel.area ++ rest.filterMap k.copied = cells.filterMap k.copied))

section Loop

variable {k : Kernel} {mm : Ptr} {m : Mm} {new : List Ptr} {s : Dup}

/-- The iteration for an area that is copied either gives up or links in the copy. -/
theorem Linked.copyArea (h : Linked k mm m new s) (hout : s.out = false) (c : AreaCalls)
    (v : VmArea) :
    ∃ s' new', s.copyArea c mm v = some s' ∧ Linked k mm m new' s' ∧
      ((s'.out = true ∧ s'.retval ≠ 0) ∨
        (s'.out = false ∧ s'.mpnt = s.mpnt ∧
          new'.filterMap s'.kernel.area =
            new.filterMap s.kernel.area ++ [(linkedArea mm s.prev v).toArea])) := by
  have hEINTR : -EINTR ≠ 0 := by decide
  have hENOMEM : -ENOMEM ≠ 0 := by decide
  unfold Dup.copyArea
  by_cases hsignal : c.fatalSignalPending = true
  · rw [if_pos hsignal]
    exact ⟨_, new, rfl, h.goOut _, Or.inl ⟨rfl, hEINTR⟩⟩
  rw [if_neg hsignal]
  by_cases hmemory : (v.vmFlags.account && c.notEnoughMemory) = true
  · rw [if_pos hmemory]
    exact ⟨_, new, rfl, h.goOut _, Or.inl ⟨rfl, hENOMEM⟩⟩
  rw [if_neg hmemory, vmAreaDup]
  rcases htmp : c.kmemCacheAlloc s.kernel with _ | tmp
  · exact ⟨_, new, rfl, h.goOut _, Or.inl ⟨rfl, hENOMEM⟩⟩
  have hfresh := c.kmemCacheAlloc_fresh s.kernel tmp htmp
  simp only [Option.map_some]
  by_cases hfails : c.vmaDupPolicy ≠ 0 ∨ c.dupUserfaultfd ≠ 0 ∨ c.anonVma ≠ 0
  · rw [if_pos hfails, Kernel.vmAreaFree_setVma hfresh]
    exact ⟨_, new, rfl, h.goOut _, Or.inl ⟨rfl, hENOMEM⟩⟩
  obtain ⟨s', hlink, hlinked, hmpnt, hout', hareas⟩ := h.link hfresh v
  rw [if_neg hfails, hlink, Option.bind_eq_bind, Option.bind_some]
  by_cases hpages : ¬ v.vmFlags.wipeOnFork = true ∧ c.copyPageRange ≠ 0
  · rw [if_pos hpages]
    exact ⟨_, new ++ [tmp], rfl, hlinked.goOut _, Or.inl ⟨rfl, hpages.2⟩⟩
  · rw [if_neg hpages]
    exact ⟨_, new ++ [tmp], rfl, hlinked, Or.inr ⟨hout'.trans hout, hmpnt, hareas⟩⟩

theorem onFork_of_copied {v : VmArea} (h : v.vmFlags.dontCopy = false) (prev : Option Ptr) :
    v.toArea.onFork = some (linkedArea mm prev v).toArea := by
  rw [Area.onFork, h]
  rfl

/-- One iteration of the loop. -/
theorem Copying.next {cells rest : List Ptr} {a : Ptr} (h : Copying k mm m cells (a :: rest) s)
    (hcond : (s.mpnt.isSome && !s.out) = true) (calls : Calls) :
    ∃ s', Dup.next calls mm s = some s' ∧ Copying k mm m cells rest s' := by
  obtain ⟨new, hlinked, ⟨hout, -⟩ | ⟨hout, ⟨prev, hmpnt, next, hlinks, htail⟩, hmem, hareas⟩⟩ := h
  · simp [hout] at hcond
  obtain ⟨v, hv⟩ := Option.ne_none_iff_exists'.mp (hmem a List.mem_cons_self)
  have hnext : v.vmNext = next := by
    rw [Kernel.links, hv] at hlinks
    exact (Prod.mk.inj (Option.some.inj hlinks)).2
  have harea : k.area a = some v.toArea := by rw [Kernel.area, hv, Option.map_some]
  have hv' := hlinked.keeps.vma a v hv
  have hrest : ∀ b ∈ rest, k.vma b ≠ none := fun b hb => hmem b (List.mem_cons_of_mem a hb)
  cases hcopy : v.vmFlags.dontCopy with
  | true =>
    refine ⟨{ s with mpnt := v.vmNext }, ?_, new, ?_, Or.inr ⟨hout, ⟨some a, ?_⟩, hrest, ?_⟩⟩
    · simp [Dup.next, hmpnt, hv', hcopy, hout]
    · exact ⟨hlinked.keeps, hlinked.fresh, hlinked.nodup, hlinked.head, hlinked.list, hlinked.owner,
        hlinked.prev, hlinked.pprev⟩
    · rw [hnext]
      exact htail
    · have hnone : k.copied a = none := by
        rw [Kernel.copied, harea, Option.bind_some, Area.onFork, if_pos hcopy]
      rw [← hareas, List.filterMap_cons_none hnone]
  | false =>
    obtain ⟨s₁, new', hcopied, hlinked', ⟨hout', hret⟩ | ⟨hout', hmpnt', hareas'⟩⟩ :=
      hlinked.copyArea hout (calls.area a) v
    · refine ⟨s₁, ?_, new', hlinked', Or.inl ⟨hout', hret⟩⟩
      simp [Dup.next, hmpnt, hv', hcopy, hcopied, hout']
    · refine ⟨{ s₁ with mpnt := v.vmNext }, ?_, new', ?_, Or.inr ⟨hout', ⟨some a, ?_⟩, hrest, ?_⟩⟩
      · simp [Dup.next, hmpnt, hv', hcopy, hcopied, hout', hlinked'.keeps.vma a v hv]
      · exact ⟨hlinked'.keeps, hlinked'.fresh, hlinked'.nodup, hlinked'.head, hlinked'.list,
          hlinked'.owner, hlinked'.prev, hlinked'.pprev⟩
      · rw [hnext]
        exact htail
      · have hsome : k.copied a = some (linkedArea mm s.prev v).toArea := by
          rw [Kernel.copied, harea, Option.bind_some, onFork_of_copied hcopy]
        rw [← hareas, List.filterMap_cons_some hsome]
        simp only [hareas', List.append_assoc, List.singleton_append]

/-- `dup_mmap` returns. It keeps the memory that is in use, and if it succeeds, the `mm_struct` at
`mm` has the address space of a new process. -/
theorem returns_dupMmap {oldmm : Ptr} {cells : List Ptr} {space : AddressSpace} {users : ℤ}
    (h : k.HasSpace oldmm cells space)
    (hmm : k.mm mm = some ⟨space.layout, none, 0, users⟩) (calls : Calls) :
    ∃ k' ret, Returns (dupMmap calls mm oldmm k) (k', ret) ∧ k.Keeps k' mm ∧
      (∃ m', k'.mm mm = some m' ∧ m'.mmUsers = users) ∧
      (ret = 0 → ∃ cells', k'.HasSpace mm cells' space.fork) := by
  have hkeeps : k.Keeps k mm := ⟨rfl, rfl, fun _ _ => rfl, fun _ _ hv => hv⟩
  obtain ⟨old, hold, -, -, hlist⟩ := h.mm
  -- a failure before the loop leaves the kernel as it is
  have hfails : ∀ ret : ℤ, ret ≠ 0 → (∀ fuel, dupMmap calls mm oldmm k fuel = some (k, ret)) →
      ∃ k' ret, Returns (dupMmap calls mm oldmm k) (k', ret) ∧ k.Keeps k' mm ∧
        (∃ m', k'.mm mm = some m' ∧ m'.mmUsers = users) ∧
        (ret = 0 → ∃ cells', k'.HasSpace mm cells' space.fork) := by
    intro ret hret hrun
    exact ⟨k, ret, ⟨0, fun fuel _ => hrun fuel⟩, hkeeps, ⟨_, hmm, rfl⟩,
      fun hzero => absurd hzero hret⟩
  by_cases hlock : calls.downWriteKillable
  · exact hfails (-EINTR) (by decide) fun fuel => by simp [dupMmap, hlock]
  by_cases hksm : calls.ksmFork ≠ 0
  · exact hfails calls.ksmFork hksm fun fuel => by simp [dupMmap, hlock, hksm]
  by_cases hhuge : calls.khugepagedFork ≠ 0
  · exact hfails calls.khugepagedFork hhuge fun fuel => by simp [dupMmap, hlock, hksm, hhuge]
  have hcells : ∀ a ∈ cells, k.vma a ≠ none := by
    intro a ha
    obtain ⟨v, hv, -⟩ := h.owner a ha
    rw [hv]
    simp
  -- the loop follows the list of the parent, and is left at its end or with `out`
  obtain ⟨rest, s, ⟨N, hN⟩, ⟨new, hlinked, hend⟩, hcond⟩ := Loop.returns_along
    (fun s => s.mpnt.isSome && !s.out) (Dup.next calls mm)
    (Copying k mm ⟨space.layout, none, 0, users⟩ cells)
    (by
      rintro s ⟨new, -, ⟨hout, -⟩ | ⟨-, ⟨prev, hmpnt⟩, -, -⟩⟩
      · simp [hout]
      · rw [show s.mpnt = none from hmpnt]
        rfl)
    (fun a rest s hs hcond => hs.next hcond calls)
    (l := cells) (s := ⟨k, old.mmap, none, .mmap mm, 0, false⟩)
    ⟨[], ⟨hkeeps, by simp, List.nodup_nil, hmm, rfl, by simp, rfl, rfl⟩,
      Or.inr ⟨rfl, ⟨none, hlist⟩, hcells, by simp⟩⟩
  refine ⟨s.kernel, if s.out then s.retval else calls.archDupMmap, ⟨N, fun fuel hfuel => ?_⟩,
    hlinked.keeps, ⟨_, hlinked.head, rfl⟩, ?_⟩
  · simp only [dupMmap, hlock, hksm, hhuge, hold, hN fuel hfuel, Option.bind_eq_bind,
      Option.bind_some, Bool.false_eq_true, if_false]
  · intro hret
    rcases hend with ⟨hout, hne⟩ | ⟨hout, ⟨prev, hrest⟩, -, hareas⟩
    · rw [if_pos hout] at hret
      exact absurd hret hne
    · -- without `out` the whole list has been copied
      have hmpnt : s.mpnt = none := by
        rw [hout] at hcond
        exact Option.isNone_iff_eq_none.mp (by simpa using hcond)
      have hnil : rest = [] := by
        have hhead := hrest.head_eq
        rw [hmpnt] at hhead
        exact List.head?_eq_none_iff.mp hhead.symm
      refine ⟨new, ⟨⟨_, hlinked.head, rfl, rfl, hlinked.list⟩, hlinked.owner, ?_⟩⟩
      rw [hnil, List.filterMap_nil, List.append_nil] at hareas
      show _ = space.areas.filterMap Area.onFork
      rw [← h.areas, List.filterMap_filterMap]
      exact hareas

end Loop

end SchoolOS.FileVarea
