import SchoolOS.FileVarea.Defs
import SchoolOS.Lib.LinkedList

/-!
# Address spaces

An address space is what the list of areas of a process stands for (`AddressSpace`): the areas in
the order of their addresses. `file_varea` prints the address space of a process
(`returns_fileVarea`). `fork` on address spaces leaves out the areas with `VM_DONTCOPY`, and
`dup_mmap` refines it (`returns_dupMmap`).
-/

namespace SchoolOS.FileVarea

open Function

/-! ## The abstract state -/

/-- The areas of a process, which do not overlap. -/
structure AddressSpace where
  layout : Layout
  areas : List Area
  sorted : areas.Pairwise fun a b => a.vmEnd ≤ b.vmStart

/-- The copy of an area in a new process. -/
def Area.onFork (a : Area) : Option Area :=
  if a.vmFlags.dontCopy then none
  else some { a with vmFlags := { a.vmFlags with locked := false, lockOnFault := false } }

theorem Area.onFork_range {a b : Area} (h : b ∈ a.onFork) :
    b.vmStart = a.vmStart ∧ b.vmEnd = a.vmEnd := by
  unfold Area.onFork at h
  split at h
  · simp at h
  · obtain rfl := Option.some.inj h
    exact ⟨rfl, rfl⟩

/-- The address space of a new process. -/
def AddressSpace.fork (space : AddressSpace) : AddressSpace where
  layout := space.layout
  areas := space.areas.filterMap Area.onFork
  sorted := by
    refine space.sorted.filterMap Area.onFork ?_
    intro a b hab a' ha' b' hb'
    rw [(Area.onFork_range ha').2, (Area.onFork_range hb').1]
    exact hab

/-- The lines between the header and the footer. -/
def AddressSpace.lines (dPath : Ptr → Bytes) (space : AddressSpace) : List Bytes :=
  space.areas.map (areaLine dPath space.layout)

/-- The pointers to the areas before and behind an area. -/
def Kernel.links (k : Kernel) (a : Ptr) : Option (Option Ptr × Option Ptr) :=
  (k.vma a).map fun v => (v.vmPrev, v.vmNext)

def Kernel.area (k : Kernel) (a : Ptr) : Option Area := (k.vma a).map VmArea.toArea

/-- The `mm_struct` at `p` has the areas `cells`, which stand for `space`. -/
structure Kernel.HasSpace (k : Kernel) (p : Ptr) (cells : List Ptr) (space : AddressSpace) :
    Prop where
  mm : ∃ m, k.mm p = some m ∧ m.toLayout = space.layout ∧ m.mapCount = cells.length ∧
    DList k.links none m.mmap cells
  owner : ∀ a ∈ cells, ∃ v, k.vma a = some v ∧ v.vmMm = p
  areas : cells.filterMap k.area = space.areas

/-- A change of the kernel that keeps the `mm_struct` at `p`, up to its number of users, and its
areas. -/
theorem Kernel.HasSpace.congr {k k' : Kernel} {p : Ptr} {cells : List Ptr} {space : AddressSpace}
    (h : k.HasSpace p cells space)
    (hmm : ∀ m, k.mm p = some m → ∃ users, k'.mm p = some { m with mmUsers := users })
    (hvma : ∀ a v, k.vma a = some v → v.vmMm = p → k'.vma a = some v) :
      k'.HasSpace p cells space := by
  obtain ⟨m, hm, hlayout, hcount, hlist⟩ := h.mm
  obtain ⟨users, hm'⟩ := hmm m hm
  have hcells : ∀ a ∈ cells, k'.vma a = k.vma a := by
    intro a ha
    obtain ⟨v, hv, howner⟩ := h.owner a ha
    rw [hv]
    exact hvma a v hv howner
  refine ⟨⟨_, hm', hlayout, hcount, ?_⟩, ?_, ?_⟩
  · refine hlist.congr fun a ha => ?_
    rw [Kernel.links, Kernel.links, hcells a ha]
  · intro a ha
    rw [hcells a ha]
    exact h.owner a ha
  · rw [← h.areas]
    refine List.filterMap_congr fun a ha => ?_
    rw [Kernel.area, Kernel.area, hcells a ha]

/-! ## `file_varea` -/

/-- The loop of `file_varea` prints the areas in the order of the list. -/
theorem Kernel.HasSpace.returns_walk {k : Kernel} {p : Ptr} {cells : List Ptr}
    {space : AddressSpace} (h : k.HasSpace p cells space) (dPath : Ptr → Bytes) :
    ∃ m, k.mm p = some m ∧
      Returns
        (fun fuel => Loop.whileLoop (fun s => s.vm.isSome) (Walk.next dPath k) fuel ⟨m.mmap, []⟩)
        ⟨none, space.lines dPath⟩ := by
  obtain ⟨m, hm, hlayout, -, hlist⟩ := h.mm
  refine ⟨m, hm, ?_⟩
  -- the lines that are printed, and those that are still to be printed
  obtain ⟨rest, s, hrun, ⟨prev, hrest, -, hlines⟩, hend⟩ := Loop.returns_along
    (fun s => s.vm.isSome) (Walk.next dPath k)
    (fun rest s => ∃ prev, DList k.links prev s.vm rest ∧ (∀ a ∈ rest, a ∈ cells) ∧
      s.lines ++ (rest.filterMap k.area).map (areaLine dPath space.layout) = space.lines dPath)
    (by
      rintro s ⟨prev, hvm, -, -⟩
      rw [show s.vm = none from hvm]
      rfl)
    (by
      rintro a rest s ⟨prev, ⟨hvm, next, hlinks, htail⟩, hmem, hlines⟩ -
      obtain ⟨v, hv, howner⟩ := h.owner a (hmem a List.mem_cons_self)
      have hnext : v.vmNext = next := by
        rw [Kernel.links, hv] at hlinks
        exact (Prod.mk.inj (Option.some.inj hlinks)).2
      refine ⟨⟨v.vmNext, s.lines ++ [areaLine dPath m.toLayout v.toArea]⟩, ?_, some a, ?_, ?_, ?_⟩
      · simp only [Walk.next, hvm, hv, howner, hm, Option.bind_eq_bind, Option.bind_some]
      · rw [hnext]
        exact htail
      · exact fun b hb => hmem b (List.mem_cons_of_mem a hb)
      · have harea : k.area a = some v.toArea := by rw [Kernel.area, hv, Option.map_some]
        rw [← hlines, List.filterMap_cons_some harea, List.map_cons, hlayout]
        simp)
    (l := cells) (s := ⟨m.mmap, []⟩)
    ⟨none, hlist, fun _ ha => ha, by rw [h.areas]; rfl⟩
  have hvm : s.vm = none := Option.isNone_iff_eq_none.mp (by simpa using hend)
  have hrest : rest = [] := by
    have hhead := hrest.head_eq
    rw [hvm] at hhead
    exact List.head?_eq_none_iff.mp hhead.symm
  rw [hrest, List.filterMap_nil, List.map_nil, List.append_nil] at hlines
  rw [← hlines, ← hvm]
  exact hrun

/-- What `file_varea` prints for a task. -/
def report (t : Task) (lines : List Bytes) : List Bytes := headerLine t :: lines ++ [footerLine]

theorem returns_fileVarea {k : Kernel} {di : UInt64} {pcb : Ptr} {t : Task} {mm : Ptr}
    {cells : List Ptr}
    {space : AddressSpace} (hpid : k.pidTask (toInt di.toNat) = some pcb) (ht : k.task pcb = some t)
    (hmm : t.mm = some mm) (h : k.HasSpace mm cells space) (dPath : Ptr → Bytes) :
    Returns (fileVarea dPath k di) (toInt di.toNat, report t (space.lines dPath)) := by
  obtain ⟨m, hm, hwalk⟩ := h.returns_walk dPath
  obtain ⟨N, hN⟩ := hwalk
  refine ⟨N, fun fuel hfuel => ?_⟩
  have hrun := hN fuel hfuel
  simp only [fileVarea, hpid, ht, hmm, hm, hrun, Option.bind_eq_bind, Option.bind_some]
  rfl

end SchoolOS.FileVarea
