import SchoolOS.Fat.Directory
import SchoolOS.Lib.Walk
import Mathlib.Data.Fintype.Card
import Mathlib.Algebra.Order.BigOperators.Group.Finset

/-!
# The invariant of the file system

`Represents fs d chain` relates the three arrays to a directory. `chain i` lists the blocks of entry
`i` in order: it is the walk through the FAT from `start`, its blocks hold the content, all full but
the last. The chains are disjoint, and together they are the blocks whose FAT cell is not `-2`, so
the number of free cells is the number of free blocks of the directory.

`Links` is the part of the invariant that also holds in the middle of a write, when a new block has
been linked and nothing is in it yet.
-/

namespace SchoolOS.Fat

open Function

/-- The walk through the FAT from block `a`: it visits `l` and ends at a cell `-1`. -/
abbrev FatWalk (fat : Fin BLOCK_SIZE → ℤ) (a : Fin BLOCK_SIZE) (l : List (Fin BLOCK_SIZE)) : Prop :=
  Walk (fun x y => fat x = (y : ℕ)) (fun x => fat x = -1) a l

/-- Entry `e` holds the file `f` in the blocks `l`. -/
structure Holds (fat : Fin BLOCK_SIZE → ℤ) (disk : Fin BLOCK_SIZE → CharArray (BYTES + 1))
    (e : FileEntry) (f : File) (l : List (Fin BLOCK_SIZE)) : Prop where
  use : e.use = 1
  name : e.fileName.str = f.name
  size : e.fileSize = f.content.length
  walk : ∃ a : Fin BLOCK_SIZE, e.start = (a : ℕ) ∧ FatWalk fat a l
  content : l.flatMap (fun b => (disk b).str) = f.content
  full : ∀ b ∈ l.dropLast, (disk b).strlen = BYTES
  fits : ∀ b ∈ l, (disk b).strlen ≤ BYTES

/-- The arrays hold the directory `d` in disjoint chains that cover the blocks not marked free. -/
structure Links (fs : FileSystem) (d : Directory) (chain : Fin ENTRY → List (Fin BLOCK_SIZE)) :
    Prop where
  unused : ∀ i, d i = none → (fs.entries i).use = 0 ∧ chain i = []
  holds : ∀ i f, d i = some f → Holds fs.fat fs.disk (fs.entries i) f (chain i)
  disjoint : ∀ i j b, b ∈ chain i → b ∈ chain j → i = j
  owned : ∀ b, fs.fat b ≠ -2 ↔ ∃ i, b ∈ chain i

/-- `Links`, with no block more than the contents need. -/
structure Represents (fs : FileSystem) (d : Directory)
    (chain : Fin ENTRY → List (Fin BLOCK_SIZE)) : Prop extends Links fs d chain where
  length_eq : ∀ i f, d i = some f → (chain i).length = blocks f.content.length

/-! ## Walks through the FAT -/

section FatWalk

variable {fat fat' : Fin BLOCK_SIZE → ℤ} {a : Fin BLOCK_SIZE} {l l' : List (Fin BLOCK_SIZE)}

private theorem fat_link_unique (x y z : Fin BLOCK_SIZE) (hy : fat x = (y : ℕ))
    (hz : fat x = (z : ℕ)) : y = z :=
  Fin.ext (by omega)

private theorem fat_link_not_last (x y : Fin BLOCK_SIZE) (hy : fat x = (y : ℕ)) :
    ¬ fat x = -1 := by
  omega

theorem FatWalk.unique (h : FatWalk fat a l) (h' : FatWalk fat a l') : l = l' :=
  Walk.unique fat_link_unique fat_link_not_last h h'

theorem FatWalk.nodup (h : FatWalk fat a l) : l.Nodup :=
  Walk.nodup fat_link_unique fat_link_not_last h

/-- A walk visits at most every block. -/
theorem FatWalk.length_le (h : FatWalk fat a l) : l.length ≤ BLOCK_SIZE := by
  have hcard := h.nodup.length_le_card
  simpa using hcard

theorem FatWalk.congr_fat (h : FatWalk fat a l) (hfat : ∀ b ∈ l, fat' b = fat b) :
    FatWalk fat' a l :=
  Walk.congr h (fun x hx y hxy => by rw [hfat x hx, hxy]) (fun x hx hs => by rw [hfat x hx, hs])

end FatWalk

/-- A block number is a valid index. -/
@[simp] theorem index?_natCast (b : Fin BLOCK_SIZE) : index? ((b : ℕ) : ℤ) = some b := by
  have hb := b.isLt
  have h : (0 : ℤ) ≤ ((b : ℕ) : ℤ) ∧ ((b : ℕ) : ℤ) < BLOCK_SIZE := by omega
  simp [index?, h]

namespace Holds

variable {fat fat' : Fin BLOCK_SIZE → ℤ} {disk disk' : Fin BLOCK_SIZE → CharArray (BYTES + 1)}
  {e : FileEntry} {f : File} {l : List (Fin BLOCK_SIZE)}

/-- Frame rule: a file only depends on the blocks of its chain. -/
theorem congr (h : Holds fat disk e f l) (hfat : ∀ b ∈ l, fat' b = fat b)
    (hdisk : ∀ b ∈ l, (disk' b).str = (disk b).str) : Holds fat' disk' e f l where
  use := h.use
  name := h.name
  size := h.size
  walk := by
    obtain ⟨a, ha, hwalk⟩ := h.walk
    exact ⟨a, ha, hwalk.congr_fat hfat⟩
  content := by
    rw [← h.content]
    exact List.flatMap_congr hdisk
  full := by
    intro b hb
    have hfull := h.full b hb
    rwa [CharArray.strlen, ← hdisk b (List.mem_of_mem_dropLast hb)] at hfull
  fits := by
    intro b hb
    rw [CharArray.strlen, hdisk b hb]
    exact h.fits b hb

theorem nodup (h : Holds fat disk e f l) : l.Nodup := by
  obtain ⟨a, -, hwalk⟩ := h.walk
  exact hwalk.nodup

/-- The chain of a file, split at its last block. -/
theorem exists_last (h : Holds fat disk e f l) : ∃ init b, l = init ++ [b] := by
  obtain ⟨a, -, hwalk⟩ := h.walk
  exact ⟨l.dropLast, l.getLast hwalk.ne_nil, (List.dropLast_append_getLast hwalk.ne_nil).symm⟩

/-- The last block of a file holds `-1`. -/
theorem fat_last {init : List (Fin BLOCK_SIZE)} {b : Fin BLOCK_SIZE}
    (h : Holds fat disk e f (init ++ [b])) : fat b = -1 := by
  obtain ⟨a, -, hwalk⟩ := h.walk
  exact hwalk.stop_of_append

/-- The size of a file, from the number of its blocks and the fill level of the last one. -/
theorem length_content {init : List (Fin BLOCK_SIZE)} {b : Fin BLOCK_SIZE}
    (h : Holds fat disk e f (init ++ [b])) :
    f.content.length = BYTES * init.length + (disk b).strlen := by
  have hfull := h.full
  rw [List.dropLast_concat] at hfull
  have hinit : (init.flatMap fun b => (disk b).str).length = BYTES * init.length := by
    have hmap : (init.map fun b => (disk b).str.length) = init.map fun _ => BYTES :=
      List.map_congr_left hfull
    rw [List.length_flatMap, hmap, List.map_const', List.sum_replicate, smul_eq_mul, mul_comm]
  rw [← h.content, List.flatMap_append, List.length_append, hinit, List.flatMap_singleton]
  rfl

end Holds

/-- A chain is as long as its content needs exactly if its last block is in use or the only one. -/
theorem blocks_eq_iff {k r : ℕ} (hr : r ≤ BYTES) :
    k + 1 = blocks (BYTES * k + r) ↔ (r = 0 → k = 0) := by
  have hb : BYTES = 32 := rfl
  simp only [blocks, hb] at *
  omega

/-! ## Free blocks -/

/-- The number of FAT cells that hold `-2`. -/
def freeCount (fat : Fin BLOCK_SIZE → ℤ) : ℕ := (Finset.univ.filter fun b => fat b = -2).card

theorem freeBlock_eq_none {fs : FileSystem} (h : fs.freeBlock = none) : freeCount fs.fat = 0 := by
  have hall : ∀ b, ¬ fs.fat b = -2 := by
    simpa [FileSystem.freeBlock, List.find?_eq_none] using h
  simp [freeCount, hall]

theorem freeBlock_eq_some {fs : FileSystem} {b : Fin BLOCK_SIZE} (h : fs.freeBlock = some b) :
    fs.fat b = -2 := by
  simpa using List.find?_some h

theorem freeCount_pos {fat : Fin BLOCK_SIZE → ℤ} {b : Fin BLOCK_SIZE} (h : fat b = -2) :
    0 < freeCount fat :=
  Finset.card_pos.mpr ⟨b, by simp [h]⟩

/-- Taking a free block leaves one free block less. -/
theorem freeCount_take {fat : Fin BLOCK_SIZE → ℤ} {b : Fin BLOCK_SIZE} {v : ℤ} (h : fat b = -2)
    (hv : v ≠ -2) : freeCount (update fat b v) + 1 = freeCount fat := by
  have herase : (Finset.univ.filter fun x => update fat b v x = -2) =
      (Finset.univ.filter fun x => fat x = -2).erase b := by
    ext x
    by_cases hx : x = b
    · subst hx
      simp [hv]
    · simp [hx]
  rw [freeCount, herase]
  exact Finset.card_erase_add_one (by simp [h])

/-- Changing a cell that is not free into one that is not free frees nothing. -/
theorem freeCount_update {fat : Fin BLOCK_SIZE → ℤ} {b : Fin BLOCK_SIZE} {v : ℤ} (h : fat b ≠ -2)
    (hv : v ≠ -2) : freeCount (update fat b v) = freeCount fat := by
  refine congrArg Finset.card (Finset.filter_congr fun x _ => ?_)
  by_cases hx : x = b
  · subst hx
    simp [h, hv]
  · simp [hx]

namespace Links

variable {fs : FileSystem} {d : Directory} {chain : Fin ENTRY → List (Fin BLOCK_SIZE)}

theorem chain_nodup (h : Links fs d chain) (i : Fin ENTRY) : (chain i).Nodup := by
  cases hd : d i with
  | none => simp [(h.unused i hd).2]
  | some f => exact (h.holds i f hd).nodup

/-- A free block lies on no chain. -/
theorem notMem_of_free (h : Links fs d chain) {b : Fin BLOCK_SIZE} (hb : fs.fat b = -2)
    (i : Fin ENTRY) : b ∉ chain i := by
  intro hmem
  exact (h.owned b).mpr ⟨i, hmem⟩ hb

/-- The blocks are the free ones and those of the chains. -/
theorem freeCount_add (h : Links fs d chain) :
    freeCount fs.fat + ∑ i, (chain i).length = BLOCK_SIZE := by
  classical
  have hused : (Finset.univ.filter fun b => ¬ fs.fat b = -2) =
      Finset.univ.biUnion fun i => (chain i).toFinset := by
    ext b
    simpa using h.owned b
  have hcard : (Finset.univ.biUnion fun i => (chain i).toFinset).card =
      ∑ i, (chain i).length := by
    rw [Finset.card_biUnion]
    · exact Finset.sum_congr rfl fun i _ => List.toFinset_card_of_nodup (h.chain_nodup i)
    · intro i _ j _ hij
      rw [Function.onFun, Finset.disjoint_left]
      intro b hi hj
      exact hij (h.disjoint i j b (List.mem_toFinset.mp hi) (List.mem_toFinset.mp hj))
  rw [← hcard, ← hused, freeCount, Finset.card_filter_add_card_filter_not, Finset.card_univ,
    Fintype.card_fin]

end Links

/-- The number of free cells is the number of free blocks of the directory. -/
theorem Represents.freeCount_eq {fs : FileSystem} {d : Directory}
    {chain : Fin ENTRY → List (Fin BLOCK_SIZE)} (h : Represents fs d chain) :
    freeCount fs.fat = d.free := by
  have hlen : ∑ i, (chain i).length = d.used := by
    refine Finset.sum_congr rfl fun i _ => ?_
    cases hd : d i with
    | none => simp [(h.unused i hd).2]
    | some f => simpa using h.length_eq i f hd
  have hsum := h.toLinks.freeCount_add
  rw [Directory.free]
  omega

/-! ## Lookups agree -/

theorem Links.lookup_eq {fs : FileSystem} {d : Directory}
    {chain : Fin ENTRY → List (Fin BLOCK_SIZE)} (h : Links fs d chain) (name : Bytes) :
    fs.lookup name = d.find name := by
  refine congrArg (List.find? · _) (funext fun i => ?_)
  cases hd : d i with
  | none => simp [(h.unused i hd).1]
  | some f =>
    have hh := h.holds i f hd
    simp [hh.use, hh.name]

theorem Links.freeEntry_eq {fs : FileSystem} {d : Directory}
    {chain : Fin ENTRY → List (Fin BLOCK_SIZE)} (h : Links fs d chain) :
    fs.freeEntry = d.vacant := by
  refine congrArg (List.find? · _) (funext fun i => ?_)
  cases hd : d i with
  | none => simp [(h.unused i hd).1]
  | some f => simp [(h.holds i f hd).use]

/-- A new process without saved files holds the empty directory. -/
theorem represents_fresh : Represents fresh Directory.empty fun _ => [] where
  unused := by simp [fresh, startFresh, zeroed]
  holds := by simp [Directory.empty]
  disjoint := by simp
  owned := by simp [fresh, startFresh]
  length_eq := by simp [Directory.empty]

end SchoolOS.Fat
