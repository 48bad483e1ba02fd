import SchoolOS.Fat.FileMap
import SchoolOS.Fat.Write

/-!
# The file system refines a bounded map, and its chains stay intact

`Reachable` are the states of a process that starts without saved files and calls the five
operations with names that fit. Every such state represents a directory with distinct names, so each
call does on `fileMap` what `FileMap.step` says, and the FAT chains satisfy `ChainIntegrity`.
-/

namespace SchoolOS.Fat

open Function

/-! ## Runs -/

/-- A file whose name a call does not give. -/
def Op.Spares (op : Op) (f : File) : Prop := ∀ name ∈ op.name?, f.name ≠ name.bytes

/-- `find` does not return the entry of a file with another name. -/
theorem Directory.find_ne_of_name_ne {d : Directory} {j : Fin ENTRY} {f : File} (hj : d j = some f)
    {name : Bytes} (hname : f.name ≠ name) : d.find name ≠ some j := by
  intro hfind
  obtain ⟨g, hg, hgname⟩ := Directory.find_eq_some hfind
  rw [hj] at hg
  obtain rfl := Option.some.inj hg
  exact hname hgname

/-- Every call is defined on a represented state, does what the directory says, and leaves the
chains of the files alone that it does not name. -/
theorem step_represents_frame {fs : FileSystem} {d : Directory}
    {chain : Fin ENTRY → List (Fin BLOCK_SIZE)} (h : Represents fs d chain) (op : Op) :
    ∃ fs' chain', step op fs = some (fs', (d.step op).2) ∧ Represents fs' (d.step op).1 chain' ∧
      ∀ j f, d j = some f → op.Spares f → chain' j = chain j := by
  cases op with
  | create name =>
    obtain ⟨fs', chain', hcreate, h', hframe⟩ := createFile_represents h name
    exact ⟨fs', chain', congrArg some hcreate, h', fun j f hj _ => hframe j f hj⟩
  | write name content =>
    obtain ⟨fs', chain', hwrite, h', hframe⟩ := writeFile_represents h name content
    exact ⟨fs', chain', hwrite, h', fun j f hj hspares =>
      hframe j (Directory.find_ne_of_name_ne hj (hspares name rfl))⟩
  | read name =>
    exact ⟨fs, chain, by simp [step, Directory.step, readFile_eq h.toLinks], h, fun _ _ _ _ => rfl⟩
  | delete name =>
    obtain ⟨fs', chain', hdelete, h', hframe⟩ := deleteFile_represents h name
    exact ⟨fs', chain', hdelete, h', fun j f hj hspares =>
      hframe j (Directory.find_ne_of_name_ne hj (hspares name rfl))⟩
  | list =>
    exact ⟨fs, chain, by simp [step, Directory.step, listFiles_eq h.toLinks], h, fun _ _ _ _ => rfl⟩

/-- `step_represents_frame`, without the chains. -/
theorem step_represents {fs : FileSystem} {d : Directory}
    {chain : Fin ENTRY → List (Fin BLOCK_SIZE)} (h : Represents fs d chain) (op : Op) :
    ∃ fs' chain', step op fs = some (fs', (d.step op).2) ∧ Represents fs' (d.step op).1 chain' := by
  obtain ⟨fs', chain', hstep, h', -⟩ := step_represents_frame h op
  exact ⟨fs', chain', hstep, h'⟩

theorem step_create (name : CString) (fs : FileSystem) :
    step (.create name) fs = some ((createFile name fs).1, (createFile name fs).2) := rfl

/-- A call leaves the files alone that it does not name. -/
theorem Directory.step_of_spares {d : Directory} {j : Fin ENTRY} {f : File}
    (hj : d j = some f) {op : Op} (hop : op.Spares f) : (d.step op).1 j = some f := by
  have hne : ∀ {name i g}, d.lookup name = some (i, g) → f.name ≠ name → j ≠ i := by
    rintro name i g hlook hname rfl
    exact find_ne_of_name_ne hj hname (lookup_eq_some hlook).1
  cases op with
  | create name =>
    simp only [step, create]
    split
    · exact hj
    · split
      · exact hj
      · rename_i i hvac
        split
        · exact hj
        · have hji : j ≠ i := by
            rintro rfl
            simp [vacant_eq_some hvac] at hj
          exact (update_of_ne hji _ _).trans hj
  | write name content =>
    simp only [step, write]
    split
    · exact hj
    · rename_i i g hlook
      exact (update_of_ne (hne hlook (hop name rfl)) _ _).trans hj
  | read name => exact hj
  | delete name =>
    simp only [step, delete]
    split
    · exact hj
    · rename_i i g hlook
      exact (update_of_ne (hne hlook (hop name rfl)) _ _).trans hj
  | list => exact hj

/-- A run leaves the chains of the files alone that it does not name. -/
theorem run_represents_frame {fs : FileSystem} {d : Directory}
    {chain : Fin ENTRY → List (Fin BLOCK_SIZE)} (h : Represents fs d chain) (ops : List Op) :
    ∃ fs' chain', run ops fs = some (fs', (d.run ops).2) ∧ Represents fs' (d.run ops).1 chain' ∧
      ∀ j f, d j = some f → (∀ op ∈ ops, op.Spares f) → chain' j = chain j := by
  induction ops generalizing fs d chain with
  | nil => exact ⟨fs, chain, rfl, h, fun _ _ _ _ => rfl⟩
  | cons op ops ih =>
    obtain ⟨fs₁, chain₁, hstep, h₁, hframe₁⟩ := step_represents_frame h op
    obtain ⟨fs', chain', hrun, h', hframe⟩ := ih h₁
    refine ⟨fs', chain', by simp [run, hstep, hrun, Directory.run], h', ?_⟩
    intro j f hj hspares
    have hop := hspares op List.mem_cons_self
    rw [hframe j f (Directory.step_of_spares hj hop)
      fun op' hop' => hspares op' (List.mem_cons_of_mem _ hop'), hframe₁ j f hj hop]

/-- A sequence of calls on a represented state. -/
theorem run_represents {fs : FileSystem} {d : Directory}
    {chain : Fin ENTRY → List (Fin BLOCK_SIZE)} (h : Represents fs d chain) (ops : List Op) :
    ∃ fs' chain', run ops fs = some (fs', (d.run ops).2) ∧ Represents fs' (d.run ops).1 chain' := by
  obtain ⟨fs', chain', hrun, h', -⟩ := run_represents_frame h ops
  exact ⟨fs', chain', hrun, h'⟩

/-- The states reached from the fresh state by calls with names that fit. -/
inductive Reachable : FileSystem → Prop
  | fresh : Reachable fresh
  | step {op : Op} {fs fs' : FileSystem} {out : Output} : Reachable fs → op.NameFits →
    step op fs = some (fs', out) → Reachable fs'

/-- A reachable state represents a directory with distinct names. -/
theorem Reachable.represents {fs : FileSystem} (h : Reachable fs) :
    ∃ d chain, Represents fs d chain ∧ d.NamesDistinct := by
  induction h with
  | fresh => exact ⟨_, _, represents_fresh, by simp [Directory.NamesDistinct, Directory.empty]⟩
  | step _ hop hstep ih =>
    obtain ⟨d, chain, hrep, hd⟩ := ih
    obtain ⟨fs', chain', hstep', hrep'⟩ := step_represents hrep _
    rw [hstep] at hstep'
    obtain ⟨rfl, -⟩ := Prod.mk.inj (Option.some.inj hstep')
    exact ⟨_, chain', hrep', hd.step hop⟩

/-- Every state of a run is reachable. -/
theorem Reachable.run {ops : List Op} {fs fs' : FileSystem} {outs : List Output} (h : Reachable fs)
    (hops : ∀ op ∈ ops, op.NameFits) (hrun : run ops fs = some (fs', outs)) : Reachable fs' := by
  induction ops generalizing fs outs with
  | nil =>
    obtain ⟨rfl, -⟩ := Prod.mk.inj (Option.some.inj hrun)
    exact h
  | cons op ops ih =>
    simp only [Fat.run, Option.bind_eq_bind, Option.bind_eq_some_iff, Option.some.injEq,
      Prod.mk.injEq, Prod.exists] at hrun
    obtain ⟨fs₁, out, hstep, fs₂, outs₂, hrun₂, rfl, -⟩ := hrun
    exact ih (h.step (hops op List.mem_cons_self) hstep)
      (fun op' hop' => hops op' (List.mem_cons_of_mem _ hop')) hrun₂

/-! ## Refinement -/

/-- The content of entry `i`: the strings of the blocks of its chain. -/
def contentOf (fs : FileSystem) (i : Fin ENTRY) : Bytes :=
  ((index? (fs.entries i).start).bind (readLoop fs)).getD []

/-- The map that the arrays hold: the name and the content of every entry in use. -/
def fileMap (fs : FileSystem) : FileMap :=
  List.toFinmap <| (List.finRange ENTRY).filterMap fun i =>
    if (fs.entries i).use ≠ 0 then some ⟨(fs.entries i).fileName.str, contentOf fs i⟩ else none

theorem Links.contentOf_eq {fs : FileSystem} {d : Directory}
    {chain : Fin ENTRY → List (Fin BLOCK_SIZE)} (h : Links fs d chain) {i : Fin ENTRY} {f : File}
    (hi : d i = some f) : contentOf fs i = f.content := by
  have hh := h.holds i f hi
  obtain ⟨a, hstart, hwalk⟩ := hh.walk
  simp [contentOf, hstart, readLoop_eq hwalk, hh.content]

/-- The map of a represented state is the map of its directory. -/
theorem Links.fileMap_eq {fs : FileSystem} {d : Directory}
    {chain : Fin ENTRY → List (Fin BLOCK_SIZE)} (h : Links fs d chain) : fileMap fs = d.toMap := by
  rw [fileMap, Directory.toMap, Directory.mapEntries, Directory.files, List.map_filterMap]
  refine congrArg List.toFinmap (congrArg (List.filterMap · _) (funext fun i => ?_))
  cases hi : d i with
  | none => simp [(h.unused i hi).1]
  | some f =>
    have hh := h.holds i f hi
    simp [hh.use, hh.name, h.contentOf_eq hi]

/-- The file system refines a bounded map from names to byte strings: the fresh state holds the
empty map; every call on a reachable state is defined and changes the map as `FileMap.step` says;
`read_file` prints the content of the name; `list_files` prints every name once, with the size of
its content; and the size stored in an entry is the size of its content. -/
theorem refines_fileMap :
    fileMap fresh = ∅ ∧ ∀ fs, Reachable fs →
      (∀ op, op.NameFits →
        ∃ fs' out, step op fs = some (fs', out) ∧ fileMap fs' = (fileMap fs).step op) ∧
      (∀ name, readFile name fs = some (printf (ascii "Content of '" ++ name.bytes ++ ascii "': " ++
        ((fileMap fs).lookup name.bytes).getD (ascii "None") ++ ascii "\n"))) ∧
      (∃ l : List (Σ _ : Bytes, Bytes), (l : Multiset _) = (fileMap fs).entries ∧
        listFiles fs = printf (ascii "Files in the file system:\n" ++
          l.flatMap fun e => listLine e.1 e.2.length)) ∧
      ∀ i, (fs.entries i).use ≠ 0 →
        ∃ content, (fileMap fs).lookup (fs.entries i).fileName.str = some content ∧
          (fs.entries i).fileSize = content.length := by
  refine ⟨?_, ?_⟩
  · have hfiles : Directory.empty.files = [] := by
      simp [Directory.files, List.filterMap_eq_nil_iff, Directory.empty]
    rw [represents_fresh.toLinks.fileMap_eq, Directory.toMap, Directory.mapEntries, hfiles]
    rfl
  · intro fs hreach
    obtain ⟨d, chain, h, hd⟩ := hreach.represents
    rw [h.toLinks.fileMap_eq]
    refine ⟨?_, ?_, ?_, ?_⟩
    · intro op hop
      obtain ⟨fs', chain', hstep, h'⟩ := step_represents h op
      exact ⟨fs', _, hstep, by rw [h'.toLinks.fileMap_eq, Directory.toMap_step hd hop]⟩
    · intro name
      rw [readFile_eq h.toLinks, Directory.lookup_toMap hd, Directory.read]
      cases hlook : d.lookup name.bytes with
      | none => rfl
      | some p => rfl
    · refine ⟨d.mapEntries, (Directory.entries_toMap hd).symm, ?_⟩
      rw [listFiles_eq h.toLinks, Directory.list, Directory.mapEntries, List.flatMap_map]
    · intro i hi
      cases hdi : d i with
      | none => exact absurd (h.unused i hdi).1 hi
      | some f =>
        have hh := h.holds i f hdi
        refine ⟨f.content, ?_, hh.size⟩
        rw [hh.name]
        exact (Directory.lookup_toMap_iff hd).mpr ⟨i, hdi⟩

/-- The file name `a`. -/
def nameA : CString := ⟨ascii "a", by decide⟩

/-- The file name `b`. -/
def nameB : CString := ⟨ascii "b", by decide⟩

/-- A text that takes two blocks. -/
def longText : CString := ⟨ascii "a text that is longer than one block", by decide⟩

/-- Calls that make a file of two blocks and an empty file. -/
def twoFiles : List Op := [.create nameA, .write nameA longText, .create nameB]

theorem nameFits_twoFiles : ∀ op ∈ twoFiles, op.NameFits := by
  intro op hop name hname
  have hnames : ∀ op ∈ twoFiles, ∀ name ∈ op.name?, name.bytes.length ≤ FILE_NAME := by decide
  exact hnames op hop name hname

/-- The directory after `twoFiles`. -/
def twoFilesDirectory : Directory := (Directory.run twoFiles .empty).1

theorem files_twoFiles :
    twoFilesDirectory ⟨0, by decide⟩ = some ⟨nameA.bytes, longText.bytes⟩ ∧
      twoFilesDirectory ⟨1, by decide⟩ = some ⟨nameB.bytes, []⟩ ∧
      twoFilesDirectory ⟨2, by decide⟩ = none := by
  decide +kernel

theorem exists_twoFiles : ∃ fs outs chain, run twoFiles fresh = some (fs, outs) ∧ Reachable fs ∧
    Represents fs twoFilesDirectory chain := by
  obtain ⟨fs, chain, hrun, h⟩ := run_represents represents_fresh twoFiles
  exact ⟨fs, _, chain, hrun, Reachable.fresh.run nameFits_twoFiles hrun, h⟩

theorem namesDistinct_twoFiles : twoFilesDirectory.NamesDistinct := by
  have hempty : Directory.empty.NamesDistinct := by simp [Directory.NamesDistinct, Directory.empty]
  have hops := nameFits_twoFiles
  simp only [twoFiles, List.forall_mem_cons] at hops
  exact ((hempty.step hops.1).step hops.2.1).step hops.2.2.1

theorem refines_fileMap_twoFiles :
    ∃ fs, Reachable fs ∧ (fileMap fs).lookup nameA.bytes = some longText.bytes ∧
      (fileMap fs).lookup nameB.bytes = some [] ∧
      readFile nameA fs =
        some (printf (ascii "Content of 'a': " ++ longText.bytes ++ ascii "\n")) ∧
      ∃ fs' out, step (.write nameB longText) fs = some (fs', out) ∧
        fileMap fs' = (fileMap fs).step (.write nameB longText) := by
  obtain ⟨fs, outs, chain, -, hreach, h⟩ := exists_twoFiles
  obtain ⟨hstep, hread, -⟩ := refines_fileMap.2 fs hreach
  have hlookup : ∀ i name content, twoFilesDirectory i = some ⟨name, content⟩ →
      (fileMap fs).lookup name = some content := by
    intro i name content hi
    rw [h.toLinks.fileMap_eq]
    exact (Directory.lookup_toMap_iff namesDistinct_twoFiles).mpr ⟨i, hi⟩
  obtain ⟨hzero, hone, -⟩ := files_twoFiles
  refine ⟨fs, hreach, hlookup _ _ _ hzero, hlookup _ _ _ hone, ?_, hstep _ ?_⟩
  · rw [hread nameA, hlookup _ _ _ hzero]
    rfl
  · rintro name ⟨⟩
    decide

/-! ## Chain integrity -/

/-- The walk from `start` through the FAT visits the blocks `l` and stops at a cell `-1`. -/
def ChainOf (fs : FileSystem) (i : Fin ENTRY) (l : List (Fin BLOCK_SIZE)) : Prop :=
  ∃ a : Fin BLOCK_SIZE, (fs.entries i).start = (a : ℕ) ∧ FatWalk fs.fat a l

/-- The FAT chains of the entries in use are finite, duplicate-free and disjoint, cover exactly the
blocks that are not free, and are filled from the front. -/
structure ChainIntegrity (fs : FileSystem) : Prop where
  chain : ∀ i, (fs.entries i).use ≠ 0 → ∃ l, ChainOf fs i l ∧ l.Nodup ∧
    (∀ b ∈ l.dropLast, (fs.disk b).strlen = BYTES) ∧
    ∀ b ∈ l.getLast?, (fs.disk b).str = [] → (fs.entries i).fileSize = 0
  disjoint : ∀ i j l m, (fs.entries i).use ≠ 0 → (fs.entries j).use ≠ 0 → i ≠ j →
    ChainOf fs i l → ChainOf fs j m → l.Disjoint m
  owned : ∀ b, (∃ i l, (fs.entries i).use ≠ 0 ∧ ChainOf fs i l ∧ b ∈ l) ↔ fs.fat b ≠ -2

/-- The chain of an entry in use is the one of the representation. -/
theorem Links.chainOf_iff {fs : FileSystem} {d : Directory}
    {chain : Fin ENTRY → List (Fin BLOCK_SIZE)} (h : Links fs d chain) {i : Fin ENTRY}
    (hi : (fs.entries i).use ≠ 0) (l : List (Fin BLOCK_SIZE)) : ChainOf fs i l ↔ l = chain i := by
  cases hdi : d i with
  | none => exact absurd (h.unused i hdi).1 hi
  | some f =>
    obtain ⟨a, hstart, hwalk⟩ := (h.holds i f hdi).walk
    constructor
    · rintro ⟨a', hstart', hwalk'⟩
      have ha : a' = a := Fin.ext (by omega)
      exact FatWalk.unique (ha ▸ hwalk') hwalk
    · rintro rfl
      exact ⟨a, hstart, hwalk⟩

/-- An entry owns a block only if it is in use. -/
theorem Links.use_of_mem {fs : FileSystem} {d : Directory}
    {chain : Fin ENTRY → List (Fin BLOCK_SIZE)} (h : Links fs d chain) {i : Fin ENTRY}
    {b : Fin BLOCK_SIZE} (hb : b ∈ chain i) : (fs.entries i).use ≠ 0 := by
  cases hdi : d i with
  | none => simp [(h.unused i hdi).2] at hb
  | some f => simp [(h.holds i f hdi).use]

theorem Represents.chainIntegrity {fs : FileSystem} {d : Directory}
    {chain : Fin ENTRY → List (Fin BLOCK_SIZE)} (h : Represents fs d chain) :
    ChainIntegrity fs where
  chain := by
    intro i hi
    refine ⟨chain i, (h.toLinks.chainOf_iff hi _).mpr rfl, h.toLinks.chain_nodup i, ?_⟩
    cases hdi : d i with
    | none => exact absurd (h.unused i hdi).1 hi
    | some f =>
      have hh := h.holds i f hdi
      refine ⟨hh.full, ?_⟩
      intro b hb hempty
      obtain ⟨init, c, hl⟩ := hh.exists_last
      have hcb : c = b := by simpa [hl] using hb
      subst hcb
      have hlen := h.length_eq i f hdi
      rw [hl] at hh hlen
      have hcontent := hh.length_content
      rw [CharArray.strlen, hempty, List.length_nil] at hcontent
      -- an empty last block is the only one
      rw [List.length_append, List.length_singleton, hcontent] at hlen
      have hzero := (blocks_eq_iff (Nat.zero_le _)).mp hlen rfl
      rw [hh.size, hcontent, hzero]
      simp
  disjoint := by
    intro i j l m hi hj hij hl hm b hbl hbm
    rw [(h.toLinks.chainOf_iff hi l).mp hl] at hbl
    rw [(h.toLinks.chainOf_iff hj m).mp hm] at hbm
    exact hij (h.disjoint i j b hbl hbm)
  owned := by
    intro b
    rw [h.owned b]
    constructor
    · rintro ⟨i, l, hi, hl, hb⟩
      exact ⟨i, (h.toLinks.chainOf_iff hi l).mp hl ▸ hb⟩
    · rintro ⟨i, hb⟩
      have hi := h.toLinks.use_of_mem hb
      exact ⟨i, chain i, hi, (h.toLinks.chainOf_iff hi _).mpr rfl, hb⟩

/-- The chains are intact in every reachable state, and every call on such a state is defined: its
`while` loops end, and they index no array out of bounds. -/
theorem chainIntegrity_of_reachable {fs : FileSystem} (hreach : Reachable fs) :
    ChainIntegrity fs ∧ ∀ op, (step op fs).isSome := by
  obtain ⟨d, chain, h, -⟩ := hreach.represents
  refine ⟨h.chainIntegrity, fun op => ?_⟩
  obtain ⟨fs', chain', hstep, -⟩ := step_represents h op
  rw [hstep]
  rfl

theorem chainIntegrity_of_reachable_twoFiles :
    ∃ fs, Reachable fs ∧ ChainIntegrity fs ∧ (∀ op, (step op fs).isSome) ∧
      ∃ x y z, ChainOf fs ⟨0, by decide⟩ [x, y] ∧ ChainOf fs ⟨1, by decide⟩ [z] := by
  obtain ⟨fs, outs, chain, -, hreach, h⟩ := exists_twoFiles
  obtain ⟨hchains, hdefined⟩ := chainIntegrity_of_reachable hreach
  obtain ⟨hzero, hone, -⟩ := files_twoFiles
  have hchain : ∀ i f, twoFilesDirectory i = some f → ChainOf fs i (chain i) := by
    intro i f hi
    exact (h.toLinks.chainOf_iff (by simp [(h.holds i f hi).use]) _).mpr rfl
  have htwo : (chain ⟨0, by decide⟩).length = 2 := (h.length_eq _ _ hzero).trans (by decide)
  have hsingle : (chain ⟨1, by decide⟩).length = 1 := (h.length_eq _ _ hone).trans (by decide)
  obtain ⟨x, y, hxy⟩ := List.length_eq_two.mp htwo
  obtain ⟨z, hz⟩ := List.length_eq_one_iff.mp hsingle
  exact ⟨fs, hreach, hchains, hdefined, x, y, z, hxy ▸ hchain _ _ hzero, hz ▸ hchain _ _ hone⟩

end SchoolOS.Fat
