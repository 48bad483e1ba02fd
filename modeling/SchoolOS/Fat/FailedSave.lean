import SchoolOS.Fat.Names

/-!
# A save that fails

`save_file_system` opens `File_entry`, `FAT` and `Disk` for writing one after another, and each
`fopen` that succeeds empties its file. When a later one fails, the files opened before it stay
empty and the next process loads the mixture. `keepsSaved_iff` says for one saved state what the
load then finds: everything if nothing was opened, an empty directory over the old FAT if only
`File_entry` was, and a FAT of zeros if both were. `failedSave_iff` is the same for all states that
a sequence of processes saves.
-/

namespace SchoolOS.Fat

open Function

variable {s fs : FileSystem} {fopen : SavedFile → Bool}

/-- A save of `fs` over the saved state `s` that returns `-1` leaves files from which a new process
loads the entries in use, the FAT and the disk of `s`. -/
def KeepsSaved (fopen : SavedFile → Bool) (fs s : FileSystem) : Prop :=
  ∀ store store', saveFileSystem fopen fs (saveFileSystem Fopen.all.write s store).1 =
    (store', -1) →
    ∃ s' out, loadFileSystem Fopen.all.read store' zeroed = (s', 0, out) ∧ Same s s'

/-! ## What the next process loads -/

/-- Reading from an empty file changes nothing. -/
theorem scanAll_nil {n : ℕ} {α : Type} {scan : α → Bytes → α × Bytes}
    (h : ∀ x, scan x [] = (x, [])) (a : Fin n → α) : scanAll scan a [] = a := by
  obtain ⟨s', ha, -⟩ := scanAll_invariant scan (fun _ a' t => a' = a ∧ t = []) a [] ⟨rfl, rfl⟩ (by
    rintro i a' t ⟨rfl, rfl⟩
    rw [h]
    exact ⟨update_eq_self _ _, rfl⟩)
  exact ha

theorem scanEntry_nil (e : FileEntry) : scanEntry e [] = (e, []) := rfl

theorem scanCell_nil (cell : ℤ) : scanCell cell [] = (cell, []) := rfl

/-- The files after `File_entry` alone has been emptied. -/
def emptiedEntries (s : FileSystem) : Store := update (savedStore s) .fileEntry (some [])

/-- The files after `File_entry` and `FAT` have been emptied. -/
def emptiedFat (s : FileSystem) : Store := update (emptiedEntries s) .fat (some [])

/-- What a new process finds when `File_entry` is empty. -/
theorem loadFileSystem_emptiedEntries (s : FileSystem) :
    loadFileSystem Fopen.all.read (emptiedEntries s) zeroed =
      ({ entries := zeroed.entries, fat := s.fat, disk := (reload s).disk }, 0, printf []) := by
  have hfat : scanAll scanCell zeroed.fat (fatText s) = s.fat := scanCells_spec s.fat zeroed.fat
  rw [reload_eq]
  simp [loadFileSystem, openRead, Fopen.all, emptiedEntries, savedStore,
    scanAll_nil scanEntry_nil, hfat]

/-- What a new process finds when `File_entry` and `FAT` are empty. -/
theorem loadFileSystem_emptiedFat (s : FileSystem) :
    loadFileSystem Fopen.all.read (emptiedFat s) zeroed =
      ({ entries := zeroed.entries, fat := zeroed.fat, disk := (reload s).disk }, 0,
        printf []) := by
  rw [reload_eq]
  simp [loadFileSystem, openRead, Fopen.all, emptiedEntries, emptiedFat, savedStore,
    scanAll_nil scanEntry_nil, scanAll_nil scanCell_nil]

/-- The loaded state is the saved one exactly if its directory is. -/
theorem same_reload_iff (hdisk : DiskOk s) : Same s (reload s) ↔ DirectoryReloads s := by
  constructor
  · intro hsame i
    refine ⟨fun hi => ?_, fun hi => by rw [hsame.use i, hi]⟩
    obtain ⟨hname, hsize, hstart⟩ := hsame.entry i hi
    exact ⟨hname, hsize, hstart, hsame.use i⟩
  · intro hreload
    refine ⟨reload_fat s, str_reload_disk hdisk, fun i => ?_, fun i hi => ?_⟩
    · by_cases hi : (s.entries i).use = 0
      · rw [(hreload i).2 hi, hi]
      · exact ((hreload i).1 hi).2.2.2
    · obtain ⟨hname, hsize, hstart, -⟩ := (hreload i).1 hi
      exact ⟨hname, hsize, hstart⟩

/-- No reachable FAT is all zero: a free cell holds `-2`, and a chain ends with `-1`. -/
theorem Represents.fat_ne_zero {d : Directory} {chain : Fin ENTRY → List (Fin BLOCK_SIZE)}
    (h : Represents s d chain) : s.fat ≠ zeroed.fat := by
  intro hzero
  have hcell : ∀ b, s.fat b = 0 := fun b => congrFun hzero b
  obtain ⟨i, hmem⟩ := (h.owned ⟨0, by decide⟩).mp (by rw [hcell]; decide)
  cases hi : d i with
  | none => simp [(h.unused i hi).2] at hmem
  | some f =>
    have hh := h.holds i f hi
    obtain ⟨init, b, hl⟩ := hh.exists_last
    rw [hl] at hh
    have hlast := hh.fat_last
    rw [hcell b] at hlast
    exact absurd hlast (by decide)

/-- A failed save keeps `s` exactly if the next process loads it. -/
theorem keepsSaved_of_load {store' : Store} {s' : FileSystem} {out : Output}
    (hsave : saveFileSystem fopen fs (savedStore s) = (store', -1))
    (hload : loadFileSystem Fopen.all.read store' zeroed = (s', 0, out)) :
    KeepsSaved fopen fs s ↔ Same s s' := by
  constructor
  · intro hkeeps
    have hsave' : saveFileSystem fopen fs (saveFileSystem Fopen.all.write s noFiles).1 =
        (store', -1) := by rw [saveFileSystem_all, hsave]
    obtain ⟨s₁, out₁, hload₁, hsame⟩ := hkeeps _ _ hsave'
    rw [hload] at hload₁
    obtain ⟨rfl, -⟩ := Prod.mk.inj hload₁
    exact hsame
  · intro hsame store store₁ hsave₁
    rw [saveFileSystem_all, hsave] at hsave₁
    obtain ⟨rfl, -⟩ := Prod.mk.inj hsave₁
    exact ⟨s', out, hload, hsame⟩

/-- If `File_entry` cannot be opened, the files stay as they are. -/
theorem keepsSaved_iff_same (hfe : fopen .fileEntry = false) :
    KeepsSaved fopen fs s ↔ Same s (reload s) := by
  have hsave : saveFileSystem fopen fs (savedStore s) = (savedStore s, -1) := by
    simp [saveFileSystem, hfe]
  exact keepsSaved_of_load hsave (loadFileSystem_saved s)

/-- If only `File_entry` has been emptied, no entry is in use. -/
theorem keepsSaved_iff_unused (hdisk : DiskOk s) (hfe : fopen .fileEntry = true)
    (hfa : fopen .fat = false) : KeepsSaved fopen fs s ↔ ∀ i, (s.entries i).use = 0 := by
  have hsave : saveFileSystem fopen fs (savedStore s) = (emptiedEntries s, -1) := by
    simp [saveFileSystem, hfe, hfa, emptiedEntries]
  rw [keepsSaved_of_load hsave (loadFileSystem_emptiedEntries s)]
  constructor
  · intro hsame i
    rw [← hsame.use i]
    rfl
  · intro hunused
    refine ⟨rfl, ?_, fun i => ?_, fun i hi => absurd (hunused i) hi⟩
    · intro b
      rw [str_reload_disk hdisk b]
    · rw [hunused i]
      rfl

/-- If `FAT` has been emptied too, the next process finds another FAT. -/
theorem keepsSaved_iff_disk {d : Directory} {chain : Fin ENTRY → List (Fin BLOCK_SIZE)}
    (h : Represents s d chain) (hfe : fopen .fileEntry = true) (hfa : fopen .fat = true) :
    KeepsSaved fopen fs s ↔ fopen .disk = true := by
  cases hfd : fopen .disk with
  | false =>
    have hsave : saveFileSystem fopen fs (savedStore s) = (emptiedFat s, -1) := by
      simp [saveFileSystem, hfe, hfa, hfd, emptiedEntries, emptiedFat]
    rw [keepsSaved_of_load hsave (loadFileSystem_emptiedFat s)]
    simp only [Bool.false_eq_true, iff_false]
    exact fun hsame => h.fat_ne_zero hsame.fat.symm
  | true =>
    have hret : (saveFileSystem fopen fs (savedStore s)).2 = 0 := by
      simp [saveFileSystem, hfe, hfa, hfd]
    simp only [iff_true]
    intro store store' hsave
    rw [saveFileSystem_all] at hsave
    rw [hsave] at hret
    simp at hret

/-- Which failures of `fopen` keep a saved state. -/
theorem keepsSaved_iff {d : Directory} {chain : Fin ENTRY → List (Fin BLOCK_SIZE)}
    (h : Represents s d chain) (hdisk : DiskOk s) :
    KeepsSaved fopen fs s ↔
      (fopen .fileEntry = false ∧ DirectoryReloads s) ∨
      (fopen .fileEntry = true ∧ fopen .fat = false ∧ ∀ i, (s.entries i).use = 0) ∨
      (fopen .fileEntry = true ∧ fopen .fat = true ∧ fopen .disk = true) := by
  cases hfe : fopen .fileEntry with
  | false => simp [keepsSaved_iff_same hfe, same_reload_iff hdisk]
  | true =>
    cases hfa : fopen .fat with
    | false => simp [keepsSaved_iff_unused hdisk hfe hfa]
    | true => simp [keepsSaved_iff_disk h hfe hfa]

/-! ## Sequences of processes -/

/-- A call, or a process that saves and ends: the next one starts with what it loads. -/
inductive Action where
  | call (op : Op)
  | restart

def Action.step (act : Action) (fs : FileSystem) : Option FileSystem :=
  match act with
  | .call op => (Fat.step op fs).map Prod.fst
  | .restart => some (reload fs)

/-- The state of the last process. The first one starts without saved files. -/
def after (acts : List Action) : Option FileSystem := acts.foldlM (fun fs act => act.step fs) fresh

theorem after_concat {acts : List Action} {act : Action} {s' : FileSystem} :
    after (acts ++ [act]) = some s' ↔ ∃ s, after acts = some s ∧ act.step s = some s' := by
  simp [after, List.foldlM_append, Option.bind_eq_some_iff]

theorem Action.step_call {op : Op} {s s' : FileSystem} :
    (Action.call op).step s = some s' ↔ ∃ out, Fat.step op s = some (s', out) := by
  simp [Action.step]

theorem after_create {acts : List Action} (hafter : after acts = some s) (name : CString) :
    after (acts ++ [.call (.create name)]) = some (createFile name s).1 :=
  after_concat.mpr ⟨s, hafter, Action.step_call.mpr ⟨_, step_create name s⟩⟩

theorem DiskOk.reload (h : DiskOk s) : DiskOk (reload s) := by
  intro b
  rw [CharArray.strlen, str_reload_disk h b]
  exact h b

theorem Savable.reload (h : Savable s) : Savable (reload s) := by
  obtain ⟨-, hserial, hdisk⟩ := reload_spec h.serial h.disk
  exact ⟨hserial, hdisk⟩

theorem Savable.same_reload (h : Savable s) : Same s (Fat.reload s) :=
  (same_reload_iff h.disk).mpr h.directoryReloads

section Histories

variable {acts : List Action}

/-- What holds at the start, and is kept by the calls of the history and by a restart, holds in
every state. -/
theorem after_invariant {P : FileSystem → Prop} (hfresh : P fresh)
    (hcall : ∀ acts' op s s' out, acts' ++ [.call op] <+: acts → after acts' = some s → P s →
      step op s = some (s', out) → P s')
    (hrestart : ∀ s, P s → P (reload s)) {acts' : List Action} (hpre : acts' <+: acts)
    (hafter : after acts' = some s) : P s := by
  induction acts' using List.reverseRecOn generalizing s with
  | nil =>
    obtain rfl := Option.some.inj hafter
    exact hfresh
  | append_singleton acts' act ih =>
    obtain ⟨s₁, hafter₁, hact⟩ := after_concat.mp hafter
    have hs₁ := ih ((List.prefix_append _ _).trans hpre) hafter₁
    cases act with
    | call op =>
      obtain ⟨out, hstep⟩ := Action.step_call.mp hact
      exact hcall acts' op s₁ s out hpre hafter₁ hs₁ hstep
    | restart =>
      obtain rfl := Option.some.inj hact
      exact hrestart s₁ hs₁

/-- The lines of the disk can always be read back, whatever names are stored. -/
theorem diskOk_of_after (hafter : after acts = some s) : DiskOk s := by
  apply after_invariant diskOk_fresh _ (fun _ hdisk => hdisk.reload) List.prefix_rfl hafter
  intro _ op s₁ s' out _ _ hdisk hstep
  exact hdisk.step hstep

/-- Every state of processes that store only names that `%s` can read can be saved. -/
theorem savable_of_after
    (hclean : ∀ acts' name s, acts' ++ [.call (.create name)] <+: acts → after acts' = some s →
      Creates s name → CleanName name.bytes)
    {acts' : List Action} (hpre : acts' <+: acts) (hafter : after acts' = some s) : Savable s := by
  apply after_invariant savable_fresh _ (fun _ hsav => hsav.reload) hpre hafter
  intro acts' op s₁ s' out hpre' hafter' hsav hstep
  refine hsav.step ?_ hstep
  rintro name rfl hlook hentry hblock
  exact hclean acts' name s₁ hpre' hafter' ⟨hlook, hentry, hblock⟩

/-- The state has no file, and can be saved. -/
def NoFiles (s : FileSystem) : Prop := Savable s ∧ ∃ chain, Represents s Directory.empty chain

theorem NoFiles.unused (h : NoFiles s) (i : Fin ENTRY) : (s.entries i).use = 0 := by
  obtain ⟨-, chain, hrep⟩ := h
  exact (hrep.unused i rfl).1

theorem NoFiles.reload (h : NoFiles s) : NoFiles (reload s) := by
  obtain ⟨hsav, chain, hrep⟩ := h
  exact ⟨hsav.reload, chain, hsav.same_reload.represents hrep⟩

/-- Only `create_file` changes an empty directory. -/
theorem Directory.step_empty {op : Op} (hop : ∀ name, op ≠ .create name) :
    (Directory.empty.step op).1 = Directory.empty := by
  have hlook : ∀ name, Directory.empty.lookup name = none := by
    intro name
    have hfind : Directory.empty.find name = none :=
      Directory.find_eq_none_iff.mpr fun i f hi => by simp [Directory.empty] at hi
    simp [Directory.lookup, hfind]
  cases op with
  | create name => exact absurd rfl (hop name)
  | write name content => simp [Directory.step, Directory.write, hlook]
  | read name => rfl
  | delete name => simp [Directory.step, Directory.delete, hlook]
  | list => rfl

/-- A call that makes no file. -/
theorem NoFiles.step (h : NoFiles s) {op : Op} {s' : FileSystem} {out : Output}
    (hop : ∀ name, op = .create name → ¬ Creates s name) (hstep : step op s = some (s', out)) :
    NoFiles s' := by
  obtain ⟨hsav, chain, hrep⟩ := h
  refine ⟨hsav.step ?_ hstep, ?_⟩
  · rintro name rfl hlook hentry hblock
    exact absurd ⟨hlook, hentry, hblock⟩ (hop name rfl)
  · obtain ⟨s₁, chain', hstep', hrep'⟩ := step_represents hrep op
    rw [hstep] at hstep'
    obtain ⟨rfl, -⟩ := Prod.mk.inj (Option.some.inj hstep')
    refine ⟨chain', ?_⟩
    cases op with
    | create name =>
      have hcreates := (hrep.creates_iff name).not.mp (hop name rfl)
      rwa [Directory.step, Directory.create_of_not hcreates] at hrep'
    | _ => rwa [Directory.step_empty (by simp)] at hrep'

/-- No state has a file if no call makes one. -/
theorem noFiles_of_after
    (hcreates : ∀ acts' name s, acts' ++ [.call (.create name)] <+: acts → after acts' = some s →
      ¬ Creates s name)
    {acts' : List Action} (hpre : acts' <+: acts) (hafter : after acts' = some s) : NoFiles s := by
  apply after_invariant ⟨savable_fresh, _, represents_fresh⟩ _ (fun _ hempty => hempty.reload)
    hpre hafter
  intro acts' op s₁ s' out hpre' hafter' hempty hstep
  refine hempty.step ?_ hstep
  rintro name rfl
  exact hcreates acts' name s₁ hpre' hafter'

end Histories

/-- A save that fails keeps every state that any sequence of processes may have saved before exactly
if `File_entry` is the file that cannot be opened and the processes store only names that `%s` can
read, or `File_entry` is emptied, `FAT` cannot be opened and the processes make no file, or no
`fopen` fails. -/
theorem failedSave_iff (acts : List Action) (hacts : ∀ op, Action.call op ∈ acts → op.NameFits)
    (fopen : SavedFile → Bool) (fs : FileSystem) :
    (∀ acts' s, acts' <+: acts → after acts' = some s → KeepsSaved fopen fs s) ↔
      (fopen .fileEntry = false ∧
        ∀ acts' name s, acts' ++ [.call (.create name)] <+: acts → after acts' = some s →
          Creates s name → CleanName name.bytes) ∨
      (fopen .fileEntry = true ∧ fopen .fat = false ∧
        ∀ acts' name s, acts' ++ [.call (.create name)] <+: acts → after acts' = some s →
          ¬ Creates s name) ∨
      (fopen .fileEntry = true ∧ fopen .fat = true ∧ fopen .disk = true) := by
  have hnil : after [] = some fresh := rfl
  cases hfe : fopen .fileEntry with
  | false =>
    -- nothing is emptied, and the question is what a successful save can be read back to
    simp only [true_and, Bool.false_eq_true, false_and, or_false]
    constructor
    · intro hall acts' name s hpre hafter hcreates
      have hlen : name.bytes.length ≤ FILE_NAME :=
        hacts (.create name) (hpre.subset (by simp)) name rfl
      have hafter' := after_create hafter name
      have hsame := (keepsSaved_iff_same hfe).mp (hall _ _ hpre hafter')
      exact clean_of_directoryReloads hcreates hlen
        ((same_reload_iff (diskOk_of_after hafter')).mp hsame)
    · intro hclean acts' s hpre hafter
      exact (keepsSaved_iff_same hfe).mpr (savable_of_after hclean hpre hafter).same_reload
  | true =>
    cases hfa : fopen .fat with
    | false =>
      -- `File_entry` is emptied, and the saved FAT and blocks stay
      simp only [true_and, Bool.true_eq_false, Bool.false_eq_true, false_and, or_false, false_or]
      constructor
      · intro hall acts' name s hpre hafter hcreates
        obtain ⟨k, -, -, huse, -⟩ := createFile_of_creates hcreates
        have hafter' := after_create hafter name
        have hunused := (keepsSaved_iff_unused (diskOk_of_after hafter') hfe hfa).mp
          (hall _ _ hpre hafter')
        exact absurd (huse.symm.trans (hunused k)) (by decide)
      · intro hcreates acts' s hpre hafter
        have hempty := noFiles_of_after hcreates hpre hafter
        exact (keepsSaved_iff_unused hempty.1.disk hfe hfa).mpr hempty.unused
    | true =>
      -- `FAT` is emptied as well, so not even the state without files is kept
      simp only [true_and, Bool.true_eq_false, false_and, false_or]
      constructor
      · intro hall
        exact (keepsSaved_iff_disk represents_fresh hfe hfa).mp (hall [] fresh List.nil_prefix hnil)
      · intro hdisk acts' s _ _ store store' hsave
        rw [saveFileSystem_all] at hsave
        simp [saveFileSystem, hfe, hfa, hdisk] at hsave

/-- Two processes: the first makes the file `a`, the second writes to it and makes the file `b`. -/
def twoProcesses : List Action :=
  [.call (.create nameA), .restart, .call (.write nameA longText), .call (.create nameB)]

theorem failedSave_iff_twoProcesses :
    (∀ op, Action.call op ∈ twoProcesses → op.NameFits) ∧
      ∀ acts' s, acts' <+: twoProcesses → after acts' = some s →
        KeepsSaved (· ≠ .fileEntry) fresh s := by
  have hmem : ∀ op, Action.call op ∈ twoProcesses → op ∈ twoFiles := by
    intro op hop
    simpa [twoProcesses, twoFiles] using hop
  have hacts : ∀ op, Action.call op ∈ twoProcesses → op.NameFits := fun op hop =>
    nameFits_twoFiles op (hmem op hop)
  refine ⟨hacts, (failedSave_iff twoProcesses hacts _ _).mpr (Or.inl ⟨by decide, ?_⟩)⟩
  intro acts' name s hpre _ _
  exact clean_of_mem_twoFiles (hmem _ (hpre.subset (by simp)))

/-- The file `a` is created and saved; the next save empties `File_entry` and then cannot open
`FAT`: the file is lost. -/
theorem not_keepsSaved_fat :
    (Op.create nameA).NameFits ∧
      ∃ s, after [.call (.create nameA)] = some s ∧ ¬ KeepsSaved (· ≠ .fat) fresh s := by
  have hnil : after [] = some fresh := rfl
  have hafter : after ([] ++ [.call (.create nameA)]) = some (createFile nameA fresh).1 :=
    after_create hnil nameA
  refine ⟨nameFits_twoFiles _ List.mem_cons_self, _, hafter, fun hkeeps => ?_⟩
  have hunused := (keepsSaved_iff_unused (diskOk_of_after hafter) (by decide) (by decide)).mp hkeeps
  obtain ⟨k, -, -, huse, -⟩ := createFile_of_creates (creates_fresh nameA)
  exact absurd (huse.symm.trans (hunused k)) (by decide)

end SchoolOS.Fat
