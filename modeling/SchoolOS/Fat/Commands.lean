import SchoolOS.Fat.Process

/-!
# Command lines

Reference: `main` of `Assignment5-2/fat.c`, with any arguments.

A command line is an operation, an unknown command or a wrong number of arguments. `Shell.run` says
what a sequence of processes does to a directory. The processes print the same, and the state they
leave behind in the three files is the state of the directory (`processes_refine`). A process that
does not change a file still writes all three, with the same FAT and the same blocks
(`readOnly_keeps_blocks`).
-/

namespace SchoolOS.Fat

open Function

/-- The directory, and whether it has been saved. -/
structure Shell where
  saved : Bool
  dir : Directory

namespace Shell

/-- Before the first process. -/
def start : Shell := ⟨false, Directory.empty⟩

/-- The warning of the first process that loads. -/
def warning (s : Shell) : Output := if s.saved then printf [] else freshWarning

/-- One process. -/
def step (argv : List CString) (s : Shell) : Shell × Output :=
  if argv.length < 2 ∨ 4 < argv.length then
    (s, perror "Argument format: [API] [file name] [contents to write]")
  else match selectOp argv with
    | some op => (⟨true, (s.dir.step op).1⟩, s.warning ++ (s.dir.step op).2)
    | none => (⟨true, s.dir⟩, s.warning ++ perror "wrong command or wrong argument")

/-- A sequence of processes, with the output of each. -/
def run : List (List CString) → Shell → Shell × List Output
  | [], s => (s, [])
  | argv :: argvs, s =>
    ((run argvs (s.step argv).1).1, (s.step argv).2 :: (run argvs (s.step argv).1).2)

end Shell

/-- The files hold the directory, or do not exist yet. -/
def Store.Holds (store : Store) (s : Shell) : Prop :=
  (s = Shell.start ∧ store = noFiles) ∨
    (s.saved = true ∧ s.dir.NamesDistinct ∧ ∃ fs chain, store = savedStore fs ∧ Savable fs ∧
      Represents fs s.dir chain)

/-- The state that a process loads from the files. -/
theorem Store.Holds.load {store : Store} {s : Shell} (h : store.Holds s) :
    ∃ fs chain, loadFileSystem Fopen.all.read store zeroed = (fs, 0, s.warning) ∧ Savable fs ∧
      Represents fs s.dir chain ∧ s.dir.NamesDistinct := by
  rcases h with ⟨rfl, rfl⟩ | ⟨hsaved, hd, fs, chain, rfl, hsav, hrep⟩
  · exact ⟨fresh, _, loadFileSystem_noFiles, savable_fresh, represents_fresh, by
      simp [Directory.NamesDistinct, Shell.start, Directory.empty]⟩
  · obtain ⟨hsame, hserial, hdisk⟩ := reload_spec hsav.serial hsav.disk
    refine ⟨reload fs, chain, ?_, ⟨hserial, hdisk⟩, hsame.represents hrep, hd⟩
    rw [loadFileSystem_saved, Shell.warning, if_pos hsaved]

/-- `main` with enough arguments, when every file can be opened. -/
theorem main_of_load {argv : List CString} (hargc : ¬ (argv.length < 2 ∨ 4 < argv.length))
    {store : Store} {fs : FileSystem} {warning : Output}
    (hload : loadFileSystem Fopen.all.read store zeroed = (fs, 0, warning)) {fs' : FileSystem}
    {out : Output} (hstep : (match selectOp argv with
      | some op => step op fs
      | none => some (fs, perror "wrong command or wrong argument")) = some (fs', out)) :
    main Fopen.all argv store = some (savedStore fs', warning ++ out) := by
  rw [main, if_neg hargc]
  cases hop : selectOp argv with
  | none =>
    rw [hop] at hstep
    obtain ⟨rfl, rfl⟩ := Prod.mk.inj (Option.some.inj hstep)
    simp [hload, saveFileSystem_all]
  | some op =>
    rw [hop] at hstep
    simp [hload, hstep, saveFileSystem_all]

/-- One process. -/
theorem Store.Holds.main {store : Store} {s : Shell} (h : store.Holds s) {argv : List CString}
    (hname : ∀ op ∈ selectOp argv, op.Nameable) :
    ∃ store', Fat.main Fopen.all argv store = some (store', (s.step argv).2) ∧
      store'.Holds (s.step argv).1 := by
  by_cases hargc : argv.length < 2 ∨ 4 < argv.length
  · refine ⟨store, ?_, ?_⟩
    · rw [Fat.main, if_pos hargc, Shell.step, if_pos hargc]
    · rwa [Shell.step, if_pos hargc]
  · obtain ⟨fs, chain, hload, hsav, hrep, hd⟩ := h.load
    rw [Shell.step, if_neg hargc]
    cases hop : selectOp argv with
    | none =>
      have hmain := main_of_load hargc hload (by rw [hop])
      exact ⟨_, hmain, Or.inr ⟨rfl, hd, fs, chain, rfl, hsav, hrep⟩⟩
    | some op =>
      have hnameable := hname op hop
      obtain ⟨fs', chain', hstep, hrep'⟩ := step_represents hrep op
      have hmain := main_of_load hargc hload (by rw [hop]; exact hstep)
      exact ⟨_, hmain, Or.inr ⟨rfl, hd.step fun name hn => (hnameable name hn).2, fs', chain', rfl,
        hsav.step (hnameable.storesClean fs) hstep, hrep'⟩⟩

/-- A sequence of processes. -/
theorem Store.Holds.runProcesses {store : Store} {s : Shell} (h : store.Holds s)
    (argvs : List (List CString)) (hnames : ∀ argv ∈ argvs, ∀ op ∈ selectOp argv, op.Nameable) :
    ∃ store', Fat.runProcesses Fopen.all argvs store = some (store', (s.run argvs).2) ∧
      store'.Holds (s.run argvs).1 := by
  induction argvs generalizing store s with
  | nil => exact ⟨store, rfl, h⟩
  | cons argv argvs ih =>
    obtain ⟨store₁, hmain, h₁⟩ := h.main (hnames argv List.mem_cons_self)
    obtain ⟨store', hrun, h'⟩ :=
      ih h₁ fun argv' hargv => hnames argv' (List.mem_cons_of_mem _ hargv)
    refine ⟨store', ?_, h'⟩
    simp only [Fat.runProcesses, hmain, hrun, Option.bind_eq_bind, Option.bind_some, Shell.run]

theorem holds_noFiles : Store.Holds noFiles Shell.start := Or.inl ⟨rfl, rfl⟩

/-- Every sequence of command lines, wrong ones included, prints what the directory says, and leaves
files behind from which a new process loads exactly the files of the directory. -/
theorem processes_refine (argvs : List (List CString))
    (hnames : ∀ argv ∈ argvs, ∀ op ∈ selectOp argv, op.Nameable) :
    ∃ store, runProcesses Fopen.all argvs noFiles = some (store, (Shell.start.run argvs).2) ∧
      ∃ fs warning, loadFileSystem Fopen.all.read store zeroed = (fs, 0, warning) ∧
        fileMap fs = (Shell.start.run argvs).1.dir.toMap := by
  obtain ⟨store, hrun, hholds⟩ := holds_noFiles.runProcesses argvs hnames
  obtain ⟨fs, chain, hload, -, hrep, -⟩ := hholds.load
  exact ⟨store, hrun, fs, _, hload, hrep.toLinks.fileMap_eq⟩

/-- An operation, an unknown command and a missing one. -/
def someCommands : List (List CString) :=
  [(Op.create nameA).argv, [nameA, nameA, nameA], [nameA]]

theorem nameable_someCommands : ∀ argv ∈ someCommands, ∀ op ∈ selectOp argv, op.Nameable := by
  intro argv hargv op hop
  have hcreate : op = .create nameA := by
    simp only [someCommands, List.mem_cons, List.not_mem_nil, or_false] at hargv
    rcases hargv with rfl | rfl | rfl
    · rw [selectOp_argv] at hop
      exact (Option.some.inj hop).symm
    · have hnone : selectOp [nameA, nameA, nameA] = none := by decide
      exact absurd (hnone.symm.trans hop) (by simp)
    · have hnone : selectOp [nameA] = none := by decide
      exact absurd (hnone.symm.trans hop) (by simp)
  subst hcreate
  intro name hname
  obtain rfl := Option.some.inj hname
  exact ⟨⟨List.cons_ne_nil _ _, List.forall_mem_singleton.mpr rfl⟩, by decide⟩

theorem processes_refine_someCommands :
    ∃ store, runProcesses Fopen.all someCommands noFiles =
      some (store, (Shell.start.run someCommands).2) ∧
      ∃ fs warning, loadFileSystem Fopen.all.read store zeroed = (fs, 0, warning) ∧
        fileMap fs = (Shell.start.run someCommands).1.dir.toMap :=
  processes_refine someCommands nameable_someCommands

/-! ## Commands that change no file -/

theorem Same.refl (fs : FileSystem) : Same fs fs :=
  ⟨rfl, fun _ => rfl, fun _ => rfl, fun _ _ => ⟨rfl, rfl, rfl⟩⟩

theorem Same.trans {fs₁ fs₂ fs₃ : FileSystem} (h : Same fs₁ fs₂) (h' : Same fs₂ fs₃) :
    Same fs₁ fs₃ where
  fat := h'.fat.trans h.fat
  disk b := (h'.disk b).trans (h.disk b)
  use i := (h'.use i).trans (h.use i)
  entry i hi := by
    obtain ⟨hname, hsize, hstart⟩ := h.entry i hi
    obtain ⟨hname', hsize', hstart'⟩ := h'.entry i (by rwa [h.use i])
    exact ⟨hname'.trans hname, hsize'.trans hsize, hstart'.trans hstart⟩

/-- A command line that reads, lists or is wrong. -/
def ReadOnly (argv : List CString) : Prop :=
  ∀ op ∈ selectOp argv, op = .list ∨ ∃ name, op = .read name

/-- A process that changes no file loads the saved state and saves it again. -/
theorem main_readOnly {argv : List CString} (hro : ReadOnly argv) {fs : FileSystem}
    (hsav : Savable fs)
    {d : Directory} {chain : Fin ENTRY → List (Fin BLOCK_SIZE)} (hrep : Represents fs d chain) :
    ∃ fs' out, main Fopen.all argv (savedStore fs) = some (savedStore fs', out) ∧ Same fs fs' ∧
      Savable fs' ∧
      Represents fs' d chain := by
  by_cases hargc : argv.length < 2 ∨ 4 < argv.length
  · exact ⟨fs, _, by rw [main, if_pos hargc], .refl fs, hsav, hrep⟩
  · obtain ⟨hsame, hserial, hdisk⟩ := reload_spec hsav.serial hsav.disk
    have hrep' := hsame.represents hrep
    obtain ⟨out, hstep⟩ : ∃ out, (match selectOp argv with
        | some op => step op (reload fs)
        | none => some (reload fs, perror "wrong command or wrong argument")) =
            some (reload fs, out) := by
      cases hop : selectOp argv with
      | none => exact ⟨_, rfl⟩
      | some op =>
        rcases hro op hop with rfl | ⟨name, rfl⟩
        · exact ⟨_, rfl⟩
        · exact ⟨_, by simp only [step, readFile_eq hrep'.toLinks]; rfl⟩
    exact ⟨reload fs, _, main_of_load hargc (loadFileSystem_saved fs) hstep, hsame,
      ⟨hserial, hdisk⟩, hrep'⟩

/-- A sequence of them. -/
theorem runProcesses_readOnly {argvs : List (List CString)} (hro : ∀ argv ∈ argvs, ReadOnly argv)
    {fs : FileSystem} (hsav : Savable fs) {d : Directory}
    {chain : Fin ENTRY → List (Fin BLOCK_SIZE)} (hrep : Represents fs d chain) :
    ∃ fs' outs, runProcesses Fopen.all argvs (savedStore fs) = some (savedStore fs', outs) ∧
      Same fs fs' := by
  induction argvs generalizing fs with
  | nil => exact ⟨fs, _, rfl, .refl fs⟩
  | cons argv argvs ih =>
    obtain ⟨fs₁, out, hmain, hsame₁, hsav₁, hrep₁⟩ :=
      main_readOnly (hro argv List.mem_cons_self) hsav hrep
    obtain ⟨fs', outs, hrun, hsame⟩ :=
      ih (fun argv' hargv => hro argv' (List.mem_cons_of_mem _ hargv)) hsav₁
      hrep₁
    refine ⟨fs', out :: outs, ?_, hsame₁.trans hsame⟩
    simp only [runProcesses, hmain, hrun, Option.bind_eq_bind, Option.bind_some]

/-- What `save_file_system` writes for states that agree. -/
theorem Same.saved {fs fs' : FileSystem} (h : Same fs fs') :
    savedStore fs' .fat = savedStore fs .fat ∧ savedStore fs' .disk = savedStore fs .disk ∧
      ∀ i, (fs.entries i).use ≠ 0 → entryLine (fs'.entries i) = entryLine (fs.entries i) := by
  refine ⟨?_, ?_, fun i hi => ?_⟩
  · simp only [savedStore, fatText, h.fat]
  · simp only [savedStore, diskText, diskLine, h.disk]
  · obtain ⟨hname, hsize, hstart⟩ := h.entry i hi
    simp only [entryLine, hname, hsize, hstart, h.use i]

/-- The state is saved by the first process that has enough arguments. -/
theorem Shell.saved_run {argvs : List (List CString)} {s : Shell}
    (h : s.saved = true ∨ ∃ argv ∈ argvs, ¬ (argv.length < 2 ∨ 4 < argv.length)) :
    (s.run argvs).1.saved = true := by
  induction argvs generalizing s with
  | nil => simpa [Shell.run] using h
  | cons argv argvs ih =>
    apply ih
    by_cases hargc : argv.length < 2 ∨ 4 < argv.length
    · rw [Shell.step, if_pos hargc]
      rcases h with hsaved | ⟨argv', hmem, hargc'⟩
      · exact Or.inl hsaved
      · rcases List.mem_cons.mp hmem with rfl | hmem
        · exact absurd hargc hargc'
        · exact Or.inr ⟨argv', hmem, hargc'⟩
    · left
      rw [Shell.step, if_neg hargc]
      cases selectOp argv <;> rfl

/-- After any commands, one of which has saved, processes that read, list or fail leave the files
with the FAT and the blocks as they are, byte for byte, and the lines of the entries in use as
well. -/
theorem readOnly_keeps_blocks {argvs queries : List (List CString)}
    (hnames : ∀ argv ∈ argvs, ∀ op ∈ selectOp argv, op.Nameable)
    (hsaved : ∃ argv ∈ argvs, ¬ (argv.length < 2 ∨ 4 < argv.length))
    (hro : ∀ argv ∈ queries, ReadOnly argv) :
    ∃ fs fs' outs outs', runProcesses Fopen.all argvs noFiles = some (savedStore fs, outs) ∧
      runProcesses Fopen.all queries (savedStore fs) = some (savedStore fs', outs') ∧
      savedStore fs' .fat = savedStore fs .fat ∧ savedStore fs' .disk = savedStore fs .disk ∧
      ∀ i, (fs.entries i).use ≠ 0 → entryLine (fs'.entries i) = entryLine (fs.entries i) := by
  obtain ⟨store, hrun, hholds⟩ := holds_noFiles.runProcesses argvs hnames
  have hsaved' := Shell.saved_run (s := Shell.start) (Or.inr hsaved)
  rcases hholds with ⟨hstart, -⟩ | ⟨-, -, fs, chain, rfl, hsav, hrep⟩
  · rw [hstart] at hsaved'
    exact absurd hsaved' (by simp [Shell.start])
  · obtain ⟨fs', outs', hqueries, hsame⟩ := runProcesses_readOnly hro hsav hrep
    exact ⟨fs, fs', _, outs', hrun, hqueries, hsame.saved⟩

theorem readOnly_keeps_blocks_list :
    ∃ fs fs' outs outs', runProcesses Fopen.all someCommands noFiles = some (savedStore fs, outs) ∧
      runProcesses Fopen.all [Op.list.argv, [word "fat"]] (savedStore fs) =
        some (savedStore fs', outs') ∧
      savedStore fs' .fat = savedStore fs .fat ∧ savedStore fs' .disk = savedStore fs .disk ∧
      ∀ i, (fs.entries i).use ≠ 0 → entryLine (fs'.entries i) = entryLine (fs.entries i) := by
  refine readOnly_keeps_blocks nameable_someCommands ⟨_, List.mem_cons_self, by decide⟩ ?_
  intro argv hargv op hop
  left
  rcases List.mem_pair.mp hargv with rfl | rfl
  · rw [selectOp_argv] at hop
    exact (Option.some.inj hop).symm
  · have hnone : selectOp [nameA] = none := by decide
    exact absurd (hnone.symm.trans hop) (by simp)

end SchoolOS.Fat
