import SchoolOS.Fat.RoundTrip
import SchoolOS.Fat.Refinement

/-!
# One process per command

`Serial` and `DiskOk` hold in a new process and are kept by every call that creates only files with
names that `%s` can read back. So the state that a process loads agrees with the state that the one
before it saved, and a sequence of processes prints what one process would.
-/

namespace SchoolOS.Fat

open Function Loop

/-! ## Agreement keeps the represented directory -/

theorem Same.represents {fs fs' : FileSystem} {d : Directory}
    {chain : Fin ENTRY → List (Fin BLOCK_SIZE)} (hsame : Same fs fs')
    (h : Represents fs d chain) : Represents fs' d chain where
  unused := by
    intro i hi
    rw [hsame.use i]
    exact h.unused i hi
  holds := by
    intro i f hi
    have hh := h.holds i f hi
    obtain ⟨hname, hsize, hstart⟩ := hsame.entry i (by simp [hh.use])
    have hframe : Holds fs'.fat fs'.disk _ _ _ := hh.congr
      (fun b _ => congrFun hsame.fat b) (fun b _ => hsame.disk b)
    exact ⟨(hsame.use i).trans hh.use, hname.trans hh.name, hsize.trans hh.size,
      by simpa only [hstart] using hframe.walk, hframe.content, hframe.full, hframe.fits⟩
  disjoint := h.disjoint
  owned := by
    intro b
    rw [hsame.fat]
    exact h.owned b
  length_eq := h.length_eq

/-! ## The calls keep the state serial -/

theorem serial_fresh : Serial fresh :=
  ⟨0, fun _ => ⟨fun hi => absurd hi (Nat.not_lt_zero _), fun _ =>
    ⟨CharArray.str_zero _, rfl, rfl, rfl⟩⟩⟩

theorem diskOk_fresh : DiskOk fresh := by
  intro b
  have hstr : (fresh.disk b).str = [] := CharArray.str_zero _
  rw [CharArray.strlen, hstr]
  simp

/-- Every entry before the first free one is in use. -/
theorem use_of_lt_freeEntry {fs : FileSystem} {k j : Fin ENTRY} (hk : fs.freeEntry = some k)
    (hj : j < k) : (fs.entries j).use ≠ 0 := by
  intro huse
  exact absurd hj (not_lt.mpr (le_of_find?_finRange hk (decide_eq_true huse)))

/-- An entry in use is one of the named ones. -/
theorem SerialAt.lt_of_use {entries : Fin ENTRY → FileEntry} {n : ℕ} (h : SerialAt entries n)
    {i : Fin ENTRY} (hi : (entries i).use ≠ 0) : i.val < n := by
  by_contra hge
  exact hi ((h i).2 (Nat.le_of_not_lt hge)).2.2.2

/-- A change of the numbers of an entry in use. -/
theorem SerialAt.update_numbers {entries entries' : Fin ENTRY → FileEntry} {n : ℕ}
    (h : SerialAt entries n) {k : Fin ENTRY} (hk : (entries k).use ≠ 0)
    (hname : ∀ i, (entries' i).fileName = (entries i).fileName)
    (hother : ∀ i, i ≠ k → entries' i = entries i) : SerialAt entries' n := by
  intro i
  refine ⟨fun hi => by rw [hname i]; exact (h i).1 hi, fun hi => ?_⟩
  have hik : i ≠ k := by
    rintro rfl
    exact absurd (h.lt_of_use hk) (Nat.not_lt.mpr hi)
  rw [hother i hik]
  exact (h i).2 hi

/-- A new file in the first free entry, with a name that can be read back. -/
theorem SerialAt.update_name {entries : Fin ENTRY → FileEntry} {n : ℕ} (h : SerialAt entries n)
    {k : Fin ENTRY} (hk : ∀ j, j < k → (entries j).use ≠ 0) {e : FileEntry}
    (hclean : CleanName e.fileName.str) (hlen : e.fileName.strlen ≤ FILE_NAME) :
    SerialAt (update entries k e) (max n (k + 1)) := by
  -- all entries before `k` are in use, so `k` is at most the first nameless one
  have hkn : k.val ≤ n := by
    by_contra hlt
    have hn : n < k.val := by omega
    exact absurd (h.lt_of_use (hk ⟨n, by omega⟩ hn)) (lt_irrefl n)
  intro i
  by_cases hik : i = k
  · subst hik
    rw [update_self]
    exact ⟨fun _ => ⟨hclean, hlen⟩, fun hi => by omega⟩
  · have hne := Fin.val_ne_of_ne hik
    rw [update_of_ne hik]
    exact ⟨fun hi => (h i).1 (by omega), fun hi => (h i).2 (by omega)⟩

/-- The state of a process that can be saved and loaded. -/
structure Savable (fs : FileSystem) : Prop where
  serial : Serial fs
  disk : DiskOk fs

theorem savable_fresh : Savable fresh := ⟨serial_fresh, diskOk_fresh⟩

/-- A prefix of a clean name is clean, unless it is empty. -/
theorem CleanName.take {name : Bytes} (h : CleanName name) {n : ℕ} (hn : n ≠ 0) :
    CleanName (name.take n) := by
  refine ⟨?_, fun c hc => h.2 c (List.mem_of_mem_take hc)⟩
  simpa [List.take_eq_nil_iff, hn] using h.1

theorem DiskOk.create {fs : FileSystem} (h : DiskOk fs) (name : CString) :
    DiskOk (createFile name fs).1 := by
  unfold createFile
  split
  · exact h
  · split
    · exact h
    · split
      · exact h
      · rename_i fb hblock
        intro b
        by_cases hb : b = fb
        · subst hb
          have hstr : ((fs.disk b).strcpy []).str = [] :=
            CharArray.str_strcpy _ (by simp) (Nat.succ_pos _)
          simp [CharArray.strlen, hstr]
        · simpa [hb] using h b

/-- `create_file` with a name that can be read back, or one that is not stored. -/
theorem Savable.create {fs : FileSystem} (h : Savable fs) (name : CString)
    (hclean : fs.lookup name.bytes = none → fs.freeEntry ≠ none → fs.freeBlock ≠ none →
      CleanName name.bytes) : Savable (createFile name fs).1 := by
  refine ⟨?_, h.disk.create name⟩
  obtain ⟨n, hn⟩ := h.serial
  unfold createFile
  split
  · exact h.serial
  · rename_i hlook
    split
    · exact h.serial
    · rename_i k hfree
      split
      · exact h.serial
      · rename_i fb hblock
        have hname := str_storedName (fs.entries k).fileName name
        refine ⟨_, hn.update_name (fun j hj => use_of_lt_freeEntry hfree hj) ?_ ?_⟩
        · simp only [hname]
          exact (hclean hlook (by simp [hfree]) (by simp [hblock])).take (by decide)
        · simp [CharArray.strlen, hname]

/-- What an iteration of `write_file` keeps: the names, the entries of other files, and the lines of
the disk. -/
structure WriteFrame (fs : FileSystem) (k : Fin ENTRY) (w : Write) : Prop where
  name : ∀ i, (w.fs.entries i).fileName = (fs.entries i).fileName
  other : ∀ i, i ≠ k → w.fs.entries i = fs.entries i
  disk : DiskOk w.fs
  nul_free : (0 : UInt8) ∉ w.content

private theorem noNewline_ne_newline (x : UInt8) : noNewline x ≠ 10 := by
  unfold noNewline
  split
  · decide
  · assumption

theorem DiskOk.afterFill {fs : FileSystem} (h : DiskOk fs) (k : Fin ENTRY) (b : Fin BLOCK_SIZE)
    {c : Bytes} (hc : (0 : UInt8) ∉ c) :
    DiskOk (fs.afterFill k b (fill (fs.disk b) (fs.disk b).strlen c (fs.entries k).fileSize)) := by
  intro x
  by_cases hx : x = b
  · subst hx
    obtain ⟨-, -, hstr⟩ := fill_strlen (fs.disk x) (fs.entries k).fileSize hc (h x).1
    obtain ⟨hlen, hnl⟩ := h x
    simp only [CharArray.strlen, FileSystem.afterFill, update_self] at hstr hlen ⊢
    rw [hstr]
    refine ⟨by simp only [List.length_append, List.length_map, List.length_take]; omega, ?_⟩
    intro hmem
    rcases List.mem_append.mp hmem with hmem | hmem
    · exact hnl hmem
    · obtain ⟨y, -, hy⟩ := List.mem_map.mp hmem
      exact noNewline_ne_newline y hy
  · simpa [FileSystem.afterFill, hx] using h x

theorem DiskOk.link {fs : FileSystem} (h : DiskOk fs) (b nb : Fin BLOCK_SIZE) :
    DiskOk (fs.link b nb) := by
  intro x
  by_cases hx : x = nb
  · subst hx
    have hstr : ((fs.disk x).strcpy []).str = [] :=
      CharArray.str_strcpy _ (by simp) (Nat.succ_pos _)
    simp [FileSystem.link, CharArray.strlen, hstr]
  · simpa [FileSystem.link, hx] using h x

theorem WriteFrame.step {fs : FileSystem} {k : Fin ENTRY} {w : Write} (h : WriteFrame fs k w) :
    WriteFrame fs k (writeStep k w) := by
  obtain ⟨fs₁, b, c, full⟩ := w
  have hdisk := h.disk.afterFill k b h.nul_free
  obtain ⟨hrest, -, -⟩ := fill_strlen (fs₁.disk b) (fs₁.entries k).fileSize h.nul_free
    (h.disk b).1
  have hname : ∀ i v, (update fs₁.entries k { fs₁.entries k with fileSize := v } i).fileName =
      (fs.entries i).fileName := by
    intro i v
    rw [← h.name i]
    by_cases hik : i = k
    · subst hik
      rw [update_self]
    · rw [update_of_ne hik]
  have hother : ∀ i v, i ≠ k →
      update fs₁.entries k { fs₁.entries k with fileSize := v } i = fs.entries i := by
    intro i v hik
    rw [update_of_ne hik]
    exact h.other i hik
  have hdrop : (0 : UInt8) ∉ c.drop (BYTES - (fs₁.disk b).strlen) :=
    fun hmem => h.nul_free (List.mem_of_mem_drop hmem)
  simp only [writeStep]
  split
  · exact ⟨fun i => hname i _, fun i => hother i _, hdisk, by simp⟩
  · split
    · exact ⟨fun i => hname i _, fun i => hother i _, hdisk.link _ _, by rwa [hrest]⟩
    · exact ⟨fun i => hname i _, fun i => hother i _, hdisk, by rwa [hrest]⟩

/-- What a call of `write_file` that finds its file keeps. -/
theorem writeFile_frame {fs fs' : FileSystem} {out : Output} (h : DiskOk fs)
    {name content : CString} (hstep : writeFile name content fs = some (fs', out)) :
    fs' = fs ∨ ∃ k w, fs.lookup name.bytes = some k ∧ WriteFrame fs k w ∧ w.fs = fs' := by
  unfold writeFile at hstep
  split at hstep
  · exact Or.inl (Prod.mk.inj (Option.some.inj hstep)).1.symm
  · rename_i k hlook
    obtain ⟨start, -, hstep⟩ := Option.bind_eq_some_iff.mp hstep
    obtain ⟨block, -, hstep⟩ := Option.bind_eq_some_iff.mp hstep
    obtain ⟨w, hloop, hstep⟩ := Option.bind_eq_some_iff.mp hstep
    have hframe := (whileLoop_invariant (WriteFrame fs k)
      (fun w w' hw _ hbody => Option.some.inj hbody ▸ hw.step)
      ⟨fun _ => rfl, fun _ _ => rfl, h, content.nul_free⟩ hloop).1
    have hfs : w.fs = fs' := by
      split at hstep <;> exact (Prod.mk.inj (Option.some.inj hstep)).1
    exact Or.inr ⟨k, w, hlook, hframe, hfs⟩

theorem Savable.write {fs fs' : FileSystem} {out : Output} (h : Savable fs) (name content : CString)
    (hstep : writeFile name content fs = some (fs', out)) : Savable fs' := by
  rcases writeFile_frame h.disk hstep with rfl | ⟨k, w, hlook, hframe, rfl⟩
  · exact h
  · have hk : (fs.entries k).use ≠ 0 := by
      have hp := List.find?_some hlook
      simp only [decide_eq_true_eq] at hp
      exact hp.1
    obtain ⟨n, hn⟩ := h.serial
    exact ⟨⟨n, hn.update_numbers hk hframe.name hframe.other⟩, hframe.disk⟩

theorem Savable.delete {fs fs' : FileSystem} {out : Output} (h : Savable fs) (name : CString)
    (hstep : deleteFile name fs = some (fs', out)) : Savable fs' := by
  unfold deleteFile at hstep
  split at hstep
  · obtain ⟨rfl, -⟩ := Prod.mk.inj (Option.some.inj hstep)
    exact h
  · rename_i k hlook
    obtain ⟨start, -, hstep⟩ := Option.bind_eq_some_iff.mp hstep
    obtain ⟨fat, -, hstep⟩ := Option.bind_eq_some_iff.mp hstep
    obtain ⟨rfl, -⟩ := Prod.mk.inj (Option.some.inj hstep)
    have hk : (fs.entries k).use ≠ 0 := by
      have hp := List.find?_some hlook
      simp only [decide_eq_true_eq] at hp
      exact hp.1
    obtain ⟨n, hn⟩ := h.serial
    -- only the numbers of an entry change, and its name can still be read back
    refine ⟨⟨n, hn.update_numbers hk ?_ ?_⟩, h.disk⟩
    · intro i
      by_cases hik : i = k
      · subst hik
        simp
      · simp [hik]
    · intro i hik
      simp [hik]

/-- Every call leaves lines on the disk that `fgets` reads whole, whatever names it stores. -/
theorem DiskOk.step {fs fs' : FileSystem} {op : Op} {out : Output} (h : DiskOk fs)
    (hstep : step op fs = some (fs', out)) : DiskOk fs' := by
  cases op with
  | create name =>
    rw [step_create] at hstep
    obtain ⟨rfl, -⟩ := Prod.mk.inj (Option.some.inj hstep)
    exact h.create name
  | write name content =>
    rcases writeFile_frame h hstep with rfl | ⟨k, w, -, hframe, rfl⟩
    · exact h
    · exact hframe.disk
  | read name =>
    obtain ⟨out', -, hout⟩ := Option.map_eq_some_iff.mp hstep
    obtain ⟨rfl, -⟩ := Prod.mk.inj hout
    exact h
  | delete name =>
    simp only [Fat.step, deleteFile] at hstep
    split at hstep
    · obtain ⟨rfl, -⟩ := Prod.mk.inj (Option.some.inj hstep)
      exact h
    · obtain ⟨start, -, hstep⟩ := Option.bind_eq_some_iff.mp hstep
      obtain ⟨fat, -, hstep⟩ := Option.bind_eq_some_iff.mp hstep
      obtain ⟨rfl, -⟩ := Prod.mk.inj (Option.some.inj hstep)
      exact h
  | list =>
    obtain ⟨rfl, -⟩ := Prod.mk.inj (Option.some.inj hstep)
    exact h

/-- The call is no `create_file`, or the name it would store can be read back. -/
def Op.StoresClean (op : Op) (fs : FileSystem) : Prop :=
  ∀ name, op = .create name → fs.lookup name.bytes = none → fs.freeEntry ≠ none →
    fs.freeBlock ≠ none → CleanName name.bytes

theorem Savable.step {fs fs' : FileSystem} {op : Op} {out : Output} (h : Savable fs)
    (hclean : op.StoresClean fs) (hstep : step op fs = some (fs', out)) : Savable fs' := by
  cases op with
  | create name =>
    rw [step_create] at hstep
    obtain ⟨rfl, -⟩ := Prod.mk.inj (Option.some.inj hstep)
    exact h.create name (hclean name rfl)
  | write name content => exact h.write name content hstep
  | read name =>
    obtain ⟨out', -, hout⟩ := Option.map_eq_some_iff.mp hstep
    obtain ⟨rfl, -⟩ := Prod.mk.inj hout
    exact h
  | delete name => exact h.delete name hstep
  | list =>
    obtain ⟨rfl, -⟩ := Prod.mk.inj (Option.some.inj hstep)
    exact h

/-! ## Processes -/

@[simp] theorem Output.append_nil (o : Output) : o ++ printf [] = o := by
  show Output.mk (o.stdout ++ []) (o.stderr ++ []) = o
  rw [List.append_nil, List.append_nil]

@[simp] theorem Output.nil_append (o : Output) : printf [] ++ o = o := rfl

/-- The files after `fs` has been saved. -/
def savedStore (fs : FileSystem) : Store
  | .fileEntry => some (entryText fs)
  | .fat => some (fatText fs)
  | .disk => some (diskText fs)

theorem saveFileSystem_all (fs : FileSystem) (store : Store) :
    saveFileSystem Fopen.all.write fs store = (savedStore fs, 0) := by
  simp only [saveFileSystem, Fopen.all, Bool.not_true, Bool.false_eq_true, if_false, Prod.mk.injEq,
    and_true]
  funext file
  cases file <;> rfl

theorem loadFileSystem_saved (fs : FileSystem) :
    loadFileSystem Fopen.all.read (savedStore fs) zeroed = (reload fs, 0, printf []) := by
  have hreload : reload fs = (loadFileSystem Fopen.all.read (savedStore fs) zeroed).1 := by
    rw [reload, saveFileSystem_all]
  rw [hreload]
  simp [loadFileSystem, Fopen.all, openRead, savedStore]

theorem loadFileSystem_noFiles :
    loadFileSystem Fopen.all.read noFiles zeroed = (fresh, 0, freshWarning) := rfl

theorem selectOp_argv (op : Op) : selectOp op.argv = some op := by
  have hread : ascii "read" ≠ ascii "create" := by decide
  have hdelete : ascii "delete" ≠ ascii "create" := by decide
  have hdelete' : ascii "delete" ≠ ascii "read" := by decide
  cases op <;> simp [selectOp, Op.argv, word, hread, hdelete, hdelete']

/-- A process that loads `fs`, runs one operation and saves. -/
theorem main_eq {op : Op} {store : Store} {fs fs' : FileSystem} {warning out : Output}
    (hload : loadFileSystem Fopen.all.read store zeroed = (fs, 0, warning))
    (hstep : step op fs = some (fs', out)) :
    main Fopen.all op.argv store = some (savedStore fs', warning ++ out) := by
  have hargc : ¬ (op.argv.length < 2 ∨ 4 < op.argv.length) := by
    cases op <;> simp [Op.argv]
  rw [main, if_neg hargc]
  simp [hload, selectOp_argv, hstep, saveFileSystem_all]

/-- A command whose name can be saved and loaded: not empty, without white space, and not too
long. -/
def Op.Nameable (op : Op) : Prop :=
  ∀ name ∈ op.name?, CleanName name.bytes ∧ name.bytes.length ≤ FILE_NAME

theorem Op.Nameable.storesClean {op : Op} (h : op.Nameable) (fs : FileSystem) :
    op.StoresClean fs := by
  rintro name rfl - - -
  exact (h name rfl).1

/-- Processes that start from a saved state print what the directory says. -/
theorem runProcesses_saved {fs : FileSystem} {d : Directory}
    {chain : Fin ENTRY → List (Fin BLOCK_SIZE)} (hrep : Represents fs d chain) (hsav : Savable fs)
    (ops : List Op) (hops : ∀ op ∈ ops, op.Nameable) :
    ∃ store, runProcesses Fopen.all (ops.map Op.argv) (savedStore fs) =
      some (store, (d.run ops).2) := by
  induction ops generalizing fs d chain with
  | nil => exact ⟨_, rfl⟩
  | cons op ops ih =>
    obtain ⟨hsame, hserial, hdisk⟩ := reload_spec hsav.serial hsav.disk
    obtain ⟨fs', chain', hstep, hrep'⟩ := step_represents (hsame.represents hrep) op
    have hsav' := Savable.step ⟨hserial, hdisk⟩ ((hops op (by simp)).storesClean _) hstep
    obtain ⟨store, hrun⟩ := ih hrep' hsav' fun op hop => hops op (by simp [hop])
    refine ⟨store, ?_⟩
    simp [runProcesses, main_eq (loadFileSystem_saved fs) hstep, hrun, Directory.run]

/-- The outputs of a sequence of processes, of which the first finds no saved state. -/
def warnFirst : List Output → List Output
  | [] => []
  | out :: outs => (freshWarning ++ out) :: outs

/-- One process per command, starting without saved files and with every `fopen` succeeding, prints
for every command what one process prints that runs all of them; the first process warns that it
found no saved state. -/
theorem runProcesses_eq_run (ops : List Op) (hops : ∀ op ∈ ops, op.Nameable) :
    ∃ fs store outs, run ops fresh = some (fs, outs) ∧
      runProcesses Fopen.all (ops.map Op.argv) noFiles = some (store, warnFirst outs) := by
  obtain ⟨fs, chain, hrun, -⟩ := run_represents represents_fresh ops
  refine ⟨fs, ?_⟩
  cases ops with
  | nil => exact ⟨noFiles, _, hrun, rfl⟩
  | cons op ops =>
    obtain ⟨fs', chain', hstep, hrep'⟩ := step_represents represents_fresh op
    have hsav' := savable_fresh.step ((hops op (by simp)).storesClean _) hstep
    obtain ⟨store, hprocs⟩ := runProcesses_saved hrep' hsav' ops fun op hop =>
      hops op (by simp [hop])
    refine ⟨store, _, hrun, ?_⟩
    simp [runProcesses, main_eq loadFileSystem_noFiles hstep, hprocs, Directory.run, warnFirst]

theorem runProcesses_eq_run_create :
    (∀ op ∈ [Op.create nameA, Op.list], op.Nameable) ∧
      ∃ fs store outs, run [Op.create nameA, Op.list] fresh = some (fs, outs) ∧
        runProcesses Fopen.all ([Op.create nameA, Op.list].map Op.argv) noFiles =
          some (store, warnFirst outs) := by
  have hops : ∀ op ∈ [Op.create nameA, Op.list], op.Nameable := by
    intro op hop name hname
    rcases List.mem_pair.mp hop with rfl | rfl
    · obtain rfl := Option.some.inj hname
      exact ⟨⟨List.cons_ne_nil _ _, List.forall_mem_singleton.mpr rfl⟩, by decide⟩
    · simp [Op.name?] at hname
  exact ⟨hops, runProcesses_eq_run _ hops⟩

end SchoolOS.Fat
