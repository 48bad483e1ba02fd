import SchoolOS.Fat.Process

/-!
# Which names survive

Two properties of the directory hold only for part of the names that `create_file` accepts. A saved
directory is loaded back exactly as long as no name with white space, and no empty name, has been
stored (`directoryReloads_iff`): `%s` writes any name but reads only tokens. And a name identifies a
file exactly as long as no name longer than `FILE_NAME` has been stored (`namesIdentify_iff`): the
duplicate check and the lookups compare the whole argument, while only its first bytes are stored.
-/

namespace SchoolOS.Fat

open Function Loop

/-- `create_file(name)` makes a new file: no file has the name, and an entry and a block are
free. -/
def Creates (fs : FileSystem) (name : CString) : Prop :=
  fs.lookup name.bytes = none ∧ fs.freeEntry ≠ none ∧ fs.freeBlock ≠ none

/-- What `create_file` prints when it has made a file. -/
def createdOutput (name : CString) : Output :=
  printf (ascii "File '" ++ name.bytes ++ ascii "' created.\n")

/-- A new file takes a free entry and a free block, and is in use under the first bytes of its
name. -/
theorem createFile_of_creates {fs : FileSystem} {name : CString} (h : Creates fs name) :
    ∃ k b, (fs.entries k).use = 0 ∧ ((createFile name fs).1.entries k).use = 1 ∧
      ((createFile name fs).1.entries k).fileName.str = name.bytes.take FILE_NAME ∧
      (∀ j, j ≠ k → (createFile name fs).1.entries j = fs.entries j) ∧
      ∀ c, c ≠ b → (createFile name fs).1.fat c = fs.fat c := by
  obtain ⟨hlook, hentry, hblock⟩ := h
  obtain ⟨k, hk⟩ := Option.ne_none_iff_exists'.mp hentry
  obtain ⟨b, hb⟩ := Option.ne_none_iff_exists'.mp hblock
  refine ⟨k, b, by simpa using List.find?_some hk, ?_, ?_, ?_, ?_⟩
  · simp [createFile, hlook, hk, hb]
  · simpa [createFile, hlook, hk, hb] using str_storedName _ name
  · intro j hj
    simp [createFile, hlook, hk, hb, hj]
  · intro c hc
    simp [createFile, hlook, hk, hb, hc]

/-! ## Reading the directory back -/

/-- A new process that loads the saved directory finds every entry that was in use as it was, and no
other entry in use. -/
def DirectoryReloads (fs : FileSystem) : Prop :=
  ∀ i, ((fs.entries i).use ≠ 0 → (fs.entries i).Agrees ((reload fs).entries i)) ∧
    ((fs.entries i).use = 0 → ((reload fs).entries i).use = 0)

theorem Savable.directoryReloads {fs : FileSystem} (h : Savable fs) : DirectoryReloads fs := by
  obtain ⟨hsame, -, -⟩ := reload_spec h.serial h.disk
  intro i
  refine ⟨fun hi => ?_, fun hi => by rw [hsame.use i, hi]⟩
  obtain ⟨hname, hsize, hstart⟩ := hsame.entry i hi
  exact ⟨hname, hsize, hstart, hsame.use i⟩

private theorem nul_notMem_scanInt {s : Bytes} (h : (0 : UInt8) ∉ s) :
    (0 : UInt8) ∉ (scanInt s).2 := by
  have hsign : ∀ t : Bytes, (scanSign t).2 <:+ t := by
    intro t
    cases t with
    | nil => exact List.suffix_refl _
    | cons c t =>
      simp only [scanSign]
      split
      · exact List.suffix_cons _ _
      · split
        · exact List.suffix_cons _ _
        · exact List.suffix_refl _
  have hsuffix : (scanInt s).2 <:+ s := by
    simp only [scanInt]
    split
    · exact (hsign _).trans (List.dropWhile_suffix _)
    · exact (List.dropWhile_suffix _).trans ((hsign _).trans (List.dropWhile_suffix _))
  exact fun hmem => h (hsuffix.subset hmem)

private theorem nul_notMem_scanString {s tok rest : Bytes} (h : (0 : UInt8) ∉ s)
    (hscan : scanString s = (some tok, rest)) : (0 : UInt8) ∉ tok ∧ (0 : UInt8) ∉ rest := by
  simp only [scanString] at hscan
  split at hscan
  · simp at hscan
  · obtain ⟨htok, rfl⟩ := Prod.mk.inj hscan
    obtain rfl := Option.some.inj htok
    have hdrop := List.dropWhile_suffix isSpace (l := s)
    have htake : (s.dropWhile isSpace).takeWhile (! isSpace ·) <+: s.dropWhile isSpace :=
      List.takeWhile_prefix _
    exact ⟨fun hmem => h (hdrop.subset (htake.subset hmem)),
      fun hmem => h (hdrop.subset ((List.dropWhile_suffix _).subset hmem))⟩

/-- An entry that `fscanf` marks as in use has the name that `%s` has read. -/
theorem clean_of_scanEntry {e : FileEntry} {s : Bytes} (hs : (0 : UInt8) ∉ s) (he : e.use = 0) :
    (0 : UInt8) ∉ (scanEntry e s).2 ∧
      ((scanEntry e s).1.use ≠ 0 → CleanName (scanEntry e s).1.fileName.str) := by
  rcases hscan : scanString s with ⟨tok, s₁⟩
  cases tok with
  | none =>
    have hs₁ : s₁ = [] := by
      simp only [scanString] at hscan
      split at hscan
      · exact (Prod.mk.inj hscan).2.symm
      · simp at hscan
    simp [scanEntry, hscan, he, hs₁]
  | some tok =>
    obtain ⟨htok, hs₁⟩ := nul_notMem_scanString hs hscan
    obtain ⟨hne, hspace⟩ := scanString_spec hscan
    have hclean : CleanName (e.fileName.strcpy tok).str := by
      rw [CharArray.str_strcpy_take _ htok]
      exact CleanName.take ⟨hne, hspace⟩ (Nat.succ_ne_zero _)
    -- each `%d` that fails leaves `use` at zero; the entry is in use only if all three succeed
    have hs₂ := nul_notMem_scanInt hs₁
    rcases hscan₁ : scanInt s₁ with ⟨v₁, s₂⟩
    rw [hscan₁] at hs₂
    have hs₃ := nul_notMem_scanInt hs₂
    rcases hscan₂ : scanInt s₂ with ⟨v₂, s₃⟩
    rw [hscan₂] at hs₃
    have hs₄ := nul_notMem_scanInt hs₃
    rcases hscan₃ : scanInt s₃ with ⟨v₃, s₄⟩
    rw [hscan₃] at hs₄
    cases v₁ with
    | none => simpa [scanEntry, hscan, hscan₁, he] using hs₂
    | some v₁ =>
      cases v₂ with
      | none => simpa [scanEntry, hscan, hscan₁, hscan₂, he] using hs₃
      | some v₂ =>
        cases v₃ with
        | none => simpa [scanEntry, hscan, hscan₁, hscan₂, hscan₃, he] using hs₄
        | some v₃ =>
          simp only [scanEntry, hscan, hscan₁, hscan₂, hscan₃]
          exact ⟨hs₄, fun _ => hclean⟩

private theorem nul_notMem_decimal (z : ℤ) : (0 : UInt8) ∉ decimal z := by
  have hnat : (0 : UInt8) ∉ natDecimal z.natAbs := by
    intro hmem
    have := isDigit_of_mem_natDecimal hmem
    simp [isDigit] at this
  unfold decimal
  split
  · simpa using hnat
  · exact hnat

theorem nul_notMem_entryText (fs : FileSystem) : (0 : UInt8) ∉ entryText fs := by
  have hspace : (0 : UInt8) ∉ ascii " " := by decide
  have hnewline : (0 : UInt8) ∉ ascii "\n" := by decide
  intro hmem
  obtain ⟨i, -, hi⟩ := List.mem_flatMap.mp hmem
  simp only [entryLine, List.mem_append, hspace, hnewline, nul_notMem_decimal,
    CharArray.nul_notMem_str, or_self] at hi

/-- Whatever was saved, an entry loaded as in use has a name that `%s` can read. -/
theorem clean_of_reload_use (fs : FileSystem) (i : Fin ENTRY)
    (hi : ((reload fs).entries i).use ≠ 0) : CleanName ((reload fs).entries i).fileName.str := by
  -- the entries behind `k` are those of the new process, and the ones before it have been read
  obtain ⟨s', -, -, hclean⟩ := scanAll_invariant scanEntry
    (fun k a s => (0 : UInt8) ∉ s ∧ (∀ i : Fin ENTRY, k ≤ i.val → a i = zeroEntry) ∧
      ∀ i : Fin ENTRY, i.val < k → (a i).use ≠ 0 → CleanName (a i).fileName.str)
    (fun _ => zeroEntry) (entryText fs)
    ⟨nul_notMem_entryText fs, fun _ _ => rfl, fun i hi => absurd hi (Nat.not_lt_zero _)⟩
    (by
      rintro i a s ⟨hs, hunread, hread⟩
      obtain ⟨hs', hclean⟩ := clean_of_scanEntry (e := a i) hs (by rw [hunread i le_rfl]; rfl)
      refine ⟨hs', ?_, forall_lt_update
        (R := fun _ (e : FileEntry) => e.use ≠ 0 → CleanName e.fileName.str) hread hclean⟩
      intro j hj
      rw [update_of_ne (Fin.ne_of_val_ne (by omega))]
      exact hunread j (by omega))
  rw [reload_eq] at hi ⊢
  exact hclean i i.isLt hi

/-- A new file survives only under a name that `%s` can read. -/
theorem clean_of_directoryReloads {fs : FileSystem} {name : CString} (h : Creates fs name)
    (hlen : name.bytes.length ≤ FILE_NAME) (hreload : DirectoryReloads (createFile name fs).1) :
    CleanName name.bytes := by
  -- the new entry is loaded as in use, with the name under which it was saved
  obtain ⟨k, -, -, huse, hname, -, -⟩ := createFile_of_creates h
  obtain ⟨hname', -, -, huse'⟩ := (hreload k).1 (by simp [huse])
  have hclean := clean_of_reload_use (createFile name fs).1 k (by simp [huse', huse])
  rwa [hname', hname, List.take_of_length_le hlen] at hclean

/-- A run that ends with one more call. -/
theorem run_concat {ops : List Op} {op : Op} {fs fs' : FileSystem} {outs : List Output} :
    run (ops ++ [op]) fs = some (fs', outs) ↔
      ∃ fs₁ outs₁ out, run ops fs = some (fs₁, outs₁) ∧ step op fs₁ = some (fs', out) ∧
        outs = outs₁ ++ [out] := by
  induction ops generalizing fs fs' outs with
  | nil =>
    simp only [List.nil_append, run, Option.bind_eq_bind, Option.bind_eq_some_iff,
      Option.some.injEq, Prod.mk.injEq, Prod.exists]
    constructor
    · rintro ⟨fs₁, out, hstep, fs₂, outs₂, ⟨rfl, rfl⟩, rfl, rfl⟩
      exact ⟨fs, [], out, ⟨rfl, rfl⟩, hstep, rfl⟩
    · rintro ⟨fs₁, outs₁, out, ⟨rfl, rfl⟩, hstep, rfl⟩
      exact ⟨fs', out, hstep, fs', [], ⟨rfl, rfl⟩, rfl, rfl⟩
  | cons op₀ ops ih =>
    simp only [List.cons_append, run, Option.bind_eq_bind, Option.bind_eq_some_iff,
      Option.some.injEq, Prod.mk.injEq, Prod.exists, ih]
    constructor
    · rintro ⟨fs₀, out₀, hstep₀, fs₂, outs₂, ⟨fs₁, outs₁, out, hrun, hstep, rfl⟩, rfl, rfl⟩
      exact ⟨fs₁, _, out, ⟨fs₀, out₀, hstep₀, fs₁, outs₁, hrun, rfl, rfl⟩, hstep, rfl⟩
    · rintro ⟨fs₁, outs₁, out, ⟨fs₀, out₀, hstep₀, fs₂, outs₂, hrun, rfl, rfl⟩, hstep, rfl⟩
      exact ⟨fs₀, out₀, hstep₀, fs', _, ⟨fs₂, outs₂, out, hrun, hstep, rfl⟩, rfl, rfl⟩

/-- Every state of a run that stores only names that `%s` can read can be saved. -/
theorem savable_of_run {ops : List Op}
    (hclean : ∀ ops' name fs outs, ops' ++ [.create name] <+: ops →
      run ops' fresh = some (fs, outs) → Creates fs name → CleanName name.bytes)
    {ops' : List Op} (hpre : ops' <+: ops) {fs : FileSystem} {outs : List Output}
    (hrun : run ops' fresh = some (fs, outs)) : Savable fs := by
  induction ops' using List.reverseRecOn generalizing fs outs with
  | nil =>
    obtain ⟨rfl, -⟩ := Prod.mk.inj (Option.some.inj hrun)
    exact savable_fresh
  | append_singleton ops' op ih =>
    obtain ⟨fs₁, outs₁, out, hrun₁, hstep, -⟩ := run_concat.mp hrun
    refine (ih ((List.prefix_append _ _).trans hpre) hrun₁).step ?_ hstep
    rintro name rfl hlook hentry hblock
    exact hclean ops' name fs₁ outs₁ hpre hrun₁ ⟨hlook, hentry, hblock⟩

/-- The saved directory is loaded back in every state of a run exactly if every `create_file` of the
run that makes a file is given a name that is not empty and has no white space. -/
theorem directoryReloads_iff (ops : List Op) (hops : ∀ op ∈ ops, op.NameFits) :
    (∀ ops' fs outs, ops' <+: ops → run ops' fresh = some (fs, outs) → DirectoryReloads fs) ↔
      ∀ ops' name fs outs, ops' ++ [.create name] <+: ops → run ops' fresh = some (fs, outs) →
        Creates fs name → CleanName name.bytes := by
  constructor
  · intro hreload ops' name fs outs hpre hrun hcreates
    -- the state right after the call reloads as well
    have hlen : name.bytes.length ≤ FILE_NAME :=
      hops (.create name) (hpre.subset (by simp)) name rfl
    have hrun' := run_concat.mpr ⟨fs, outs, _, hrun, step_create name fs, rfl⟩
    exact clean_of_directoryReloads hcreates hlen (hreload _ _ _ hpre hrun')
  · intro hclean ops' fs outs hpre hrun
    exact (savable_of_run hclean hpre hrun).directoryReloads

theorem clean_of_mem_twoFiles {name : CString} (hmem : Op.create name ∈ twoFiles) :
    CleanName name.bytes := by
  simp only [twoFiles, List.mem_cons, Op.create.injEq, reduceCtorEq, List.not_mem_nil, or_false,
    false_or] at hmem
  rcases hmem with rfl | rfl
  · exact ⟨by decide, List.forall_mem_singleton.mpr (by decide)⟩
  · exact ⟨by decide, List.forall_mem_singleton.mpr (by decide)⟩

theorem directoryReloads_iff_twoFiles :
    (∀ op ∈ twoFiles, op.NameFits) ∧
      ∀ ops' fs outs, ops' <+: twoFiles → run ops' fresh = some (fs, outs) →
        DirectoryReloads fs := by
  refine ⟨nameFits_twoFiles, (directoryReloads_iff twoFiles nameFits_twoFiles).mpr ?_⟩
  intro ops' name fs outs hpre _ _
  exact clean_of_mem_twoFiles (hpre.subset (by simp))

/-- A new process without saved files can make any file. -/
theorem creates_fresh (name : CString) : Creates fresh name := by
  refine ⟨?_, ?_, ?_⟩
  · simp [FileSystem.lookup, List.find?_eq_none, fresh, startFresh]
  · intro h
    have := List.find?_eq_none.mp h ⟨0, by decide⟩ (List.mem_finRange _)
    simp [fresh, startFresh] at this
  · intro h
    have := List.find?_eq_none.mp h ⟨0, by decide⟩ (List.mem_finRange _)
    simp [fresh, startFresh] at this

/-- The file name `a b`. -/
def nameAB : CString := word "a b"

/-- The file `a b` is accepted, and lost when the directory is loaded back. -/
theorem not_directoryReloads_blank :
    (∀ op ∈ [Op.create nameAB], op.NameFits) ∧
      ∃ fs outs, run [.create nameAB] fresh = some (fs, outs) ∧ ¬ DirectoryReloads fs := by
  have hrun : run ([] ++ [.create nameAB]) fresh = some ((createFile nameAB fresh).1, _) :=
    run_concat.mpr ⟨fresh, [], _, rfl, step_create nameAB fresh, rfl⟩
  refine ⟨?_, (createFile nameAB fresh).1, _, hrun, fun hreload => ?_⟩
  · intro op hop name hname
    obtain rfl := List.mem_singleton.mp hop
    obtain rfl := Option.some.inj hname
    decide
  · have hclean := clean_of_directoryReloads (creates_fresh nameAB) (by decide) hreload
    exact absurd (hclean.2 32 (by decide)) (by decide)

/-! ## Names of any length -/

/-- A call that changes which files exist. -/
inductive NameCall where
  | create (name : CString)
  | delete (name : CString)

/-- The operation that is called. -/
def NameCall.op : NameCall → Op
  | .create name => .create name
  | .delete name => .delete name

/-- What `delete_file` prints when it has removed a file. -/
def deletedOutput (name : CString) : Output :=
  printf (ascii "File '" ++ name.bytes ++ ascii "' deleted.\n")

/-- A process together with the names that it has reported as created, and not as deleted since. -/
structure Session where
  fs : FileSystem
  live : List CString

/-- The names reported as created after one more call that printed `out`. -/
def NameCall.track (call : NameCall) (out : Output) (live : List CString) : List CString :=
  match call with
  | .create name => if out = createdOutput name then name :: live else live
  | .delete name => if out = deletedOutput name then live.filter (· ≠ name) else live

/-- One call of a session. -/
def Session.step (s : Session) (call : NameCall) : Option Session :=
  (Fat.step call.op s.fs).map fun r => ⟨r.1, call.track r.2 s.live⟩

/-- The calls of a session. -/
def Session.run (s : Session) (calls : List NameCall) : Option Session :=
  calls.foldlM Session.step s

/-- A session in a new process without saved files. -/
def Session.start : Session := ⟨fresh, []⟩

/-- Names identify files: no two entries in use hold the same name, and every name reported as
created is found. -/
structure NamesIdentify (s : Session) : Prop where
  unique : ∀ i j, (s.fs.entries i).use ≠ 0 → (s.fs.entries j).use ≠ 0 →
    (s.fs.entries i).fileName.str = (s.fs.entries j).fileName.str → i = j
  found : ∀ name ∈ s.live, s.fs.lookup name.bytes ≠ none

/-- The last bytes of a text that ends with `suffix`. -/
private theorem stdout_ne_of_last {l l' : Bytes} {a b : UInt8} (h : a ≠ b) (c : UInt8) :
    l ++ [a, c] ≠ l' ++ [b, c] := by
  -- the texts differ in their last byte but one
  intro heq
  have hrev := congrArg List.reverse heq
  simp at hrev
  exact h hrev.1

/-- `create_file` reports success exactly if it makes a file. -/
theorem create_output_iff {d : Directory} (name : CString) :
    (d.create name).2 = createdOutput name ↔
      d.find name.bytes = none ∧ d.vacant ≠ none ∧ d.free ≠ 0 := by
  have hexist : ascii " already exist\n" = ascii " already exis" ++ [116, 10] := by decide
  have hcreated : ascii "' created.\n" = ascii "' created" ++ [46, 10] := by decide
  simp only [Directory.create]
  cases hfind : d.find name.bytes with
  | some i =>
    simp only [reduceCtorEq, false_and, iff_false, createdOutput, printf, Output.mk.injEq, and_true]
    rw [hexist, hcreated, ← List.append_assoc, ← List.append_assoc]
    exact stdout_ne_of_last (by decide) 10
  | none =>
    cases hvac : d.vacant with
    | none => simp [perror, createdOutput, printf]
    | some k =>
      by_cases hfree : d.free = 0
      · simp [hfree, perror, createdOutput, printf]
      · simp [hfree, createdOutput]

/-- `delete_file` reports success exactly if it finds the name. -/
theorem delete_output_iff {d : Directory} (name : CString) :
    (d.delete name).2 = deletedOutput name ↔ d.lookup name.bytes ≠ none := by
  have hexist : ascii "' doesn't exist.\n" = ascii "' doesn't exis" ++ [116, 46, 10] := by decide
  have hdeleted : ascii "' deleted.\n" = ascii "' delete" ++ [100, 46, 10] := by decide
  simp only [Directory.delete]
  cases hlook : d.lookup name.bytes with
  | none =>
    simp only [deletedOutput, printf, Output.mk.injEq, and_true, ne_eq, not_true_eq_false,
      iff_false]
    rw [hexist, hdeleted]
    intro heq
    have hrev := congrArg List.reverse heq
    simp at hrev
  | some p => simp [deletedOutput]

/-- `Creates`, on directories. -/
theorem Represents.creates_iff {fs : FileSystem} {d : Directory}
    {chain : Fin ENTRY → List (Fin BLOCK_SIZE)} (h : Represents fs d chain) (name : CString) :
    Creates fs name ↔ d.find name.bytes = none ∧ d.vacant ≠ none ∧ d.free ≠ 0 := by
  have hblock : fs.freeBlock ≠ none ↔ d.free ≠ 0 := by
    rw [← h.freeCount_eq]
    constructor
    · intro hne
      obtain ⟨b, hb⟩ := Option.ne_none_iff_exists'.mp hne
      exact (freeCount_pos (freeBlock_eq_some hb)).ne'
    · exact fun hne hnone => hne (freeBlock_eq_none hnone)
  rw [Creates, h.toLinks.lookup_eq, h.toLinks.freeEntry_eq, hblock]

namespace Directory

/-- The directory after a `create_file` that makes a file. -/
theorem create_of_free {d : Directory} {name : CString} {k : Fin ENTRY}
    (hfind : d.find name.bytes = none) (hvac : d.vacant = some k) (hfree : d.free ≠ 0) :
    (d.create name).1 = update d k (some ⟨name.bytes.take FILE_NAME, []⟩) := by
  simp [create, hfind, hvac, hfree]

/-- A `create_file` that makes no file changes nothing. -/
theorem create_of_not {d : Directory} {name : CString}
    (h : ¬ (d.find name.bytes = none ∧ d.vacant ≠ none ∧ d.free ≠ 0)) : (d.create name).1 = d := by
  simp only [create]
  cases hfind : d.find name.bytes with
  | some i => rfl
  | none =>
    cases hvac : d.vacant with
    | none => rfl
    | some k =>
      by_cases hfree : d.free = 0
      · simp [hfree]
      · exact absurd ⟨hfind, by simp [hvac], hfree⟩ h

theorem find_ne_none_iff {d : Directory} {name : Bytes} :
    d.find name ≠ none ↔ ∃ i f, d i = some f ∧ f.name = name := by
  rw [Ne, find_eq_none_iff]
  push Not
  rfl

/-- Every stored name fits into an entry. -/
def NamesFit (d : Directory) : Prop := ∀ i f, d i = some f → f.name.length ≤ FILE_NAME

theorem NamesFit.update {d : Directory} (h : d.NamesFit) {k : Fin ENTRY} {o : Option File}
    (ho : ∀ f, o = some f → f.name.length ≤ FILE_NAME) : NamesFit (update d k o) := by
  intro i f hi
  by_cases hik : i = k
  · subst hik
    rw [update_self] at hi
    exact ho f hi
  · rw [update_of_ne hik] at hi
    exact h i f hi

/-- Whatever names the calls are given, only their first bytes are stored. -/
theorem NamesFit.step {d : Directory} (h : d.NamesFit) (call : NameCall) :
    (d.step call.op).1.NamesFit := by
  cases call with
  | create name =>
    simp only [NameCall.op, Directory.step]
    by_cases hc : d.find name.bytes = none ∧ d.vacant ≠ none ∧ d.free ≠ 0
    · obtain ⟨hfind, hvac, hfree⟩ := hc
      obtain ⟨k, hk⟩ := Option.ne_none_iff_exists'.mp hvac
      rw [create_of_free hfind hk hfree]
      refine h.update ?_
      rintro f ⟨⟩
      exact List.length_take_le _ _
    · rw [create_of_not hc]
      exact h
  | delete name =>
    simp only [NameCall.op, Directory.step, delete]
    split
    · exact h
    · exact h.update (by simp)

end Directory

/-- The files of a session: its state represents a directory with distinct names, and every live
name is the name of a file. -/
structure SessionOk (s : Session) (d : Directory) (chain : Fin ENTRY → List (Fin BLOCK_SIZE)) :
    Prop where
  represents : Represents s.fs d chain
  distinct : d.NamesDistinct
  live : ∀ name ∈ s.live, d.find name.bytes ≠ none

theorem SessionOk.namesIdentify {s : Session} {d : Directory}
    {chain : Fin ENTRY → List (Fin BLOCK_SIZE)} (h : SessionOk s d chain) : NamesIdentify s where
  unique := by
    intro i j hi hj hname
    have hlinks := h.represents.toLinks
    cases hdi : d i with
    | none => exact absurd (hlinks.unused i hdi).1 hi
    | some f =>
      cases hdj : d j with
      | none => exact absurd (hlinks.unused j hdj).1 hj
      | some g =>
        refine h.distinct i j f g hdi hdj ?_
        rw [← (hlinks.holds i f hdi).name, ← (hlinks.holds j g hdj).name, hname]
  found := by
    intro name hname
    rw [h.represents.toLinks.lookup_eq]
    exact h.live name hname

/-- The live names after a call are those of the directory after the call. -/
theorem live_track {d : Directory} {live : List CString}
    (hlive : ∀ name ∈ live, d.find name.bytes ≠ none) (call : NameCall)
    (hfit : ∀ name, call = .create name → d.find name.bytes = none ∧ d.vacant ≠ none ∧ d.free ≠ 0 →
      name.bytes.length ≤ FILE_NAME) :
    ∀ name ∈ call.track (d.step call.op).2 live, (d.step call.op).1.find name.bytes ≠ none := by
  cases call with
  | create name =>
    change ∀ n ∈ (if (d.create name).2 = createdOutput name then name :: live else live),
      (d.create name).1.find n.bytes ≠ none
    by_cases hc : d.find name.bytes = none ∧ d.vacant ≠ none ∧ d.free ≠ 0
    · have hlen := hfit name rfl hc
      rw [if_pos ((create_output_iff name).mpr hc)]
      obtain ⟨hfind, hvac, hfree⟩ := hc
      obtain ⟨k, hk⟩ := Option.ne_none_iff_exists'.mp hvac
      rw [Directory.create_of_free hfind hk hfree, List.take_of_length_le hlen]
      intro n hn
      rw [Directory.find_ne_none_iff]
      -- the new name is in the new entry, and the entries of the other names stay
      rcases List.mem_cons.mp hn with rfl | hn
      · exact ⟨k, _, update_self _ _ _, rfl⟩
      · obtain ⟨i, f, hi, hname⟩ := Directory.find_ne_none_iff.mp (hlive n hn)
        have hik : i ≠ k := by
          rintro rfl
          simp [Directory.vacant_eq_some hk] at hi
        exact ⟨i, f, by rw [update_of_ne hik, hi], hname⟩
    · rw [if_neg (fun hout => hc ((create_output_iff name).mp hout)), Directory.create_of_not hc]
      exact hlive
  | delete name =>
    change ∀ n ∈ (if (d.delete name).2 = deletedOutput name then live.filter (· ≠ name) else live),
      (d.delete name).1.find n.bytes ≠ none
    cases hlook : d.lookup name.bytes with
    | none =>
      rw [if_neg (fun hout => (delete_output_iff name).mp hout hlook)]
      simpa [Directory.delete, hlook] using hlive
    | some p =>
      obtain ⟨k, g⟩ := p
      obtain ⟨-, hk, hgname⟩ := Directory.lookup_eq_some hlook
      rw [if_pos ((delete_output_iff name).mpr (by simp [hlook]))]
      intro n hn
      obtain ⟨hn, hne⟩ := List.mem_filter.mp hn
      obtain ⟨i, f, hi, hname⟩ := Directory.find_ne_none_iff.mp (hlive n hn)
      -- the entry that is freed holds the deleted name, so it is not the one of `n`
      have hik : i ≠ k := by
        rintro rfl
        obtain rfl := Option.some.inj (hi.symm.trans hk)
        have heq : n = name := by
          obtain ⟨bytes, _⟩ := n
          obtain ⟨bytes', _⟩ := name
          simpa using hname.symm.trans hgname
        simp [heq] at hne
      rw [Directory.find_ne_none_iff]
      exact ⟨i, f, by simp [Directory.delete, hlook, update_of_ne hik, hi], hname⟩

/-- One call of a session that stores no name that is too long. -/
theorem SessionOk.step {s : Session} {d : Directory} {chain : Fin ENTRY → List (Fin BLOCK_SIZE)}
    (h : SessionOk s d chain) (call : NameCall)
    (hfit : ∀ name, call = .create name → Creates s.fs name → name.bytes.length ≤ FILE_NAME) :
    ∃ s' d' chain', s.step call = some s' ∧ SessionOk s' d' chain' := by
  obtain ⟨fs', chain', hstep, h'⟩ := step_represents h.represents call.op
  have hfit' : ∀ name, call = .create name →
      d.find name.bytes = none ∧ d.vacant ≠ none ∧ d.free ≠ 0 → name.bytes.length ≤ FILE_NAME :=
    fun name hname hc => hfit name hname ((h.represents.creates_iff name).mpr hc)
  have hdistinct : (d.step call.op).1.NamesDistinct := by
    cases call with
    | create name =>
      by_cases hc : d.find name.bytes = none ∧ d.vacant ≠ none ∧ d.free ≠ 0
      · -- the stored name is the whole name, which no file has
        refine h.distinct.step fun n hn => ?_
        obtain rfl := Option.some.inj hn
        exact hfit' _ rfl hc
      · simp only [NameCall.op, Directory.step, Directory.create_of_not hc]
        exact h.distinct
    | delete name =>
      simp only [NameCall.op, Directory.step, Directory.delete]
      split
      · exact h.distinct
      · exact h.distinct.update_none _
  exact ⟨_, _, chain', by rw [Session.step, hstep]; rfl, h', hdistinct,
    live_track h.live call hfit'⟩

theorem Session.run_concat (s : Session) (calls : List NameCall) (call : NameCall) :
    s.run (calls ++ [call]) = (s.run calls).bind (·.step call) := by
  simp only [Session.run, List.foldlM_append, List.foldlM_cons, List.foldlM_nil, bind_pure]
  rfl

/-- The states of a session that stores no name that is too long. -/
theorem sessionOk_of_run {calls : List NameCall}
    (hfit : ∀ cs name s, cs ++ [.create name] <+: calls → Session.start.run cs = some s →
      Creates s.fs name → name.bytes.length ≤ FILE_NAME)
    {cs : List NameCall} (hpre : cs <+: calls) :
    ∃ s d chain, Session.start.run cs = some s ∧ SessionOk s d chain := by
  induction cs using List.reverseRecOn with
  | nil =>
    exact ⟨_, _, _, rfl, represents_fresh, by simp [Directory.NamesDistinct, Directory.empty],
      by simp [Session.start]⟩
  | append_singleton cs call ih =>
    obtain ⟨s, d, chain, hrun, h⟩ := ih ((List.prefix_append _ _).trans hpre)
    obtain ⟨s', d', chain', hstep, h'⟩ := h.step call (by
      rintro name rfl hcreates
      exact hfit cs name s hpre hrun hcreates)
    exact ⟨s', d', chain', by rw [Session.run_concat, hrun, Option.bind_some, hstep], h'⟩

/-- Whatever names a session uses, the stored names fit into their entries. -/
theorem namesFit_of_run {cs : List NameCall} {s : Session} (hrun : Session.start.run cs = some s) :
    ∃ d chain, Represents s.fs d chain ∧ d.NamesFit := by
  induction cs using List.reverseRecOn generalizing s with
  | nil =>
    obtain rfl := Option.some.inj hrun
    exact ⟨_, _, represents_fresh, by simp [Directory.NamesFit, Directory.empty]⟩
  | append_singleton cs call ih =>
    rw [Session.run_concat] at hrun
    obtain ⟨s₁, hrun₁, hstep⟩ := Option.bind_eq_some_iff.mp hrun
    obtain ⟨d, chain, h, hd⟩ := ih hrun₁
    obtain ⟨fs', chain', hstep', h'⟩ := step_represents h call.op
    rw [Session.step, hstep'] at hstep
    obtain rfl := Option.some.inj hstep
    exact ⟨_, chain', h', hd.step call⟩

/-- A session finds no name that is too long. -/
theorem length_le_of_lookup {cs : List NameCall} {fs : FileSystem} {live : List CString}
    (hrun : Session.start.run cs = some ⟨fs, live⟩) {name : CString}
    (hfound : fs.lookup name.bytes ≠ none) : name.bytes.length ≤ FILE_NAME := by
  obtain ⟨d, chain, h, hd⟩ := namesFit_of_run hrun
  rw [h.toLinks.lookup_eq] at hfound
  obtain ⟨i, f, hi, hname⟩ := Directory.find_ne_none_iff.mp hfound
  rw [← hname]
  exact hd i f hi

/-- A session with one more call that makes a file: its name is live. -/
theorem Session.run_create {s : Session} {cs : List NameCall} {fs : FileSystem}
    {live : List CString} {name : CString} (hrun : s.run cs = some ⟨fs, live⟩)
    (h : Creates fs name) :
    s.run (cs ++ [.create name]) = some ⟨(createFile name fs).1, name :: live⟩ := by
  obtain ⟨hlook, hentry, hblock⟩ := h
  obtain ⟨k, hk⟩ := Option.ne_none_iff_exists'.mp hentry
  obtain ⟨b, hb⟩ := Option.ne_none_iff_exists'.mp hblock
  have hout : (createFile name fs).2 = createdOutput name := by
    simp [createFile, hlook, hk, hb, createdOutput]
  rw [Session.run_concat, hrun]
  simp [Session.step, NameCall.op, step_create, NameCall.track, hout]

/-- Names identify files in every state of a session exactly if every `create_file` of the session
that makes a file is given a name of at most `FILE_NAME` bytes. -/
theorem namesIdentify_iff (calls : List NameCall) :
    (∀ cs, cs <+: calls → ∃ s, Session.start.run cs = some s ∧ NamesIdentify s) ↔
      ∀ cs name s, cs ++ [.create name] <+: calls → Session.start.run cs = some s →
        Creates s.fs name → name.bytes.length ≤ FILE_NAME := by
  constructor
  · intro hident cs name s hpre hrun hcreates
    -- the name is live after the call, so it is found, and only names that fit are found
    obtain ⟨s', hrun', hs'⟩ := hident _ hpre
    obtain rfl := Option.some.inj (hrun'.symm.trans (Session.run_create hrun hcreates))
    exact length_le_of_lookup hrun' (hs'.found name List.mem_cons_self)
  · intro hfit cs hpre
    obtain ⟨s, d, chain, hrun, h⟩ := sessionOk_of_run hfit hpre
    exact ⟨s, hrun, h.namesIdentify⟩

/-- After one file has been created in a new process, an entry and a block are still free. -/
theorem creates_second {name name' : CString}
    (hlook : (createFile name fresh).1.lookup name'.bytes = none) :
    Creates (createFile name fresh).1 name' := by
  have : Nontrivial (Fin ENTRY) := Fin.nontrivial_iff_two_le.mpr (by decide)
  have : Nontrivial (Fin BLOCK_SIZE) := Fin.nontrivial_iff_two_le.mpr (by decide)
  obtain ⟨k, b, -, -, -, hentries, hfat⟩ := createFile_of_creates (creates_fresh name)
  refine ⟨hlook, ?_, ?_⟩
  · obtain ⟨j, hj⟩ := exists_ne k
    intro h
    have := List.find?_eq_none.mp h j (List.mem_finRange _)
    rw [hentries j hj] at this
    simp [fresh, startFresh] at this
  · obtain ⟨c, hc⟩ := exists_ne b
    intro h
    have := List.find?_eq_none.mp h c (List.mem_finRange _)
    rw [hfat c hc] at this
    simp [fresh, startFresh] at this

/-- Two files can be created under one name that is too long: both calls report success, the two
entries hold the same name, and no lookup finds it. -/
theorem createTwice_of_long (name : CString) (hlong : ¬ name.bytes.length ≤ FILE_NAME) :
    ∃ s, Session.start.run [.create name, .create name] = some s ∧
      (∃ i j, i ≠ j ∧ (s.fs.entries i).use ≠ 0 ∧ (s.fs.entries j).use ≠ 0 ∧
        (s.fs.entries i).fileName.str = (s.fs.entries j).fileName.str) ∧
      name ∈ s.live ∧ s.fs.lookup name.bytes = none := by
  have hrun₁ : Session.start.run ([] ++ [.create name]) = _ :=
    Session.run_create rfl (creates_fresh name)
  -- the first call leaves nothing that the duplicate check of the second one could find
  have hcreates : Creates (createFile name fresh).1 name := by
    refine creates_second ?_
    by_contra hfound
    exact hlong (length_le_of_lookup hrun₁ hfound)
  obtain ⟨i, -, -, hiuse, hiname, -, -⟩ := createFile_of_creates (creates_fresh name)
  generalize (createFile name fresh).1 = fs₁ at *
  have hrun := Session.run_create hrun₁ hcreates
  obtain ⟨j, -, hjfree, hjuse, hjname, hkept, -⟩ := createFile_of_creates hcreates
  have hij : i ≠ j := by
    rintro rfl
    omega
  refine ⟨_, hrun, ⟨i, j, hij, ?_, ?_, ?_⟩, List.mem_cons_self, ?_⟩
  · simp [hkept i hij, hiuse]
  · simp [hjuse]
  · simp only [hkept i hij, hiname, hjname]
  · by_contra hfound
    exact hlong (length_le_of_lookup hrun hfound)

/-- A name of 101 bytes. -/
def longName : CString := ⟨List.replicate 101 97, by decide⟩

/-- Names do not identify files after `create_file` has been called twice with one name of 101
bytes. -/
theorem not_namesIdentify_long :
    ∃ s, Session.start.run [.create longName, .create longName] = some s ∧ ¬ NamesIdentify s ∧
      (∃ i j, i ≠ j ∧ (s.fs.entries i).use ≠ 0 ∧ (s.fs.entries j).use ≠ 0 ∧
        (s.fs.entries i).fileName.str = (s.fs.entries j).fileName.str) ∧
      longName ∈ s.live ∧ s.fs.lookup longName.bytes = none := by
  obtain ⟨s, hrun, htwice, hlive, hlost⟩ := createTwice_of_long longName (by decide)
  exact ⟨s, hrun, fun h => h.found longName hlive hlost, htwice, hlive, hlost⟩

end SchoolOS.Fat
