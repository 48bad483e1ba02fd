import SchoolOS.Fat.Persist
import SchoolOS.Lib.Numerals

/-!
# Loading what was saved

`save_file_system` writes an entry that was never used as a line of three numbers, while
`load_file_system` reads a name and three numbers for every entry, so behind the last name the
reader runs out of step with the lines. This is harmless under `Serial`: the entries with a name
come first, their names are tokens, and everything behind them is zero. The reader then turns some
of the unused entries into entries named `0`, still unused (`scanEntries_spec`).
-/

namespace SchoolOS.Fat

open Function Loop

/-- A name that `%s` reads back: not empty and without white space. -/
def CleanName (name : Bytes) : Prop := name ≠ [] ∧ ∀ c ∈ name, isSpace c = false

/-- The three numbers of an entry are zero. -/
def FileEntry.ZeroInts (e : FileEntry) : Prop := e.fileSize = 0 ∧ e.start = 0 ∧ e.use = 0

/-- The first `n` entries have names that can be read back, and everything behind them is zero. -/
def SerialAt (entries : Fin ENTRY → FileEntry) (n : ℕ) : Prop :=
  ∀ i : Fin ENTRY,
    (i.val < n → CleanName (entries i).fileName.str ∧ (entries i).fileName.strlen ≤ FILE_NAME) ∧
      (n ≤ i.val → (entries i).fileName.str = [] ∧ (entries i).ZeroInts)

/-- The directory can be read back. -/
def Serial (fs : FileSystem) : Prop := ∃ n, SerialAt fs.entries n

/-- Every block, used or not, is a line that `fgets` reads whole. -/
def DiskOk (fs : FileSystem) : Prop :=
  ∀ b, (fs.disk b).strlen ≤ BYTES ∧ (10 : UInt8) ∉ (fs.disk b).str

/-- The states agree on the FAT, the strings of the blocks, and the entries in use. -/
structure Same (fs fs' : FileSystem) : Prop where
  fat : fs'.fat = fs.fat
  disk : ∀ b, (fs'.disk b).str = (fs.disk b).str
  use : ∀ i, (fs'.entries i).use = (fs.entries i).use
  entry : ∀ i, (fs.entries i).use ≠ 0 →
    (fs'.entries i).fileName.str = (fs.entries i).fileName.str ∧
      (fs'.entries i).fileSize = (fs.entries i).fileSize ∧
      (fs'.entries i).start = (fs.entries i).start

/-! ## The lines of a file -/

theorem ascii_space : ascii " " = [32] := by decide

theorem ascii_newline : ascii "\n" = [10] := by decide

/-- The text `0` of a number can be read back as a name. -/
theorem cleanName_zero : CleanName (decimal 0) := by
  have hzero : decimal 0 = [48] := by decide
  rw [hzero]
  exact ⟨List.cons_ne_nil _ _, List.forall_mem_singleton.mpr rfl⟩

private theorem space_of_mem_space {c : UInt8} (h : c ∈ ascii " ") : isSpace c = true := by
  rw [ascii_space, List.mem_singleton] at h
  subst h
  rfl

private theorem space_of_mem_newline {c : UInt8} (h : c ∈ ascii "\n") : isSpace c = true := by
  rw [ascii_newline, List.mem_singleton] at h
  subst h
  rfl

private theorem spaceNext_space (s : Bytes) : SpaceNext (ascii " " ++ s) := by
  rw [ascii_space]
  exact .cons rfl

private theorem spaceNext_newline (s : Bytes) : SpaceNext (ascii "\n" ++ s) := by
  rw [ascii_newline]
  exact .cons rfl

/-- The lines from number `k` on. -/
def linesFrom {n : ℕ} (line : Fin n → Bytes) (k : ℕ) : Bytes :=
  ((List.finRange n).drop k).flatMap line

theorem linesFrom_fin {n : ℕ} (line : Fin n → Bytes) (k : Fin n) :
    linesFrom line k = line k ++ linesFrom line (k + 1) := by
  have hk : (k : ℕ) < (List.finRange n).length := by simp
  rw [linesFrom, List.drop_eq_getElem_cons hk, List.flatMap_cons, List.getElem_finRange]
  rfl

theorem linesFrom_end {n : ℕ} (line : Fin n → Bytes) : linesFrom line n = [] := by
  rw [linesFrom, List.drop_of_length_le (by simp), List.flatMap_nil]

/-! ## Reading loops -/

section ScanAll

variable {n : ℕ} {α : Type} (scan : α → Bytes → α × Bytes)

/-- `P i` holds before element `i` is read. -/
theorem scanAll_invariant (P : ℕ → (Fin n → α) → Bytes → Prop) (a : Fin n → α) (s : Bytes)
    (h0 : P 0 a s)
    (hstep : ∀ (i : Fin n) a s, P i a s →
      P (i + 1) (update a i (scan (a i) s).1) (scan (a i) s).2) :
    ∃ s', P n (scanAll scan a s) s' := by
  refine ⟨_, forLoop_invariant (fun k (p : (Fin n → α) × Bytes) => P k p.1 p.2) ?_ ?_⟩
  · exact h0
  · intro i p hp
    exact hstep i p.1 p.2 hp

/-- Reading one more element keeps what holds of the elements read before. -/
theorem forall_lt_update {R : Fin n → α → Prop} {a : Fin n → α} {i : Fin n} {x : α}
    (hread : ∀ j : Fin n, j.val < i.val → R j (a j)) (hx : R i x) :
    ∀ j : Fin n, j.val < i.val + 1 → R j (update a i x j) := by
  intro j hj
  by_cases hji : j = i
  · subst hji
    rwa [update_self]
  · rw [update_of_ne hji]
    exact hread j (by have := Fin.val_ne_of_ne hji; omega)

/-- When every line, preceded by a separator in `W`, is read back up to a separator in `W`, the
whole file is read back. -/
theorem scanAll_lines (line : Fin n → Bytes) (R : Fin n → α → Prop) (W : Bytes → Prop)
    (hnil : W [])
    (hscan : ∀ i x ws rest, W ws → ∃ y ws', scan x (ws ++ (line i ++ rest)) = (y, ws' ++ rest) ∧
      R i y ∧ W ws') (a : Fin n → α) (i : Fin n) :
    R i (scanAll scan a ((List.finRange n).flatMap line) i) := by
  obtain ⟨s', hread, -⟩ := scanAll_invariant scan
    (fun k a s => (∀ i : Fin n, i.val < k → R i (a i)) ∧ ∃ ws, W ws ∧ s = ws ++ linesFrom line k)
    a ((List.finRange n).flatMap line)
    ⟨fun i hi => absurd hi (Nat.not_lt_zero _), [], hnil, rfl⟩
    (by
      rintro i a s ⟨hread, ws, hws, rfl⟩
      obtain ⟨y, ws', hy, hR, hws'⟩ := hscan i (a i) ws (linesFrom line (i + 1)) hws
      rw [linesFrom_fin, hy]
      exact ⟨forall_lt_update hread hR, ws', hws', rfl⟩)
  exact hread i i.isLt

end ScanAll

/-- The FAT is read back. -/
theorem scanCells_spec (fat fat₀ : Fin BLOCK_SIZE → ℤ) :
    scanAll scanCell fat₀ ((List.finRange BLOCK_SIZE).flatMap fun b => fatLine (fat b)) = fat := by
  refine funext fun b => scanAll_lines _ (fun b => fatLine (fat b)) (fun b v => v = fat b)
    (fun ws => ∀ c ∈ ws, isSpace c = true) (by simp) ?_ fat₀ b
  intro i x ws rest hws
  refine ⟨fat i, ascii "\n", ?_, rfl, fun c hc => space_of_mem_newline hc⟩
  rw [fatLine, List.append_assoc, scanCell, scanInt_decimal _ hws (spaceNext_newline _)]

/-- The blocks are read back, as strings. -/
theorem scanBlocks_spec (disk disk₀ : Fin BLOCK_SIZE → CharArray (BYTES + 1))
    (hdisk : ∀ b, (disk b).strlen ≤ BYTES ∧ (10 : UInt8) ∉ (disk b).str) (b : Fin BLOCK_SIZE) :
    (scanAll scanBlock disk₀
      ((List.finRange BLOCK_SIZE).flatMap fun b => diskLine (disk b)) b).str = (disk b).str := by
  refine scanAll_lines _ (fun b => diskLine (disk b)) (fun b v => v.str = (disk b).str)
    (fun ws => ws = []) rfl ?_ disk₀ b
  rintro i x ws rest rfl
  obtain ⟨hlen, hnl⟩ := hdisk i
  have hline : fgets (BYTES + 2) ([] ++ (diskLine (disk i) ++ rest)) =
      some ((disk i).str ++ [10], rest) := by
    rw [List.nil_append, diskLine, ascii_newline, List.append_assoc, List.singleton_append]
    exact fgets_line hnl (by simp only [CharArray.strlen] at hlen; omega)
  -- the line has no `0` byte, so `buf[strlen(buf)-1]` is its newline
  have hbuf : (((disk i).str ++ [10]).takeWhile (· ≠ 0)).dropLast = (disk i).str := by
    have hnul := (disk i).nul_notMem_str
    rw [List.takeWhile_append_of_pos fun c hc => by simpa using ne_of_mem_of_not_mem hc hnul]
    simp
  refine ⟨x.strcpy (disk i).str, [], ?_, ?_, rfl⟩
  · rw [scanBlock, hline]
    simp only [hbuf, List.nil_append]
  · exact CharArray.str_strcpy _ (disk i).nul_notMem_str (Nat.lt_succ_of_le hlen)

/-! ## `File_entry` -/

/-- A stream of `m` tokens `0`. -/
inductive ZeroStream : ℕ → Bytes → Prop
  | nil {ws : Bytes} : (∀ c ∈ ws, isSpace c = true) → ZeroStream 0 ws
  | cons {m : ℕ} {ws rest : Bytes} : (∀ c ∈ ws, isSpace c = true) → SpaceNext rest →
    ZeroStream m rest → ZeroStream (m + 1) (ws ++ (decimal 0 ++ rest))

/-- `%d` on a stream of zeros. -/
theorem ZeroStream.scanInt {m : ℕ} {s : Bytes} (h : ZeroStream m s) :
    ∃ v rest, SchoolOS.scanInt s = (v, rest) ∧ ZeroStream (m - 1) rest ∧
      (v = none ∨ v = some 0) := by
  cases h with
  | nil hws => exact ⟨none, [], scanInt_end hws, .nil (by simp), Or.inl rfl⟩
  | cons hws hnext hrest =>
    exact ⟨some 0, _, scanInt_decimal 0 hws hnext, hrest, Or.inr rfl⟩

/-- A line with a name that can be read back gives back its entry. -/
theorem scanEntry_line (e e₀ : FileEntry) {ws : Bytes} (rest : Bytes)
    (hws : ∀ c ∈ ws, isSpace c = true) (hname : CleanName e.fileName.str)
    (hlen : e.fileName.strlen ≤ FILE_NAME) :
    ∃ e', scanEntry e₀ (ws ++ (entryLine e ++ rest)) = (e', ascii "\n" ++ rest) ∧
      e'.fileName.str = e.fileName.str ∧ e'.fileSize = e.fileSize ∧ e'.start = e.start ∧
      e'.use = e.use := by
  have hspace : ∀ c ∈ ascii " ", isSpace c = true := fun c hc => space_of_mem_space hc
  refine ⟨⟨e₀.fileName.strcpy e.fileName.str, e.start, e.fileSize, e.use⟩, ?_, ?_, rfl, rfl, rfl⟩
  · simp only [entryLine, List.append_assoc]
    simp only [scanEntry, scanString_token hws hname.1 hname.2 (spaceNext_space _),
      scanInt_decimal _ hspace (spaceNext_space _), scanInt_decimal _ hspace (spaceNext_newline _)]
  · exact CharArray.str_strcpy _ e.fileName.nul_notMem_str (Nat.lt_succ_of_le hlen)

/-- Reading an entry from a stream of zeros leaves it unused; it gets the name `0` if the stream is
not at its end. -/
theorem scanEntry_zeros {m : ℕ} {s : Bytes} {e : FileEntry} (hs : ZeroStream m s)
    (he : e.ZeroInts) :
    ∃ m' name s', scanEntry e s = ({ e with fileName := name }, s') ∧ ZeroStream m' s' ∧
      (m = 0 → name = e.fileName ∧ m' = 0) ∧ (0 < m → name.str = decimal 0) := by
  obtain ⟨name, start, size, use⟩ := e
  obtain ⟨rfl, rfl, rfl⟩ : size = 0 ∧ start = 0 ∧ use = 0 := he
  cases hs with
  | nil hws =>
    exact ⟨0, name, [], by simp [scanEntry, scanString_end hws], .nil (by simp), by simp, by simp⟩
  | @cons m ws rest hws hnext hrest =>
    have htok : scanString (ws ++ (decimal 0 ++ rest)) = (some (decimal 0), rest) :=
      scanString_token hws cleanName_zero.1 cleanName_zero.2 hnext
    have hname : (name.strcpy (decimal 0)).str = decimal 0 :=
      CharArray.str_strcpy _ (by decide) (by decide)
    obtain ⟨v₁, s₁, hscan₁, hz₁, hv₁⟩ := hrest.scanInt
    obtain ⟨v₂, s₂, hscan₂, hz₂, hv₂⟩ := hz₁.scanInt
    obtain ⟨v₃, s₃, hscan₃, hz₃, hv₃⟩ := hz₂.scanInt
    rcases hv₁ with rfl | rfl
    · exact ⟨_, name.strcpy (decimal 0), s₁, by simp only [scanEntry, htok, hscan₁], hz₁, by simp,
        fun _ => hname⟩
    rcases hv₂ with rfl | rfl
    · exact ⟨_, name.strcpy (decimal 0), s₂, by simp only [scanEntry, htok, hscan₁, hscan₂], hz₂,
        by simp, fun _ => hname⟩
    rcases hv₃ with rfl | rfl <;>
    exact ⟨_, name.strcpy (decimal 0), s₃, by simp only [scanEntry, htok, hscan₁, hscan₂, hscan₃],
      hz₃, by simp, fun _ => hname⟩

/-- Behind the last name the file is a stream of zeros. -/
theorem zeroStream_linesFrom {entries : Fin ENTRY → FileEntry} {n : ℕ} (h : SerialAt entries n)
    (j k : ℕ) (hk : k + j = ENTRY) (hn : n ≤ k) {ws : Bytes} (hws : ∀ c ∈ ws, isSpace c = true) :
    ZeroStream (3 * j) (ws ++ linesFrom (fun i => entryLine (entries i)) k) := by
  have hspace : ∀ c ∈ ascii " ", isSpace c = true := fun c hc => space_of_mem_space hc
  induction j generalizing k ws with
  | zero =>
    obtain rfl : k = ENTRY := by omega
    rw [linesFrom_end, List.append_nil]
    exact .nil hws
  | succ j ih =>
    obtain ⟨hstr, hsize, hstart, huse⟩ := (h ⟨k, by omega⟩).2 hn
    have hrest : ZeroStream (3 * j)
        (ascii "\n" ++ linesFrom (fun i => entryLine (entries i)) (k + 1)) :=
      ih (k + 1) (by omega) (by omega) fun c hc => space_of_mem_newline hc
    have hline : ws ++ linesFrom (fun i => entryLine (entries i)) k =
        (ws ++ ascii " ") ++ (decimal 0 ++ (ascii " " ++ (decimal 0 ++ (ascii " " ++ (decimal 0 ++
          (ascii "\n" ++ linesFrom (fun i => entryLine (entries i)) (k + 1))))))) := by
      rw [linesFrom_fin (fun i => entryLine (entries i)) ⟨k, by omega⟩]
      simp only [entryLine, hstr, hsize, hstart, huse, List.nil_append, List.append_assoc]
    rw [hline]
    refine .cons ?_ (spaceNext_space _) (.cons hspace (spaceNext_space _)
      (.cons hspace (spaceNext_newline _) hrest))
    intro c hc
    rcases List.mem_append.mp hc with hc | hc
    · exact hws c hc
    · exact hspace c hc

/-- The entry of a zero-initialised process. -/
def zeroEntry : FileEntry := ⟨CharArray.zero _, 0, 0, 0⟩

/-- Two entries with the same string and the same numbers. -/
def FileEntry.Agrees (e e' : FileEntry) : Prop :=
  e'.fileName.str = e.fileName.str ∧ e'.fileSize = e.fileSize ∧ e'.start = e.start ∧ e'.use = e.use

/-- The reader among the named entries: the `k` entries read so far are those of the file. -/
structure ReadNamed (entries a : Fin ENTRY → FileEntry) (k : ℕ) (s : Bytes) : Prop where
  read : ∀ i : Fin ENTRY, i.val < k → (entries i).Agrees (a i)
  unread : ∀ i : Fin ENTRY, k ≤ i.val → a i = zeroEntry
  stream : ∃ ws, (∀ c ∈ ws, isSpace c = true) ∧
    s = ws ++ linesFrom (fun i => entryLine (entries i)) k

/-- The reader behind the `n` named entries: it has given the name `0` to the entries up to `n'` and
will go on only if it has done so up to `k`. -/
structure ReadZeros (entries a : Fin ENTRY → FileEntry) (n n' k : ℕ) (s : Bytes) : Prop where
  read : ∀ i : Fin ENTRY, i.val < n → (entries i).Agrees (a i)
  named : ∀ i : Fin ENTRY, n ≤ i.val → i.val < n' →
    (a i).fileName.str = decimal 0 ∧ (a i).ZeroInts
  unread : ∀ i : Fin ENTRY, n' ≤ i.val → a i = zeroEntry
  le : n ≤ n' ∧ n' ≤ k
  stream : ∃ m, ZeroStream m s ∧ (0 < m → n' = k)

/-- One named entry. -/
theorem ReadNamed.step {entries a : Fin ENTRY → FileEntry} {n : ℕ} {s : Bytes} {i : Fin ENTRY}
    (h : ReadNamed entries a i s) (hserial : SerialAt entries n) (hi : i.val < n) :
    ReadNamed entries (update a i (scanEntry (a i) s).1) (i + 1) (scanEntry (a i) s).2 := by
  obtain ⟨ws, hws, rfl⟩ := h.stream
  obtain ⟨hclean, hlen⟩ := (hserial i).1 hi
  obtain ⟨e', hscan, hagrees⟩ := scanEntry_line (entries i) (a i)
    (linesFrom (fun i => entryLine (entries i)) (i + 1)) hws hclean hlen
  rw [linesFrom_fin, hscan]
  refine ⟨forall_lt_update (R := fun i e => (entries i).Agrees e) h.read hagrees, ?_,
    ascii "\n", fun c hc => space_of_mem_newline hc, rfl⟩
  intro j hj
  rw [update_of_ne (Fin.ne_of_val_ne (by omega))]
  exact h.unread j (by omega)

/-- The reader leaves the named entries. -/
theorem ReadNamed.toReadZeros {entries a : Fin ENTRY → FileEntry} {n : ℕ} {s : Bytes}
    (h : ReadNamed entries a n s) (hserial : SerialAt entries n) (hn : n ≤ ENTRY) :
    ReadZeros entries a n n n s := by
  obtain ⟨ws, hws, rfl⟩ := h.stream
  exact ⟨h.read, fun i hi hi' => absurd hi' (Nat.not_lt.mpr hi), h.unread, ⟨le_rfl, le_rfl⟩,
    _, zeroStream_linesFrom hserial (ENTRY - n) n (by omega) le_rfl hws, fun _ => rfl⟩

/-- One entry behind the named ones. -/
theorem ReadZeros.step {entries a : Fin ENTRY → FileEntry} {n n' : ℕ} {s : Bytes} {i : Fin ENTRY}
    (h : ReadZeros entries a n n' i s) :
    ∃ n'', ReadZeros entries (update a i (scanEntry (a i) s).1) n n'' (i + 1)
      (scanEntry (a i) s).2 := by
  obtain ⟨m, hzeros, hm⟩ := h.stream
  obtain ⟨hn, hn'⟩ := h.le
  have hai : a i = zeroEntry := h.unread i hn'
  obtain ⟨m', name, s', hscan, hzeros', hend, hnamed⟩ :=
    scanEntry_zeros (e := zeroEntry) hzeros ⟨rfl, rfl, rfl⟩
  rw [hai, hscan]
  have hkeep : ∀ j : Fin ENTRY, j ≠ i → update a i { zeroEntry with fileName := name } j = a j :=
    fun j hj => update_of_ne hj _ _
  rcases Nat.eq_zero_or_pos m with hm0 | hmpos
  · -- at the end of the file nothing changes
    obtain ⟨rfl, rfl⟩ := hend hm0
    have hsame : update a i { zeroEntry with fileName := zeroEntry.fileName } = a := by
      rw [← hai]
      exact update_eq_self i a
    rw [hsame]
    exact ⟨n', h.read, h.named, h.unread, ⟨hn, by omega⟩, 0, hzeros', by simp⟩
  · -- the entry gets the name `0`
    have hni : n' = i.val := hm hmpos
    refine ⟨i + 1, ?_, ?_, ?_, ⟨by omega, le_rfl⟩, m', hzeros', fun _ => rfl⟩
    · intro j hj
      rw [hkeep j (Fin.ne_of_val_ne (by omega))]
      exact h.read j hj
    · intro j hj hji
      by_cases hij : j = i
      · subst hij
        rw [update_self]
        exact ⟨hnamed hmpos, rfl, rfl, rfl⟩
      · rw [hkeep j hij]
        exact h.named j hj (by have := Fin.val_ne_of_ne hij; omega)
    · intro j hj
      rw [hkeep j (Fin.ne_of_val_ne (by omega))]
      exact h.unread j (by omega)

/-- The directory is read back: the named entries as they were, and unused entries behind them. -/
theorem scanEntries_spec {entries : Fin ENTRY → FileEntry} {n : ℕ} (h : SerialAt entries n)
    (hn : n ≤ ENTRY) :
    ∃ n' s', ReadZeros entries (scanAll scanEntry (fun _ => zeroEntry)
      ((List.finRange ENTRY).flatMap fun i => entryLine (entries i))) n n' ENTRY s' := by
  have hstart : ReadNamed entries (fun _ => zeroEntry) 0
      ((List.finRange ENTRY).flatMap fun i => entryLine (entries i)) :=
    ⟨fun i hi => absurd hi (Nat.not_lt_zero _), fun _ _ => rfl, [], by simp, rfl⟩
  obtain ⟨s', hend⟩ := scanAll_invariant scanEntry
    (fun k a s => (k < n ∧ ReadNamed entries a k s) ∨ ∃ n', n ≤ k ∧ ReadZeros entries a n n' k s)
    (fun _ => zeroEntry) ((List.finRange ENTRY).flatMap fun i => entryLine (entries i))
    (by
      rcases Nat.eq_zero_or_pos n with rfl | hpos
      · exact Or.inr ⟨0, le_rfl, hstart.toReadZeros h hn⟩
      · exact Or.inl ⟨hpos, hstart⟩)
    (by
      rintro i a s (⟨hi, hnamed⟩ | ⟨n', hi, hzeros⟩)
      · have hnext := hnamed.step h hi
        rcases Nat.lt_or_ge (i.val + 1) n with hlt | hge
        · exact Or.inl ⟨hlt, hnext⟩
        · obtain rfl : n = i.val + 1 := by omega
          exact Or.inr ⟨_, le_rfl, hnext.toReadZeros h hn⟩
      · obtain ⟨n'', hnext⟩ := hzeros.step
        exact Or.inr ⟨n'', by omega, hnext⟩)
  rcases hend with ⟨hlt, -⟩ | ⟨n', -, hzeros⟩
  · omega
  · exact ⟨n', s', hzeros⟩

/-! ## The whole state -/

theorem reload_eq (fs : FileSystem) : reload fs =
    { entries := scanAll scanEntry (fun _ => zeroEntry) (entryText fs)
      fat := scanAll scanCell zeroed.fat (fatText fs)
      disk := scanAll scanBlock zeroed.disk (diskText fs) } := by
  simp only [reload, Fopen.all, saveFileSystem, loadFileSystem, openRead, Bool.not_true,
    Bool.false_eq_true, if_false, if_true]
  simp
  rfl

theorem reload_fat (fs : FileSystem) : (reload fs).fat = fs.fat := by
  rw [reload_eq, fatText, scanCells_spec]

theorem str_reload_disk {fs : FileSystem} (hdisk : DiskOk fs) (b : Fin BLOCK_SIZE) :
    ((reload fs).disk b).str = (fs.disk b).str := by
  rw [reload_eq, diskText]
  dsimp only
  rw [scanBlocks_spec fs.disk zeroed.disk hdisk b]

theorem reload_entries {fs : FileSystem} {n : ℕ} (h : SerialAt fs.entries n) (hn : n ≤ ENTRY) :
    ∃ n' s', ReadZeros fs.entries (reload fs).entries n n' ENTRY s' := by
  rw [reload_eq, entryText]
  exact scanEntries_spec h hn

theorem SerialAt.min {entries : Fin ENTRY → FileEntry} {n : ℕ} (h : SerialAt entries n) :
    SerialAt entries (min n ENTRY) := by
  intro i
  have hi := i.isLt
  exact ⟨fun hlt => (h i).1 (by omega), fun hle => (h i).2 (by omega)⟩

/-- A new process loads the saved state back, and what it loads can be saved again. -/
theorem reload_spec {fs : FileSystem} (hserial : Serial fs) (hdisk : DiskOk fs) :
    Same fs (reload fs) ∧ Serial (reload fs) ∧ DiskOk (reload fs) := by
  obtain ⟨n₀, hn₀⟩ := hserial
  have hn := hn₀.min
  set n := Nat.min n₀ ENTRY with hndef
  obtain ⟨n', s', hread⟩ := reload_entries hn (Nat.min_le_right _ _)
  refine ⟨⟨reload_fat fs, str_reload_disk hdisk, ?_, ?_⟩, ⟨n', ?_⟩, ?_⟩
  · intro i
    rcases Nat.lt_or_ge i.val n with hi | hi
    · exact (hread.read i hi).2.2.2
    · rw [((hn i).2 hi).2.2.2]
      rcases Nat.lt_or_ge i.val n' with hi' | hi'
      · exact (hread.named i hi hi').2.2.2
      · exact congrArg FileEntry.use (hread.unread i hi')
  · intro i huse
    rcases Nat.lt_or_ge i.val n with hi | hi
    · obtain ⟨hname, hsize, hstart, -⟩ := hread.read i hi
      exact ⟨hname, hsize, hstart⟩
    · exact absurd ((hn i).2 hi).2.2.2 huse
  · intro i
    refine ⟨fun hi => ?_, fun hi => ?_⟩
    · rcases Nat.lt_or_ge i.val n with hin | hin
      · have hname := (hread.read i hin).1
        obtain ⟨hclean, hlen⟩ := (hn i).1 hin
        rw [CharArray.strlen] at hlen ⊢
        exact ⟨hname ▸ hclean, hname ▸ hlen⟩
      · have hname := (hread.named i hin hi).1
        rw [CharArray.strlen]
        exact ⟨hname ▸ cleanName_zero, hname ▸ by decide⟩
    · have hzero := hread.unread i hi
      exact ⟨(congrArg (fun e => e.fileName.str) hzero).trans (CharArray.str_zero _),
        congrArg FileEntry.fileSize hzero, congrArg FileEntry.start hzero,
        congrArg FileEntry.use hzero⟩
  · intro b
    rw [CharArray.strlen, str_reload_disk hdisk b]
    exact hdisk b

end SchoolOS.Fat
