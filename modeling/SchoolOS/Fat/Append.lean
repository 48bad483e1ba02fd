import SchoolOS.Fat.Refinement

/-!
# Appending in two calls and in one

`write_file` carries the write position in its locals; the next call finds it again by walking the
chain and taking `strlen` of the last block. `put` appends one byte at a position, in the arrays
with the strings of the disk in place of its memory (`View`). A whole call is a fold of `put` over
the content (`writeLoop_view`), whether or not the disk runs out of blocks, and the position it ends
at is the one that the next call finds (`AtEnd.foldl_put`). Two calls are then one fold over the
concatenation.
-/

namespace SchoolOS.Fat

open Function Loop

/-- The arrays, with the string of each block in place of its bytes. -/
structure View where
  entries : Fin ENTRY → FileEntry
  fat : Fin BLOCK_SIZE → ℤ
  strings : Fin BLOCK_SIZE → Bytes

/-- The view of a state. -/
def FileSystem.view (fs : FileSystem) : View := ⟨fs.entries, fs.fat, fun b => (fs.disk b).str⟩

namespace View

/-- The first block whose FAT cell is `-2`. -/
def freeBlock (v : View) : Option (Fin BLOCK_SIZE) :=
  (List.finRange BLOCK_SIZE).find? fun b => v.fat b = -2

/-- The bytes of `c` behind the string of block `b`, for the file of entry `k`. -/
def add (v : View) (k : Fin ENTRY) (b : Fin BLOCK_SIZE) (c : Bytes) : View :=
  { v with
    entries := update v.entries k
      { v.entries k with fileSize := (v.entries k).fileSize + c.length }
    strings := update v.strings b (v.strings b ++ c.map noNewline) }

/-- The empty block `nb` linked behind `b`. -/
def link (v : View) (b nb : Fin BLOCK_SIZE) : View :=
  { v with
    fat := update (update v.fat b nb) nb (-1)
    strings := update v.strings nb [] }

end View

/-- Append the byte `x` to the file of entry `k` at block `p.2`: into the block if it has room, else
into a free block linked behind it. Without a free block the byte is lost. -/
def put (k : Fin ENTRY) (p : View × Fin BLOCK_SIZE) (x : UInt8) : View × Fin BLOCK_SIZE :=
  if (p.1.strings p.2).length < BYTES then (p.1.add k p.2 [x], p.2)
  else
    match p.1.freeBlock with
    | some nb => ((p.1.link p.2 nb).add k nb [x], nb)
    | none => p

variable {v : View} {k : Fin ENTRY} {b nb : Fin BLOCK_SIZE} {c : Bytes} {fs : FileSystem}

/-! ## Bytes that fit, and bytes that do not -/

theorem View.add_nil : v.add k b [] = v := by
  simp [View.add]

theorem View.add_add (c c' : Bytes) : (v.add k b c).add k b c' = v.add k b (c ++ c') := by
  simp [View.add, add_assoc]

theorem View.strings_add_self :
    (v.add k b c).strings b = v.strings b ++ c.map noNewline :=
  update_self _ _ _

theorem put_of_lt (h : (v.strings b).length < BYTES) (x : UInt8) :
    put k (v, b) x = (v.add k b [x], b) :=
  if_pos h

/-- Bytes that fit into the block go into the block. -/
theorem foldl_put_of_fits (h : (v.strings b).length + c.length ≤ BYTES) :
    c.foldl (put k) (v, b) = (v.add k b c, b) := by
  induction c generalizing v with
  | nil => rw [List.foldl_nil, View.add_nil]
  | cons x c ih =>
    rw [List.length_cons] at h
    have hrest : ((v.add k b [x]).strings b).length + c.length ≤ BYTES := by
      rw [View.strings_add_self, List.length_append, List.length_map, List.length_singleton]
      omega
    rw [List.foldl_cons, put_of_lt (by omega), ih hrest, View.add_add, List.singleton_append]

/-- Behind a full block on a full disk every byte is lost. -/
theorem foldl_put_of_full (hb : (v.strings b).length = BYTES) (hfree : v.freeBlock = none) :
    c.foldl (put k) (v, b) = (v, b) := by
  have hput : ∀ x, put k (v, b) x = (v, b) := by
    intro x
    simp only [put, hb, lt_irrefl, if_false, hfree]
  induction c with
  | nil => rfl
  | cons x c ih => rw [List.foldl_cons, hput, ih]

/-- Behind a full block the bytes go where they would go from the next free block. -/
theorem foldl_put_of_link (hb : (v.strings b).length = BYTES) (hfree : v.freeBlock = some nb)
    (hne : c ≠ []) : c.foldl (put k) (v, b) = c.foldl (put k) (v.link b nb, nb) := by
  obtain ⟨x, c, rfl⟩ := List.exists_cons_of_ne_nil hne
  have hempty : ((v.link b nb).strings nb).length < BYTES := by simp [View.link, BYTES]
  have hput : put k (v, b) x = put k (v.link b nb, nb) x := by
    rw [put_of_lt hempty]
    simp only [put, hb, lt_irrefl, if_false, hfree]
  rw [List.foldl_cons, List.foldl_cons, hput]

/-! ## The loop of `write_file` -/

/-- The byte loop adds the bytes that fit. -/
theorem view_filled (hfits : (fs.disk b).strlen ≤ BYTES) (hc : (0 : UInt8) ∉ c) :
    (filled fs k b c).view = fs.view.add k b (c.take (BYTES - (fs.disk b).strlen)) := by
  obtain ⟨-, hsize, hstr⟩ := fill_strlen (fs.disk b) (fs.entries k).fileSize hc hfits
  have hstrings : (fun x => ((filled fs k b c).disk x).str) =
      update (fun x => (fs.disk x).str) b
        ((fs.disk b).str ++ (c.take (BYTES - (fs.disk b).strlen)).map noNewline) := by
    funext x
    by_cases hx : x = b
    · subst hx
      simpa [filled, FileSystem.afterFill] using hstr
    · simp [filled, FileSystem.afterFill, hx]
  simp only [FileSystem.view, View.add, hstrings]
  simp only [filled, FileSystem.afterFill, hsize]

theorem view_link (b nb : Fin BLOCK_SIZE) : (fs.link b nb).view = fs.view.link b nb := by
  have hstrings : (fun x => ((fs.link b nb).disk x).str) =
      update (fun x => (fs.disk x).str) nb [] := by
    funext x
    by_cases hx : x = nb
    · subst hx
      simpa [FileSystem.link] using
        CharArray.str_strcpy (fs.disk x) (s := []) (by simp) (Nat.succ_pos _)
    · simp [FileSystem.link, hx]
  simp only [FileSystem.view, View.link, hstrings]
  simp only [FileSystem.link]

/-- The outer loop of `write_file` puts the bytes of the content one after another. -/
theorem writeLoop_view (fuel : ℕ) (hfits : (fs.disk b).strlen ≤ BYTES) (hc : (0 : UInt8) ∉ c)
    {w : Write}
    (hrun : whileLoop Write.active (fun w => some (writeStep k w)) fuel ⟨fs, b, c, false⟩ =
      some w) :
    (w.fs.view, w.block) = c.foldl (put k) (fs.view, b) := by
  induction fuel generalizing fs b c with
  | zero => simp at hrun
  | succ fuel ih =>
    by_cases hne : c = []
    · subst hne
      rw [whileLoop_of_not fuel (by simp [Write.active])] at hrun
      obtain rfl := Option.some.inj hrun
      rfl
    have hactive : (Write.mk fs b c false).active = true := by simp [Write.active, hne]
    set r := BYTES - (fs.disk b).strlen with hr
    have hlen : (fs.view.strings b).length = (fs.disk b).strlen := rfl
    -- the bytes of this iteration
    have hfirst : (c.take r).foldl (put k) (fs.view, b) = ((filled fs k b c).view, b) := by
      rw [foldl_put_of_fits, view_filled hfits hc]
      rw [hlen, List.length_take]
      omega
    by_cases hlt : r < c.length
    · have hfull : ((filled fs k b c).view.strings b).length = BYTES := by
        rw [view_filled hfits hc, View.strings_add_self, List.length_append, List.length_map,
          List.length_take, hlen]
        omega
      have hsplit : c.foldl (put k) (fs.view, b) =
          (c.drop r).foldl (put k) ((filled fs k b c).view, b) := by
        rw [← hfirst, ← List.foldl_append, List.take_append_drop]
      have hrest : c.drop r ≠ [] := by simpa using hlt
      have hc' : (0 : UInt8) ∉ c.drop r := fun hmem => hc (List.mem_of_mem_drop hmem)
      rw [hsplit]
      cases hfree : (filled fs k b c).freeBlock with
      | none =>
        rw [whileLoop_of_step hactive (writeStep_full hfits hc hlt hfree)] at hrun
        rw [eq_of_whileLoop_of_not (by simp [Write.active]) hrun, foldl_put_of_full hfull hfree]
      | some nb =>
        rw [whileLoop_of_step hactive (writeStep_link hfits hc hlt hfree)] at hrun
        have hnew : (((filled fs k b c).link b nb).disk nb).strlen ≤ BYTES := by
          simp [CharArray.strlen, FileSystem.link,
            CharArray.str_strcpy _ (s := []) (by simp) (Nat.succ_pos _)]
        rw [ih hnew hc' hrun, foldl_put_of_link hfull hfree hrest, view_link]
    · have hle := Nat.le_of_not_lt hlt
      rw [whileLoop_of_step hactive (writeStep_done hfits hc hle)] at hrun
      rw [eq_of_whileLoop_of_not (by simp [Write.active]) hrun, ← hfirst,
        List.take_of_length_le hle]

/-! ## The position of the next call -/

/-- Block `b` is where a call of `write_file` on a file that starts at `a` starts to write. -/
structure AtEnd (v : View) (a b : Fin BLOCK_SIZE) : Prop where
  fits : (v.strings b).length ≤ BYTES
  walk : ∃ init, FatWalk v.fat a (init ++ [b])

/-- No block of a walk is free. -/
theorem FatWalk.fat_ne {fat : Fin BLOCK_SIZE → ℤ} {a x : Fin BLOCK_SIZE}
    {l : List (Fin BLOCK_SIZE)} (h : FatWalk fat a l) (hx : x ∈ l) : fat x ≠ -2 := by
  induction h with
  | last hs =>
    rw [List.mem_singleton.mp hx, hs]
    decide
  | cons hab _ ih =>
    rcases List.mem_cons.mp hx with rfl | hx
    · omega
    · exact ih hx

namespace AtEnd

variable {a : Fin BLOCK_SIZE}

theorem link (h : AtEnd v a b) (hnb : v.fat nb = -2) : AtEnd (v.link b nb) a nb where
  fits := by simp [View.link]
  walk := by
    obtain ⟨init, hwalk⟩ := h.walk
    have hnbl : nb ∉ init ++ [b] := fun hmem => hwalk.fat_ne hmem hnb
    have hnodup := List.nodup_append.mp hwalk.nodup
    refine ⟨init ++ [b], ?_⟩
    rw [List.append_assoc]
    refine Walk.snoc hwalk ?_ ?_ ?_
    · intro x hx y hxy
      have hxb : x ≠ b := hnodup.2.2 x hx b (by simp)
      have hxn : x ≠ nb := fun hxn => hnbl (by simp [← hxn, hx])
      simpa [View.link, hxb, hxn] using hxy
    · have hbn : b ≠ nb := fun hbn => hnbl (by simp [← hbn])
      simp [View.link, hbn]
    · simp [View.link]

theorem add (h : AtEnd v a b) (hlt : (v.strings b).length + c.length ≤ BYTES) :
    AtEnd (v.add k b c) a b where
  fits := by
    rw [View.strings_add_self, List.length_append, List.length_map]
    exact hlt
  walk := h.walk

/-- A byte leaves the position at the end of the chain. -/
theorem put {p : View × Fin BLOCK_SIZE} (h : AtEnd p.1 a p.2) (x : UInt8) :
    AtEnd (Fat.put k p x).1 a (Fat.put k p x).2 := by
  unfold Fat.put
  split
  · exact h.add (by simpa using ‹_›)
  · split
    · rename_i nb hfree
      have hnb : p.1.fat nb = -2 := by simpa using List.find?_some hfree
      exact (h.link hnb).add (by simp [View.link, BYTES])
    · exact h

theorem foldl_put {p : View × Fin BLOCK_SIZE} (h : AtEnd p.1 a p.2) (c : Bytes) :
    AtEnd (c.foldl (Fat.put k) p).1 a (c.foldl (Fat.put k) p).2 := by
  induction c generalizing p with
  | nil => exact h
  | cons x c ih =>
    rw [List.foldl_cons]
    exact ih (h.put x)

end AtEnd

/-! ## The entries -/

/-- The fields of an entry that `write_file` leaves alone. -/
def FileEntry.identity (e : FileEntry) : CharArray (FILE_NAME + 1) × ℤ × ℤ :=
  (e.fileName, e.start, e.use)

theorem View.identity_add (v : View) (b : Fin BLOCK_SIZE) (c : Bytes) (j : Fin ENTRY) :
    ((v.add k b c).entries j).identity = (v.entries j).identity := by
  by_cases hj : j = k
  · subst hj
    simp [View.add, FileEntry.identity]
  · simp [View.add, hj]

theorem identity_put (p : View × Fin BLOCK_SIZE) (x : UInt8) (j : Fin ENTRY) :
    ((put k p x).1.entries j).identity = (p.1.entries j).identity := by
  unfold put
  split
  · rw [View.identity_add]
  · split
    · rw [View.identity_add, View.link]
    · rfl

theorem identity_foldl_put (p : View × Fin BLOCK_SIZE) (j : Fin ENTRY) :
    ((c.foldl (put k) p).1.entries j).identity = (p.1.entries j).identity := by
  induction c generalizing p with
  | nil => rfl
  | cons x c ih => rw [List.foldl_cons, ih, identity_put]

theorem lookup_congr {fs fs' : FileSystem} (name : Bytes)
    (h : ∀ j, (fs'.entries j).identity = (fs.entries j).identity) :
    fs'.lookup name = fs.lookup name := by
  refine congrArg (List.find? · _) (funext fun j => ?_)
  obtain ⟨hname, hrest⟩ := Prod.mk.inj (h j)
  obtain ⟨-, huse⟩ := Prod.mk.inj hrest
  rw [hname, huse]

/-! ## Two calls -/

/-- `write_file` puts the bytes of the content at the end of the chain. -/
theorem writeFile_view {fs fs' : FileSystem} {out : Output} {name content : CString}
    {a : Fin BLOCK_SIZE} (hk : fs.lookup name.bytes = some k)
    (hstart : (fs.entries k).start = (a : ℕ)) (hend : AtEnd fs.view a b)
    (hrun : writeFile name content fs = some (fs', out)) :
    fs'.view = (content.bytes.foldl (put k) (fs.view, b)).1 := by
  obtain ⟨init, hwalk⟩ := hend.walk
  simp only [writeFile, hk, hstart, index?_natCast, lastBlock_eq hwalk, Option.bind_eq_bind,
    Option.bind_some] at hrun
  obtain ⟨w, hw, hout⟩ := Option.bind_eq_some_iff.mp hrun
  have hfs : w.fs = fs' := by
    split at hout
    · exact (Prod.mk.inj (Option.some.inj hout)).1
    · exact (Prod.mk.inj (Option.some.inj hout)).1
  rw [← hfs, ← writeLoop_view (BLOCK_SIZE + 2) hend.fits content.nul_free hw]

/-- The position at which `write_file` starts, for a represented state. -/
theorem Represents.atEnd {d : Directory} {chain : Fin ENTRY → List (Fin BLOCK_SIZE)}
    (h : Represents fs d chain) {name : Bytes} (hk : fs.lookup name = some k) :
    ∃ a b : Fin BLOCK_SIZE, (fs.entries k).start = (a : ℕ) ∧ AtEnd fs.view a b := by
  rw [h.toLinks.lookup_eq] at hk
  obtain ⟨f, hf, -⟩ := Directory.find_eq_some hk
  have hh := h.holds k f hf
  obtain ⟨init, b, hl⟩ := hh.exists_last
  rw [hl] at hh
  obtain ⟨a, hstart, hwalk⟩ := hh.walk
  exact ⟨a, b, hstart, hh.fits b (by simp), init, hwalk⟩

section Calls

variable {d : Directory} {chain : Fin ENTRY → List (Fin BLOCK_SIZE)}

theorem writeFile_nil (h : Represents fs d chain) (name : CString) :
    ∃ out, writeFile name ⟨[], by simp⟩ fs = some (fs, out) := by
  cases hk : fs.lookup name.bytes with
  | none =>
    simp only [writeFile, hk]
    exact ⟨_, rfl⟩
  | some k =>
    obtain ⟨s, e, hstart, -, init, hwalk⟩ := h.atEnd hk
    have hloop : writeLoop k ⟨fs, e, [], false⟩ = some ⟨fs, e, [], false⟩ :=
      whileLoop_of_not _ (by simp [Write.active])
    have hlast : lastBlock fs s = some e := lastBlock_eq hwalk
    simp only [writeFile, hk, hstart, index?_natCast, hlast, hloop, Option.bind_eq_bind,
      Option.bind_some]
    exact ⟨_, rfl⟩

/-- Two calls leave the view that one call leaves. -/
theorem view_append (h : Represents fs d chain) {name a b : CString} {fs₁ fs₂ fs₃ : FileSystem}
    {out₁ out₂ out₃ : Output} (hrun₁ : writeFile name a fs = some (fs₁, out₁))
    (hrun₂ : writeFile name b fs₁ = some (fs₂, out₂))
    (hrun₃ : writeFile name (a.append b) fs = some (fs₃, out₃)) : fs₂.view = fs₃.view := by
  cases hk : fs.lookup name.bytes with
  | none =>
    have hfs : ∀ {content fs' out}, writeFile name content fs = some (fs', out) → fs' = fs := by
      intro content fs' out hrun
      simp only [writeFile, hk] at hrun
      exact (Prod.mk.inj (Option.some.inj hrun)).1.symm
    rw [hfs hrun₁] at hrun₂
    rw [hfs hrun₂, hfs hrun₃]
  | some k =>
    obtain ⟨s, e, hstart, hend⟩ := h.atEnd hk
    have hview₁ := writeFile_view hk hstart hend hrun₁
    have hid : ∀ j, (fs₁.entries j).identity = (fs.entries j).identity := by
      intro j
      have hj := identity_foldl_put (k := k) (c := a.bytes) (fs.view, e) j
      rwa [← hview₁] at hj
    have hstart₁ : (fs₁.entries k).start = (s : ℕ) := by
      rw [← hstart]
      exact congrArg (fun t => t.2.1) (hid k)
    -- the second call starts where the first one has stopped
    have hend₁ := AtEnd.foldl_put (p := (fs.view, e)) (k := k) hend a.bytes
    rw [← hview₁] at hend₁
    have hview₂ := writeFile_view ((lookup_congr _ hid).trans hk) hstart₁ hend₁ hrun₂
    have hview₃ := writeFile_view hk hstart hend hrun₃
    rw [hview₂, hview₃, CString.append, List.foldl_append, hview₁]

end Calls

/-- Appending is a monoid action on the arrays: the empty content changes nothing, and `a` followed
by `b` leaves the same entries, the same FAT and the same strings on the disk as `a ++ b` in one
call, wherever the disk runs out of blocks. -/
theorem writeFile_append (hreach : Reachable fs) (name : CString) :
    (∃ out, writeFile name ⟨[], by simp⟩ fs = some (fs, out)) ∧
      ∀ a b : CString, ∃ fs₁ fs₂ fs₃ out₁ out₂ out₃,
        writeFile name a fs = some (fs₁, out₁) ∧ writeFile name b fs₁ = some (fs₂, out₂) ∧
        writeFile name (a.append b) fs = some (fs₃, out₃) ∧
        fs₂.entries = fs₃.entries ∧ fs₂.fat = fs₃.fat ∧
        ∀ x, (fs₂.disk x).str = (fs₃.disk x).str := by
  obtain ⟨d, chain, h, -⟩ := hreach.represents
  refine ⟨writeFile_nil h name, fun a b => ?_⟩
  obtain ⟨fs₁, chain₁, hrun₁, h₁, -⟩ := writeFile_represents h name a
  obtain ⟨fs₂, -, hrun₂, -, -⟩ := writeFile_represents h₁ name b
  obtain ⟨fs₃, -, hrun₃, -, -⟩ := writeFile_represents h name (a.append b)
  have hview := view_append h hrun₁ hrun₂ hrun₃
  refine ⟨fs₁, fs₂, fs₃, _, _, _, hrun₁, hrun₂, hrun₃, ?_, ?_, fun x => ?_⟩
  · exact congrArg View.entries hview
  · exact congrArg View.fat hview
  · exact congrFun (congrArg View.strings hview) x

theorem writeFile_append_twoFiles :
    ∃ fs, Reachable fs ∧ fs.lookup nameA.bytes ≠ none ∧ ∃ fs₁ fs₂ fs₃ out₁ out₂ out₃,
      writeFile nameA longText fs = some (fs₁, out₁) ∧
      writeFile nameA nameB fs₁ = some (fs₂, out₂) ∧
      writeFile nameA (longText.append nameB) fs = some (fs₃, out₃) ∧
      fs₂.entries = fs₃.entries ∧ fs₂.fat = fs₃.fat ∧
      ∀ x, (fs₂.disk x).str = (fs₃.disk x).str := by
  obtain ⟨fs, outs, chain, -, hreach, h⟩ := exists_twoFiles
  refine ⟨fs, hreach, ?_, (writeFile_append hreach nameA).2 longText nameB⟩
  rw [h.toLinks.lookup_eq]
  exact fun hfind => Directory.find_eq_none_iff.mp hfind _ _ files_twoFiles.1 rfl

end SchoolOS.Fat
