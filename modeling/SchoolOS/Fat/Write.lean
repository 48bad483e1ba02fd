import SchoolOS.Fat.Operations

/-!
# `write_file`

One iteration of the outer loop fills the last block of the chain (`afterFill_links`) and, when
bytes are left, links a free block behind it (`link_links`). The loop is an induction on the number
of free blocks: `writeLoop_spec` says that it appends as many bytes as the last block and the free
blocks can take.
-/

namespace SchoolOS.Fat

open Function Loop

variable {fs : FileSystem} {d : Directory} {chain : Fin ENTRY → List (Fin BLOCK_SIZE)}
  {k : Fin ENTRY} {f : File} {init : List (Fin BLOCK_SIZE)} {b : Fin BLOCK_SIZE} {c : Bytes}

/-! ## The byte loop -/

private theorem noNewline_ne_zero {x : UInt8} (hx : x ≠ 0) : noNewline x ≠ 0 := by
  unfold noNewline
  split
  · decide
  · exact hx

/-- The byte loop, entered behind the first bytes `p` of the block. -/
theorem fill_spec (block : CharArray (BYTES + 1)) (p : Bytes) (size : ℤ) (hc : (0 : UInt8) ∉ c)
    (hp : (0 : UInt8) ∉ p) (hpre : block.bytes.take p.length = p) (hlen : p.length ≤ BYTES) :
    (fill block p.length c size).content = c.drop (BYTES - p.length) ∧
      (fill block p.length c size).fileSize = size + (c.take (BYTES - p.length)).length ∧
      ((fill block p.length c size).block.set (fill block p.length c size).bIndex 0).str =
        p ++ (c.take (BYTES - p.length)).map noNewline := by
  -- the terminator behind the bytes, when the loop is left
  have hterm : ∀ (block : CharArray (BYTES + 1)) (p : Bytes), (0 : UInt8) ∉ p →
      block.bytes.take p.length = p → p.length ≤ BYTES → (block.set p.length 0).str = p := by
    intro block p hp hpre hlen
    refine CharArray.str_eq_of_bytes (r := block.bytes.drop (p.length + 1)) ?_ hp
    have hlt : p.length < block.bytes.length := by
      rw [block.length_eq]
      omega
    rw [CharArray.set_bytes, List.set_eq_take_append_cons_drop, if_pos hlt, hpre]
  induction c generalizing block p size with
  | nil => simpa [fill] using hterm block p hp hpre hlen
  | cons x rest ih =>
    by_cases hroom : p.length < BYTES
    · -- one byte goes into the block
      have hx : x ≠ 0 := by rintro rfl; simp at hc
      have hpre' : (block.set p.length (noNewline x)).bytes.take (p ++ [noNewline x]).length =
          p ++ [noNewline x] := by
        have hlt : p.length < block.bytes.length := by
          rw [block.length_eq]
          omega
        rw [CharArray.set_bytes, List.set_eq_take_append_cons_drop, if_pos hlt, hpre,
          List.length_append, List.take_length_add_append]
        simp
      have hlen' : (p ++ [noNewline x]).length = p.length + 1 := by simp
      obtain ⟨hcontent, hsize, hstr⟩ := ih (block.set p.length (noNewline x)) (p ++ [noNewline x])
        (size + 1) (fun h => hc (by simp [h]))
        (by simpa [hp] using (noNewline_ne_zero hx).symm) hpre' (by omega)
      obtain ⟨r, hr⟩ : ∃ r, BYTES - p.length = r + 1 := ⟨BYTES - p.length - 1, by omega⟩
      have hr' : BYTES - (p.length + 1) = r := by omega
      rw [hlen', hr'] at hcontent hsize hstr
      have hfill : fill block p.length (x :: rest) size =
          fill (block.set p.length (noNewline x)) (p.length + 1) rest (size + 1) := by
        rw [fill, if_pos hroom]
      rw [hfill, hr]
      refine ⟨by simpa using hcontent, ?_, by simpa using hstr⟩
      rw [hsize]
      simp only [List.take_succ_cons, List.length_cons]
      push_cast
      ring
    · -- the block is full
      have hzero : BYTES - p.length = 0 := by omega
      have hfill : fill block p.length (x :: rest) size = ⟨block, p.length, x :: rest, size⟩ := by
        rw [fill, if_neg hroom]
      rw [hfill, hzero]
      exact ⟨by simp, by simp, by simpa using hterm block p hp hpre hlen⟩

/-- The byte loop as `write_file` enters it, at the end of the string of the block. -/
theorem fill_strlen (block : CharArray (BYTES + 1)) (size : ℤ) (hc : (0 : UInt8) ∉ c)
    (hlen : block.strlen ≤ BYTES) :
    (fill block block.strlen c size).content = c.drop (BYTES - block.strlen) ∧
      (fill block block.strlen c size).fileSize =
        size + (c.take (BYTES - block.strlen)).length ∧
      ((fill block block.strlen c size).block.set (fill block block.strlen c size).bIndex 0).str =
        block.str ++ (c.take (BYTES - block.strlen)).map noNewline := by
  have hinitial : block.str <+: block.bytes := List.takeWhile_prefix _
  have hpre : block.bytes.take block.str.length = block.str :=
    (List.prefix_iff_eq_take.mp hinitial).symm
  exact fill_spec block block.str size hc block.nul_notMem_str hpre hlen

/-! ## The two halves of an iteration -/

namespace Holds

variable {fat fat' : Fin BLOCK_SIZE → ℤ} {disk disk' : Fin BLOCK_SIZE → CharArray (BYTES + 1)}
  {e e' : FileEntry}

theorem ne_last (h : Holds fat disk e f (init ++ [b])) {x : Fin BLOCK_SIZE} (hx : x ∈ init) :
    x ≠ b := by
  have hnodup := h.nodup
  rw [List.nodup_append] at hnodup
  exact hnodup.2.2 x hx b (by simp)

/-- More bytes in the last block are more bytes in the file. -/
theorem append_last (h : Holds fat disk e f (init ++ [b])) (p : Bytes) (huse : e'.use = e.use)
    (hname : e'.fileName = e.fileName) (hstart : e'.start = e.start)
    (hsize : e'.fileSize = e.fileSize + p.length) (hdisk : ∀ x, x ≠ b → disk' x = disk x)
    (hlast : (disk' b).str = (disk b).str ++ p) (hfits : (disk b).strlen + p.length ≤ BYTES) :
    Holds fat disk' e' { f with content := f.content ++ p } (init ++ [b]) where
  use := huse.trans h.use
  name := by rw [hname, h.name]
  size := by
    rw [hsize, h.size, List.length_append]
    push_cast
    rfl
  walk := by
    obtain ⟨a, ha, hwalk⟩ := h.walk
    exact ⟨a, hstart.trans ha, hwalk⟩
  content := by
    have hcontent := h.content
    rw [List.flatMap_append, List.flatMap_singleton] at hcontent ⊢
    rw [hlast, List.flatMap_congr fun x hx => by rw [hdisk x (h.ne_last hx)], ← List.append_assoc,
      hcontent]
  full := by
    intro x hx
    rw [List.dropLast_concat] at hx
    rw [hdisk x (h.ne_last hx)]
    exact h.full x (by rwa [List.dropLast_concat])
  fits := by
    intro x hx
    by_cases hxb : x = b
    · rw [hxb, CharArray.strlen, hlast, List.length_append]
      exact hfits
    · rw [hdisk x hxb]
      exact h.fits x hx

/-- An empty block behind a full last block does not change the file. -/
theorem snoc (h : Holds fat disk e f (init ++ [b])) (hfull : (disk b).strlen = BYTES)
    {nb : Fin BLOCK_SIZE} (hfat : ∀ x ∈ init, fat' x = fat x) (hb : fat' b = (nb : ℕ))
    (hnb : fat' nb = -1) (hdisk : ∀ x ∈ init ++ [b], disk' x = disk x)
    (hempty : (disk' nb).str = []) : Holds fat' disk' e f (init ++ [b] ++ [nb]) where
  use := h.use
  name := h.name
  size := h.size
  walk := by
    obtain ⟨a, ha, hwalk⟩ := h.walk
    rw [List.append_assoc]
    refine ⟨a, ha, Walk.snoc hwalk ?_ hb hnb⟩
    intro x hx y hxy
    rw [hfat x hx]
    exact hxy
  content := by
    rw [← h.content, List.flatMap_append, List.flatMap_singleton, hempty, List.append_nil]
    exact List.flatMap_congr fun x hx => by rw [hdisk x hx]
  full := by
    intro x hx
    rw [List.dropLast_concat] at hx
    rw [hdisk x hx]
    rcases List.mem_append.mp hx with hx | hx
    · exact h.full x (by rwa [List.dropLast_concat])
    · rw [List.mem_singleton.mp hx]
      exact hfull
  fits := by
    intro x hx
    rcases List.mem_append.mp hx with hx | hx
    · rw [hdisk x hx]
      exact h.fits x hx
    · rw [List.mem_singleton.mp hx, CharArray.strlen, hempty]
      exact Nat.zero_le _

end Holds

/-- The file with the bytes of `c` appended that fit into the last block `b`. -/
def File.fillLast (f : File) (fs : FileSystem) (b : Fin BLOCK_SIZE) (c : Bytes) : File :=
  { f with content := f.content ++ (c.take (BYTES - (fs.disk b).strlen)).map noNewline }

/-- Filling the last block of entry `k` appends to its file and changes nothing else. -/
theorem afterFill_links (h : Links fs d chain) (hk : d k = some f) (hl : chain k = init ++ [b])
    (hc : (0 : UInt8) ∉ c) :
    Links (fs.afterFill k b (fill (fs.disk b) (fs.disk b).strlen c (fs.entries k).fileSize))
      (update d k (some (f.fillLast fs b c))) chain := by
  have hh := h.holds k f hk
  rw [hl] at hh
  have hfits := hh.fits b (by simp)
  obtain ⟨-, hsize, hstr⟩ := fill_strlen (fs.disk b) (fs.entries k).fileSize hc hfits
  set F := fill (fs.disk b) (fs.disk b).strlen c (fs.entries k).fileSize with hF
  have hne : ∀ x, x ≠ b → (fs.afterFill k b F).disk x = fs.disk x := by
    intro x hx
    simp [FileSystem.afterFill, hx]
  have hlinks : Links (fs.afterFill k b F) _ _ :=
    h.update_entry k (some (f.fillLast fs b c)) (chain k) ?_ ?_ (by simp) ?_ ?_ ?_
  · rwa [update_eq_self] at hlinks
  · intro j hj
    simp [FileSystem.afterFill, hj]
  · intro j hj x hx
    have hxb : x ≠ b := fun hxb => hj (h.disjoint j k x hx (by simp [hl, hxb]))
    exact ⟨rfl, by rw [hne x hxb]⟩
  · intro g hg
    obtain rfl := Option.some.inj hg
    rw [hl]
    apply hh.append_last ((c.take (BYTES - (fs.disk b).strlen)).map noNewline)
    · simp [FileSystem.afterFill]
    · simp [FileSystem.afterFill]
    · simp [FileSystem.afterFill]
    · simp [FileSystem.afterFill, hsize]
    · exact hne
    · simpa [FileSystem.afterFill] using hstr
    · rw [List.length_map, List.length_take]
      omega
  · intro j hj x hx hxj
    exact hj (h.disjoint j k x hxj hx)
  · intro x
    exact h.owned_iff k x

/-- The fill level of the last block after the byte loop. -/
theorem strlen_afterFill (h : Links fs d chain) (hk : d k = some f) (hl : chain k = init ++ [b])
    (hc : (0 : UInt8) ∉ c) :
    ((fs.afterFill k b (fill (fs.disk b) (fs.disk b).strlen c
      (fs.entries k).fileSize)).disk b).strlen =
      (fs.disk b).strlen + min (BYTES - (fs.disk b).strlen) c.length := by
  have hh := h.holds k f hk
  rw [hl] at hh
  obtain ⟨-, -, hstr⟩ := fill_strlen (fs.disk b) (fs.entries k).fileSize hc
    (hh.fits b (by simp))
  simp only [CharArray.strlen, FileSystem.afterFill, update_self] at hstr ⊢
  rw [hstr, List.length_append, List.length_map, List.length_take]

/-- Linking a free block behind the full last block of entry `k` keeps every file. -/
theorem link_links (h : Links fs d chain) (hk : d k = some f) (hl : chain k = init ++ [b])
    (hfull : (fs.disk b).strlen = BYTES) {nb : Fin BLOCK_SIZE} (hnb : fs.fat nb = -2) :
    Links (fs.link b nb) d (update chain k (init ++ [b, nb])) := by
  have hh := h.holds k f hk
  rw [hl] at hh
  -- the free block is on no chain, so only the chain of `k` changes
  have hnbl : ∀ j, nb ∉ chain j := h.notMem_of_free hnb
  have hnbk : nb ∉ init ++ [b] := hl ▸ hnbl k
  have hbnb : b ≠ nb := fun hbn => hnbk (by simp [← hbn])
  have hdisk : ∀ x, x ≠ nb → (fs.link b nb).disk x = fs.disk x := by
    intro x hx
    simp [FileSystem.link, hx]
  have hfat : ∀ x, x ≠ b → x ≠ nb → (fs.link b nb).fat x = fs.fat x := by
    intro x hxb hxn
    simp [FileSystem.link, hxb, hxn]
  rw [List.append_cons]
  have hlinks : Links (fs.link b nb) _ _ :=
    h.update_entry k (some f) (init ++ [b] ++ [nb]) (fun _ _ => rfl) ?_ (by simp) ?_ ?_ ?_
  · rwa [← hk, update_eq_self] at hlinks
  · intro j hj x hx
    have hxn : x ≠ nb := fun hxn => hnbl j (hxn ▸ hx)
    have hxb : x ≠ b := fun hxb => hj (h.disjoint j k x hx (by simp [hl, hxb]))
    exact ⟨hfat x hxb hxn, by rw [hdisk x hxn]⟩
  · intro g hg
    obtain rfl := Option.some.inj hg
    apply hh.snoc hfull
    · intro x hx
      exact hfat x (hh.ne_last hx) fun hxn => hnbk (by simp [← hxn, hx])
    · simp [FileSystem.link, hbnb]
    · simp [FileSystem.link]
    · intro x hx
      exact hdisk x fun hxn => hnbk (hxn ▸ hx)
    · simpa [FileSystem.link] using CharArray.str_strcpy (fs.disk nb) (s := []) (by simp)
        (Nat.succ_pos _)
  · intro j hj x hx hxj
    rcases List.mem_append.mp hx with hx | hx
    · exact hj (h.disjoint j k x hxj (hl ▸ hx))
    · obtain rfl := List.mem_singleton.mp hx
      exact hnbl j hxj
  · intro x
    by_cases hxn : x = nb
    · subst hxn
      simp [FileSystem.link]
    · by_cases hxb : x = b
      · subst hxb
        simp [FileSystem.link, hxn]
      · rw [hfat x hxb hxn, h.owned_iff k x, hl]
        simp [hxn, hxb]

/-- Linking takes one free block. -/
theorem freeCount_link (fs : FileSystem) (hb : fs.fat b = -1) {nb : Fin BLOCK_SIZE}
    (hnb : fs.fat nb = -2) :
    freeCount (fs.link b nb).fat + 1 = freeCount fs.fat := by
  have hne : nb ≠ b := by rintro rfl; omega
  have hupd : update fs.fat b ((nb : ℕ) : ℤ) nb = -2 := by rw [update_of_ne hne, hnb]
  rw [FileSystem.link, freeCount_take hupd (by decide), freeCount_update (by omega) (by omega)]

/-! ## The loops -/

/-- `f` with the first `n` bytes of `c` appended, newlines replaced. -/
def File.extend (f : File) (n : ℕ) (c : Bytes) : File :=
  { f with content := f.content ++ (c.take n).map noNewline }

theorem File.length_extend (f : File) (n : ℕ) (c : Bytes) :
    (f.extend n c).content.length = f.content.length + min n c.length := by
  simp [File.extend]

/-- Two appends in a row. -/
theorem File.extend_extend (f : File) (m n : ℕ) (c : Bytes) :
    (f.extend m c).extend n (c.drop m) = f.extend (m + n) c := by
  simp only [File.extend, List.append_assoc, ← List.map_append, List.take_add]

theorem File.extend_of_le (f : File) {m n : ℕ} {c : Bytes} (hm : c.length ≤ m)
    (hn : c.length ≤ n) : f.extend m c = f.extend n c := by
  simp only [File.extend, List.take_of_length_le hm, List.take_of_length_le hn]

/-- After the byte loop has been given at least one byte, the chain is no longer than needed. -/
theorem length_eq_afterFill (h : Links fs d chain) (hk : d k = some f) (hl : chain k = init ++ [b])
    (hne : c ≠ []) :
    (chain k).length = blocks (f.extend (BYTES - (fs.disk b).strlen) c).content.length := by
  have hh := h.holds k f hk
  rw [hl] at hh
  have hfits := hh.fits b (by simp)
  have hpos : 0 < c.length := List.length_pos_iff.mpr hne
  have hb : BYTES = 32 := rfl
  rw [hl, List.length_append, List.length_singleton, File.length_extend, hh.length_content,
    Nat.add_assoc]
  refine (blocks_eq_iff ?_).mpr ?_ <;> omega

/-- The state after the byte loop of an iteration that starts in `fs` at block `b`. -/
def filled (fs : FileSystem) (k : Fin ENTRY) (b : Fin BLOCK_SIZE) (c : Bytes) : FileSystem :=
  fs.afterFill k b (fill (fs.disk b) (fs.disk b).strlen c (fs.entries k).fileSize)

section WriteStep

variable (hfits : (fs.disk b).strlen ≤ BYTES) (hc : (0 : UInt8) ∉ c)

include hfits hc

/-- An iteration that finishes the write. -/
theorem writeStep_done (hle : c.length ≤ BYTES - (fs.disk b).strlen) :
    writeStep k ⟨fs, b, c, false⟩ = ⟨filled fs k b c, b, [], false⟩ := by
  obtain ⟨hrest, -, -⟩ := fill_strlen (fs.disk b) (fs.entries k).fileSize hc hfits
  rw [List.drop_eq_nil_of_le hle] at hrest
  simp only [writeStep, hrest, if_true, filled]

/-- An iteration that finds no free block. -/
theorem writeStep_full (hlt : BYTES - (fs.disk b).strlen < c.length)
    (hfree : (filled fs k b c).freeBlock = none) :
    writeStep k ⟨fs, b, c, false⟩ =
      ⟨filled fs k b c, b, c.drop (BYTES - (fs.disk b).strlen), true⟩ := by
  obtain ⟨hrest, -, -⟩ := fill_strlen (fs.disk b) (fs.entries k).fileSize hc hfits
  have hdrop : c.drop (BYTES - (fs.disk b).strlen) ≠ [] := by simpa using hlt
  simp only [filled] at hfree
  simp only [writeStep, hrest, if_neg hdrop, hfree, filled]

/-- An iteration that goes on in a new block. -/
theorem writeStep_link (hlt : BYTES - (fs.disk b).strlen < c.length) {nb : Fin BLOCK_SIZE}
    (hfree : (filled fs k b c).freeBlock = some nb) :
    writeStep k ⟨fs, b, c, false⟩ =
      ⟨(filled fs k b c).link b nb, nb, c.drop (BYTES - (fs.disk b).strlen), false⟩ := by
  obtain ⟨hrest, -, -⟩ := fill_strlen (fs.disk b) (fs.entries k).fileSize hc hfits
  have hdrop : c.drop (BYTES - (fs.disk b).strlen) ≠ [] := by simpa using hlt
  simp only [filled] at hfree
  simp only [writeStep, hrest, if_neg hdrop, hfree, filled]

end WriteStep

/-- What the outer loop reaches: the first `n` bytes of `c` are appended to the file of entry `k`,
and every other chain is unchanged. -/
structure Written (d : Directory) (chain : Fin ENTRY → List (Fin BLOCK_SIZE)) (k : Fin ENTRY)
    (f : File) (n : ℕ) (c : Bytes) (w : Write) (chain' : Fin ENTRY → List (Fin BLOCK_SIZE)) :
    Prop where
  links : Links w.fs (update d k (some (f.extend n c))) chain'
  length_eq : (chain' k).length = blocks (f.extend n c).content.length
  others : ∀ j, j ≠ k → chain' j = chain j
  full_iff : w.full = true ↔ n < c.length

/-- The outer loop, by induction on the number of free blocks: it appends as many bytes as the rest
of the last block and the free blocks can take. -/
theorem writeLoop_spec (n fuel : ℕ) (h : Links fs d chain) (hk : d k = some f)
    (hl : chain k = init ++ [b]) (hn : freeCount fs.fat = n) (hfuel : n + 2 ≤ fuel)
    (hne : c ≠ []) (hc : (0 : UInt8) ∉ c) :
    ∃ w chain',
      whileLoop Write.active (fun w => some (writeStep k w)) fuel ⟨fs, b, c, false⟩ = some w ∧
      Written d chain k f (BYTES - (fs.disk b).strlen + BYTES * n) c w chain' := by
  induction n using Nat.strong_induction_on generalizing fs d chain f init b c fuel with
  | _ n ih =>
    obtain ⟨fuel, rfl⟩ : ∃ m, fuel = m + 2 := ⟨fuel - 2, by omega⟩
    have hh := h.holds k f hk
    rw [hl] at hh
    have hfits := hh.fits b (by simp)
    have hlinks : Links (filled fs k b c)
        (update d k (some (f.extend (BYTES - (fs.disk b).strlen) c))) chain :=
      afterFill_links h hk hl hc
    have hlen := length_eq_afterFill h hk hl hne
    have hactive : (Write.mk fs b c false).active = true := by simp [Write.active, hne]
    by_cases hlt : BYTES - (fs.disk b).strlen < c.length
    · cases hfree : (filled fs k b c).freeBlock with
      | none =>
        -- the disk is full: the write is partial
        have hzero : n = 0 := hn ▸ freeBlock_eq_none hfree
        subst hzero
        rw [whileLoop_of_step hactive (writeStep_full hfits hc hlt hfree),
          whileLoop_of_not fuel (by simp [Write.active])]
        refine ⟨_, chain, rfl, ?_⟩
        rw [Nat.mul_zero, Nat.add_zero]
        exact ⟨hlinks, hlen, fun _ _ => rfl, by simp [hlt]⟩
      | some nb =>
        -- the last block is full now, and the rest of `c` goes behind the new block
        have hnb := freeBlock_eq_some hfree
        have hfull : ((filled fs k b c).disk b).strlen = BYTES := by
          rw [filled, strlen_afterFill h hk hl hc]
          omega
        have hlinks' := link_links hlinks (update_self _ _ _) hl hfull hnb
        have hcount := freeCount_link (filled fs k b c) hh.fat_last hnb
        have hnew : (((filled fs k b c).link b nb).disk nb).strlen = 0 := by
          simp [CharArray.strlen, FileSystem.link,
            CharArray.str_strcpy _ (s := []) (by simp) (Nat.succ_pos _)]
        have hpos : freeCount (filled fs k b c).fat = n := hn
        have hchain : update chain k (init ++ [b, nb]) k = (init ++ [b]) ++ [nb] := by simp
        have hrest : c.drop (BYTES - (fs.disk b).strlen) ≠ [] := by simpa using hlt
        obtain ⟨w, chain', hrun, hw⟩ := ih (n - 1) (by omega) (fuel + 1) hlinks'
          (update_self _ _ _) hchain (by omega) (by omega) hrest
          (fun hmem => hc (List.mem_of_mem_drop hmem))
        have hsum : BYTES - (fs.disk b).strlen + (BYTES - 0 + BYTES * (n - 1)) =
            BYTES - (fs.disk b).strlen + BYTES * n := by
          obtain ⟨m, rfl⟩ : ∃ m, n = m + 1 := ⟨n - 1, by omega⟩
          rw [Nat.add_sub_cancel, Nat.mul_succ]
          omega
        rw [whileLoop_of_step hactive (writeStep_link hfits hc hlt hfree)]
        refine ⟨w, chain', hrun, ?_⟩
        rw [← hsum]
        rw [hnew] at hw
        constructor
        · simpa only [update_idem, File.extend_extend] using hw.links
        · simpa only [File.extend_extend] using hw.length_eq
        · intro j hj
          rw [hw.others j hj, update_of_ne hj]
        · rw [hw.full_iff, List.length_drop]
          omega
    · -- everything fits into the last block
      have hle := Nat.le_of_not_lt hlt
      rw [whileLoop_of_step hactive (writeStep_done hfits hc hle),
        whileLoop_of_not fuel (by simp [Write.active])]
      refine ⟨_, chain, rfl, ?_⟩
      have hext := f.extend_of_le hle (hle.trans (Nat.le_add_right _ (BYTES * n)))
      exact ⟨hext ▸ hlinks, hext ▸ hlen, fun _ _ => rfl, by simp; omega⟩

/-- The walk of `write_file` ends at the last block of the chain. -/
theorem lastBlock_eq {a : Fin BLOCK_SIZE} (h : FatWalk fs.fat a (init ++ [b])) :
    lastBlock fs a = some b := by
  suffices hloop : ∀ l, Walk (fun x y => fs.fat x = (y : ℕ)) (fun x => fs.fat x = -1) a l →
      ∀ fuel, l.length ≤ fuel → l.getLast? = some b →
      whileLoop (fun b => 0 ≤ fs.fat b) (fun b => index? (fs.fat b)) fuel a = some b from
    hloop _ h BLOCK_SIZE h.length_le (by simp)
  clear h
  intro l hwalk
  induction hwalk with
  | @last a hs =>
    intro fuel hfuel hlast
    obtain ⟨fuel, rfl⟩ : ∃ m, fuel = m + 1 := ⟨fuel - 1, by simp at hfuel; omega⟩
    rw [whileLoop_of_not fuel (by simp [hs])]
    simpa using hlast
  | @cons a x l hax htail ih =>
    intro fuel hfuel hlast
    obtain ⟨fuel, rfl⟩ : ∃ m, fuel = m + 1 := ⟨fuel - 1, by simp at hfuel; omega⟩
    have hbody : index? (fs.fat a) = some x := by simp [hax]
    rw [whileLoop_of_body (by simp [hax]) hbody]
    rw [List.getLast?_cons_of_ne_nil htail.ne_nil] at hlast
    exact ih fuel (by simpa using hfuel) hlast

/-- The room of the directory is the rest of the last block and the free blocks. -/
theorem Represents.room_eq {f : File} {init : List (Fin BLOCK_SIZE)} (h : Represents fs d chain)
    (hk : d k = some f) (hl : chain k = init ++ [b]) :
    d.room f.content.length = BYTES - (fs.disk b).strlen + BYTES * freeCount fs.fat := by
  have hh := h.holds k f hk
  rw [hl] at hh
  have hlen := h.length_eq k f hk
  have hfits := hh.fits b (by simp)
  rw [hl, List.length_append, List.length_singleton] at hlen
  rw [Directory.room, ← hlen, h.freeCount_eq, hh.length_content, Nat.mul_succ]
  omega

/-- `write_file` appends what the directory says, and leaves the chains of the other files alone. -/
theorem writeFile_represents (h : Represents fs d chain) (name content : CString) :
    ∃ fs' chain', writeFile name content fs = some (fs', (d.write name content).2) ∧
      Represents fs' (d.write name content).1 chain' ∧
      ∀ j, d.find name.bytes ≠ some j → chain' j = chain j := by
  simp only [writeFile, Directory.write, h.toLinks.lookup_eq]
  cases hlook : d.lookup name.bytes with
  | none => exact ⟨fs, chain, by simp [Directory.lookup_eq_none hlook], h, fun _ _ => rfl⟩
  | some p =>
    obtain ⟨k, f⟩ := p
    obtain ⟨hfind, hk, -⟩ := Directory.lookup_eq_some hlook
    have hh := h.holds k f hk
    obtain ⟨init, b, hl⟩ := hh.exists_last
    rw [hl] at hh
    obtain ⟨a, hstart, hwalk⟩ := hh.walk
    -- the walk along the chain ends at its last block
    simp only [hfind, hstart, index?_natCast, lastBlock_eq hwalk, Option.bind_eq_bind,
      Option.bind_some]
    have hfree : freeCount fs.fat ≤ BLOCK_SIZE := by
      have := h.toLinks.freeCount_add
      omega
    by_cases hne : content.bytes = []
    · -- nothing to write: the loop is not entered
      have happend : d.append f content.bytes = f := by simp [Directory.append, hne]
      have hloop : writeLoop k ⟨fs, b, content.bytes, false⟩ =
          some ⟨fs, b, content.bytes, false⟩ :=
        whileLoop_of_not _ (by simp [Write.active, hne])
      refine ⟨fs, chain, ?_, ?_, fun _ _ => rfl⟩
      · rw [hloop, Option.bind_some]
        simp [hne]
      · rwa [happend, ← hk, update_eq_self]
    · obtain ⟨w, chain', hrun, hw⟩ := writeLoop_spec (freeCount fs.fat) (BLOCK_SIZE + 2)
        h.toLinks hk hl rfl (by omega) hne content.nul_free
      rw [← h.room_eq hk hl] at hw
      have hloop : writeLoop k ⟨fs, b, content.bytes, false⟩ = some w := hrun
      refine ⟨w.fs, chain', ?_, ⟨hw.links, ?_⟩, ?_⟩
      · rw [hloop, Option.bind_some]
        by_cases hfull : d.room f.content.length < content.bytes.length
        · rw [if_pos (hw.full_iff.mpr hfull), if_pos hfull]
        · rw [if_neg fun hw' => hfull (hw.full_iff.mp hw'), if_neg hfull]
      · intro i g hi
        by_cases hik : i = k
        · subst hik
          obtain rfl := Option.some.inj ((update_self i _ d).symm.trans hi)
          exact hw.length_eq
        · rw [update_of_ne hik] at hi
          rw [hw.others i hik]
          exact h.length_eq i g hi
      · intro j hj
        exact hw.others j fun hjk => hj (by rw [hjk])

end SchoolOS.Fat
