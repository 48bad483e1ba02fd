import SchoolOS.Fat.Invariant

/-!
# The operations keep the invariant

Each operation of the file system does on the arrays what its directory counterpart does, and prints
the same. `Links.update_entry` is the common step: replace the file and the chain of one entry and
leave the blocks of all other chains alone.
-/

namespace SchoolOS.Fat

open Function Loop

variable {fs fs' : FileSystem} {d : Directory} {chain : Fin ENTRY → List (Fin BLOCK_SIZE)}

/-- Replace the file and the chain of entry `k`, keeping the blocks of the other chains. -/
theorem Links.update_entry (h : Links fs d chain) (k : Fin ENTRY) (o : Option File)
    (l : List (Fin BLOCK_SIZE))
    (hentries : ∀ j, j ≠ k → fs'.entries j = fs.entries j)
    (hframe : ∀ j, j ≠ k → ∀ b ∈ chain j,
      fs'.fat b = fs.fat b ∧ (fs'.disk b).str = (fs.disk b).str)
    (hnone : o = none → (fs'.entries k).use = 0 ∧ l = [])
    (hsome : ∀ f, o = some f → Holds fs'.fat fs'.disk (fs'.entries k) f l)
    (hdisj : ∀ j, j ≠ k → ∀ b ∈ l, b ∉ chain j)
    (howned : ∀ b, fs'.fat b ≠ -2 ↔ b ∈ l ∨ ∃ j, j ≠ k ∧ b ∈ chain j) :
    Links fs' (update d k o) (update chain k l) where
  unused := by
    intro i hi
    by_cases hik : i = k
    · subst hik
      simpa using hnone (by simpa using hi)
    · simp only [update_of_ne hik, hentries i hik] at hi ⊢
      exact h.unused i hi
  holds := by
    intro i f hi
    by_cases hik : i = k
    · subst hik
      simpa using hsome f (by simpa using hi)
    · simp only [update_of_ne hik, hentries i hik] at hi ⊢
      exact (h.holds i f hi).congr (fun b hb => (hframe i hik b hb).1)
        (fun b hb => (hframe i hik b hb).2)
  disjoint := by
    -- only the new chain is to be compared with the old ones
    intro i j b hi hj
    by_cases hik : i = k <;> by_cases hjk : j = k
    · rw [hik, hjk]
    · subst hik
      simp only [update_self, update_of_ne hjk] at hi hj
      exact absurd hj (hdisj j hjk b hi)
    · subst hjk
      simp only [update_self, update_of_ne hik] at hi hj
      exact absurd hi (hdisj i hik b hj)
    · simp only [update_of_ne hik, update_of_ne hjk] at hi hj
      exact h.disjoint i j b hi hj
  owned := by
    intro b
    rw [howned b]
    constructor
    · rintro (hb | ⟨j, hj, hb⟩)
      · exact ⟨k, by simpa using hb⟩
      · exact ⟨j, by simpa [hj] using hb⟩
    · rintro ⟨j, hb⟩
      by_cases hj : j = k
      · subst hj
        exact Or.inl (by simpa using hb)
      · exact Or.inr ⟨j, hj, by simpa [hj] using hb⟩

/-- The chain of entry `k` and the other chains cover the blocks in use. -/
theorem Links.owned_iff (h : Links fs d chain) (k : Fin ENTRY) (b : Fin BLOCK_SIZE) :
    fs.fat b ≠ -2 ↔ b ∈ chain k ∨ ∃ j, j ≠ k ∧ b ∈ chain j := by
  rw [h.owned b]
  constructor
  · rintro ⟨j, hj⟩
    by_cases hjk : j = k
    · exact Or.inl (hjk ▸ hj)
    · exact Or.inr ⟨j, hjk, hj⟩
  · rintro (hk | ⟨j, -, hj⟩)
    · exact ⟨k, hk⟩
    · exact ⟨j, hj⟩

/-- A represented entry keeps its size condition when another entry changes. -/
theorem Represents.length_update (h : Represents fs d chain) (k : Fin ENTRY) (o : Option File)
    (l : List (Fin BLOCK_SIZE)) (hlen : ∀ f, o = some f → l.length = blocks f.content.length) :
    ∀ i f, update d k o i = some f → (update chain k l i).length = blocks f.content.length := by
  intro i f hi
  by_cases hik : i = k
  · subst hik
    simpa using hlen f (by simpa using hi)
  · simp only [update_of_ne hik] at hi ⊢
    exact h.length_eq i f hi

/-! ## `create_file` -/

/-- The string stored by `create_file` is the name, cut after `FILE_NAME` bytes. -/
theorem str_storedName (a : CharArray (FILE_NAME + 1)) (name : CString) :
    ((a.strcpy name.bytes).set FILE_NAME 0).str = name.bytes.take FILE_NAME :=
  CharArray.str_strcpy_set a name.nul_free (Nat.lt_succ_self _)

/-- `create_file` creates the file the directory says, in the first free block, and leaves the
chains of the other files alone. -/
theorem createFile_represents (h : Represents fs d chain) (name : CString) :
    ∃ fs' chain', createFile name fs = (fs', (d.create name).2) ∧
      Represents fs' (d.create name).1 chain' ∧ ∀ j f, d j = some f → chain' j = chain j := by
  simp only [createFile, Directory.create, h.toLinks.lookup_eq, h.toLinks.freeEntry_eq]
  cases hfind : d.find name.bytes with
  | some i => exact ⟨fs, chain, rfl, h, fun _ _ _ => rfl⟩
  | none =>
    cases hvac : d.vacant with
    | none => exact ⟨fs, chain, rfl, h, fun _ _ _ => rfl⟩
    | some k =>
      cases hfree : fs.freeBlock with
      | none =>
        have hzero : d.free = 0 := h.freeCount_eq ▸ freeBlock_eq_none hfree
        exact ⟨fs, chain, by simp [hzero], by simpa [hzero] using h, fun _ _ _ => rfl⟩
      | some fb =>
        have hfb := freeBlock_eq_some hfree
        have hpos : d.free ≠ 0 := by
          have := freeCount_pos hfb
          rw [h.freeCount_eq] at this
          omega
        have hk := Directory.vacant_eq_some hvac
        have hstr : ((fs.disk fb).strcpy []).str = [] :=
          CharArray.str_strcpy _ (by simp) (Nat.succ_pos _)
        simp only [if_neg hpos]
        refine ⟨_, update chain k [fb], rfl, ⟨?_, ?_⟩, ?_⟩
        · -- the block is on no chain, so the other files are untouched
          refine h.toLinks.update_entry k _ [fb] ?_ ?_ (by simp) ?_ ?_ ?_
          · intro j hj
            simp [hj]
          · intro j _ b hb
            have hne : b ≠ fb := fun hbf => h.toLinks.notMem_of_free hfb j (hbf ▸ hb)
            simp [hne]
          · -- the new entry holds an empty file in that block
            intro f hf
            obtain rfl := Option.some.inj hf
            constructor
            · simp
            · simpa using str_storedName _ name
            · simp
            · exact ⟨fb, by simp, .last (by simp)⟩
            · simp [hstr]
            · simp
            · simp [CharArray.strlen, hstr]
          · intro j _ b hb
            obtain rfl := List.mem_singleton.mp hb
            exact h.toLinks.notMem_of_free hfb j
          · intro b
            by_cases hbf : b = fb
            · subst hbf
              simp
            · have := h.toLinks.owned_iff k b
              simpa [hbf, (h.unused k hk).2] using this
        · exact h.length_update k _ [fb] (by simp [blocks, BYTES])
        · intro j f hj
          have hjk : j ≠ k := by
            rintro rfl
            simp [hk] at hj
          rw [update_of_ne hjk]

/-! ## `read_file` -/

/-- The walk of `read_file` prints the blocks of the chain in order. -/
theorem readLoop_eq {a : Fin BLOCK_SIZE} {l : List (Fin BLOCK_SIZE)} (h : FatWalk fs.fat a l) :
    readLoop fs a = some (l.flatMap fun b => (fs.disk b).str) := by
  suffices hloop : ∀ fuel acc, l.length ≤ fuel →
      (whileLoop (fun r => 0 ≤ fs.fat r.1) (readStep fs) fuel (a, acc)).map
        (fun r => r.2 ++ (fs.disk r.1).str) =
        some (acc ++ l.flatMap fun b => (fs.disk b).str) by
    simpa [readLoop] using hloop BLOCK_SIZE [] h.length_le
  induction h with
  | @last a hs =>
    intro fuel acc hfuel
    obtain ⟨fuel, rfl⟩ : ∃ n, fuel = n + 1 := ⟨fuel - 1, by simp at hfuel; omega⟩
    rw [whileLoop_of_not fuel (by simp [hs])]
    simp
  | @cons a b l hab _ ih =>
    intro fuel acc hfuel
    obtain ⟨fuel, rfl⟩ : ∃ n, fuel = n + 1 := ⟨fuel - 1, by simp at hfuel; omega⟩
    have hbody : readStep fs (a, acc) = some (b, acc ++ (fs.disk a).str) := by
      simp [readStep, hab]
    rw [whileLoop_of_body (by simp [hab]) hbody, ih fuel _ (by simpa using hfuel)]
    simp

/-- `read_file` prints the content of the file. -/
theorem readFile_eq (h : Links fs d chain) (name : CString) :
    readFile name fs = some (d.read name) := by
  simp only [readFile, Directory.read, h.lookup_eq]
  cases hlook : d.lookup name.bytes with
  | none => simp [Directory.lookup_eq_none hlook]
  | some p =>
    obtain ⟨i, f⟩ := p
    obtain ⟨hfind, hi, -⟩ := Directory.lookup_eq_some hlook
    have hh := h.holds i f hi
    obtain ⟨a, hstart, hwalk⟩ := hh.walk
    simp [hfind, hstart, readLoop_eq hwalk, hh.content]

/-! ## `delete_file` -/

/-- The walk of `delete_file` frees exactly the blocks of the chain, although it destroys the links
behind it. -/
theorem deleteLoop_eq {fat : Fin BLOCK_SIZE → ℤ} {a : Fin BLOCK_SIZE} {l : List (Fin BLOCK_SIZE)}
    (h : FatWalk fat a l) : deleteLoop fat a = some fun b => if b ∈ l then -2 else fat b := by
  suffices hloop : ∀ fuel fat a, FatWalk fat a l → l.length ≤ fuel →
      (whileLoop (fun d => 0 ≤ d.1 d.2) deleteStep fuel (fat, a)).map
        (fun d => update d.1 d.2 (-2)) = some fun b => if b ∈ l then -2 else fat b from
    hloop (BLOCK_SIZE + 1) fat a h (h.length_le.trans (Nat.le_succ _))
  clear h fat a
  induction l with
  | nil => exact fun _ _ _ h => absurd rfl h.ne_nil
  | cons c l ih =>
    intro fuel fat a h hfuel
    obtain ⟨fuel, rfl⟩ : ∃ n, fuel = n + 1 := ⟨fuel - 1, by simp at hfuel; omega⟩
    have hnodup := List.nodup_cons.mp h.nodup
    cases h with
    | last hs =>
      rw [whileLoop_of_not fuel (by simp [hs])]
      simp only [Option.map_some, List.mem_singleton, Option.some.injEq]
      funext x
      rw [update_apply]
    | @cons _ b _ hab htail =>
      have hbody : deleteStep (fat, c) = some (update fat c (-2), b) := by
        simp [deleteStep, hab]
      -- the freed block is not visited again
      have htail' : FatWalk (update fat c (-2)) b l :=
        FatWalk.congr_fat htail fun x hx =>
          update_of_ne (fun hxc : x = c => hnodup.1 (hxc ▸ hx)) _ _
      rw [whileLoop_of_body (by simp [hab]) hbody, ih fuel _ b htail' (by simpa using hfuel)]
      congr 1
      funext x
      by_cases hx : x = c
      · subst hx
        simp
      · simp [hx]

/-- `delete_file` removes the file and frees its chain, and no other. -/
theorem deleteFile_represents (h : Represents fs d chain) (name : CString) :
    ∃ fs' chain', deleteFile name fs = some (fs', (d.delete name).2) ∧
      Represents fs' (d.delete name).1 chain' ∧
      ∀ j, d.find name.bytes ≠ some j → chain' j = chain j := by
  simp only [deleteFile, Directory.delete, h.toLinks.lookup_eq]
  cases hlook : d.lookup name.bytes with
  | none => exact ⟨fs, chain, by simp [Directory.lookup_eq_none hlook], h, fun _ _ => rfl⟩
  | some p =>
    obtain ⟨k, f⟩ := p
    obtain ⟨hfind, hk, -⟩ := Directory.lookup_eq_some hlook
    obtain ⟨a, hstart, hwalk⟩ := (h.holds k f hk).walk
    simp only [hfind, hstart, index?_natCast, deleteLoop_eq hwalk, Option.bind_eq_bind,
      Option.bind_some]
    refine ⟨_, update chain k [], rfl, ⟨?_, ?_⟩, ?_⟩
    · -- the blocks of the chain become free; every other chain avoids them
      have hother : ∀ j, j ≠ k → ∀ b ∈ chain j, b ∉ chain k :=
        fun j hj b hb hbk => hj (h.disjoint j k b hb hbk)
      refine h.toLinks.update_entry k none [] ?_ ?_ (by simp) (by simp) (by simp) ?_
      · intro j hj
        simp [hj]
      · intro j hj b hb
        simp [hother j hj b hb]
      · intro b
        have hb := h.toLinks.owned_iff k b
        by_cases hbk : b ∈ chain k
        · simp only [hbk, if_true, ne_eq, not_true_eq_false, List.not_mem_nil, false_or, false_iff]
          rintro ⟨j, hj, hbj⟩
          exact hother j hj b hbj hbk
        · simpa [hbk] using hb
    · exact h.length_update k none [] (by simp)
    · intro j hj
      have hjk : j ≠ k := fun hjk => hj (by rw [hjk])
      rw [update_of_ne hjk]

/-! ## `list_files` -/

/-- `list_files` prints every file with its size, in the order of the entries. -/
theorem listFiles_eq (h : Links fs d chain) : listFiles fs = d.list := by
  have hline : ∀ i : Fin ENTRY, (if (fs.entries i).use ≠ 0 then
      listLine (fs.entries i).fileName.str (fs.entries i).fileSize else []) =
      (d i).toList.flatMap fun f => listLine f.name f.content.length := by
    intro i
    cases hd : d i with
    | none => simp [(h.unused i hd).1]
    | some f =>
      have hh := h.holds i f hd
      simp [hh.use, hh.name, hh.size]
  have hfiles : d.files = (List.finRange ENTRY).flatMap fun i => (d i).toList := by
    rw [Directory.files, List.filterMap_eq_flatMap_toList]
  rw [listFiles, Directory.list, hfiles, List.flatMap_assoc, List.flatMap_congr fun i _ => hline i]

end SchoolOS.Fat
