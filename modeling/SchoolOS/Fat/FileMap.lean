import SchoolOS.Fat.Directory
import Mathlib.Data.Finmap

/-!
# What the file system is for: a bounded map from names to contents

`FileMap` is the abstract state, a finite map from names to byte strings, and `FileMap.step` is the
effect of each operation on it. `Directory.toMap` forgets which entry a file lives in; on
directories with distinct names it commutes with the operations (`Directory.toMap_step`).
-/

namespace SchoolOS.Fat

open Function

/-- The files, by name. -/
abbrev FileMap := Finmap fun _ : Bytes => Bytes

namespace FileMap

/-- The number of blocks all files take. -/
def used (m : FileMap) : ℕ := (m.entries.map fun e => blocks e.2.length).sum

/-- The number of blocks that are left. -/
def free (m : FileMap) : ℕ := BLOCK_SIZE - m.used

/-- The number of bytes that can be appended to a file with content `f`. -/
def room (m : FileMap) (f : Bytes) : ℕ := BYTES * blocks f.length - f.length + BYTES * m.free

/-- The effect of one call. -/
def step (op : Op) (m : FileMap) : FileMap :=
  match op with
  | .create name =>
    if name.bytes ∉ m ∧ m.keys.card < ENTRY ∧ 0 < m.free then m.insert name.bytes [] else m
  | .write name content =>
    match m.lookup name.bytes with
    | none => m
    | some f => m.insert name.bytes (f ++ (content.bytes.take (m.room f)).map noNewline)
  | .delete name => m.erase name.bytes
  | .read _ | .list => m

end FileMap

/-- A call whose name, if it has one, fits into an entry. -/
def Op.NameFits (op : Op) : Prop := ∀ name ∈ op.name?, name.bytes.length ≤ FILE_NAME

/-! ## Finite maps from lists -/

/-- A list with distinct keys lists the entries of its map. -/
theorem entries_toFinmap {l : List (Σ _ : Bytes, Bytes)} (h : l.NodupKeys) :
    (l.toFinmap : FileMap).entries = l := by
  induction l with
  | nil => rfl
  | cons e l ih =>
    obtain ⟨hnotMem, htail⟩ := List.nodupKeys_cons.mp h
    obtain ⟨a, b⟩ := e
    have hmem : a ∉ (l.toFinmap : FileMap) := by
      rw [Finmap.mem_list_toFinmap]
      rintro ⟨c, hc⟩
      exact hnotMem (List.mem_keys.mpr ⟨c, hc⟩)
    rw [Finmap.toFinmap_cons, Finmap.entries_insert_of_notMem hmem, ih htail]
    rfl

namespace Directory

/-- No two files have the same name. -/
def NamesDistinct (d : Directory) : Prop :=
  ∀ i j f g, d i = some f → d j = some g → f.name = g.name → i = j

/-- The files of a directory, as entries of a map. -/
def mapEntries (d : Directory) : List (Σ _ : Bytes, Bytes) :=
  d.files.map fun f => ⟨f.name, f.content⟩

/-- The map from names to contents. -/
def toMap (d : Directory) : FileMap := d.mapEntries.toFinmap

theorem mem_files {d : Directory} {f : File} : f ∈ d.files ↔ ∃ i, d i = some f := by
  simp [files]

theorem mem_mapEntries {d : Directory} {name content : Bytes} :
    (⟨name, content⟩ : Σ _ : Bytes, Bytes) ∈ d.mapEntries ↔ ∃ i, d i = some ⟨name, content⟩ := by
  simp only [mapEntries, List.mem_map, mem_files]
  constructor
  · rintro ⟨f, ⟨i, hi⟩, hf⟩
    cases hf
    exact ⟨i, hi⟩
  · rintro ⟨i, hi⟩
    exact ⟨_, ⟨i, hi⟩, rfl⟩

section Distinct

variable {d : Directory} (hd : d.NamesDistinct)

include hd

theorem nodupKeys_mapEntries : d.mapEntries.NodupKeys := by
  have hmap : d.mapEntries.keys = (List.finRange ENTRY).filterMap fun i => (d i).map File.name := by
    simp only [mapEntries, files, List.keys, List.map_filterMap, Option.map_map]
    rfl
  rw [List.NodupKeys, hmap]
  refine (List.nodup_finRange ENTRY).filterMap ?_
  intro i j name hi hj
  obtain ⟨f, hf, hname⟩ := Option.map_eq_some_iff.mp (Option.mem_def.mp hi)
  obtain ⟨g, hg, hname'⟩ := Option.map_eq_some_iff.mp (Option.mem_def.mp hj)
  exact hd i j f g hf hg (hname.trans hname'.symm)

/-- The map holds `content` under `name` exactly if some entry does. -/
theorem lookup_toMap_iff {name content : Bytes} :
    d.toMap.lookup name = some content ↔ ∃ i, d i = some ⟨name, content⟩ := by
  rw [toMap, Finmap.dlookup_list_toFinmap, ← mem_mapEntries, ← Option.mem_def]
  exact List.mem_dlookup_iff (nodupKeys_mapEntries hd)

/-- The map has a name exactly if `find` finds it. -/
theorem mem_toMap_iff {name : Bytes} : name ∈ d.toMap ↔ d.find name ≠ none := by
  rw [Finmap.mem_iff]
  constructor
  · rintro ⟨content, hc⟩
    obtain ⟨i, hi⟩ := (lookup_toMap_iff hd).mp hc
    exact fun hnone => find_eq_none_iff.mp hnone i _ hi rfl
  · intro hne
    obtain ⟨i, hi⟩ := Option.ne_none_iff_exists'.mp hne
    obtain ⟨f, hf, rfl⟩ := find_eq_some hi
    exact ⟨f.content, (lookup_toMap_iff hd).mpr ⟨i, hf⟩⟩

theorem entries_toMap : d.toMap.entries = d.mapEntries :=
  entries_toFinmap (nodupKeys_mapEntries hd)

/-- Fewer than `ENTRY` files exist exactly if some entry is vacant. -/
theorem card_keys_lt_iff : d.toMap.keys.card < ENTRY ↔ d.vacant ≠ none := by
  have hcard : d.toMap.keys.card = d.files.length := by
    have hkeys : d.toMap.keys.card = Multiset.card d.toMap.entries.keys := rfl
    rw [hkeys, entries_toMap hd, Multiset.coe_keys, Multiset.coe_card, List.keys, List.length_map,
      mapEntries, List.length_map]
  have hlt : ((List.finRange ENTRY).filterMap d).length < (List.finRange ENTRY).length ↔ _ :=
    List.length_filterMap_lt_length_iff_exists
  rw [List.length_finRange] at hlt
  rw [hcard, files, hlt, Ne, vacant_eq_none_iff]
  simp

/-- The blocks of the map are the blocks of the directory. -/
theorem used_toMap : d.toMap.used = d.used := by
  have hsum : ∀ l : List (Fin ENTRY),
      ((l.filterMap d).map fun f => blocks f.content.length).sum =
        (l.map fun i => (d i).elim 0 fun f => blocks f.content.length).sum := by
    intro l
    induction l with
    | nil => rfl
    | cons i l ih => cases hi : d i <;> simp [hi, ih]
  rw [FileMap.used, entries_toMap hd, Multiset.map_coe, Multiset.sum_coe, used, mapEntries,
    List.map_map, Fin.sum_univ_def]
  exact hsum (List.finRange ENTRY)

theorem free_toMap : d.toMap.free = d.free := by
  rw [FileMap.free, used_toMap hd, free]

/-- `lookup` in the map and in the directory. -/
theorem lookup_toMap (name : Bytes) :
    d.toMap.lookup name = (d.lookup name).map fun p => p.2.content := by
  cases hlook : d.lookup name with
  | none =>
    rw [Option.map_none, Finmap.lookup_eq_none, mem_toMap_iff hd, not_not]
    exact lookup_eq_none hlook
  | some p =>
    obtain ⟨i, f⟩ := p
    obtain ⟨-, hi, rfl⟩ := lookup_eq_some hlook
    exact (lookup_toMap_iff hd).mpr ⟨i, hi⟩

end Distinct

/-! ## The operations keep the names distinct -/

/-- Replacing the file of one entry by one of the same name. -/
theorem NamesDistinct.update_same {d : Directory} (hd : d.NamesDistinct) {k : Fin ENTRY}
    {f g : File} (hk : d k = some f) (hname : g.name = f.name) :
    NamesDistinct (update d k (some g)) := by
  have hold : ∀ i x, update d k (some g) i = some x → ∃ y, d i = some y ∧ y.name = x.name := by
    intro i x hx
    by_cases hik : i = k
    · subst hik
      rw [update_self] at hx
      exact ⟨f, hk, by rw [← Option.some.inj hx, hname]⟩
    · rw [update_of_ne hik] at hx
      exact ⟨x, hx, rfl⟩
  intro i j x y hx hy hxy
  obtain ⟨x', hx', hxn⟩ := hold i x hx
  obtain ⟨y', hy', hyn⟩ := hold j y hy
  exact hd i j x' y' hx' hy' (by rw [hxn, hyn, hxy])

/-- Removing a file. -/
theorem NamesDistinct.update_none {d : Directory} (hd : d.NamesDistinct) (k : Fin ENTRY) :
    NamesDistinct (update d k none) := by
  have hold : ∀ i x, update d k none i = some x → d i = some x := by
    intro i x hx
    by_cases hik : i = k
    · subst hik
      simp at hx
    · rwa [update_of_ne hik] at hx
  exact fun i j x y hx hy => hd i j x y (hold i x hx) (hold j y hy)

/-- Adding a file with a new name. -/
theorem NamesDistinct.update_new {d : Directory} (hd : d.NamesDistinct) {k : Fin ENTRY}
    {g : File} (hnew : ∀ i f, d i = some f → f.name ≠ g.name) :
    NamesDistinct (update d k (some g)) := by
  intro i j x y hx hy hxy
  by_cases hik : i = k <;> by_cases hjk : j = k
  · rw [hik, hjk]
  · rw [hik, update_self] at hx
    rw [update_of_ne hjk] at hy
    exact absurd (by rw [← hxy, ← Option.some.inj hx]) (hnew j y hy)
  · rw [update_of_ne hik] at hx
    rw [hjk, update_self] at hy
    exact absurd (by rw [hxy, ← Option.some.inj hy]) (hnew i x hx)
  · rw [update_of_ne hik] at hx
    rw [update_of_ne hjk] at hy
    exact hd i j x y hx hy hxy

/-- Every call with a name that fits keeps the names distinct. -/
theorem NamesDistinct.step {d : Directory} (hd : d.NamesDistinct) {op : Op} (hop : op.NameFits) :
    (d.step op).1.NamesDistinct := by
  cases op with
  | create name =>
    have hlen : name.bytes.take FILE_NAME = name.bytes :=
      List.take_of_length_le (hop name rfl)
    simp only [Directory.step, create]
    split
    · exact hd
    · rename_i hfind
      split
      · exact hd
      · split
        · exact hd
        · refine hd.update_new ?_
          rw [hlen]
          exact find_eq_none_iff.mp hfind
  | write name content =>
    simp only [Directory.step, write]
    split
    · exact hd
    · rename_i i f hlook
      exact hd.update_same (lookup_eq_some hlook).2.1 rfl
  | read name => exact hd
  | delete name =>
    simp only [Directory.step, delete]
    split
    · exact hd
    · exact hd.update_none _
  | list => exact hd

/-! ## The operations on the map -/

/-- Replacing or adding a file in the directory inserts into the map. -/
theorem toMap_insert {d : Directory} {k : Fin ENTRY} {g : File} (hd : d.NamesDistinct)
    (hd' : NamesDistinct (update d k (some g)))
    (hk : ∀ f, d k = some f → f.name = g.name) :
    toMap (update d k (some g)) = d.toMap.insert g.name g.content := by
  refine Finmap.ext_lookup fun name => Option.ext fun content => ?_
  rw [lookup_toMap_iff hd']
  by_cases hname : name = g.name
  · subst hname
    rw [Finmap.lookup_insert, Option.some.injEq]
    constructor
    · rintro ⟨i, hi⟩
      have hik : i = k := hd' i k _ g hi (update_self _ _ _) rfl
      rw [hik, update_self] at hi
      rw [Option.some.inj hi]
    · rintro rfl
      exact ⟨k, update_self _ _ _⟩
  · rw [Finmap.lookup_insert_of_ne _ hname, lookup_toMap_iff hd]
    have hne : ∀ i, update d k (some g) i = some ⟨name, content⟩ ↔ d i = some ⟨name, content⟩ := by
      intro i
      by_cases hik : i = k
      · subst hik
        rw [update_self]
        constructor
        · intro h
          exact absurd (by rw [Option.some.inj h]) hname
        · intro h
          exact absurd (hk _ h) hname
      · rw [update_of_ne hik]
    exact exists_congr hne

/-- Removing a file from the directory erases its name from the map. -/
theorem toMap_erase {d : Directory} {k : Fin ENTRY} {f : File} (hd : d.NamesDistinct)
    (hk : d k = some f) : toMap (update d k none) = d.toMap.erase f.name := by
  refine Finmap.ext_lookup fun name => Option.ext fun content => ?_
  rw [lookup_toMap_iff (hd.update_none k)]
  by_cases hname : name = f.name
  · subst hname
    simp only [Finmap.lookup_erase, reduceCtorEq, iff_false, not_exists]
    intro i hi
    by_cases hik : i = k
    · simp [hik] at hi
    · rw [update_of_ne hik] at hi
      exact hik (hd i k _ f hi hk rfl)
  · rw [Finmap.lookup_erase_ne hname, lookup_toMap_iff hd]
    refine exists_congr fun i => ?_
    by_cases hik : i = k
    · subst hik
      rw [update_self, hk]
      simp only [reduceCtorEq, Option.some.injEq, false_iff]
      intro h
      exact hname (by rw [h])
    · rw [update_of_ne hik]

/-- The operations of the directory are those of the map. -/
theorem toMap_step {d : Directory} (hd : d.NamesDistinct) {op : Op} (hop : op.NameFits) :
    (d.step op).1.toMap = d.toMap.step op := by
  have hd' := hd.step hop
  cases op with
  | create name =>
    have hlen : name.bytes.take FILE_NAME = name.bytes :=
      List.take_of_length_le (hop name rfl)
    simp only [Directory.step, create, FileMap.step, mem_toMap_iff hd, card_keys_lt_iff hd,
      free_toMap hd] at hd' ⊢
    cases hfind : d.find name.bytes with
    | some i => simp
    | none =>
      cases hvac : d.vacant with
      | none => simp
      | some k =>
        simp only [hfind, hvac, hlen] at hd'
        by_cases hfree : d.free = 0
        · simp [hfree]
        · -- the name is not a key yet, since no entry in use has it
          simp only [hfree, if_false, hlen] at hd' ⊢
          rw [toMap_insert hd hd' (by simp [vacant_eq_some hvac]), if_pos (by simp; omega)]
  | write name content =>
    simp only [Directory.step, write, FileMap.step, lookup_toMap hd] at hd' ⊢
    cases hlook : d.lookup name.bytes with
    | none => simp
    | some p =>
      obtain ⟨k, f⟩ := p
      obtain ⟨-, hk, hname⟩ := lookup_eq_some hlook
      simp only [hlook, Option.map_some] at hd' ⊢
      rw [toMap_insert hd hd' fun g hg => by rw [hk] at hg; rw [← Option.some.inj hg]; rfl]
      simp only [append, FileMap.room, free_toMap hd, hname]
      rfl
  | read name => rfl
  | delete name =>
    simp only [Directory.step, delete, FileMap.step]
    cases hlook : d.lookup name.bytes with
    | none =>
      have habs : name.bytes ∉ d.toMap := by
        rw [mem_toMap_iff hd, not_not]
        exact lookup_eq_none hlook
      refine Finmap.ext_lookup fun n => ?_
      by_cases hn : n = name.bytes
      · subst hn
        rw [Finmap.lookup_erase, Finmap.lookup_eq_none]
        exact habs
      · rw [Finmap.lookup_erase_ne hn]
    | some p =>
      obtain ⟨k, f⟩ := p
      obtain ⟨-, hk, hname⟩ := lookup_eq_some hlook
      rw [← hname]
      exact toMap_erase hd hk
  | list => rfl

end Directory

end SchoolOS.Fat
