import SchoolOS.Fat.Defs
import Mathlib.Algebra.BigOperators.Fin
import Mathlib.Data.Fintype.BigOperators

/-!
# The directory view of the file system

A `Directory` forgets the FAT, the blocks and the stale memory: it says which entries are in use and
which name and content each of them holds. `Directory.step` gives the five operations on this view,
with the same output, so a run of the file system and a run of the directory can be compared call by
call. The number of free blocks is a function of the file sizes alone.
-/

namespace SchoolOS.Fat

open Function

/-- A file as the user sees it. -/
structure File where
  name : Bytes
  content : Bytes
deriving DecidableEq

/-- Which entries are in use, and what they hold. -/
abbrev Directory := Fin ENTRY → Option File

/-- The number of blocks a content of `n` bytes takes: one for an empty file. -/
def blocks (n : ℕ) : ℕ := max 1 ((n + (BYTES - 1)) / BYTES)

namespace Directory

/-- The number of blocks in use. -/
def used (d : Directory) : ℕ := ∑ i, (d i).elim 0 fun f => blocks f.content.length

/-- The number of free blocks. -/
def free (d : Directory) : ℕ := BLOCK_SIZE - d.used

/-- The first entry that holds `name`. -/
def find (d : Directory) (name : Bytes) : Option (Fin ENTRY) :=
  (List.finRange ENTRY).find? fun i => (d i).any fun f => f.name = name

/-- The first entry that is not in use. -/
def vacant (d : Directory) : Option (Fin ENTRY) :=
  (List.finRange ENTRY).find? fun i => (d i).isNone

/-- The number of bytes that can still be appended to a file of `n` bytes. -/
def room (d : Directory) (n : ℕ) : ℕ := BYTES * blocks n - n + BYTES * d.free

/-- The file after an append of as many bytes of `content` as fit. -/
def append (d : Directory) (f : File) (content : Bytes) : File :=
  { f with content := f.content ++ (content.take (d.room f.content.length)).map noNewline }

/-- `create_file` on directories. -/
def create (name : CString) (d : Directory) : Directory × Output :=
  match d.find name.bytes with
  | some _ => (d, printf (ascii "File " ++ name.bytes ++ ascii " already exist\n"))
  | none =>
    match d.vacant with
    | none => (d, perror "Full of file entries")
    | some i =>
      if d.free = 0 then (d, perror "no free block")
      else (update d i (some ⟨name.bytes.take FILE_NAME, []⟩),
        printf (ascii "File '" ++ name.bytes ++ ascii "' created.\n"))

/-- The entry that holds `name` together with its file. -/
def lookup (d : Directory) (name : Bytes) : Option (Fin ENTRY × File) :=
  (d.find name).bind fun i => (d i).map fun f => (i, f)

/-- `write_file` on directories. -/
def write (name content : CString) (d : Directory) : Directory × Output :=
  match d.lookup name.bytes with
  | none => (d, printf (ascii "File '" ++ name.bytes ++ ascii "' doesn't exist\n"))
  | some (i, f) =>
    (update d i (some (d.append f content.bytes)),
      if d.room f.content.length < content.bytes.length then perror "no free block, partial write"
      else printf (ascii "Data written to '" ++ name.bytes ++ ascii "'.\n"))

/-- `read_file` on directories. -/
def read (name : CString) (d : Directory) : Output :=
  let head := printf (ascii "Content of '" ++ name.bytes ++ ascii "': ")
  match d.lookup name.bytes with
  | none => head ++ printf (ascii "None") ++ printf (ascii "\n")
  | some (_, f) => head ++ printf f.content ++ printf (ascii "\n")

/-- `delete_file` on directories. -/
def delete (name : CString) (d : Directory) : Directory × Output :=
  match d.lookup name.bytes with
  | none => (d, printf (ascii "File '" ++ name.bytes ++ ascii "' doesn't exist.\n"))
  | some (i, _) =>
    (update d i none, printf (ascii "File '" ++ name.bytes ++ ascii "' deleted.\n"))

/-- The files in the order of their entries. -/
def files (d : Directory) : List File := (List.finRange ENTRY).filterMap d

/-- `list_files` on directories. -/
def list (d : Directory) : Output :=
  printf (ascii "Files in the file system:\n" ++
    d.files.flatMap fun f => listLine f.name f.content.length)

/-- One call on directories. -/
def step (op : Op) (d : Directory) : Directory × Output :=
  match op with
  | .create name => d.create name
  | .write name content => d.write name content
  | .read name => (d, d.read name)
  | .delete name => d.delete name
  | .list => (d, d.list)

/-- A sequence of calls, with the output of each. -/
def run : List Op → Directory → Directory × List Output
  | [], d => (d, [])
  | op :: ops, d =>
    ((run ops (d.step op).1).1, (d.step op).2 :: (run ops (d.step op).1).2)

/-- The directory without files. -/
def empty : Directory := fun _ => none

/-! ## Lookups -/

/-- `lookup` returns the first entry in use with the given name. -/
theorem lookup_eq_some {d : Directory} {name : Bytes} {i : Fin ENTRY} {f : File}
    (h : d.lookup name = some (i, f)) : d.find name = some i ∧ d i = some f ∧ f.name = name := by
  obtain ⟨j, hj, hf⟩ := Option.bind_eq_some_iff.mp h
  obtain ⟨g, hg, hij⟩ := Option.map_eq_some_iff.mp hf
  obtain ⟨rfl, rfl⟩ := Prod.mk.inj hij
  refine ⟨hj, hg, ?_⟩
  have hp := List.find?_some hj
  simpa [hg] using hp

/-- `lookup` fails only if no file has the name. -/
theorem lookup_eq_none {d : Directory} {name : Bytes} (h : d.lookup name = none) :
    d.find name = none := by
  by_contra hne
  obtain ⟨i, hi⟩ := Option.ne_none_iff_exists'.mp hne
  have hp := List.find?_some hi
  obtain ⟨f, hf⟩ : ∃ f, d i = some f := by
    cases hd : d i with
    | none => simp [hd] at hp
    | some f => exact ⟨f, rfl⟩
  simp [lookup, hi, hf] at h

/-- No file has a name that `find` does not find. -/
theorem find_eq_none_iff {d : Directory} {name : Bytes} :
    d.find name = none ↔ ∀ i f, d i = some f → f.name ≠ name := by
  simp only [find, List.find?_eq_none, List.mem_finRange, Option.any_eq_true, not_exists, not_and,
    forall_const, decide_eq_true_eq]

theorem find_eq_some {d : Directory} {name : Bytes} {i : Fin ENTRY}
    (h : d.find name = some i) : ∃ f, d i = some f ∧ f.name = name := by
  have hp := List.find?_some h
  cases hd : d i with
  | none => simp [hd] at hp
  | some f => exact ⟨f, rfl, by simpa [hd] using hp⟩

theorem vacant_eq_some {d : Directory} {i : Fin ENTRY} (h : d.vacant = some i) :
    d i = none := by
  simpa using List.find?_some h

theorem vacant_eq_none_iff {d : Directory} : d.vacant = none ↔ ∀ i, d i ≠ none := by
  simp [vacant, List.find?_eq_none]

end Directory

end SchoolOS.Fat
