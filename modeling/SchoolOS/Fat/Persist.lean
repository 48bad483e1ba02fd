import SchoolOS.Fat.Defs

/-!
# Saving and loading the file system, and `main`

Reference: `Assignment5-2/fat.c`, `save_file_system`, `load_file_system` and `main`.

A process keeps its state between runs in the three files `File_entry`, `FAT` and `Disk` of the
working directory. Which calls of `fopen` succeed is a parameter: a file that does not exist cannot
be opened for reading, and a file opened for writing is truncated.
-/

namespace SchoolOS.Fat

open Function Loop

/-- The three files of the saved state. -/
inductive SavedFile where
  | fileEntry
  | fat
  | disk
deriving DecidableEq

/-- The contents of the saved files; `none` where a file does not exist. -/
abbrev Store := SavedFile → Option Bytes

/-- Which files `fopen` can open, for reading and for writing. -/
structure Fopen where
  read : SavedFile → Bool
  write : SavedFile → Bool

/-- Every `fopen` of an existing file succeeds. -/
def Fopen.all : Fopen := ⟨fun _ => true, fun _ => true⟩

/-! ## `save_file_system` -/

/-- `fprintf(FE, "%s %d %d %d\n", …)` -/
def entryLine (e : FileEntry) : Bytes :=
  e.fileName.str ++ (ascii " " ++ (decimal e.fileSize ++ (ascii " " ++ (decimal e.start ++
    (ascii " " ++ (decimal e.use ++ ascii "\n"))))))

/-- `fprintf(FA, "%d\n", …)` -/
def fatLine (cell : ℤ) : Bytes := decimal cell ++ ascii "\n"

/-- `fprintf(FD, "%s\n", …)` -/
def diskLine (block : CharArray (BYTES + 1)) : Bytes := block.str ++ ascii "\n"

/-- The text of `File_entry`. -/
def entryText (fs : FileSystem) : Bytes :=
  (List.finRange ENTRY).flatMap fun i => entryLine (fs.entries i)

/-- The text of `FAT`. -/
def fatText (fs : FileSystem) : Bytes :=
  (List.finRange BLOCK_SIZE).flatMap fun b => fatLine (fs.fat b)

/-- The text of `Disk`. -/
def diskText (fs : FileSystem) : Bytes :=
  (List.finRange BLOCK_SIZE).flatMap fun b => diskLine (fs.disk b)

/-- `save_file_system`: the files afterwards and the return value. -/
def saveFileSystem (fopen : SavedFile → Bool) (fs : FileSystem) (store : Store) : Store × ℤ :=
  if !fopen .fileEntry then (store, -1)
  else
    let store := update store .fileEntry (some [])
    if !fopen .fat then (store, -1)
    else
      let store := update store .fat (some [])
      if !fopen .disk then (store, -1)
      else
        let store := update store .fileEntry (some (entryText fs))
        let store := update store .fat (some (fatText fs))
        (update store .disk (some (diskText fs)), 0)

/-! ## `load_file_system` -/

/-- `fscanf(FE, "%s %d %d %d", …)` into one entry. A conversion that fails ends the call and leaves
its target and the later ones as they were. -/
def scanEntry (e : FileEntry) (s : Bytes) : FileEntry × Bytes :=
  match scanString s with
  | (none, s) => (e, s)
  | (some name, s) =>
    let e := { e with fileName := e.fileName.strcpy name }
    match scanInt s with
    | (none, s) => (e, s)
    | (some size, s) =>
      let e := { e with fileSize := size }
      match scanInt s with
      | (none, s) => (e, s)
      | (some start, s) =>
        let e := { e with start := start }
        match scanInt s with
        | (none, s) => (e, s)
        | (some use, s) => ({ e with use := use }, s)

/-- `fscanf(FA, "%d", …)` into one cell. -/
def scanCell (cell : ℤ) (s : Bytes) : ℤ × Bytes :=
  match scanInt s with
  | (none, s) => (cell, s)
  | (some v, s) => (v, s)

/-- `fgets(buf, BYTES+2, FD)`, `buf[strlen(buf)-1] = '\0'`, `strcpy(Disk[i], buf)`. At the end of
the file the loop of the source stops; here every later block stays as it is. -/
def scanBlock (block : CharArray (BYTES + 1)) (s : Bytes) : CharArray (BYTES + 1) × Bytes :=
  match fgets (BYTES + 2) s with
  | none => (block, s)
  | some (buf, s) => (block.strcpy (buf.takeWhile (· ≠ 0)).dropLast, s)

/-- A reading loop `for (int i = 0; i < n; i++) …` over an array and a stream. -/
def scanAll {n : ℕ} {α : Type} (scan : α → Bytes → α × Bytes) (a : Fin n → α) (s : Bytes) :
    Fin n → α :=
  (forLoop (fun i (p : (Fin n → α) × Bytes) =>
    (update p.1 i (scan (p.1 i) p.2).1, (scan (p.1 i) p.2).2)) (a, s)).1

/-- `fopen(…, "r")`: the content of the file. -/
def openRead (fopen : SavedFile → Bool) (store : Store) (file : SavedFile) : Option Bytes :=
  if fopen file then store file else none

/-- The message of `load_file_system` when it finds no saved state. -/
def freshWarning : Output := printf (ascii "Warning: No saved state found. Starting fresh.\n")

/-- `load_file_system`: the globals afterwards, the return value and the output. -/
def loadFileSystem (fopen : SavedFile → Bool) (store : Store) (fs : FileSystem) :
    FileSystem × ℤ × Output :=
  match openRead fopen store .fileEntry with
  | none => (startFresh fs, 0, freshWarning)
  | some fe =>
    match openRead fopen store .fat with
    | none => (fs, -1, printf [])
    | some fa =>
      match openRead fopen store .disk with
      | none => (fs, -1, printf [])
      | some fd =>
        ({ entries := scanAll scanEntry fs.entries fe
           fat := scanAll scanCell fs.fat fa
           disk := scanAll scanBlock fs.disk fd }, 0, printf [])

/-! ## `main` -/

/-- The operation that `main` selects from its arguments. -/
def selectOp (argv : List CString) : Option Op :=
  match argv with
  | [_, api, name] =>
    if api.bytes = ascii "create" then some (.create name)
    else if api.bytes = ascii "read" then some (.read name)
    else if api.bytes = ascii "delete" then some (.delete name)
    else none
  | [_, api] => if api.bytes = ascii "list" then some .list else none
  | [_, api, name, content] =>
    if api.bytes = ascii "write" then some (.write name content) else none
  | _ => none

/-- `main`: the saved files and the output of one process. -/
def main (fopen : Fopen) (argv : List CString) (store : Store) : Option (Store × Output) :=
  if argv.length < 2 ∨ 4 < argv.length then
    some (store, perror "Argument format: [API] [file name] [contents to write]")
  else
    let (fs, ret, warning) := loadFileSystem fopen.read store zeroed
    if ret < 0 then some (store, warning ++ perror "files are not loaded")
    else do
      let (fs, out) ← match selectOp argv with
        | some op => step op fs
        | none => some (fs, perror "wrong command or wrong argument")
      let (store, ret) := saveFileSystem fopen.write fs store
      some (store, warning ++ out ++ if ret < 0 then perror "disk is damaged" else printf [])

/-- One process per command, with the output of each. -/
def runProcesses (fopen : Fopen) : List (List CString) → Store → Option (Store × List Output)
  | [], store => some (store, [])
  | argv :: argvs, store => do
    let (store, out) ← main fopen argv store
    let (store, outs) ← runProcesses fopen argvs store
    some (store, out :: outs)

/-- The words of `main`'s command line. -/
def word (s : String) (h : (0 : UInt8) ∉ ascii s := by decide) : CString := ⟨ascii s, h⟩

/-- The arguments with which `main` runs an operation. -/
def Op.argv : Op → List CString
  | .create name => [word "fat", word "create", name]
  | .write name content => [word "fat", word "write", name, content]
  | .read name => [word "fat", word "read", name]
  | .delete name => [word "fat", word "delete", name]
  | .list => [word "fat", word "list"]

/-- The saved files before the first process. -/
def noFiles : Store := fun _ => none

/-- The state a new process loads after `fs` has been saved. -/
def reload (fs : FileSystem) : FileSystem :=
  (loadFileSystem Fopen.all.read (saveFileSystem Fopen.all.write fs noFiles).1 zeroed).1

end SchoolOS.Fat
