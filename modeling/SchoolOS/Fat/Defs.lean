import SchoolOS.Lib.Loop
import SchoolOS.Lib.Stdio
import Mathlib.Data.List.FinRange
import Mathlib.Logic.Function.Basic

/-!
# The in-memory FAT file system

Reference: `Assignment5-2/fat.c`, the globals and `create_file`, `write_file`, `read_file`,
`delete_file`, `list_files`.

The three global arrays are total functions on their index range. An operation returns `none` where
the C code has no defined behaviour: it indexes an array out of bounds, or one of its `while` loops
does not end. A walk through the FAT is cut off after `BLOCK_SIZE` tests of its loop condition; a
longer one would have come back to a block and would never end.
-/

namespace SchoolOS.Fat

open Function Loop

/-- `#define FILE_NAME 100` -/
def FILE_NAME : ℕ := 100
/-- `#define ENTRY 100` -/
def ENTRY : ℕ := 100
/-- `#define BLOCK_SIZE 1024` -/
def BLOCK_SIZE : ℕ := 1024
/-- `#define BYTES 32` -/
def BYTES : ℕ := 32

/-- `struct file_entry`. -/
structure FileEntry where
  fileName : CharArray (FILE_NAME + 1)
  start : ℤ
  fileSize : ℤ
  use : ℤ
deriving DecidableEq

/-- The globals `File_entries`, `FAT` and `Disk`. A free FAT cell holds `-2`, the last block of a
file `-1`, and every other block of a file the number of the next one. -/
structure FileSystem where
  entries : Fin ENTRY → FileEntry
  fat : Fin BLOCK_SIZE → ℤ
  disk : Fin BLOCK_SIZE → CharArray (BYTES + 1)

/-- What a run prints: the bytes sent to `stdout` and the messages given to `perror`. The text that
`perror` adds for `errno` is left out. -/
structure Output where
  stdout : Bytes
  stderr : List Bytes
deriving DecidableEq

/-- `printf` of a text. -/
def printf (s : Bytes) : Output := ⟨s, []⟩

/-- `perror` with a message. -/
def perror (msg : String) : Output := ⟨[], [ascii msg]⟩

/-- Output in sequence. -/
instance : Append Output := ⟨fun o o' => ⟨o.stdout ++ o'.stdout, o.stderr ++ o'.stderr⟩⟩

/-! ## Lookups shared by the operations -/

/-- A block number used as an array index. -/
def index? (block : ℤ) : Option (Fin BLOCK_SIZE) :=
  if h : 0 ≤ block ∧ block < BLOCK_SIZE then some ⟨block.toNat, by omega⟩ else none

namespace FileSystem

/-- The first entry that is in use and holds `name`. -/
def lookup (fs : FileSystem) (name : Bytes) : Option (Fin ENTRY) :=
  (List.finRange ENTRY).find? fun i =>
    (fs.entries i).use ≠ 0 ∧ (fs.entries i).fileName.str = name

/-- The first entry that is not in use. -/
def freeEntry (fs : FileSystem) : Option (Fin ENTRY) :=
  (List.finRange ENTRY).find? fun i => (fs.entries i).use = 0

/-- The first block whose FAT cell is `-2`. -/
def freeBlock (fs : FileSystem) : Option (Fin BLOCK_SIZE) :=
  (List.finRange BLOCK_SIZE).find? fun b => fs.fat b = -2

end FileSystem

/-! ## `create_file` -/

/-- `create_file`. A name that is longer than `fileName` is cut off. In C, `strcpy` writes its other
bytes behind the array: three of them into the padding of the entry, and the later ones over
`start`, the entries after it and the FAT. For names of 104 bytes or more these are not the ones of
the source. -/
def createFile (name : CString) (fs : FileSystem) : FileSystem × Output :=
  match fs.lookup name.bytes with
  | some _ => (fs, printf (ascii "File " ++ name.bytes ++ ascii " already exist\n"))
  | none =>
    match fs.freeEntry with
    | none => (fs, perror "Full of file entries")
    | some free =>
      match fs.freeBlock with
      | none => (fs, perror "no free block")
      | some fBlock =>
        let entry : FileEntry :=
          { fileName := ((fs.entries free).fileName.strcpy name.bytes).set FILE_NAME 0
            start := fBlock
            fileSize := 0
            use := 1 }
        ({ entries := update fs.entries free entry
           fat := update fs.fat fBlock (-1)
           disk := update fs.disk fBlock ((fs.disk fBlock).strcpy []) },
          printf (ascii "File '" ++ name.bytes ++ ascii "' created.\n"))

/-! ## `write_file` -/

/-- The byte stored for a byte of `content`: a newline becomes a space. -/
def noNewline (c : UInt8) : UInt8 := if c = 10 then 32 else c

/-- The locals of the byte loop of `write_file`: the block, `bIndex`, `content` and the size of the
file. -/
structure Fill where
  block : CharArray (BYTES + 1)
  bIndex : ℕ
  content : Bytes
  fileSize : ℤ

/-- `for (…; bIndex < BYTES && *content != '\0'; bIndex++) …` -/
def fill (block : CharArray (BYTES + 1)) (bIndex : ℕ) (content : Bytes) (fileSize : ℤ) : Fill :=
  match content with
  | [] => ⟨block, bIndex, [], fileSize⟩
  | c :: rest =>
    if bIndex < BYTES then fill (block.set bIndex (noNewline c)) (bIndex + 1) rest (fileSize + 1)
    else ⟨block, bIndex, c :: rest, fileSize⟩

/-- The state of the outer loop of `write_file`. `full` marks the early return on a full disk. -/
structure Write where
  fs : FileSystem
  block : Fin BLOCK_SIZE
  content : Bytes
  full : Bool

/-- The outer loop goes on: `*content != '\0'`, and no early return. -/
def Write.active (w : Write) : Bool := w.content ≠ [] && !w.full

/-- The state after the byte loop and the terminator `Disk[block][bIndex] = '\0'`. -/
def FileSystem.afterFill (fs : FileSystem) (file : Fin ENTRY) (block : Fin BLOCK_SIZE) (f : Fill) :
    FileSystem :=
  { fs with
    entries := update fs.entries file { fs.entries file with fileSize := f.fileSize }
    disk := update fs.disk block (f.block.set f.bIndex 0) }

/-- The state after `nBlock` has been linked behind `block`. -/
def FileSystem.link (fs : FileSystem) (block nBlock : Fin BLOCK_SIZE) : FileSystem :=
  { fs with
    fat := update (update fs.fat block nBlock) nBlock (-1)
    disk := update fs.disk nBlock ((fs.disk nBlock).strcpy []) }

/-- One iteration of the outer loop: fill the block, then take a new one if bytes are left. -/
def writeStep (file : Fin ENTRY) (w : Write) : Write :=
  let f := fill (w.fs.disk w.block) (w.fs.disk w.block).strlen w.content
    (w.fs.entries file).fileSize
  let fs := w.fs.afterFill file w.block f
  if f.content = [] then { w with fs := fs, content := [] }
  else
    match fs.freeBlock with
    | some nBlock => { w with fs := fs.link w.block nBlock, block := nBlock, content := f.content }
    | none => { w with fs := fs, content := f.content, full := true }

/-- `while (FAT[block] >= 0) block = FAT[block];` -/
def lastBlock (fs : FileSystem) (block : Fin BLOCK_SIZE) : Option (Fin BLOCK_SIZE) :=
  whileLoop (fun b => 0 ≤ fs.fat b) (fun b => index? (fs.fat b)) BLOCK_SIZE block

/-- `while (*content != '\0') …`. Every iteration but the last takes a free block. -/
def writeLoop (file : Fin ENTRY) (w : Write) : Option Write :=
  whileLoop Write.active (fun w => some (writeStep file w)) (BLOCK_SIZE + 2) w

/-- `write_file`. -/
def writeFile (name content : CString) (fs : FileSystem) : Option (FileSystem × Output) :=
  match fs.lookup name.bytes with
  | none => some (fs, printf (ascii "File '" ++ name.bytes ++ ascii "' doesn't exist\n"))
  | some file => do
    let start ← index? (fs.entries file).start
    let block ← lastBlock fs start
    let w ← writeLoop file { fs := fs, block := block, content := content.bytes, full := false }
    if w.full then some (w.fs, perror "no free block, partial write")
    else some (w.fs, printf (ascii "Data written to '" ++ name.bytes ++ ascii "'.\n"))

/-! ## `read_file` -/

/-- One iteration of the walk of `read_file`: print the block and go to the next one. -/
def readStep (fs : FileSystem) (r : Fin BLOCK_SIZE × Bytes) : Option (Fin BLOCK_SIZE × Bytes) :=
  (index? (fs.fat r.1)).map fun next => (next, r.2 ++ (fs.disk r.1).str)

/-- The blocks printed from `block` on, the last one included. -/
def readLoop (fs : FileSystem) (block : Fin BLOCK_SIZE) : Option Bytes :=
  (whileLoop (fun r => 0 ≤ fs.fat r.1) (readStep fs) BLOCK_SIZE (block, [])).map fun r =>
    r.2 ++ (fs.disk r.1).str

/-- `read_file`. -/
def readFile (name : CString) (fs : FileSystem) : Option Output :=
  let head := printf (ascii "Content of '" ++ name.bytes ++ ascii "': ")
  match fs.lookup name.bytes with
  | none => some (head ++ printf (ascii "None") ++ printf (ascii "\n"))
  | some file => do
    let start ← index? (fs.entries file).start
    let text ← readLoop fs start
    some (head ++ printf text ++ printf (ascii "\n"))

/-! ## `delete_file` -/

/-- One iteration of the walk of `delete_file`: free the block and go to the next one. -/
def deleteStep (d : (Fin BLOCK_SIZE → ℤ) × Fin BLOCK_SIZE) :
    Option ((Fin BLOCK_SIZE → ℤ) × Fin BLOCK_SIZE) :=
  (index? (d.1 d.2)).map fun nextB => (update d.1 d.2 (-2), nextB)

/-- The FAT after the walk of `delete_file` from `block` on, with the last block freed too. -/
def deleteLoop (fat : Fin BLOCK_SIZE → ℤ) (block : Fin BLOCK_SIZE) :
    Option (Fin BLOCK_SIZE → ℤ) :=
  (whileLoop (fun d => 0 ≤ d.1 d.2) deleteStep (BLOCK_SIZE + 1) (fat, block)).map fun d =>
    update d.1 d.2 (-2)

/-- `delete_file`. -/
def deleteFile (name : CString) (fs : FileSystem) : Option (FileSystem × Output) :=
  match fs.lookup name.bytes with
  | none => some (fs, printf (ascii "File '" ++ name.bytes ++ ascii "' doesn't exist.\n"))
  | some file => do
    let start ← index? (fs.entries file).start
    let fat ← deleteLoop fs.fat start
    some ({ fs with
        entries := update fs.entries file { fs.entries file with use := 0 }
        fat := fat },
      printf (ascii "File '" ++ name.bytes ++ ascii "' deleted.\n"))

/-! ## `list_files` -/

/-- The line printed for one entry. -/
def listLine (name : Bytes) (size : ℤ) : Bytes :=
  ascii "File: " ++ name ++ ascii ", Size: " ++ decimal size ++ ascii " bytes\n"

/-- `list_files`. -/
def listFiles (fs : FileSystem) : Output :=
  printf (ascii "Files in the file system:\n" ++ (List.finRange ENTRY).flatMap fun i =>
    if (fs.entries i).use ≠ 0 then listLine (fs.entries i).fileName.str (fs.entries i).fileSize
    else [])

/-! ## Runs -/

/-- A call of one of the five operations. -/
inductive Op where
  | create (name : CString)
  | write (name content : CString)
  | read (name : CString)
  | delete (name : CString)
  | list
deriving DecidableEq

/-- The name a call is given, if it takes one. -/
def Op.name? : Op → Option CString
  | .create name | .write name _ | .read name | .delete name => some name
  | .list => none

/-- The effect of one call. -/
def step (op : Op) (fs : FileSystem) : Option (FileSystem × Output) :=
  match op with
  | .create name => some (createFile name fs)
  | .write name content => writeFile name content fs
  | .read name => (readFile name fs).map fun out => (fs, out)
  | .delete name => deleteFile name fs
  | .list => some (fs, listFiles fs)

/-- A sequence of calls in one process, with the output of each call. -/
def run : List Op → FileSystem → Option (FileSystem × List Output)
  | [], fs => some (fs, [])
  | op :: ops, fs => do
    let (fs', out) ← step op fs
    let (fs'', outs) ← run ops fs'
    some (fs'', out :: outs)

/-- The zero-initialised globals of a new process. -/
def zeroed : FileSystem where
  entries _ := ⟨CharArray.zero _, 0, 0, 0⟩
  fat _ := 0
  disk _ := CharArray.zero _

/-- The initialisation in `load_file_system` when no saved state is found: every `use` is `0` and
every FAT cell is `-2`. -/
def startFresh (fs : FileSystem) : FileSystem where
  entries i := { fs.entries i with use := 0 }
  fat _ := -2
  disk := fs.disk

/-- The state of a new process without saved files. -/
def fresh : FileSystem := startFresh zeroed

end SchoolOS.Fat
