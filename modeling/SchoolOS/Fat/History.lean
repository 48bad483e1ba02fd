import SchoolOS.Fat.Commands

/-!
# What a file contains

A file contains what was written to it since it was created, as long as the disk has room for
everything (`read_after_processes`). Every file takes at most one block more than its content fills,
so the disk has room whenever the contents of all writes, with one block for every creation, are not
larger than the disk.
-/

namespace SchoolOS.Fat

open Function

/-! ## The contents of a history -/

/-- The content of `name` after one more operation. -/
def Op.writes (name : Bytes) (content : Option Bytes) : Op → Option Bytes
  | .create n => if n.bytes = name then some (content.getD []) else content
  | .write n c => if n.bytes = name then content.map fun f =>
    f ++ c.bytes.map noNewline else content
  | .delete n => if n.bytes = name then none else content
  | .read _ => content
  | .list => content

/-- Everything that has been written to `name` since it was created last. -/
def written (name : Bytes) (ops : List Op) : Option Bytes := ops.foldl (Op.writes name) none

/-- The room that an operation takes at most. -/
def Op.cost : Op → ℕ
  | .create _ => BYTES
  | .write _ c => c.bytes.length
  | _ => 0

def Op.isCreate : Op → Bool
  | .create _ => true
  | _ => false

/-- The disk has room for everything that the operations write, and the directory for every file
that they create. -/
structure FitsDisk (ops : List Op) : Prop where
  cost : (ops.map Op.cost).sum ≤ BYTES * BLOCK_SIZE
  creates : ops.countP Op.isCreate ≤ ENTRY

/-! ## Room -/

namespace Directory

/-- A sum over the files of a directory. -/
def sumFiles (w : File → ℕ) (d : Directory) : ℕ := ∑ i, (d i).elim 0 w

/-- The content of every file and one more block. -/
def weight (d : Directory) : ℕ := d.sumFiles fun f => f.content.length + BYTES

def count (d : Directory) : ℕ := d.sumFiles fun _ => 1

theorem sumFiles_update (w : File → ℕ) (d : Directory) (i : Fin ENTRY) (o : Option File) :
    sumFiles w (update d i o) + (d i).elim 0 w = sumFiles w d + o.elim 0 w := by
  have hrest : ∑ j ∈ Finset.univ.erase i, (update d i o j).elim 0 w =
      ∑ j ∈ Finset.univ.erase i, (d j).elim 0 w := by
    refine Finset.sum_congr rfl fun j hj => ?_
    rw [update_of_ne (Finset.ne_of_mem_erase hj)]
  unfold sumFiles
  rw [← Finset.add_sum_erase Finset.univ (fun j => (update d i o j).elim 0 w) (Finset.mem_univ i),
    ← Finset.add_sum_erase Finset.univ (fun j => (d j).elim 0 w) (Finset.mem_univ i), hrest,
      update_self]
  omega

theorem blocks_le (n : ℕ) : BYTES * blocks n ≤ n + BYTES := by
  unfold blocks BYTES
  omega

/-- The files take no more blocks than their weight. -/
theorem used_le_weight (d : Directory) : BYTES * d.used ≤ d.weight := by
  unfold used weight sumFiles
  rw [Finset.mul_sum]
  refine Finset.sum_le_sum fun i _ => ?_
  cases d i with
  | none => exact Nat.le_refl _
  | some f => exact blocks_le f.content.length

/-- The same without the file of one entry. -/
theorem used_le_weight_of {d : Directory} {i : Fin ENTRY} {f : File} (hi : d i = some f) :
    BYTES * d.used + f.content.length + BYTES ≤ d.weight + BYTES * blocks f.content.length := by
  have hused := sumFiles_update (fun f => blocks f.content.length) d i none
  have hweight := sumFiles_update (fun f => f.content.length + BYTES) d i none
  have hle := used_le_weight (update d i none)
  simp only [hi, Option.elim_some, Option.elim_none, Nat.add_zero] at hused hweight
  have hdef : ∀ d : Directory, d.used = d.sumFiles fun f => blocks f.content.length := fun _ => rfl
  rw [hdef] at hle
  unfold weight at hle ⊢
  rw [hdef, ← hused, Nat.mul_add]
  omega

/-- The whole content fits. -/
theorem le_room {d : Directory} {i : Fin ENTRY} {f : File} (hi : d i = some f) {n : ℕ}
    (hn : d.weight + n ≤ BYTES * BLOCK_SIZE) : n ≤ d.room f.content.length := by
  have hused := used_le_weight_of hi
  have hle := used_le_weight d
  unfold room free
  unfold BYTES BLOCK_SIZE at *
  omega

theorem vacant_ne_none {d : Directory} (h : d.count < ENTRY) : d.vacant ≠ none := by
  intro hnone
  have hall := vacant_eq_none_iff.mp hnone
  have hone : ∀ i, (d i).elim 0 (fun _ => 1) = 1 := by
    intro i
    obtain ⟨f, hf⟩ := Option.ne_none_iff_exists'.mp (hall i)
    rw [hf, Option.elim_some]
  have hcount : d.count = ENTRY := by
    unfold count sumFiles
    simp only [hone, Finset.sum_const, Finset.card_univ, Fintype.card_fin, smul_eq_mul, Nat.mul_one]
  exact Nat.lt_irrefl _ (hcount ▸ h)

/-- The entry of a new file. -/
theorem sumFiles_new (w : File → ℕ) {d : Directory} {i : Fin ENTRY} (hi : d.vacant = some i)
    (f : File) :
    sumFiles w (update d i (some f)) = d.sumFiles w + w f := by
  have hupdate := sumFiles_update w d i (some f)
  rwa [vacant_eq_some hi, Option.elim_none, Nat.add_zero, Option.elim_some] at hupdate

theorem sumFiles_delete_le (w : File → ℕ) (d : Directory) (i : Fin ENTRY) :
    sumFiles w (update d i none) ≤ d.sumFiles w := by
  have hupdate := sumFiles_update w d i none
  rw [Option.elim_none, Nat.add_zero] at hupdate
  omega

theorem weight_step_le (d : Directory) (op : Op) : weight (d.step op).1 ≤ d.weight + op.cost := by
  cases op with
  | create name =>
    simp only [step, create]
    split
    · exact Nat.le_add_right _ _
    · split
      · exact Nat.le_add_right _ _
      · rename_i i hi
        split
        · exact Nat.le_add_right _ _
        · unfold weight
          rw [sumFiles_new _ hi]
          simp [Op.cost]
  | write name content =>
    simp only [step, write]
    split
    · exact Nat.le_add_right _ _
    · rename_i i f hlook
      have hupdate := sumFiles_update (fun f => f.content.length + BYTES) d i
        (some (d.append f content.bytes))
      have htake := List.length_take_le' (d.room f.content.length) content.bytes
      simp only [(lookup_eq_some hlook).2.1, Option.elim_some, append, List.length_append,
        List.length_map] at hupdate
      simp only [weight, Op.cost, append]
      omega
  | read name => exact Nat.le_add_right d.weight _
  | delete name =>
    simp only [step, delete]
    split
    · exact Nat.le_add_right _ _
    · exact Nat.le_add_right_of_le (sumFiles_delete_le _ _ _)
  | list => exact Nat.le_add_right d.weight _

theorem count_step_le (d : Directory) (op : Op) :
    count (d.step op).1 ≤ d.count + if op.isCreate then 1 else 0 := by
  cases op with
  | create name =>
    simp only [step, create]
    split
    · exact Nat.le_add_right _ _
    · split
      · exact Nat.le_add_right _ _
      · rename_i i hi
        split
        · exact Nat.le_add_right _ _
        · exact (sumFiles_new _ hi _).le
  | write name content =>
    simp only [step, write]
    split
    · exact Nat.le_add_right _ _
    · rename_i i f hlook
      have hupdate := sumFiles_update (fun _ => 1) d i (some (d.append f content.bytes))
      simp only [(lookup_eq_some hlook).2.1, Option.elim_some] at hupdate
      exact Nat.le_add_right_of_le (Nat.add_right_cancel hupdate).le
  | read name => exact Nat.le_add_right d.count _
  | delete name =>
    simp only [step, delete]
    split
    · exact Nat.le_add_right _ _
    · exact Nat.le_add_right_of_le (sumFiles_delete_le _ _ _)
  | list => exact Nat.le_add_right d.count _

end Directory

/-! ## Runs -/

/-- One operation on the map, when nothing is short. -/
theorem FileMap.lookup_step {m : FileMap} {op : Op}
    (hcreate : op.isCreate = true → m.keys.card < ENTRY ∧ 0 < m.free)
    (hwrite : ∀ n c f, op = .write n c → m.lookup n.bytes = some f → c.bytes.length ≤ m.room f)
    (name : Bytes) : (m.step op).lookup name = op.writes name (m.lookup name) := by
  cases op with
  | create n =>
    simp only [FileMap.step, Op.writes, hcreate rfl, and_true]
    by_cases hmem : n.bytes ∈ m
    · rw [if_neg (not_not_intro hmem)]
      by_cases hn : n.bytes = name
      · subst hn
        obtain ⟨f, hf⟩ := Finmap.mem_iff.mp hmem
        rw [if_pos rfl, hf, Option.getD_some]
      · rw [if_neg hn]
    · rw [if_pos hmem]
      by_cases hn : n.bytes = name
      · subst hn
        rw [if_pos rfl, Finmap.lookup_insert, Finmap.lookup_eq_none.mpr hmem, Option.getD_none]
      · rw [if_neg hn, Finmap.lookup_insert_of_ne m (Ne.symm hn)]
  | write n c =>
    simp only [FileMap.step, Op.writes]
    cases hlook : m.lookup n.bytes with
    | none =>
      by_cases hn : n.bytes = name
      · subst hn
        rw [if_pos rfl, hlook, Option.map_none]
      · rw [if_neg hn]
    | some f =>
      have htake : c.bytes.take (m.room f) = c.bytes :=
        List.take_of_length_le (hwrite n c f rfl hlook)
      simp only [htake]
      by_cases hn : n.bytes = name
      · subst hn
        rw [if_pos rfl, Finmap.lookup_insert, hlook, Option.map_some]
      · rw [if_neg hn, Finmap.lookup_insert_of_ne m (Ne.symm hn)]
  | read n => rfl
  | delete n =>
    simp only [FileMap.step, Op.writes]
    by_cases hn : n.bytes = name
    · subst hn
      rw [if_pos rfl, Finmap.lookup_erase]
    · rw [if_neg hn, Finmap.lookup_erase_ne (Ne.symm hn)]
  | list => rfl

/-- One operation on the directory, when nothing is short. -/
theorem Directory.lookup_step {d : Directory} (hd : d.NamesDistinct) {op : Op} (hop : op.NameFits)
    (hweight : d.weight + op.cost ≤ BYTES * BLOCK_SIZE)
    (hcount : d.count + (if op.isCreate then 1 else 0) ≤ ENTRY) (name : Bytes) :
    (d.step op).1.toMap.lookup name = op.writes name (d.toMap.lookup name) := by
  rw [Directory.toMap_step hd hop]
  refine FileMap.lookup_step (fun hcreate => ⟨?_, ?_⟩) (fun n c f hwrite hlook => ?_) name
  · rw [Directory.card_keys_lt_iff hd]
    rw [if_pos hcreate] at hcount
    exact Directory.vacant_ne_none hcount
  · have hused := d.used_le_weight
    have hcost : op.cost = BYTES := by
      cases op <;> first | rfl | exact absurd hcreate (by simp [Op.isCreate])
    rw [Directory.free_toMap hd, Directory.free]
    unfold BYTES BLOCK_SIZE at *
    omega
  · subst hwrite
    obtain ⟨i, hi⟩ := (Directory.lookup_toMap_iff hd).mp hlook
    have hroom := Directory.le_room hi hweight
    rwa [FileMap.room, Directory.free_toMap hd]

/-- A sequence of operations. -/
theorem Directory.lookup_run {d : Directory} (hd : d.NamesDistinct) {ops : List Op}
    (hops : ∀ op ∈ ops, op.NameFits)
    (hweight : d.weight + (ops.map Op.cost).sum ≤ BYTES * BLOCK_SIZE)
    (hcount : d.count + ops.countP Op.isCreate ≤ ENTRY) (name : Bytes) :
    (d.run ops).1.toMap.lookup name = ops.foldl (Op.writes name) (d.toMap.lookup name) := by
  induction ops generalizing d with
  | nil => rfl
  | cons op ops ih =>
    have hop := hops op List.mem_cons_self
    have hweightStep := d.weight_step_le op
    have hcountStep := d.count_step_le op
    rw [List.map_cons, List.sum_cons] at hweight
    rw [List.countP_cons] at hcount
    rw [List.foldl_cons, ← Directory.lookup_step hd hop (by omega) (by omega)]
    exact ih (hd.step hop) (fun op' hop' => hops op' (List.mem_cons_of_mem _ hop')) (by omega)
      (by omega)

theorem Directory.sumFiles_empty (w : File → ℕ) : Directory.empty.sumFiles w = 0 := by
  simp [sumFiles, empty]

/-! ## Processes -/

/-- A command line with a wrong number of arguments is no operation. -/
theorem selectOp_of_argc {argv : List CString} (hargc : argv.length < 2 ∨ 4 < argv.length) :
    selectOp argv = none := by
  match argv with
  | [] => rfl
  | [_] => rfl
  | [_, _] | [_, _, _] | [_, _, _, _] => simp at hargc
  | _ :: _ :: _ :: _ :: _ :: _ => rfl

theorem Shell.dir_step (s : Shell) (argv : List CString) :
    (s.step argv).1.dir = (s.dir.run (selectOp argv).toList).1 := by
  unfold Shell.step
  split
  · rename_i hargc
    rw [selectOp_of_argc hargc]
    rfl
  · cases selectOp argv <;> rfl

theorem Directory.run_append (ops ops' : List Op) (d : Directory) :
    (d.run (ops ++ ops')).1 = ((d.run ops).1.run ops').1 := by
  induction ops generalizing d with
  | nil => rfl
  | cons op ops ih => exact ih _

/-- The directory after a sequence of processes. -/
theorem Shell.dir_run (s : Shell) (argvs : List (List CString)) :
    (s.run argvs).1.dir = (s.dir.run (argvs.filterMap selectOp)).1 := by
  induction argvs generalizing s with
  | nil => rfl
  | cons argv argvs ih =>
    have hops : (argv :: argvs).filterMap selectOp = (selectOp argv).toList ++
        argvs.filterMap selectOp := by
      rw [List.filterMap_cons]
      cases selectOp argv <;> rfl
    rw [hops, Directory.run_append, ← Shell.dir_step]
    exact ih _

/-- As long as the disk has room for everything, a process that reads a file prints everything that
the processes before it have written to the file since it was created last, whatever else they
did. -/
theorem read_after_processes {argvs : List (List CString)}
    (hnames : ∀ argv ∈ argvs, ∀ op ∈ selectOp argv, op.Nameable)
    (hfits : FitsDisk (argvs.filterMap selectOp)) (name : CString) :
    ∃ store outs store', runProcesses Fopen.all argvs noFiles = some (store, outs) ∧
      main Fopen.all (Op.read name).argv store = some (store', (Shell.start.run argvs).1.warning ++
        printf (ascii "Content of '" ++ name.bytes ++ ascii "': " ++
          (written name.bytes (argvs.filterMap selectOp)).getD (ascii "None") ++ ascii "\n")) := by
  obtain ⟨store, hrun, hholds⟩ := holds_noFiles.runProcesses argvs hnames
  obtain ⟨fs, chain, hload, -, hrep, hd⟩ := hholds.load
  have hempty : Directory.empty.NamesDistinct := by
    simp [Directory.NamesDistinct, Directory.empty]
  have hcontent : (Shell.start.run argvs).1.dir.toMap.lookup name.bytes =
      written name.bytes (argvs.filterMap selectOp) := by
    rw [Shell.dir_run]
    refine Directory.lookup_run hempty (fun op hop => ?_) ?_ ?_ name.bytes
    · obtain ⟨argv, hargv, hselect⟩ := List.mem_filterMap.mp hop
      exact fun n hn => (hnames argv hargv op hselect n hn).2
    · rw [Directory.weight, Directory.sumFiles_empty, Nat.zero_add]
      exact hfits.cost
    · rw [Directory.count, Directory.sumFiles_empty, Nat.zero_add]
      exact hfits.creates
  have hread : Fat.step (.read name) fs =
      some (fs, (Shell.start.run argvs).1.dir.read name) := by
    simp only [step, readFile_eq hrep.toLinks]
    rfl
  refine ⟨store, _, savedStore fs, hrun, ?_⟩
  rw [main_eq hload hread, Directory.read, ← hcontent, Directory.lookup_toMap hd]
  cases (Shell.start.run argvs).1.dir.lookup name.bytes <;> rfl

/-- Two writes with another command between them. -/
def writeCommands : List (List CString) :=
  [(Op.create nameA).argv, (Op.write nameA (word "x\n")).argv, [nameA],
    (Op.write nameA (word "y")).argv]

theorem read_after_processes_writeCommands :
    ∃ store outs store', runProcesses Fopen.all writeCommands noFiles = some (store, outs) ∧
      main Fopen.all (Op.read nameA).argv store =
        some (store', (Shell.start.run writeCommands).1.warning ++
        printf (ascii "Content of 'a': x y\n")) := by
  have hops : writeCommands.filterMap selectOp =
      [.create nameA, .write nameA (word "x\n"), .write nameA (word "y")] := by
    simp [writeCommands, selectOp_argv, selectOp_of_argc]
  have hnames : ∀ argv ∈ writeCommands, ∀ op ∈ selectOp argv, op.Nameable := by
    intro argv hargv op hop name hname
    have hmem : op ∈ writeCommands.filterMap selectOp := List.mem_filterMap.mpr ⟨argv, hargv, hop⟩
    have hnameA : name = nameA := by
      rw [hops] at hmem
      simp only [List.mem_cons, List.not_mem_nil, or_false] at hmem
      rcases hmem with rfl | rfl | rfl <;> exact (Option.some.inj hname).symm
    subst hnameA
    exact ⟨⟨List.cons_ne_nil _ _, List.forall_mem_singleton.mpr rfl⟩, by decide⟩
  have hfits : FitsDisk (writeCommands.filterMap selectOp) := by
    rw [hops]
    exact ⟨by decide, by decide⟩
  have hread := read_after_processes hnames hfits nameA
  rw [hops] at hread
  exact hread

end SchoolOS.Fat
