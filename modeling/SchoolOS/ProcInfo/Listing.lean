import Mathlib.Data.Nat.Digits.Lemmas
import SchoolOS.ProcInfo.Defs

/-!
# The text of the listing

`text` is the header followed by the rows. The buffer grows by doubling, and is always the smallest
of the sizes `BUF_SIZE * 2^i` that holds the string (`Fitted`). So the text is built completely
exactly if these sizes are granted (`Granted`), and never overflows the buffer.
-/

namespace SchoolOS.ProcInfo

/-- The state column of a row. -/
def stateColumn (t : Task) : Bytes := (stateLabel t).elim (columns t) (padRight 20)

/-- The chunks of a row. -/
def chunks (t : Task) : List Bytes := [columns t, stateColumn t, nameColumn t]

/-- The rows of the listing: of the selected process, or of all processes. -/
def rows (k : Kernel) (curProc : ℤ) : List Bytes :=
  match selected k curProc with
  | some t => chunks t
  | none => k.tasks.flatMap chunks

/-- The complete listing. -/
def text (k : Kernel) (curProc : ℤ) : Bytes := header ++ ruler ++ (rows k curProc).flatten

/-- The sizes that a text of `n` bytes needs are granted: the first one, and the double of every
size that is too small. -/
def Granted (alloc : ℕ → Bool) (n : ℕ) : Prop :=
  alloc BUF_SIZE = true ∧ ∀ i, BUF_SIZE * 2 ^ i ≤ n → alloc (BUF_SIZE * 2 ^ (i + 1)) = true

theorem Granted.mono {alloc : ℕ → Bool} {n n' : ℕ} (h : Granted alloc n') (hle : n ≤ n') :
    Granted alloc n :=
  ⟨h.1, fun i hi => h.2 i (hi.trans hle)⟩

theorem granted_of_alloc {alloc : ℕ → Bool} (h : ∀ n, alloc n = true) (n : ℕ) : Granted alloc n :=
  ⟨h _, fun _ _ => h _⟩

/-! ## The lengths of the chunks -/

theorem length_padRight (n : ℕ) (s : Bytes) : (padRight n s).length = max n s.length := by
  rw [padRight, List.length_append, List.length_replicate]
  omega

theorem length_natDecimal_le {n d : ℕ} (hd : 0 < d) (h : n < 10 ^ d) :
    (natDecimal n).length ≤ d := by
  unfold natDecimal
  split
  · exact hd
  · rw [List.length_map, List.length_reverse, Nat.digits_length_le_iff (by omega)]
    exact h

theorem length_decimal_le {z : ℤ} (h : IntRange z) : (decimal z).length ≤ 11 := by
  obtain ⟨hle, hlt⟩ := h
  have habs : z.natAbs < 10 ^ 10 := by omega
  have hdigits := length_natDecimal_le (by omega) habs
  unfold decimal
  split
  · rw [List.length_cons]
    omega
  · omega

theorem length_columns_lt (t : Task) : (columns t).length < 512 := by
  have hpid := length_decimal_le ⟨t.pid.le_toInt, t.pid.toInt_lt⟩
  have hppid := length_decimal_le ⟨t.ppid.le_toInt, t.ppid.toInt_lt⟩
  have huid := length_decimal_le (intRange_toInt t.uid.toNat)
  have hgid := length_decimal_le (intRange_toInt t.gid.toNat)
  have hutime := length_natDecimal_le (n := t.utime.toNat) (d := 20) (by omega)
    (t.utime.toNat_lt.trans (by norm_num))
  have hstime := length_natDecimal_le (n := t.stime.toNat) (d := 20) (by omega)
    (t.stime.toNat_lt.trans (by norm_num))
  simp only [columns, List.length_append, length_padRight]
  omega

/-- What holds of a label and of those that follow in a chain of tests. -/
theorem forall_mem_ite {c : Prop} [Decidable c] (P : Bytes → Prop) {a : Bytes} {x : Option Bytes}
    (ha : P a) (hx : ∀ label ∈ x, P label) : ∀ label ∈ if c then some a else x, P label := by
  split
  · intro label hlabel
    rwa [← Option.some.inj hlabel]
  · exact hx

theorem length_stateLabel_le (t : Task) : ∀ label ∈ stateLabel t, label.length ≤ 20 := by
  unfold stateLabel
  iterate 9 refine forall_mem_ite (·.length ≤ 20) (by decide) ?_
  exact fun label hlabel => absurd hlabel (by simp)

theorem length_stateColumn_lt (t : Task) : (stateColumn t).length < 512 := by
  unfold stateColumn
  cases hlabel : stateLabel t with
  | none => exact length_columns_lt t
  | some label =>
    have hle := length_stateLabel_le t label hlabel
    rw [Option.elim_some, length_padRight]
    omega

theorem length_nameColumn_lt (t : Task) : (nameColumn t).length < 512 := by
  have hlt := t.comm_lt
  rw [nameColumn, List.length_append, length_padRight, List.length_singleton]
  omega

theorem length_chunk_lt {t : Task} {c : Bytes} (h : c ∈ chunks t) : c.length < 512 := by
  simp only [chunks, List.mem_cons, List.not_mem_nil, or_false] at h
  rcases h with rfl | rfl | rfl
  · exact length_columns_lt t
  · exact length_stateColumn_lt t
  · exact length_nameColumn_lt t

theorem length_flatten_chunks_lt (t : Task) : (chunks t).flatten.length < 512 * 3 := by
  have hcolumns := length_columns_lt t
  have hstate := length_stateColumn_lt t
  have hname := length_nameColumn_lt t
  simp only [chunks, List.flatten_cons, List.flatten_nil, List.length_append, List.length_nil]
  omega

theorem sprintf_eq {s : Bytes} (h : s.length < 512) : sprintf s = .ok s := if_pos h

theorem sprintfState_eq (t : Task) : sprintfState t (columns t) = .ok (stateColumn t) := by
  have hlt := length_stateColumn_lt t
  unfold sprintfState stateColumn at *
  cases hlabel : stateLabel t with
  | none => rfl
  | some label =>
    rw [hlabel] at hlt
    exact sprintf_eq hlt

/-! ## The growth of the buffer -/

section Grow

variable {alloc : ℕ → Bool} {b : Buffer} {s : Bytes}

/-- The buffer has been doubled only when it was too small. -/
def Fitted (alloc : ℕ → Bool) (b : Buffer) : Prop :=
  ∃ j, b.size = BUF_SIZE * 2 ^ j ∧ (∀ i ≤ j, alloc (BUF_SIZE * 2 ^ i) = true) ∧
    ∀ i < j, BUF_SIZE * 2 ^ i ≤ b.str.length

theorem strcat_eq (h : b.str.length + s.length < b.size) :
    ∃ b', b.strcat s = .ok b' ∧ b'.str = b.str ++ s ∧ b'.size = b.size :=
  ⟨_, dif_pos h, rfl, rfl⟩

theorem lt_of_size_le {i j n : ℕ} (hi : BUF_SIZE * 2 ^ i ≤ n) (hj : n < BUF_SIZE * 2 ^ j) :
    i < j := by
  have hlt : 2 ^ i < 2 ^ j := Nat.lt_of_mul_lt_mul_left (hi.trans_lt hj)
  exact (Nat.pow_lt_pow_iff_right (by omega)).mp hlt

/-- A longer string needs at most one more size. -/
theorem Fitted.granted_iff (h : Fitted alloc b) {n : ℕ} (hn : n < b.size * 2) :
    Granted alloc n ↔ n < b.size ∨ alloc (b.size * 2) = true := by
  obtain ⟨j, hsize, halloc, -⟩ := h
  have hdouble : b.size * 2 = BUF_SIZE * 2 ^ (j + 1) := by
    rw [hsize, pow_succ, mul_assoc]
  rw [hdouble] at hn ⊢
  rw [hsize]
  constructor
  · intro hgranted
    by_cases hlt : n < BUF_SIZE * 2 ^ j
    · exact Or.inl hlt
    · exact Or.inr (hgranted.2 j (by omega))
  · intro hcase
    refine ⟨halloc 0 (Nat.zero_le j), fun i hi => ?_⟩
    rcases hcase with hlt | hnext
    · exact halloc (i + 1) (lt_of_size_le hi hlt)
    · rcases (Nat.lt_succ_iff_lt_or_eq).mp (lt_of_size_le hi hn) with hij | rfl
      · exact halloc (i + 1) hij
      · exact hnext

theorem krealloc_eq (h : alloc (b.size * 2) = true) :
    ∃ b', b.krealloc alloc = .ok b' ∧ b'.str = b.str ∧ b'.size = b.size * 2 :=
  ⟨_, if_pos h, rfl, rfl⟩

theorem Fitted.size_ge (h : Fitted alloc b) : BUF_SIZE ≤ b.size := by
  obtain ⟨j, hsize, -, -⟩ := h
  rw [hsize]
  exact Nat.le_mul_of_pos_right _ (Nat.two_pow_pos j)

theorem append_ok (h : Fitted alloc b) (hs : s.length < 512)
    (hgranted : Granted alloc (b.str.length + s.length)) :
    ∃ b', b.append alloc s = .ok b' ∧ b'.str = b.str ++ s ∧ Fitted alloc b' := by
  have hfits := b.fits
  have hbuf : BUF_SIZE = 4096 := rfl
  have hge := h.size_ge
  have hcase := (h.granted_iff (by omega)).mp hgranted
  obtain ⟨j, hsize, halloc, hsmall⟩ := h
  unfold Buffer.append
  by_cases hroom : b.str.length + s.length < b.size
  · obtain ⟨b', hb', hstr, hsize'⟩ := strcat_eq hroom
    rw [if_pos (by omega)]
    refine ⟨b', hb', hstr, j, hsize'.trans hsize, halloc, fun i hi => ?_⟩
    rw [hstr, List.length_append]
    exact (hsmall i hi).trans (Nat.le_add_right _ _)
  · have hnext := hcase.resolve_left hroom
    obtain ⟨b₁, hb₁, hstr₁, hsize₁⟩ := krealloc_eq hnext
    obtain ⟨b', hb', hstr, hsize'⟩ := strcat_eq (b := b₁) (s := s) (by rw [hstr₁, hsize₁]; omega)
    have hdouble : b.size * 2 = BUF_SIZE * 2 ^ (j + 1) := by
      rw [hsize, pow_succ, mul_assoc]
    rw [if_neg (by omega), hb₁]
    refine ⟨b', hb', by rw [hstr, hstr₁], j + 1, by rw [hsize', hsize₁, hdouble], ?_, ?_⟩
    · intro i hi
      rcases Nat.le_succ_iff.mp hi with hij | rfl
      · exact halloc i hij
      · rwa [← hdouble]
    · intro i hi
      rw [hstr, hstr₁, List.length_append]
      calc BUF_SIZE * 2 ^ i ≤ BUF_SIZE * 2 ^ j :=
            Nat.mul_le_mul_left _ (Nat.pow_le_pow_right (by omega) (Nat.lt_succ_iff.mp hi))
        _ ≤ b.str.length + s.length := by omega

theorem append_noMemory (h : Fitted alloc b) (hs : s.length < 512)
    (hgranted : ¬ Granted alloc (b.str.length + s.length)) :
    b.append alloc s = .error .noMemory := by
  have hfits := b.fits
  have hbuf : BUF_SIZE = 4096 := rfl
  have hge := h.size_ge
  rw [h.granted_iff (by omega), not_or, Bool.not_eq_true] at hgranted
  unfold Buffer.append
  rw [if_neg (by omega), Buffer.krealloc, if_neg (by simp [hgranted.2])]
  rfl

/-- Appending chunks one after the other. -/
theorem foldlM_append {cs : List Bytes} (h : Fitted alloc b) (hcs : ∀ c ∈ cs, c.length < 512) :
    (Granted alloc (b.str.length + cs.flatten.length) →
      ∃ b', cs.foldlM (Buffer.append alloc) b = .ok b' ∧ b'.str = b.str ++ cs.flatten) ∧
    (¬ Granted alloc (b.str.length + cs.flatten.length) →
      Granted alloc b.str.length → cs.foldlM (Buffer.append alloc) b = .error .noMemory) := by
  induction cs generalizing b with
  | nil => exact ⟨fun _ => ⟨b, rfl, by simp⟩, fun hnot hb => absurd hb (by simpa using hnot)⟩
  | cons c cs ih =>
    obtain ⟨hc, hrest⟩ := List.forall_mem_cons.mp hcs
    rw [List.foldlM_cons, List.flatten_cons, List.length_append, ← Nat.add_assoc]
    by_cases hfirst : Granted alloc (b.str.length + c.length)
    · obtain ⟨b₁, hb₁, hstr, hfitted⟩ := append_ok h hc hfirst
      have ih := ih hfitted hrest
      rw [hstr, List.length_append] at ih
      rw [hb₁]
      refine ⟨fun hall => ?_, fun hnot _ => ih.2 hnot hfirst⟩
      obtain ⟨b', hb', hstr'⟩ := ih.1 hall
      exact ⟨b', hb', by rw [hstr', List.append_assoc]⟩
    · rw [append_noMemory h hc hfirst]
      refine ⟨fun hall => absurd (hall.mono (Nat.le_add_right _ _)) hfirst, fun _ _ => rfl⟩

end Grow

/-! ## The listing -/

section Build

variable {alloc : ℕ → Bool}

theorem ok_bind {α β : Type} (a : α) (f : α → Except Stop β) : (Except.ok a >>= f) = f a := rfl

theorem eachProcess_eq (alloc : ℕ → Bool) (b : Buffer) (t : Task) :
    eachProcess alloc b t = (chunks t).foldlM (Buffer.append alloc) b := by
  unfold eachProcess
  simp only [sprintf_eq (length_columns_lt t), sprintf_eq (length_nameColumn_lt t), sprintfState_eq,
    ok_bind, chunks, List.foldlM_cons, List.foldlM_nil, bind_pure]

theorem length_header : header.length = 113 := by decide

theorem length_ruler : ruler.length = 99 := by decide

theorem kmalloc_eq (h : alloc BUF_SIZE = true) :
    ∃ b, kmalloc alloc = .ok b ∧ b.str = [] ∧ b.size = BUF_SIZE :=
  ⟨_, if_pos h, rfl, rfl⟩

/-- The buffer after the two lines of the header. -/
theorem build_header (k : Kernel) (curProc : ℤ) (h : alloc BUF_SIZE = true) :
    ∃ b, build k alloc curProc = appendRows k alloc curProc b ∧ b.str = header ++ ruler ∧
      b.size = BUF_SIZE := by
  have hbuf : BUF_SIZE = 4096 := rfl
  obtain ⟨b, hb, hstr, hsize⟩ := kmalloc_eq h
  obtain ⟨b₁, hb₁, hstr₁, hsize₁⟩ := strcat_eq (b := b) (s := header) (by
    rw [hstr, hsize, length_header, hbuf]
    decide)
  obtain ⟨b₂, hb₂, hstr₂, hsize₂⟩ := strcat_eq (b := b₁) (s := ruler) (by
    rw [hstr₁, hsize₁, hstr, hsize, List.nil_append, length_header, length_ruler, hbuf]
    decide)
  refine ⟨b₂, ?_, by rw [hstr₂, hstr₁, hstr, List.nil_append], by rw [hsize₂, hsize₁, hsize]⟩
  have hheader : sprintf header = .ok header := sprintf_eq (by rw [length_header]; decide)
  unfold build
  rw [hb, ok_bind, hheader, ok_bind, hb₁, ok_bind, hb₂, ok_bind]

theorem oneProcess_eq {b : Buffer} (t : Task) (hstr : b.str.length + 512 * 3 < b.size) :
    ∃ b', oneProcess t b = .ok b' ∧ b'.str = b.str ++ (chunks t).flatten := by
  have hcolumns := length_columns_lt t
  have hstate := length_stateColumn_lt t
  have hname := length_nameColumn_lt t
  obtain ⟨b₁, hb₁, hstr₁, hsize₁⟩ := strcat_eq (b := b) (s := columns t) (by omega)
  obtain ⟨b₂, hb₂, hstr₂, hsize₂⟩ := strcat_eq (b := b₁) (s := stateColumn t) (by
    rw [hstr₁, hsize₁, List.length_append]
    omega)
  obtain ⟨b₃, hb₃, hstr₃, -⟩ := strcat_eq (b := b₂) (s := nameColumn t) (by
    rw [hstr₂, hsize₂, hstr₁, hsize₁, List.length_append, List.length_append]
    omega)
  refine ⟨b₃, ?_, ?_⟩
  · unfold oneProcess
    rw [sprintf_eq hcolumns, ok_bind, hb₁, ok_bind, sprintfState_eq, ok_bind, hb₂, ok_bind,
      sprintf_eq hname, ok_bind, hb₃]
  · rw [hstr₃, hstr₂, hstr₁]
    simp [chunks]

theorem foldlM_eachProcess (alloc : ℕ → Bool) (tasks : List Task) (b : Buffer) :
    tasks.foldlM (eachProcess alloc) b = (tasks.flatMap chunks).foldlM (Buffer.append alloc) b := by
  induction tasks generalizing b with
  | nil => rfl
  | cons t tasks ih =>
    rw [List.foldlM_cons, List.flatMap_cons, List.foldlM_append, eachProcess_eq]
    refine congrArg _ (funext fun b' => ih b')

/-- The complete text is built if its memory is granted, and nothing otherwise. -/
theorem build_eq (k : Kernel) (alloc : ℕ → Bool) (curProc : ℤ) :
    (Granted alloc (text k curProc).length →
      ∃ b, build k alloc curProc = .ok b ∧ b.str = text k curProc) ∧
    (¬ Granted alloc (text k curProc).length → build k alloc curProc = .error .noMemory) := by
  by_cases halloc : alloc BUF_SIZE = true
  · obtain ⟨b, hbuild, hstr, hsize⟩ := build_header k curProc halloc
    have hlength : b.str.length = 212 := by
      rw [hstr, List.length_append, length_header, length_ruler]
    have hbuf : BUF_SIZE = 4096 := rfl
    rw [hbuild]
    unfold text rows appendRows
    rw [← hstr]
    cases hsel : selected k curProc with
    | some t =>
      obtain ⟨b', hb', hstr'⟩ := oneProcess_eq (b := b) t (by omega)
      refine ⟨fun _ => ⟨b', hb', hstr'⟩, fun hnot => absurd ⟨halloc, fun i hi => ?_⟩ hnot⟩
      -- one row never needs a larger buffer
      have hpos := Nat.le_mul_of_pos_right BUF_SIZE (Nat.two_pow_pos i)
      have hrow := length_flatten_chunks_lt t
      have hi : BUF_SIZE * 2 ^ i ≤ (b.str ++ (chunks t).flatten).length := hi
      rw [List.length_append] at hi
      omega
    | none =>
      have hfitted : Fitted alloc b := by
        refine ⟨0, by rw [hsize, pow_zero, mul_one], fun i hi => ?_,
          fun i hi => absurd hi (by omega)⟩
        rw [Nat.le_zero.mp hi, pow_zero, mul_one]
        exact halloc
      have hgranted : Granted alloc b.str.length := by
        refine ⟨halloc, fun i hi => ?_⟩
        have hpos := Nat.le_mul_of_pos_right BUF_SIZE (Nat.two_pow_pos i)
        omega
      have hchunks : ∀ c ∈ k.tasks.flatMap chunks, c.length < 512 := by
        intro c hc
        obtain ⟨t, -, hct⟩ := List.mem_flatMap.mp hc
        exact length_chunk_lt hct
      have hfold := foldlM_append hfitted hchunks
      simp only [foldlM_eachProcess, List.length_append]
      exact ⟨hfold.1, fun hnot => hfold.2 hnot hgranted⟩
  · refine ⟨fun h => absurd h.1 halloc, fun _ => ?_⟩
    unfold build
    rw [kmalloc, if_neg halloc]
    rfl

end Build

end SchoolOS.ProcInfo
