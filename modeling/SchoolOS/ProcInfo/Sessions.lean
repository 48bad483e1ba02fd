import SchoolOS.ProcInfo.Reads
import SchoolOS.ProcInfo.Rows
import SchoolOS.ProcInfo.Write

/-!
# Sessions with the file

Reference: `Assignment5-1/proc_info.c`, `my_open`, `my_read` and `my_write`.

All processes share `cur_proc` and `is_processed`, so what a read returns depends on the calls that
others have made before it. `processInfo_session` says it in terms of these calls and their results
alone. A read returns a listing if its memory is granted and the file has been opened, by anyone,
since the last listing. It is the listing for the number that was accepted last, by whomever it was
written.

The pid of a row is read back by `my_write`: writing it selects the process of the row
(`processInfo_echo`).
-/

namespace SchoolOS.ProcInfo

/-- A call of a file operation. `buf` holds what `my_write` finds on its stack. -/
inductive Access
  | openFile
  | readFile (k : Kernel) (req : Request)
  | writeFile (buf : CharArray 50) (data : Bytes)

/-- What a call returns, and a read writes to the user's memory. -/
inductive Result
  | opened (ret : ℤ)
  | read (r : Read)
  | written (ret : ℕ)
deriving DecidableEq

namespace Access

def run (s : Globals) : Access → Option (Result × Globals)
  | .openFile => some (.opened (myOpen s).2, (myOpen s).1)
  | .readFile k req => (myRead k req.alloc req.len s).map fun r => (.read r.1, r.2)
  | .writeFile buf data => (myWrite buf data s).map fun r => (.written r.2, r.1)

/-- What is written fits into the buffer of `my_write`. -/
def Fits : Access → Prop
  | .writeFile _ data => 1 ≤ data.length ∧ data.length ≤ 50
  | _ => True

/-- The number that a write selects. -/
def selects : Access → Option ℤ
  | .writeFile _ data => kstrtol (cString data.dropLast)
  | _ => none

end Access

/-- The results of consecutive calls, and the global variables after them. -/
def session (s : Globals) (history : List Access) : Option (List Result × Globals) :=
  history.foldlM (fun (rs, s) a => (a.run s).map fun (r, s) => (rs ++ [r], s)) ([], s)

/-- The number that was selected last. Without one, `cur_proc` is `-1`. -/
def selection (history : List Access) : ℤ := (history.reverse.findSome? Access.selects).getD (-1)

/-- Before call `i`, the file has been opened since the last listing. -/
def Due (history : List Access) (rs : List Result) (i : ℕ) : Prop :=
  ∀ j < i, (∃ r, rs[j]? = some (.read r) ∧ r.ret ≠ 0) → ∃ l, j < l ∧ l < i ∧
    history[l]? = some .openFile

/-- The result of a call before which `n` was selected last, and where `due` says whether a listing
is due. -/
def Access.Answers (due : Prop) (n : ℤ) : Access → Result → Prop
  | .openFile, r => r = .opened 0
  | .readFile k req, r =>
    (due ∧ Granted req.alloc (text k n).length →
      r = .read ⟨text k n ++ [0], (text k n).length + 1⟩) ∧
      (¬ (due ∧ Granted req.alloc (text k n).length) → r = .read ⟨[], 0⟩)
  | .writeFile _ data, r => r = .written data.length

/-! ## One call -/

variable {history : List Access} {rs : List Result} {s s' : Globals} {a : Access} {r : Result}
  {i : ℕ}

theorem session_concat (s : Globals) (history : List Access) (a : Access) :
    session s (history ++ [a]) =
      (session s history).bind fun x => (a.run x.2).map fun y => (x.1 ++ [y.1], y.2) := by
  simp [session, List.foldlM_append]

theorem selection_concat (history : List Access) (a : Access) :
    selection (history ++ [a]) = a.selects.getD (selection history) := by
  rw [selection, selection, List.reverse_append, List.reverse_singleton, List.singleton_append,
    List.findSome?_cons]
  cases a.selects with
  | none => rfl
  | some n => rfl

/-- Every call succeeds. It sets `is_processed` exactly if it returns a listing. -/
theorem run_answers (hfits : a.Fits) {due : Prop} (hdue : s.isProcessed = 0 ↔ due) :
    ∃ r s', a.run s = some (r, s') ∧ a.Answers due s.curProc r ∧
      s'.curProc = a.selects.getD s.curProc ∧
      (s'.isProcessed = 0 ↔ (∀ x, r = .read x → x.ret = 0) ∧ (a = .openFile ∨ due)) := by
  cases a with
  | openFile =>
    refine ⟨.opened 0, { s with isProcessed := 0 }, rfl, rfl, rfl, iff_of_true rfl ⟨?_, Or.inl rfl⟩⟩
    exact fun x hx => Result.noConfusion hx
  | readFile k req =>
    by_cases hread : due ∧ Granted req.alloc (text k s.curProc).length
    · refine ⟨.read ⟨text k s.curProc ++ [0], (text k s.curProc).length + 1⟩,
        { s with isProcessed := 1 },
        ?_, ⟨fun _ => rfl, fun hnot => absurd hread hnot⟩, rfl, by simp⟩
      rw [Access.run, myRead_granted (hdue.mpr hread.1) hread.2, Option.map_some]
    · have hr : myRead k req.alloc req.len s = some (⟨[], 0⟩, s) := by
        by_cases hflag : s.isProcessed = 0
        · exact myRead_refused hflag fun hgranted => hread ⟨hdue.mp hflag, hgranted⟩
        · exact myRead_processed hflag
      refine ⟨.read ⟨[], 0⟩, s, by rw [Access.run, hr, Option.map_some],
        ⟨fun hboth => absurd hboth hread, fun _ => rfl⟩, rfl, ?_⟩
      simp [hdue]
  | writeFile buf data =>
    refine ⟨_, _, by rw [Access.run, myWrite_eq buf hfits.1 hfits.2, Option.map_some], rfl, rfl, ?_⟩
    simp [hdue]

/-! ## The calls of a session -/

/-- Only the calls before `i` matter. -/
theorem due_concat (hi : i ≤ history.length) (hlength : rs.length = history.length) :
    Due (history ++ [a]) (rs ++ [r]) i ↔ Due history rs i := by
  refine forall_congr' fun j => forall_congr' fun hj => imp_congr ?_ (exists_congr fun l => ?_)
  · rw [List.getElem?_append_left (by omega)]
  · refine and_congr_right fun _ => and_congr_right fun hl => ?_
    rw [List.getElem?_append_left (by omega)]

/-- After another call, a listing is due if the call was an open, or if one was due before it, and
the call did not return one. -/
theorem due_succ (hlength : rs.length = history.length) :
    Due (history ++ [a]) (rs ++ [r]) (history.length + 1) ↔
      (∀ x, r = .read x → x.ret = 0) ∧ (a = .openFile ∨ Due history rs history.length) := by
  have hlast : (rs ++ [r])[history.length]? = some r := by
    rw [← hlength, List.getElem?_concat_length]
  constructor
  · intro h
    refine ⟨fun x hx => ?_, ?_⟩
    · by_contra hret
      obtain ⟨l, hlt, hle, -⟩ := h history.length (Nat.lt_succ_self _) ⟨x, hx ▸ hlast, hret⟩
      omega
    · rw [or_iff_not_imp_left]
      intro hopen j hj hlisting
      have hsame : (rs ++ [r])[j]? = rs[j]? := List.getElem?_append_left (by omega)
      rw [← hsame] at hlisting
      obtain ⟨l, hjl, hl, hacc⟩ := h j (by omega) hlisting
      have hne : l ≠ history.length := by
        rintro rfl
        rw [List.getElem?_concat_length, Option.some.injEq] at hacc
        exact hopen hacc
      rw [List.getElem?_append_left (by omega)] at hacc
      exact ⟨l, hjl, by omega, hacc⟩
  · rintro ⟨hzero, hcase⟩ j hj ⟨x, hx, hret⟩
    have hne : j ≠ history.length := by
      rintro rfl
      rw [hlast, Option.some.injEq] at hx
      exact hret (hzero x hx)
    rw [List.getElem?_append_left (by omega)] at hx
    rcases hcase with rfl | hdue
    · exact ⟨history.length, by omega, Nat.lt_succ_self _, List.getElem?_concat_length⟩
    · obtain ⟨l, hjl, hl, hacc⟩ := hdue j (by omega) ⟨x, hx, hret⟩
      exact ⟨l, hjl, by omega, by rw [List.getElem?_append_left hl, hacc]⟩

/-- The results and the global variables after a history. -/
structure Tracks (history : List Access) (rs : List Result) (s : Globals) : Prop where
  length : rs.length = history.length
  curProc : s.curProc = selection history
  isProcessed : s.isProcessed = 0 ↔ Due history rs history.length
  answers : ∀ i (a : Access), history[i]? = some a → ∃ r, rs[i]? = some r ∧
    a.Answers (Due history rs i) (selection (history.take i)) r

theorem Tracks.run (h : Tracks history rs s) (hfits : a.Fits) :
    ∃ r s', a.run s = some (r, s') ∧ Tracks (history ++ [a]) (rs ++ [r]) s' := by
  obtain ⟨r, s', hrun, hanswers, hcur, hflag⟩ := run_answers hfits h.isProcessed
  refine ⟨r, s', hrun, ?_, ?_, ?_, ?_⟩
  · rw [List.length_append, List.length_append, h.length]
    rfl
  · rw [selection_concat, hcur, h.curProc]
  · rw [hflag, List.length_append, List.length_singleton, due_succ h.length]
  · intro i b hi
    have hle : i ≤ history.length := by
      have hlt := (List.getElem?_eq_some_iff.mp hi).1
      rw [List.length_append, List.length_singleton] at hlt
      omega
    simp only [due_concat hle h.length, List.take_append_of_le_length hle]
    by_cases hlast : i = history.length
    · subst hlast
      rw [List.getElem?_concat_length, Option.some.injEq] at hi
      rw [← h.length, List.getElem?_concat_length, h.length, List.take_length, ← h.curProc, ← hi]
      exact ⟨r, rfl, hanswers⟩
    · have hlt : i < history.length := by omega
      rw [List.getElem?_append_left hlt] at hi
      rw [List.getElem?_append_left (by rwa [h.length])]
      exact h.answers i b hi

/-- A session after the module has been loaded. -/
theorem tracks_session (history : List Access) (hfits : ∀ a ∈ history, a.Fits) :
    ∃ rs s, session ⟨-1, 0⟩ history = some (rs, s) ∧ Tracks history rs s := by
  induction history using List.reverseRecOn with
  | nil =>
    refine ⟨[], ⟨-1, 0⟩, rfl, rfl, rfl, iff_of_true rfl ?_, ?_⟩
    · exact fun j hj => absurd hj (Nat.not_lt_zero j)
    · exact fun i a hi => absurd hi (by simp)
  | append_singleton history a ih =>
    obtain ⟨rs, s, hsession, htracks⟩ := ih fun b hb => hfits b (List.mem_append_left _ hb)
    obtain ⟨r, s', hrun, htracks'⟩ :=
      htracks.run (hfits a (List.mem_append_right _ (List.mem_singleton_self a)))
    refine ⟨rs ++ [r], s', ?_, htracks'⟩
    rw [session_concat, hsession, Option.bind_some, hrun, Option.map_some]

/-- Whatever calls are made, none fails. A read returns a listing if and only if its memory is
granted and the file has been opened since the last listing, and this is the listing for the number
that was selected last. Every other read returns `0`. -/
theorem processInfo_session (history : List Access) (hfits : ∀ a ∈ history, a.Fits) :
    ∃ rs s, session ⟨-1, 0⟩ history = some (rs, s) ∧ rs.length = history.length ∧
      ∀ i (a : Access), history[i]? = some a → ∃ r, rs[i]? = some r ∧
        a.Answers (Due history rs i) (selection (history.take i)) r := by
  obtain ⟨rs, s, hsession, htracks⟩ := tracks_session history hfits
  exact ⟨rs, s, hsession, htracks.length, htracks.answers⟩

/-- A client reads to the end, while another one selects process 7. -/
def interrupted : List Access :=
  [.openFile, .readFile noTasks ⟨4096, fun _ => true⟩, .writeFile (.zero 50) [55, 10],
    .readFile noTasks ⟨4096, fun _ => true⟩]

/-- The first read returns the listing of all processes, and the second one nothing. -/
theorem processInfo_session_interrupted :
    ∃ rs s, session ⟨-1, 0⟩ interrupted = some (rs, s) ∧
      rs[1]? = some (.read ⟨text noTasks (-1) ++ [0], (text noTasks (-1)).length + 1⟩) ∧
      rs[3]? = some (.read ⟨[], 0⟩) := by
  have hfits : ∀ a ∈ interrupted, a.Fits := by
    simp [interrupted, Access.Fits]
  obtain ⟨rs, s, hsession, -, hanswers⟩ := processInfo_session interrupted hfits
  obtain ⟨r₀, hr₀, rfl⟩ := hanswers 0 .openFile rfl
  obtain ⟨r₁, hr₁, hlisting, -⟩ := hanswers 1 _ rfl
  obtain ⟨r₂, hr₂, rfl⟩ := hanswers 2 _ rfl
  obtain ⟨r₃, hr₃, -, hnothing⟩ := hanswers 3 _ rfl
  have hdue : Due interrupted rs 1 := by
    rintro j hj ⟨x, hx, -⟩
    obtain rfl : j = 0 := by omega
    rw [hr₀] at hx
    exact Result.noConfusion (Option.some.inj hx)
  have hselection : selection (interrupted.take 1) = -1 := rfl
  rw [hselection] at hlisting
  have hfirst := hlisting ⟨hdue, granted_of_alloc (fun _ => rfl) _⟩
  rw [hfirst] at hr₁
  refine ⟨rs, s, hsession, hr₁, hr₃.trans (congrArg some (hnothing ?_))⟩
  rintro ⟨hdue₃, -⟩
  have hret : (text noTasks (-1)).length + 1 ≠ 0 := by omega
  obtain ⟨l, hl, hl', hopen⟩ := hdue₃ 1 (by omega) ⟨_, hr₁, hret⟩
  obtain rfl : l = 2 := by omega
  exact Access.noConfusion (Option.some.inj hopen)

/-! ## Writing the pid of a row -/

/-- The row of a task in the listing. -/
def rowOf (t : Task) : Bytes := (chunks t).flatten

/-- The first word of a row, up to the first space. -/
def firstWord (row : Bytes) : Bytes := row.takeWhile (· ≠ 32)

theorem firstWord_rowOf {t : Task} (hpos : 0 ≤ t.pid.toInt) (hlt : t.pid.toInt < 10 ^ 7) :
    firstWord (rowOf t) = decimal t.pid.toInt := by
  have hword : ∀ c ∈ decimal t.pid.toInt, decide (c ≠ 32) = true := by
    intro c hc
    have hspace := isSpace_of_mem_numeral (numeral?_decimal t.pid.toInt) c hc
    rw [decide_eq_true_iff]
    rintro rfl
    exact absurd hspace (by decide)
  have hlength : (decimal t.pid.toInt).length ≤ 7 := by
    rw [decimal, if_neg (by omega)]
    exact length_natDecimal_le (by omega) (by omega)
  obtain ⟨n, hn⟩ : ∃ n, 8 - (decimal t.pid.toInt).length = n + 1 :=
    ⟨7 - (decimal t.pid.toInt).length, by omega⟩
  have hrow : decimal t.pid.toInt ++ [32] <+: rowOf t := by
    rw [rowOf, chunks, List.flatten_cons, columns, padRight, hn, List.replicate_succ]
    simp only [List.append_assoc, List.prefix_append_right_inj, List.cons_append,
      List.cons_prefix_cons, true_and]
    exact List.nil_prefix
  obtain ⟨rest, hrow⟩ := hrow
  rw [List.append_assoc] at hrow
  rw [firstWord, ← hrow]
  exact takeWhile_append_of_head hword (by simp)

theorem firstWord_rowOf_selects (buf : CharArray 50) {t : Task} (hpos : 0 ≤ t.pid.toInt)
    (hlt : t.pid.toInt < 10 ^ 7) :
    (Access.writeFile buf (firstWord (rowOf t) ++ [10])).selects = some t.pid.toInt := by
  have hnumeral := numeral?_decimal t.pid.toInt
  rw [firstWord_rowOf hpos hlt, Access.selects, List.dropLast_concat,
    cString_eq_self fun c hc => (mem_numeral hnumeral c hc).1]
  exact kstrtol_numeral hnumeral ⟨by omega, by omega⟩

theorem selection_append (history : List Access) {mid : List Access}
    (hmid : ∀ a ∈ mid, a.selects = none) : selection (history ++ mid) = selection history := by
  have hnone : mid.reverse.findSome? Access.selects = none := by
    rw [List.findSome?_eq_none_iff]
    exact fun a ha => hmid a (List.mem_reverse.mp ha)
  rw [selection, selection, List.reverse_append, List.findSome?_append, hnone, Option.none_or]

/-- The row of a task is a part of the complete listing. -/
theorem rowOf_isInfix_text {k : Kernel} {t : Task} (ht : t ∈ k.tasks) :
    rowOf t <:+: text k (-1) := by
  obtain ⟨l, r, hlr⟩ := List.append_of_mem ht
  refine ⟨header ++ ruler ++ (l.flatMap chunks).flatten, (r.flatMap chunks).flatten, ?_⟩
  rw [text, rows, selected, if_pos (by decide), hlr]
  simp [rowOf]

/-- The listing of one process. -/
theorem text_of_pid {k : Kernel} {t : Task} (hfound : k.pidTask t.pid.toInt = some t)
    (hpos : 0 < t.pid.toInt) : text k t.pid.toInt = header ++ ruler ++ rowOf t := by
  have hselected : selected k t.pid.toInt = some t := by
    rw [selected, if_neg (by omega), toInt_eq_self ⟨t.pid.le_toInt, t.pid.toInt_lt⟩, hfound]
  rw [text, rows, hselected]
  rfl

/-- One row never needs a larger buffer. -/
theorem granted_of_pid {k : Kernel} {t : Task} (hfound : k.pidTask t.pid.toInt = some t)
    (hpos : 0 < t.pid.toInt) {alloc : ℕ → Bool} (halloc : alloc BUF_SIZE = true) :
    Granted alloc (text k t.pid.toInt).length := by
  refine ⟨halloc, fun i hi => ?_⟩
  have hsize := Nat.le_mul_of_pos_right BUF_SIZE (Nat.two_pow_pos i)
  have hbuf : BUF_SIZE = 4096 := rfl
  have hrow := length_flatten_chunks_lt t
  rw [text_of_pid hfound hpos, List.length_append, List.length_append, length_header, length_ruler,
    rowOf] at hi
  omega

/-- The first word of a row of the complete listing, written back as a line, selects the process of
the row. Whatever is done in between, except that another process is selected, the next listing is
this row. The pid is followed by a space, since the kernel has no pids of more than seven digits. -/
theorem processInfo_echo (before mid : List Access) (hbefore : ∀ a ∈ before, a.Fits)
    (hmid : ∀ a ∈ mid, a.Fits ∧ a.selects = none) (buf : CharArray 50) {k : Kernel} {t : Task}
    (ht : t ∈ k.tasks) (hfound : k.pidTask t.pid.toInt = some t) (hpos : 0 < t.pid.toInt)
    (hlt : t.pid.toInt < 10 ^ 7) {req : Request} (halloc : req.alloc BUF_SIZE = true) :
    rowOf t <:+: text k (-1) ∧
    ∃ rs s, session ⟨-1, 0⟩ (before ++ .writeFile buf (firstWord (rowOf t) ++ [10]) :: mid ++
        [.openFile, .readFile k req]) = some (rs, s) ∧
      rs.getLast? = some (.read
        ⟨header ++ ruler ++ rowOf t ++ [0], (header ++ ruler ++ rowOf t).length + 1⟩) := by
  refine ⟨rowOf_isInfix_text ht, ?_⟩
  set write := Access.writeFile buf (firstWord (rowOf t) ++ [10]) with hwrite
  have hfits : ∀ a ∈ before ++ write :: mid, a.Fits := by
    intro a ha
    rcases List.mem_append.mp ha with ha | ha
    · exact hbefore a ha
    · rcases List.mem_cons.mp ha with rfl | ha
      · rw [hwrite, firstWord_rowOf hpos.le hlt]
        have hlength := length_decimal_le ⟨t.pid.le_toInt, t.pid.toInt_lt⟩
        simp only [Access.Fits, List.length_append, List.length_singleton]
        omega
      · exact (hmid a ha).1
  obtain ⟨rs, s, hsession, htracks⟩ := tracks_session (before ++ write :: mid) hfits
  have hcur : s.curProc = t.pid.toInt := by
    rw [htracks.curProc, List.append_cons, selection_append _ fun a ha => (hmid a ha).2,
      selection_concat, hwrite, firstWord_rowOf_selects buf hpos.le hlt, Option.getD_some]
  -- the open, and the read after it
  have hread : myRead k req.alloc req.len { s with isProcessed := 0 } =
      some (⟨text k t.pid.toInt ++ [0], (text k t.pid.toInt).length + 1⟩,
        { s with isProcessed := 1 }) := by
    rw [← hcur]
    refine myRead_granted rfl ?_
    show Granted req.alloc (text k s.curProc).length
    rw [hcur]
    exact granted_of_pid hfound hpos halloc
  refine ⟨rs ++ [.opened 0] ++ [.read ⟨text k t.pid.toInt ++ [0], (text k t.pid.toInt).length + 1⟩],
    { s with isProcessed := 1 }, ?_, ?_⟩
  · rw [List.append_cons _ Access.openFile [.readFile k req], session_concat, session_concat,
      hsession]
    simp only [Option.bind_some, Access.run, myOpen, Option.map_some, hread]
  · rw [List.getLast?_concat, text_of_pid hfound hpos]

/-- A kernel with one task, whose pid is 7. -/
def taskSeven : Kernel :=
  ⟨[taskInState 0], fun pid => if pid = 7 then some (taskInState 0) else none⟩

/-- Another client reads the file between the write and the open. -/
theorem processInfo_echo_seven :
    ∃ rs s, session ⟨-1, 0⟩
      ([] ++ .writeFile (.zero 50) (firstWord (rowOf (taskInState 0)) ++ [10]) ::
        [.readFile taskSeven ⟨4096, fun _ => true⟩] ++
          [.openFile, .readFile taskSeven ⟨4096, fun _ => true⟩]) =
          some (rs, s) ∧
      rs.getLast? = some (.read ⟨header ++ ruler ++ rowOf (taskInState 0) ++ [0],
        (header ++ ruler ++ rowOf (taskInState 0)).length + 1⟩) := by
  refine (processInfo_echo [] [.readFile taskSeven ⟨4096, fun _ => true⟩] ?_ ?_ (.zero 50)
    (List.mem_singleton_self _) ?_ ?_ ?_ rfl).2
  · exact fun a ha => absurd ha List.not_mem_nil
  · intro a ha
    rw [List.mem_singleton.mp ha]
    exact ⟨trivial, rfl⟩
  · rfl
  · decide
  · decide

end SchoolOS.ProcInfo
