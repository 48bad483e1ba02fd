import Mathlib.Algebra.Order.BigOperators.Group.List
import Mathlib.Data.List.Induction
import SchoolOS.Ftrace.Defs

/-!
# Reports

The counters at a report are described from the calls since the last `os_ftrace(pid)` (`Counts`). A
report is exact if no read or write of the traced process has failed since then, and only then: the
hooks add the error codes to the byte totals.
-/

namespace SchoolOS.Ftrace

/-! ## What a report should show -/

@[simp] def Call.isOpenat (c : Call) : Bool := c.sys matches .openat _ _

@[simp] def Call.isClose (c : Call) : Bool := c.sys matches .close _

@[simp] def Call.isRead (c : Call) : Bool := c.sys matches .read _

@[simp] def Call.isWrite (c : Call) : Bool := c.sys matches .write _

@[simp] def Call.isLseek (c : Call) : Bool := c.sys matches .lseek _

/-- The return value of a read. -/
@[simp] def Call.readRet (c : Call) : ℤ := match c.sys with
  | .read ret => ret
  | _ => 0

/-- The return value of a write. -/
@[simp] def Call.writeRet (c : Call) : ℤ := match c.sys with
  | .write ret => ret
  | _ => 0

/-- `file_name` after a call of the traced process. -/
@[simp] def Call.path (c : Call) (fileName : CharArray 50) : CharArray 50 := match c.sys with
  | .openat path _ => path
  | _ => fileName

/-- The number of calls of a kind that `p` made. -/
def calls (kind : Call → Bool) (p : ℤ) (session : List Call) : ℤ :=
  ((session.filter fun c => c.pid = p).countP kind : ℕ)

/-- The sum of the return values of `p`. -/
def returned (ret : Call → ℤ) (p : ℤ) (session : List Call) : ℤ :=
  ((session.filter fun c => c.pid = p).map ret).sum

/-- The bytes that `p` transferred. A failed call has a negative return value and transfers
nothing. -/
def transferred (ret : Call → ℤ) (p : ℤ) (session : List Call) : ℤ :=
  ((session.filter fun c => c.pid = p).map fun c => max (ret c) 0).sum

/-- `session` are the calls since the last `os_ftrace(p)` with `p ≠ 0`. -/
def LastStart (history : List Call) (p : ℤ) (session : List Call) : Prop :=
  ∃ before start, history = before ++ start :: session ∧ start.sys = .osFtrace p ∧ p ≠ 0 ∧
    ∀ c ∈ session, ∀ pid, c.sys = .osFtrace pid → pid = 0

/-- The report shows the calls of `p` and the bytes that they transferred. -/
structure Report.Exact (p : ℤ) (session : List Call) (r : Report) : Prop where
  curPid : r.curPid = p
  oCnt : r.oCnt = calls Call.isOpenat p session
  cCnt : r.cCnt = calls Call.isClose p session
  rCnt : r.rCnt = calls Call.isRead p session
  wCnt : r.wCnt = calls Call.isWrite p session
  lCnt : r.lCnt = calls Call.isLseek p session
  readB : r.readB = transferred Call.readRet p session
  writeB : r.writeB = transferred Call.writeRet p session

/-- The totals of a session are in the range of `int`. -/
structure TotalsInRange (p : ℤ) (session : List Call) : Prop where
  calls : ∀ kind, IntRange (calls kind p session)
  readRet : IntRange (returned Call.readRet p session)
  writeRet : IntRange (returned Call.writeRet p session)
  readB : IntRange (transferred Call.readRet p session)
  writeB : IntRange (transferred Call.writeRet p session)

/-! ## The counters in a session -/

/-- The variables after the calls of a session. -/
structure Counts (p : ℤ) (session : List Call) (s : Vars) : Prop where
  curPid : s.curPid = p
  oCnt : s.oCnt = toInt (calls Call.isOpenat p session)
  cCnt : s.cCnt = toInt (calls Call.isClose p session)
  rCnt : s.rCnt = toInt (calls Call.isRead p session)
  wCnt : s.wCnt = toInt (calls Call.isWrite p session)
  lCnt : s.lCnt = toInt (calls Call.isLseek p session)
  readB : s.readB = toInt (returned Call.readRet p session)
  writeB : s.writeB = toInt (returned Call.writeRet p session)

section Session

variable {p : ℤ} {session : List Call} {s : Vars} {c : Call}

theorem calls_concat (kind : Call → Bool) (p : ℤ) (session : List Call) (c : Call) :
    calls kind p (session ++ [c]) =
      calls kind p session + if c.pid = p ∧ kind c = true then 1 else 0 := by
  unfold calls
  rw [List.filter_append, List.countP_append, Nat.cast_add, List.filter_singleton]
  by_cases hp : c.pid = p
  · by_cases hk : kind c = true
    · simp [hp, hk]
    · simp [hp, hk]
  · simp [hp]

theorem returned_concat (ret : Call → ℤ) (p : ℤ) (session : List Call) (c : Call) :
    returned ret p (session ++ [c]) = returned ret p session + if c.pid = p then ret c else 0 := by
  unfold returned
  rw [List.filter_append, List.map_append, List.sum_append, List.filter_singleton]
  by_cases hp : c.pid = p
  · simp [hp]
  · simp [hp]

/-- A call of another process changes nothing, and is not counted. -/
theorem Counts.skip (h : Counts p session s) (hp : c.pid ≠ p) : Counts p (session ++ [c]) s := by
  have hcalls : ∀ kind, calls kind p (session ++ [c]) = calls kind p session := by
    intro kind
    simp [calls_concat, hp]
  have hreturned : ∀ ret, returned ret p (session ++ [c]) = returned ret p session := by
    intro ret
    simp [returned_concat, hp]
  refine ⟨h.curPid, ?_, ?_, ?_, ?_, ?_, ?_, ?_⟩
  all_goals simp only [hcalls, hreturned]
  exacts [h.oCnt, h.cCnt, h.rCnt, h.wCnt, h.lCnt, h.readB, h.writeB]

/-- The calls of other processes do not change the variables. -/
theorem run_of_ne (hp : c.pid ≠ s.curPid) (hc : ∀ pid, c.sys = .osFtrace pid → pid = 0) :
    (c.run s).1 = s := by
  have hne := Ne.symm hp
  cases hsys : c.sys with
  | osFtrace pid => simp [Call.run, hsys, myFtrace, hc pid hsys]
  | openat path ret => simp [Call.run, hsys, ftraceOpenat, hook, hne]
  | close ret => simp [Call.run, hsys, ftraceClose, hook, hne]
  | read ret => simp [Call.run, hsys, ftraceRead, hook, hne]
  | write ret => simp [Call.run, hsys, ftraceWrite, hook, hne]
  | lseek ret => simp [Call.run, hsys, ftraceLseek, hook, hne]

/-- What a call of the traced process does. -/
theorem run_of_eq (hp : c.pid = s.curPid) (hc : ∀ pid, c.sys = .osFtrace pid → pid = 0) :
    (c.run s).1 =
      { curPid := s.curPid
        fileName := c.path s.fileName
        readB := if c.isRead then toInt (s.readB + c.readRet) else s.readB
        writeB := if c.isWrite then toInt (s.writeB + c.writeRet) else s.writeB
        oCnt := if c.isOpenat then toInt (s.oCnt + 1) else s.oCnt
        cCnt := if c.isClose then toInt (s.cCnt + 1) else s.cCnt
        rCnt := if c.isRead then toInt (s.rCnt + 1) else s.rCnt
        wCnt := if c.isWrite then toInt (s.wCnt + 1) else s.wCnt
        lCnt := if c.isLseek then toInt (s.lCnt + 1) else s.lCnt } := by
  cases hsys : c.sys with
  | osFtrace pid => simp [Call.run, hsys, myFtrace, hc pid hsys]
  | openat path ret => simp [Call.run, hsys, ftraceOpenat, hook, hp]
  | close ret => simp [Call.run, hsys, ftraceClose, hook, hp]
  | read ret => simp [Call.run, hsys, ftraceRead, hook, hp]
  | write ret => simp [Call.run, hsys, ftraceWrite, hook, hp]
  | lseek ret => simp [Call.run, hsys, ftraceLseek, hook, hp]

theorem ite_toInt_add {x n d : ℤ} (h : x = toInt n) {b : Bool} (hd : b = false → d = 0) :
    (if b then toInt (x + d) else x) = toInt (n + d) := by
  cases b with
  | true => rw [if_pos rfl, h, toInt_toInt_add]
  | false => rw [if_neg Bool.false_ne_true, hd rfl, add_zero, h]

theorem ite_toInt_add_one {x n : ℤ} (h : x = toInt n) (b : Bool) :
    (if b then toInt (x + 1) else x) = toInt (n + if b then 1 else 0) := by
  cases b with
  | true => rw [if_pos rfl, if_pos rfl, h, toInt_toInt_add]
  | false => rw [if_neg Bool.false_ne_true, if_neg Bool.false_ne_true, add_zero, h]

theorem readRet_eq_zero (h : c.isRead = false) : c.readRet = 0 := by
  cases hsys : c.sys <;> simp_all

theorem writeRet_eq_zero (h : c.isWrite = false) : c.writeRet = 0 := by
  cases hsys : c.sys <;> simp_all

/-- One call of the session. -/
theorem Counts.step (h : Counts p session s) (hc : ∀ pid, c.sys = .osFtrace pid → pid = 0) :
    Counts p (session ++ [c]) (c.run s).1 := by
  by_cases hp : c.pid = p
  · rw [run_of_eq (by rw [hp, h.curPid]) hc]
    constructor
    all_goals simp only [calls_concat, returned_concat, hp, true_and, if_true]
    · exact h.curPid
    · exact ite_toInt_add_one h.oCnt _
    · exact ite_toInt_add_one h.cCnt _
    · exact ite_toInt_add_one h.rCnt _
    · exact ite_toInt_add_one h.wCnt _
    · exact ite_toInt_add_one h.lCnt _
    · exact ite_toInt_add h.readB readRet_eq_zero
    · exact ite_toInt_add h.writeB writeRet_eq_zero
  · rw [run_of_ne (by rwa [h.curPid]) hc]
    exact h.skip hp

/-- `os_ftrace(p)` starts a session. -/
theorem counts_start (s : Vars) (hp : p ≠ 0) (hc : c.sys = .osFtrace p) :
    Counts p [] (c.run s).1 := by
  constructor
  all_goals simp [Call.run, hc, myFtrace, hp, calls, returned]

theorem exec_append (s : Vars) (h₁ h₂ : List Call) : exec s (h₁ ++ h₂) = exec (exec s h₁) h₂ :=
  List.foldl_append

theorem exec_cons (s : Vars) (c : Call) (h : List Call) : exec s (c :: h) = exec (c.run s).1 h :=
  rfl

/-- The calls of a session. -/
theorem counts_exec (h : Counts p [] s)
    (hc : ∀ c ∈ session, ∀ pid, c.sys = .osFtrace pid → pid = 0) :
    Counts p session (exec s session) := by
  induction session using List.reverseRecOn with
  | nil => exact h
  | append_singleton session c ih =>
    rw [exec_append]
    have ih := ih fun c' hc' => hc c' (List.mem_append_left _ hc')
    exact ih.step (hc c (List.mem_append_right _ (List.mem_singleton_self c)))

theorem LastStart.counts {history : List Call} (h : LastStart history p session) (s : Vars) :
    Counts p session (exec s history) := by
  obtain ⟨before, start, rfl, hstart, hp, hc⟩ := h
  rw [exec_append, exec_cons]
  exact counts_exec (counts_start _ hp hstart) hc

end Session

/-! ## Exact reports -/

/-- The error codes of failed calls are what the sum of the return values has less than the bytes
transferred. -/
theorem returned_eq_transferred_iff (ret : Call → ℤ) (p : ℤ) (session : List Call) :
    returned ret p session = transferred ret p session ↔
      ∀ c ∈ session, c.pid = p → 0 ≤ ret c := by
  have hmem : (∀ c ∈ session, c.pid = p → 0 ≤ ret c) ↔
      ∀ c ∈ session.filter fun c => c.pid = p, 0 ≤ ret c := by
    simp [List.mem_filter]
  unfold returned transferred
  rw [hmem]
  generalize session.filter (fun c => c.pid = p) = mine
  have hle : ∀ l : List Call, (l.map ret).sum ≤ (l.map fun c => max (ret c) 0).sum := by
    intro l
    exact List.sum_le_sum fun c _ => le_max_left _ _
  induction mine with
  | nil => simp
  | cons c mine ih =>
    have hrest := hle mine
    have hmax := le_max_left (ret c) 0
    rw [List.map_cons, List.map_cons, List.sum_cons, List.sum_cons, List.forall_mem_cons]
    constructor
    · intro h
      have hc : ret c = max (ret c) 0 := by omega
      exact ⟨hc ▸ le_max_right _ _, ih.mp (by omega)⟩
    · rintro ⟨hc, hall⟩
      rw [max_eq_left hc, ih.mpr hall]

/-- `my_ftrace` prints a report for `pid == 0`. In a history whose totals are in the range of `int`,
the report is exact if and only if no read or write of the traced process failed in the session. -/
theorem report_exact_iff {history : List Call} {p : ℤ} {session : List Call}
    (h : LastStart history p session) (hrange : TotalsInRange p session) {c : Call}
    (hc : c.sys = .osFtrace 0) :
    ∃ r, printed history c = some (.report r) ∧
      (r.Exact p session ↔ ∀ c ∈ session, c.pid = p → 0 ≤ c.readRet ∧ 0 ≤ c.writeRet) := by
  have hcounts := h.counts Vars.loaded
  refine ⟨(exec .loaded history).report c.comm, by simp [printed, Call.run, hc, myFtrace], ?_⟩
  have hsplit : (∀ c ∈ session, c.pid = p → 0 ≤ c.readRet ∧ 0 ≤ c.writeRet) ↔
      returned Call.readRet p session = transferred Call.readRet p session ∧
        returned Call.writeRet p session = transferred Call.writeRet p session := by
    rw [returned_eq_transferred_iff, returned_eq_transferred_iff]
    constructor
    · intro hall
      exact ⟨fun c hc hp => (hall c hc hp).1, fun c hc hp => (hall c hc hp).2⟩
    · rintro ⟨hread, hwrite⟩ c hc hp
      exact ⟨hread c hc hp, hwrite c hc hp⟩
  rw [hsplit]
  constructor
  · intro hexact
    refine ⟨?_, ?_⟩
    · rw [← hexact.readB, ← toInt_eq_self hrange.readRet]
      exact hcounts.readB.symm
    · rw [← hexact.writeB, ← toInt_eq_self hrange.writeRet]
      exact hcounts.writeB.symm
  · rintro ⟨hread, hwrite⟩
    constructor
    · exact hcounts.curPid
    · exact hcounts.oCnt.trans (toInt_eq_self (hrange.calls _))
    · exact hcounts.cCnt.trans (toInt_eq_self (hrange.calls _))
    · exact hcounts.rCnt.trans (toInt_eq_self (hrange.calls _))
    · exact hcounts.wCnt.trans (toInt_eq_self (hrange.calls _))
    · exact hcounts.lCnt.trans (toInt_eq_self (hrange.calls _))
    · exact (hcounts.readB.trans (toInt_eq_self hrange.readRet)).trans hread
    · exact (hcounts.writeB.trans (toInt_eq_self hrange.writeRet)).trans hwrite

/-- A number of calls is in the range of `int`, unless there are too many. -/
theorem intRange_calls {session : List Call} (hlen : session.length < 2 ^ 31) (kind : Call → Bool)
    (p : ℤ) :
    IntRange (calls kind p session) := by
  have hcount := List.countP_le_length (p := kind) (l := session.filter fun c => c.pid = p)
  have hfilter := List.length_filter_le (fun c : Call => c.pid = p) session
  unfold calls
  exact ⟨by omega, by omega⟩

/-- The calls of the second session of `restartHistory`: a read of the process 7, and one of the
process 8 that fails. -/
def restartSession : List Call := [⟨7, ascii "app", .read 5⟩, ⟨8, ascii "sh", .read (-9)⟩]

/-- The process 7 writes, starts again, and reads. -/
def restartHistory : List Call :=
  [⟨7, ascii "app", .osFtrace 7⟩, ⟨7, ascii "app", .write 3⟩, ⟨8, ascii "sh", .close 0⟩] ++
    ⟨7, ascii "app", .osFtrace 7⟩ :: restartSession

theorem totalsInRange_restartSession : TotalsInRange 7 restartSession where
  calls kind := intRange_calls (by decide) kind 7
  readRet := by simp [returned, IntRange, restartSession]
  writeRet := by simp [returned, IntRange, restartSession]
  readB := by simp [transferred, IntRange, restartSession]
  writeB := by simp [transferred, IntRange, restartSession]

theorem report_exact_iff_restartHistory :
    ∃ r, printed restartHistory ⟨7, ascii "app", .osFtrace 0⟩ = some (.report r) ∧
      r.Exact 7 restartSession := by
  have hstart : LastStart restartHistory 7 restartSession :=
    ⟨_, _, rfl, rfl, by decide, by simp [restartSession]⟩
  obtain ⟨r, hr, hexact⟩ := report_exact_iff hstart totalsInRange_restartSession
    (c := ⟨7, ascii "app", .osFtrace 0⟩) rfl
  exact ⟨r, hr, hexact.mpr (by simp [restartSession])⟩

/-- A session of the process 7 with one read. -/
def readHistory (ret : ℤ) : List Call :=
  [⟨7, ascii "app", .osFtrace 7⟩, ⟨7, ascii "app", .read ret⟩]

theorem lastStart_readHistory (ret : ℤ) :
    LastStart (readHistory ret) 7 [⟨7, ascii "app", .read ret⟩] :=
  ⟨[], _, rfl, rfl, by decide, by simp⟩

theorem totalsInRange_readHistory {ret : ℤ} (h : -2 ^ 31 ≤ ret ∧ ret < 2 ^ 31) :
    TotalsInRange 7 [⟨7, ascii "app", .read ret⟩] where
  calls kind := intRange_calls (by simp) kind 7
  readRet := by simpa [returned, IntRange] using h
  writeRet := by simp [returned, IntRange]
  readB := by
    simp [transferred, IntRange]
    omega
  writeB := by simp [transferred, IntRange]

/-- A read that fails with `-EBADF` is reported as `-9` bytes. -/
theorem report_adds_errorCode :
    LastStart (readHistory (-9)) 7 [⟨7, ascii "app", .read (-9)⟩] ∧
      TotalsInRange 7 [⟨7, ascii "app", .read (-9)⟩] ∧
      ∃ r, printed (readHistory (-9)) ⟨7, ascii "app", .osFtrace 0⟩ = some (.report r) ∧
        r.readB = -9 ∧ ¬ r.Exact 7 [⟨7, ascii "app", .read (-9)⟩] := by
  refine ⟨lastStart_readHistory _, totalsInRange_readHistory (by decide), _, rfl, rfl, ?_⟩
  intro hexact
  have hread := hexact.readB
  simp [transferred] at hread
  exact absurd hread (by decide)

end SchoolOS.Ftrace
