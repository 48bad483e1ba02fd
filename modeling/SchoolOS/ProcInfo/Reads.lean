import SchoolOS.ProcInfo.Listing

/-!
# Reading the listing

`my_read` ends a file by a global flag: the first call after an open returns the whole text,
whatever the length of the buffer, and every further call returns `0`. The terminator is part of
what it returns, so the contract of `read` is broken by the first read (`read_contract_iff`). For
several clients, `undisturbed_iff` says when they do not disturb each other.
-/

namespace SchoolOS.ProcInfo

variable {k : Kernel} {alloc : ℕ → Bool} {len : ℕ} {s : Globals}

theorem text_ne_nil (k : Kernel) (curProc : ℤ) : text k curProc ≠ [] := by
  have hlength : 0 < (text k curProc).length := by
    rw [text, List.length_append, List.length_append, length_header]
    omega
  exact List.ne_nil_of_length_pos hlength

/-! ## One read -/

theorem myRead_granted (h : s.isProcessed = 0)
    (hgranted : Granted alloc (text k s.curProc).length) :
    myRead k alloc len s =
      some (⟨text k s.curProc ++ [0], (text k s.curProc).length + 1⟩,
        { s with isProcessed := 1 }) := by
  obtain ⟨b, hb, hstr⟩ := (build_eq k alloc s.curProc).1 hgranted
  unfold myRead
  rw [if_neg (by simp [h]), hb]
  simp only [hstr, h]
  rw [List.take_of_length_le (by simp)]
  rfl

theorem myRead_refused (h : s.isProcessed = 0)
    (hgranted : ¬ Granted alloc (text k s.curProc).length) :
    myRead k alloc len s = some (⟨[], 0⟩, s) := by
  unfold myRead
  rw [if_neg (by simp [h]), (build_eq k alloc s.curProc).2 hgranted]

theorem myRead_processed (h : s.isProcessed ≠ 0) : myRead k alloc len s = some (⟨[], 0⟩, s) :=
  if_pos h

/-- A read never overflows a buffer of the kernel. -/
theorem myRead_ne_none (k : Kernel) (alloc : ℕ → Bool) (len : ℕ) (s : Globals) :
    ∃ r, myRead k alloc len s = some r := by
  by_cases h : s.isProcessed = 0
  · by_cases hgranted : Granted alloc (text k s.curProc).length
    · exact ⟨_, myRead_granted h hgranted⟩
    · exact ⟨_, myRead_refused h hgranted⟩
  · exact ⟨_, myRead_processed h⟩

/-! ## The reads of one client -/

/-- A call of `read`: the length of the user's buffer, and the memory that is granted meanwhile. -/
structure Request where
  len : ℕ
  alloc : ℕ → Bool

/-- The results of consecutive reads. -/
def reads (k : Kernel) : Globals → List Request → Option (List Read)
  | _, [] => some []
  | s, req :: reqs => do
    let (r, s) ← myRead k req.alloc req.len s
    let rs ← reads k s reqs
    some (r :: rs)

/-- The contract of `read`: no call exceeds the buffer, the bytes of the results other than `0` are
the beginning of the file, and they are the whole file when the first `0` is returned. -/
structure Contract (file : Bytes) (reqs : List Request) (rs : List Read) : Prop where
  bounded : List.Forall₂ (fun req r => r.copied.length ≤ req.len ∧ r.ret ≤ req.len) reqs rs
  initial : ∀ before after, rs = before ++ after → (∀ r ∈ before, r.ret ≠ 0) →
    before.flatMap (·.copied) <+: file
  complete : ∀ before r after, rs = before ++ r :: after → r.ret = 0 → (∀ r' ∈ before, r'.ret ≠ 0) →
    before.flatMap (·.copied) = file

theorem reads_ne_none (k : Kernel) (s : Globals) (reqs : List Request) :
    ∃ rs, reads k s reqs = some rs := by
  induction reqs generalizing s with
  | nil => exact ⟨[], rfl⟩
  | cons req reqs ih =>
    obtain ⟨r, hr⟩ := myRead_ne_none k req.alloc req.len s
    obtain ⟨rs, hrs⟩ := ih r.2
    exact ⟨r.1 :: rs, by simp [reads, hr, hrs]⟩

/-- A first result `0` breaks the contract. -/
theorem not_contract_of_zero {reqs : List Request} {rs : List Read} {curProc : ℤ} :
    ¬ Contract (text k curProc) reqs (⟨[], 0⟩ :: rs) := by
  intro h
  have hempty := h.complete [] ⟨[], 0⟩ rs rfl rfl (by simp)
  exact text_ne_nil k curProc hempty.symm

/-- A first result with the terminator breaks the contract, whatever the length of the buffer. -/
theorem not_contract_of_terminated {file : Bytes} {reqs : List Request} {rs : List Read} :
    ¬ Contract file reqs (⟨file ++ [0], file.length + 1⟩ :: rs) := by
  intro h
  have hinitial := h.initial [⟨file ++ [0], file.length + 1⟩] rs rfl (by simp)
  have hle := hinitial.length_le
  simp only [List.flatMap_cons, List.flatMap_nil, List.append_nil, List.length_append,
    List.length_singleton] at hle
  omega

theorem contract_nil (file : Bytes) : Contract file [] [] where
  bounded := .nil
  initial before after heq _ := by
    rw [(List.append_eq_nil_iff.mp heq.symm).1]
    exact List.nil_prefix
  complete before r after heq _ _ := by simp at heq

/-- The results after an open always exist. They obey the contract only if there is no read at all:
the first read already returns a byte that is not in the text, or `0` before the text. -/
theorem read_contract_iff (k : Kernel) (s : Globals) (reqs : List Request) :
    ∃ rs, reads k (myOpen s).1 reqs = some rs ∧
      (Contract (text k s.curProc) reqs rs ↔ reqs = []) := by
  have hopen : (myOpen s).1.isProcessed = 0 := rfl
  cases reqs with
  | nil => exact ⟨[], rfl, iff_of_true (contract_nil _) rfl⟩
  | cons req reqs =>
    by_cases hgranted : Granted req.alloc (text k s.curProc).length
    · -- the first read returns the text and its terminator
      obtain ⟨rs, hrs⟩ := reads_ne_none k { (myOpen s).1 with isProcessed := 1 } reqs
      refine ⟨⟨text k s.curProc ++ [0], (text k s.curProc).length + 1⟩ :: rs, ?_, ?_⟩
      · rw [reads, myRead_granted hopen hgranted]
        simp only [Option.bind_eq_bind, Option.bind_some, hrs]
        rfl
      · exact iff_of_false not_contract_of_terminated (by simp)
    · -- the first read returns `0`
      obtain ⟨rs, hrs⟩ := reads_ne_none k (myOpen s).1 reqs
      refine ⟨⟨[], 0⟩ :: rs, ?_, ?_⟩
      · rw [reads, myRead_refused hopen hgranted]
        simp only [Option.bind_eq_bind, Option.bind_some, hrs]
      · exact iff_of_false not_contract_of_zero (by simp)

/-- A kernel without tasks. -/
def noTasks : Kernel := ⟨[], fun _ => none⟩

theorem length_text_noTasks : (text noTasks (-1)).length = 212 := by
  simp [text, rows, selected, noTasks, length_header, length_ruler]

/-- A buffer of one byte receives the 213 bytes of the header and the terminator. -/
theorem read_exceeds_buffer :
    ∃ r, reads noTasks (myOpen ⟨-1, 0⟩).1 [⟨1, fun _ => true⟩] = some [r] ∧ r.ret = 213 ∧
      r.copied.length = 213 ∧ ¬ Contract (text noTasks (-1)) [⟨1, fun _ => true⟩] [r] := by
  refine ⟨⟨text noTasks (-1) ++ [0], (text noTasks (-1)).length + 1⟩, ?_, ?_, ?_, ?_⟩
  · rw [reads, myRead_granted rfl ⟨rfl, fun _ _ => rfl⟩]
    rfl
  · exact congrArg (· + 1) length_text_noTasks
  · rw [List.length_append, length_text_noTasks]
    rfl
  · intro h
    have hbound := (List.forall₂_cons.mp h.bounded).1.2
    rw [length_text_noTasks] at hbound
    exact absurd hbound (by decide)

/-! ## Several clients -/

/-- A call of a client. -/
inductive Call
  | openFile (client : ℕ)
  | readFile (client : ℕ) (k : Kernel) (req : Request)

def Call.client : Call → ℕ
  | .openFile c => c
  | .readFile c _ _ => c

def Call.run (s : Globals) : Call → Option Globals
  | .openFile _ => some (myOpen s).1
  | .readFile _ k req => (myRead k req.alloc req.len s).map Prod.snd

/-- The global variables after a history of calls. -/
def exec (s : Globals) (history : List Call) : Option Globals := history.foldlM Call.run s

/-- The result of a read after a history. -/
def readAfter (s : Globals) (history : List Call) (k : Kernel) (req : Request) : Option Read := do
  let s ← exec s history
  (myRead k req.alloc req.len s).map Prod.fst

/-- The client has opened the file and made no call since. -/
def Opened (c : ℕ) (history : List Call) : Prop :=
  ∃ pre mid, history = pre ++ .openFile c :: mid ∧ ∀ call ∈ mid, call.client ≠ c

/-- The client has opened the file and then made one read and no other call. -/
def ReadOnce (c : ℕ) (history : List Call) : Prop :=
  ∃ pre k req mid, history = pre ++ .readFile c k req :: mid ∧ Opened c pre ∧
    ∀ call ∈ mid, call.client ≠ c

/-- Every client gets the complete listing from its first read after an open, and `0` from the
next. -/
def Undisturbed (s : Globals) (history : List Call) : Prop :=
  ∀ before c k req after, history = before ++ .readFile c k req :: after →
    (Opened c before → ∃ r, readAfter s before k req = some r ∧ text k s.curProc <+: r.copied) ∧
    (ReadOnce c before → ∃ r, readAfter s before k req = some r ∧ r.ret = 0)

/-- The call right before the first read of a client is an open, of any client, and the call right
before the next one is a read, of any client. -/
def Orderly (history : List Call) : Prop :=
  ∀ before c k req after, history = before ++ .readFile c k req :: after →
    (Opened c before → ∃ pre c', before = pre ++ [.openFile c']) ∧
    (ReadOnce c before → ∃ pre c' k' req', before = pre ++ [.readFile c' k' req'])

/-- All allocations of the reads succeed. -/
def Allocates (history : List Call) : Prop :=
  ∀ c k req, .readFile c k req ∈ history → ∀ n, req.alloc n = true

section Clients

variable {history before : List Call} {c : ℕ} {req : Request}

theorem exec_concat (s : Globals) (history : List Call) (call : Call) :
    exec s (history ++ [call]) = (exec s history).bind call.run := by
  simp [exec, List.foldlM_append]

theorem curProc_run {s s' : Globals} {call : Call} (h : call.run s = some s') :
    s'.curProc = s.curProc := by
  cases call with
  | openFile c =>
    rw [← Option.some.inj h]
    rfl
  | readFile c k req =>
    simp only [Call.run] at h
    by_cases hflag : s.isProcessed = 0
    · by_cases hgranted : Granted req.alloc (text k s.curProc).length
      · rw [myRead_granted hflag hgranted] at h
        rw [← Option.some.inj h]
      · rw [myRead_refused hflag hgranted] at h
        rw [← Option.some.inj h]
    · rw [myRead_processed hflag] at h
      rw [← Option.some.inj h]

theorem run_ne_none (s : Globals) (call : Call) : ∃ s', call.run s = some s' := by
  cases call with
  | openFile c => exact ⟨_, rfl⟩
  | readFile c k req =>
    obtain ⟨r, hr⟩ := myRead_ne_none k req.alloc req.len s
    exact ⟨r.2, by rw [Call.run, hr, Option.map_some]⟩

/-- No call fails, and none changes `cur_proc`. -/
theorem exec_ne_none (s : Globals) (history : List Call) :
    ∃ s', exec s history = some s' ∧ s'.curProc = s.curProc := by
  induction history using List.reverseRecOn with
  | nil => exact ⟨s, rfl, rfl⟩
  | append_singleton history call ih =>
    obtain ⟨s', hs', hcur⟩ := ih
    obtain ⟨s'', hs''⟩ := run_ne_none s' call
    rw [exec_concat, hs', Option.bind_some]
    exact ⟨s'', hs'', by rw [curProc_run hs'', hcur]⟩

/-- A read sets the flag. -/
theorem isProcessed_readFile {s s' : Globals} (halloc : ∀ n, req.alloc n = true)
    (h : (Call.readFile c k req).run s = some s') : s'.isProcessed ≠ 0 := by
  simp only [Call.run] at h
  by_cases hflag : s.isProcessed = 0
  · rw [myRead_granted hflag (granted_of_alloc halloc _)] at h
    rw [← Option.some.inj h]
    exact one_ne_zero
  · rw [myRead_processed hflag] at h
    rw [← Option.some.inj h]
    exact hflag

/-- A read right after an open gets the listing. -/
theorem readAfter_openFile (s : Globals) (pre : List Call) (c : ℕ)
    (halloc : ∀ n, req.alloc n = true) :
    readAfter s (pre ++ [.openFile c]) k req =
      some ⟨text k s.curProc ++ [0], (text k s.curProc).length + 1⟩ := by
  obtain ⟨s', hs', hcur⟩ := exec_ne_none s pre
  have hflag : (myOpen s').1.isProcessed = 0 := rfl
  have hcur' : (myOpen s').1.curProc = s.curProc := hcur
  unfold readAfter
  rw [exec_concat, hs', Option.bind_some, Call.run, Option.bind_eq_bind, Option.bind_some,
    myRead_granted hflag (granted_of_alloc halloc _), Option.map_some, hcur']

/-- A read right after a read gets nothing. -/
theorem readAfter_readFile (s : Globals) (pre : List Call) (c : ℕ) {k' : Kernel} {req' : Request}
    (halloc : ∀ n, req'.alloc n = true) :
    readAfter s (pre ++ [.readFile c k' req']) k req = some ⟨[], 0⟩ := by
  obtain ⟨s', hs', -⟩ := exec_ne_none s pre
  obtain ⟨s'', hs''⟩ := run_ne_none s' (.readFile c k' req')
  unfold readAfter
  rw [exec_concat, hs', Option.bind_some, hs'', Option.bind_eq_bind, Option.bind_some,
    myRead_processed (isProcessed_readFile halloc hs''), Option.map_some]

theorem Opened.ne_nil (h : Opened c history) : history ≠ [] := by
  obtain ⟨pre, mid, rfl, -⟩ := h
  simp

theorem ReadOnce.ne_nil (h : ReadOnce c history) : history ≠ [] := by
  obtain ⟨pre, k, req, mid, rfl, -⟩ := h
  simp

/-- Which of the two results a read gets depends on the call right before it. -/
theorem readAfter_cases (s : Globals) (hne : before ≠ []) (hbefore : Allocates before)
    (halloc : ∀ n, req.alloc n = true) :
    (∃ pre c', before = pre ++ [.openFile c'] ∧ readAfter s before k req =
        some ⟨text k s.curProc ++ [0], (text k s.curProc).length + 1⟩) ∨
      ∃ pre c' k' req', before = pre ++ [.readFile c' k' req'] ∧
        readAfter s before k req = some ⟨[], 0⟩ := by
  obtain ⟨pre, call, rfl⟩ := (List.eq_nil_or_concat before).resolve_left hne
  cases call with
  | openFile c' =>
    exact Or.inl ⟨pre, c', by simp, by simpa using readAfter_openFile s pre c' halloc⟩
  | readFile c' k' req' =>
    have halloc' := hbefore c' k' req' (by simp)
    exact Or.inr ⟨pre, c', k', req', by simp, by simpa using readAfter_readFile s pre c' halloc'⟩

/-- The clients do not disturb each other if and only if their calls are interleaved in an orderly
way. -/
theorem undisturbed_iff (s : Globals) {history : List Call} (halloc : Allocates history) :
    Undisturbed s history ↔ Orderly history := by
  have hmem : ∀ {before c k req after}, history = before ++ .readFile c k req :: after →
      Allocates before ∧ ∀ n, req.alloc n = true := by
    rintro before c k req after rfl
    refine ⟨fun c' k' req' hmem => halloc c' k' req' (List.mem_append_left _ hmem), ?_⟩
    exact halloc c k req (List.mem_append_right _ (List.mem_cons_self))
  constructor
  · intro hund before c k req after heq
    obtain ⟨hfirst, hnext⟩ := hund before c k req after heq
    obtain ⟨hbefore, hreq⟩ := hmem heq
    constructor
    · intro hopened
      rcases readAfter_cases (k := k) s hopened.ne_nil hbefore hreq with
        ⟨pre, c', hpre, -⟩ | ⟨pre, c', k', req', -, hres⟩
      · exact ⟨pre, c', hpre⟩
      · obtain ⟨r, hr, htext⟩ := hfirst hopened
        rw [hres, Option.some.injEq] at hr
        rw [← hr, List.prefix_nil] at htext
        exact absurd htext (text_ne_nil k s.curProc)
    · intro hread
      rcases readAfter_cases (k := k) s hread.ne_nil hbefore hreq with
        ⟨pre, c', -, hres⟩ | ⟨pre, c', k', req', hpre, -⟩
      · obtain ⟨r, hr, hzero⟩ := hnext hread
        rw [hres, Option.some.injEq] at hr
        rw [← hr] at hzero
        exact absurd hzero (Nat.succ_ne_zero _)
      · exact ⟨pre, c', k', req', hpre⟩
  · intro hord before c k req after heq
    obtain ⟨hfirst, hnext⟩ := hord before c k req after heq
    obtain ⟨hbefore, hreq⟩ := hmem heq
    constructor
    · intro hopened
      obtain ⟨pre, c', rfl⟩ := hfirst hopened
      exact ⟨_, readAfter_openFile s pre c' hreq, List.prefix_append _ _⟩
    · intro hread
      obtain ⟨pre, c', k', req', rfl⟩ := hnext hread
      exact ⟨_, readAfter_readFile s pre c' (hbefore c' k' req' (by simp)), rfl⟩

end Clients

/-- A read with enough memory and a large buffer. -/
def largeRead (c : ℕ) : Call := .readFile c noTasks ⟨4096, fun _ => true⟩

/-- The last call of a client that has opened the file is the open. -/
theorem Opened.find? {history : List Call} {c : ℕ} (h : Opened c history) :
    history.reverse.find? (fun call => call.client = c) = some (.openFile c) := by
  obtain ⟨pre, mid, rfl, hmid⟩ := h
  rw [List.reverse_append, List.reverse_cons, List.append_assoc, List.find?_append]
  have hnone : mid.reverse.find? (fun call => call.client = c) = none := by
    rw [List.find?_eq_none]
    intro call hcall
    simpa using hmid call (List.mem_reverse.mp hcall)
  rw [hnone, Option.none_or, List.singleton_append, List.find?_cons_of_pos (by simp [Call.client])]

theorem ReadOnce.exists_read {history : List Call} {c : ℕ} (h : ReadOnce c history) :
    ∃ call ∈ history, call.client = c ∧ ∀ c', call ≠ .openFile c' := by
  obtain ⟨pre, k, req, mid, rfl, -⟩ := h
  exact ⟨.readFile c k req, by simp, rfl, fun c' => Call.noConfusion⟩

/-- Two clients that read to the end. Each of them opens the file before the other one has finished,
but right before it reads. -/
def orderlyClients : List Call :=
  [.openFile 1, largeRead 1, .openFile 2, largeRead 2, largeRead 1, largeRead 2]

theorem orderly_orderlyClients : Orderly orderlyClients := by
  intro before c k req after heq
  have hbefore : before = orderlyClients.take before.length := by rw [heq, List.take_left]
  have hcall : orderlyClients[before.length]? = some (.readFile c k req) := by
    rw [heq, List.getElem?_append_right le_rfl, Nat.sub_self, List.getElem?_cons_zero]
  rw [hbefore]
  generalize before.length = i at hcall
  -- behind an open the client has not read, and behind a read it has not just opened the file
  match i, hcall with
  | 1, hcall =>
    obtain ⟨rfl, -⟩ := Call.readFile.inj (Option.some.inj hcall)
    refine ⟨fun _ => ⟨[], 1, rfl⟩, fun hread => ?_⟩
    obtain ⟨call, hmem, -, hnot⟩ := hread.exists_read
    exact absurd (List.mem_singleton.mp hmem) (hnot 1)
  | 3, hcall =>
    obtain ⟨rfl, -⟩ := Call.readFile.inj (Option.some.inj hcall)
    refine ⟨fun _ => ⟨[.openFile 1, largeRead 1], 2, rfl⟩, fun hread => ?_⟩
    obtain ⟨call, hmem, hclient, hnot⟩ := hread.exists_read
    simp only [orderlyClients, List.take_succ_cons, List.take_zero, List.mem_cons, List.not_mem_nil,
      or_false] at hmem
    rcases hmem with rfl | rfl | rfl
    · exact absurd rfl (hnot 1)
    · exact absurd hclient (by decide)
    · exact absurd rfl (hnot 2)
  | 4, hcall =>
    obtain ⟨rfl, -⟩ := Call.readFile.inj (Option.some.inj hcall)
    refine ⟨fun hopened => ?_, fun _ => ⟨[.openFile 1, largeRead 1, .openFile 2], 2, _, _, rfl⟩⟩
    exact Call.noConfusion (Option.some.inj hopened.find?)
  | 5, hcall =>
    obtain ⟨rfl, -⟩ := Call.readFile.inj (Option.some.inj hcall)
    refine ⟨fun hopened => ?_, fun _ =>
      ⟨[.openFile 1, largeRead 1, .openFile 2, largeRead 2], 1, _, _, rfl⟩⟩
    exact Call.noConfusion (Option.some.inj hopened.find?)

theorem undisturbed_orderlyClients :
    Allocates orderlyClients ∧ Undisturbed ⟨-1, 0⟩ orderlyClients := by
  have halloc : Allocates orderlyClients := by
    intro c k req hmem n
    simp only [orderlyClients, largeRead, List.mem_cons, List.not_mem_nil, or_false, reduceCtorEq,
      false_or, Call.readFile.injEq] at hmem
    rcases hmem with h | h | h | h
    · rw [h.2.2]
    · rw [h.2.2]
    · rw [h.2.2]
    · rw [h.2.2]
  exact ⟨halloc, (undisturbed_iff _ halloc).mpr orderly_orderlyClients⟩

/-- Two clients that open the file before either of them reads it. -/
def twoClients : List Call := [.openFile 1, .openFile 2, largeRead 1, largeRead 2]

/-- The second client gets nothing from its first read. -/
theorem disturbed_twoClients :
    readAfter ⟨-1, 0⟩ [.openFile 1, .openFile 2, largeRead 1] noTasks ⟨4096, fun _ => true⟩ =
        some ⟨[], 0⟩ ∧
      ¬ Undisturbed ⟨-1, 0⟩ twoClients := by
  have hres :
    readAfter ⟨-1, 0⟩ [.openFile 1, .openFile 2, largeRead 1] noTasks ⟨4096, fun _ => true⟩ =
      some ⟨[], 0⟩ :=
    readAfter_readFile ⟨-1, 0⟩ [.openFile 1, .openFile 2] 1 fun _ => rfl
  refine ⟨hres, fun hund => ?_⟩
  have hopened : Opened 2 [.openFile 1, .openFile 2, largeRead 1] :=
    ⟨[.openFile 1], [largeRead 1], rfl, by simp [largeRead, Call.client]⟩
  obtain ⟨r, hr, htext⟩ :=
    (hund [.openFile 1, .openFile 2, largeRead 1] 2 noTasks _ [] rfl).1 hopened
  rw [hres, Option.some.injEq] at hr
  rw [← hr, List.prefix_nil] at htext
  exact absurd htext (text_ne_nil _ _)

end SchoolOS.ProcInfo
