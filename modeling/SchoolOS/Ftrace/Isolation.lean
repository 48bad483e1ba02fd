import SchoolOS.Ftrace.Sessions

/-!
# Isolation of sessions

`os_ftrace(p)` resets every variable but `file_name`. The variables at the end of a session are
therefore those of a fixed start, except for `file_name`, which is the path of the last `openat` of
the session or else the one that was there before (`exec_session`).
-/

namespace SchoolOS.Ftrace

/-- A call to one of the five hooked file system calls. -/
def Call.Hooked (c : Call) : Prop := ∀ pid, c.sys ≠ .osFtrace pid

/-- Whatever happened before `os_ftrace(p)`, and whatever other processes do in the session, the
report of a session in which `p` makes the calls `mine` is the same. -/
def Isolated (p : ℤ) (mine : List Call) : Prop :=
  ∀ before₁ before₂ start₁ start₂ session₁ session₂ stop, start₁.sys = .osFtrace p →
    start₂.sys = .osFtrace p → (∀ c ∈ session₁, c.Hooked) → (∀ c ∈ session₂, c.Hooked) →
    session₁.filter (fun c => c.pid = p) = mine → session₂.filter (fun c => c.pid = p) = mine →
    stop.pid = p → stop.sys = .osFtrace 0 →
    printed (before₁ ++ start₁ :: session₁) stop = printed (before₂ ++ start₂ :: session₂) stop

def Vars.withName (s : Vars) (fileName : CharArray 50) : Vars := { s with fileName := fileName }

/-- The variables after `os_ftrace(p)`, but for `file_name`. -/
def started (p : ℤ) : Vars := { Vars.loaded with curPid := p }

/-- `file_name` after calls of the traced process. -/
def lastPath (mine : List Call) (fileName : CharArray 50) : CharArray 50 :=
  mine.foldl (fun name c => c.path name) fileName

variable {p : ℤ} {mine session : List Call} {c : Call} {s : Vars}

theorem Call.Hooked.no_start (h : c.Hooked) (pid : ℤ) (hc : c.sys = .osFtrace pid) : pid = 0 :=
  absurd hc (h pid)

theorem curPid_run (h : c.Hooked) : (c.run s).1.curPid = s.curPid := by
  by_cases hp : c.pid = s.curPid
  · rw [run_of_eq hp h.no_start]
  · rw [run_of_ne hp h.no_start]

/-! ## The variables at the end of a session -/

/-- Only the calls of the traced process matter. -/
theorem exec_eq_exec_filter (h : ∀ c ∈ session, c.Hooked) :
    exec s session = exec s (session.filter fun c => c.pid = s.curPid) := by
  induction session generalizing s with
  | nil => rfl
  | cons c session ih =>
    obtain ⟨hc, hrest⟩ := List.forall_mem_cons.mp h
    rw [exec_cons, ih hrest, curPid_run hc]
    by_cases hp : c.pid = s.curPid
    · rw [List.filter_cons_of_pos (by simpa using hp), exec_cons]
    · rw [List.filter_cons_of_neg (by simpa using hp), run_of_ne hp hc.no_start]

/-- The calls of the traced process treat `file_name` apart from the other variables. -/
theorem exec_withName (h : ∀ c ∈ mine, c.Hooked) (hp : ∀ c ∈ mine, c.pid = s.curPid)
    (name : CharArray 50) :
    exec (s.withName name) mine = (exec s mine).withName (lastPath mine name) := by
  induction mine generalizing s name with
  | nil => rfl
  | cons c mine ih =>
    obtain ⟨hc, hrest⟩ := List.forall_mem_cons.mp h
    obtain ⟨hpc, hprest⟩ := List.forall_mem_cons.mp hp
    have hrun : (c.run (s.withName name)).1 = (c.run s).1.withName (c.path name) := by
      rw [run_of_eq hpc hc.no_start, run_of_eq (s := s.withName name) hpc hc.no_start]
      rfl
    rw [exec_cons, exec_cons, hrun, ih hrest (by rwa [curPid_run hc])]
    rfl

theorem run_start (hp : p ≠ 0) (hc : c.sys = .osFtrace p) :
    (c.run s).1 = (started p).withName s.fileName := by
  simp [Call.run, hc, myFtrace, hp, Vars.withName, started, Vars.loaded]

/-- The variables at the end of a session. -/
theorem exec_session {before : List Call} {start : Call} (hp : p ≠ 0)
    (hstart : start.sys = .osFtrace p)
    (h : ∀ c ∈ session, c.Hooked) (hmine : session.filter (fun c => c.pid = p) = mine) :
    exec .loaded (before ++ start :: session) =
      (exec (started p) mine).withName (lastPath mine (exec .loaded before).fileName) := by
  rw [exec_append, exec_cons, run_start hp hstart, exec_eq_exec_filter h]
  have hfilter : (session.filter fun c =>
      c.pid = ((started p).withName (exec .loaded before).fileName).curPid) = mine := hmine
  rw [hfilter]
  have hmem : ∀ c ∈ mine, c ∈ session ∧ c.pid = p := by
    intro c hc
    simpa [← hmine] using hc
  exact exec_withName (fun c hc => h c (hmem c hc).1) (fun c hc => (hmem c hc).2) _

/-! ## `file_name` -/

theorem path_of_isOpenat (h : c.isOpenat = true) (name name' : CharArray 50) :
    c.path name = c.path name' := by
  cases hsys : c.sys <;> simp_all

theorem path_of_not_isOpenat (h : c.isOpenat = false) (name : CharArray 50) :
    c.path name = name := by
  cases hsys : c.sys <;> simp_all

/-- An `openat` overwrites the name of an earlier session. -/
theorem lastPath_of_isOpenat (h : ∃ c ∈ mine, c.isOpenat = true) (name name' : CharArray 50) :
    lastPath mine name = lastPath mine name' := by
  induction mine generalizing name name' with
  | nil => simp at h
  | cons c mine ih =>
    show lastPath mine (c.path name) = lastPath mine (c.path name')
    by_cases hc : c.isOpenat = true
    · rw [path_of_isOpenat hc name name']
    · obtain ⟨c', hmem, hc'⟩ := h
      rcases List.mem_cons.mp hmem with rfl | hmem
      · exact absurd hc' hc
      · exact ih ⟨c', hmem, hc'⟩ _ _

theorem lastPath_of_not_isOpenat (h : ∀ c ∈ mine, c.isOpenat = false) (name : CharArray 50) :
    lastPath mine name = name := by
  induction mine with
  | nil => rfl
  | cons c mine ih =>
    obtain ⟨hc, hrest⟩ := List.forall_mem_cons.mp h
    show lastPath mine (c.path name) = name
    rw [path_of_not_isOpenat hc, ih hrest]

/-! ## Isolation -/

/-- An earlier session of the process 1, which opened a file. -/
def earlierSession : List Call :=
  [⟨1, ascii "app", .osFtrace 1⟩, ⟨1, ascii "app", .openat ((CharArray.zero 50).set 0 97) 3⟩]

theorem fileName_earlierSession :
    (exec .loaded earlierSession).fileName ≠ (exec .loaded []).fileName := by
  decide

/-- A session of `p` is isolated from what came before if and only if `p` opens a file in it. -/
theorem isolated_iff {p : ℤ} (hp : p ≠ 0) {mine : List Call}
    (hmine : ∀ c ∈ mine, c.pid = p ∧ c.Hooked) :
    Isolated p mine ↔ ∃ c ∈ mine, c.isOpenat = true := by
  constructor
  · intro hiso
    by_contra hnone
    have hnot : ∀ c ∈ mine, c.isOpenat = false := by
      intro c hc
      exact Bool.eq_false_of_not_eq_true fun hopen => hnone ⟨c, hc, hopen⟩
    have hhooked : ∀ c ∈ mine, c.Hooked := fun c hc => (hmine c hc).2
    have hfilter : mine.filter (fun c => c.pid = p) = mine := by
      rw [List.filter_eq_self]
      exact fun c hc => by simpa using (hmine c hc).1
    -- one run without an earlier session, and one with an earlier session that opened a file
    have hsame := hiso [] earlierSession ⟨p, [], .osFtrace p⟩ ⟨p, [], .osFtrace p⟩ mine mine
      ⟨p, [], .osFtrace 0⟩ rfl rfl hhooked hhooked hfilter hfilter rfl rfl
    unfold printed at hsame
    rw [exec_session hp rfl hhooked hfilter, exec_session hp rfl hhooked hfilter,
      lastPath_of_not_isOpenat hnot, lastPath_of_not_isOpenat hnot] at hsame
    simp only [Call.run, myFtrace, if_true, Option.some.injEq, Printk.report.injEq, Vars.report,
      Report.mk.injEq, Vars.withName] at hsame
    exact fileName_earlierSession hsame.2.1.symm
  · intro hopen before₁ before₂ start₁ start₂ session₁ session₂ stop hstart₁ hstart₂ h₁ h₂ hm₁ hm₂
      _ _
    unfold printed
    rw [exec_session hp hstart₁ h₁ hm₁, exec_session hp hstart₂ h₂ hm₂,
      lastPath_of_isOpenat hopen _ (exec .loaded before₂).fileName]

theorem isolated_openSession : Isolated 7 [⟨7, ascii "app", .openat (.zero 50) 3⟩] := by
  refine (isolated_iff (by decide) ?_).mpr ⟨_, List.mem_singleton_self _, rfl⟩
  rw [List.forall_mem_singleton]
  exact ⟨rfl, fun pid => Syscall.noConfusion⟩

/-- A session that only reads reports the file name of an earlier session. -/
theorem not_isolated_readSession : ¬ Isolated 7 [⟨7, ascii "app", .read 5⟩] := by
  intro hiso
  have hhooked : ∀ c ∈ [(⟨7, ascii "app", .read 5⟩ : Call)], c.Hooked := by
    rw [List.forall_mem_singleton]
    exact fun pid => Syscall.noConfusion
  have hsame :=
    hiso [] earlierSession ⟨7, ascii "app", .osFtrace 7⟩ ⟨7, ascii "app", .osFtrace 7⟩ _ _
    ⟨7, ascii "app", .osFtrace 0⟩ rfl rfl hhooked hhooked rfl rfl rfl rfl
  exact absurd hsame (by decide)

end SchoolOS.Ftrace
