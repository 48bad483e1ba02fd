import Mathlib.Algebra.BigOperators.Ring.Finset
import Mathlib.Data.Multiset.Bind
import Mathlib.Data.ZMod.Basic
import SchoolOS.ForkThread.Fork
import SchoolOS.Lib.Runs

/-!
# Every run of the process tree

`fork_ends` says what every run of the processes leads to. The proof follows two quantities that no
step changes: the indices of the pairs that are read or still fall to a process, and the sum of what
the processes hold, modulo `2^8`. The processes form a tree in which a parent outlives its children,
so the first process is the last to exit, and below a process that waits there is always one that
can go on.
-/

namespace SchoolOS.ForkThread.Fork

/-! ## What a process holds -/

/-- The indices of the pairs that a process at round `i` and its descendants are to read, with `r`
rounds left. -/
def indices : (r i idx : ℕ) → Multiset ℕ
  | 0, _, idx => {idx}
  | r + 1, i, idx => indices r (i + 1) idx + indices r (i + 1) (idx + 2 ^ i)

/-- The indices that a process still owes. -/
def Proc.owed (p : Proc) : Multiset ℕ :=
  match p.pc with
  | .forking i => indices (rounds - i) i p.idx
  | .reading => {p.idx}
  | .reaping _ => 0
  | .exited _ => 0

/-- What a process contributes to the sum, modulo `2^8`. -/
def Proc.value (file : List ℤ) (p : Proc) : ZMod (2 ^ 8) :=
  match p.pc with
  | .forking i => ((indices (rounds - i) i p.idx).map fun k => (pair file k : ZMod (2 ^ 8))).sum
  | .reading => (pair file p.idx : ZMod (2 ^ 8))
  | .reaping sum => (sum : ZMod (2 ^ 8))
  | .exited status => ((status / 2 ^ 8 : ℤ) : ZMod (2 ^ 8))

/-- The pipes hold what a process needs. -/
def Proc.Fed (file : List ℤ) (pipes : ℕ → Pipe) (p : Proc) : Prop :=
  match p.pc with
  | .forking i => ∀ k ∈ indices (rounds - i) i p.idx,
      (pipes k).data = [num file (2 * k), num file (2 * k + 1)]
  | .reading => p.num1 = num file (2 * p.idx) ∧ (pipes p.idx).data = [num file (2 * p.idx + 1)]
  | .reaping _ => True
  | .exited _ => True

/-- A process that is not a zombie. -/
def Proc.Alive (p : Proc) : Prop := ∀ status, p.pc ≠ .exited status

/-- The process that the root process forks. -/
def Proc.IsFirst (p : Proc) : Prop := p.pid = 1 ∧ p.ppid = 0

/-- The parent of a process is alive. -/
def Proc.HasParent (procs : Multiset Proc) (p : Proc) : Prop :=
  p.IsFirst ∨ ∃ q ∈ procs, q.pid = p.ppid ∧ q.pid < p.pid ∧ q.Alive

theorem toInt_cast (x : ℤ) : ((toInt x : ℤ) : ZMod (2 ^ 8)) = x := by
  rw [ZMod.intCast_eq_intCast_iff]
  exact Int.ModEq.of_dvd (by decide) (Int.bmod_emod : (x.bmod (2 ^ 32)) % ((2 ^ 32 : ℕ) : ℤ) = _)

theorem Proc.HasParent.mono {N N' : Multiset Proc} {p : Proc} (h : p.HasParent N)
    (hN : ∀ q ∈ N, q.pid = p.ppid → q.pid < p.pid → q.Alive → ∃ q' ∈ N', q'.pid = q.pid ∧
      q'.Alive) :
    p.HasParent N' := by
  obtain hfirst | ⟨q, hq, hpid, hlt, halive⟩ := h
  · exact .inl hfirst
  · obtain ⟨q', hq', hpid', halive'⟩ := hN q hq hpid hlt halive
    exact .inr ⟨q', hq', hpid'.trans hpid, hpid' ▸ hlt, halive'⟩

theorem Proc.HasParent.congr {N : Multiset Proc} {p p' : Proc} (h : p.HasParent N)
    (hpid : p'.pid = p.pid) (hppid : p'.ppid = p.ppid) : p'.HasParent N := by
  unfold Proc.HasParent Proc.IsFirst at *
  rw [hpid, hppid]
  exact h

/-- A process does not notice a change of pipes that it does not read. -/
theorem Proc.Fed.congr {file : List ℤ} {pipes pipes' : ℕ → Pipe} {p : Proc} (h : p.Fed file pipes)
    (hpipes : ∀ k ∈ p.owed, pipes' k = pipes k) : p.Fed file pipes' := by
  cases hpc : p.pc with
  | forking i =>
    simp only [Proc.Fed, Proc.owed, hpc] at *
    intro k hk
    rw [hpipes k hk]
    exact h k hk
  | reading =>
    simp only [Proc.Fed, Proc.owed, hpc] at *
    rw [hpipes _ (Multiset.mem_singleton_self _)]
    exact h
  | reaping sum => simp only [Proc.Fed, hpc]
  | exited status => simp only [Proc.Fed, hpc]

/-! ## The invariant -/

/-- What holds of the processes in every run on the file. -/
structure Inv (file : List ℤ) (s : System) : Prop where
  rounds_le : ∀ p ∈ s.procs, ∀ i, p.pc = .forking i → i ≤ rounds
  fresh : ∀ p ∈ s.procs, p.pid < s.nextPid
  pids : (s.procs.map Proc.pid).Nodup
  parent : ∀ p ∈ s.procs, p.HasParent s.procs
  status : ∀ p ∈ s.procs, ∀ status, p.pc = .exited status → ∃ x, status = x % 2 ^ 8 * 2 ^ 8
  fed : ∀ p ∈ s.procs, p.Fed file s.pipes
  -- The pairs are read, or fall to a process.
  work : s.reads.map Prod.snd + s.procs.bind Proc.owed = Multiset.range maxProcesses
  -- The processes hold the sum, until it is printed.
  value : (s.procs.map (Proc.value file)).sum + s.printed.elim 0 (fun v => (v : ZMod (2 ^ 8))) =
    (total file : ZMod (2 ^ 8))
  running : s.printed = none → s.procs ≠ 0
  printed : ∀ v, s.printed = some v → s.procs = 0 ∧ 0 ≤ v ∧ v < 2 ^ 8

theorem indices_all : indices rounds 0 0 = Multiset.range maxProcesses := by decide

theorem sum_pair_cast (file : List ℤ) :
    ((Multiset.range maxProcesses).map fun k => (pair file k : ZMod (2 ^ 8))).sum =
      (total file : ZMod (2 ^ 8)) := by
  rw [total_eq_sum_pair, Int.cast_sum]
  rfl

theorem inv_start {file : List ℤ} (num1 num2 : ℤ) (h : maxProcesses * 2 ≤ file.length) :
    Inv file (start file num1 num2) where
  rounds_le := by
    intro p hp i hi
    rw [Multiset.mem_singleton.mp hp] at hi
    cases hi
    exact Nat.zero_le _
  fresh := by
    intro p hp
    rw [Multiset.mem_singleton.mp hp]
    exact Nat.lt_succ_self 1
  pids := by simp [start]
  parent := by
    intro p hp
    rw [Multiset.mem_singleton.mp hp]
    exact .inl ⟨rfl, rfl⟩
  status := by
    intro p hp status hstatus
    rw [Multiset.mem_singleton.mp hp] at hstatus
    cases hstatus
  fed := by
    intro p hp
    rw [Multiset.mem_singleton.mp hp]
    intro k hk
    change k ∈ indices rounds 0 0 at hk
    rw [indices_all, Multiset.mem_range] at hk
    exact root_pipes num1 num2 h hk
  work := by
    simp only [start, Multiset.map_zero, zero_add, Multiset.singleton_bind]
    exact indices_all
  value := by
    simp only [start, Multiset.map_singleton, Multiset.sum_singleton, Option.elim_none, add_zero]
    change ((indices rounds 0 0).map _).sum = _
    rw [indices_all, sum_pair_cast]
  running := fun _ => Multiset.singleton_ne_zero _
  printed := by
    intro v hv
    cases hv

/-! ## The steps keep the invariant -/

section Keep

variable {file : List ℤ} {s : System} {p c : Proc} {M : Multiset Proc}

theorem mem_self (hs : s.procs = p ::ₘ M) : p ∈ s.procs := hs ▸ Multiset.mem_cons_self p M

theorem mem_rest (hs : s.procs = p ::ₘ M) {q : Proc} (hq : q ∈ M) : q ∈ s.procs :=
  hs ▸ Multiset.mem_cons_of_mem hq

/-- Nothing is printed while there is a process. -/
theorem Inv.ne_some (h : Inv file s) (hs : s.procs = p ::ₘ M) {v : ℤ} : s.printed ≠ some v := by
  intro hv
  have hzero := (h.printed v hv).1
  rw [hs] at hzero
  exact Multiset.cons_ne_zero hzero

/-- No two processes owe the same pair. -/
theorem Inv.not_owed (h : Inv file s) (hs : s.procs = p ::ₘ M) {q : Proc} (hq : q ∈ M) {k : ℕ}
    (hk : k ∈ q.owed) : k ∉ p.owed := by
  have hnodup := Multiset.nodup_range maxProcesses
  rw [← h.work, hs, Multiset.cons_bind, Multiset.nodup_add, Multiset.nodup_add] at hnodup
  intro hkp
  exact Multiset.disjoint_left.mp hnodup.2.1.2.2 hkp (Multiset.mem_bind.mpr ⟨q, hq, hk⟩)

/-- A step of a process that forks no child and reaps none. -/
theorem Inv.replace (h : Inv file s) (hs : s.procs = p ::ₘ M) {p' : Proc} {pipes' : ℕ → Pipe}
    {reads' : Multiset (ℕ × ℕ)} (hpid : p'.pid = p.pid) (hppid : p'.ppid = p.ppid)
    (hrounds : ∀ i, p'.pc = .forking i → i ≤ rounds)
    (halive : p'.Alive ∨ ∀ q ∈ M, q.ppid ≠ p.pid)
    (hstatus : ∀ status, p'.pc = .exited status → ∃ x, status = x % 2 ^ 8 * 2 ^ 8)
    (hfed : p'.Fed file pipes') (hpipes : ∀ k, k ∉ p.owed → pipes' k = s.pipes k)
    (hwork : reads'.map Prod.snd + p'.owed = s.reads.map Prod.snd + p.owed)
    (hvalue : p'.value file = p.value file) :
    Inv file { s with procs := p' ::ₘ M, pipes := pipes', reads := reads' } := by
  constructor
  case rounds_le =>
    exact Multiset.forall_mem_cons.mpr ⟨hrounds, fun q hq => h.rounds_le q (mem_rest hs hq)⟩
  case fresh =>
    refine Multiset.forall_mem_cons.mpr ⟨?_, fun q hq => h.fresh q (mem_rest hs hq)⟩
    exact hpid ▸ h.fresh p (mem_self hs)
  case pids =>
    have hpids := h.pids
    rw [hs, Multiset.map_cons, ← hpid, ← Multiset.map_cons] at hpids
    exact hpids
  case parent =>
    -- The process still stands for itself, unless it has exited. Then it leaves no child behind.
    have hstands : ∀ q : Proc, (q.ppid = p.pid → p.pid < q.pid → p'.Alive) → q.HasParent s.procs →
        q.HasParent (p' ::ₘ M) := by
      intro q hq hparent
      apply hparent.mono
      intro r hr hrpid hlt hralive
      rw [hs, Multiset.mem_cons] at hr
      obtain rfl | hr := hr
      · exact ⟨p', Multiset.mem_cons_self p' M, hpid, hq hrpid.symm hlt⟩
      · exact ⟨r, Multiset.mem_cons_of_mem hr, rfl, hralive⟩
    refine Multiset.forall_mem_cons.mpr ⟨?_, ?_⟩
    · refine (hstands p ?_ (h.parent p (mem_self hs))).congr hpid hppid
      exact fun _ hlt => absurd hlt (lt_irrefl _)
    · intro q hq
      refine hstands q ?_ (h.parent q (mem_rest hs hq))
      exact fun hqpid _ => halive.resolve_right fun hno => hno q hq hqpid
  case status =>
    exact Multiset.forall_mem_cons.mpr ⟨hstatus, fun q hq => h.status q (mem_rest hs hq)⟩
  case fed =>
    refine Multiset.forall_mem_cons.mpr ⟨hfed, ?_⟩
    intro q hq
    exact (h.fed q (mem_rest hs hq)).congr fun k hk => hpipes k (h.not_owed hs hq hk)
  case work =>
    have hwork' := h.work
    rw [hs, Multiset.cons_bind, ← add_assoc, ← hwork, add_assoc, ← Multiset.cons_bind] at hwork'
    exact hwork'
  case value =>
    have hvalue' := h.value
    rw [hs, Multiset.map_cons, ← hvalue, ← Multiset.map_cons] at hvalue'
    exact hvalue'
  case running => exact fun _ => Multiset.cons_ne_zero
  case printed => exact fun v hv => absurd hv (h.ne_some hs)

theorem Inv.eq_rounds (h : Inv file s) (hp : p ∈ s.procs) {i : ℕ} (hpc : p.pc = .forking i)
    (hi : ¬ i < rounds) : i = rounds :=
  le_antisymm (h.rounds_le p hp i hpc) (not_lt.mp hi)

/-- A process behind its last round finds its pair. -/
theorem Inv.pair_of_forking (h : Inv file s) (hp : p ∈ s.procs) {i : ℕ} (hpc : p.pc = .forking i)
    (hi : ¬ i < rounds) :
    (s.pipes p.idx).data = [num file (2 * p.idx), num file (2 * p.idx + 1)] := by
  have hfed := h.fed p hp
  rw [h.eq_rounds hp hpc hi] at hpc
  simp only [Proc.Fed, hpc, Nat.sub_self] at hfed
  exact hfed p.idx (Multiset.mem_singleton_self _)

theorem Inv.num_of_reading (h : Inv file s) (hp : p ∈ s.procs) (hpc : p.pc = .reading) :
    p.num1 = num file (2 * p.idx) ∧ (s.pipes p.idx).data = [num file (2 * p.idx + 1)] := by
  have hfed := h.fed p hp
  simp only [Proc.Fed, hpc] at hfed
  exact hfed

theorem Inv.readFirst (h : Inv file s) (hs : s.procs = p ::ₘ M) {i : ℕ} (hp : p.pc = .forking i)
    (hi : ¬ i < rounds) {n : ℤ} {q : Pipe} (hq : (s.pipes p.idx).read p.num1 = some (n, q)) :
    Inv file { s with
      procs := { p with num1 := n, pc := .reading } ::ₘ M
      pipes := Function.update s.pipes p.idx q } := by
  have hmem : p ∈ s.procs := mem_self hs
  rw [Pipe.read_of_data (h.pair_of_forking hmem hp hi)] at hq
  cases hq
  have howed : p.owed = {p.idx} := by
    simp only [Proc.owed, hp, h.eq_rounds hmem hp hi, Nat.sub_self, indices]
  refine h.replace hs rfl rfl (by simp) (.inl (by simp [Proc.Alive])) (by simp) ?_ ?_ ?_ ?_
  · exact ⟨rfl, by rw [Function.update_self]⟩
  · intro k hk
    rw [howed, Multiset.mem_singleton] at hk
    exact Function.update_of_ne hk _ _
  · rw [howed]
    rfl
  · simp only [Proc.value, hp, h.eq_rounds hmem hp hi, Nat.sub_self, indices,
      Multiset.map_singleton, Multiset.sum_singleton]

theorem Inv.readSecond (h : Inv file s) (hs : s.procs = p ::ₘ M) (hp : p.pc = .reading) {n : ℤ}
    {q : Pipe} (hq : (s.pipes p.idx).read p.num2 = some (n, q)) :
    Inv file { s with
      procs := { p with num2 := n, pc := .reaping (toInt (p.num1 + n)) } ::ₘ M
      pipes := Function.update s.pipes p.idx q
      reads := (p.pid, p.idx) ::ₘ s.reads } := by
  obtain ⟨hnum, hdata⟩ := h.num_of_reading (mem_self hs) hp
  rw [Pipe.read_of_data hdata] at hq
  cases hq
  have howed : p.owed = {p.idx} := by simp only [Proc.owed, hp]
  refine h.replace hs rfl rfl (by simp) (.inl (by simp [Proc.Alive])) (by simp) ?_ ?_ ?_ ?_
  · trivial
  · intro k hk
    rw [howed, Multiset.mem_singleton] at hk
    exact Function.update_of_ne hk _ _
  · rw [howed, Multiset.map_cons, ← Multiset.singleton_add, add_comm {_}]
    exact add_zero _
  · simp only [Proc.value, hp, toInt_cast, hnum, num, pair, Int.cast_add]

theorem Inv.exit (h : Inv file s) (hs : s.procs = p ::ₘ M) {sum : ℤ} (hp : p.pc = .reaping sum)
    (hno : ∀ c ∈ M, c.ppid ≠ p.pid) :
    Inv file { s with procs := { p with pc := .exited (sum % 2 ^ 8 * 2 ^ 8) } ::ₘ M } := by
  refine h.replace hs rfl rfl (by simp) (.inr hno) ?_ trivial (fun _ _ => rfl) ?_ ?_
  · intro status hstatus
    cases hstatus
    exact ⟨sum, rfl⟩
  · simp only [Proc.owed, hp]
  · have hdiv : sum % 2 ^ 8 * 2 ^ 8 / 2 ^ 8 = sum % 2 ^ 8 := by omega
    simp only [Proc.value, hp, hdiv]
    exact ZMod.intCast_mod sum (2 ^ 8)

/-- The processes of a fork share what the parent owes. -/
theorem indices_fork {i : ℕ} (hi : i < rounds) (idx : ℕ) :
    indices (rounds - i) i idx =
      indices (rounds - (i + 1)) (i + 1) idx +
        indices (rounds - (i + 1)) (i + 1) (idx + 2 ^ i) := by
  have hsucc : rounds - i = rounds - (i + 1) + 1 := by omega
  rw [hsucc, indices]

theorem Inv.fork (h : Inv file s) (hs : s.procs = p ::ₘ M) {i : ℕ} (hp : p.pc = .forking i)
    (hi : i < rounds) :
    Inv file { s with
      procs := { p with pc := .forking (i + 1) } ::ₘ
          { p with
            pid := s.nextPid, ppid := p.pid, idx := p.idx + 2 ^ i
            pc := .forking (i + 1) } ::ₘ M
      nextPid := s.nextPid + 1 } := by
  have hlt : p.pid < s.nextPid := h.fresh p (mem_self hs)
  have hrounds : ∀ j, Pc.forking (i + 1) = .forking j → j ≤ rounds := by
    intro j hj
    cases hj
    exact hi
  have hfed := h.fed p (mem_self hs)
  simp only [Proc.Fed, hp, indices_fork hi, Multiset.mem_add] at hfed
  constructor
  case rounds_le =>
    refine Multiset.forall_mem_cons.mpr ⟨hrounds, Multiset.forall_mem_cons.mpr ⟨hrounds, ?_⟩⟩
    exact fun q hq => h.rounds_le q (mem_rest hs hq)
  case fresh =>
    refine Multiset.forall_mem_cons.mpr
      ⟨Nat.lt_succ_of_lt hlt, Multiset.forall_mem_cons.mpr ⟨?_, ?_⟩⟩
    · exact Nat.lt_succ_self _
    · exact fun q hq => Nat.lt_succ_of_lt (h.fresh q (mem_rest hs hq))
  case pids =>
    have hpids := h.pids
    rw [hs, Multiset.map_cons, Multiset.nodup_cons] at hpids
    have hnew : s.nextPid ∉ M.map Proc.pid := by
      intro hin
      obtain ⟨q, hq, hqpid⟩ := Multiset.mem_map.mp hin
      exact absurd hqpid (h.fresh q (mem_rest hs hq)).ne
    simp only [Multiset.map_cons, Multiset.nodup_cons, Multiset.mem_cons, not_or]
    exact ⟨⟨hlt.ne, hpids.1⟩, hnew, hpids.2⟩
  case parent =>
    -- The parent goes on under its process id, and is the parent of the child.
    have hstands : ∀ q : Proc, q.HasParent s.procs →
        q.HasParent ({ p with pc := .forking (i + 1) } ::ₘ
          { p with
            pid := s.nextPid, ppid := p.pid, idx := p.idx + 2 ^ i
            pc := .forking (i + 1) } ::ₘ M) := by
      intro q hparent
      apply hparent.mono
      intro r hr _ _ hralive
      rw [hs, Multiset.mem_cons] at hr
      obtain rfl | hr := hr
      · exact ⟨_, Multiset.mem_cons_self _ _, rfl, by simp [Proc.Alive]⟩
      · exact ⟨r, Multiset.mem_cons_of_mem (Multiset.mem_cons_of_mem hr), rfl, hralive⟩
    refine Multiset.forall_mem_cons.mpr ⟨?_, Multiset.forall_mem_cons.mpr ⟨?_, ?_⟩⟩
    · exact (hstands p (h.parent p (mem_self hs))).congr rfl rfl
    · exact .inr ⟨_, Multiset.mem_cons_self _ _, rfl, hlt, by simp [Proc.Alive]⟩
    · exact fun q hq => hstands q (h.parent q (mem_rest hs hq))
  case status =>
    refine Multiset.forall_mem_cons.mpr ⟨by simp, Multiset.forall_mem_cons.mpr ⟨by simp, ?_⟩⟩
    exact fun q hq => h.status q (mem_rest hs hq)
  case fed =>
    refine Multiset.forall_mem_cons.mpr ⟨?_, Multiset.forall_mem_cons.mpr ⟨?_, ?_⟩⟩
    · exact fun k hk => hfed k (.inl hk)
    · exact fun k hk => hfed k (.inr hk)
    · exact fun q hq => h.fed q (mem_rest hs hq)
  case work =>
    have hwork := h.work
    simp only [hs, Multiset.cons_bind, Proc.owed, hp, indices_fork hi] at hwork
    rw [add_assoc (indices _ _ _)] at hwork
    simpa only [Multiset.cons_bind, Proc.owed] using hwork
  case value =>
    have hvalue := h.value
    simp only [hs, Multiset.map_cons, Multiset.sum_cons, Proc.value, hp, indices_fork hi,
      Multiset.map_add, Multiset.sum_add] at hvalue
    simp only [Multiset.map_cons, Multiset.sum_cons, Proc.value, ← hvalue, add_assoc]
  case running => exact fun _ => Multiset.cons_ne_zero
  case printed => exact fun v hv => absurd hv (h.ne_some hs)

theorem Inv.reap (h : Inv file s) (hs : s.procs = p ::ₘ c ::ₘ M) {sum status : ℤ}
    (hp : p.pc = .reaping sum) (hc : c.pc = .exited status) :
    Inv file { s with
      procs := { p with pc := .reaping (toInt (sum + status / 2 ^ 8)) } ::ₘ M } := by
  have hrest : ∀ q ∈ M, q ∈ s.procs := fun q hq => mem_rest hs (Multiset.mem_cons_of_mem hq)
  constructor
  case rounds_le =>
    exact Multiset.forall_mem_cons.mpr ⟨by simp, fun q hq => h.rounds_le q (hrest q hq)⟩
  case fresh =>
    exact Multiset.forall_mem_cons.mpr ⟨h.fresh p (mem_self hs), fun q hq => h.fresh q (hrest q hq)⟩
  case pids =>
    have hpids := h.pids
    simp only [hs, Multiset.map_cons, Multiset.nodup_cons, Multiset.mem_cons, not_or] at hpids
    simp only [Multiset.map_cons, Multiset.nodup_cons]
    exact ⟨hpids.1.2, hpids.2.2⟩
  case parent =>
    -- The zombie is no parent.
    have hstands : ∀ q : Proc, q.HasParent s.procs →
        q.HasParent ({ p with pc := .reaping (toInt (sum + status / 2 ^ 8)) } ::ₘ M) := by
      intro q hparent
      apply hparent.mono
      intro r hr _ _ hralive
      rw [hs, Multiset.mem_cons, Multiset.mem_cons] at hr
      obtain rfl | rfl | hr := hr
      · exact ⟨_, Multiset.mem_cons_self _ _, rfl, by simp [Proc.Alive]⟩
      · exact absurd hc (hralive status)
      · exact ⟨r, Multiset.mem_cons_of_mem hr, rfl, hralive⟩
    refine Multiset.forall_mem_cons.mpr ⟨?_, fun q hq => hstands q (h.parent q (hrest q hq))⟩
    exact (hstands p (h.parent p (mem_self hs))).congr rfl rfl
  case status => exact Multiset.forall_mem_cons.mpr ⟨by simp, fun q hq => h.status q (hrest q hq)⟩
  case fed => exact Multiset.forall_mem_cons.mpr ⟨trivial, fun q hq => h.fed q (hrest q hq)⟩
  case work =>
    have hwork := h.work
    simp only [hs, Multiset.cons_bind, Proc.owed, hp, hc, zero_add] at hwork
    simpa only [Multiset.cons_bind, Proc.owed, zero_add] using hwork
  case value =>
    have hvalue := h.value
    simp only [hs, Multiset.map_cons, Multiset.sum_cons, Proc.value, hp, hc] at hvalue
    simp only [Multiset.map_cons, Multiset.sum_cons, Proc.value, toInt_cast, Int.cast_add, ← hvalue,
      add_assoc]
  case running => exact fun _ => Multiset.cons_ne_zero
  case printed => exact fun v hv => absurd hv (h.ne_some hs)

theorem Inv.pid_ne_zero (h : Inv file s) (hp : p ∈ s.procs) : p.pid ≠ 0 := by
  obtain ⟨hone, _⟩ | ⟨_, _, _, hlt, _⟩ := h.parent p hp
  · omega
  · omega

/-- The processes form a tree: when the first process is a zombie, it is the last. -/
theorem Inv.rest_eq_zero (h : Inv file s) (hs : s.procs = c ::ₘ M) (hc : ¬ c.Alive)
    (hroot : c.ppid = 0) :
    M = 0 := by
  have hfirst : c.IsFirst := by
    obtain hfirst | ⟨q, hq, hpid, _, _⟩ := h.parent c (mem_self hs)
    · exact hfirst
    · exact absurd (hpid.trans hroot) (h.pid_ne_zero hq)
  have hpids := h.pids
  rw [hs, Multiset.map_cons, Multiset.nodup_cons] at hpids
  -- A process of `M` has its parent in `M`, with a smaller process id.
  have hnone : ∀ n, ∀ q ∈ M, q.pid = n → False := by
    intro n
    induction n using Nat.strong_induction_on with
    | h n ih =>
      intro q hq hn
      obtain hqfirst | ⟨r, hr, hpid, hlt, halive⟩ := h.parent q (mem_rest hs hq)
      · refine hpids.1 (Multiset.mem_map.mpr ⟨q, hq, ?_⟩)
        rw [hqfirst.1, hfirst.1]
      · rw [hs, Multiset.mem_cons] at hr
        obtain rfl | hr := hr
        · exact hc halive
        · exact ih r.pid (hn ▸ hlt) r hr rfl
  exact Multiset.eq_zero_of_forall_notMem fun q hq => hnone q.pid q hq rfl

theorem Inv.print (h : Inv file s) (hs : s.procs = c ::ₘ M) {status : ℤ}
    (hc : c.pc = .exited status)
    (hroot : c.ppid = 0) : Inv file { s with procs := M, printed := some (status / 2 ^ 8) } := by
  have hM : M = 0 := h.rest_eq_zero hs (fun halive => halive status hc) hroot
  subst hM
  obtain ⟨x, hx⟩ := h.status c (mem_self hs) status hc
  constructor
  case rounds_le => simp
  case fresh => simp
  case pids => simp
  case parent => simp
  case status => simp
  case fed => simp
  case work =>
    have hwork := h.work
    simp only [hs, Multiset.cons_bind, Proc.owed, hc, zero_add] at hwork
    exact hwork
  case value =>
    have hvalue := h.value
    have hnone : s.printed = none := Option.eq_none_iff_forall_ne_some.mpr fun v => h.ne_some hs
    simp only [hs, hnone, Multiset.map_cons, Multiset.sum_cons, Multiset.map_zero,
      Multiset.sum_zero, Proc.value, hc, Option.elim_none, add_zero] at hvalue
    simp only [Multiset.map_zero, Multiset.sum_zero, Option.elim_some, zero_add, hvalue]
  case running => simp
  case printed =>
    intro v hv
    cases hv
    refine ⟨rfl, ?_, ?_⟩
    · omega
    · omega

theorem Inv.step (h : Inv file s) {t : System} (hstep : Step s t) : Inv file t := by
  cases hstep with
  | fork hs hp hi => exact h.fork hs hp hi
  | readFirst hs hp hi hq => exact h.readFirst hs hp hi hq
  | readSecond hs hp hq => exact h.readSecond hs hp hq
  | reap hs hp hc _ => exact h.reap hs hp hc
  | exit hs hp hno => exact h.exit hs hp hno
  | print hs hc hroot => exact h.print hs hc hroot

end Keep

/-! ## Every run ends -/

section Ends

variable {file : List ℤ} {s t : System}

/-- An upper bound for the steps that a process and its descendants have left. -/
def Proc.weight (p : Proc) : ℕ :=
  match p.pc with
  | .forking i => 5 * 2 ^ (rounds - i) - 1
  | .reading => 3
  | .reaping _ => 2
  | .exited _ => 1

/-- The steps that a system has left at most. -/
def System.weight (s : System) : ℕ := (s.procs.map Proc.weight).sum

theorem weight_lt_of_step (hstep : Step s t) : t.weight < s.weight := by
  unfold System.weight
  cases hstep with
  | @fork p M i hs hp hi =>
    have hpow : 2 ^ (rounds - i) = 2 * 2 ^ (rounds - (i + 1)) := by
      rw [← pow_succ', ← Nat.sub_sub, Nat.sub_add_cancel (by omega)]
    have hpos : 0 < 2 ^ (rounds - (i + 1)) := Nat.two_pow_pos _
    simp only [hs, Multiset.map_cons, Multiset.sum_cons, Proc.weight, hp, hpow]
    omega
  | @readFirst p M i n q hs hp hi hq =>
    have hpos : 0 < 2 ^ (rounds - i) := Nat.two_pow_pos _
    simp only [hs, Multiset.map_cons, Multiset.sum_cons, Proc.weight, hp]
    omega
  | readSecond hs hp hq =>
    simp only [hs, Multiset.map_cons, Multiset.sum_cons, Proc.weight, hp]
    omega
  | reap hs hp hc hpid =>
    simp only [hs, Multiset.map_cons, Multiset.sum_cons, Proc.weight, hp, hc]
    omega
  | exit hs hp hno =>
    simp only [hs, Multiset.map_cons, Multiset.sum_cons, Proc.weight, hp]
    omega
  | print hs hc hroot =>
    simp only [hs, Multiset.map_cons, Multiset.sum_cons, Proc.weight, hc]
    omega

/-- A process that is alive can make a step, or one of its descendants can. -/
theorem Inv.step_of_alive (h : Inv file s) (n : ℕ) (p : Proc) (hp : p ∈ s.procs) (halive : p.Alive)
    (hn : s.nextPid - p.pid = n) : ∃ t, Step s t := by
  -- A child has a larger process id, so the induction goes down the tree.
  induction n using Nat.strong_induction_on generalizing p with
  | h n ih =>
    obtain ⟨M, hs⟩ := Multiset.exists_cons_of_mem hp
    cases hpc : p.pc with
    | forking i =>
      by_cases hi : i < rounds
      · exact ⟨_, .fork hs hpc hi⟩
      · exact ⟨_, .readFirst hs hpc hi (Pipe.read_of_data (h.pair_of_forking hp hpc hi) _)⟩
    | reading => exact ⟨_, .readSecond hs hpc (Pipe.read_of_data (h.num_of_reading hp hpc).2 _)⟩
    | reaping sum =>
      by_cases hchild : ∃ c ∈ M, c.ppid = p.pid
      · obtain ⟨c, hc, hpid⟩ := hchild
        have hlt : p.pid < c.pid := by
          obtain ⟨_, hzero⟩ | ⟨_, _, hqpid, hlt, _⟩ := h.parent c (mem_rest hs hc)
          · exact absurd (hpid.symm.trans hzero) (h.pid_ne_zero hp)
          · omega
        cases hcpc : c.pc with
        | exited status =>
          obtain ⟨N, hN⟩ := Multiset.exists_cons_of_mem hc
          rw [hN] at hs
          exact ⟨_, .reap hs hpc hcpc hpid⟩
        | _ =>
          have hfresh := h.fresh c (mem_rest hs hc)
          exact ih _ (by omega) c (mem_rest hs hc) (by simp [Proc.Alive, hcpc]) rfl
      · exact ⟨_, .exit hs hpc fun c hc hpid => hchild ⟨c, hc, hpid⟩⟩
    | exited status => exact absurd hpc (halive status)

/-- Some process can make a step, as long as there is one. -/
theorem Inv.exists_step (h : Inv file s) (hs : s.procs ≠ 0) : ∃ t, Step s t := by
  obtain ⟨p, hp⟩ := Multiset.exists_mem_of_ne_zero hs
  by_cases halive : p.Alive
  · exact h.step_of_alive _ p hp halive rfl
  · obtain ⟨_, hroot⟩ | ⟨q, hq, _, _, hqalive⟩ := h.parent p hp
    · obtain ⟨status, hstatus⟩ : ∃ status, p.pc = .exited status := by
        simpa only [Proc.Alive, not_forall, not_not] using halive
      obtain ⟨M, hM⟩ := Multiset.exists_cons_of_mem hp
      exact ⟨_, .print hM hstatus hroot⟩
    · exact h.step_of_alive _ q hq hqalive rfl

/-- What a run leads to: the root process has printed the sum modulo `2^8`, and every pair has been
read once, by one process. -/
def Done (file : List ℤ) (s : System) : Prop :=
  s.printed = some (total file % 2 ^ 8) ∧
    ∀ k < maxProcesses, ∃ pid, s.reads.filter (fun r => r.2 = k) = {(pid, k)}

theorem filter_eq_singleton {reads : Multiset (ℕ × ℕ)} {n k : ℕ}
    (h : reads.map Prod.snd = Multiset.range n)
    (hk : k < n) : ∃ pid, reads.filter (fun r => r.2 = k) = {(pid, k)} := by
  have hcard : (reads.filter fun r => r.2 = k).card = 1 := by
    have hcount : (reads.map Prod.snd).count k = 1 := by
      rw [h]
      exact Multiset.count_eq_one_of_mem (Multiset.nodup_range n) (Multiset.mem_range.mpr hk)
    rw [Multiset.count_map] at hcount
    simpa only [eq_comm] using hcount
  obtain ⟨⟨pid, j⟩, hr⟩ := Multiset.card_eq_one.mp hcard
  have hj : j = k := by
    have hmem : (pid, j) ∈ reads.filter fun r => r.2 = k := hr ▸ Multiset.mem_singleton_self _
    exact (Multiset.mem_filter.mp hmem).2
  exact ⟨pid, hj ▸ hr⟩

theorem Inv.done (h : Inv file s) (hlast : ∀ t, ¬ Step s t) : Done file s := by
  have hprocs : s.procs = 0 := by
    by_contra hne
    obtain ⟨t, ht⟩ := h.exists_step hne
    exact hlast t ht
  obtain ⟨v, hv⟩ : ∃ v, s.printed = some v := by
    by_contra hnone
    exact h.running (Option.eq_none_iff_forall_ne_some.mpr (not_exists.mp hnone)) hprocs
  obtain ⟨_, hle, hlt⟩ := h.printed v hv
  constructor
  · have hvalue := h.value
    simp only [hprocs, hv, Multiset.map_zero, Multiset.sum_zero, zero_add,
      Option.elim_some] at hvalue
    have hmod : v % 2 ^ 8 = total file % 2 ^ 8 :=
      (ZMod.intCast_eq_intCast_iff v (total file) (2 ^ 8)).mp hvalue
    rw [hv, ← hmod, Int.emod_eq_of_lt hle hlt]
  · intro k hk
    have hwork := h.work
    rw [hprocs, Multiset.zero_bind, add_zero] at hwork
    exact filter_eq_singleton hwork hk

/-- **The process tree adds up the numbers, modulo `2^8`**: whatever the order of the steps, the
processes come to an end, and what the root process prints is the sum. -/
theorem fork_ends (num1 num2 : ℤ) (h : maxProcesses * 2 ≤ file.length) :
    EveryRunEnds Step (Done file) (start file num1 num2) :=
  EveryRunEnds.of_measure System.weight (inv_start num1 num2 h) (fun _ _ hs hstep => hs.step hstep)
    (fun _ _ _ hstep => weight_lt_of_step hstep) (fun _ hs hlast => hs.done hlast)

end Ends

end SchoolOS.ForkThread.Fork
