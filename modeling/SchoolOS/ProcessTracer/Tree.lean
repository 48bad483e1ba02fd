import Mathlib.Data.List.Nodup
import SchoolOS.ProcessTracer.ForkCount

/-!
# The tree of processes

`process_tracer` follows `group_leader`, `real_parent` and the lists of children. `copy_process`
keeps them consistent: every pointer leads to a task, and the list of a task holds each of its
children once (`Tree`). A thread is in no list. So it lists the leader of its own group as a
sibling.
-/

namespace SchoolOS.ProcessTracer

open Function

/-- The fields of a task that lead to other tasks, and its pid. -/
structure Links where
  pid : ℤ
  leader : Ptr
  parent : Ptr
  children : List Ptr

def Task.links (t : Task) : Links := ⟨t.pid, t.groupLeader, t.realParent, t.children⟩

def Kernel.links (k : Kernel) (p : Ptr) : Option Links := (k.task p).map Task.links

/-- The process `c` has the parent `p`. A thread is not a process, and `init_task` has no parent but
itself. -/
def Kernel.ChildOf (k : Kernel) (c p : Ptr) : Prop :=
  c ≠ initTask ∧ ∃ l, k.links c = some l ∧ l.leader = c ∧ l.parent = p

structure Tree (k : Kernel) : Prop where
  init : k.links initTask ≠ none
  leader : ∀ {p l}, k.links p = some l →
    ∃ m, k.links l.leader = some m ∧ m.leader = l.leader ∧ m.parent = l.parent
  parent : ∀ {p l}, k.links p = some l → k.links l.parent ≠ none
  nodup : ∀ {p l}, k.links p = some l → l.children.Nodup
  children : ∀ {p l}, k.links p = some l → ∀ c, c ∈ l.children ↔ k.ChildOf c p
  pid : ∀ {pid p}, k.pidTask pid = some p → ∃ l, k.links p = some l ∧ l.pid = pid
  found : ∀ {p l}, k.links p = some l → p ≠ initTask → k.pidTask l.pid = some p

/-- What the rest of the kernel does to the tree: a task that ends is taken out of it, and its
children get another parent. -/
def KeepsTree (rest : System → Kernel → Prop) : Prop :=
  ∀ {s k}, rest s k → Tree s.kernel → Tree k

/-! ## The memory -/

theorem Kernel.links_set (k : Kernel) (p q : Ptr) (t : Task) :
    (k.set p t).links q = if q = p then some t.links else k.links q := by
  unfold Kernel.links Kernel.set
  by_cases hq : q = p
  · subst hq
    simp
  · simp [hq]

/-- A write to another field of a task leaves its links. -/
theorem Kernel.links_set_self {k : Kernel} {p : Ptr} {t t' : Task} (ht : k.task p = some t)
    (hlinks : t'.links = t.links) : (k.set p t').links = k.links := by
  funext q
  rw [Kernel.links_set]
  by_cases hq : q = p
  · rw [if_pos hq, hq, Kernel.links, ht, Option.map_some, hlinks]
  · rw [if_neg hq]

/-- The links of the new task of `current`. -/
def Links.copy (l : Links) (current : Ptr) (flags : CloneFlags) (new : NewTask) : Links where
  pid := new.pid
  leader := if flags.thread then l.leader else new.ptr
  parent := if flags.parent || flags.thread then l.parent else current
  children := []

/-- The links of a task with more children. -/
def Links.append (l : Links) (list : List Ptr) : Links := { l with children := l.children ++ list }

/-- What `copy_process` appends to the list of `q`, when the new task has the links `n`. -/
def appended (flags : CloneFlags) (new : NewTask) (n : Links) (q : Ptr) : List Ptr :=
  if flags.thread = false ∧ q = n.parent then [new.ptr] else []

/-- Everything that `copy_process` does to the links. -/
theorem links_copyProcess {k k' : Kernel} {current : Ptr} {flags : CloneFlags} {new : NewTask}
    (h : copyProcess k current flags new = some k') :
    ∃ l, k.links current = some l ∧ k'.pidTask = update k.pidTask new.pid (some new.ptr) ∧
      ((l.copy current flags new).parent ≠ new.ptr →
        k'.links new.ptr = some (l.copy current flags new) ∧ ∀ q ≠ new.ptr, k'.links q =
          (k.links q).map fun m => m.append (appended flags new (l.copy current flags new) q)) := by
  obtain ⟨cur, hcur, h⟩ := Option.bind_eq_some_iff.mp h
  refine ⟨cur.links, by rw [Kernel.links, hcur, Option.map_some], ?_⟩
  have hattach : ∀ q, (k.attach new.ptr (cur.copy current flags new)).links q =
      if q = new.ptr then some (cur.links.copy current flags new) else k.links q :=
    fun q => k.links_set new.ptr q _
  have hparent :
      (cur.copy current flags new).realParent = (cur.links.copy current flags new).parent :=
    rfl
  simp only [hparent] at h
  generalize hn : cur.links.copy current flags new = n at *
  by_cases hthread : flags.thread = true
  · -- a thread is put into no list
    rw [if_pos hthread] at h
    obtain rfl := Option.some.inj h
    refine ⟨rfl, fun _ => ⟨by rw [hattach, if_pos rfl], fun q hq => ?_⟩⟩
    rw [hattach, if_neg hq]
    simp [appended, Links.append, hthread]
  · rw [if_neg hthread] at h
    obtain ⟨t, ht, h⟩ := Option.bind_eq_some_iff.mp h
    obtain rfl := Option.some.inj h
    refine ⟨rfl, fun hne => ⟨?_, fun q hq => ?_⟩⟩
    · rw [Kernel.links_set, if_neg hne.symm, hattach, if_pos rfl]
    · have hlinks : k.links n.parent = some t.links := by
        have hlinks := hattach n.parent
        rwa [if_neg hne, Kernel.links, ht, Option.map_some, eq_comm] at hlinks
      rw [Kernel.links_set]
      by_cases hqp : q = n.parent
      · subst hqp
        rw [if_pos rfl, hlinks, appended, if_pos ⟨by simpa using hthread, rfl⟩]
        rfl
      · rw [if_neg hqp, hattach, if_neg hq, appended, if_neg (fun hboth => hqp hboth.2)]
        simp [Links.append]

/-! ## The steps -/

namespace Tree

variable {k k' : Kernel}

/-- The tree depends on the links and the pids only. -/
theorem congr (h : Tree k) (hlinks : k'.links = k.links) (hpid : k'.pidTask = k.pidTask) :
    Tree k' := by
  have hchild : ∀ c p, k'.ChildOf c p ↔ k.ChildOf c p := by
    intro c p
    unfold Kernel.ChildOf
    rw [hlinks]
  refine ⟨?_, fun hl => ?_, fun hl => ?_, fun hl => ?_, fun hl c => ?_, fun hp => ?_,
    fun hl hp => ?_⟩
  · rw [hlinks]
    exact h.init
  · rw [hlinks] at hl ⊢
    exact h.leader hl
  · rw [hlinks] at hl ⊢
    exact h.parent hl
  · rw [hlinks] at hl
    exact h.nodup hl
  · rw [hlinks] at hl
    rw [hchild]
    exact h.children hl c
  · rw [hpid] at hp
    rw [hlinks]
    exact h.pid hp
  · rw [hlinks] at hl
    rw [hpid]
    exact h.found hl hp

theorem boot (comm : Bytes) : Tree (boot comm).kernel := by
  have hlinks : ∀ {p l}, (ProcessTracer.boot comm).kernel.links p = some l →
      p = initTask ∧ l = ⟨0, initTask, initTask, []⟩ := by
    intro p l hl
    by_cases hp : p = initTask
    · subst hp
      refine ⟨rfl, ?_⟩
      simpa [Kernel.links, ProcessTracer.boot, Task.links] using hl.symm
    · simp [Kernel.links, ProcessTracer.boot, hp] at hl
  have hinit : (ProcessTracer.boot comm).kernel.links initTask = some ⟨0, initTask, initTask, []⟩ :=
    rfl
  refine ⟨?_, fun hl => ?_, fun hl => ?_, fun hl => ?_, fun hl c => ?_, fun hp => ?_,
    fun hl hp => ?_⟩
  · rw [hinit]
    simp
  · obtain ⟨-, rfl⟩ := hlinks hl
    exact ⟨_, hinit, rfl, rfl⟩
  · obtain ⟨-, rfl⟩ := hlinks hl
    rw [hinit]
    simp
  · obtain ⟨-, rfl⟩ := hlinks hl
    exact List.nodup_nil
  · obtain ⟨rfl, rfl⟩ := hlinks hl
    refine ⟨fun hc => absurd hc List.not_mem_nil, fun hc => ?_⟩
    obtain ⟨hne, l, hl, -⟩ := hc
    exact absurd (hlinks hl).1 hne
  · exact absurd hp (by simp [ProcessTracer.boot])
  · exact absurd (hlinks hl).1 hp

end Tree

/-- What `copy_process` does to a tree. The creator has the links `l`, and the new task gets `n`. -/
structure Copied (k k' : Kernel) (flags : CloneFlags) (new : NewTask) (l n : Links) : Prop where
  tree : Tree k
  creator : ∃ current, k.links current = some l
  fresh : k.links new.ptr = none
  unnamed : k.pidTask new.pid = none
  leader : n.leader = if flags.thread then l.leader else new.ptr
  threadParent : flags.thread = true → n.parent = l.parent
  parent : k.links n.parent ≠ none
  noChildren : n.children = []
  pid : n.pid = new.pid
  pidTask : k'.pidTask = update k.pidTask new.pid (some new.ptr)
  newLinks : k'.links new.ptr = some n
  other : ∀ q ≠ new.ptr, k'.links q = (k.links q).map fun m => m.append (appended flags new n q)

theorem exists_copied {k k' : Kernel} (h : Tree k) {current : Ptr} {flags : CloneFlags}
    {new : NewTask} (hptr : k.task new.ptr = none) (hpid : k.pidTask new.pid = none)
    (hcopy : copyProcess k current flags new = some k') : ∃ l n, Copied k k' flags new l n := by
  obtain ⟨l, hl, hpids, hlinks⟩ := links_copyProcess hcopy
  have hnone : k.links new.ptr = none := by rw [Kernel.links, hptr, Option.map_none]
  have halive : k.links (l.copy current flags new).parent ≠ none := by
    simp only [Links.copy]
    split
    · exact h.parent hl
    · rw [hl]
      simp
  have hne : (l.copy current flags new).parent ≠ new.ptr := by
    intro heq
    exact halive (heq ▸ hnone)
  obtain ⟨hnew, hother⟩ := hlinks hne
  refine ⟨l, _, h, ⟨current, hl⟩, hnone, hpid, rfl, fun hthread => ?_, halive, rfl, rfl, hpids,
    hnew, hother⟩
  simp [Links.copy, hthread]

namespace Copied

variable {k k' : Kernel} {flags : CloneFlags} {new : NewTask} {l n : Links} {q : Ptr} {m' : Links}

theorem ne (h : Copied k k' flags new l n) (hq : k.links q ≠ none) : q ≠ new.ptr := by
  rintro rfl
  exact hq h.fresh

/-- An old task has its old links, and perhaps one more child. -/
theorem keep (h : Copied k k' flags new l n) {m : Links} (hm : k.links q = some m) :
    k'.links q = some (m.append (appended flags new n q)) := by
  rw [h.other q (h.ne (by rw [hm]; simp)), hm, Option.map_some]

theorem keep_ne_none (h : Copied k k' flags new l n) (hq : k.links q ≠ none) :
    k'.links q ≠ none := by
  rw [h.other q (h.ne hq)]
  simpa using hq

/-- Every task is the new one or an old one. -/
theorem links_cases (h : Copied k k' flags new l n) (hm' : k'.links q = some m') :
    (q = new.ptr ∧ m' = n) ∨
      (q ≠ new.ptr ∧ ∃ m, k.links q = some m ∧ m' = m.append (appended flags new n q)) := by
  by_cases hq : q = new.ptr
  · subst hq
    exact Or.inl ⟨rfl, Option.some.inj (hm'.symm.trans h.newLinks)⟩
  · rw [h.other q hq] at hm'
    obtain ⟨m, hm, rfl⟩ := Option.map_eq_some_iff.mp hm'
    exact Or.inr ⟨hq, m, hm, rfl⟩

/-- A thread has another leader, which has been there before. -/
theorem leader_eq_iff (h : Copied k k' flags new l n) :
    n.leader = new.ptr ↔ flags.thread = false := by
  obtain ⟨current, hl⟩ := h.creator
  obtain ⟨m, hm, -⟩ := h.tree.leader hl
  have hne : l.leader ≠ new.ptr := h.ne (by rw [hm]; simp)
  rw [h.leader]
  cases flags.thread <;> simp [hne]

/-- A new process is one more child of its parent. -/
theorem childOf_iff (h : Copied k k' flags new l n) (c p : Ptr) :
    k'.ChildOf c p ↔ k.ChildOf c p ∨ flags.thread = false ∧ c = new.ptr ∧ p = n.parent := by
  by_cases hc : c = new.ptr
  · subst hc
    constructor
    · rintro ⟨-, m, hm, hmleader, rfl⟩
      obtain rfl := Option.some.inj (h.newLinks.symm.trans hm)
      exact Or.inr ⟨h.leader_eq_iff.mp hmleader, rfl, rfl⟩
    · rintro (⟨-, m, hm, -⟩ | ⟨hflag, -, rfl⟩)
      · exact absurd (h.fresh.symm.trans hm) (by simp)
      · exact ⟨(h.ne h.tree.init).symm, n, h.newLinks, h.leader_eq_iff.mpr hflag, rfl⟩
  · unfold Kernel.ChildOf
    rw [h.other c hc]
    simp [Links.append, hc]

theorem tree_leader (h : Copied k k' flags new l n) (hm' : k'.links q = some m') :
    ∃ m, k'.links m'.leader = some m ∧ m.leader = m'.leader ∧ m.parent = m'.parent := by
  rcases h.links_cases hm' with ⟨rfl, rfl⟩ | ⟨-, m, hm, rfl⟩
  · by_cases hthread : flags.thread = true
    · obtain ⟨current, hl⟩ := h.creator
      obtain ⟨m, hm, hmleader, hmparent⟩ := h.tree.leader hl
      rw [h.leader, if_pos hthread, h.threadParent hthread]
      exact ⟨_, h.keep hm, hmleader, hmparent⟩
    · have hleader := h.leader_eq_iff.mpr (by simpa using hthread)
      exact ⟨_, by rw [hleader, h.newLinks], rfl, rfl⟩
  · obtain ⟨m₂, hm₂, hmleader, hmparent⟩ := h.tree.leader hm
    exact ⟨_, h.keep hm₂, hmleader, hmparent⟩

theorem tree_parent (h : Copied k k' flags new l n) (hm' : k'.links q = some m') :
    k'.links m'.parent ≠ none := by
  rcases h.links_cases hm' with ⟨-, rfl⟩ | ⟨-, m, hm, rfl⟩
  · exact h.keep_ne_none h.parent
  · exact h.keep_ne_none (q := m.parent) (h.tree.parent hm)

theorem tree_nodup (h : Copied k k' flags new l n) (hm' : k'.links q = some m') :
    m'.children.Nodup := by
  rcases h.links_cases hm' with ⟨-, rfl⟩ | ⟨-, m, hm, rfl⟩
  · rw [h.noChildren]
    exact List.nodup_nil
  · have hnotMem : new.ptr ∉ m.children := by
      intro hmem
      obtain ⟨-, m₂, hm₂, -⟩ := (h.tree.children hm _).mp hmem
      exact absurd (h.fresh.symm.trans hm₂) (by simp)
    simp only [Links.append, appended]
    split
    · exact List.nodup_append.mpr ⟨h.tree.nodup hm, List.pairwise_singleton _ _, by
        rintro a ha b hb rfl
        exact hnotMem (List.mem_singleton.mp hb ▸ ha)⟩
    · rw [List.append_nil]
      exact h.tree.nodup hm

theorem tree_children (h : Copied k k' flags new l n) (hm' : k'.links q = some m') (c : Ptr) :
    c ∈ m'.children ↔ k'.ChildOf c q := by
  rw [h.childOf_iff]
  rcases h.links_cases hm' with ⟨rfl, rfl⟩ | ⟨-, m, hm, rfl⟩
  · -- nobody has the new task as a parent
    rw [h.noChildren]
    refine ⟨fun hc => absurd hc List.not_mem_nil, fun hc => ?_⟩
    rcases hc with ⟨-, m, hm, -, hmparent⟩ | ⟨-, -, hqp⟩
    · exact absurd hmparent (h.ne (h.tree.parent hm))
    · exact absurd hqp.symm (h.ne h.parent)
  · rw [← h.tree.children hm]
    simp only [Links.append, appended, List.mem_append]
    refine or_congr Iff.rfl ?_
    by_cases hadd : flags.thread = false ∧ q = n.parent
    · rw [if_pos hadd, List.mem_singleton]
      exact ⟨fun hc => ⟨hadd.1, hc, hadd.2⟩, fun hc => hc.2.1⟩
    · rw [if_neg hadd]
      exact ⟨fun hc => absurd hc List.not_mem_nil, fun hc => absurd ⟨hc.1, hc.2.2⟩ hadd⟩

theorem tree_pid (h : Copied k k' flags new l n) {pid : ℤ} (hq : k'.pidTask pid = some q) :
    ∃ m', k'.links q = some m' ∧ m'.pid = pid := by
  rw [h.pidTask] at hq
  by_cases hpid : pid = new.pid
  · subst hpid
    rw [update_self] at hq
    obtain rfl := Option.some.inj hq
    exact ⟨n, h.newLinks, h.pid⟩
  · rw [update_of_ne hpid] at hq
    obtain ⟨m, hm, hmpid⟩ := h.tree.pid hq
    exact ⟨_, h.keep hm, hmpid⟩

theorem tree_found (h : Copied k k' flags new l n) (hm' : k'.links q = some m')
    (hinit : q ≠ initTask) :
    k'.pidTask m'.pid = some q := by
  rw [h.pidTask]
  rcases h.links_cases hm' with ⟨rfl, rfl⟩ | ⟨-, m, hm, rfl⟩
  · rw [h.pid, update_self]
  · have hfound := h.tree.found hm hinit
    -- no task has had the new pid
    have hpid : m.pid ≠ new.pid := by
      intro heq
      rw [heq, h.unnamed] at hfound
      exact absurd hfound (by simp)
    exact (update_of_ne hpid _ _).trans hfound

end Copied

namespace Tree

/-- `copy_process` puts the new task into the tree. -/
theorem copy {k k' : Kernel} (h : Tree k) {current : Ptr} {flags : CloneFlags} {new : NewTask}
    (hptr : k.task new.ptr = none) (hpid : k.pidTask new.pid = none)
    (hcopy : copyProcess k current flags new = some k') : Tree k' := by
  obtain ⟨l, n, hcopied⟩ := exists_copied h hptr hpid hcopy
  exact ⟨hcopied.keep_ne_none h.init, hcopied.tree_leader, hcopied.tree_parent, hcopied.tree_nodup,
    hcopied.tree_children, hcopied.tree_pid, hcopied.tree_found⟩

/-- One step of the system. -/
theorem step {rest : System → Kernel → Prop} (hrest : KeepsTree rest) {s s' : System} {e : Event}
    (h : Tree s.kernel) (hstep : Step rest s e s') : Tree s'.kernel := by
  cases hstep with
  | copy hpc hptr hpid hcopy => exact h.copy hptr hpid hcopy
  | load hpc ht => exact h
  | store hpc ht => exact h.congr (Kernel.links_set_self ht rfl) rfl
  | reset hpc ht => exact h.congr (Kernel.links_set_self ht rfl) rfl
  | wake hpc => exact h
  | rest hother => exact hrest hother h

end Tree

theorem Reaches.tree {rest : System → Kernel → Prop} (hrest : KeepsTree rest) {events : List Event}
    {s : System} (h : Reaches rest events s) : Tree s.kernel := by
  induction h with
  | boot comm => exact Tree.boot comm
  | step _ hstep ih => exact ih.step hrest hstep

/-! ## `process_tracer` -/

/-- The tasks of a list, except for `skip`. -/
def Kernel.tasksOf (k : Kernel) (skip : Option Ptr) (list : List Ptr) : List Task :=
  (list.filter fun q => skip ≠ some q).filterMap k.task

/-- The loops over the lists. -/
theorem listTasks_eq {k : Kernel} (skip : Option Ptr) {list : List Ptr}
    (h : ∀ q ∈ list, k.task q ≠ none) :
    listTasks k skip list =
      some ((k.tasksOf skip list).map entryLine, (k.tasksOf skip list).length) := by
  have hloop : ∀ (list : List Ptr) (lines : List Bytes) (cnt : ℕ), (∀ q ∈ list, k.task q ≠ none) →
      list.foldlM (fun s p => if skip = some p then some s
        else (k.task p).map fun t => (s.1 ++ [entryLine t], s.2 + 1)) (lines, cnt) =
      some (lines ++ (k.tasksOf skip list).map entryLine, cnt + (k.tasksOf skip list).length) := by
    intro list
    induction list with
    | nil =>
      intro lines cnt _
      simp [Kernel.tasksOf]
    | cons q list ih =>
      intro lines cnt h
      have htail : ∀ q ∈ list, k.task q ≠ none := fun q hq => h q (List.mem_cons_of_mem _ hq)
      obtain ⟨t, ht⟩ := Option.ne_none_iff_exists'.mp (h q List.mem_cons_self)
      rw [List.foldlM_cons]
      by_cases hskip : skip = some q
      · rw [if_pos hskip]
        simp only [Option.bind_eq_bind, Option.bind_some, ih _ _ htail]
        simp [Kernel.tasksOf, hskip]
      · rw [if_neg hskip]
        simp only [ht, Option.map_some, Option.bind_eq_bind, Option.bind_some, ih _ _ htail]
        simp [Kernel.tasksOf, hskip, ht]
        omega
  rw [listTasks, hloop list [] 0 h, List.nil_append, Nat.zero_add]

/-- The tasks of a list of children have different pids. -/
theorem Tree.nodup_tasksOf {k : Kernel} (h : Tree k) {p : Ptr} {t : Task} (ht : k.task p = some t)
    (skip : Option Ptr) : ((k.tasksOf skip t.children).map Task.pid).Nodup := by
  have hlinks : k.links p = some t.links := by rw [Kernel.links, ht, Option.map_some]
  have hpids : ∀ list : List Ptr, (∀ q ∈ list, q ∈ t.children) →
      ((list.filterMap k.task).map Task.pid).map k.pidTask = list.map some := by
    intro list hlist
    induction list with
    | nil => rfl
    | cons q list ih =>
      obtain ⟨hinit, l, hl, -⟩ := (h.children hlinks q).mp (hlist q List.mem_cons_self)
      obtain ⟨u, hu, rfl⟩ := Option.map_eq_some_iff.mp hl
      have hfound : k.pidTask u.pid = some q := h.found hl hinit
      rw [List.filterMap_cons, hu]
      simp only [List.map_cons, hfound, ih fun q hq => hlist q (List.mem_cons_of_mem _ hq)]
  refine List.Nodup.of_map k.pidTask ?_
  rw [Kernel.tasksOf, hpids _ fun q hq => (List.mem_filter.mp hq).1]
  exact ((h.nodup hlinks).filter _).map (Option.some_injective _)

theorem Tree.mem_tasksOf {k : Kernel} (h : Tree k) {p : Ptr} {t : Task} (ht : k.task p = some t)
    (skip : Option Ptr) (u : Task) :
    u ∈ k.tasksOf skip t.children ↔ ∃ q, k.ChildOf q p ∧ skip ≠ some q ∧ k.task q = some u := by
  have hlinks : k.links p = some t.links := by rw [Kernel.links, ht, Option.map_some]
  have hchildren : ∀ q, q ∈ t.children ↔ k.ChildOf q p := h.children hlinks
  simp [Kernel.tasksOf, hchildren, and_assoc]

/-- In every state of the system, `process_tracer` follows no wild pointer. It fails exactly when no
task has the pid. Otherwise it lists every process with the same parent and every child once, and
the numbers are theirs. A thread lists its own group leader as a sibling. -/
theorem processTracer_lists {rest : System → Kernel → Prop} (hrest : KeepsTree rest)
    {events : List Event} {s : System} (h : Reaches rest events s) (di : UInt64) :
    (s.kernel.pidTask (toInt di.toNat) = none ∧ processTracer s.kernel di = some (-1, [])) ∨
    ∃ (p : Ptr) (t leader parent : Task) (siblings children : List Task),
      s.kernel.pidTask (toInt di.toNat) = some p ∧ s.kernel.task p = some t ∧
        t.pid = toInt di.toNat ∧
      s.kernel.task t.groupLeader = some leader ∧ s.kernel.task t.realParent = some parent ∧
      processTracer s.kernel di = some (t.pid, report t leader parent
        (siblings.map entryLine, siblings.length) (children.map entryLine, children.length)) ∧
      (siblings.map Task.pid).Nodup ∧ (children.map Task.pid).Nodup ∧
      (∀ u, u ∈ siblings ↔ ∃ q, s.kernel.ChildOf q t.realParent ∧ q ≠ p ∧
        s.kernel.task q = some u) ∧
      (∀ u, u ∈ children ↔ ∃ q, s.kernel.ChildOf q p ∧ s.kernel.task q = some u) ∧
      (t.groupLeader ≠ p → t.groupLeader ≠ initTask → leader ∈ siblings) := by
  have htree := h.tree hrest
  rcases hp : s.kernel.pidTask (toInt di.toNat) with _ | p
  · refine Or.inl ⟨rfl, ?_⟩
    unfold processTracer
    simp only [hp]
  · obtain ⟨l, hl, hpid⟩ := htree.pid hp
    obtain ⟨m, hm, hmleader, hmparent⟩ := htree.leader hl
    obtain ⟨n, hn⟩ := Option.ne_none_iff_exists'.mp (htree.parent hl)
    obtain ⟨t, ht, rfl⟩ := Option.map_eq_some_iff.mp hl
    obtain ⟨leader, hleader, rfl⟩ := Option.map_eq_some_iff.mp hm
    obtain ⟨parent, hparent, rfl⟩ := Option.map_eq_some_iff.mp hn
    have halive : ∀ {q u}, s.kernel.task q = some u → ∀ c ∈ u.children, s.kernel.task c ≠ none := by
      intro q u hu c hc hnone
      have hlinks : s.kernel.links q = some u.links := by rw [Kernel.links, hu, Option.map_some]
      obtain ⟨-, l, hl, -⟩ := (htree.children hlinks c).mp hc
      rw [Kernel.links, hnone] at hl
      exact absurd hl (by simp)
    have htrace := processTracer_eq hp ht hleader hparent (listTasks_eq (some p) (halive hparent))
      (listTasks_eq none (halive ht))
    have hsiblings : ∀ u, u ∈ s.kernel.tasksOf (some p) parent.children ↔
        ∃ q, s.kernel.ChildOf q t.realParent ∧ q ≠ p ∧ s.kernel.task q = some u := by
      intro u
      rw [htree.mem_tasksOf (p := t.realParent) hparent]
      simp only [ne_eq, Option.some.injEq, eq_comm (a := p)]
    refine Or.inr ⟨p, t, leader, parent, _, _, rfl, ht, hpid, hleader, hparent, hpid ▸ htrace,
      htree.nodup_tasksOf hparent _, htree.nodup_tasksOf ht _, hsiblings, fun u => ?_,
        fun hne hinit => ?_⟩
    · rw [htree.mem_tasksOf ht]
      simp
    · -- the leader has the parent of the thread
      exact (hsiblings leader).mpr ⟨t.groupLeader, ⟨hinit, leader.links, hm, hmleader, hmparent⟩,
        hne, hleader⟩

theorem keepsTree_reschedules : KeepsTree Reschedules := by
  rintro s k ⟨p, t, state, ht, rfl⟩ h
  exact h.congr (Kernel.links_set_self ht rfl) rfl

/-- The first process creates a thread, which lists it as its sibling. -/
theorem processTracer_lists_thread :
    ∃ events s, Reaches Reschedules events s ∧
      ∃ (t leader parent : Task) (siblings children : List Task),
      t.groupLeader = 1 ∧ s.kernel.task 1 = some leader ∧ leader ∈ siblings ∧
      processTracer s.kernel 2 = some (2, report t leader parent
        (siblings.map entryLine, siblings.length) (children.map entryLine, children.length)) := by
  have hboot : Reaches Reschedules [] (boot []) := .boot []
  obtain ⟨s₁, h₁, hk₁, hpc₁⟩ := hboot.doFork 0 ⟨false, false⟩ ⟨1, 1, 0⟩ rfl rfl rfl rfl rfl rfl
  obtain ⟨s₂, h₂, hk₂, hpc₂⟩ := h₁.doFork 1 ⟨false, true⟩ ⟨2, 2, 0⟩ (by rw [hpc₁]; rfl)
    (by rw [hk₁]; rfl) (by rw [hk₁]; rfl) (by rw [hk₁]; rfl) rfl rfl
  have hdi : toInt (2 : UInt64).toNat = 2 := by decide
  have hp : s₂.kernel.pidTask (toInt (2 : UInt64).toNat) = some 2 := by rw [hdi, hk₂]; rfl
  obtain ⟨t₂, ht₂, hleader₂⟩ : ∃ t, s₂.kernel.task 2 = some t ∧ t.groupLeader = 1 := by
    rw [hk₂]
    exact ⟨_, rfl, rfl⟩
  rcases processTracer_lists keepsTree_reschedules h₂ 2 with ⟨hnone, -⟩ |
    ⟨p, t, leader, parent, siblings, children, hpid, ht, htpid, hleader, -, htrace, -, -, -, -,
      hthread⟩
  · exact absurd (hnone.symm.trans hp) (by simp)
  · obtain rfl := Option.some.inj (hpid.symm.trans hp)
    obtain rfl := Option.some.inj (ht.symm.trans ht₂)
    rw [hleader₂] at hleader hthread
    rw [htpid, hdi] at htrace
    exact ⟨_, s₂, h₂, t, leader, parent, siblings, children, hleader₂, hleader,
      hthread (by decide) (by decide), htrace⟩

end SchoolOS.ProcessTracer
