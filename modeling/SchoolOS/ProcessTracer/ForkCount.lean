import SchoolOS.ProcessTracer.Defs

/-!
# The number of forks

`fork_count` of a task is written by the task itself, and by its creator before it is woken up. No
two tasks write to it at the same time, so `current->fork_count++` loses no update although it takes
no lock: outside of `_do_fork`, the number of a task is the number of tasks that it has created,
threads included.
-/

namespace SchoolOS.ProcessTracer

open Function

/-- The number of tasks that `t` has created since it was created itself. The last event comes
first. -/
def forks (t : Ptr) : List Event → ℕ
  | [] => 0
  | .copy current p :: events =>
    if p = t then 0 else if current = t then forks t events + 1 else forks t events
  | .tick :: events => forks t events

/-- The new task of a task in `_do_fork`. -/
def Pc.child : Pc → Option Ptr
  | .outside => none
  | .copied p => some p
  | .loaded p _ => some p
  | .counted p => some p
  | .reset p => some p
  | .asleep => none

/-- The task has created another one and not counted it yet. -/
def Pc.uncounted : Pc → ℕ
  | .copied _ => 1
  | .loaded _ _ => 1
  | _ => 0

/-- The `fork_count` of a task, if the task exists. -/
def Kernel.count (k : Kernel) (p : Ptr) : Option ℤ := (k.task p).map Task.forkCount

/-- What the rest of the kernel does to the tasks: it creates none, writes no `fork_count`, and ends
no task that runs `_do_fork` or has not been woken up. -/
structure KeepsForkCounts (rest : System → Kernel → Prop) : Prop where
  count : ∀ {s k p n}, rest s k → k.count p = some n → s.kernel.count p = some n
  alive : ∀ {s k p}, rest s k → s.pc p ≠ .outside → s.kernel.count p ≠ none → k.count p ≠ none

/-- The numbers of the tasks after the events. -/
structure Counted (events : List Event) (s : System) : Prop where
  alive : ∀ p, s.pc p ≠ .outside → s.kernel.count p ≠ none
  child : ∀ {c p}, (s.pc c).child = some p → s.pc p = .asleep
  unique : ∀ {c c' p}, (s.pc c).child = some p → (s.pc c').child = some p → c = c'
  count : ∀ {p n}, s.kernel.count p = some n → s.pc p ≠ .asleep →
    IntRange n ∧ toInt (n + (s.pc p).uncounted) = toInt (forks p events)
  loaded : ∀ {c p n}, s.pc c = .loaded p n → s.kernel.count c = some n
  asleep : ∀ {p}, s.pc p = .asleep → forks p events = 0
  reset : ∀ {c p}, s.pc c = .reset p → s.kernel.count p = some 0

/-! ## The memory -/

theorem Kernel.count_set (k : Kernel) (p q : Ptr) (t : Task) :
    (k.set p t).count q = if q = p then some t.forkCount else k.count q := by
  unfold Kernel.count Kernel.set
  by_cases hq : q = p
  · subst hq
    simp
  · simp [hq]

theorem Kernel.count_attach (k : Kernel) (p q : Ptr) (t : Task) :
    (k.attach p t).count q = if q = p then some t.forkCount else k.count q := k.count_set p q t

/-- A new child changes the list of the parent only. -/
theorem Kernel.count_addChild {k k' : Kernel} {parent p : Ptr} (h : k.addChild parent p = some k')
    (q : Ptr) : k'.count q = k.count q := by
  obtain ⟨t, ht, h⟩ := Option.bind_eq_some_iff.mp h
  obtain rfl := Option.some.inj h
  rw [Kernel.count_set]
  by_cases hq : q = parent
  · subst hq
    rw [if_pos rfl, Kernel.count, ht, Option.map_some]
  · rw [if_neg hq]

/-- The new task appears, and the numbers of the other tasks stay. -/
theorem count_copyProcess {k k' : Kernel} {current : Ptr} {flags : CloneFlags} {new : NewTask}
    (h : copyProcess k current flags new = some k') :
    k.count current ≠ none ∧ k'.count new.ptr ≠ none ∧ ∀ q ≠ new.ptr, k'.count q = k.count q := by
  obtain ⟨cur, hcur, h⟩ := Option.bind_eq_some_iff.mp h
  have hcount : ∀ q, k'.count q =
      if q = new.ptr then some (cur.copy current flags new).forkCount else k.count q := by
    intro q
    rw [← Kernel.count_attach]
    simp only at h
    split at h
    · rw [← Option.some.inj h]
    · exact Kernel.count_addChild h q
  refine ⟨by simp [Kernel.count, hcur], ?_, fun q hq => ?_⟩
  · rw [hcount, if_pos rfl]
    simp
  · rw [hcount, if_neg hq]

/-! ## The steps -/

theorem toInt_add_one {x y : ℤ} (h : toInt x = toInt y) : toInt (x + 1) = toInt (y + 1) := by
  rw [← toInt_toInt_add, h, toInt_toInt_add]

namespace Counted

variable {events : List Event} {s : System} {c p : Ptr}

theorem boot (comm : Bytes) : Counted [] (boot comm) where
  alive _ hpc := absurd rfl hpc
  child h := by simp [ProcessTracer.boot, Pc.child] at h
  unique h := by simp [ProcessTracer.boot, Pc.child] at h
  count {p n} h _ := by
    have hn : n = 0 := by
      by_cases hp : p = initTask
      · subst hp
        simpa [Kernel.count, ProcessTracer.boot] using h.symm
      · simp [Kernel.count, ProcessTracer.boot, hp] at h
    subst hn
    exact ⟨by unfold IntRange; omega, rfl⟩
  loaded h := by simp [ProcessTracer.boot] at h
  asleep h := by simp [ProcessTracer.boot] at h
  reset h := by simp [ProcessTracer.boot] at h

/-- A task that sleeps is not the one that creates it. -/
theorem ne_child (h : Counted events s) (hc : (s.pc c).child = some p) : p ≠ c := by
  rintro rfl
  rw [h.child hc] at hc
  exact absurd hc (by simp [Pc.child])

/-- `copy_process`: the task `c` has created `p`. -/
theorem copy (h : Counted events s) {s' : System} (hpc : s.pc c = .outside)
    (hnew : s.kernel.count p = none) (hc : s.kernel.count c ≠ none) (hself : s'.pc c = .copied p)
    (hchild : s'.pc p = .asleep) (hother : ∀ q, q ≠ c → q ≠ p → s'.pc q = s.pc q)
    (hp : s'.kernel.count p ≠ none) (hframe : ∀ q ≠ p, s'.kernel.count q = s.kernel.count q) :
    Counted (.copy c p :: events) s' := by
  have hcp : c ≠ p := by
    rintro rfl
    exact hc hnew
  have houtside : s.pc p = .outside := by
    by_contra hne
    exact h.alive p hne hnew
  -- a task that sleeps already is another one
  have hasleep : ∀ q, s.pc q = .asleep → q ≠ c ∧ q ≠ p := by
    intro q hq
    constructor
    · rintro rfl
      exact absurd (hpc.symm.trans hq) (by simp)
    · rintro rfl
      exact absurd (houtside.symm.trans hq) (by simp)
  have hkids : ∀ d q, (s'.pc d).child = some q →
      d = c ∧ q = p ∨ d ≠ c ∧ d ≠ p ∧ (s.pc d).child = some q ∧ q ≠ c ∧ q ≠ p := by
    intro d q hd
    by_cases hdc : d = c
    · subst hdc
      rw [hself] at hd
      exact Or.inl ⟨rfl, (Option.some.inj hd).symm⟩
    · by_cases hdp : d = p
      · subst hdp
        rw [hchild] at hd
        exact absurd hd (by simp [Pc.child])
      · rw [hother d hdc hdp] at hd
        exact Or.inr ⟨hdc, hdp, hd, hasleep q (h.child hd)⟩
  constructor
  case alive =>
    intro q hq
    by_cases hqp : q = p
    · exact hqp ▸ hp
    · rw [hframe q hqp]
      by_cases hqc : q = c
      · exact hqc ▸ hc
      · exact h.alive q (by rwa [hother q hqc hqp] at hq)
  case child =>
    intro d q hd
    rcases hkids d q hd with ⟨-, rfl⟩ | ⟨-, -, hold, hqc, hqp⟩
    · exact hchild
    · rw [hother q hqc hqp]
      exact h.child hold
  case unique =>
    intro d d' q hd hd'
    rcases hkids d q hd with ⟨rfl, rfl⟩ | ⟨hdc, -, hold, -, hqp⟩
    · rcases hkids d' q hd' with ⟨rfl, -⟩ | ⟨-, -, -, -, hqp⟩
      · rfl
      · exact absurd rfl hqp
    · rcases hkids d' q hd' with ⟨-, rfl⟩ | ⟨-, -, hold', -, -⟩
      · exact absurd rfl hqp
      · exact h.unique hold hold'
  case count =>
    intro q n hn hq
    have hqp : q ≠ p := by
      rintro rfl
      exact hq hchild
    rw [hframe q hqp] at hn
    rw [forks, if_neg hqp.symm]
    by_cases hqc : q = c
    · subst hqc
      obtain ⟨hrange, hcount⟩ := h.count hn (by rw [hpc]; simp)
      rw [hpc] at hcount
      rw [hself, if_pos rfl]
      refine ⟨hrange, ?_⟩
      push_cast
      exact toInt_add_one (by simpa [Pc.uncounted] using hcount)
    · rw [if_neg (Ne.symm hqc), hother q hqc hqp]
      exact h.count hn (by rwa [hother q hqc hqp] at hq)
  case loaded =>
    intro d q n hd
    rcases hkids d q (by rw [hd]; rfl) with ⟨rfl, -⟩ | ⟨hdc, hdp, -⟩
    · exact absurd (hself.symm.trans hd) (by simp)
    · rw [hframe d hdp]
      exact h.loaded (by rwa [hother d hdc hdp] at hd)
  case asleep =>
    intro q hq
    rw [forks]
    by_cases hqp : q = p
    · rw [if_pos hqp.symm]
    · have hqc : q ≠ c := by
        rintro rfl
        exact absurd (hself.symm.trans hq) (by simp)
      rw [if_neg (Ne.symm hqp), if_neg (Ne.symm hqc)]
      exact h.asleep (by rwa [hother q hqc hqp] at hq)
  case reset =>
    intro d q hd
    rcases hkids d q (by rw [hd]; rfl) with ⟨rfl, -⟩ | ⟨hdc, hdp, -, -, hqp⟩
    · exact absurd (hself.symm.trans hd) (by simp)
    · rw [hframe q hqp]
      exact h.reset (by rwa [hother d hdc hdp] at hd)

/-- A step of `c` on behalf of its new task `p`, which changes no number but those of the two. -/
theorem advance (h : Counted events s) {s' : System} (hc : (s.pc c).child = some p)
    (hc' : (s'.pc c).child = some p) (hother : ∀ q ≠ c, s'.pc q = s.pc q)
    (halive : ∀ q, s'.kernel.count q = none → s.kernel.count q = none)
    (hframe : ∀ q, q ≠ c → q ≠ p → s'.kernel.count q = s.kernel.count q)
    (hcount : ∀ n, s'.kernel.count c = some n →
      IntRange n ∧ toInt (n + (s'.pc c).uncounted) = toInt (forks c events))
    (hloaded : ∀ q n, s'.pc c = .loaded q n → s'.kernel.count c = some n)
    (hreset : ∀ q, s'.pc c = .reset q → s'.kernel.count q = some 0) :
    Counted (.tick :: events) s' := by
  have hpc : p ≠ c := h.ne_child hc
  -- `c` still has the child `p`, and the other tasks are where they were
  have hkids : ∀ d q, (s'.pc d).child = some q → (s.pc d).child = some q := by
    intro d q hd
    by_cases hdc : d = c
    · subst hdc
      rwa [← hc', hd] at hc
    · rwa [hother d hdc] at hd
  -- another task and its child are none of the two, so their numbers are unchanged
  have hchildNe : ∀ d q, d ≠ c → (s.pc d).child = some q → d ≠ p ∧ q ≠ c ∧ q ≠ p := by
    intro d q hdc hd
    refine ⟨?_, ?_, ?_⟩
    · rintro rfl
      rw [h.child hc] at hd
      exact absurd hd (by simp [Pc.child])
    · rintro rfl
      rw [h.child hd] at hc
      exact absurd hc (by simp [Pc.child])
    · rintro rfl
      exact hdc (h.unique hd hc)
  constructor
  case alive =>
    intro q hq hnone
    by_cases hqc : q = c
    · subst hqc
      refine h.alive q (fun hout => ?_) (halive q hnone)
      rw [hout] at hc
      exact absurd hc (by simp [Pc.child])
    · exact h.alive q (by rwa [hother q hqc] at hq) (halive q hnone)
  case child =>
    intro d q hd
    have hq := h.child (hkids d q hd)
    by_cases hqc : q = c
    · subst hqc
      rw [hq] at hc
      exact absurd hc (by simp [Pc.child])
    · rw [hother q hqc, hq]
  case unique =>
    intro d d' q hd hd'
    exact h.unique (hkids d q hd) (hkids d' q hd')
  case count =>
    intro q n hn hq
    by_cases hqc : q = c
    · subst hqc
      exact hcount n hn
    · have hqp : q ≠ p := by
        rintro rfl
        exact hq (by rw [hother q hqc, h.child hc])
      rw [hframe q hqc hqp] at hn
      rw [hother q hqc] at hq ⊢
      exact h.count hn hq
  case loaded =>
    intro d q n hd
    by_cases hdc : d = c
    · subst hdc
      exact hloaded q n hd
    · rw [hother d hdc] at hd
      have hne := hchildNe d q hdc (by rw [hd]; rfl)
      rw [hframe d hdc hne.1]
      exact h.loaded hd
  case asleep =>
    intro q hq
    by_cases hqc : q = c
    · subst hqc
      rw [hq] at hc'
      exact absurd hc' (by simp [Pc.child])
    · exact h.asleep (by rwa [hother q hqc] at hq)
  case reset =>
    intro d q hd
    by_cases hdc : d = c
    · subst hdc
      exact hreset q hd
    · rw [hother d hdc] at hd
      have hne := hchildNe d q hdc (by rw [hd]; rfl)
      rw [hframe q hne.2.1 hne.2.2]
      exact h.reset hd

/-- `wake_up_new_task`. -/
theorem wake (h : Counted events s) {s' : System} (hpc : s.pc c = .reset p)
    (hself : s'.pc c = .outside) (hchild : s'.pc p = .outside)
    (hother : ∀ q, q ≠ c → q ≠ p → s'.pc q = s.pc q)
    (hframe : ∀ q, s'.kernel.count q = s.kernel.count q) : Counted (.tick :: events) s' := by
  have hc : (s.pc c).child = some p := by rw [hpc]; rfl
  -- what is not outside now was at the same place before
  have hsame : ∀ q, s'.pc q ≠ .outside → q ≠ c ∧ q ≠ p ∧ s'.pc q = s.pc q := by
    intro q hq
    have hqc : q ≠ c := by
      rintro rfl
      exact hq hself
    have hqp : q ≠ p := by
      rintro rfl
      exact hq hchild
    exact ⟨hqc, hqp, hother q hqc hqp⟩
  have hkids : ∀ d q, (s'.pc d).child = some q →
      d ≠ c ∧ (s.pc d).child = some q ∧ q ≠ c ∧ q ≠ p := by
    intro d q hd
    have hout : s'.pc d ≠ .outside := by
      intro hout
      rw [hout] at hd
      exact absurd hd (by simp [Pc.child])
    obtain ⟨hdc, -, heq⟩ := hsame d hout
    rw [heq] at hd
    refine ⟨hdc, hd, ?_, ?_⟩
    · rintro rfl
      rw [h.child hd] at hc
      exact absurd hc (by simp [Pc.child])
    · rintro rfl
      exact hdc (h.unique hd hc)
  constructor
  case alive =>
    intro q hq
    rw [hframe]
    exact h.alive q (by rwa [(hsame q hq).2.2] at hq)
  case child =>
    intro d q hd
    obtain ⟨-, hold, hqc, hqp⟩ := hkids d q hd
    rw [hother q hqc hqp]
    exact h.child hold
  case unique =>
    intro d d' q hd hd'
    exact h.unique (hkids d q hd).2.1 (hkids d' q hd').2.1
  case count =>
    intro q n hn hq
    rw [hframe] at hn
    by_cases hqp : q = p
    · -- the new task has the number 0, and has created no task
      subst hqp
      obtain rfl := Option.some.inj (hn.symm.trans (h.reset hpc))
      rw [hchild, forks, h.asleep (h.child hc)]
      exact ⟨by unfold IntRange; omega, rfl⟩
    · by_cases hqc : q = c
      · subst hqc
        have hold := h.count hn (by rw [hpc]; simp)
        rw [hpc] at hold
        rw [hself]
        exact hold
      · rw [hother q hqc hqp] at hq ⊢
        exact h.count hn hq
  case loaded =>
    intro d q n hd
    obtain ⟨-, -, heq⟩ := hsame d (by rw [hd]; simp)
    rw [hframe]
    exact h.loaded (heq ▸ hd)
  case asleep =>
    intro q hq
    obtain ⟨-, -, heq⟩ := hsame q (by rw [hq]; simp)
    exact h.asleep (heq ▸ hq)
  case reset =>
    intro d q hd
    obtain ⟨-, -, heq⟩ := hsame d (by rw [hd]; simp)
    rw [hframe]
    exact h.reset (heq ▸ hd)

/-- A step of the rest of the kernel. -/
theorem rest (h : Counted events s) {k : Kernel}
    (hcount : ∀ p n, k.count p = some n → s.kernel.count p = some n)
    (halive : ∀ p, s.pc p ≠ .outside → s.kernel.count p ≠ none → k.count p ≠ none) :
    Counted (.tick :: events) { s with kernel := k } := by
  have hkeep : ∀ q n, s.pc q ≠ .outside → s.kernel.count q = some n → k.count q = some n := by
    intro q n hq hn
    obtain ⟨n', hn'⟩ := Option.ne_none_iff_exists'.mp (halive q hq (by simp [hn]))
    rw [hn', ← hn, hcount q n' hn']
  refine ⟨fun q hq => ?_, h.child, h.unique, fun {q n} hn hq => ?_, fun {d q n} hd => ?_, h.asleep,
    fun {d q} hd => ?_⟩
  · exact halive q hq (h.alive q hq)
  · exact h.count (hcount q n hn) hq
  · exact hkeep d n (by rw [hd]; simp) (h.loaded hd)
  · have hq : s.pc q = .asleep := h.child (by rw [hd]; rfl)
    exact hkeep q 0 (by rw [hq]; simp) (h.reset hd)

/-- `current->fork_count++;` reads the number. -/
theorem step_load (h : Counted events s) {t : Task} (hpc : s.pc c = .copied p)
    (ht : s.kernel.task c = some t) :
    Counted (.tick :: events) { s with pc := update s.pc c (.loaded p t.forkCount) } := by
  have hself : update s.pc c (.loaded p t.forkCount) c = .loaded p t.forkCount := update_self _ _ _
  have hn : s.kernel.count c = some t.forkCount := by rw [Kernel.count, ht, Option.map_some]
  refine h.advance (c := c) (p := p) (by rw [hpc]; rfl) (by simp only [hself]; rfl)
    (fun q hq => update_of_ne hq _ _) (fun _ hq => hq) (fun _ _ _ => rfl) (fun n hcount => ?_)
    (fun q n hpc' => ?_) (fun q hpc' => ?_)
  · have hold := h.count hcount (by rw [hpc]; simp)
    rw [hpc] at hold
    simp only [hself]
    exact hold
  · simp only [hself, Pc.loaded.injEq] at hpc'
    rw [← hpc'.2]
    exact hn
  · simp only [hself] at hpc'
    exact absurd hpc' (by simp)

/-- A task that exists still exists after a write to a field of some task. -/
theorem count_set_eq_none {k : Kernel} {r q : Ptr} {t : Task} (hq : (k.set r t).count q = none) :
    k.count q = none := by
  rw [Kernel.count_set] at hq
  split at hq
  · exact absurd hq (by simp)
  · exact hq

/-- `current->fork_count++;` writes the next number. -/
theorem step_store (h : Counted events s) {count : ℤ} (t : Task) (hpc : s.pc c = .loaded p count) :
    Counted (.tick :: events)
      ⟨s.kernel.set c { t with forkCount := toInt (count + 1) }, update s.pc c (.counted p)⟩ := by
  have hself : update s.pc c (.counted p) c = .counted p := update_self _ _ _
  refine h.advance (c := c) (p := p) (by rw [hpc]; rfl) (by simp only [hself]; rfl)
    (fun q hq => update_of_ne hq _ _) (fun q hq => count_set_eq_none hq) (fun q hqc _ => ?_)
    (fun n hcount => ?_) (fun q n hpc' => ?_) (fun q hpc' => ?_)
  · simp only [Kernel.count_set, if_neg hqc]
  · -- no other task has written the number since it was read
    have hold := h.count (h.loaded hpc) (by rw [hpc]; simp)
    rw [hpc] at hold
    rw [Kernel.count_set, if_pos rfl, Option.some.injEq] at hcount
    simp only [hself, ← hcount]
    refine ⟨intRange_toInt _, ?_⟩
    have hzero : ((Pc.counted p).uncounted : ℤ) = 0 := rfl
    rw [hzero, toInt_toInt_add, Int.add_zero]
    exact hold.2
  · simp only [hself] at hpc'
    exact absurd hpc' (by simp)
  · simp only [hself] at hpc'
    exact absurd hpc' (by simp)

/-- `p->fork_count = 0;` -/
theorem step_reset (h : Counted events s) (t : Task) (hpc : s.pc c = .counted p) :
    Counted (.tick :: events)
      ⟨s.kernel.set p { t with forkCount := 0 }, update s.pc c (.reset p)⟩ := by
  have hself : update s.pc c (.reset p) c = .reset p := update_self _ _ _
  have hcp : p ≠ c := h.ne_child (by rw [hpc]; rfl)
  refine h.advance (c := c) (p := p) (by rw [hpc]; rfl) (by simp only [hself]; rfl)
    (fun q hq => update_of_ne hq _ _) (fun q hq => count_set_eq_none hq) (fun q _ hqp => ?_)
    (fun n hcount => ?_) (fun q n hpc' => ?_) (fun q hpc' => ?_)
  · simp only [Kernel.count_set, if_neg hqp]
  · -- the number of the creator is another one
    rw [Kernel.count_set, if_neg hcp.symm] at hcount
    have hold := h.count hcount (by rw [hpc]; simp)
    rw [hpc] at hold
    simp only [hself]
    exact hold
  · simp only [hself] at hpc'
    exact absurd hpc' (by simp)
  · simp only [hself, Pc.reset.injEq] at hpc'
    rw [Kernel.count_set, if_pos hpc'.symm]

/-- One step of the system. -/
theorem step {rest : System → Kernel → Prop} (hrest : KeepsForkCounts rest) {e : Event}
    {s' : System} (h : Counted events s) (hstep : Step rest s e s') : Counted (e :: events) s' := by
  cases hstep with
  | @copy c _ new k hpc hptr hpid hcopy =>
    obtain ⟨hc, hp, hframe⟩ := count_copyProcess hcopy
    have hcp : c ≠ new.ptr := by
      rintro rfl
      exact hc (by rw [Kernel.count, hptr, Option.map_none])
    refine h.copy hpc (by rw [Kernel.count, hptr, Option.map_none]) hc (update_self _ _ _) ?_ ?_ hp
      hframe
    · simp only
      rw [update_of_ne hcp.symm, update_self]
    · intro q hqc hqp
      simp only
      rw [update_of_ne hqc, update_of_ne hqp]
  | load hpc ht => exact h.step_load hpc ht
  | store hpc ht => exact h.step_store _ hpc
  | reset hpc ht => exact h.step_reset _ hpc
  | @wake c p hpc =>
    have hcp : p ≠ c := h.ne_child (by rw [hpc]; rfl)
    refine h.wake hpc ?_ (update_self _ _ _) ?_ (fun _ => rfl)
    · simp only
      rw [update_of_ne hcp.symm, update_self]
    · intro q hqc hqp
      simp only
      rw [update_of_ne hqp, update_of_ne hqc]
  | rest hother =>
    exact h.rest (fun _ _ hn => hrest.count hother hn) fun _ hpc hn => hrest.alive hother hpc hn

end Counted

theorem Reaches.counted {rest : System → Kernel → Prop} (hrest : KeepsForkCounts rest)
    {events : List Event} {s : System} (h : Reaches rest events s) : Counted events s := by
  induction h with
  | boot comm => exact Counted.boot comm
  | step _ hstep ih => exact ih.step hrest hstep

/-- The number of a task, while it may be in `_do_fork` itself. -/
theorem Counted.forkCount_eq {events : List Event} {s : System} (h : Counted events s) {p : Ptr}
    {t : Task} (ht : s.kernel.task p = some t) (hpc : s.pc p ≠ .asleep) :
    t.forkCount = toInt ((forks p events : ℤ) - (s.pc p).uncounted) := by
  obtain ⟨hrange, hcount⟩ :=
    h.count (p := p) (n := t.forkCount) (by rw [Kernel.count, ht, Option.map_some])
    hpc
  calc t.forkCount = toInt (t.forkCount + (s.pc p).uncounted + -(s.pc p).uncounted) := by
        rw [Int.add_neg_cancel_right, toInt_eq_self hrange]
    _ = toInt ((forks p events : ℤ) - (s.pc p).uncounted) := by
        rw [← toInt_toInt_add, hcount, toInt_toInt_add, Int.sub_eq_add_neg]

/-- `process_tracer` succeeds when every task that it looks up exists. -/
theorem processTracer_eq {k : Kernel} {di : UInt64} {p : Ptr} {t leader parent : Task}
    {siblings children : List Bytes × ℕ} (hp : k.pidTask (toInt di.toNat) = some p)
    (ht : k.task p = some t) (hleader : k.task t.groupLeader = some leader)
    (hparent : k.task t.realParent = some parent)
    (hsiblings : listTasks k (some p) parent.children = some siblings)
    (hchildren : listTasks k none t.children = some children) :
    processTracer k di = some (toInt di.toNat, report t leader parent siblings children) := by
  unfold processTracer
  simp only [hp, ht, hleader, hparent, hsiblings, hchildren, Option.bind_eq_bind, Option.bind_some]

/-- What `process_tracer` has looked up when it has printed something. -/
theorem processTracer_eq_some {k : Kernel} {di : UInt64} {p : Ptr}
    (hp : k.pidTask (toInt di.toNat) = some p) {ret : ℤ} {lines : List Bytes}
    (h : processTracer k di = some (ret, lines)) :
    ∃ t, k.task p = some t ∧ lines[4]? = some (forkLine t.forkCount) := by
  unfold processTracer at h
  simp only [hp] at h
  obtain ⟨t, ht, h⟩ := Option.bind_eq_some_iff.mp h
  obtain ⟨leader, -, h⟩ := Option.bind_eq_some_iff.mp h
  obtain ⟨parent, -, h⟩ := Option.bind_eq_some_iff.mp h
  obtain ⟨siblings, -, h⟩ := Option.bind_eq_some_iff.mp h
  obtain ⟨children, -, h⟩ := Option.bind_eq_some_iff.mp h
  obtain ⟨-, rfl⟩ := Prod.mk.inj (Option.some.inj h)
  exact ⟨t, ht, rfl⟩

/-- Whatever the tasks of the system do at the same time, the number of calls of `fork` that
`process_tracer` prints for a task is the number of tasks that it has created since its own
creation, less the one that it is creating and has not counted yet. The only exception is a task
that has not been woken up. -/
theorem processTracer_forkCount {rest : System → Kernel → Prop} (hrest : KeepsForkCounts rest)
    {events : List Event} {s : System} (h : Reaches rest events s) {di : UInt64} {p : Ptr}
    (hp : s.kernel.pidTask (toInt di.toNat) = some p) (hpc : s.pc p ≠ .asleep) {ret : ℤ}
    {lines : List Bytes} (htrace : processTracer s.kernel di = some (ret, lines)) :
    lines[4]? = some (forkLine (toInt ((forks p events : ℤ) - (s.pc p).uncounted))) := by
  obtain ⟨t, ht, hline⟩ := processTracer_eq_some hp htrace
  rw [hline, (h.counted hrest).forkCount_eq ht hpc]

/-- A call of `_do_fork` that no other task interrupts. -/
theorem Reaches.doFork {rest : System → Kernel → Prop} {events : List Event} {s : System}
    (h : Reaches rest events s) (c : Ptr) (flags : CloneFlags) (new : NewTask) {k : Kernel}
    {t t' : Task} (hpc : s.pc c = .outside) (hptr : s.kernel.task new.ptr = none)
    (hpid : s.kernel.pidTask new.pid = none) (hcopy : copyProcess s.kernel c flags new = some k)
    (ht : k.task c = some t)
    (ht' : (k.set c { t with forkCount := toInt (t.forkCount + 1) }).task new.ptr = some t') :
    ∃ s', Reaches rest (.tick :: .tick :: .tick :: .tick :: .copy c new.ptr :: events) s' ∧
      s'.kernel = (k.set c { t with forkCount := toInt (t.forkCount + 1) }).set new.ptr
        { t' with forkCount := 0 } ∧
      s'.pc = update (update s.pc c .outside) new.ptr .outside := by
  have hne : c ≠ new.ptr := by
    rintro rfl
    exact (count_copyProcess hcopy).1 (by rw [Kernel.count, hptr, Option.map_none])
  have hcopied := h.step (.copy hpc hptr hpid hcopy)
  have hloaded := hcopied.step (.load (update_self _ _ _) ht)
  have hcounted := hloaded.step (.store (update_self _ _ _) ht)
  have hreset := hcounted.step (.reset (update_self _ _ _) ht')
  have hwoken := hreset.step (.wake (update_self _ _ _))
  refine ⟨_, hwoken, rfl, ?_⟩
  simp only [update_idem]
  funext q
  by_cases hq : q = new.ptr
  · rw [hq, update_self, update_self]
  · rw [update_of_ne hq, update_of_ne hq]
    by_cases hc : q = c
    · rw [hc, update_self, update_self]
    · rw [update_of_ne hc, update_of_ne hc, update_of_ne hq]

/-- The rest of a kernel that only changes the states of tasks. -/
def Reschedules (s : System) (k : Kernel) : Prop :=
  ∃ p t state, s.kernel.task p = some t ∧ k = s.kernel.set p { t with state := state }

theorem count_of_reschedules {s : System} {k : Kernel} (h : Reschedules s k) (q : Ptr) :
    k.count q = s.kernel.count q := by
  obtain ⟨p, t, state, ht, rfl⟩ := h
  rw [Kernel.count_set]
  by_cases hq : q = p
  · subst hq
    rw [if_pos rfl, Kernel.count, ht, Option.map_some]
  · rw [if_neg hq]

theorem keepsForkCounts_reschedules : KeepsForkCounts Reschedules where
  count h hn := by rwa [count_of_reschedules h] at hn
  alive h _ hn := by rwa [count_of_reschedules h]

/-- The first process creates another one, after it was created by `init_task`. -/
theorem processTracer_forkCount_init :
    ∃ events s lines, Reaches Reschedules events s ∧ processTracer s.kernel 1 = some (1, lines) ∧
      forks 1 events = 1 ∧ lines[4]? = some (forkLine 1) := by
  have hboot : Reaches Reschedules [] (boot []) := .boot []
  obtain ⟨s₁, h₁, hk₁, hpc₁⟩ := hboot.doFork 0 ⟨false, false⟩ ⟨1, 1, 0⟩ rfl rfl rfl rfl rfl rfl
  obtain ⟨s₂, h₂, hk₂, hpc₂⟩ := h₁.doFork 1 ⟨false, false⟩ ⟨2, 2, 0⟩ (by rw [hpc₁]; rfl)
    (by rw [hk₁]; rfl) (by rw [hk₁]; rfl) (by rw [hk₁]; rfl) rfl rfl
  have hpc : s₂.pc 1 = .outside := by rw [hpc₂, hpc₁]; rfl
  have hdi : toInt (1 : UInt64).toNat = 1 := by decide
  have hp : s₂.kernel.pidTask (toInt (1 : UInt64).toNat) = some 1 := by rw [hdi, hk₂]; rfl
  have hlines := processTracer_eq hp (by rw [hk₂]; rfl) (by rw [hk₂]; rfl) (by rw [hk₂]; rfl)
    (by rw [hk₂]; rfl) (by rw [hk₂]; rfl)
  have hline := processTracer_forkCount keepsForkCounts_reschedules h₂ hp (by rw [hpc]; simp)
    hlines
  rw [hpc] at hline
  rw [hdi] at hlines
  exact ⟨_, s₂, _, h₂, hlines, rfl, hline⟩

end SchoolOS.ProcessTracer
