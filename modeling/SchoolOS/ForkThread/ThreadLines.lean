import SchoolOS.ForkThread.ThreadRuns

/-!
# The lines of the threads

Reference: `fprintf(f_temp_w, ..)` of `thread_func` in `Assignment3-2/thread.c`.

Every thread appends one line to the file that `main` reads. The lines go through one buffer, so the
file and the buffer together hold them in the order of the calls of `fprintf`. A thread is created
when the two threads below it are joined, so its line comes after theirs (`thread_lines`).
-/

namespace SchoolOS.ForkThread.Thread

/-- The thread has printed its line. -/
def Tid.HasPrinted : Tid → Prop
  | .running (.free _ _) => True
  | .running (.exit _) => True
  | .exited _ => True
  | .joined => True
  | _ => False

/-- The line of a node comes after the lines of the two nodes below it. -/
def ChildrenFirst (log : List ℕ) : Prop :=
  ∀ before i after, log = before ++ i :: after → i < maxProcesses → i * 2 ∈ before ∧
    i * 2 + 1 ∈ before

theorem ChildrenFirst.concat {log : List ℕ} (h : ChildrenFirst log) {i : ℕ}
    (hi : i < maxProcesses → i * 2 ∈ log ∧ i * 2 + 1 ∈ log) : ChildrenFirst (log ++ [i]) := by
  intro before j after hlog hj
  rcases List.eq_nil_or_concat after with rfl | ⟨after', k, rfl⟩
  · obtain ⟨rfl, hji⟩ := List.append_inj' hlog rfl
    obtain rfl := List.singleton_inj.mp hji
    exact hi hj
  · rw [List.concat_eq_append, ← List.cons_append, ← List.append_assoc] at hlog
    obtain ⟨hlog', -⟩ := List.append_inj' hlog rfl
    exact h before j after' hlog' hj

/-- The lines so far, where `log` are the threads that have printed them. -/
structure Logged (file : List ℤ) (log : List ℕ) (s : System) : Prop where
  lines : s.file ++ s.buffer = file ++ log.map (value file)
  nodup : log.Nodup
  mem : ∀ i, i ∈ log ↔ (s.threads i).HasPrinted
  order : ChildrenFirst log
  flushed : s.main = .done → s.buffer = []

section Steps

variable {file : List ℤ} {log : List ℕ} {s t : System} {i : ℕ}

/-- A step without a line. -/
theorem Logged.silent (h : Logged file log s) (hlines : t.file ++ t.buffer = s.file ++ s.buffer)
    (hthreads : ∀ i, (t.threads i).HasPrinted ↔ (s.threads i).HasPrinted)
    (hflushed : t.main = .done → t.buffer = []) : Logged file log t where
  lines := hlines.trans h.lines
  nodup := h.nodup
  mem i := (h.mem i).trans (hthreads i).symm
  order := h.order
  flushed := hflushed

/-- A change of one thread that prints nothing. -/
theorem hasPrinted_update {tid : Tid} (htid : tid.HasPrinted ↔ (s.threads i).HasPrinted) (j : ℕ) :
    (Function.update s.threads i tid j).HasPrinted ↔ (s.threads j).HasPrinted := by
  by_cases hj : j = i
  · subst hj
    rw [Function.update_self]
    exact htid
  · rw [Function.update_of_ne hj]

/-- The threads below a node that is created are joined. -/
theorem Inv.joined_children (h : Inv file s) (hc : s.main.Created i) (hi : i < maxProcesses) :
    s.threads (i * 2) = .joined ∧ s.threads (i * 2 + 1) = .joined := by
  have hpos := (h.bounds hc).1
  have hmax : maxProcesses = 64 := rfl
  have hchild : ∀ j, j = i * 2 ∨ j = i * 2 + 1 → s.main.Created j ∧ s.main.Joined j := by
    intro j hj
    unfold MainPc.Created MainPc.Joined at *
    split at hc
    all_goals
      rename_i hm
      simp only [hm]
      omega
  exact ⟨h.joined (hchild _ (.inl rfl)).1 (hchild _ (.inl rfl)).2,
    h.joined (hchild _ (.inr rfl)).1 (hchild _ (.inr rfl)).2⟩

/-- `main` has joined every thread when it is done. -/
theorem Inv.main_ne_done (h : Inv file s) {pc : Pc} (ht : s.threads i = .running pc) :
    s.main ≠ .done := by
  intro hdone
  have hok := h.tid ht
  have hcreated : s.main.Created i ∧ ¬ s.main.Joined i := by
    cases pc with
    | _ => exact ⟨hok.1, hok.2.1⟩
  simp only [hdone, MainPc.Created, MainPc.Joined] at hcreated
  omega

theorem nextLeaf_ne_done (i : ℕ) : nextLeaf i ≠ .done := by
  unfold nextLeaf
  split <;> simp

theorem nextNode_ne_done (i : ℕ) : nextNode i ≠ .done := by
  unfold nextNode
  split <;> simp

/-- One step of `main` or of a thread. -/
theorem Logged.step (h : Logged file log s) (hinv : Inv file s) (hstep : Step s t) :
    ∃ log', Logged file log' t := by
  cases hstep with
  | mallocLeaf b hm ha => exact ⟨log, h.silent rfl (fun _ => Iff.rfl) fun hdone => by simp at hdone⟩
  | scan hm ha => exact ⟨log, h.silent rfl (fun _ => Iff.rfl) fun hdone => by simp at hdone⟩
  | @createLeaf i a hm =>
    have hfresh : ¬ s.main.Created i ∧ ¬ s.main.Joined i := hm ▸ createLeaf_fresh i a
    have habsent : s.threads i = .absent := hinv.absent hfresh.1 hfresh.2
    exact ⟨log, h.silent rfl (hasPrinted_update (by rw [habsent]; rfl)) fun hdone =>
      absurd hdone (nextLeaf_ne_done i)⟩
  | mallocNode b hm ha => exact ⟨log, h.silent rfl (fun _ => Iff.rfl) fun hdone => by simp at hdone⟩
  | joinLeft hm ht ha =>
    exact ⟨log, h.silent rfl (hasPrinted_update (by rw [ht]; rfl)) fun hdone => by simp at hdone⟩
  | joinRight hm ht ha =>
    exact ⟨log, h.silent rfl (hasPrinted_update (by rw [ht]; rfl)) fun hdone => by simp at hdone⟩
  | @createNode i a hm =>
    have hmain := hinv.main
    rw [MainOk, hm] at hmain
    have hfresh : ¬ s.main.Created i ∧ ¬ s.main.Joined i := hm ▸ createNode_fresh hmain.1 a
    have habsent : s.threads i = .absent := hinv.absent hfresh.1 hfresh.2
    exact ⟨log, h.silent rfl (hasPrinted_update (by rw [habsent]; rfl)) fun hdone =>
      absurd hdone (nextNode_ne_done i)⟩
  | joinLast b hm ht =>
    -- `fclose` writes out the buffer
    exact ⟨log, h.silent (List.append_nil _) (hasPrinted_update (by rw [ht]; rfl)) fun _ => rfl⟩
  | add ht ha =>
    exact ⟨log, h.silent rfl (hasPrinted_update (by rw [ht]; rfl)) h.flushed⟩
  | @print i a sum out rest ht hbuffer =>
    obtain ⟨hc, -, hsum, -⟩ := hinv.tid ht
    have hnotMem : i ∉ log := by
      rw [h.mem, ht]
      exact not_false
    refine ⟨log ++ [i], ?_, ?_, fun j => ?_, h.order.concat fun hi => ?_, fun hdone => ?_⟩
    · simp only [List.append_assoc, List.map_append, List.map_singleton]
      rw [← hbuffer, ← List.append_assoc, h.lines, List.append_assoc, hsum]
    · exact List.nodup_append.mpr ⟨h.nodup, List.pairwise_singleton _ _, by
        rintro j hj k hk rfl
        exact hnotMem (List.mem_singleton.mp hk ▸ hj)⟩
    · rw [List.mem_append, List.mem_singleton, h.mem]
      by_cases hj : j = i
      · subst hj
        simp [Tid.HasPrinted]
      · simp only [Function.update_of_ne hj, hj, or_false]
    · obtain ⟨hleft, hright⟩ := hinv.joined_children hc hi
      rw [h.mem, h.mem, hleft, hright]
      exact ⟨trivial, trivial⟩
    · exact absurd hdone (hinv.main_ne_done ht)
  | free ht => exact ⟨log, h.silent rfl (hasPrinted_update (by rw [ht]; rfl)) h.flushed⟩
  | exit ht => exact ⟨log, h.silent rfl (hasPrinted_update (by rw [ht]; rfl)) h.flushed⟩

/-- What a run leads to: the sum, and a line for every node of the tree at the end of the file. -/
structure DoneWithLines (file : List ℤ) (s : System) : Prop where
  done : Done file s
  lines : ∃ log : List ℕ, s.file = file ++ log.map (value file) ∧
    log.Perm (List.range' 1 (maxProcesses * 2 - 1)) ∧ ChildrenFirst log

end Steps

end SchoolOS.ForkThread.Thread
