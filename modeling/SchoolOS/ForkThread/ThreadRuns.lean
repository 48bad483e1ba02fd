import SchoolOS.ForkThread.ThreadInvariant
import SchoolOS.Lib.Runs

/-!
# Every run of the thread tree

`thread_ends` says what every run of `main` and the threads leads to. Every step is one of a bounded
number of steps of `main` or of a thread. A thread that runs can always go on, and when no thread
runs, the thread that `main` waits for has exited.
-/

namespace SchoolOS.ForkThread.Thread

/-! ## The number of steps -/

section Ends

variable {file : List ℤ} {s t : System} {i : ℕ}

/-- The steps that `main` has left. -/
def MainPc.weight : MainPc → ℕ
  | .mallocLeaf i => 3 * (maxProcesses * 2 - i) + 4 * maxProcesses
  | .scan i _ => 3 * (maxProcesses * 2 - i) + 4 * maxProcesses - 1
  | .createLeaf i _ => 3 * (maxProcesses * 2 - i) + 4 * maxProcesses - 2
  | .mallocNode i => 4 * i + 1
  | .joinLeft i _ => 4 * i
  | .joinRight i _ => 4 * i - 1
  | .createNode i _ => 4 * i - 2
  | .joinLast => 1
  | .done => 0

/-- The steps that a thread has left. -/
def Tid.weight : Tid → ℕ
  | .absent => 4
  | .running (.add _) => 4
  | .running (.print _ _) => 3
  | .running (.free _ _) => 2
  | .running (.exit _) => 1
  | .exited _ => 0
  | .joined => 0

/-- The steps that the threads have left. -/
def threadsWeight (threads : ℕ → Tid) : ℕ :=
  ∑ i ∈ Finset.range (maxProcesses * 2), (threads i).weight

/-- The steps that `main` and the threads have left. -/
def System.weight (s : System) : ℕ := s.main.weight + threadsWeight s.threads

theorem threadsWeight_update (threads : ℕ → Tid) (tid : Tid) (hi : i < maxProcesses * 2) :
    threadsWeight (Function.update threads i tid) + (threads i).weight =
      threadsWeight threads + tid.weight := by
  have hmem : i ∈ Finset.range (maxProcesses * 2) := Finset.mem_range.mpr hi
  have hrest :
    ∑ j ∈ (Finset.range (maxProcesses * 2)).erase i, (Function.update threads i tid j).weight =
      ∑ j ∈ (Finset.range (maxProcesses * 2)).erase i, (threads j).weight := by
    refine Finset.sum_congr rfl ?_
    intro j hj
    rw [Function.update_of_ne (Finset.ne_of_mem_erase hj)]
  have hnew := Finset.add_sum_erase (Finset.range (maxProcesses * 2))
    (fun j => (Function.update threads i tid j).weight) hmem
  have hold :=
    Finset.add_sum_erase (Finset.range (maxProcesses * 2)) (fun j => (threads j).weight) hmem
  simp only [Function.update_self] at hnew
  unfold threadsWeight
  omega

/-- A step of a thread takes it one step closer to its end. -/
theorem Inv.weight_lt_of_thread (h : Inv file s) (hmain : t.main = s.main) {tid tid' : Tid}
    (ht : s.threads i = tid) (ht' : t.threads = Function.update s.threads i tid')
    (hc : s.main.Created i) (hlt : tid'.weight < tid.weight) : t.weight < s.weight := by
  have hsum := threadsWeight_update s.threads tid' (h.bounds hc).2
  rw [ht] at hsum
  rw [System.weight, System.weight, hmain, ht']
  omega

/-- A step of `main` that creates or joins the thread `i`. -/
theorem weight_lt_of_main {tid tid' : Tid} (ht : s.threads i = tid)
    (ht' : t.threads = Function.update s.threads i tid') (hi : i < maxProcesses * 2)
    (hle : tid'.weight ≤ tid.weight) (hlt : t.main.weight < s.main.weight) :
    t.weight < s.weight := by
  have hsum := threadsWeight_update s.threads tid' hi
  rw [ht] at hsum
  rw [System.weight, System.weight, ht']
  omega

theorem nextLeaf_weight (hi : i < maxProcesses * 2) (a : ℕ) :
    (nextLeaf i).weight < (MainPc.createLeaf i a).weight := by
  have hmax : maxProcesses = 64 := rfl
  unfold nextLeaf
  split
  · simp only [MainPc.weight]
    omega
  · simp only [MainPc.weight]
    omega

theorem nextNode_weight (hi : 0 < i) (a : ℕ) :
    (nextNode i).weight < (MainPc.createNode i a).weight := by
  unfold nextNode
  split
  · simp only [MainPc.weight]
    omega
  · simp only [MainPc.weight]
    omega

theorem Inv.weight_lt (h : Inv file s) (hstep : Step s t) : t.weight < s.weight := by
  have hmain := h.main
  unfold MainOk at hmain
  have hmax : maxProcesses = 64 := rfl
  cases hstep with
  | mallocLeaf b hm ha =>
    simp only [System.weight, hm, MainPc.weight]
    omega
  | scan hm ha =>
    simp only [System.weight, hm, MainPc.weight]
    omega
  | @createLeaf i a hm =>
    rw [hm] at hmain
    obtain ⟨k, hk, hi, _⟩ := hmain
    have hfresh : ¬ s.main.Created i ∧ ¬ s.main.Joined i := hm ▸ createLeaf_fresh i a
    have habsent : s.threads i = .absent := h.absent hfresh.1 hfresh.2
    exact weight_lt_of_main habsent rfl (by omega) (le_refl 4) (hm ▸ nextLeaf_weight (by omega) _)
  | mallocNode b hm ha =>
    simp only [System.weight, hm, MainPc.weight]
    omega
  | joinLeft hm ht ha =>
    rw [hm] at hmain
    refine weight_lt_of_main ht rfl (by omega) (le_refl 0) ?_
    simp only [hm, MainPc.weight]
    omega
  | joinRight hm ht ha =>
    rw [hm] at hmain
    refine weight_lt_of_main ht rfl (by omega) (le_refl 0) ?_
    simp only [hm, MainPc.weight]
    omega
  | @createNode i a hm =>
    rw [hm] at hmain
    have hfresh : ¬ s.main.Created i ∧ ¬ s.main.Joined i := hm ▸ createNode_fresh hmain.1 a
    have habsent : s.threads i = .absent := h.absent hfresh.1 hfresh.2
    exact weight_lt_of_main habsent rfl (by omega) (le_refl 4) (hm ▸ nextNode_weight hmain.1 _)
  | joinLast b hm ht =>
    refine weight_lt_of_main ht rfl (by decide) (le_refl 0) ?_
    simp only [hm, MainPc.weight]
    omega
  | add ht ha => exact h.weight_lt_of_thread rfl ht rfl (h.tid ht).1 (Nat.lt_succ_self 3)
  | print ht _ => exact h.weight_lt_of_thread rfl ht rfl (h.tid ht).1 (Nat.lt_succ_self 2)
  | free ht => exact h.weight_lt_of_thread rfl ht rfl (h.tid ht).1 (Nat.lt_succ_self 1)
  | exit ht => exact h.weight_lt_of_thread rfl ht rfl (h.tid ht).1 (Nat.lt_succ_self 0)

/-! ## The end of a run -/

/-- A thread that runs can go on. -/
theorem Inv.step_of_running (h : Inv file s) {pc : Pc} (ht : s.threads i = .running pc) :
    ∃ t, Step s t := by
  cases pc with
  | add a =>
    obtain ⟨_, _, ⟨b, hb, _⟩, _⟩ := h.tid ht
    exact ⟨_, .add ht hb⟩
  | print a sum => exact ⟨_, .print ht (List.append_nil _).symm⟩
  | free a sum => exact ⟨_, .free ht⟩
  | exit sum => exact ⟨_, .exit ht⟩

/-- When no thread runs, a thread that is created and not joined has exited. -/
theorem Inv.exited (h : Inv file s) (hrun : ∀ i pc, s.threads i ≠ .running pc)
    (hc : s.main.Created i) (hj : ¬ s.main.Joined i) : ∃ sum, s.threads i = .exited sum := by
  have hok := h.threads i
  cases ht : s.threads i with
  | absent =>
    rw [ht] at hok
    exact absurd hc hok.1
  | running pc => exact absurd ht (hrun i pc)
  | exited sum => exact ⟨sum, rfl⟩
  | joined =>
    rw [ht] at hok
    exact absurd hok.1 hj

/-- When no thread runs, `main` can go on. -/
theorem Inv.step_of_main (h : Inv file s) (hrun : ∀ i pc, s.threads i ≠ .running pc)
    (hdone : s.main ≠ .done) : ∃ t, Step s t := by
  have hmain := h.main
  unfold MainOk at hmain
  have hmax : maxProcesses = 64 := rfl
  have hlive := h.owned.live none
  obtain ⟨n, hn⟩ := h.bounded
  cases hm : s.main with
  | mallocLeaf i => exact ⟨_, .mallocLeaf (fun _ => 0) hm (hn n (le_refl n))⟩
  | scan i a =>
    obtain ⟨b, hb⟩ := hlive a (by rw [hm]; rfl)
    exact ⟨_, .scan hm hb⟩
  | createLeaf i a => exact ⟨_, .createLeaf hm⟩
  | mallocNode i => exact ⟨_, .mallocNode (fun _ => 0) hm (hn n (le_refl n))⟩
  | joinLeft i a =>
    rw [hm] at hmain
    obtain ⟨b, hb⟩ := hlive a (by rw [hm]; rfl)
    obtain ⟨sum, ht⟩ := h.exited hrun (i := i * 2) (by simp only [hm, MainPc.Created]; omega)
      (by simp only [hm, MainPc.Joined]; omega)
    exact ⟨_, .joinLeft hm ht hb⟩
  | joinRight i a =>
    rw [hm] at hmain
    obtain ⟨b, hb⟩ := hlive a (by rw [hm]; rfl)
    obtain ⟨sum, ht⟩ := h.exited hrun (i := i * 2 + 1) (by simp only [hm, MainPc.Created]; omega)
      (by simp only [hm, MainPc.Joined]; omega)
    exact ⟨_, .joinRight hm ht hb⟩
  | createNode i a => exact ⟨_, .createNode hm⟩
  | joinLast =>
    obtain ⟨sum, ht⟩ := h.exited hrun (i := 1) (by simp [hm, MainPc.Created, hmax])
      (by simp [hm, MainPc.Joined])
    exact ⟨_, .joinLast (fun _ => 0) hm ht⟩
  | done => exact absurd hm hdone

theorem Inv.exists_step (h : Inv file s) (hdone : s.main ≠ .done) : ∃ t, Step s t := by
  by_cases hrun : ∃ i pc, s.threads i = .running pc
  · obtain ⟨i, pc, ht⟩ := hrun
    exact h.step_of_running ht
  · exact h.step_of_main (fun i pc ht => hrun ⟨i, pc, ht⟩) hdone

theorem Inv.joined (h : Inv file s) (hc : s.main.Created i) (hj : s.main.Joined i) :
    s.threads i = .joined := by
  have hok := h.threads i
  cases ht : s.threads i with
  | absent =>
    rw [ht] at hok
    exact absurd hc hok.1
  | running pc =>
    rw [ht] at hok
    cases pc with
    | _ => exact absurd hj hok.2.1
  | exited sum =>
    rw [ht] at hok
    exact absurd hj hok.2.1
  | joined => rfl

/-- What a run leads to: `main` has printed the sum, the pair `k` was scanned once, for the leaf
`k`, and the leaf has added the numbers of the pair, and nothing else. -/
def Done (file : List ℤ) (s : System) : Prop :=
  s.printed = some (total file) ∧ s.scanned = scans maxProcesses ∧
    ∀ k < maxProcesses, s.added (maxProcesses + k) = [(num file (2 * k), num file (2 * k + 1))]

theorem Inv.done (h : Inv file s) (htotal : IntRange (total file)) (hlast : ∀ t, ¬ Step s t) :
    Done file s := by
  have hdone : s.main = .done := by
    by_contra hne
    obtain ⟨t, ht⟩ := h.exists_step hne
    exact hlast t ht
  have hmain := h.main
  rw [MainOk, hdone] at hmain
  obtain ⟨hscans, hprinted⟩ := hmain
  refine ⟨?_, hscans, ?_⟩
  · rw [hprinted, value_one, toInt_eq_self htotal]
  · intro k hk
    have hmax : maxProcesses = 64 := rfl
    have hjoined : s.threads (maxProcesses + k) = .joined := by
      refine h.joined ?_ ?_
      · simp only [hdone, MainPc.Created]
        omega
      · simp only [hdone, MainPc.Joined]
        omega
    rw [(h.tid hjoined).2, operands_leaf]

/-- **The thread tree adds up the numbers**: whatever the order of the steps of `main` and the
threads, they come to an end, and what `main` prints is the sum. -/
theorem thread_ends (hlen : maxProcesses * 2 ≤ file.length) (htotal : IntRange (total file)) :
    EveryRunEnds Step (Done file) (start file) :=
  EveryRunEnds.of_measure System.weight (inv_start file) (fun _ _ hs hstep => hs.step hlen hstep)
    (fun _ _ hs hstep => hs.weight_lt hstep) (fun _ hs hlast => hs.done htotal hlast)

end Ends

end SchoolOS.ForkThread.Thread
