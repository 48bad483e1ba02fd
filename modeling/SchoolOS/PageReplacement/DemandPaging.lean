import SchoolOS.PageReplacement.OptStep
import SchoolOS.PageReplacement.ClockStep

/-!
# The simulators are demand-paging runs

Each of the four loops gives a run of `Paging`: the table changes only on a fault, and a page is
replaced exactly if the table is full (`demandPaging`). `OPT` replaces a page whose next use is
farthest away, so no policy has fewer faults (`opt_optimal`).
-/

namespace SchoolOS.PageReplacement

open Paging (DemandRun OptimalRun Policy faults faultsUpTo)

variable {m : ℕ} {string : List ℤ}

/-- The pages `arr[0]`, …, `arr[tail-1]` as a set. -/
def resident (trace : ℕ → Frames) (k : ℕ) : Finset ℤ := (trace k).q.pages.toFinset

/-- A run of a simulator with `m` frames, where `trace k` are the locals after `k` references. -/
structure PagingRun (m : ℕ) (string : List ℤ) (trace : ℕ → Frames) : Prop where
  nodup : ∀ k ≤ string.length, (trace k).q.pages.Nodup
  tail : ∀ k ≤ string.length, (trace k).q.tail = (trace k).q.pages.length
  tail_le : ∀ k ≤ string.length, (trace k).q.tail ≤ m
  mem : ∀ i (hi : i < string.length), string[i] ∈ (trace (i + 1)).q.pages
  run : DemandRun m string (resident trace)
  pageFault : ∀ k ≤ string.length, (trace k).pageFault = faultsUpTo string (resident trace) k
  distinct_le : string.toFinset.card ≤ (trace string.length).pageFault
  le_length : (trace string.length).pageFault ≤ string.length
  eq_distinct : string.toFinset.card ≤ m → (trace string.length).pageFault = string.toFinset.card

theorem PagingRun.pageFault_length {trace : ℕ → Frames} (h : PagingRun m string trace) :
    (trace string.length).pageFault = faults string (resident trace) := by
  rw [h.pageFault _ le_rfl, Paging.faultsUpTo_length]

/-- Steps that serve the references make a run. -/
theorem pagingRun_of_served {trace : ℕ → Frames} (hpages : (trace 0).q.pages = [])
    (hfault : (trace 0).pageFault = 0) (hvalid : ∀ k ≤ string.length, (trace k).Valid m)
    (hserved : ∀ i (hi : i < string.length), (trace i).Served m string[i] (trace (i + 1))) :
    PagingRun m string trace := by
  have hrun : DemandRun m string (resident trace) := by
    refine ⟨?_, fun i hi => (hserved i hi).serves.replaces⟩
    rw [resident, hpages, List.toFinset_nil]
  have hcount : ∀ k ≤ string.length,
      (trace k).pageFault = faultsUpTo string (resident trace) k := by
    intro k hk
    induction k with
    | zero => rw [hfault, Paging.faultsUpTo_zero]
    | succ k ih =>
      rw [(hserved k hk).pageFault, ih (Nat.le_of_succ_le hk), Paging.faultsUpTo_succ hk]
      simp only [resident, List.mem_toFinset]
  have hfaults : (trace string.length).pageFault = faults string (resident trace) := by
    rw [hcount _ le_rfl, Paging.faultsUpTo_length]
  refine ⟨fun k hk => (hvalid k hk).nodup, fun k hk => (hvalid k hk).represents.tail, ?_, ?_, hrun,
    hcount, ?_, ?_, ?_⟩
  · intro k hk
    rw [(hvalid k hk).represents.tail]
    exact_mod_cast (hvalid k hk).represents.length_le
  · exact fun i hi => List.mem_toFinset.mp (hrun.step i hi).mem
  · rw [hfaults]
    exact hrun.card_toFinset_le_faults
  · rw [hfaults]
    exact DemandRun.faults_le_length _ _
  · rw [hfaults]
    exact hrun.faults_eq

theorem valid_init (arr : CArray MAX_SIZE) (hmax : m < MAX_SIZE) :
    Frames.Valid m ⟨.init arr m, 0⟩ :=
  ⟨Queue.represents_init arr hmax, List.nodup_nil⟩

/-! ## The four runs -/

section Runs

variable (hm : 1 ≤ m) (hmax : m < MAX_SIZE)

include hm hmax

theorem fifo_run (arr : CArray MAX_SIZE) (string : List ℤ) :
    ∃ trace : ℕ → Frames, (∀ k ≤ string.length, fifo arr m string k = some (trace k)) ∧
      PagingRun m string trace := by
  obtain ⟨trace, h0, hrun, hserved⟩ := iterate_trace string (I := Frames.Valid m)
    (R := fun page _ s s' => s.Served m page s') (fun _ _ _ => fifoStep_served hm)
    (valid_init arr hmax)
  refine ⟨trace, fun k hk => (hrun k hk).1, ?_⟩
  exact pagingRun_of_served (by rw [h0]; rfl) (by rw [h0]) (fun k hk => (hrun k hk).2) hserved

theorem lru_run (arr : CArray MAX_SIZE) (string : List ℤ) :
    ∃ trace : ℕ → Frames, (∀ k ≤ string.length, lru arr m string k = some (trace k)) ∧
      PagingRun m string trace := by
  obtain ⟨trace, h0, hrun, hserved⟩ := iterate_trace string (I := Frames.Valid m)
    (R := fun page _ s s' => s.Served m page s') (fun _ _ _ => lruStep_served hm)
    (valid_init arr hmax)
  refine ⟨trace, fun k hk => (hrun k hk).1, ?_⟩
  exact pagingRun_of_served (by rw [h0]; rfl) (by rw [h0]) (fun k hk => (hrun k hk).2) hserved

theorem clock_run (arr bit : CArray MAX_SIZE) (string : List ℤ) :
    ∃ trace : ℕ → Clock, (∀ k ≤ string.length, clock arr bit m string k = some (trace k)) ∧
      PagingRun m string (fun k => (trace k).toFrames) ∧
      ∀ k ≤ string.length, (trace k).bitQueue.tail = (trace k).q.tail ∧ 0 ≤ (trace k).evict ∧
        (trace k).evict < m := by
  obtain ⟨trace, h0, hrun, hserved⟩ := iterate_trace string
    (I := fun s : Clock => ∃ t : SecondChance ℤ, s.Refines m t ∧ t.pages.Nodup)
    (R := fun page _ s s' => s.Served m page s'.toFrames)
    (fun _ _ _ ⟨_, h, hnodup⟩ => clockStep_served h hnodup)
    ⟨.start, Clock.refines_start arr bit hm hmax, List.nodup_nil⟩
  have hvalid : ∀ k ≤ string.length, (trace k).Valid m := by
    intro k hk
    obtain ⟨t, h, hnodup⟩ := (hrun k hk).2
    exact h.valid hnodup
  refine ⟨trace, fun k hk => (hrun k hk).1, ?_, fun k hk => ?_⟩
  · exact pagingRun_of_served (by rw [h0]; rfl) (by rw [h0]) (fun k hk => (hvalid k hk).toValid)
      hserved
  · have hvalid := hvalid k hk
    obtain ⟨bits, hbits, hlength⟩ := hvalid.bits
    refine ⟨?_, hvalid.evict_nonneg, hvalid.evict_lt⟩
    rw [hbits.tail, hlength, hvalid.represents.tail]

/-- `OPT` evicts a page whose next use is farthest away. -/
theorem opt_run (arr : CArray MAX_SIZE) (string : List ℤ) :
    ∃ trace : ℕ → Opt, (∀ k ≤ string.length, opt arr m string k = some (trace k)) ∧
      PagingRun m string (fun k => (trace k).toFrames) ∧
      OptimalRun m string (resident fun k => (trace k).toFrames) := by
  obtain ⟨trace, h0, hrun, hstep⟩ := iterate_trace string
    (I := fun s : Opt => s.toFrames.Valid m) (fun page future _ h => optStep_eq hm h page future)
    (s := ⟨⟨.init arr m, 0⟩, none⟩) (valid_init arr hmax)
  have hpaging : PagingRun m string (fun k => (trace k).toFrames) :=
    pagingRun_of_served (by simp only [h0]; rfl) (by simp only [h0]) (fun k hk => (hrun k hk).2)
      fun i hi => (hstep i hi).1
  refine ⟨trace, fun k hk => (hrun k hk).1, hpaging, hpaging.run, fun i hi hnew hfull => ?_⟩
  have hnodup := hpaging.nodup i hi.le
  simp only [resident] at hnew hfull ⊢
  rw [List.mem_toFinset] at hnew
  rw [List.toFinset_card_of_nodup hnodup] at hfull
  obtain ⟨v, -, -, hfar, hpages⟩ := (hstep i hi).2 hnew hfull
  have hv := hfar.lt
  refine ⟨(trace i).q.pages[v], List.mem_toFinset.mpr (List.getElem_mem hv), hfar.farthest, ?_⟩
  rw [hpages, List.toFinset_append, toFinset_eraseIdx hnodup hv, List.toFinset_cons,
    List.toFinset_nil, insert_empty_eq, Finset.union_comm, ← Finset.insert_eq]

end Runs

/-- Every simulator is a demand-paging run over a table without duplicates, whatever the
uninitialised arrays hold. In `CLOCK` the use bits stay parallel to the pages, and the hand stays in
the table. -/
theorem demandPaging (arr bit : CArray MAX_SIZE) {m : ℕ} (hm : 1 ≤ m) (hmax : m < MAX_SIZE)
    (string : List ℤ) :
    (∃ trace : ℕ → Opt, (∀ k ≤ string.length, opt arr m string k = some (trace k)) ∧
      PagingRun m string fun k => (trace k).toFrames) ∧
    (∃ trace : ℕ → Frames, (∀ k ≤ string.length, fifo arr m string k = some (trace k)) ∧
      PagingRun m string trace) ∧
    (∃ trace : ℕ → Frames, (∀ k ≤ string.length, lru arr m string k = some (trace k)) ∧
      PagingRun m string trace) ∧
    ∃ trace : ℕ → Clock, (∀ k ≤ string.length, clock arr bit m string k = some (trace k)) ∧
      PagingRun m string (fun k => (trace k).toFrames) ∧
      ∀ k ≤ string.length, (trace k).bitQueue.tail = (trace k).q.tail ∧ 0 ≤ (trace k).evict ∧
        (trace k).evict < m := by
  obtain ⟨trace, hopt, hrun, -⟩ := opt_run hm hmax arr string
  exact ⟨⟨trace, hopt, hrun⟩, fifo_run hm hmax arr string, lru_run hm hmax arr string,
    clock_run hm hmax arr bit string⟩

/-- The reference string of `input.1`. -/
def inputString : List ℤ := [7, 0, 1, 2, 0, 3, 0, 4, 2, 3, 0, 3, 2]

/-- `input.1` has three frames. -/
theorem demandPaging_inputString :
    ∃ trace : ℕ → Clock,
      (∀ k ≤ 13, clock (.zero MAX_SIZE) (.zero MAX_SIZE) (3 : ℕ) inputString k = some (trace k)) ∧
      PagingRun 3 inputString (fun k => (trace k).toFrames) ∧
      ∀ k ≤ 13, (trace k).bitQueue.tail = (trace k).q.tail ∧ 0 ≤ (trace k).evict ∧
        (trace k).evict < (3 : ℕ) :=
  (demandPaging (.zero MAX_SIZE) (.zero MAX_SIZE) (by decide) (by decide) inputString).2.2.2

/-- `OPT` has at most as many faults as any demand-paging policy with the same number of frames, and
so at most as many as `FIFO`, `LRU` and `CLOCK`. -/
theorem opt_optimal (arr₁ arr₂ arr₃ arr₄ bit : CArray MAX_SIZE) {m : ℕ} (hm : 1 ≤ m)
    (hmax : m < MAX_SIZE) (string : List ℤ) :
    ∃ o f l c, opt arr₁ m string string.length = some o ∧
      fifo arr₂ m string string.length = some f ∧
      lru arr₃ m string string.length = some l ∧ clock arr₄ bit m string string.length = some c ∧
      (∀ S, Policy m string S → o.pageFault ≤ faults string S) ∧
      o.pageFault ≤ f.pageFault ∧ o.pageFault ≤ l.pageFault ∧ o.pageFault ≤ c.pageFault := by
  obtain ⟨o, ho, hrun, hopt⟩ := opt_run hm hmax arr₁ string
  obtain ⟨f, hf, hfifo⟩ := fifo_run hm hmax arr₂ string
  obtain ⟨l, hl, hlru⟩ := lru_run hm hmax arr₃ string
  obtain ⟨c, hc, hclock, -⟩ := clock_run hm hmax arr₄ bit string
  have hbest : ∀ S, Policy m string S → (o string.length).pageFault ≤ faults string S := by
    intro S hS
    rw [hrun.pageFault_length]
    exact hopt.faults_le hS
  refine ⟨_, _, _, _, ho _ le_rfl, hf _ le_rfl, hl _ le_rfl, hc _ le_rfl, hbest, ?_, ?_, ?_⟩
  · rw [hfifo.pageFault_length]
    exact hbest _ hfifo.run.policy
  · rw [hlru.pageFault_length]
    exact hbest _ hlru.run.policy
  · rw [hclock.pageFault_length]
    exact hbest _ hclock.run.policy

theorem opt_optimal_inputString :
    ∃ o f, opt (.zero MAX_SIZE) (3 : ℕ) inputString 13 = some o ∧
      fifo (.zero MAX_SIZE) (3 : ℕ) inputString 13 = some f ∧ o.pageFault ≤ f.pageFault := by
  obtain ⟨o, f, -, -, ho, hf, -, -, -, hle, -, -⟩ :=
    opt_optimal (.zero MAX_SIZE) (.zero MAX_SIZE) (.zero MAX_SIZE) (.zero MAX_SIZE) (.zero MAX_SIZE)
      (m := 3) (by decide) (by decide) inputString
  exact ⟨o, f, ho, hf, hle⟩

end SchoolOS.PageReplacement
