import SchoolOS.CpuScheduler.QueueBounds

/-!
# The uninitialised locals of `RR`

`cur_slice` is set before it is read: it is only read while a process is running, and the tick that
starts a process sets it. `prev_run` is read once before it is set, when the first process is
popped. So two runs that start with different values stay in step (`Twin`). When the queue array has
room for all slices, both return, and they count the same switches exactly if the first process to
run is the value of `prev_run` in both runs or in neither (`sameResults_iff`).
-/

namespace SchoolOS.CpuScheduler

open Function Loop

variable {n : ℕ} {list : Fin n → Process} {q : ℤ} {maxSize : ℕ} {s t : Rr n} {p p' c c' : ℤ}

/-! ## Runs in step -/

/-- Two states that differ in `prev_run` and in the number of context switches only, and in
`cur_slice` while no process is running. -/
structure Twin (s t : Rr n) : Prop where
  sim : t.toSim = s.toSim
  queue : t.queue = s.queue
  head : t.head = s.head
  slice : s.running ≠ none → t.curSlice = s.curSlice

theorem Twin.arrived (h : Twin s t) : Twin s.arrived t.arrived := by
  have harriving : t.arriving = s.arriving := by rw [Rr.arriving, Rr.arriving, h.sim]
  refine ⟨h.sim, ?_, h.head, h.slice⟩
  show t.queue ++ t.arriving = s.queue ++ s.arriving
  rw [h.queue, harriving]

theorem Twin.released (h : Twin s t) : Twin s.released t.released := by
  unfold Rr.released
  rw [h.sim]
  cases hrun : s.running with
  | none => exact h
  | some i =>
    have hslice := h.slice (by simp [hrun])
    simp only [hslice]
    split
    · exact ⟨congrArg Sim.complete h.sim, h.queue, h.head, fun _ => hslice⟩
    · split
      · refine ⟨rfl, ?_, h.head, fun hne => absurd rfl hne⟩
        show t.queue ++ [i] = s.queue ++ [i]
        rw [h.queue]
      · exact h

/-- The slot goes to the same process in both runs. -/
theorem Twin.choose_cases (h : Twin s t) (q : ℤ) :
    (∃ i, s.running = some i ∧ s.choose q = s.execute i ∧ t.choose q = t.execute i) ∨
      (s.choose q = { s with toSim := s.toSim.idle, curSlice := q } ∧
        t.choose q = { t with toSim := t.toSim.idle, curSlice := q }) ∨
      ∃ i, s.choose q = (Rr.dispatch { s with curSlice := q } i).execute i ∧
        t.choose q = (Rr.dispatch { t with curSlice := q } i).execute i := by
  have hrunning : t.running = s.running := by rw [h.sim]
  have hnext : t.queue[t.head]? = s.queue[s.head]? := by rw [h.queue, h.head]
  rcases s.choose_cases q with ⟨i, hrun, heq⟩ | ⟨hrun, hhead, heq⟩ | ⟨i, hrun, hhead, heq⟩
  · exact Or.inl ⟨i, hrun, heq, Rr.choose_running (hrunning.trans hrun)⟩
  · exact Or.inr (Or.inl ⟨heq, Rr.choose_idle (hrunning.trans hrun) (hnext.trans hhead)⟩)
  · exact Or.inr (Or.inr ⟨i, heq, Rr.choose_dispatch (hrunning.trans hrun) (hnext.trans hhead)⟩)

/-- A tick does not tell the two states apart. -/
theorem Twin.choose (h : Twin s t) : Twin (s.choose q) (t.choose q) := by
  rcases h.choose_cases q with ⟨i, hrun, hs, ht⟩ | ⟨hs, ht⟩ | ⟨i, hs, ht⟩
  · rw [hs, ht]
    refine ⟨congrArg (·.execute i) h.sim, h.queue, h.head, fun _ => ?_⟩
    show t.curSlice - 1 = s.curSlice - 1
    rw [h.slice (by simp [hrun])]
  · rw [hs, ht]
    exact ⟨congrArg Sim.idle h.sim, h.queue, h.head, fun _ => rfl⟩
  · rw [hs, ht]
    refine ⟨congrArg (fun u => (Sim.resume u i).execute i) h.sim, h.queue, ?_, fun _ => rfl⟩
    show t.head + 1 = s.head + 1
    rw [h.head]

theorem Twin.next (h : Twin s t) : Twin (s.next q) (t.next q) := h.arrived.released.choose

/-! ## The first process to run -/

/-- The process that arrives first, and stands first in the list among those that do. -/
def FirstToRun (list : Fin n → Process) (i : Fin n) : Prop :=
  ∀ j, (list i).arrival < (list j).arrival ∨ (list i).arrival = (list j).arrival ∧ i ≤ j

theorem FirstToRun.unique {i j : Fin n} (hi : FirstToRun list i) (hj : FirstToRun list j) :
    i = j := by
  have hij := hi j
  have hji := hj i
  omega

/-- No process has run yet. -/
structure Unstarted (list : Fin n → Process) (s : Rr n) : Prop where
  list_eq : s.list = list
  finCnt : s.finCnt = 0
  running : s.running = none
  queue : s.queue = []
  head : s.head = 0
  arrival : ∀ i, s.time ≤ (list i).arrival

theorem unstarted_start (harrival : ∀ i, 0 ≤ (list i).arrival) :
    Unstarted list (Rr.start list p c) :=
  ⟨rfl, rfl, rfl, rfl, rfl, harrival⟩

theorem Unstarted.released_arrived (h : Unstarted list s) : s.arrived.released = s.arrived := by
  have hrun : s.arrived.running = none := h.running
  rw [Rr.released, hrun]

/-- The first tick that does not stay idle runs the first process. -/
theorem Unstarted.next (h : Unstarted list s) :
    (s.next q = { s.arrived with toSim := s.toSim.idle, curSlice := q } ∧
      Unstarted list (s.next q)) ∨
    ∃ i, FirstToRun list i ∧
      s.next q = (Rr.dispatch { s.arrived with curSlice := q } i).execute i := by
  have hrun : s.arrived.running = none := h.running
  have hhead : s.arrived.queue[s.arrived.head]? = s.arriving.head? := by
    show (s.queue ++ s.arriving)[s.head]? = _
    rw [h.queue, h.head, List.nil_append, List.head?_eq_getElem?]
  rw [Rr.next, h.released_arrived]
  cases hfirst : s.arriving.head? with
  | none =>
    -- nobody arrives in this slot, so every arrival is later
    left
    have hnone : s.arriving = [] := List.head?_eq_none_iff.mp hfirst
    rw [Rr.choose_idle hrun (hhead.trans hfirst)]
    refine ⟨rfl, h.list_eq, h.finCnt, h.running, ?_, h.head, fun i => ?_⟩
    · show s.queue ++ s.arriving = []
      rw [h.queue, hnone]
      rfl
    · have hle := h.arrival i
      have hne : (s.time : ℤ) ≠ (list i).arrival := by
        intro heq
        have hmem : i ∈ s.arriving := by simpa [Rr.arriving, h.list_eq] using heq
        simp [hnone] at hmem
      show ((s.time + 1 : ℕ) : ℤ) ≤ (list i).arrival
      omega
  | some i =>
    -- the queue was empty, so the first of the list that arrives now is popped
    right
    refine ⟨i, fun j => ?_, Rr.choose_dispatch hrun (hhead.trans hfirst)⟩
    have hfind : (List.finRange n).find? (fun i => (s.time : ℤ) = (s.list i).arrival) = some i := by
      rw [← List.head?_filter]
      exact hfirst
    have hi : (s.time : ℤ) = (s.list i).arrival := by simpa using List.find?_some hfind
    rw [h.list_eq] at hi
    rcases (h.arrival j).lt_or_eq with hlt | heq
    · left
      omega
    · right
      refine ⟨by omega, le_of_find?_finRange hfind ?_⟩
      simpa [h.list_eq] using heq

theorem Twin.unstarted (h : Twin s t) (hs : Unstarted list s) : Unstarted list t := by
  have hsim := h.sim
  exact ⟨hsim ▸ hs.list_eq, hsim ▸ hs.finCnt, hsim ▸ hs.running, h.queue.trans hs.queue,
    h.head.trans hs.head, hsim ▸ hs.arrival⟩

/-! ## The context switches -/

/-- The switch that is not counted when process `i` is popped first and `prev_run` is `p`. -/
def missedSwitch (p : ℤ) (i : Fin n) : ℕ := if p = (i : ℕ) then 1 else 0

/-- What the two runs count. -/
inductive Counts (list : Fin n → Process) (p p' : ℤ) (s t : Rr n) : Prop
  | unstarted : Unstarted list s → s.prevRun = p → t.prevRun = p' →
    s.contextSwitch = t.contextSwitch → Counts list p p' s t
  | started {i : Fin n} : FirstToRun list i → s.prevRun = t.prevRun →
    s.contextSwitch + missedSwitch p i = t.contextSwitch + missedSwitch p' i → Counts list p p' s t

theorem Rr.released_counts (s : Rr n) :
    s.released.prevRun = s.prevRun ∧ s.released.contextSwitch = s.contextSwitch := by
  unfold Rr.released
  split
  · exact ⟨rfl, rfl⟩
  · split
    · exact ⟨rfl, rfl⟩
    · split
      · exact ⟨rfl, rfl⟩
      · exact ⟨rfl, rfl⟩

/-- Once `prev_run` has been set, both runs count the same switches. -/
theorem Twin.counts_choose (h : Twin s t) {i : Fin n} (hfirst : FirstToRun list i)
    (hprev : s.prevRun = t.prevRun)
    (hcount : s.contextSwitch + missedSwitch p i = t.contextSwitch + missedSwitch p' i) :
    Counts list p p' (s.choose q) (t.choose q) := by
  rcases h.choose_cases q with ⟨j, -, hs, ht⟩ | ⟨hs, ht⟩ | ⟨j, hs, ht⟩
  · rw [hs, ht]
    exact .started hfirst rfl hcount
  · rw [hs, ht]
    exact .started hfirst hprev hcount
  · rw [hs, ht]
    refine .started hfirst rfl ?_
    simp only [Rr.execute, Rr.dispatch, hprev]
    split
    · omega
    · exact hcount

/-- The first process to run is popped: only here does a leftover value of `prev_run` count. -/
theorem counts_dispatch {i : Fin n} (hfirst : FirstToRun list i) (hs : s.prevRun = p)
    (ht : t.prevRun = p') (hcount : s.contextSwitch = t.contextSwitch) :
    Counts list p p' ((s.dispatch i).execute i) ((t.dispatch i).execute i) := by
  refine .started hfirst rfl ?_
  simp only [Rr.execute, Rr.dispatch, missedSwitch, hs, ht, hcount]
  by_cases hp : p = (i : ℕ)
  · by_cases hp' : p' = (i : ℕ)
    · simp [hp, hp']
    · simp [hp, hp']
  · by_cases hp' : p' = (i : ℕ)
    · simp [hp, hp']
    · simp [hp, hp']

theorem Counts.next (hcounts : Counts list p p' s t) (h : Twin s t) :
    Counts list p p' (s.next q) (t.next q) := by
  cases hcounts with
  | unstarted hun hs ht hcount =>
    have hrunning : (t.next q).running = (s.next q).running := by rw [h.next.sim]
    -- both runs are idle, or both start the same process
    rcases hun.next (q := q) with ⟨hidle, hun'⟩ | ⟨i, hfirst, hdispatch⟩
    · rcases (h.unstarted hun).next (q := q) with ⟨hidle', -⟩ | ⟨j, -, hdispatch'⟩
      · refine .unstarted hun' ?_ ?_ ?_
        · rwa [hidle]
        · rwa [hidle']
        · rwa [hidle, hidle']
      · rw [hun'.running, hdispatch'] at hrunning
        exact absurd hrunning (by simp [Rr.execute, Rr.dispatch, Sim.execute, Sim.resume_running])
    · rcases (h.unstarted hun).next (q := q) with ⟨-, hun''⟩ | ⟨j, hfirst', hdispatch'⟩
      · rw [hun''.running, hdispatch] at hrunning
        exact absurd hrunning (by simp [Rr.execute, Rr.dispatch, Sim.execute, Sim.resume_running])
      · obtain rfl := hfirst.unique hfirst'
        rw [hdispatch, hdispatch']
        exact counts_dispatch hfirst hs ht hcount
  | started hfirst hprev hcount =>
    obtain ⟨hs, hs'⟩ := s.arrived.released_counts
    obtain ⟨ht, ht'⟩ := t.arrived.released_counts
    apply h.arrived.released.counts_choose hfirst
    · rw [hs, ht]
      exact hprev
    · rw [hs', ht']
      exact hcount

/-! ## Whole runs -/

/-- The relation between the two runs. -/
structure Paired (maxSize : ℕ) (list : Fin n → Process) (p p' : ℤ) (s t : Rr n) : Prop where
  twin : Twin s t
  counts : Counts list p p' s t
  length_le : s.queue.length ≤ maxSize

theorem Paired.tick (h : Paired maxSize list p p' s t) :
    Option.Rel (Paired maxSize list p p') (s.tick maxSize q) (t.tick maxSize q) := by
  have htwin := h.twin.next (q := q)
  rw [Rr.tick_eq h.length_le, Rr.tick_eq (h.twin.queue ▸ h.length_le), htwin.queue]
  split
  · rename_i hle
    exact .some ⟨htwin, h.counts.next h.twin, hle⟩
  · exact .none

theorem paired_rrLoop (maxSize : ℕ) (q : ℤ) (harrival : ∀ i, 0 ≤ (list i).arrival) (p c p' c' : ℤ)
    (fuel : ℕ) :
    Option.Rel (Paired maxSize list p p') (rrLoop maxSize q fuel (Rr.start list p c))
      (rrLoop maxSize q fuel (Rr.start list p' c')) := by
  apply whileLoop_rel
  · intro s t h
    rw [h.twin.sim]
  · intro s t h _
    exact h.tick
  · refine ⟨⟨rfl, rfl, rfl, fun hne => absurd rfl hne⟩, ?_, Nat.zero_le _⟩
    exact .unstarted (unstarted_start harrival) rfl rfl rfl

/-- Two runs that end count the same switches if and only if the first process to run is the value
of `prev_run` in both or in neither. -/
theorem Paired.contextSwitch_eq_iff (h : Paired maxSize list p p' s t) (hdone : ¬ s.finCnt < n) :
    s.contextSwitch = t.contextSwitch ↔
      ∀ i, FirstToRun list i → (p = (i : ℕ) ↔ p' = (i : ℕ)) := by
  cases h.counts with
  | unstarted hun _ _ hcount =>
    refine ⟨fun _ i _ => ?_, fun _ => hcount⟩
    exact absurd i.pos (by rw [← hun.finCnt]; exact hdone)
  | @started i hfirst _ hcount =>
    have hiff : s.contextSwitch = t.contextSwitch ↔ (p = (i : ℕ) ↔ p' = (i : ℕ)) := by
      unfold missedSwitch at hcount
      split at hcount
      · rename_i hp
        split at hcount
        · rename_i hp'
          exact ⟨fun _ => ⟨fun _ => hp', fun _ => hp⟩, fun _ => by omega⟩
        · rename_i hp'
          exact ⟨fun _ => by omega, fun hpp => absurd (hpp.mp hp) hp'⟩
      · rename_i hp
        split at hcount
        · rename_i hp'
          exact ⟨fun _ => by omega, fun hpp => absurd (hpp.mpr hp') hp⟩
        · rename_i hp'
          exact ⟨fun _ => ⟨fun h => absurd h hp, fun h => absurd h hp'⟩, fun _ => by omega⟩
    rw [hiff]
    refine ⟨fun hpp j hj => ?_, fun hall => hall i hfirst⟩
    obtain rfl := hfirst.unique hj
    exact hpp

/-- The fields that `RR` computes. -/
def Result.fields (r : Result n) (i : Fin n) : ℤ × ℤ × ℤ × ℤ × ℤ :=
  ((r.list i).start, (r.list i).finish, (r.list i).waiting, (r.list i).response,
    (r.list i).turnaround)

/-- The runs that start with `prev_run = p` and `cur_slice = c`, and with `p'` and `c'`, both
return. They compute the same fields and return the same number of context switches. -/
def SameResults (maxSize : ℕ) (q : ℤ) (list : Fin n → Process) (p c p' c' : ℤ) : Prop :=
  ∃ r r', Returns (rr maxSize p c q list) r ∧ Returns (rr maxSize p' c' q list) r' ∧
    r.fields = r'.fields ∧ r.ret = r'.ret

/-- What does not distinguish paired states at the end of the tick loop is the same for both
runs. -/
theorem rr_map_eq {β : Type} (harrival : ∀ i, 0 ≤ (list i).arrival) (f : Result n → β)
    (p c p' c' : ℤ) (fuel : ℕ)
    (hf : ∀ s t, Paired maxSize list p p' s t → f s.result = f t.result) :
    (rr maxSize p c q list fuel).map f = (rr maxSize p' c' q list fuel).map f := by
  have hrel := paired_rrLoop maxSize q harrival p c p' c' fuel
  rw [rr_eq, rr_eq]
  generalize rrLoop maxSize q fuel (Rr.start list p c) = o at hrel ⊢
  generalize rrLoop maxSize q fuel (Rr.start list p' c') = o' at hrel ⊢
  cases hrel with
  | none => rfl
  | some hpair => exact congrArg some (hf _ _ hpair)

section Run

variable (hload : Loaded list) (harrival : ∀ i, 0 ≤ (list i).arrival)
  (hburst : ∀ i, 1 ≤ (list i).burst) (hq : 1 ≤ q)

include hload harrival hburst hq

/-- Both runs return, and the states at the end of their tick loops are paired. -/
theorem exists_paired_end (hmax : totalSlices q list ≤ maxSize) (p c p' c' : ℤ) :
    ∃ s t, Returns (rr maxSize p c q list) s.result ∧ Returns (rr maxSize p' c' q list) t.result ∧
      Paired maxSize list p p' s t ∧ ¬ s.finCnt < n := by
  obtain ⟨s, ⟨N, hs⟩, -, hdone⟩ := rr_returns hload hburst harrival hq hmax p c
  obtain ⟨t, ⟨M, ht⟩, -, -⟩ := rr_returns hload hburst harrival hq hmax p' c'
  refine ⟨s, t, Returns.map ⟨N, hs⟩ Rr.result, Returns.map ⟨M, ht⟩ Rr.result, ?_, hdone⟩
  -- at a common amount of fuel both tick loops have ended
  have hrel := paired_rrLoop maxSize q harrival p c p' c' (max N M)
  have hs' : rrLoop maxSize q (max N M) (Rr.start list p c) = some s := hs _ (le_max_left N M)
  have ht' : rrLoop maxSize q (max N M) (Rr.start list p' c') = some t := ht _ (le_max_right N M)
  rw [hs', ht'] at hrel
  cases hrel with
  | some hpair => exact hpair

/-- No run returns when the array is too small. -/
theorem not_returns_of_lt (hmax : maxSize < totalSlices q list) (p c : ℤ) (r : Result n) :
    ¬ Returns (rr maxSize p c q list) r := by
  rintro ⟨N, hN⟩
  have hrun := hN N le_rfl
  rw [rr_eq] at hrun
  obtain ⟨s, hs, -⟩ := Option.map_eq_some_iff.mp hrun
  have hle := totalSlices_le_of_rrLoop hload harrival hburst hq p c hs
  omega

end Run

theorem Paired.fields_eq (h : Paired maxSize list p p' s t) :
    s.result.fields = t.result.fields := by
  funext i
  simp only [Result.fields, Rr.result, h.twin.sim]

theorem sameResults_iff_of_le (hload : Loaded list) (harrival : ∀ i, 0 ≤ (list i).arrival)
    (hburst : ∀ i, 1 ≤ (list i).burst) (hq : 1 ≤ q) (hmax : totalSlices q list ≤ maxSize) :
    SameResults maxSize q list p c p' c' ↔ ∀ i, FirstToRun list i →
      (p = (i : ℕ) ↔ p' = (i : ℕ)) := by
  obtain ⟨s, t, hs, ht, hpair, hdone⟩ := exists_paired_end hload harrival hburst hq hmax p c p' c'
  rw [← hpair.contextSwitch_eq_iff hdone]
  constructor
  · rintro ⟨r, r', hr, hr', -, hret⟩
    rw [hr.unique hs, hr'.unique ht] at hret
    exact Int.natCast_inj.mp hret
  · intro hcount
    exact ⟨_, _, hs, ht, hpair.fields_eq, congrArg Nat.cast hcount⟩

/-- The leftover values never change a field that `RR` computes. Both runs return the same number of
context switches exactly if the queue array has room for the slices of all processes, so that they
return at all, and the first process to run is the value of `prev_run` in both runs or in
neither. -/
theorem sameResults_iff (maxSize : ℕ) (list : Fin n → Process) (hload : Loaded list)
    (harrival : ∀ i, 0 ≤ (list i).arrival) (hburst : ∀ i, 1 ≤ (list i).burst) (hq : 1 ≤ q)
    (p c p' c' : ℤ) :
    (∀ fuel, (rr maxSize p c q list fuel).map Result.fields =
      (rr maxSize p' c' q list fuel).map Result.fields) ∧
    (SameResults maxSize q list p c p' c' ↔
      totalSlices q list ≤ maxSize ∧
        ∀ i, FirstToRun list i → (p = (i : ℕ) ↔ p' = (i : ℕ))) := by
  refine ⟨fun fuel => rr_map_eq harrival _ p c p' c' fuel fun s t h => h.fields_eq, ?_⟩
  by_cases hmax : totalSlices q list ≤ maxSize
  · rw [sameResults_iff_of_le hload harrival hburst hq hmax, and_iff_right hmax]
  · refine iff_of_false ?_ fun h => hmax h.1
    rintro ⟨r, -, hr, -⟩
    exact not_returns_of_lt hload harrival hburst hq (not_le.mp hmax) p c r hr

theorem sameResults_iff_twoProcesses :
    Input twoProcesses ∧ SameResults MAX_SIZE 2 twoProcesses 7 0 (-1) 3 := by
  have h := input_twoProcesses
  refine ⟨h, ((sameResults_iff MAX_SIZE twoProcesses h.loaded h.arrival h.burst
    (q := 2) (by decide) 7 0 (-1) 3).2).mpr ⟨by decide, ?_⟩⟩
  intro i _
  omega

/-- The first process is process 0: it is not counted when `prev_run` happens to be 0. -/
theorem not_sameResults_twoProcesses :
    Input twoProcesses ∧ ¬ SameResults MAX_SIZE 2 twoProcesses 0 0 (-1) 0 := by
  have h := input_twoProcesses
  have hfirst : FirstToRun twoProcesses 0 := by
    unfold FirstToRun
    decide
  refine ⟨h, fun hsame => ?_⟩
  have hiff :=
    (sameResults_iff_of_le h.loaded h.arrival h.burst (by decide) (by decide)).mp hsame 0 hfirst
  exact absurd (hiff.mp rfl) (by decide)

end SchoolOS.CpuScheduler
