import SchoolOS.Lib.Recency
import SchoolOS.Lib.SecondChanceFaults
import SchoolOS.PageReplacement.DemandPaging

/-!
# Bounds against policies that know the future

`FIFO` and `LRU` replace the page at the front of their queue, so with `m` frames they have at most
`m / (m - h + 1)` times as many faults as any policy with `h ≤ m` frames, up to a constant
(`fifo_lru_competitive`). `CLOCK` loads a page with a clear use bit and may replace it before pages
that were referenced long ago. It has at most `(2m - 1) / (m - h + 1)` times as many faults
(`clock_competitive`). The queue of `FIFO` holds the pages of the last `m` faults
(`fifo_lastFaults`).

`OPT` with more frames is still compared with all policies that do not use them, so it never has
more faults with more frames (`opt_more_frames`).
-/

namespace SchoolOS.PageReplacement

open Paging (Policy QueueStep QueueRun faults pagesBetween)

variable {m : ℕ} {string : List ℤ}

theorem queueStep_fifoPages (m : ℕ) (l : List ℤ) (page : ℤ) :
    QueueStep m l page (fifoPages m l page) := by
  unfold fifoPages
  by_cases hpage : page ∈ l
  · rw [if_pos hpage]
    exact .keep hpage
  · rw [if_neg hpage]
    exact .push hpage

theorem queueStep_lruPages (m : ℕ) (l : List ℤ) (page : ℤ) :
    QueueStep m l page (lruPages m l page) := by
  unfold lruPages
  by_cases hpage : page ∈ l
  · rw [if_pos hpage]
    exact .move hpage
  · rw [if_neg hpage]
    exact .push hpage

/-- A loop whose body turns the list of pages into `next`. -/
theorem queueRun_of_step {body : ℤ → List ℤ → Frames → Option Frames} {next : List ℤ → ℤ → List ℤ}
    (arr : CArray MAX_SIZE) (hmax : m < MAX_SIZE) (string : List ℤ)
    (hserved : ∀ page future s, s.Valid m →
      ∃ s', body page future s = some s' ∧ s'.Valid m ∧ s.Served m page s')
    (hpages : ∀ page future s s', s.Valid m → body page future s = some s' →
      s'.q.pages = next s.q.pages page)
    (hnext : ∀ l page, QueueStep m l page (next l page)) :
    ∃ trace : ℕ → Frames,
      (∀ k ≤ string.length, iterate body string ⟨.init arr m, 0⟩ k = some (trace k)) ∧
      PagingRun m string trace ∧ QueueRun m string (fun k => (trace k).q.pages) ∧
      ∀ i (hi : i < string.length), (trace (i + 1)).q.pages = next (trace i).q.pages string[i] := by
  obtain ⟨trace, h0, hrun, hstep⟩ := iterate_trace string (I := Frames.Valid m)
    (R := fun page _ s s' => s.Served m page s' ∧ s'.q.pages = next s.q.pages page)
    (fun page future s hs => by
      obtain ⟨s', hbody, hs', hserves⟩ := hserved page future s hs
      exact ⟨s', hbody, hs', hserves, hpages page future s s' hs hbody⟩)
    (valid_init arr hmax)
  have hempty : (trace 0).q.pages = [] := by
    rw [h0]
    rfl
  refine ⟨trace, fun k hk => (hrun k hk).1, ?_, ⟨hempty, fun i hi => ?_⟩,
    fun i hi => (hstep i hi).2⟩
  · exact pagingRun_of_served hempty (by rw [h0]) (fun k hk => (hrun k hk).2)
      fun i hi => (hstep i hi).1
  · rw [(hstep i hi).2]
    exact hnext _ _

section Runs

variable (hm : 1 ≤ m) (hmax : m < MAX_SIZE)

include hm hmax

theorem fifo_queueRun (arr : CArray MAX_SIZE) (string : List ℤ) :
    ∃ trace : ℕ → Frames, (∀ k ≤ string.length, fifo arr m string k = some (trace k)) ∧
      PagingRun m string trace ∧ QueueRun m string (fun k => (trace k).q.pages) ∧
      ∀ i (hi : i < string.length),
        (trace (i + 1)).q.pages = fifoPages m (trace i).q.pages string[i] := by
  refine queueRun_of_step arr hmax string (fun _ _ _ => fifoStep_served hm) ?_
    (queueStep_fifoPages m)
  intro page future s s' hs hbody
  obtain ⟨t, ht, hq, -⟩ := fifoStep_eq hs.represents hm page future
  obtain rfl := Option.some.inj (hbody.symm.trans ht)
  exact hq.pages

theorem lru_queueRun (arr : CArray MAX_SIZE) (string : List ℤ) :
    ∃ trace : ℕ → Frames, (∀ k ≤ string.length, lru arr m string k = some (trace k)) ∧
      PagingRun m string trace ∧ QueueRun m string (fun k => (trace k).q.pages) ∧
      ∀ i (hi : i < string.length),
        (trace (i + 1)).q.pages = lruPages m (trace i).q.pages string[i] := by
  refine queueRun_of_step arr hmax string (fun _ _ _ => lruStep_served hm) ?_ (queueStep_lruPages m)
  intro page future s s' hs hbody
  obtain ⟨t, ht, hq, -⟩ := lruStep_eq hs.represents hm page future
  obtain rfl := Option.some.inj (hbody.symm.trans ht)
  exact hq.pages

end Runs

/-! ## `FIFO` and `LRU` against any policy -/

/-- With `m` frames, `FIFO` and `LRU` have at most `m / (m - h + 1)` times as many faults as any
demand-paging policy with `h ≤ m` frames, and as `OPT` with `h` frames, plus a constant that is zero
for `h = m`. -/
theorem fifo_lru_competitive (arr₁ arr₂ arr₃ : CArray MAX_SIZE) {m h : ℕ} (hh : 1 ≤ h) (hle : h ≤ m)
    (hmax : m < MAX_SIZE) (string : List ℤ) :
    ∃ f l o, fifo arr₁ m string string.length = some f ∧ lru arr₂ m string string.length = some l ∧
      opt arr₃ h string string.length = some o ∧
      (∀ T, Policy h string T →
        (m - h + 1) * f.pageFault ≤ m * faults string T + m * (m - h) ∧
        (m - h + 1) * l.pageFault ≤ m * faults string T + m * (m - h)) ∧
      (m - h + 1) * f.pageFault ≤ m * o.pageFault + m * (m - h) ∧
      (m - h + 1) * l.pageFault ≤ m * o.pageFault + m * (m - h) := by
  have hm := hh.trans hle
  obtain ⟨f, hf, hfifo, hfqueue, -⟩ := fifo_queueRun hm hmax arr₁ string
  obtain ⟨l, hl, hlru, hlqueue, -⟩ := lru_queueRun hm hmax arr₂ string
  obtain ⟨o, ho, hopt, -⟩ := opt_run hh (hle.trans_lt hmax) arr₃ string
  have hbound : ∀ T, Policy h string T →
      (m - h + 1) * (f string.length).pageFault ≤ m * faults string T + m * (m - h) ∧
      (m - h + 1) * (l string.length).pageFault ≤ m * faults string T + m * (m - h) := by
    intro T hT
    rw [hfifo.pageFault_length, hlru.pageFault_length]
    exact ⟨hfqueue.conservative.spread.faults_le hT hm hle,
      hlqueue.conservative.spread.faults_le hT hm hle⟩
  refine ⟨_, _, _, hf _ le_rfl, hl _ le_rfl, ho _ le_rfl, hbound, ?_⟩
  rw [hopt.pageFault_length]
  exact hbound _ hopt.run.policy

/-- On `input.1`, `FIFO` and `LRU` with three frames against `OPT` with two. -/
theorem fifo_lru_competitive_inputString :
    ∃ f l o, fifo (.zero MAX_SIZE) (3 : ℕ) inputString 13 = some f ∧
      lru (.zero MAX_SIZE) (3 : ℕ) inputString 13 = some l ∧
      opt (.zero MAX_SIZE) (2 : ℕ) inputString 13 = some o ∧
      2 * f.pageFault ≤ 3 * o.pageFault + 3 ∧ 2 * l.pageFault ≤ 3 * o.pageFault + 3 := by
  obtain ⟨f, l, o, hf, hl, ho, -, hfo, hlo⟩ :=
    fifo_lru_competitive (.zero MAX_SIZE) (.zero MAX_SIZE)
    (.zero MAX_SIZE) (m := 3) (h := 2) (by decide) (by decide) (by decide) inputString
  exact ⟨f, l, o, hf, hl, ho, hfo, hlo⟩

/-! ## `CLOCK` against any policy -/

/-- `CLOCK` with `m` frames has at most `2m - 1` faults in a piece of the string with at most `m`
pages. So it has at most `(2m - 1) / (m - h + 1)` times as many faults as any demand-paging policy
with `h ≤ m` frames, and as `OPT` with `h` frames, plus a constant that is zero for `h = m`. -/
theorem clock_competitive (arr bit arr' : CArray MAX_SIZE) {m h : ℕ} (hh : 1 ≤ h) (hle : h ≤ m)
    (hmax : m < MAX_SIZE) (string : List ℤ) :
    ∃ (c : ℕ → Clock) (o : Opt), (∀ k ≤ string.length, clock arr bit m string k = some (c k)) ∧
      opt arr' h string string.length = some o ∧
      (∀ lo hi, lo ≤ hi → hi ≤ string.length → (pagesBetween string lo hi).card ≤ m →
        (c hi).pageFault ≤ (c lo).pageFault + (2 * m - 1)) ∧
      (∀ T, Policy h string T → (m - h + 1) * (c string.length).pageFault ≤
        (2 * m - 1) * faults string T + (2 * m - 1) * (m - h)) ∧
      (m - h + 1) * (c string.length).pageFault ≤
        (2 * m - 1) * o.pageFault + (2 * m - 1) * (m - h) := by
  have hm := hh.trans hle
  obtain ⟨c, hc, -⟩ := clock_run hm hmax arr bit string
  obtain ⟨o, ho, hopt, -⟩ := opt_run hh (hle.trans_lt hmax) arr' string
  have hfaults :
      ∀ k ≤ string.length, (c k).pageFault = (SecondChance.run m (string.take k)).faults := by
    intro k hk
    obtain ⟨s, hs, hrefines⟩ := clock_refines arr bit hm hmax hk
    obtain rfl := Option.some.inj ((hc k hk).symm.trans hs)
    exact hrefines.pageFault
  have hbound : ∀ T, Policy h string T → (m - h + 1) * (c string.length).pageFault ≤
      (2 * m - 1) * faults string T + (2 * m - 1) * (m - h) := by
    intro T hT
    rw [hfaults _ le_rfl, List.take_length]
    exact SecondChance.faults_run_competitive hT hm hle
  refine ⟨c, _, hc, ho _ le_rfl, fun lo hi hlo hhi hpages => ?_, hbound, ?_⟩
  · rw [hfaults hi hhi, hfaults lo (hlo.trans hhi)]
    exact SecondChance.faults_run_le hm hlo hhi hpages
  · rw [hopt.pageFault_length]
    exact hbound _ hopt.run.policy

/-- On `input.1`, `CLOCK` with three frames against `OPT` with two. -/
theorem clock_competitive_inputString :
    ∃ (c : Clock) (o : Opt), clock (.zero MAX_SIZE) (.zero MAX_SIZE) (3 : ℕ) inputString 13 =
      some c ∧
      opt (.zero MAX_SIZE) (2 : ℕ) inputString 13 = some o ∧
      2 * c.pageFault ≤ 5 * o.pageFault + 5 := by
  obtain ⟨c, o, hc, ho, -, -, hco⟩ := clock_competitive (.zero MAX_SIZE) (.zero MAX_SIZE)
    (.zero MAX_SIZE) (m := 3) (h := 2) (by decide) (by decide) (by decide) inputString
  exact ⟨c 13, o, hc 13 (by decide), ho, hco⟩

/-! ## `OPT` with more frames -/

/-- `OPT` never has more faults with more frames. -/
theorem opt_more_frames (arr arr' : CArray MAX_SIZE) {m m' : ℕ} (hm : 1 ≤ m) (hle : m ≤ m')
    (hmax : m' < MAX_SIZE) (string : List ℤ) :
    ∃ o o', opt arr m string string.length = some o ∧ opt arr' m' string string.length = some o' ∧
      o'.pageFault ≤ o.pageFault := by
  obtain ⟨o, ho, hrun, -⟩ := opt_run hm (hle.trans_lt hmax) arr string
  obtain ⟨o', ho', hrun', hopt'⟩ := opt_run (hm.trans hle) hmax arr' string
  refine ⟨_, _, ho _ le_rfl, ho' _ le_rfl, ?_⟩
  -- the run with `m` frames is a policy with `m'` frames that leaves some of them empty
  have hpolicy := hrun.run.policy
  have hless : Policy m' string (resident fun k => (o k).toFrames) :=
    ⟨hpolicy.start, hpolicy.resident, hpolicy.subset, fun i hi => (hpolicy.card_le i hi).trans hle⟩
  rw [hrun.pageFault_length, hrun'.pageFault_length]
  exact hopt'.faults_le hless

/-- On `input.1` with three and with four frames. -/
theorem opt_more_frames_inputString :
    ∃ o o', opt (.zero MAX_SIZE) (3 : ℕ) inputString 13 = some o ∧
      opt (.zero MAX_SIZE) (4 : ℕ) inputString 13 = some o' ∧ o'.pageFault ≤ o.pageFault :=
  opt_more_frames (.zero MAX_SIZE) (.zero MAX_SIZE) (by decide) (by decide) (by decide) inputString

/-! ## The order in which `FIFO` replaces pages -/

/-- The pages of the faults among the first `k` references, in the order of the faults. -/
def faultPages (string : List ℤ) (S : ℕ → Finset ℤ) : ℕ → List ℤ
  | 0 => []
  | k + 1 => faultPages string S k ++ (string[k]?.toList.filter fun page => page ∉ S k)

theorem faultPages_succ {S : ℕ → Finset ℤ} {k : ℕ} (hk : k < string.length) :
    faultPages string S (k + 1) =
      faultPages string S k ++ if string[k] ∈ S k then [] else [string[k]] := by
  rw [faultPages, List.getElem?_eq_getElem hk, Option.toList_some]
  by_cases hmem : string[k] ∈ S k
  · simp [hmem]
  · simp [hmem]

theorem length_faultPages {S : ℕ → Finset ℤ} {k : ℕ} (hk : k ≤ string.length) :
    (faultPages string S k).length = Paging.faultsUpTo string S k := by
  induction k with
  | zero => rw [faultPages, List.length_nil, Paging.faultsUpTo_zero]
  | succ k ih =>
    rw [faultPages_succ hk, List.length_append, ih (Nat.le_of_succ_le hk),
      Paging.faultsUpTo_succ hk]
    by_cases hmem : string[k] ∈ S k
    · rw [if_pos hmem, if_pos hmem, List.length_nil]
    · rw [if_neg hmem, if_neg hmem, List.length_singleton]

/-- Pushing a page onto the last `m` pages of a list. -/
theorem pushPage_rtake (hm : 1 ≤ m) (L : List ℤ) (page : ℤ) :
    pushPage m (L.rtake m) page = (L ++ [page]).rtake m := by
  obtain ⟨n, rfl⟩ : ∃ n, m = n + 1 := ⟨m - 1, by omega⟩
  rw [List.rtake_concat_succ, pushPage]
  congr 1
  unfold List.rtake
  by_cases hfull : (L.drop (L.length - (n + 1))).length = n + 1
  · rw [if_pos hfull, List.tail_drop]
    rw [List.length_drop] at hfull
    congr 1
    omega
  · rw [if_neg hfull]
    rw [List.length_drop] at hfull
    congr 1
    omega

/-- The queue of `FIFO` holds the pages of the last `m` faults (of all faults, if there are fewer),
in the order of the faults. The page that leaves the queue is the one that was loaded `m` faults
ago. -/
theorem fifo_lastFaults (arr : CArray MAX_SIZE) {m : ℕ} (hm : 1 ≤ m) (hmax : m < MAX_SIZE)
    (string : List ℤ) :
    ∃ trace : ℕ → Frames, (∀ k ≤ string.length, fifo arr m string k = some (trace k) ∧
        (trace k).q.pages = (faultPages string (resident trace) k).rtake m ∧
        (trace k).pageFault = (faultPages string (resident trace) k).length) ∧
      ∀ k < string.length, ∀ v ∈ (trace k).q.pages, v ∉ (trace (k + 1)).q.pages →
        m ≤ (trace k).pageFault ∧
          (faultPages string (resident trace) k)[(trace k).pageFault - m]? = some v := by
  obtain ⟨trace, htrace, hrun, hqueue, hnext⟩ := fifo_queueRun hm hmax arr string
  have hpages : ∀ k ≤ string.length,
      (trace k).q.pages = (faultPages string (resident trace) k).rtake m := by
    intro k hk
    induction k with
    | zero => rw [hqueue.start, faultPages, List.rtake_nil]
    | succ k ih =>
      have ih := ih (Nat.le_of_succ_le hk)
      rw [hnext k hk, faultPages_succ hk, fifoPages, resident]
      by_cases hmem : string[k] ∈ (trace k).q.pages
      · rw [if_pos hmem, if_pos (List.mem_toFinset.mpr hmem), List.append_nil, ih]
      · rw [if_neg hmem, if_neg (List.mem_toFinset.not.mpr hmem), ih, pushPage_rtake hm]
  have hfaults : ∀ k ≤ string.length,
      (trace k).pageFault = (faultPages string (resident trace) k).length := by
    intro k hk
    rw [hrun.pageFault k hk, length_faultPages hk]
  refine ⟨trace, fun k hk => ⟨htrace k hk, hpages k hk, hfaults k hk⟩, fun k hk v hv hout => ?_⟩
  rw [hnext k hk, fifoPages] at hout
  by_cases hmem : string[k] ∈ (trace k).q.pages
  · rw [if_pos hmem] at hout
    exact absurd hv hout
  · rw [if_neg hmem, pushPage, List.mem_append, not_or] at hout
    by_cases hfull : (trace k).q.pages.length = m
    · -- only the page at the front can leave a full queue
      rw [if_pos hfull] at hout
      obtain ⟨first, rest, hcons⟩ := List.exists_cons_of_ne_nil (List.ne_nil_of_mem hv)
      rw [hcons, List.tail_cons] at hout
      rw [hcons] at hv
      obtain rfl := (List.mem_cons.mp hv).resolve_right hout.1
      have hlist := hpages k hk.le
      rw [List.rtake] at hlist
      have hlength := congrArg List.length hlist
      rw [List.length_drop, hfull] at hlength
      refine ⟨by rw [hfaults k hk.le]; omega, ?_⟩
      rw [hfaults k hk.le, ← List.head?_drop, ← hlist, hcons, List.head?_cons]
    · rw [if_neg hfull] at hout
      exact absurd hv hout.1

/-- Three faults and a hit in a table of two frames. -/
theorem fifo_lastFaults_reuse :
    ∃ trace : ℕ → Frames, fifo (.zero MAX_SIZE) (2 : ℕ) [1, 2, 1, 3] 4 = some (trace 4) ∧
      (trace 4).q.pages = (faultPages [1, 2, 1, 3] (resident trace) 4).rtake 2 ∧
      (trace 4).pageFault = (faultPages [1, 2, 1, 3] (resident trace) 4).length ∧
      ∀ v ∈ (trace 3).q.pages, v ∉ (trace 4).q.pages → 2 ≤ (trace 3).pageFault ∧
        (faultPages [1, 2, 1, 3] (resident trace) 3)[(trace 3).pageFault - 2]? = some v := by
  obtain ⟨trace, htrace, hout⟩ :=
    fifo_lastFaults (.zero MAX_SIZE) (m := 2) (by decide) (by decide) [1, 2, 1, 3]
  obtain ⟨hs, hpages, hfault⟩ := htrace 4 le_rfl
  exact ⟨trace, hs, hpages, hfault, hout 3 (by decide)⟩

end SchoolOS.PageReplacement
