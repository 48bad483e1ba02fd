import SchoolOS.PageReplacement.DemandPaging

/-!
# The bounds of the arrays

The table is tested for being full with `tail == len` only. With `1 ≤ max < MAX_SIZE` the tail never
exceeds `max`. With any other `max` than `0` the tail never meets `max` within `MAX_SIZE`
references, so pages are only appended (`Queue.Roomy`). A table without frames is full from the
start: `FIFO` and `LRU` pop a page it does not have and then write to `arr[-1]`, and `OPT` takes
`delete_idx` before it is set. `CLOCK` writes behind such a table twice, and from then on it is
never full.
-/

namespace SchoolOS.PageReplacement

variable {max : ℤ} {k : ℕ} {page : ℤ} {future : List ℤ}

/-- After `k` references the queue has room for the rest of a string of `MAX_SIZE` references, and
it will not be found full. -/
structure Queue.Roomy (max : ℤ) (k : ℕ) (q : Queue) : Prop where
  nonneg : 0 ≤ q.tail
  le : q.tail ≤ k
  len : q.len = max
  apart : max < q.tail ∨ MAX_SIZE ≤ max

theorem Queue.roomy_init (arr : CArray MAX_SIZE) (h : max < 0 ∨ MAX_SIZE ≤ max) :
    (Queue.init arr max).Roomy max 0 where
  nonneg := le_rfl
  le := le_rfl
  len := rfl
  apart := h

namespace Queue.Roomy

variable {q : Queue}

theorem mono (h : q.Roomy max k) : q.Roomy max (k + 1) where
  nonneg := h.nonneg
  le := by
    have := h.le
    omega
  len := h.len
  apart := h.apart

theorem isFull (h : q.Roomy max k) (hk : k < MAX_SIZE) : q.isFull = false := by
  have hle := h.le
  have hapart := h.apart
  have hne : q.tail ≠ q.len := by
    rw [h.len]
    omega
  simp [Queue.isFull, hne]

theorem lists (h : q.Roomy max k) (hk : k < MAX_SIZE) : ∃ l, q.Lists l ∧ l.length ≤ k := by
  have hle := h.le
  obtain ⟨n, hn⟩ := Int.eq_ofNat_of_zero_le h.nonneg
  obtain ⟨l, hl, hlength⟩ := Queue.exists_lists hn (by omega)
  exact ⟨l, hl, by omega⟩

/-- The search stops at a page of the queue or finds nothing. -/
theorem isHere (h : q.Roomy max k) (hk : k < MAX_SIZE) (num : ℤ) :
    q.isHere num = some (-1) ∨ ∃ i : ℕ, q.isHere num = some (i : ℤ) ∧ (i : ℤ) < q.tail := by
  obtain ⟨l, hl, -⟩ := h.lists hk
  rw [hl.isHere num]
  by_cases hmem : num ∈ l
  · have hlt := List.idxOf_lt_length_of_mem hmem
    refine Or.inr ⟨l.idxOf num, by rw [if_pos hmem], ?_⟩
    rw [hl.tail]
    omega
  · exact Or.inl (by rw [if_neg hmem])

theorem push (h : q.Roomy max k) (hk : k < MAX_SIZE) (num : ℤ) :
    ∃ q', q.push num q.tail = some q' ∧ q'.Roomy max (k + 1) := by
  obtain ⟨l, hl, hle⟩ := h.lists hk
  obtain ⟨q', hpush, hq', hlen⟩ := hl.push_tail (by omega) num
  have htail := hq'.tail
  have hold := hl.tail
  rw [List.length_append, List.length_singleton] at htail
  refine ⟨q', hpush, by omega, by omega, hlen.trans h.len, ?_⟩
  have hapart := h.apart
  omega

/-- A page is moved to the end. -/
theorem pop_push (h : q.Roomy max k) (hk : k < MAX_SIZE) {i : ℕ} (hi : (i : ℤ) < q.tail) (num : ℤ) :
    ∃ q₁ q', q.pop i = some q₁ ∧ q₁.push num q₁.tail = some q' ∧ q'.Roomy max k := by
  obtain ⟨l, hl, hle⟩ := h.lists hk
  have hold := hl.tail
  obtain ⟨q₁, hpop, hq₁, hlen₁⟩ := hl.pop (i := i) (by omega) (by omega)
  have hlength := List.length_eraseIdx_of_lt (l := l) (i := i) (by omega)
  obtain ⟨q', hpush, hq', hlen'⟩ := hq₁.push_tail (by omega) num
  have htail : q'.tail = q.tail := by
    rw [hq'.tail, List.length_append, List.length_singleton]
    omega
  refine ⟨q₁, q', hpop, hpush, ?_, ?_, (hlen'.trans hlen₁).trans h.len, ?_⟩
  · rw [htail]
    exact h.nonneg
  · rw [htail]
    exact h.le
  · rw [htail]
    exact h.apart

end Queue.Roomy

/-! ## References to a table that is never full -/

theorem fifoStep_roomy {s : Frames} (h : s.q.Roomy max k) (hk : k < MAX_SIZE) (page : ℤ)
    (future : List ℤ) : ∃ s', fifoStep page future s = some s' ∧ s'.q.Roomy max (k + 1) := by
  obtain ⟨q', hpush, hq'⟩ := h.push hk page
  rcases h.isHere hk page with hmiss | ⟨i, hhit, -⟩
  · refine ⟨⟨q', s.pageFault + 1⟩, ?_, hq'⟩
    simp [fifoStep, hmiss, h.isFull hk, hpush]
  · have hi : (i : ℤ) ≠ -1 := by omega
    exact ⟨s, by simp [fifoStep, hhit, hi], h.mono⟩

theorem lruStep_roomy {s : Frames} (h : s.q.Roomy max k) (hk : k < MAX_SIZE) (page : ℤ)
    (future : List ℤ) : ∃ s', lruStep page future s = some s' ∧ s'.q.Roomy max (k + 1) := by
  rcases h.isHere hk page with hmiss | ⟨i, hhit, hlt⟩
  · rw [lruStep_eq_fifoStep hmiss]
    exact fifoStep_roomy h hk page future
  · obtain ⟨q₁, q', hpop, hpush, hq'⟩ := h.pop_push hk hlt page
    have hi : (i : ℤ) ≠ -1 := by omega
    exact ⟨⟨q', s.pageFault⟩, by simp [lruStep, hhit, hi, hpop, hpush], hq'.mono⟩

theorem optStep_roomy {s : Opt} (h : s.q.Roomy max k) (hk : k < MAX_SIZE) (page : ℤ)
    (future : List ℤ) : ∃ s', optStep page future s = some s' ∧ s'.q.Roomy max (k + 1) := by
  obtain ⟨q', hpush, hq'⟩ := h.push hk page
  rcases h.isHere hk page with hmiss | ⟨i, hhit, -⟩
  · refine ⟨{ s with q := q', pageFault := s.pageFault + 1 }, ?_, hq'⟩
    simp [optStep, hmiss, h.isFull hk, hpush]
  · have hi : (i : ℤ) ≠ -1 := by omega
    exact ⟨s, by simp [optStep, hhit, hi], h.mono⟩

/-- Both queues of `CLOCK`. -/
structure Clock.Roomy (max : ℤ) (k : ℕ) (s : Clock) : Prop where
  q : s.q.Roomy max k
  bitQueue : s.bitQueue.Roomy max k

theorem clockStep_roomy {s : Clock} (h : s.Roomy max k) (hk : k < MAX_SIZE) (page : ℤ)
    (future : List ℤ) : ∃ s', clockStep page future s = some s' ∧ s'.Roomy max (k + 1) := by
  rcases h.q.isHere hk page with hmiss | ⟨i, hhit, hlt⟩
  · obtain ⟨q', hpush, hq'⟩ := h.q.push hk page
    obtain ⟨b', hpushBit, hb'⟩ := h.bitQueue.push hk 0
    refine ⟨⟨⟨q', s.pageFault + 1⟩, b', if (-1 : ℤ) = q'.tail - 1 then 0 else -1 + 1⟩, ?_, hq', hb'⟩
    simp [clockStep, hmiss, h.q.isFull hk, hpush, hpushBit]
  · have hle := h.q.le
    have hi : (i : ℤ) ≠ -1 := by omega
    obtain ⟨bit, hset, -⟩ := s.bitQueue.arr.set?_natCast (k := i) (by omega) 1
    have hmono := h.bitQueue.mono
    refine ⟨{ s with bitQueue := { s.bitQueue with arr := bit } }, ?_, h.q.mono,
      ⟨hmono.nonneg, hmono.le, hmono.len, hmono.apart⟩⟩
    simp [clockStep, hhit, hi, hset]

/-! ## A table without frames -/

theorem isHere_zero (arr : CArray MAX_SIZE) (page : ℤ) :
    (Queue.init arr 0).isHere page = some (-1) := by
  simp [Queue.isHere, Queue.init, CArray.find]

theorem fifoStep_zero (arr : CArray MAX_SIZE) (page : ℤ) (future : List ℤ) :
    fifoStep page future ⟨.init arr 0, 0⟩ = none := by
  simp [fifoStep, Queue.isHere, Queue.isFull, Queue.init, Queue.pop, Queue.push, CArray.find,
    CArray.shiftLeft, CArray.shiftRight, CArray.set?]

theorem lruStep_zero (arr : CArray MAX_SIZE) (page : ℤ) (future : List ℤ) :
    lruStep page future ⟨.init arr 0, 0⟩ = none := by
  rw [lruStep_eq_fifoStep (isHere_zero arr page), fifoStep_zero]

/-- None of the future references is resident, so `delete_idx` stays unset. -/
theorem visit_zero (arr : CArray MAX_SIZE) {n : ℕ} (visit : CArray n) (future : List ℤ) :
    future.foldlM (visitStep (.init arr 0)) (visit, none) = some (visit, none) := by
  induction future with
  | nil => rfl
  | cons page future ih =>
    have hstep : visitStep (.init arr 0) (visit, none) page = some (visit, none) := by
      simp [visitStep, isHere_zero]
    rw [List.foldlM_cons, hstep]
    exact ih

theorem optStep_zero (arr : CArray MAX_SIZE) (page : ℤ) (future : List ℤ) :
    optStep page future ⟨⟨.init arr 0, 0⟩, none⟩ = none := by
  have hhere := isHere_zero arr page
  have hevict : Opt.evict future ⟨⟨.init arr 0, 0⟩, none⟩ = none := by
    simp only [Opt.evict, visit_zero]
    simp [Queue.init, CArray.find]
  simp only [Queue.init] at hhere hevict
  simp [optStep, Queue.isFull, Queue.init, hhere, hevict]

/-- `CLOCK` without frames, with the hand at `evict`. -/
structure Clock.Bare (evict : ℤ) (s : Clock) : Prop where
  tail : s.q.tail = 0
  len : s.q.len = 0
  tail_bit : s.bitQueue.tail = 0
  len_bit : s.bitQueue.len = 0
  evict : s.evict = evict

/-- The page at the hand is popped, and the new one is written behind the table. -/
theorem clockStep_bare {s : Clock} (h : s.Bare 0) (page : ℤ) (future : List ℤ) :
    ∃ s', clockStep page future s = some s' ∧ s'.Bare 1 := by
  obtain ⟨arr, harr, -⟩ := s.q.arr.set?_natCast (k := 0) (by decide) page
  obtain ⟨bit, hbit, -⟩ := s.bitQueue.arr.set?_natCast (k := 0) (by decide) 0
  rw [Nat.cast_zero] at harr hbit
  refine ⟨⟨⟨⟨arr, 0, 0⟩, s.pageFault + 1⟩, ⟨bit, 0, 0⟩, 1⟩, ?_, rfl, rfl, rfl, rfl, rfl⟩
  simp [clockStep, Clock.evictPage, Queue.isHere, Queue.isFull, Queue.pop, Queue.push, sweep,
    CArray.find, CArray.shiftLeft, CArray.shiftRight, h.tail, h.len, h.tail_bit, h.len_bit, h.evict,
    harr, hbit]

theorem Queue.roomy_one (arr : CArray MAX_SIZE) : Queue.Roomy 0 2 ⟨arr, 1, 0⟩ where
  nonneg := zero_le_one
  le := one_le_two
  len := rfl
  apart := Or.inl zero_lt_one

/-- Nothing is popped, since the hand stands behind the table. -/
theorem clockStep_bare_one {s : Clock} (h : s.Bare 1) (page : ℤ) (future : List ℤ) :
    ∃ s', clockStep page future s = some s' ∧ s'.Roomy 0 2 := by
  obtain ⟨arr, harr, -⟩ := s.q.arr.set?_natCast (k := 1) (by decide) page
  obtain ⟨bit, hbit, -⟩ := s.bitQueue.arr.set?_natCast (k := 1) (by decide) 0
  rw [Nat.cast_one] at harr hbit
  refine ⟨⟨⟨⟨arr, 1, 0⟩, s.pageFault + 1⟩, ⟨bit, 1, 0⟩, 2⟩, ?_,
    Queue.roomy_one arr, Queue.roomy_one bit⟩
  simp [clockStep, Clock.evictPage, Queue.isHere, Queue.isFull, Queue.push, sweep, CArray.find,
    CArray.shiftRight, h.tail, h.len, h.tail_bit, h.len_bit, h.evict, harr, hbit]

/-! ## The runs -/

section Runs

variable {σ : Type} {body : ℤ → List ℤ → σ → Option σ} {string : List ℤ}

/-- A run that fails at its first reference. -/
theorem iterate_eq_none {s : σ} (hstep : ∀ page future, body page future s = none)
    (hstring : string ≠ []) : iterate body string s string.length = none := by
  obtain ⟨page, future, rfl⟩ := List.exists_cons_of_ne_nil hstring
  simp [iterate, List.range_succ_eq_map, hstep]

/-- A run with frames: either the tail stays below `max`, or it never meets `max`. -/
theorem isSome_of_frames (start : ℤ → σ) {I : ℤ → ℕ → σ → Prop}
    (hrun : ∀ m : ℕ, 1 ≤ m → m < MAX_SIZE → (iterate body string (start m) string.length).isSome)
    (hstart : ∀ max : ℤ, (max < 0 ∨ MAX_SIZE ≤ max) → I max 0 (start max))
    (hstep : ∀ (max : ℤ) k s, I max k s → k < MAX_SIZE → ∀ page future,
      ∃ s', body page future s = some s' ∧ I max (k + 1) s')
    (hmax : max ≠ 0) (hlength : string.length ≤ MAX_SIZE) :
    (iterate body string (start max) string.length).isSome := by
  by_cases hroomy : max < 0 ∨ MAX_SIZE ≤ max
  · obtain ⟨s, hs, -⟩ := iterate_invariant (I := I max) (hstart max hroomy)
      (fun k hk s h => hstep max k s h (hk.trans_le hlength) _ _) (le_refl string.length)
    rw [hs]
    rfl
  · obtain ⟨m, rfl⟩ : ∃ m : ℕ, max = m := ⟨max.toNat, by omega⟩
    exact hrun m (by omega) (by omega)

variable (arr bit : CArray MAX_SIZE)

/-- Without frames the first reference fails. -/
theorem isSome_iff {s : σ} (hzero : max = 0 → ∀ page future, body page future s = none)
    (hframes : max ≠ 0 → (iterate body string s string.length).isSome) :
    (iterate body string s string.length).isSome ↔ max ≠ 0 ∨ string = [] := by
  constructor
  · intro hsome
    by_contra! hnot
    rw [iterate_eq_none (hzero hnot.1) hnot.2] at hsome
    exact Bool.false_ne_true hsome
  · rintro (hmax | rfl)
    · exact hframes hmax
    · rfl

theorem fifo_isSome_iff (max : ℤ) (hlength : string.length ≤ MAX_SIZE) :
    (fifo arr max string string.length).isSome ↔ max ≠ 0 ∨ string = [] := by
  refine isSome_iff (fun hmax => hmax ▸ fifoStep_zero arr) fun hmax => ?_
  refine isSome_of_frames (fun max => (⟨.init arr max, 0⟩ : Frames))
    (I := fun max k s => s.q.Roomy max k) (fun m hm hlt => ?_) (fun _ => Queue.roomy_init arr)
    (fun _ _ _ => fifoStep_roomy) hmax hlength
  obtain ⟨trace, hrun, -⟩ := fifo_run hm hlt arr string
  exact Option.isSome_of_eq_some (hrun _ le_rfl)

theorem lru_isSome_iff (max : ℤ) (hlength : string.length ≤ MAX_SIZE) :
    (lru arr max string string.length).isSome ↔ max ≠ 0 ∨ string = [] := by
  refine isSome_iff (fun hmax => hmax ▸ lruStep_zero arr) fun hmax => ?_
  refine isSome_of_frames (fun max => (⟨.init arr max, 0⟩ : Frames))
    (I := fun max k s => s.q.Roomy max k) (fun m hm hlt => ?_) (fun _ => Queue.roomy_init arr)
    (fun _ _ _ => lruStep_roomy) hmax hlength
  obtain ⟨trace, hrun, -⟩ := lru_run hm hlt arr string
  exact Option.isSome_of_eq_some (hrun _ le_rfl)

theorem opt_isSome_iff (max : ℤ) (hlength : string.length ≤ MAX_SIZE) :
    (opt arr max string string.length).isSome ↔ max ≠ 0 ∨ string = [] := by
  refine isSome_iff (fun hmax => hmax ▸ optStep_zero arr) fun hmax => ?_
  refine isSome_of_frames (fun max => (⟨⟨.init arr max, 0⟩, none⟩ : Opt))
    (I := fun max k s => s.q.Roomy max k) (fun m hm hlt => ?_) (fun _ => Queue.roomy_init arr)
    (fun _ _ _ => optStep_roomy) hmax hlength
  obtain ⟨trace, hrun, -⟩ := opt_run hm hlt arr string
  exact Option.isSome_of_eq_some (hrun _ le_rfl)

/-- The states of `CLOCK` without frames. -/
def Clock.WithoutFrames : ℕ → Clock → Prop
  | 0, s => s.Bare 0
  | 1, s => s.Bare 1
  | k + 2, s => s.Roomy 0 (k + 2)

theorem clock_isSome (max : ℤ) (hlength : string.length ≤ MAX_SIZE) :
    (clock arr bit max string string.length).isSome := by
  by_cases hmax : max = 0
  · subst hmax
    obtain ⟨s, hs, -⟩ : ∃ s, clock arr bit 0 string string.length = some s ∧
        Clock.WithoutFrames string.length s := by
      refine iterate_invariant (I := Clock.WithoutFrames) ⟨rfl, rfl, rfl, rfl, rfl⟩ ?_ le_rfl
      intro k hk s h
      match k, h with
      | 0, h => exact clockStep_bare h _ _
      | 1, h => exact clockStep_bare_one h _ _
      | k + 2, h => exact clockStep_roomy h (hk.trans_le hlength) _ _
    exact Option.isSome_of_eq_some hs
  · refine isSome_of_frames (fun max => (⟨⟨.init arr max, 0⟩, .init bit max, 0⟩ : Clock))
      (I := Clock.Roomy) (fun m hm hlt => ?_)
      (fun _ h => ⟨Queue.roomy_init arr h, Queue.roomy_init bit h⟩) (fun _ _ _ => clockStep_roomy)
      hmax hlength
    obtain ⟨trace, hrun, -⟩ := clock_run hm hlt arr bit string
    exact Option.isSome_of_eq_some (hrun _ le_rfl)

end Runs

/-- No simulator accesses an array outside its bounds, and `OPT` sets `delete_idx` before it uses
it. -/
def InBounds (arr bit : CArray MAX_SIZE) (max : ℤ) (string : List ℤ) : Prop :=
  (opt arr max string string.length).isSome ∧ (fifo arr max string string.length).isSome ∧
    (lru arr max string string.length).isSome ∧ (clock arr bit max string string.length).isSome

/-- The simulators stay within their arrays for every number of frames but `0`, also for negative
ones and for those beyond the arrays. -/
theorem inBounds_iff (arr bit : CArray MAX_SIZE) (max : ℤ) {string : List ℤ}
    (hlength : string.length ≤ MAX_SIZE) : InBounds arr bit max string ↔ max ≠ 0 ∨ string = [] := by
  unfold InBounds
  rw [opt_isSome_iff arr max hlength, fifo_isSome_iff arr max hlength,
    lru_isSome_iff arr max hlength]
  have hclock := clock_isSome arr bit max hlength
  tauto

/-- Three frames, which are too few for the five pages, and a number that is no number of frames. -/
theorem inBounds_threeFrames :
    InBounds (.zero MAX_SIZE) (.zero MAX_SIZE) 3 [7, 0, 1, 2, 0, 3, 0] ∧
      InBounds (.zero MAX_SIZE) (.zero MAX_SIZE) (-1) [7, 0, 1] :=
  ⟨(inBounds_iff (.zero MAX_SIZE) (.zero MAX_SIZE) 3 (by decide)).mpr (Or.inl (by decide)),
    (inBounds_iff (.zero MAX_SIZE) (.zero MAX_SIZE) (-1) (by decide)).mpr (Or.inl (by decide))⟩

/-- `OPT` evicts a page from a table without frames. -/
theorem not_inBounds_zero : ¬ InBounds (.zero MAX_SIZE) (.zero MAX_SIZE) 0 [1] := by
  rintro ⟨hopt, -⟩
  rw [opt_isSome_iff (.zero MAX_SIZE) 0 (by decide)] at hopt
  simp at hopt

end SchoolOS.PageReplacement
