import SchoolOS.Lib.SecondChance
import SchoolOS.PageReplacement.Queue

/-!
# `CLOCK` is the second-chance machine

The source splits the walk of the hand into a sweep from the hand to the end of the table and one
from the start of the table to the hand, and it replaces a page by removing and inserting it.
`Clock.Refines` relates its two queues to the slots of the machine `SecondChance`. Where a sweep
does not find its page, it has made as many steps of the walk (`sweep_turn`). After a whole turn all
bits are clear, also the one at the hand.
-/

namespace SchoolOS.PageReplacement

variable {m : ℕ} {page : ℤ} {future : List ℤ} {s : Clock} {t : SecondChance ℤ}

/-- The queues of `CLOCK` hold the slots of the machine. -/
structure Clock.Refines (m : ℕ) (s : Clock) (t : SecondChance ℤ) : Prop where
  pages : s.q.Represents m t.pages
  bits : s.bitQueue.Represents m (t.bits.map Bool.toInt)
  length_bits : t.bits.length = t.pages.length
  evict : s.evict = t.hand
  hand_lt : t.hand < m
  /-- The hand does not move before the table is full. -/
  hand_eq : t.pages.length < m → t.hand = 0
  pageFault : s.pageFault = t.faults

theorem Clock.refines_start (arr bit : CArray MAX_SIZE) (hm : 0 < m) (hmax : m < MAX_SIZE) :
    Clock.Refines m ⟨⟨.init arr m, 0⟩, .init bit m, 0⟩ .start where
  pages := Queue.represents_init arr hmax
  bits := Queue.represents_init bit hmax
  length_bits := rfl
  evict := rfl
  hand_lt := hm
  hand_eq _ := rfl
  pageFault := rfl

/-! ## The walk of the hand -/

/-- The bits `b'` after a sweep from `i` over at most `count` slots that stops at `k`. -/
structure Swept (m : ℕ) (b : List Bool) (i count k : ℕ) (b' : List Bool) : Prop where
  le : k ≤ i + count
  stop : k < i + count → b'[k]? = some false
  cells : ∀ j, b'[j]? = if i ≤ j ∧ j < k then some false else b[j]?
  turn : SecondChance.turn m b (i % m) = SecondChance.turn m b' (k % m)

/-- The sweep goes on behind a slot in use. -/
theorem Swept.cons {b b' : List Bool} {i count k : ℕ} (hbit : b[i]? = some true) (hi : i < m)
    (hik : i < k) (h : Swept m (b.set i false) (i + 1) count k b') :
    Swept m b i (count + 1) k b' where
  le := by
    have := h.le
    omega
  stop hk := h.stop (by omega)
  cells j := by
    obtain ⟨hlt, -⟩ := List.getElem?_eq_some_iff.mp hbit
    rw [h.cells j, List.getElem?_set]
    by_cases hj : i = j
    · rw [if_neg (by omega), if_pos hj, if_pos hlt, if_pos (by omega)]
    · simp only [if_neg hj, show i + 1 ≤ j ∧ j < k ↔ i ≤ j ∧ j < k by omega]
  turn := by
    rw [← h.turn, Nat.mod_eq_of_lt hi]
    exact SecondChance.turn_of_set hbit

theorem sweep_turn {bit : CArray MAX_SIZE} {b : List Bool} (hbit : bit.Holds (b.map Bool.toInt))
    (hlength : b.length = m) (i count : ℕ) (h : i + count ≤ m) :
    ∃ (k : ℕ) (bit' : CArray MAX_SIZE) (b' : List Bool), sweep bit i count = some ((k : ℤ), bit') ∧
      i ≤ k ∧ bit'.Holds (b'.map Bool.toInt) ∧ b'.length = m ∧ Swept m b i count k b' := by
  induction count generalizing bit b i with
  | zero =>
    refine ⟨i, bit, b, rfl, le_rfl, hbit, hlength, le_rfl, fun hlt => absurd hlt (lt_irrefl _), ?_,
      rfl⟩
    exact fun j => (if_neg (by omega)).symm
  | succ count ih =>
    have hi : i < (b.map Bool.toInt).length := by
      rw [List.length_map]
      omega
    have hb : b[i]? = some b[i] := List.getElem?_eq_getElem _
    have hget : bit.get? i = some b[i].toInt := by
      rw [hbit.get? hi, List.getElem?_map, hb, Option.map_some]
    cases hval : b[i] with
    | false =>
      rw [hval] at hb hget
      refine ⟨i, bit, b, ?_, le_rfl, hbit, hlength, by omega, fun _ => hb, ?_, rfl⟩
      · simp [sweep, hget]
      · exact fun j => (if_neg (by omega)).symm
    | true =>
      rw [hval] at hb hget
      obtain ⟨bit₁, hset, hbit₁⟩ := hbit.set hi 0
      rw [← Bool.toInt_false, ← List.map_set] at hbit₁
      obtain ⟨k, bit', b', hsweep, hle, hbit', hlength', hswept⟩ :=
        ih hbit₁ (by rw [List.length_set, hlength]) (i + 1) (by omega)
      rw [Nat.cast_add_one] at hsweep
      refine ⟨k, bit', b', ?_, by omega, hbit', hlength', hswept.cons hb (by omega) (by omega)⟩
      simp [sweep, hget, hset, hsweep]

/-- The two sweeps stop where the walk of the hand stops. -/
theorem sweep_sweep_turn {bit : CArray MAX_SIZE} {b : List Bool}
    (hbit : bit.Holds (b.map Bool.toInt)) (hlength : b.length = m) {hand : ℕ} (hhand : hand < m) :
    ∃ (idx₁ : ℤ) (bit₁ : CArray MAX_SIZE) (k : ℕ) (bit' : CArray MAX_SIZE) (b' : List Bool),
      sweep bit hand (m - hand) = some (idx₁, bit₁) ∧ idx₁ ≤ m ∧
      (if idx₁ = m then sweep bit₁ 0 hand else some (idx₁, bit₁)) = some ((k : ℤ), bit') ∧
      SecondChance.turn m b hand = (b', k) ∧ k < m ∧ b'.length = m ∧
      bit'.Holds (b'.map Bool.toInt) := by
  obtain ⟨k₁, bit₁, b₁, hsweep, hle, hbit₁, hlength₁, h₁⟩ :=
    sweep_turn hbit hlength hand (m - hand) (by omega)
  have hle₁ := h₁.le
  have hturn := h₁.turn
  rw [Nat.mod_eq_of_lt hhand] at hturn
  by_cases hend : k₁ = m
  · obtain ⟨k, bit', b', hsweep', -, hbit', hlength', h'⟩ :=
      sweep_turn hbit₁ hlength₁ 0 hand (by omega)
    have hle' := h'.le
    have hclear : b'[k]? = some false := by
      by_cases hk : k < hand
      · exact h'.stop (by omega)
      · -- a whole turn: the first sweep has cleared the bit at the hand
        rw [h'.cells, if_neg (by omega), h₁.cells, if_pos (by omega)]
    refine ⟨k₁, bit₁, k, bit', b', hsweep, by omega, ?_, ?_, by omega, hlength', hbit'⟩
    · rw [if_pos (by rw [hend])]
      exact hsweep'
    · rw [hturn, hend, Nat.mod_self, ← Nat.zero_mod m, h'.turn, Nat.mod_eq_of_lt (by omega)]
      exact SecondChance.turn_of_clear hclear
  · refine ⟨k₁, bit₁, k₁, bit₁, b₁, hsweep, by omega, if_neg (by omega), ?_, by omega, hlength₁,
      hbit₁⟩
    rw [hturn, Nat.mod_eq_of_lt (by omega)]
    exact SecondChance.turn_of_clear (h₁.stop (by omega))

/-- The page at the slot where the hand stops is taken out of both queues, and the ones that are
inserted next take its place. -/
theorem Clock.evictPage_turn (h : s.Refines m t) (hfull : t.pages.length = m) :
    ∃ (k : ℕ) (b : List Bool) (s' : Clock), SecondChance.turn m t.bits t.hand = (b, k) ∧ k < m ∧
      b.length = m ∧ s.evictPage = some ((k : ℤ), s') ∧ s'.pageFault = s.pageFault ∧
      (∀ page, ∃ q', s'.q.push page k = some q' ∧ q'.Represents m (t.pages.set k page)) ∧
      ∃ bits', s'.bitQueue.push 0 k = some bits' ∧
        bits'.Represents m ((b.set k false).map Bool.toInt) := by
  have hcount : (s.q.len - s.evict).toNat = m - t.hand := by
    rw [h.pages.len, h.evict]
    omega
  obtain ⟨idx₁, bit₁, k, bit', b, hsweep, hidx₁, hsweep', hturn, hk, hlength, hbit'⟩ :=
    sweep_sweep_turn h.bits.holds (h.length_bits.trans hfull) h.hand_lt
  have hbits : Queue.Represents { s.bitQueue with arr := bit' } m (b.map Bool.toInt) := by
    refine ⟨h.bits.len, ?_, hbit', ?_, h.bits.lt_max⟩
    · show s.bitQueue.tail = _
      rw [h.bits.tail, List.length_map, List.length_map, hlength, h.length_bits, hfull]
    · rw [List.length_map, hlength]
  obtain ⟨q', hpop, hpush⟩ := h.pages.replace (i := k) (by omega)
  obtain ⟨bits', hpopBit, hpushBit⟩ := hbits.replace (i := k) (by rw [List.length_map]; omega)
  have hclear := hpushBit 0
  rw [← Bool.toInt_false, ← List.map_set] at hclear
  refine ⟨k, b, { s with q := q', bitQueue := bits' }, hturn, hk, hlength, ?_, rfl, hpush, hclear⟩
  unfold Clock.evictPage
  rw [hcount, h.pages.len, h.evict, hsweep, Int.toNat_natCast]
  simp only [Option.bind_eq_bind, Option.bind_some, if_neg hidx₁.not_gt]
  by_cases hend : idx₁ = m
  · rw [if_pos hend] at hsweep'
    simp [hend, hsweep', hpop, hpopBit]
  · rw [if_neg hend, Option.some.injEq, Prod.mk.injEq] at hsweep'
    obtain ⟨rfl, rfl⟩ := hsweep'
    simp [hend, hpop, hpopBit]

/-! ## One reference -/

theorem clockStep_hit (h : s.Refines m t) (hpage : page ∈ t.pages) :
    ∃ s', clockStep page future s = some s' ∧ s'.Refines m (t.step m page) := by
  have hidx : ((t.pages.idxOf page : ℕ) : ℤ) ≠ -1 := by omega
  have hlt : t.pages.idxOf page < (t.bits.map Bool.toInt).length := by
    rw [List.length_map, h.length_bits]
    exact List.idxOf_lt_length_of_mem hpage
  obtain ⟨bit, hset, hbit⟩ := h.bits.holds.set hlt 1
  rw [← Bool.toInt_true, ← List.map_set] at hbit
  refine ⟨{ s with bitQueue := { s.bitQueue with arr := bit } }, ?_, ?_⟩
  · simp [clockStep, h.pages.isHere, hpage, hidx, hset]
  · rw [SecondChance.step_hit hpage]
    have hlength : (t.bits.set (t.pages.idxOf page) true).length = t.bits.length := List.length_set
    refine ⟨h.pages, ⟨h.bits.len, ?_, hbit, ?_, h.bits.lt_max⟩, hlength.trans h.length_bits,
      h.evict, h.hand_lt, h.hand_eq, h.pageFault⟩
    · show s.bitQueue.tail = _
      rw [h.bits.tail, List.length_map, List.length_map, hlength]
    · rw [List.length_map, hlength, h.length_bits]
      exact h.pages.length_le

/-- While the table is not full, `idx` stays `-1` and the hand stays at the first slot. -/
theorem clockStep_fill (h : s.Refines m t) (hpage : page ∉ t.pages) (hlt : t.pages.length < m) :
    ∃ s', clockStep page future s = some s' ∧ s'.Refines m (t.step m page) := by
  obtain ⟨q', hpush, hq'⟩ := h.pages.push_tail hlt page
  obtain ⟨bits', hpushBit, hbits'⟩ :=
    h.bits.push_tail (by rwa [List.length_map, h.length_bits]) 0
  have hhand := h.hand_eq hlt
  refine ⟨⟨⟨q', s.pageFault + 1⟩, bits', 0⟩, ?_, ?_⟩
  · simp [clockStep, h.pages.isHere, h.pages.isFull, hpage, hlt.ne, hpush, hpushBit]
  · rw [SecondChance.step_fill hpage hlt]
    refine ⟨hq', ?_, ?_, by rw [hhand]; rfl, h.hand_lt, fun _ => hhand,
      congrArg (· + 1) h.pageFault⟩
    · rw [List.map_append]
      exact hbits'
    · rw [List.length_append, List.length_append, h.length_bits]
      rfl

/-- The new page takes the place of the evicted one, and the hand moves to the next slot. -/
theorem clockStep_evict (h : s.Refines m t) (hpage : page ∉ t.pages) (hfull : t.pages.length = m) :
    ∃ s', clockStep page future s = some s' ∧ s'.Refines m (t.step m page) := by
  obtain ⟨k, b, s₁, hturn, hk, hlength, hevict, hfault, hreplace, bits', hpushBit, hbits'⟩ :=
    Clock.evictPage_turn h hfull
  obtain ⟨q', hpush, hq'⟩ := hreplace page
  have hidx : (k : ℤ) ≠ -1 := by omega
  refine ⟨⟨⟨q', s₁.pageFault + 1⟩, bits', if (k : ℤ) = q'.tail - 1 then 0 else k + 1⟩, ?_, ?_⟩
  · simp [clockStep, h.pages.isHere, h.pages.isFull, hpage, hfull, hevict, hidx, hpush, hpushBit]
  · rw [SecondChance.step_evict hpage hfull hturn]
    refine ⟨hq', hbits', ?_, ?_, Nat.mod_lt _ (by omega), fun hlt => ?_, ?_⟩
    · rw [List.length_set, List.length_set, hlength, hfull]
    · -- the table is full again, so its last index is `tail - 1`
      show (if (k : ℤ) = q'.tail - 1 then 0 else (k : ℤ) + 1) = ((k + 1) % m : ℕ)
      rw [hq'.tail, List.length_set, hfull]
      by_cases hlast : k + 1 = m
      · rw [if_pos (by omega), hlast, Nat.mod_self]
        rfl
      · rw [if_neg (by omega), Nat.mod_eq_of_lt (by omega)]
        rfl
    · rw [List.length_set, hfull] at hlt
      exact absurd hlt (lt_irrefl m)
    · show s₁.pageFault + 1 = _
      rw [hfault, h.pageFault]

theorem clockStep_refines (h : s.Refines m t) (page : ℤ) (future : List ℤ) :
    ∃ s', clockStep page future s = some s' ∧ s'.Refines m (t.step m page) := by
  by_cases hpage : page ∈ t.pages
  · exact clockStep_hit h hpage
  · by_cases hfull : t.pages.length = m
    · exact clockStep_evict h hpage hfull
    · exact clockStep_fill h hpage (lt_of_le_of_ne h.pages.length_le hfull)

/-! ## The run -/

theorem clock_refines (arr bit : CArray MAX_SIZE) (hm : 1 ≤ m) (hmax : m < MAX_SIZE)
    {string : List ℤ} {k : ℕ} (hk : k ≤ string.length) :
    ∃ s, clock arr bit m string k = some s ∧ s.Refines m (.run m (string.take k)) := by
  refine iterate_invariant (I := fun k s => Clock.Refines m s (.run m (string.take k))) ?_ ?_ hk
  · exact Clock.refines_start arr bit hm hmax
  · intro k hk s h
    rw [List.take_succ_eq_append_getElem hk, SecondChance.run_concat]
    exact clockStep_refines h string[k] (string.drop (k + 1))

/-- `CLOCK` is the second-chance machine: after every prefix of the reference string they agree on
the pages, the use bits, the hand and the number of faults. -/
theorem clock_secondChance (arr bit : CArray MAX_SIZE) {m : ℕ} (hm : 1 ≤ m) (hmax : m < MAX_SIZE)
    (string : List ℤ) :
    ∀ k ≤ string.length, ∃ s, clock arr bit m string k = some s ∧
      s.q.pages = (SecondChance.run m (string.take k)).pages ∧
      s.bitQueue.pages = (SecondChance.run m (string.take k)).bits.map Bool.toInt ∧
      s.evict = (SecondChance.run m (string.take k)).hand ∧
      s.pageFault = (SecondChance.run m (string.take k)).faults := by
  intro k hk
  obtain ⟨s, hs, h⟩ := clock_refines arr bit hm hmax hk
  exact ⟨s, hs, h.pages.pages, h.bits.pages, h.evict, h.pageFault⟩

/-- Both pages are in use at the last reference, so the hand makes a whole turn. -/
theorem clock_secondChance_wholeTurn :
    ∃ s, clock (.zero MAX_SIZE) (.zero MAX_SIZE) (2 : ℕ) [1, 2, 1, 2, 3] 5 = some s ∧
      s.q.pages = [3, 2] ∧ s.bitQueue.pages = [0, 0] ∧ s.evict = 1 ∧ s.pageFault = 3 := by
  have hrun : SecondChance.run 2 (List.take 5 ([1, 2, 1, 2, 3] : List ℤ)) =
      ⟨[3, 2], [false, false], 1, 3⟩ := by
    simp [SecondChance.run, SecondChance.start, SecondChance.step, SecondChance.turn]
  obtain ⟨s, hs, hpages, hbits, hevict, hfault⟩ :=
    clock_secondChance (.zero MAX_SIZE) (.zero MAX_SIZE)
    (m := 2) (by decide) (by decide) [1, 2, 1, 2, 3] 5 le_rfl
  rw [hrun] at hpages hbits hevict hfault
  exact ⟨s, hs, hpages, hbits, hevict, hfault⟩

end SchoolOS.PageReplacement
