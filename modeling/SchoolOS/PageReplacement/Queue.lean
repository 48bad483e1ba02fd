import SchoolOS.Lib.Paging
import SchoolOS.PageReplacement.Defs

/-!
# The queue as a list, and the loop over the reference string

`Queue.Lists` relates a queue to the list of its pages, and `Queue.Represents` says that the list
fits into the table. The functions of the queue are the list functions `insertIdx`, `eraseIdx` and
`idxOf`; `pop` and `push` at one index together are `set` (`Queue.Lists.replace`). `iterate_trace`
is the invariant rule for the loops over the reference string.
-/

namespace SchoolOS.PageReplacement

/-- The queue holds the pages `l`, whatever the size of its table. -/
structure Queue.Lists (q : Queue) (l : List ℤ) : Prop where
  tail : q.tail = l.length
  holds : q.arr.Holds l

/-- Any contents of the array are some list. -/
theorem Queue.exists_lists {q : Queue} {n : ℕ} (htail : q.tail = n) (hle : n ≤ MAX_SIZE) :
    ∃ l, q.Lists l ∧ l.length = n := by
  have hlength : (q.arr.cells.take n).length = n := by
    rw [List.length_take, q.arr.length_eq]
    omega
  refine ⟨q.arr.cells.take n, ⟨?_, ?_⟩, hlength⟩
  · rw [hlength, htail]
  · rw [CArray.Holds, hlength]

namespace Queue.Lists

variable {q : Queue} {l : List ℤ}

theorem pages (h : q.Lists l) : q.pages = l := by
  rw [Queue.pages, h.tail, Int.toNat_natCast]
  exact h.holds

theorem isHere (h : q.Lists l) (num : ℤ) :
    q.isHere num = some (if num ∈ l then (l.idxOf num : ℤ) else -1) := by
  have hfind := q.arr.find_natCast num 0 l.length (by have := h.holds.length_le; omega)
  rw [List.drop_zero, h.holds, Nat.zero_add, Nat.cast_zero] at hfind
  rw [Queue.isHere, h.tail, Int.toNat_natCast, hfind]
  simp [List.idxOf_lt_length_iff]

theorem push (h : q.Lists l) {i : ℕ} (hi : i ≤ l.length) (hlt : l.length < MAX_SIZE) (num : ℤ) :
    ∃ q', q.push num i = some q' ∧ q'.Lists (l.insertIdx i num) ∧ q'.len = q.len := by
  obtain ⟨a₁, a', hshift, hset, hholds⟩ := h.holds.shiftRight hi hlt num
  have hcount : ((l.length : ℤ) - i).toNat = l.length - i := by omega
  have hlength := List.length_insertIdx_of_le_length hi num
  refine ⟨{ q with arr := a', tail := q.tail + 1 }, ?_, ⟨?_, hholds⟩, rfl⟩
  · rw [Queue.push, h.tail, hcount, hshift, Option.bind_eq_bind, Option.bind_some, hset]
    rfl
  · show q.tail + 1 = _
    rw [hlength, h.tail, Nat.cast_add_one]

theorem push_tail (h : q.Lists l) (hlt : l.length < MAX_SIZE) (num : ℤ) :
    ∃ q', q.push num q.tail = some q' ∧ q'.Lists (l ++ [num]) ∧ q'.len = q.len := by
  rw [h.tail, ← List.insertIdx_length_self]
  exact h.push le_rfl hlt num

theorem pop (h : q.Lists l) {i : ℕ} (hi : i < l.length) (hlt : l.length < MAX_SIZE) :
    ∃ q', q.pop i = some q' ∧ q'.Lists (l.eraseIdx i) ∧ q'.len = q.len := by
  obtain ⟨a', hshift, hholds⟩ := h.holds.shiftLeft hi hlt
  have hcount : ((l.length : ℤ) - i).toNat = l.length - i := by omega
  have hlength : (l.eraseIdx i).length = l.length - 1 := List.length_eraseIdx_of_lt hi
  refine ⟨{ q with arr := a', tail := q.tail - 1 }, ?_, ⟨?_, hholds⟩, rfl⟩
  · rw [Queue.pop, h.tail, hcount, hshift]
    rfl
  · show q.tail - 1 = _
    rw [hlength, h.tail]
    omega

/-- Removing an element and inserting another one in its place. -/
theorem replace (h : q.Lists l) {i : ℕ} (hi : i < l.length) (hlt : l.length < MAX_SIZE) :
    ∃ q₁, q.pop i = some q₁ ∧
      ∀ num, ∃ q', q₁.push num i = some q' ∧ q'.Lists (l.set i num) ∧ q'.len = q.len := by
  obtain ⟨q₁, hpop, hq₁, hlen₁⟩ := h.pop hi hlt
  have hlength : (l.eraseIdx i).length = l.length - 1 := List.length_eraseIdx_of_lt hi
  refine ⟨q₁, hpop, fun num => ?_⟩
  obtain ⟨q', hpush, hq', hlen'⟩ := hq₁.push (i := i) (by omega) (by omega) num
  rw [List.insertIdx_eraseIdx_self hi.ne] at hq'
  exact ⟨q', hpush, hq', hlen'.trans hlen₁⟩

end Queue.Lists

/-! ## The shifting loops -/

theorem zip_set {α β : Type*} (l : List α) (r : List β) (i : ℕ) (a : α) (b : β) :
    (l.set i a).zip (r.set i b) = (l.zip r).set i (a, b) := by
  induction l generalizing r i with
  | nil => simp
  | cons x l ih =>
    cases r with
    | nil => simp
    | cons y r =>
      cases i with
      | zero => rfl
      | succ i => simp [ih]

namespace Queue

variable {q : Queue} {idx : ℤ}

theorem lists_pages (htail : 0 ≤ q.tail) (hle : q.tail ≤ MAX_SIZE) : q.Lists q.pages := by
  obtain ⟨n, hn⟩ := Int.eq_ofNat_of_zero_le htail
  obtain ⟨l, hl, -⟩ := Queue.exists_lists hn (by omega)
  rwa [hl.pages]

theorem push_pages (htail : 0 ≤ q.tail) (hlt : q.tail < MAX_SIZE) (hidx : 0 ≤ idx)
    (hle : idx ≤ q.tail) (num : ℤ) :
    ∃ q', q.push num idx = some q' ∧ q'.pages = q.pages.insertIdx idx.toNat num ∧
      q'.tail = q.tail + 1 ∧ q'.len = q.len := by
  have hq := lists_pages htail hlt.le
  have hold := hq.tail
  obtain ⟨i, rfl⟩ := Int.eq_ofNat_of_zero_le hidx
  obtain ⟨q', hpush, hq', hlen⟩ := hq.push (i := i) (by omega) (by omega) num
  have hlength : (q.pages.insertIdx i num).length = q.pages.length + 1 :=
    List.length_insertIdx_of_le_length (by omega) num
  refine ⟨q', hpush, hq'.pages, ?_, hlen⟩
  rw [hq'.tail, hlength, hold, Nat.cast_add_one]

theorem pop_pages (htail : 0 ≤ q.tail) (hlt : q.tail < MAX_SIZE) (hidx : 0 ≤ idx)
    (hi : idx < q.tail) :
    ∃ q', q.pop idx = some q' ∧ q'.pages = q.pages.eraseIdx idx.toNat ∧ q'.tail = q.tail - 1 ∧
      q'.len = q.len := by
  have hq := lists_pages htail hlt.le
  have hold := hq.tail
  obtain ⟨i, rfl⟩ := Int.eq_ofNat_of_zero_le hidx
  obtain ⟨q', hpop, hq', hlen⟩ := hq.pop (i := i) (by omega) (by omega)
  have hlength := List.length_eraseIdx_of_lt (l := q.pages) (i := i) (by omega)
  refine ⟨q', hpop, hq'.pages, ?_, hlen⟩
  rw [hq'.tail, hlength, hold]
  omega

theorem replace_pages (htail : 0 ≤ q.tail) (hlt : q.tail < MAX_SIZE) (hidx : 0 ≤ idx)
    (hi : idx < q.tail) (num : ℤ) :
    ∃ q', (q.pop idx).bind (fun q₁ => q₁.push num idx) = some q' ∧
      q'.pages = q.pages.set idx.toNat num ∧ q'.tail = q.tail ∧ q'.len = q.len := by
  have hq := lists_pages htail hlt.le
  have hold := hq.tail
  obtain ⟨i, rfl⟩ := Int.eq_ofNat_of_zero_le hidx
  obtain ⟨q₁, hpop, hpush⟩ := hq.replace (i := i) (by omega) (by omega)
  obtain ⟨q', hpush, hq', hlen⟩ := hpush num
  refine ⟨q', ?_, hq'.pages, ?_, hlen⟩
  · show (q.pop i).bind _ = _
    rw [hpop, Option.bind_some]
    exact hpush
  · rw [hq'.tail, List.length_set, hold]

end Queue

/-- For a queue that leaves a cell of its array free, `push` inserts an element into the list of
pages, `pop` removes one, and `pop` followed by `push` at the same index replaces one. Doing the
last on two queues with the same tail, as `CLOCK` does, replaces one pair of the list of pairs. -/
theorem push_pop_pages (q : Queue) (htail : 0 ≤ q.tail) (hlt : q.tail < MAX_SIZE) (num idx : ℤ)
    (hidx : 0 ≤ idx) :
    (idx ≤ q.tail → ∃ q', q.push num idx = some q' ∧ q'.pages = q.pages.insertIdx idx.toNat num ∧
      q'.tail = q.tail + 1 ∧ q'.len = q.len) ∧
    (idx < q.tail → ∃ q', q.pop idx = some q' ∧ q'.pages = q.pages.eraseIdx idx.toNat ∧
      q'.tail = q.tail - 1 ∧ q'.len = q.len) ∧
    (idx < q.tail → ∃ q', (q.pop idx).bind (fun q₁ => q₁.push num idx) = some q' ∧
      q'.pages = q.pages.set idx.toNat num ∧ q'.tail = q.tail ∧ q'.len = q.len) ∧
    (idx < q.tail → ∀ (b : Queue) (bit : ℤ), b.tail = q.tail →
      ∃ q' b', (q.pop idx).bind (fun q₁ => q₁.push num idx) = some q' ∧
        (b.pop idx).bind (fun b₁ => b₁.push bit idx) = some b' ∧ b'.tail = q'.tail ∧
        q'.pages.zip b'.pages = (q.pages.zip b.pages).set idx.toNat (num, bit)) := by
  refine ⟨fun hle => Queue.push_pages htail hlt hidx hle num,
    fun hi => Queue.pop_pages htail hlt hidx hi,
    fun hi => Queue.replace_pages htail hlt hidx hi num, fun hi b bit hb => ?_⟩
  obtain ⟨q', hq', hpages, htail', -⟩ := Queue.replace_pages htail hlt hidx hi num
  rw [← hb] at htail hlt hi
  obtain ⟨b', hb', hbits, htailBit, -⟩ := Queue.replace_pages htail hlt hidx hi bit
  refine ⟨q', b', hq', hb', ?_, ?_⟩
  · rw [htailBit, htail', hb]
  · rw [hpages, hbits, zip_set]

/-- A queue of three pages. -/
def threePages : Queue :=
  ⟨⟨[7, 0, 1] ++ List.replicate 997 0, by rw [List.length_append, List.length_replicate]; rfl⟩,
    3, 3⟩

theorem push_pop_pages_threePages :
    (∃ q', threePages.push 2 1 = some q' ∧ q'.pages = [7, 2, 0, 1]) ∧
    (∃ q', threePages.pop 1 = some q' ∧ q'.pages = [7, 1]) ∧
    ∃ q', (threePages.pop 1).bind (fun q₁ => q₁.push 2 1) = some q' ∧ q'.pages = [7, 2, 1] := by
  obtain ⟨hpush, hpop, hreplace, -⟩ :=
    push_pop_pages threePages (by decide) (by decide) 2 1 (by decide)
  obtain ⟨q₁, hq₁, hpages₁, -⟩ := hpush (by decide)
  obtain ⟨q₂, hq₂, hpages₂, -⟩ := hpop (by decide)
  obtain ⟨q₃, hq₃, hpages₃, -⟩ := hreplace (by decide)
  exact ⟨⟨q₁, hq₁, hpages₁⟩, ⟨q₂, hq₂, hpages₂⟩, q₃, hq₃, hpages₃⟩

/-! ## A queue in a table -/

/-- The queue holds the pages `l`, in a table of `m` frames. -/
structure Queue.Represents (q : Queue) (m : ℕ) (l : List ℤ) : Prop where
  len : q.len = m
  tail : q.tail = l.length
  holds : q.arr.Holds l
  length_le : l.length ≤ m
  lt_max : m < MAX_SIZE

theorem Queue.represents_init (arr : CArray MAX_SIZE) {m : ℕ} (hm : m < MAX_SIZE) :
    (Queue.init arr m).Represents m [] where
  len := rfl
  tail := rfl
  holds := List.take_zero
  length_le := Nat.zero_le m
  lt_max := hm

namespace Queue.Represents

variable {q : Queue} {m : ℕ} {l : List ℤ}

theorem lists (h : q.Represents m l) : q.Lists l := ⟨h.tail, h.holds⟩

theorem pages (h : q.Represents m l) : q.pages = l := h.lists.pages

theorem isFull (h : q.Represents m l) : q.isFull = decide (l.length = m) := by
  simp [Queue.isFull, h.tail, h.len]

theorem isHere (h : q.Represents m l) (num : ℤ) :
    q.isHere num = some (if num ∈ l then (l.idxOf num : ℤ) else -1) :=
  h.lists.isHere num

theorem push (h : q.Represents m l) {i : ℕ} (hi : i ≤ l.length) (hlt : l.length < m) (num : ℤ) :
    ∃ q', q.push num i = some q' ∧ q'.Represents m (l.insertIdx i num) := by
  obtain ⟨q', hpush, hq', hlen⟩ := h.lists.push hi (hlt.trans h.lt_max) num
  refine ⟨q', hpush, hlen.trans h.len, hq'.tail, hq'.holds, ?_, h.lt_max⟩
  rw [List.length_insertIdx_of_le_length hi num]
  exact hlt

theorem push_tail (h : q.Represents m l) (hlt : l.length < m) (num : ℤ) :
    ∃ q', q.push num q.tail = some q' ∧ q'.Represents m (l ++ [num]) := by
  rw [h.tail, ← List.insertIdx_length_self]
  exact h.push le_rfl hlt num

theorem pop (h : q.Represents m l) {i : ℕ} (hi : i < l.length) :
    ∃ q', q.pop i = some q' ∧ q'.Represents m (l.eraseIdx i) := by
  obtain ⟨q', hpop, hq', hlen⟩ := h.lists.pop hi (h.length_le.trans_lt h.lt_max)
  refine ⟨q', hpop, hlen.trans h.len, hq'.tail, hq'.holds, ?_, h.lt_max⟩
  rw [List.length_eraseIdx_of_lt hi]
  exact (Nat.sub_le _ _).trans h.length_le

theorem replace (h : q.Represents m l) {i : ℕ} (hi : i < l.length) :
    ∃ q₁, q.pop i = some q₁ ∧
      ∀ num, ∃ q', q₁.push num i = some q' ∧ q'.Represents m (l.set i num) := by
  obtain ⟨q₁, hpop, hpush⟩ := h.lists.replace hi (h.length_le.trans_lt h.lt_max)
  refine ⟨q₁, hpop, fun num => ?_⟩
  obtain ⟨q', hpush, hq', hlen⟩ := hpush num
  refine ⟨q', hpush, hlen.trans h.len, hq'.tail, hq'.holds, ?_, h.lt_max⟩
  rw [List.length_set]
  exact h.length_le

end Queue.Represents

/-! ## The loop over the reference string -/

section Iterate

variable {σ : Type} {body : ℤ → List ℤ → σ → Option σ} {string : List ℤ} {s : σ}

theorem iterate_succ {k : ℕ} (hk : k < string.length) :
    iterate body string s (k + 1) =
      (iterate body string s k).bind (body string[k] (string.drop (k + 1))) := by
  simp [iterate, List.range_succ, List.getElem?_eq_getElem hk]

/-- The invariant may depend on the number of references. -/
theorem iterate_invariant {I : ℕ → σ → Prop} (h0 : I 0 s)
    (hstep : ∀ k (hk : k < string.length) s, I k s →
      ∃ s', body string[k] (string.drop (k + 1)) s = some s' ∧ I (k + 1) s')
    {k : ℕ} (hk : k ≤ string.length) : ∃ s', iterate body string s k = some s' ∧ I k s' := by
  induction k with
  | zero => exact ⟨s, rfl, h0⟩
  | succ k ih =>
    obtain ⟨s₁, hs₁, hI₁⟩ := ih (Nat.le_of_succ_le hk)
    obtain ⟨s₂, hbody, hI₂⟩ := hstep k hk s₁ hI₁
    exact ⟨s₂, by rw [iterate_succ hk, hs₁, Option.bind_some, hbody], hI₂⟩

/-- A loop whose body keeps `I` never fails. Consecutive states are related by what the body
does. -/
theorem iterate_trace (string : List ℤ) {I : σ → Prop} {R : ℤ → List ℤ → σ → σ → Prop}
    (hstep : ∀ page future s, I s → ∃ s', body page future s = some s' ∧ I s' ∧ R page future s s')
    (h0 : I s) :
    ∃ trace : ℕ → σ, trace 0 = s ∧
      (∀ k ≤ string.length, iterate body string s k = some (trace k) ∧ I (trace k)) ∧
      ∀ i (hi : i < string.length), R string[i] (string.drop (i + 1)) (trace i)
        (trace (i + 1)) := by
  have htrace : ∀ k ≤ string.length,
      iterate body string s k = some ((iterate body string s k).getD s) ∧
        I ((iterate body string s k).getD s) := by
    intro k hk
    obtain ⟨s', hs', hI⟩ := iterate_invariant (I := fun _ => I) h0 (fun k _ s hI => by
      obtain ⟨s', hbody, hI', -⟩ := hstep string[k] (string.drop (k + 1)) s hI
      exact ⟨s', hbody, hI'⟩) hk
    rw [hs']
    exact ⟨rfl, hI⟩
  refine ⟨fun k => (iterate body string s k).getD s, rfl, htrace, fun i hi => ?_⟩
  obtain ⟨hrun, hI⟩ := htrace i hi.le
  obtain ⟨s', hbody, -, hR⟩ := hstep string[i] (string.drop (i + 1)) _ hI
  have hnext : iterate body string s (i + 1) = some s' := by
    rw [iterate_succ hi, hrun, Option.bind_some, hbody]
  simpa only [hnext, Option.getD_some] using hR

end Iterate

end SchoolOS.PageReplacement
