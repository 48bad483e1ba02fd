import SchoolOS.Lib.CArray
import SchoolOS.Lib.Loop

/-!
# The page replacement simulator

Reference: `Assignment4-2/page_replacement_simulator.c`, the queue of pages and `OPT`, `FIFO`, `LRU`
and `CLOCK`.

The reference string is a list. A simulator is the step function of its loop over the string; `none`
stands for an access outside an array or the use of a local that has not been set. The cells of the
queue arrays are not initialised, so the functions take their contents as an argument.
-/

namespace SchoolOS.PageReplacement

/-- `#define MAX_SIZE 1000` -/
def MAX_SIZE : ℕ := 1000

/-- `queue`. -/
structure Queue where
  arr : CArray MAX_SIZE
  tail : ℤ
  len : ℤ

namespace Queue

/-- `init`. -/
def init (arr : CArray MAX_SIZE) (size : ℤ) : Queue := ⟨arr, 0, size⟩

/-- `push`. -/
def push (q : Queue) (num idx : ℤ) : Option Queue := do
  let arr ← q.arr.shiftRight q.tail (q.tail - idx).toNat
  let arr ← arr.set? idx num
  some { q with arr := arr, tail := q.tail + 1 }

/-- `pop`. -/
def pop (q : Queue) (idx : ℤ) : Option Queue := do
  let arr ← q.arr.shiftLeft idx (q.tail - idx).toNat
  some { q with arr := arr, tail := q.tail - 1 }

/-- `isFull`. -/
def isFull (q : Queue) : Bool := q.tail = q.len

/-- `isHere`. -/
def isHere (q : Queue) (num : ℤ) : Option ℤ := do
  let i ← q.arr.find num 0 q.tail.toNat
  some (if i < q.tail then i else -1)

/-- The pages `arr[0]`, …, `arr[tail-1]`. -/
def pages (q : Queue) : List ℤ := q.arr.cells.take q.tail.toNat

end Queue

/-- The first `k` iterations of a loop `for (int i = 0; i < len; i++)` over the reference string.
The body is given `string[i]` and the references that follow. -/
def iterate {σ : Type} (body : ℤ → List ℤ → σ → Option σ) (string : List ℤ) (s : σ) (k : ℕ) :
    Option σ :=
  (List.range k).foldlM
    (fun s i => do
      let page ← string[i]?
      body page (string.drop (i + 1)) s) s

/-! ## `FIFO` -/

/-- The locals of `FIFO` and `LRU`. -/
structure Frames where
  q : Queue
  pageFault : ℕ

/-- One iteration of `FIFO`. -/
def fifoStep (page : ℤ) (_future : List ℤ) (s : Frames) : Option Frames := do
  let idx ← s.q.isHere page
  if idx = -1 then
    let q ← if s.q.isFull then s.q.pop 0 else some s.q
    let q ← q.push page q.tail
    some ⟨q, s.pageFault + 1⟩
  else some s

/-- `FIFO`, up to reference `k`. -/
def fifo (arr : CArray MAX_SIZE) (max : ℤ) (string : List ℤ) (k : ℕ) : Option Frames :=
  iterate fifoStep string ⟨.init arr max, 0⟩ k

/-! ## `LRU` -/

/-- One iteration of `LRU`. -/
def lruStep (page : ℤ) (_future : List ℤ) (s : Frames) : Option Frames := do
  let idx ← s.q.isHere page
  if idx = -1 then
    let q ← if s.q.isFull then s.q.pop 0 else some s.q
    let q ← q.push page q.tail
    some ⟨q, s.pageFault + 1⟩
  else
    let q ← s.q.pop idx
    let q ← q.push page q.tail
    some ⟨q, s.pageFault⟩

/-- `LRU`, up to reference `k`. -/
def lru (arr : CArray MAX_SIZE) (max : ℤ) (string : List ℤ) (k : ℕ) : Option Frames :=
  iterate lruStep string ⟨.init arr max, 0⟩ k

/-! ## `OPT` -/

/-- The locals of `OPT`. `deleteIdx` is `none` while `delete_idx` has not been set. -/
structure Opt extends Frames where
  deleteIdx : Option ℤ

/-- One iteration of the loop that checks the future references. -/
def visitStep {n : ℕ} (q : Queue) (s : CArray n × Option ℤ) (page : ℤ) :
    Option (CArray n × Option ℤ) := do
  let idx ← q.isHere page
  if idx = -1 then some s
  else
    let mark ← s.1.get? idx
    if mark = 0 then
      let visit ← s.1.set? idx 1
      some (visit, some idx)
    else some s

/-- Evict a page that is never used again, or else the page whose next use comes last. -/
def Opt.evict (future : List ℤ) (s : Opt) : Option Opt := do
  let (visit, deleteIdx) ←
    future.foldlM (visitStep s.q) (CArray.zero s.q.len.toNat, s.deleteIdx)
  let idx ← visit.find 0 0 s.q.len.toNat
  -- `idx == q.len` if every page will be used again
  let victim ← if idx = s.q.len then deleteIdx else some idx
  let q ← s.q.pop victim
  some { s with q := q, deleteIdx := deleteIdx }

/-- One iteration of `OPT`. -/
def optStep (page : ℤ) (future : List ℤ) (s : Opt) : Option Opt := do
  let idx ← s.q.isHere page
  if idx = -1 then
    let s ← if s.q.isFull then s.evict future else some s
    let q ← s.q.push page s.q.tail
    some { s with q := q, pageFault := s.pageFault + 1 }
  else some s

/-- `OPT`, up to reference `k`. -/
def opt (arr : CArray MAX_SIZE) (max : ℤ) (string : List ℤ) (k : ℕ) : Option Opt :=
  iterate optStep string ⟨⟨.init arr max, 0⟩, none⟩ k

/-! ## `CLOCK` -/

/-- The locals of `CLOCK`. -/
structure Clock extends Frames where
  bitQueue : Queue
  evict : ℤ

/-- `for (; count > 0; idx++, count--) if (bit[idx] == 0) break; else bit[idx] = 0;` -/
def sweep (bit : CArray MAX_SIZE) : ℤ → ℕ → Option (ℤ × CArray MAX_SIZE)
  | idx, 0 => some (idx, bit)
  | idx, count + 1 => do
    let b ← bit.get? idx
    if b = 0 then some (idx, bit)
    else
      let bit ← bit.set? idx 0
      sweep bit (idx + 1) count

/-- Evict the first page from the hand on, in circular order, whose use bit is `0`, and clear the
bits on the way. A page is evicted where the sweep stops: also at `evict`, after a whole turn. The
result has the index where the sweep stops. -/
def Clock.evictPage (s : Clock) : Option (ℤ × Clock) := do
  let (idx, bit) ← sweep s.bitQueue.arr s.evict (s.q.len - s.evict).toNat
  -- neither loop is entered when the hand stands behind the table, and then no page is evicted
  if s.q.len < idx then some (idx, { s with bitQueue := { s.bitQueue with arr := bit } })
  else
    let (idx, bit) ← if idx = s.q.len then sweep bit 0 s.evict.toNat else some (idx, bit)
    let q ← s.q.pop idx
    let bitQueue ← Queue.pop { s.bitQueue with arr := bit } idx
    some (idx, { s with q := q, bitQueue := bitQueue })

/-- One iteration of `CLOCK`. -/
def clockStep (page : ℤ) (_future : List ℤ) (s : Clock) : Option Clock := do
  let idx ← s.q.isHere page
  if idx = -1 then
    let (idx, s) ← if s.q.isFull then s.evictPage else some (idx, s)
    let q ← s.q.push page (if idx = -1 then s.q.tail else idx)
    let bitQueue ← s.bitQueue.push 0 (if idx = -1 then s.bitQueue.tail else idx)
    some ⟨⟨q, s.pageFault + 1⟩, bitQueue, if idx = q.tail - 1 then 0 else idx + 1⟩
  else
    let bit ← s.bitQueue.arr.set? idx 1
    some { s with bitQueue := { s.bitQueue with arr := bit } }

/-- `CLOCK`, up to reference `k`. -/
def clock (arr bit : CArray MAX_SIZE) (max : ℤ) (string : List ℤ) (k : ℕ) : Option Clock :=
  iterate clockStep string ⟨⟨.init arr max, 0⟩, .init bit max, 0⟩ k

end SchoolOS.PageReplacement
