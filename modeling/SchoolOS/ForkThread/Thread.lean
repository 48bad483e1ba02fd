import Mathlib.Logic.Function.Basic
import Mathlib.Tactic.Ring
import SchoolOS.ForkThread.Input
import SchoolOS.Lib.Bytes

/-!
# The thread tree

Reference: `thread_func` and `main` of `Assignment3-2/thread.c`.

The threads are numbered by their place in `tid`, as the nodes of a heap: the threads `64` to `127`
are the leaves, and the thread `i` below `64` adds what the threads `2 * i` and `2 * i + 1` return.
A thread gets its two numbers in a block from `malloc`, which it frees.

`main` lets `pthread_join` store the returned `long` at an `int` of the block. So the store at
`num1` runs over `num2`, which the next join then stores, and the store at `num2` runs over the four
bytes behind the structure. These belong to the chunk that `malloc` returns, which is not smaller
than 24 bytes. The last join stores at the variable `sum`; nothing that `main` uses afterwards lies
in the four bytes behind it.

`System` is the state of `main` and of all threads, and `Step` one step of any of them.
-/

namespace SchoolOS.ForkThread.Thread

/-- Where a thread is in `thread_func`, with the argument and the sum. -/
inductive Pc
  | add (arg : ℕ)
  | print (arg : ℕ) (sum : ℤ)
  | free (arg : ℕ) (sum : ℤ)
  | exit (sum : ℤ)

/-- The thread at a place of `tid`. -/
inductive Tid
  | absent
  | running (pc : Pc)
  | exited (sum : ℤ)
  | joined

/-- Where `main` is, with the loop variable and `pNum`. -/
inductive MainPc
  | mallocLeaf (i : ℕ)
  | scan (i pNum : ℕ)
  | createLeaf (i pNum : ℕ)
  | mallocNode (i : ℕ)
  | joinLeft (i pNum : ℕ)
  | joinRight (i pNum : ℕ)
  | createNode (i pNum : ℕ)
  | joinLast
  | done

/-- The state of `main`, the threads, the blocks of the heap, the file, the lines in the buffer of
`f_temp_w`, and the line that `fscanf` reads next. For each call of `fscanf`, `scanned` has the
thread that gets the numbers and the line they start at, and `added` has the numbers that each
thread has added. -/
structure System where
  main : MainPc
  threads : ℕ → Tid
  heap : ℕ → Option Block
  file : List ℤ
  buffer : List ℤ
  pos : ℕ
  scanned : List (ℕ × ℕ)
  added : ℕ → List (ℤ × ℤ)
  printed : Option ℤ

/-- The state at the start of `main`. -/
def start (file : List ℤ) : System where
  main := .mallocLeaf maxProcesses
  threads := fun _ => .absent
  heap := fun _ => none
  file := file
  buffer := []
  pos := 0
  scanned := []
  added := fun _ => []
  printed := none

/-- The end of a round of the first loop. -/
def nextLeaf (i : ℕ) : MainPc :=
  if i + 1 < maxProcesses * 2 then .mallocLeaf (i + 1) else .mallocNode (maxProcesses - 1)

/-- The end of a round of the second loop. -/
def nextNode (i : ℕ) : MainPc := if 0 < i - 1 then .mallocNode (i - 1) else .joinLast

/-- The offset of `num1` in `struct nums`. -/
def num1 : ℕ := 0

/-- The offset of `num2` in `struct nums`. -/
def num2 : ℕ := 4

/-- `fscanf` stores the numbers that it converts. -/
def storeNums (b : Block) : List ℤ → Block
  | [] => b
  | [x] => b.store 4 num1 x
  | x :: y :: _ => (b.store 4 num1 x).store 4 num2 y

/-- A step of `main` or of a thread. -/
inductive Step : System → System → Prop
  /-- `pNum = malloc(sizeof(struct nums));` in the first loop. The bytes of the block are
  arbitrary. -/
  | mallocLeaf {s : System} {i a : ℕ} (b : Block) (hm : s.main = .mallocLeaf i)
      (ha : s.heap a = none) :
      Step s { s with main := .scan i a, heap := Function.update s.heap a (some b) }
  /-- `fscanf(f_temp, "%d\n%d\n", &(pNum->num1), &(pNum->num2));` -/
  | scan {s : System} {i a : ℕ} {b : Block} (hm : s.main = .scan i a) (ha : s.heap a = some b) :
      Step s { s with
        main := .createLeaf i a
        heap := Function.update s.heap a (some (storeNums b (fscanf s.file s.pos)))
        pos := s.pos + (fscanf s.file s.pos).length
        scanned := s.scanned ++ [(i, s.pos)] }
  /-- `pthread_create(tid+i, NULL, thread_func, pNum);` in the first loop. -/
  | createLeaf {s : System} {i a : ℕ} (hm : s.main = .createLeaf i a) :
      Step s
        { s with main := nextLeaf i, threads := Function.update s.threads i (.running (.add a)) }
  /-- `pNum = malloc(sizeof(struct nums));` in the second loop. -/
  | mallocNode {s : System} {i a : ℕ} (b : Block) (hm : s.main = .mallocNode i)
      (ha : s.heap a = none) :
      Step s { s with main := .joinLeft i a, heap := Function.update s.heap a (some b) }
  /-- `pthread_join(tid[i * 2], &(pNum->num1));` -/
  | joinLeft {s : System} {i a : ℕ} {b : Block} {sum : ℤ} (hm : s.main = .joinLeft i a)
      (ht : s.threads (i * 2) = .exited sum) (ha : s.heap a = some b) :
      Step s { s with
        main := .joinRight i a
        threads := Function.update s.threads (i * 2) .joined
        heap := Function.update s.heap a (some (b.store 8 num1 sum)) }
  /-- `pthread_join(tid[i * 2 + 1], &(pNum->num2));` -/
  | joinRight {s : System} {i a : ℕ} {b : Block} {sum : ℤ} (hm : s.main = .joinRight i a)
      (ht : s.threads (i * 2 + 1) = .exited sum) (ha : s.heap a = some b) :
      Step s { s with
        main := .createNode i a
        threads := Function.update s.threads (i * 2 + 1) .joined
        heap := Function.update s.heap a (some (b.store 8 num2 sum)) }
  /-- `pthread_create(tid+i, NULL, thread_func, pNum);` in the second loop. -/
  | createNode {s : System} {i a : ℕ} (hm : s.main = .createNode i a) :
      Step s
        { s with main := nextNode i, threads := Function.update s.threads i (.running (.add a)) }
  /-- `pthread_join(tid[1], &sum); fclose(f_temp_w);` and `printf` of `sum`, which lies in the block
  `b` of the stack. -/
  | joinLast {s : System} {sum : ℤ} (b : Block) (hm : s.main = .joinLast)
      (ht : s.threads 1 = .exited sum) :
      Step s { s with
        main := .done
        threads := Function.update s.threads 1 .joined
        file := s.file ++ s.buffer
        buffer := []
        printed := some ((b.store 8 0 sum).load 0) }
  /-- `long sum = arg->num1 + arg->num2;` -/
  | add {s : System} {i a : ℕ} {b : Block} (ht : s.threads i = .running (.add a))
      (ha : s.heap a = some b) :
      Step s { s with
        threads :=
          Function.update s.threads i (.running (.print a (toInt (b.load num1 + b.load num2))))
        added := Function.update s.added i (s.added i ++ [(b.load num1, b.load num2)]) }
  /-- `fprintf(f_temp_w, "%ld\n", sum);`, which may write out lines of the buffer. -/
  | print {s : System} {i a : ℕ} {sum : ℤ} {out rest : List ℤ}
      (ht : s.threads i = .running (.print a sum))
      (hbuffer : s.buffer ++ [sum] = out ++ rest) :
      Step s { s with
        threads := Function.update s.threads i (.running (.free a sum))
        file := s.file ++ out
        buffer := rest }
  /-- `free(arg);` -/
  | free {s : System} {i a : ℕ} {sum : ℤ} (ht : s.threads i = .running (.free a sum)) :
      Step s { s with
        threads := Function.update s.threads i (.running (.exit sum))
        heap := Function.update s.heap a none }
  /-- `pthread_exit((void *)sum);` -/
  | exit {s : System} {i : ℕ} {sum : ℤ} (ht : s.threads i = .running (.exit sum)) :
      Step s { s with threads := Function.update s.threads i (.exited sum) }

/-! ## The sums of the tree -/

/-- The sum of the numbers below a node, `d` levels above the leaves. -/
def nodeSum (file : List ℤ) : (d i : ℕ) → ℤ
  | 0, i => pair file (i - maxProcesses)
  | d + 1, i => nodeSum file d (i * 2) + nodeSum file d (i * 2 + 1)

/-- What a thread returns. -/
def value (file : List ℤ) (i : ℕ) : ℤ := toInt (nodeSum file (6 - i.log2) i)

/-- What a thread adds. -/
def operands (file : List ℤ) (i : ℕ) : ℤ × ℤ :=
  if maxProcesses ≤ i then
    (num file (2 * (i - maxProcesses)), num file (2 * (i - maxProcesses) + 1))
  else (value file (i * 2), value file (i * 2 + 1))

theorem nodeSum_eq (file : List ℤ) (d i : ℕ) :
    nodeSum file d i = ∑ k ∈ Finset.range (2 ^ d), pair file (i * 2 ^ d + k - maxProcesses) := by
  induction d generalizing i with
  | zero => simp [nodeSum]
  | succ d ih =>
    have hpow : 2 ^ (d + 1) = 2 ^ d + 2 ^ d := by ring
    have hleft : i * 2 * 2 ^ d = i * (2 ^ d + 2 ^ d) := by ring
    have hright : ∀ k, (i * 2 + 1) * 2 ^ d + k = i * (2 ^ d + 2 ^ d) + (2 ^ d + k) := by
      intro k
      ring
    rw [nodeSum, ih, ih, hleft, hpow, Finset.sum_range_add]
    simp only [hright]

theorem value_one (file : List ℤ) : value file 1 = toInt (total file) := by
  have hsum : nodeSum file 6 1 = total file := by
    rw [nodeSum_eq, total_eq_sum_pair]
    simp only [Nat.one_mul, maxProcesses, Nat.reducePow, Nat.add_sub_cancel_left]
  exact congrArg toInt hsum

/-- The children of a node are one level closer to the leaves. -/
theorem log2_children : ∀ i < maxProcesses, 0 < i →
    6 - i.log2 = 6 - (i * 2).log2 + 1 ∧ (i * 2 + 1).log2 = (i * 2).log2 := by
  decide

theorem log2_leaf : ∀ k < maxProcesses, 6 - (maxProcesses + k).log2 = 0 := by decide

theorem value_eq (file : List ℤ) {i : ℕ} (hpos : 0 < i) (hi : i < maxProcesses * 2) :
    value file i = toInt ((operands file i).1 + (operands file i).2) := by
  unfold operands
  split
  · -- A leaf: the two numbers of its pair.
    have hlevel : 6 - i.log2 = 0 := by
      have h := log2_leaf (i - maxProcesses) (by omega)
      rwa [Nat.add_sub_cancel' (by omega)] at h
    rw [value, hlevel, nodeSum, pair, num, num, toInt_toInt_add, add_comm (List.getD _ _ _),
      ← toInt_toInt_add, add_comm]
  · obtain ⟨hlevel, heq⟩ := log2_children i (by omega) hpos
    rw [value, value, value, heq, hlevel, nodeSum, toInt_toInt_add, add_comm (nodeSum _ _ _),
      ← toInt_toInt_add, add_comm]

end SchoolOS.ForkThread.Thread
