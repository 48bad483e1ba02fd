import SchoolOS.ForkThread.Thread
import SchoolOS.Lib.Ownership

/-!
# The invariant of the thread tree

The invariant says, for each thread, how its state follows from where `main` is, and what its block
holds. A block is owned by `main` until the thread is created, and by the thread until it is freed,
so no step changes the block of another thread.
-/

namespace SchoolOS.ForkThread.Thread

/-! ## What `main` and the threads hold -/

/-- The block of `main`. -/
def MainPc.pNum : MainPc → Option ℕ
  | .scan _ a => some a
  | .createLeaf _ a => some a
  | .joinLeft _ a => some a
  | .joinRight _ a => some a
  | .createNode _ a => some a
  | _ => none

/-- The block of a thread. -/
def Tid.arg : Tid → Option ℕ
  | .running (.add a) => some a
  | .running (.print a _) => some a
  | .running (.free a _) => some a
  | _ => none

/-- The block of each owner, where `none` is `main`. -/
def held (m : MainPc) (threads : ℕ → Tid) : Option ℕ → Option ℕ
  | none => m.pNum
  | some i => (threads i).arg

/-- The threads that `main` has created. -/
def MainPc.Created : MainPc → ℕ → Prop
  | .mallocLeaf i, j | .scan i _, j | .createLeaf i _, j => maxProcesses ≤ j ∧ j < i
  | .mallocNode i, j | .joinLeft i _, j | .joinRight i _, j | .createNode i _, j =>
    i < j ∧ j < maxProcesses * 2
  | .joinLast, j | .done, j => 0 < j ∧ j < maxProcesses * 2

/-- The threads that `main` has joined. -/
def MainPc.Joined : MainPc → ℕ → Prop
  | .mallocLeaf _, _ | .scan _ _, _ | .createLeaf _ _, _ => False
  | .mallocNode i, j | .joinLeft i _, j => i * 2 + 2 ≤ j ∧ j < maxProcesses * 2
  | .joinRight i _, j => j = i * 2 ∨ i * 2 + 2 ≤ j ∧ j < maxProcesses * 2
  | .createNode i _, j => i * 2 ≤ j ∧ j < maxProcesses * 2
  | .joinLast, j => 2 ≤ j ∧ j < maxProcesses * 2
  | .done, j => 1 ≤ j ∧ j < maxProcesses * 2

/-- A block with the two numbers of a thread. -/
def Loads (heap : ℕ → Option Block) (a : ℕ) (nums : ℤ × ℤ) : Prop :=
  ∃ b, heap a = some b ∧ b.load num1 = nums.1 ∧ b.load num2 = nums.2

/-- The state of the thread `i` when `main` is at `m`, with the numbers that the thread has
added. -/
def TidOk (file : List ℤ) (m : MainPc) (heap : ℕ → Option Block) (i : ℕ) : Tid → List (ℤ × ℤ) → Prop
  | .absent, nums => ¬ m.Created i ∧ nums = []
  | .running (.add a), nums =>
    m.Created i ∧ ¬ m.Joined i ∧ Loads heap a (operands file i) ∧ nums = []
  | .running (.print _ sum), nums | .running (.free _ sum), nums | .running (.exit sum), nums
  | .exited sum, nums => m.Created i ∧ ¬ m.Joined i ∧ sum = value file i ∧ nums = [operands file i]
  | .joined, nums => m.Joined i ∧ nums = [operands file i]

/-- The calls of `fscanf` for the first `n` leaves. -/
def scans (n : ℕ) : List (ℕ × ℕ) := (List.range n).map fun k => (maxProcesses + k, 2 * k)

/-- The state of `main`. -/
def MainOk (file : List ℤ) (s : System) : Prop :=
  match s.main with
  | .mallocLeaf i | .scan i _ =>
    ∃ k < maxProcesses, i = maxProcesses + k ∧ s.pos = 2 * k ∧ s.scanned = scans k
  | .createLeaf i a =>
    ∃ k < maxProcesses, i = maxProcesses + k ∧ s.pos = 2 * (k + 1) ∧ s.scanned = scans (k + 1) ∧
      Loads s.heap a (operands file i)
  | .mallocNode i | .joinLeft i _ => 0 < i ∧ i < maxProcesses ∧ s.scanned = scans maxProcesses
  | .joinRight i a => 0 < i ∧ i < maxProcesses ∧ s.scanned = scans maxProcesses ∧
      ∃ b, s.heap a = some b ∧ b.load num1 = (operands file i).1
  | .createNode i a => 0 < i ∧ i < maxProcesses ∧ s.scanned = scans maxProcesses ∧
      Loads s.heap a (operands file i)
  | .joinLast => s.scanned = scans maxProcesses
  | .done => s.scanned = scans maxProcesses ∧ s.printed = some (value file 1)

/-- What holds of `main` and the threads in every run on the file. -/
structure Inv (file : List ℤ) (s : System) : Prop where
  threads : ∀ i, TidOk file s.main s.heap i (s.threads i) (s.added i)
  owned : Owned (held s.main s.threads) s.heap
  main : MainOk file s
  lines : ∃ lines, s.file = file ++ lines
  bounded : ∃ n, ∀ a, n ≤ a → s.heap a = none

theorem inv_start (file : List ℤ) : Inv file (start file) where
  threads := by
    intro i
    refine ⟨?_, rfl⟩
    rintro ⟨hle, hlt⟩
    exact absurd hle (not_le.mpr hlt)
  owned := by
    have hnone : ∀ o, held (start file).main (start file).threads o = none := by
      intro o
      cases o with
      | none => rfl
      | some i => rfl
    constructor
    · intro o a ho
      rw [hnone] at ho
      cases ho
    · intro o o' a ho
      rw [hnone] at ho
      cases ho
  main := ⟨0, by decide, rfl, rfl, rfl⟩
  lines := ⟨[], (List.append_nil file).symm⟩
  bounded := ⟨0, fun _ _ => rfl⟩

/-! ## What a step leaves as it was -/

section Frame

variable {file : List ℤ} {s t : System} {m m' : MainPc} {threads : ℕ → Tid}
  {heap heap' : ℕ → Option Block}

theorem Loads.congr {a : ℕ} {nums : ℤ × ℤ} (h : Loads heap a nums) (hheap : heap' a = heap a) :
    Loads heap' a nums := by
  rw [Loads, hheap]
  exact h

/-- A thread does not notice a change of the blocks of others. -/
theorem TidOk.congr {i : ℕ} {tid : Tid} {nums : List (ℤ × ℤ)} (h : TidOk file m heap i tid nums)
    (hcreated : m'.Created i ↔ m.Created i) (hjoined : m'.Joined i ↔ m.Joined i)
    (hheap : ∀ a, tid.arg = some a → heap' a = heap a) : TidOk file m' heap' i tid nums := by
  cases tid with
  | absent => exact ⟨fun hc => h.1 (hcreated.mp hc), h.2⟩
  | running pc =>
    cases pc with
    | add a =>
      obtain ⟨hc, hj, hloads, hnums⟩ := h
      exact ⟨hcreated.mpr hc, fun hj' => hj (hjoined.mp hj'), hloads.congr (hheap a rfl), hnums⟩
    | print a sum => exact ⟨hcreated.mpr h.1, fun hj => h.2.1 (hjoined.mp hj), h.2.2⟩
    | free a sum => exact ⟨hcreated.mpr h.1, fun hj => h.2.1 (hjoined.mp hj), h.2.2⟩
    | exit sum => exact ⟨hcreated.mpr h.1, fun hj => h.2.1 (hjoined.mp hj), h.2.2⟩
  | exited sum => exact ⟨hcreated.mpr h.1, fun hj => h.2.1 (hjoined.mp hj), h.2.2⟩
  | joined => exact ⟨hjoined.mpr h.1, h.2⟩

/-- `main` does not notice a step of a thread. -/
theorem MainOk.congr (h : MainOk file s) (hmain : t.main = s.main) (hpos : t.pos = s.pos)
    (hscanned : t.scanned = s.scanned) (hprinted : t.printed = s.printed)
    (hheap : ∀ a, s.main.pNum = some a → t.heap a = s.heap a) : MainOk file t := by
  unfold MainOk at *
  rw [hmain, hpos, hscanned, hprinted]
  -- `main` reads its block at three places, and otherwise only its own variables
  cases hm : s.main with
  | createLeaf i a =>
    rw [hm] at h hheap
    obtain ⟨k, hk, hi, hkpos, hscans, hloads⟩ := h
    exact ⟨k, hk, hi, hkpos, hscans, hloads.congr (hheap a rfl)⟩
  | joinRight i a =>
    rw [hm] at h hheap
    obtain ⟨hpos, hlt, hscans, b, hb, hload⟩ := h
    exact ⟨hpos, hlt, hscans, b, (hheap a rfl).trans hb, hload⟩
  | createNode i a =>
    rw [hm] at h hheap
    obtain ⟨hpos, hlt, hscans, hloads⟩ := h
    exact ⟨hpos, hlt, hscans, hloads.congr (hheap a rfl)⟩
  | _ =>
    rw [hm] at h
    exact h

theorem held_update (m : MainPc) (threads : ℕ → Tid) (i : ℕ) (tid : Tid) :
    held m (Function.update threads i tid) = Function.update (held m threads) (some i) tid.arg := by
  funext o
  cases o with
  | none => rfl
  | some j =>
    by_cases hj : j = i
    · subst hj
      simp only [held, Function.update_self]
    · have hne : some j ≠ some i := fun h => hj (Option.some.inj h)
      simp only [held, Function.update_of_ne hj, Function.update_of_ne hne]

theorem held_main (m m' : MainPc) (threads : ℕ → Tid) :
    held m' threads = Function.update (held m threads) none m'.pNum := by
  funext o
  cases o with
  | none => rfl
  | some j => rfl

/-- A step of a thread that keeps its block keeps the owners. -/
theorem held_update_of_arg {i : ℕ} {tid : Tid} (h : tid.arg = (threads i).arg) :
    held m (Function.update threads i tid) = held m threads := by
  rw [held_update, h]
  exact Function.update_eq_self (some i) (held m threads)

theorem bounded_update (h : ∃ n, ∀ a, n ≤ a → heap a = none) (a : ℕ) (b : Option Block) :
    ∃ n, ∀ a', n ≤ a' → Function.update heap a b a' = none := by
  -- also if `a` is beyond the old bound
  obtain ⟨n, hn⟩ := h
  refine ⟨max n (a + 1), ?_⟩
  intro a' ha'
  have hne : a' ≠ a := by omega
  rw [Function.update_of_ne hne]
  exact hn a' (by omega)

/-- A step that changes the thread `i` only. -/
theorem Inv.of_local (h : Inv file s) (i : ℕ) (hthreads : ∀ j, j ≠ i → t.threads j = s.threads j)
    (hadded : ∀ j, j ≠ i → t.added j = s.added j)
    (hcreated : ∀ j, j ≠ i → (t.main.Created j ↔ s.main.Created j))
    (hjoined : ∀ j, j ≠ i → (t.main.Joined j ↔ s.main.Joined j))
    (hheap : ∀ j, j ≠ i → ∀ a, (s.threads j).arg = some a → t.heap a = s.heap a)
    (htid : TidOk file t.main t.heap i (t.threads i) (t.added i))
    (howned : Owned (held t.main t.threads) t.heap) (hmain : MainOk file t)
    (hlines : ∃ lines, t.file = s.file ++ lines) (hbounded : ∃ n, ∀ a, n ≤ a → t.heap a = none) :
    Inv file t where
  threads := by
    intro j
    by_cases hj : j = i
    · rw [hj]
      exact htid
    · rw [hthreads j hj, hadded j hj]
      exact (h.threads j).congr (hcreated j hj) (hjoined j hj) (hheap j hj)
  owned := howned
  main := hmain
  lines := by
    obtain ⟨lines, hl⟩ := h.lines
    obtain ⟨lines', hl'⟩ := hlines
    exact ⟨lines ++ lines', by rw [hl', hl, List.append_assoc]⟩
  bounded := hbounded

end Frame

/-! ## The steps of a thread -/

section Threads

variable {file : List ℤ} {s : System} {i a : ℕ} {sum : ℤ}

theorem Inv.of_thread (h : Inv file s) {tid : Tid} {heap' : ℕ → Option Block}
    {file' buffer' : List ℤ}
    {added' : ℕ → List (ℤ × ℤ)} (hadded : ∀ j, j ≠ i → added' j = s.added j)
    (hheap : ∀ a, (s.threads i).arg ≠ some a → heap' a = s.heap a)
    (htid : TidOk file s.main heap' i tid (added' i))
    (howned : Owned (held s.main (Function.update s.threads i tid)) heap')
    (hlines : ∃ lines, file' = s.file ++ lines) (hbounded : ∃ n, ∀ a, n ≤ a → heap' a = none) :
    Inv file { s with
      threads := Function.update s.threads i tid
      heap := heap'
      file := file'
      buffer := buffer'
      added := added' } := by
  refine h.of_local i (fun j hj => Function.update_of_ne hj _ _) hadded (fun _ _ => Iff.rfl)
    (fun _ _ => Iff.rfl) ?_ ?_ howned ?_ hlines hbounded
  · -- the block of another thread is not the block of `i`, and neither is that of `main`
    intro j hj a ha
    refine hheap a fun hia => hj ?_
    exact Option.some.inj (h.owned.apart (some j) (some i) a ha hia)
  · simp only [Function.update_self]
    exact htid
  · refine h.main.congr rfl rfl rfl rfl ?_
    intro a ha
    refine hheap a fun hia => ?_
    cases h.owned.apart none (some i) a ha hia

theorem Inv.tid (h : Inv file s) {tid : Tid} (ht : s.threads i = tid) :
    TidOk file s.main s.heap i tid (s.added i) := ht ▸ h.threads i

/-- The threads that are created are the nodes of the tree. -/
theorem Inv.bounds (h : Inv file s) (hc : s.main.Created i) : 0 < i ∧ i < maxProcesses * 2 := by
  have hmain := h.main
  unfold MainOk at hmain
  unfold MainPc.Created at hc
  have hmax : 0 < maxProcesses := by decide
  -- while leaves are created, the bound is the one of the loop variable
  cases hm : s.main with
  | mallocLeaf j =>
    rw [hm] at hmain hc
    obtain ⟨k, hk, hj, _⟩ := hmain
    omega
  | scan j a =>
    rw [hm] at hmain hc
    obtain ⟨k, hk, hj, _⟩ := hmain
    omega
  | createLeaf j a =>
    rw [hm] at hmain hc
    obtain ⟨k, hk, hj, _⟩ := hmain
    omega
  | _ =>
    rw [hm] at hc
    omega

theorem Inv.add (h : Inv file s) {b : Block} (ht : s.threads i = .running (.add a))
    (ha : s.heap a = some b) :
    Inv file { s with
      threads :=
        Function.update s.threads i (.running (.print a (toInt (b.load num1 + b.load num2))))
      added := Function.update s.added i (s.added i ++ [(b.load num1, b.load num2)]) } := by
  obtain ⟨hc, hj, ⟨b', hb', hload1, hload2⟩, hnums⟩ := h.tid ht
  -- the block still holds what `main` has put into it
  rw [ha] at hb'
  cases hb'
  obtain ⟨hpos, hlt⟩ := h.bounds hc
  refine h.of_thread (fun j hj => Function.update_of_ne hj _ _) (fun _ _ => rfl) ?_ ?_
    ⟨[], (List.append_nil _).symm⟩ h.bounded
  · refine ⟨hc, hj, ?_, ?_⟩
    · rw [hload1, hload2, value_eq file hpos hlt]
    · rw [Function.update_self, hnums, hload1, hload2]
      rfl
  · rw [held_update_of_arg (by rw [ht]; rfl)]
    exact h.owned

theorem Inv.print (h : Inv file s) (ht : s.threads i = .running (.print a sum))
    (out rest : List ℤ) :
    Inv file { s with
      threads := Function.update s.threads i (.running (.free a sum))
      file := s.file ++ out
      buffer := rest } := by
  have hok := h.tid ht
  refine h.of_thread (fun _ _ => rfl) (fun _ _ => rfl) hok ?_ ⟨out, rfl⟩ h.bounded
  rw [held_update_of_arg (by rw [ht]; rfl)]
  exact h.owned

theorem Inv.free (h : Inv file s) (ht : s.threads i = .running (.free a sum)) :
    Inv file { s with
      threads := Function.update s.threads i (.running (.exit sum))
      heap := Function.update s.heap a none } := by
  have harg : (s.threads i).arg = some a := by
    rw [ht]
    rfl
  have hok := h.tid ht
  refine h.of_thread (fun _ _ => rfl) ?_ hok ?_ ⟨[], (List.append_nil _).symm⟩
    (bounded_update h.bounded a none)
  · intro a' ha'
    have hne : a' ≠ a := by
      rintro rfl
      exact ha' harg
    exact Function.update_of_ne hne _ _
  · -- nobody owns the block any more
    rw [held_update]
    exact h.owned.free harg

theorem Inv.exit (h : Inv file s) (ht : s.threads i = .running (.exit sum)) :
    Inv file { s with threads := Function.update s.threads i (.exited sum) } := by
  have hok := h.tid ht
  refine h.of_thread (fun _ _ => rfl) (fun _ _ => rfl) hok ?_ ⟨[], (List.append_nil _).symm⟩
    h.bounded
  rw [held_update_of_arg (by rw [ht]; rfl)]
  exact h.owned

end Threads

/-! ## The steps of `main` -/

section Main

variable {file : List ℤ} {s t : System} {m : MainPc} {i a : ℕ} {sum : ℤ}

/-- A step that changes no thread. -/
theorem Inv.of_main (h : Inv file s) (hthreads : t.threads = s.threads) (hadded : t.added = s.added)
    (hcreated : ∀ j, t.main.Created j ↔ s.main.Created j)
    (hjoined : ∀ j, t.main.Joined j ↔ s.main.Joined j)
    (hheap : ∀ j a, (s.threads j).arg = some a → t.heap a = s.heap a)
    (howned : Owned (held t.main t.threads) t.heap) (hmain : MainOk file t)
    (hfile : t.file = s.file) (hbounded : ∃ n, ∀ a, n ≤ a → t.heap a = none) : Inv file t := by
  refine h.of_local 0 (fun j _ => by rw [hthreads]) (fun j _ => by rw [hadded])
    (fun j _ => hcreated j)
    (fun j _ => hjoined j) (fun j _ => hheap j) ?_ howned hmain ⟨[], ?_⟩ hbounded
  · rw [hthreads, hadded]
    exact (h.threads 0).congr (hcreated 0) (hjoined 0) (hheap 0)
  · rw [hfile, List.append_nil]

/-- A thread does not hold the block of `main`. -/
theorem Inv.arg_ne (h : Inv file s) (hm : s.main.pNum = some a) (j a' : ℕ)
    (ha' : (s.threads j).arg = some a') : a' ≠ a := by
  rintro rfl
  cases h.owned.apart none (some j) a' hm ha'

theorem Inv.malloc (h : Inv file s) (b : Block) (ha : s.heap a = none) (hm : m.pNum = some a)
    (hcreated : ∀ j, m.Created j ↔ s.main.Created j) (hjoined : ∀ j, m.Joined j ↔ s.main.Joined j)
    (hmain : MainOk file { s with main := m, heap := Function.update s.heap a (some b) }) :
    Inv file { s with main := m, heap := Function.update s.heap a (some b) } := by
  refine h.of_main rfl rfl hcreated hjoined ?_ ?_ hmain rfl (bounded_update h.bounded a _)
  · -- `malloc` returns a block that no thread owns
    intro j a' ha'
    have hne : a' ≠ a := by
      rintro rfl
      exact h.owned.ne_some ha (some j) ha'
    exact Function.update_of_ne hne _ _
  · rw [held_main s.main m, hm]
    exact h.owned.alloc none ha b

theorem Inv.mallocLeaf (h : Inv file s) (b : Block) (hm : s.main = .mallocLeaf i)
    (ha : s.heap a = none) :
    Inv file { s with main := .scan i a, heap := Function.update s.heap a (some b) } := by
  have hmain := h.main
  rw [MainOk, hm] at hmain
  refine h.malloc b ha rfl ?_ ?_ hmain
  · exact fun j => by rw [hm]; exact Iff.rfl
  · exact fun j => by rw [hm]; exact Iff.rfl

theorem Inv.mallocNode (h : Inv file s) (b : Block) (hm : s.main = .mallocNode i)
    (ha : s.heap a = none) :
    Inv file { s with main := .joinLeft i a, heap := Function.update s.heap a (some b) } := by
  have hmain := h.main
  rw [MainOk, hm] at hmain
  refine h.malloc b ha rfl ?_ ?_ hmain
  · exact fun j => by rw [hm]; exact Iff.rfl
  · exact fun j => by rw [hm]; exact Iff.rfl

/-- The numbers of a leaf, once `fscanf` has stored them. -/
theorem loads_storeNums {heap : ℕ → Option Block} {x y : ℤ} (b : Block) (hx : toInt x = x)
    (hy : toInt y = y) :
    Loads (Function.update heap a (some (storeNums b [x, y]))) a (x, y) := by
  refine ⟨storeNums b [x, y], Function.update_self _ _ _, ?_, ?_⟩
  · rw [storeNums, Block.load_store_other _ _ (by decide), Block.load_store_same _ _ (by decide),
      hx]
  · rw [storeNums, Block.load_store_same _ _ (by decide), hy]

theorem scans_succ (k : ℕ) : scans (k + 1) = scans k ++ [(maxProcesses + k, 2 * k)] := by
  rw [scans, List.range_succ, List.map_append]
  rfl

theorem operands_leaf (file : List ℤ) (k : ℕ) :
    operands file (maxProcesses + k) = (num file (2 * k), num file (2 * k + 1)) := by
  rw [operands, if_pos (Nat.le_add_right _ _), Nat.add_sub_cancel_left]

theorem operands_node (file : List ℤ) (hi : i < maxProcesses) :
    operands file i = (value file (i * 2), value file (i * 2 + 1)) := by
  rw [operands, if_neg (by omega)]

theorem Inv.scan (h : Inv file s) (hlen : maxProcesses * 2 ≤ file.length) {b : Block}
    (hm : s.main = .scan i a) :
    Inv file { s with
      main := .createLeaf i a
      heap := Function.update s.heap a (some (storeNums b (fscanf s.file s.pos)))
      pos := s.pos + (fscanf s.file s.pos).length
      scanned := s.scanned ++ [(i, s.pos)] } := by
  have hmain := h.main
  rw [MainOk, hm] at hmain
  obtain ⟨k, hk, hi, hpos, hscans⟩ := hmain
  obtain ⟨lines, hlines⟩ := h.lines
  -- The lines that the threads append are behind the pair.
  have hnums : fscanf s.file s.pos = [num file (2 * k), num file (2 * k + 1)] := by
    have hlen' : 2 * k + 1 < (file ++ lines).length := by
      rw [List.length_append]
      omega
    rw [hlines, hpos, fscanf_eq hlen', num_append (by omega), num_append (by omega)]
  have hpNum : s.main.pNum = some a := hm ▸ rfl
  rw [hnums]
  refine h.of_main rfl rfl ?_ ?_ ?_ ?_ ?_ rfl (bounded_update h.bounded a _)
  · exact fun j => by rw [hm]; exact Iff.rfl
  · exact fun j => by rw [hm]; exact Iff.rfl
  · exact fun j a' ha' => Function.update_of_ne (h.arg_ne hpNum j a' ha') _ _
  · -- `main` writes to its own block, so the owners stay
    rw [held_main s.main, MainPc.pNum, ← hpNum]
    have howned := h.owned.write a (storeNums b [num file (2 * k), num file (2 * k + 1)])
    rwa [← Function.update_eq_self none (held s.main s.threads)] at howned
  · refine ⟨k, hk, hi, ?_, ?_, ?_⟩
    · rw [hpos]
      rfl
    · rw [hscans, hi, hpos, scans_succ]
    · rw [hi, operands_leaf]
      exact loads_storeNums b (toInt_eq_self (intRange_toInt _)) (toInt_eq_self (intRange_toInt _))

theorem Inv.absent (h : Inv file s) (hc : ¬ s.main.Created i) (hj : ¬ s.main.Joined i) :
    s.threads i = .absent := by
  -- every other state of a thread belongs to one that is created or joined
  have hok := h.threads i
  cases ht : s.threads i with
  | absent => rfl
  | joined =>
    rw [ht] at hok
    exact absurd hok.1 hj
  | exited sum =>
    rw [ht] at hok
    exact absurd hok.1 hc
  | running pc =>
    rw [ht] at hok
    cases pc with
    | _ => exact absurd hok.1 hc

theorem Inv.create (h : Inv file s) (hpNum : s.main.pNum = some a) (hm : m.pNum = none)
    (hloads : Loads s.heap a (operands file i)) (hfresh : ¬ s.main.Created i ∧ ¬ s.main.Joined i)
    (hcreated : ∀ j, m.Created j ↔ j = i ∨ s.main.Created j)
    (hjoined : ∀ j, m.Joined j ↔ s.main.Joined j)
    (hmain : MainOk file
      { s with main := m, threads := Function.update s.threads i (.running (.add a)) }) :
    Inv file { s with main := m, threads := Function.update s.threads i (.running (.add a)) } := by
  have hok := h.tid (h.absent hfresh.1 hfresh.2)
  refine h.of_local i (fun j hj => Function.update_of_ne hj _ _) (fun _ _ => rfl) ?_
    (fun j _ => hjoined j)
    (fun _ _ _ _ => rfl) ?_ ?_ hmain ⟨[], (List.append_nil _).symm⟩ h.bounded
  · intro j hj
    rw [hcreated, or_iff_right hj]
  · simp only [Function.update_self]
    exact ⟨(hcreated i).mpr (.inl rfl), fun hj => hfresh.2 ((hjoined i).mp hj), hloads, hok.2⟩
  · -- the block passes from `main` to the new thread
    rw [held_update, held_main s.main m, hm]
    exact h.owned.move (some i) hpNum

theorem Inv.join (h : Inv file s) (ht : s.threads i = .exited sum) {heap' : ℕ → Option Block}
    {file' buffer' : List ℤ} {printed' : Option ℤ} (hm : m.pNum = s.main.pNum)
    (hcreated : ∀ j, m.Created j ↔ s.main.Created j)
    (hjoined : ∀ j, m.Joined j ↔ j = i ∨ s.main.Joined j)
    (hheap : ∀ j a, (s.threads j).arg = some a → heap' a = s.heap a)
    (howned : Owned (held s.main s.threads) heap') (hlines : ∃ lines, file' = s.file ++ lines)
    (hbounded : ∃ n, ∀ a, n ≤ a → heap' a = none)
    (hmain : MainOk file { s with
      main := m, threads := Function.update s.threads i .joined, heap := heap', file := file'
      buffer := buffer', printed := printed' }) :
    Inv file { s with
      main := m, threads := Function.update s.threads i .joined, heap := heap', file := file'
      buffer := buffer', printed := printed' } := by
  have hok := h.tid ht
  refine h.of_local i (fun j hj => Function.update_of_ne hj _ _) (fun _ _ => rfl)
    (fun j _ => hcreated j) ?_
    (fun j _ => hheap j) ?_ ?_ hmain hlines hbounded
  · intro j hj
    rw [hjoined, or_iff_right hj]
  · simp only [Function.update_self]
    exact ⟨(hjoined i).mpr (.inl rfl), hok.2.2.2⟩
  · -- a thread that has exited owns no block
    rw [held_update_of_arg (by rw [ht]; rfl), held_main s.main m, hm]
    rwa [← Function.update_eq_self none (held s.main s.threads)] at howned

theorem createLeaf_fresh (i a : ℕ) :
    ¬ (MainPc.createLeaf i a).Created i ∧ ¬ (MainPc.createLeaf i a).Joined i := by
  simp only [MainPc.Created, MainPc.Joined, not_false_eq_true, and_true]
  omega

theorem nextLeaf_pNum (i : ℕ) : (nextLeaf i).pNum = none := by
  unfold nextLeaf
  split
  · rfl
  · rfl

theorem nextLeaf_created (hle : maxProcesses ≤ i) (hlt : i < maxProcesses * 2) (a j : ℕ) :
    (nextLeaf i).Created j ↔ j = i ∨ (MainPc.createLeaf i a).Created j := by
  unfold nextLeaf
  split
  · simp only [MainPc.Created]
    omega
  · simp only [MainPc.Created]
    omega

theorem nextLeaf_joined (i a j : ℕ) : (nextLeaf i).Joined j ↔ (MainPc.createLeaf i a).Joined j := by
  have hmax : maxProcesses = 64 := rfl
  unfold nextLeaf
  split
  · exact Iff.rfl
  · simp only [MainPc.Joined, iff_false]
    omega

theorem Inv.createLeaf (h : Inv file s) (hm : s.main = .createLeaf i a) :
    Inv file
      { s with
        main := nextLeaf i
        threads := Function.update s.threads i (.running (.add a)) } := by
  have hmain := h.main
  rw [MainOk, hm] at hmain
  obtain ⟨k, hk, hi, hpos, hscans, hloads⟩ := hmain
  refine h.create (hm ▸ rfl) (nextLeaf_pNum i) hloads (hm ▸ createLeaf_fresh i a) ?_ ?_ ?_
  · intro j
    rw [hm, nextLeaf_created (by omega) (by omega)]
  · intro j
    rw [hm, nextLeaf_joined]
  · unfold nextLeaf
    split
    · exact ⟨k + 1, by omega, by omega, hpos, hscans⟩
    · -- The last leaf.
      have hlast : k + 1 = maxProcesses := by omega
      exact ⟨by decide, by decide, hlast ▸ hscans⟩

theorem createNode_fresh (hi : 0 < i) (a : ℕ) :
    ¬ (MainPc.createNode i a).Created i ∧ ¬ (MainPc.createNode i a).Joined i := by
  simp only [MainPc.Created, MainPc.Joined]
  omega

theorem nextNode_pNum (i : ℕ) : (nextNode i).pNum = none := by
  unfold nextNode
  split
  · rfl
  · rfl

theorem nextNode_created (hi : 0 < i) (hlt : i < maxProcesses) (a j : ℕ) :
    (nextNode i).Created j ↔ j = i ∨ (MainPc.createNode i a).Created j := by
  unfold nextNode
  split
  · simp only [MainPc.Created]
    omega
  · simp only [MainPc.Created]
    omega

theorem nextNode_joined (hi : 0 < i) (a j : ℕ) :
    (nextNode i).Joined j ↔ (MainPc.createNode i a).Joined j := by
  unfold nextNode
  split
  · simp only [MainPc.Joined]
    omega
  · simp only [MainPc.Joined]
    omega

theorem Inv.createNode (h : Inv file s) (hm : s.main = .createNode i a) :
    Inv file
      { s with
        main := nextNode i
        threads := Function.update s.threads i (.running (.add a)) } := by
  have hmain := h.main
  rw [MainOk, hm] at hmain
  obtain ⟨hpos, hlt, hscans, hloads⟩ := hmain
  refine h.create (hm ▸ rfl) (nextNode_pNum i) hloads (hm ▸ createNode_fresh hpos a) ?_ ?_ ?_
  · intro j
    rw [hm, nextNode_created hpos hlt]
  · intro j
    rw [hm, nextNode_joined hpos]
  · unfold nextNode
    split
    · exact ⟨by omega, by omega, hscans⟩
    · exact hscans

/-- What a thread returns is an `int`. -/
theorem toInt_value (file : List ℤ) (i : ℕ) : toInt (value file i) = value file i :=
  toInt_eq_self (intRange_toInt _)

/-- `main` joins a thread and stores what it returned in its own block. -/
theorem Inv.joinInto (h : Inv file s) {c : ℕ} (ht : s.threads c = .exited sum)
    (hpNum : s.main.pNum = some a) (hm : m.pNum = some a)
    (hcreated : ∀ j, m.Created j ↔ s.main.Created j)
    (hjoined : ∀ j, m.Joined j ↔ j = c ∨ s.main.Joined j) {b : Block}
    (hmain : MainOk file { s with
      main := m
      threads := Function.update s.threads c .joined
      heap := Function.update s.heap a (some b) }) :
    Inv file { s with
      main := m
      threads := Function.update s.threads c .joined
      heap := Function.update s.heap a (some b) } := by
  refine h.join ht (hm.trans hpNum.symm) hcreated hjoined ?_ (h.owned.write a _)
    ⟨[], (List.append_nil _).symm⟩ (bounded_update h.bounded a _) hmain
  exact fun j a' ha' => Function.update_of_ne (h.arg_ne hpNum j a' ha') _ _

theorem Inv.joinLeft (h : Inv file s) {b : Block} (hm : s.main = .joinLeft i a)
    (ht : s.threads (i * 2) = .exited sum) :
    Inv file { s with
      main := .joinRight i a
      threads := Function.update s.threads (i * 2) .joined
      heap := Function.update s.heap a (some (b.store 8 num1 sum)) } := by
  have hmain := h.main
  rw [MainOk, hm] at hmain
  obtain ⟨hpos, hlt, hscans⟩ := hmain
  obtain ⟨_, _, hsum, _⟩ := h.tid ht
  refine h.joinInto ht (hm ▸ rfl) rfl ?_ ?_ ?_
  · intro j
    rw [hm]
    exact Iff.rfl
  · intro j
    rw [hm]
    exact Iff.rfl
  · -- the left child has returned its value, which is the first number of `i`
    refine ⟨hpos, hlt, hscans, _, Function.update_self _ _ _, ?_⟩
    rw [Block.load_store_same _ _ (by decide), hsum, toInt_value, operands_node file hlt]

theorem Inv.joinRight (h : Inv file s) {b : Block} (hm : s.main = .joinRight i a)
    (ht : s.threads (i * 2 + 1) = .exited sum) (ha : s.heap a = some b) :
    Inv file { s with
      main := .createNode i a
      threads := Function.update s.threads (i * 2 + 1) .joined
      heap := Function.update s.heap a (some (b.store 8 num2 sum)) } := by
  have hmain := h.main
  rw [MainOk, hm] at hmain
  obtain ⟨hpos, hlt, hscans, b', hb', hload⟩ := hmain
  rw [ha] at hb'
  cases hb'
  obtain ⟨_, _, hsum, _⟩ := h.tid ht
  refine h.joinInto ht (hm ▸ rfl) rfl ?_ ?_ ?_
  · intro j
    rw [hm]
    exact Iff.rfl
  · intro j
    simp only [hm, MainPc.Joined]
    omega
  · refine ⟨hpos, hlt, hscans, _, Function.update_self _ _ _, ?_, ?_⟩
    · -- The eight bytes at `num2` leave `num1` alone.
      rw [Block.load_store_other _ _ (by decide), hload]
    · rw [Block.load_store_same _ _ (by decide), hsum, toInt_value, operands_node file hlt]

theorem Inv.joinLast (h : Inv file s) (b : Block) (hm : s.main = .joinLast)
    (ht : s.threads 1 = .exited sum) :
    Inv file { s with
      main := .done
      threads := Function.update s.threads 1 .joined
      file := s.file ++ s.buffer
      buffer := []
      printed := some ((b.store 8 0 sum).load 0) } := by
  have hmain := h.main
  rw [MainOk, hm] at hmain
  obtain ⟨_, _, hsum, _⟩ := h.tid ht
  refine h.join ht ?_ ?_ ?_ (fun _ _ _ => rfl) h.owned ⟨s.buffer, rfl⟩ h.bounded ⟨hmain, ?_⟩
  · rw [hm]
    rfl
  · intro j
    rw [hm]
    exact Iff.rfl
  · intro j
    have hmax : maxProcesses = 64 := rfl
    simp only [hm, MainPc.Joined]
    omega
  · rw [Block.load_store_same _ _ (by decide), hsum, toInt_value]

theorem Inv.step (h : Inv file s) (hlen : maxProcesses * 2 ≤ file.length) (hstep : Step s t) :
    Inv file t := by
  cases hstep with
  | mallocLeaf b hm ha => exact h.mallocLeaf b hm ha
  | scan hm ha => exact h.scan hlen hm
  | createLeaf hm => exact h.createLeaf hm
  | mallocNode b hm ha => exact h.mallocNode b hm ha
  | joinLeft hm ht ha => exact h.joinLeft hm ht
  | joinRight hm ht ha => exact h.joinRight hm ht ha
  | createNode hm => exact h.createNode hm
  | joinLast b hm ht => exact h.joinLast b hm ht
  | add ht ha => exact h.add ht ha
  | print ht _ => exact h.print ht _ _
  | free ht => exact h.free ht
  | exit ht => exact h.exit ht

end Main

end SchoolOS.ForkThread.Thread
