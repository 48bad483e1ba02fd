import Mathlib.Algebra.Order.Ring.Int
import Mathlib.Data.List.Basic
import Mathlib.Tactic.Common

/-!
# Arrays of `int`

The memory of an `int a[n]`, accessed through `int` indices. An access outside the array is
undefined in C and `none` here. The first cells of an array are used as a list: `find` looks for a
value in it, `shiftLeft` and `shiftRight` are the loops that close a gap in it or make room for a
new element.
-/

namespace SchoolOS

/-- The memory of an `int a[n]`. -/
structure CArray (n : ℕ) where
  cells : List ℤ
  length_eq : cells.length = n

namespace CArray

variable {n : ℕ}

/-- A zero-initialised array. -/
def zero (n : ℕ) : CArray n := ⟨List.replicate n 0, List.length_replicate⟩

/-- The value of `a[k]`. -/
def get? (a : CArray n) (k : ℤ) : Option ℤ := if 0 ≤ k then a.cells[k.toNat]? else none

/-- `a[k] = v;` -/
def set? (a : CArray n) (k v : ℤ) : Option (CArray n) :=
  if 0 ≤ k ∧ k < n then some ⟨a.cells.set k.toNat v, by rw [List.length_set, a.length_eq]⟩ else none

/-- `a[k] = a[j];` -/
def move? (a : CArray n) (k j : ℤ) : Option (CArray n) := do
  let v ← a.get? j
  a.set? k v

/-- `for (; count > 0; i++, count--) if (a[i] == v) break;` The index is `i + count` if no cell
holds `v`. -/
def find (a : CArray n) (v : ℤ) : ℤ → ℕ → Option ℤ
  | i, 0 => some i
  | i, count + 1 => do
    let x ← a.get? i
    if v = x then some i else a.find v (i + 1) count

/-- `for (; count > 0; i++, count--) a[i] = a[i+1];` -/
def shiftLeft (a : CArray n) : ℤ → ℕ → Option (CArray n)
  | _, 0 => some a
  | i, count + 1 => do
    let a ← a.move? i (i + 1)
    a.shiftLeft (i + 1) count

/-- `for (; count > 0; i--, count--) a[i] = a[i-1];` -/
def shiftRight (a : CArray n) : ℤ → ℕ → Option (CArray n)
  | _, 0 => some a
  | i, count + 1 => do
    let a ← a.move? i (i - 1)
    a.shiftRight (i - 1) count

/-! ## Accesses within the array -/

theorem get?_natCast (a : CArray n) (k : ℕ) : a.get? k = a.cells[k]? := by
  simp [get?]

theorem getElem?_cells_ne_none {a : CArray n} {k : ℕ} (h : k < n) : ∃ v, a.cells[k]? = some v := by
  rw [← a.length_eq] at h
  exact ⟨_, List.getElem?_eq_getElem h⟩

theorem set?_natCast (a : CArray n) {k : ℕ} (h : k < n) (v : ℤ) :
    ∃ a', a.set? k v = some a' ∧ a'.cells = a.cells.set k v := by
  have hk : (0 : ℤ) ≤ k ∧ (k : ℤ) < n := by omega
  exact ⟨_, if_pos hk, by simp⟩

/-- The cells after one move. -/
theorem move?_natCast (a : CArray n) {k j : ℕ} (hk : k < n) (hj : j < n) :
    ∃ a', a.move? k j = some a' ∧
      ∀ l, a'.cells[l]? = if l = k then a.cells[j]? else a.cells[l]? := by
  obtain ⟨v, hv⟩ := getElem?_cells_ne_none (a := a) hj
  obtain ⟨a', hset, hcells⟩ := a.set?_natCast hk v
  refine ⟨a', ?_, fun l => ?_⟩
  · rw [move?, get?_natCast, hv]
    exact hset
  · rw [hcells, List.getElem?_set, a.length_eq]
    by_cases hl : k = l
    · rw [if_pos hl, if_pos (hl ▸ hk), if_pos hl.symm, hv]
    · rw [if_neg hl, if_neg (Ne.symm hl)]

/-! ## Loops over the first cells -/

theorem find_natCast (a : CArray n) (v : ℤ) (i count : ℕ) (h : i + count ≤ n) :
    a.find v i count = some ((i + ((a.cells.drop i).take count).idxOf v : ℕ) : ℤ) := by
  induction count generalizing i with
  | zero => simp [find]
  | succ count ih =>
    have hi : i < a.cells.length := by
      rw [a.length_eq]
      omega
    rw [find, get?_natCast, List.getElem?_eq_getElem hi, List.drop_eq_getElem_cons hi,
      List.take_succ_cons]
    simp only [Option.bind_eq_bind, Option.bind_some]
    by_cases hv : v = a.cells[i]
    · simp [hv]
    · rw [if_neg hv, List.idxOf_cons_ne _ (Ne.symm hv), ← Nat.cast_add_one, ih (i + 1) (by omega)]
      congr 2
      omega

/-- Closing a gap: the cells behind `i` move down by one. -/
theorem shiftLeft_natCast (a : CArray n) (i count : ℕ) (h : i + count < n) :
    ∃ a', a.shiftLeft i count = some a' ∧
      ∀ l, a'.cells[l]? = if i ≤ l ∧ l < i + count then a.cells[l + 1]? else a.cells[l]? := by
  induction count generalizing a i with
  | zero => exact ⟨a, rfl, fun l => by rw [if_neg (by omega)]⟩
  | succ count ih =>
    obtain ⟨a₁, hmove, hcells⟩ := a.move?_natCast (k := i) (j := i + 1) (by omega) (by omega)
    obtain ⟨a', hshift, hcells'⟩ := ih a₁ (i + 1) (by omega)
    push_cast at hmove hshift
    refine ⟨a', ?_, fun l => ?_⟩
    · rw [shiftLeft, hmove]
      exact hshift
    · rw [hcells' l, hcells l, hcells (l + 1)]
      by_cases hl : l = i
      · rw [if_neg (by omega), if_pos hl, if_pos (by omega), hl]
      · by_cases hin : i + 1 ≤ l ∧ l < i + 1 + count
        · rw [if_pos hin, if_neg (by omega), if_pos (by omega)]
        · rw [if_neg hin, if_neg hl, if_neg (by omega)]

/-- Making room: the cells in front of `i` move up by one. -/
theorem shiftRight_natCast (a : CArray n) (i count : ℕ) (hcount : count ≤ i) (h : i < n) :
    ∃ a', a.shiftRight i count = some a' ∧
      ∀ l, a'.cells[l]? = if i - count < l ∧ l ≤ i then a.cells[l - 1]? else a.cells[l]? := by
  induction count generalizing a i with
  | zero => exact ⟨a, rfl, fun l => by rw [if_neg (by omega)]⟩
  | succ count ih =>
    obtain ⟨a₁, hmove, hcells⟩ := a.move?_natCast (k := i) (j := i - 1) h (by omega)
    obtain ⟨a', hshift, hcells'⟩ := ih a₁ (i - 1) (by omega) (by omega)
    have hpred : ((i - 1 : ℕ) : ℤ) = (i : ℤ) - 1 := by omega
    rw [hpred] at hmove hshift
    refine ⟨a', ?_, fun l => ?_⟩
    · rw [shiftRight, hmove]
      exact hshift
    · rw [hcells' l, hcells l, hcells (l - 1)]
      by_cases hl : l = i
      · rw [if_neg (by omega), if_pos hl, if_pos (by omega), hl]
      · by_cases hin : i - 1 - count < l ∧ l ≤ i - 1
        · rw [if_pos hin, if_neg (by omega), if_pos (by omega)]
        · rw [if_neg hin, if_neg hl, if_neg (by omega)]

/-! ## The first cells as a list -/

/-- The list `l` is in the first cells. -/
def Holds (a : CArray n) (l : List ℤ) : Prop := a.cells.take l.length = l

theorem Holds.length_le {a : CArray n} {l : List ℤ} (h : a.Holds l) : l.length ≤ n := by
  have hlength := congrArg List.length h
  rw [List.length_take, a.length_eq] at hlength
  omega

theorem holds_iff {a : CArray n} {l : List ℤ} :
    a.Holds l ↔ ∀ k < l.length, a.cells[k]? = l[k]? := by
  constructor
  · intro h k hk
    rw [← List.getElem?_take_of_lt hk, h]
  · intro h
    apply List.ext_getElem?
    intro k
    rw [List.getElem?_take]
    split
    · exact h k ‹_›
    · rw [List.getElem?_eq_none (by omega)]

theorem Holds.get? {a : CArray n} {l : List ℤ} (h : a.Holds l) {k : ℕ} (hk : k < l.length) :
    a.get? k = l[k]? := by
  rw [get?_natCast, holds_iff.mp h k hk]

/-- Writing to a cell of the list. -/
theorem Holds.set {a : CArray n} {l : List ℤ} (h : a.Holds l) {k : ℕ} (hk : k < l.length) (v : ℤ) :
    ∃ a', a.set? k v = some a' ∧ a'.Holds (l.set k v) := by
  have hle := h.length_le
  obtain ⟨a', hset, hcells⟩ := a.set?_natCast (k := k) (by omega) v
  refine ⟨a', hset, ?_⟩
  rw [Holds, List.length_set, hcells, List.take_set, h]

/-- Removing the element at `i`. -/
theorem Holds.shiftLeft {a : CArray n} {l : List ℤ} (h : a.Holds l) {i : ℕ} (hi : i < l.length)
    (hlt : l.length < n) :
    ∃ a', a.shiftLeft i (l.length - i) = some a' ∧ a'.Holds (l.eraseIdx i) := by
  obtain ⟨a', hshift, hcells⟩ := a.shiftLeft_natCast i (l.length - i) (by omega)
  have hold := holds_iff.mp h
  have hlength : (l.eraseIdx i).length = l.length - 1 := List.length_eraseIdx_of_lt hi
  refine ⟨a', hshift, holds_iff.mpr fun k hk => ?_⟩
  rw [hcells k, List.getElem?_eraseIdx]
  by_cases hki : k < i
  · rw [if_neg (by omega), if_pos hki, hold k (by omega)]
  · rw [if_pos (by omega), if_neg hki, hold (k + 1) (by omega)]

/-- Inserting an element at `i`. -/
theorem Holds.shiftRight {a : CArray n} {l : List ℤ} (h : a.Holds l) {i : ℕ} (hi : i ≤ l.length)
    (hlt : l.length < n) (v : ℤ) :
    ∃ a₁ a', a.shiftRight l.length (l.length - i) = some a₁ ∧ a₁.set? i v = some a' ∧
      a'.Holds (l.insertIdx i v) := by
  obtain ⟨a₁, hshift, hcells⟩ :=
    a.shiftRight_natCast l.length (l.length - i) (by omega) hlt
  obtain ⟨a', hset, hcells'⟩ := a₁.set?_natCast (k := i) (by omega) v
  have hold := holds_iff.mp h
  have hlength : (l.insertIdx i v).length = l.length + 1 := List.length_insertIdx_of_le_length hi v
  refine ⟨a₁, a', hshift, hset, holds_iff.mpr fun k hk => ?_⟩
  rw [hcells', List.getElem?_set, a₁.length_eq, hcells k, List.getElem?_insertIdx]
  by_cases hki : k < i
  · rw [if_neg (by omega), if_neg (by omega), if_pos hki, hold k (by omega)]
  · by_cases hik : i = k
    · rw [if_pos hik, if_pos (by omega), if_neg hki, if_pos hik.symm, if_pos (by omega)]
    · rw [if_neg hik, if_pos (by omega), if_neg hki, if_neg (Ne.symm hik), hold (k - 1) (by omega)]

/-- Writing behind the list. -/
theorem Holds.concat {a : CArray n} {l : List ℤ} (h : a.Holds l) (hlt : l.length < n) (v : ℤ) :
    ∃ a', a.set? l.length v = some a' ∧ a'.Holds (l ++ [v]) := by
  obtain ⟨a₁, a', hshift, hset, hholds⟩ := h.shiftRight le_rfl hlt v
  rw [Nat.sub_self] at hshift
  obtain rfl := Option.some.inj hshift
  rw [List.insertIdx_length_self] at hholds
  exact ⟨a', hset, hholds⟩

end CArray

end SchoolOS
