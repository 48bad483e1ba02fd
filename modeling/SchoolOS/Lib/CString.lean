import Mathlib.Data.List.TakeWhile
import Mathlib.Data.List.Basic
import Mathlib.Tactic.Common

/-!
# C strings and character arrays

A `CString` is the argument of a C function: a sequence of bytes without the terminator `0`. A
`CharArray n` is the memory of a `char a[n]`; its string `str` ends before the first `0` byte, and
the bytes behind that stay in memory.
-/

namespace SchoolOS

/-- A sequence of `char`s. -/
abbrev Bytes := List UInt8

/-- The bytes of an ASCII literal of the source. -/
def ascii (s : String) : Bytes := s.toList.map fun c => UInt8.ofNat c.toNat

/-- A NUL-terminated argument: its bytes up to the terminator. -/
structure CString where
  bytes : Bytes
  nul_free : (0 : UInt8) ∉ bytes
deriving DecidableEq

/-- The string of `s` followed by that of `t`. -/
def CString.append (s t : CString) : CString :=
  ⟨s.bytes ++ t.bytes, by simp [s.nul_free, t.nul_free]⟩

/-- The memory of a `char a[n]`. -/
structure CharArray (n : ℕ) where
  bytes : Bytes
  length_eq : bytes.length = n
deriving DecidableEq

namespace CharArray

variable {n : ℕ}

/-- A zero-initialised array. -/
def zero (n : ℕ) : CharArray n := ⟨List.replicate n 0, List.length_replicate⟩

/-- `a[i] = c;` -/
def set (a : CharArray n) (i : ℕ) (c : UInt8) : CharArray n :=
  ⟨a.bytes.set i c, by rw [List.length_set, a.length_eq]⟩

/-- The string held by `a`. An array without a `0` byte has no string in C; the model then returns
all its bytes. -/
def str (a : CharArray n) : Bytes := a.bytes.takeWhile (· ≠ 0)

/-- `strlen(a)`. -/
def strlen (a : CharArray n) : ℕ := a.str.length

/-- `strcpy(a, src)`: `src` and its terminator over the first bytes of `a`. What does not fit lands
behind the array in C and is dropped here. -/
def strcpy (a : CharArray n) (src : Bytes) : CharArray n :=
  ⟨(src ++ 0 :: a.bytes.drop (src.length + 1)).take n, by
    have := a.length_eq
    simp only [List.length_take, List.length_append, List.length_cons, List.length_drop]
    omega⟩

/-- The bytes `data` over the first bytes of `a`. What does not fit is dropped. -/
def copy (a : CharArray n) (data : Bytes) : CharArray n :=
  ⟨(data ++ a.bytes.drop data.length).take n, by
    have := a.length_eq
    simp only [List.length_take, List.length_append, List.length_drop]
    omega⟩

end CharArray

/-! ## Strings of arrays -/

private theorem takeWhile_ne_zero_append {l r : Bytes} (h : (0 : UInt8) ∉ l) :
    (l ++ 0 :: r).takeWhile (· ≠ 0) = l := by
  rw [List.takeWhile_append_of_pos]
  · simp
  · intro c hc
    simpa using ne_of_mem_of_not_mem hc h

namespace CharArray

variable {n : ℕ}

@[simp] theorem set_bytes (a : CharArray n) (i : ℕ) (c : UInt8) :
    (a.set i c).bytes = a.bytes.set i c := rfl

/-- The string of an array has no `0` byte. -/
theorem nul_notMem_str (a : CharArray n) : (0 : UInt8) ∉ a.str := by
  intro h
  simpa using List.mem_takeWhile_imp h

@[simp] theorem str_zero (n : ℕ) : (zero n).str = [] := by
  cases n <;> simp [zero, str, List.replicate_succ]

/-- An array that starts with `s` and a terminator holds `s`. -/
theorem str_eq_of_bytes {a : CharArray n} {s r : Bytes} (h : a.bytes = s ++ 0 :: r)
    (hs : (0 : UInt8) ∉ s) : a.str = s := by
  rw [str, h, takeWhile_ne_zero_append hs]

/-- `strcpy` of a string that fits. -/
theorem str_strcpy (a : CharArray n) {s : Bytes} (hs : (0 : UInt8) ∉ s) (hlen : s.length < n) :
    (a.strcpy s).str = s := by
  refine str_eq_of_bytes (r := (a.bytes.drop (s.length + 1)).take (n - s.length - 1)) ?_ hs
  obtain ⟨k, rfl⟩ : ∃ k, n = s.length + (k + 1) := ⟨n - s.length - 1, by omega⟩
  simp only [strcpy, List.take_length_add_append, List.take_succ_cons]
  congr 3
  omega

/-- `strcpy` of any string: the array is filled up, without a terminator if the string is too
long. -/
theorem str_strcpy_take (a : CharArray n) {s : Bytes} (hs : (0 : UInt8) ∉ s) :
    (a.strcpy s).str = s.take n := by
  rcases Nat.lt_or_ge s.length n with hlt | hge
  · rw [str_strcpy a hs hlt, List.take_of_length_le hlt.le]
  · have hbytes : (a.strcpy s).bytes = s.take n := List.take_append_of_le_length hge
    rw [str, hbytes, List.takeWhile_eq_self_iff]
    intro c hc
    simpa using ne_of_mem_of_not_mem (List.mem_of_mem_take hc) hs

/-- `strcpy(a, s); a[k] = 0;` keeps the first `k` bytes of `s`. -/
theorem str_strcpy_set (a : CharArray n) {s : Bytes} {k : ℕ} (hs : (0 : UInt8) ∉ s) (hk : k < n) :
    ((a.strcpy s).set k 0).str = s.take k := by
  have htake : (0 : UInt8) ∉ s.take k := fun h => hs (List.mem_of_mem_take h)
  by_cases hlen : k ≤ s.length
  · -- the terminator cuts `s` at `k`
    refine str_eq_of_bytes (r := (a.strcpy s).bytes.drop (k + 1)) ?_ htake
    have hlt : k < (a.strcpy s).bytes.length := by rw [length_eq]; exact hk
    have hpre : (a.strcpy s).bytes.take k = s.take k := by
      simp only [strcpy, List.take_take]
      rw [min_eq_left hk.le, List.take_append_of_le_length hlen]
    rw [← hpre, set_bytes, List.set_eq_take_append_cons_drop, if_pos hlt]
  · -- the terminator lands behind the end of `s`
    have hk' : s.length < k := by omega
    rw [List.take_of_length_le hk'.le]
    have hb : ∃ r, (a.strcpy s).bytes = s ++ 0 :: r := by
      obtain ⟨m, rfl⟩ : ∃ m, n = s.length + (m + 1) := ⟨n - s.length - 1, by omega⟩
      exact ⟨_, by simp only [strcpy, List.take_length_add_append, List.take_succ_cons]; rfl⟩
    obtain ⟨r, hr⟩ := hb
    obtain ⟨j, rfl⟩ : ∃ j, k = s.length + (j + 1) := ⟨k - s.length - 1, by omega⟩
    refine str_eq_of_bytes (r := r.set j 0) ?_ hs
    simp only [set_bytes, hr]
    rw [List.set_append_right _ _ (by omega)]
    simp

/-- Copying bytes and putting the terminator in the place of the last one. -/
theorem str_copy_set (a : CharArray n) (t : Bytes) (c : UInt8) (ht : t.length < n) :
    ((a.copy (t ++ [c])).set t.length 0).str = t.takeWhile (· ≠ 0) := by
  have hbytes : ∃ r, ((a.copy (t ++ [c])).set t.length 0).bytes = t ++ 0 :: r := by
    obtain ⟨k, rfl⟩ : ∃ k, n = t.length + (k + 1) := ⟨n - t.length - 1, by omega⟩
    refine ⟨(a.bytes.drop (t ++ [c]).length).take k, ?_⟩
    simp only [set_bytes, copy]
    rw [List.append_assoc, List.singleton_append, List.take_length_add_append, List.take_succ_cons,
      List.set_append_right _ _ le_rfl, Nat.sub_self, List.set_cons_zero]
  obtain ⟨r, hr⟩ := hbytes
  rw [str, hr, List.takeWhile_append]
  split
  · rename_i hlength
    have hself : t.takeWhile (· ≠ 0) = t := (List.takeWhile_prefix _).eq_of_length hlength
    rw [hself]
    simp
  · rfl

end CharArray

end SchoolOS
