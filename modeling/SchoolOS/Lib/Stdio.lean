import SchoolOS.Lib.CString
import Mathlib.Data.Nat.Digits.Defs
import Mathlib.Tactic.IntervalCases

/-!
# Formatted input and output on byte streams

`decimal` is the `%d` conversion of `printf`. `scanString` and `scanInt` are the `%s` and `%d`
conversions of `fscanf` and `fgets` is the line reader, each returning the bytes that stay unread.
White space is that of `isspace` in the C locale. A `%d` conversion outside the range of `int` is
undefined in C; `scanInt` returns the mathematical value.
-/

namespace SchoolOS

/-- `isspace`. -/
def isSpace (c : UInt8) : Bool := c = 32 || (9 ≤ c && c ≤ 13)

/-- `isdigit`. -/
def isDigit (c : UInt8) : Bool := 48 ≤ c && c ≤ 57

/-- The character of a decimal digit. -/
def digitChar (d : ℕ) : UInt8 := UInt8.ofNat (48 + d)

/-- The decimal digits of a natural number, most significant first. -/
def natDecimal (n : ℕ) : Bytes :=
  if n = 0 then [digitChar 0] else (Nat.digits 10 n).reverse.map digitChar

/-- The text of a `%d` conversion. -/
def decimal (z : ℤ) : Bytes :=
  if z < 0 then 45 :: natDecimal z.natAbs else natDecimal z.natAbs

/-- The value of a string of decimal digits. -/
def digitsValue (ds : Bytes) : ℕ := ds.foldl (fun v c => 10 * v + (c.toNat - 48)) 0

/-- `fscanf` of one `%s`: the token, unless the input ends first, and the unread rest. -/
def scanString (s : Bytes) : Option Bytes × Bytes :=
  let s := s.dropWhile isSpace
  if s = [] then (none, []) else (some (s.takeWhile (! isSpace ·)), s.dropWhile (! isSpace ·))

/-- The optional sign of a `%d` conversion. -/
def scanSign : Bytes → Bool × Bytes
  | [] => (false, [])
  | c :: s => if c = 45 then (true, s) else if c = 43 then (false, s) else (false, c :: s)

/-- `fscanf` of one `%d`: the value, unless no digit follows the sign, and the unread rest. -/
def scanInt (s : Bytes) : Option ℤ × Bytes :=
  let (negative, s) := scanSign (s.dropWhile isSpace)
  let ds := s.takeWhile isDigit
  if ds = [] then (none, s)
  else (some (if negative then -(digitsValue ds : ℤ) else digitsValue ds), s.dropWhile isDigit)

/-- At most `k` bytes, up to and including the first newline, and the unread rest. -/
def takeLine : ℕ → Bytes → Bytes × Bytes
  | 0, s => ([], s)
  | _ + 1, [] => ([], [])
  | k + 1, c :: s =>
    if c = 10 then ([c], s) else (c :: (takeLine k s).1, (takeLine k s).2)

/-- `fgets(buf, size, stream)`: `none` when the stream is at its end. -/
def fgets (size : ℕ) (s : Bytes) : Option (Bytes × Bytes) :=
  if s = [] then none else some (takeLine (size - 1) s)

/-! ## Tokens -/

/-- A stream whose next byte, if any, is white space. -/
def SpaceNext (s : Bytes) : Prop := ∀ c ∈ s.head?, isSpace c = true

theorem SpaceNext.cons {c : UInt8} {s : Bytes} (h : isSpace c = true) : SpaceNext (c :: s) := by
  simpa [SpaceNext] using h

theorem dropWhile_append_of_head {p : UInt8 → Bool} {l r : Bytes} (hl : ∀ c ∈ l, p c = true)
    (hr : ∀ c ∈ r.head?, p c = false) : (l ++ r).dropWhile p = r := by
  rw [List.dropWhile_append_of_pos hl]
  cases r with
  | nil => rfl
  | cons c r => exact List.dropWhile_cons_of_neg (by simpa using hr c rfl)

theorem takeWhile_append_of_head {p : UInt8 → Bool} {l r : Bytes} (hl : ∀ c ∈ l, p c = true)
    (hr : ∀ c ∈ r.head?, p c = false) : (l ++ r).takeWhile p = l := by
  rw [List.takeWhile_append_of_pos hl]
  cases r with
  | nil => simp
  | cons c r => simp [List.takeWhile_cons_of_neg, hr c rfl]

/-- A string token followed by white space is read whole. -/
theorem scanString_token {ws tok rest : Bytes} (hws : ∀ c ∈ ws, isSpace c = true)
    (hne : tok ≠ []) (htok : ∀ c ∈ tok, isSpace c = false) (hrest : SpaceNext rest) :
    scanString (ws ++ (tok ++ rest)) = (some tok, rest) := by
  have hskip : (ws ++ (tok ++ rest)).dropWhile isSpace = tok ++ rest := by
    refine dropWhile_append_of_head hws ?_
    obtain ⟨c, tok, rfl⟩ := List.exists_cons_of_ne_nil hne
    simpa using htok c (by simp)
  have hrest' : ∀ c ∈ rest.head?, (! isSpace c) = false := fun c hc => by simp [hrest c hc]
  have htok' : ∀ c ∈ tok, (! isSpace c) = true := fun c hc => by simp [htok c hc]
  simp only [scanString, hskip]
  rw [if_neg (by simp [hne]), takeWhile_append_of_head htok' hrest',
    dropWhile_append_of_head htok' hrest']

/-- At the end of the input `%s` converts nothing. -/
theorem scanString_end {ws : Bytes} (hws : ∀ c ∈ ws, isSpace c = true) :
    scanString ws = (none, []) := by
  have hskip : ws.dropWhile isSpace = [] := List.dropWhile_eq_nil_iff.mpr hws
  simp [scanString, hskip]

/-- A converted `%s` token is not empty and holds no white space. -/
theorem scanString_spec {s tok rest : Bytes} (h : scanString s = (some tok, rest)) :
    tok ≠ [] ∧ ∀ c ∈ tok, isSpace c = false := by
  simp only [scanString] at h
  split at h
  · simp at h
  · rename_i hne
    obtain ⟨htok, -⟩ := Prod.mk.inj h
    obtain rfl := Option.some.inj htok
    refine ⟨?_, fun c hc => by simpa using List.mem_takeWhile_imp hc⟩
    obtain ⟨c, r, hc⟩ := List.exists_cons_of_ne_nil hne
    have hhead : isSpace c = false := by
      have := List.head?_dropWhile_not isSpace s
      rw [hc] at this
      simpa using this
    rw [hc, List.takeWhile_cons_of_pos (by simp [hhead])]
    simp

/-! ## Decimal numbers -/

private theorem isDigit_digitChar {d : ℕ} (hd : d < 10) : isDigit (digitChar d) = true := by
  interval_cases d <;> rfl

private theorem toNat_digitChar {d : ℕ} (hd : d < 10) : (digitChar d).toNat - 48 = d := by
  interval_cases d <;> rfl

theorem isDigit_of_mem_natDecimal {n : ℕ} {c : UInt8} (hc : c ∈ natDecimal n) :
    isDigit c = true := by
  unfold natDecimal at hc
  split at hc
  · obtain rfl := List.mem_singleton.mp hc
    rfl
  · simp only [List.map_reverse, List.mem_reverse, List.mem_map] at hc
    obtain ⟨d, hd, rfl⟩ := hc
    exact isDigit_digitChar (Nat.digits_lt_base (by omega) hd)

theorem natDecimal_ne_nil (n : ℕ) : natDecimal n ≠ [] := by
  unfold natDecimal
  split
  · simp
  · simpa [Nat.digits_eq_nil_iff_eq_zero] using ‹¬ n = 0›

private theorem digitsValue_reverse_map (ds : List ℕ) (hds : ∀ d ∈ ds, d < 10) :
    digitsValue (ds.reverse.map digitChar) = Nat.ofDigits 10 ds := by
  induction ds with
  | nil => rfl
  | cons d ds ih =>
    have ih' := ih fun e he => hds e (by simp [he])
    simp only [digitsValue, List.reverse_cons, List.map_append, List.map_cons, List.map_nil,
      List.foldl_append, List.foldl_cons, List.foldl_nil] at ih' ⊢
    rw [ih', toNat_digitChar (hds d (by simp)), Nat.ofDigits_cons]
    omega

theorem digitsValue_natDecimal (n : ℕ) : digitsValue (natDecimal n) = n := by
  unfold natDecimal
  split
  · rename_i h
    simp [h, digitsValue, digitChar]
  · rw [digitsValue_reverse_map _ fun d hd => Nat.digits_lt_base (by omega) hd,
      Nat.ofDigits_digits]

theorem isSpace_of_isDigit {c : UInt8} (h : isDigit c = true) : isSpace c = false := by
  simp only [isDigit, isSpace, Bool.and_eq_true, decide_eq_true_eq, Bool.or_eq_false_iff,
    decide_eq_false_iff_not, Bool.and_eq_false_iff, UInt8.le_iff_toNat_le, ← UInt8.toNat_inj] at *
  simp only [UInt8.toNat_ofNat] at *
  omega

/-- At the end of the input `%d` converts nothing. -/
theorem scanInt_end {ws : Bytes} (hws : ∀ c ∈ ws, isSpace c = true) :
    scanInt ws = (none, []) := by
  have hskip : ws.dropWhile isSpace = [] := List.dropWhile_eq_nil_iff.mpr hws
  simp [scanInt, hskip, scanSign]

/-! ## Lines -/

/-- Reading past a text without a newline. -/
theorem takeLine_append {line : Bytes} (hline : (10 : UInt8) ∉ line) (after : Bytes) (k : ℕ) :
    takeLine k (line ++ after) = (line.take k ++ (takeLine (k - line.length) after).1,
      line.drop k ++ (takeLine (k - line.length) after).2) := by
  induction line generalizing k with
  | nil => simp
  | cons c line ih =>
    cases k with
    | zero => simp [takeLine]
    | succ k =>
      have hc : c ≠ 10 := by rintro rfl; simp at hline
      have ih' := ih (fun h => hline (by simp [h])) k
      simp [takeLine, hc, ih']

/-- Reading at most `k` bytes of a line, which ends with a newline or with the text. -/
theorem takeLine_line {line after : Bytes} (hline : (10 : UInt8) ∉ line)
    (hafter : ∀ c ∈ after.head?, c = 10) (k : ℕ) :
    ∃ nl : Bytes, (∀ c ∈ nl, c = 10) ∧ (takeLine k (line ++ after)).1 = line.take k ++ nl := by
  refine ⟨(takeLine (k - line.length) after).1, ?_, by rw [takeLine_append hline]⟩
  cases after with
  | nil =>
    cases k - line.length with
    | zero => simp [takeLine]
    | succ j => simp [takeLine]
  | cons c after =>
    obtain rfl := hafter c rfl
    cases k - line.length with
    | zero => simp [takeLine]
    | succ j => simp [takeLine]

/-- A line that leaves room for its newline and the terminator is read whole. -/
theorem fgets_line {size : ℕ} {line rest : Bytes} (hline : (10 : UInt8) ∉ line)
    (hlen : line.length + 2 ≤ size) :
    fgets size (line ++ 10 :: rest) = some (line ++ [10], rest) := by
  obtain ⟨k, hk⟩ : ∃ k, size - 1 - line.length = k + 1 := ⟨size - 2 - line.length, by omega⟩
  rw [fgets, if_neg (by simp), takeLine_append hline, hk, List.take_of_length_le (by omega),
    List.drop_of_length_le (by omega)]
  rfl

end SchoolOS
