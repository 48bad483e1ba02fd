import SchoolOS.Lib.Words
import SchoolOS.ProcInfo.Defs

/-!
# Selecting a process

Reference: `Assignment5-1/proc_info.c`, `my_write`.

`my_write` puts the terminator in the place of the last byte that was written, without looking at
it. This is what `echo` needs, whose last byte is a newline. A number that is written without one
loses its last digit. A number with one byte behind it that makes it unacceptable (`Spoilt`) is
accepted, since that byte is not seen. All other texts are taken as they were written
(`selectsPid_iff`).
-/

namespace SchoolOS.ProcInfo

/-- The range of `long`. -/
def LongRange (z : ℤ) : Prop := -2 ^ 63 ≤ z ∧ z < 2 ^ 63

instance (z : ℤ) : Decidable (LongRange z) := inferInstanceAs (Decidable (_ ∧ _))

/-- The value that `kstrtol(s, 10, ..)` stores: a numeral in the range of `long`, with at most one
newline behind it. `none` is an error, for which nothing is stored. -/
def kstrtol (s : Bytes) : Option ℤ :=
  (numeral? (if s.getLast? = some 10 then s.dropLast else s)).filter fun z => LongRange z

/-- The string that begins with the first of some bytes. -/
def cString (s : Bytes) : Bytes := s.takeWhile (· ≠ 0)

/-- `my_write`, with the contents of the uninitialised `buf`. It is undefined when `data` does not
fit into `buf`, or is empty. -/
def myWrite (buf : CharArray 50) (data : Bytes) (s : Globals) : Option (Globals × ℕ) :=
  if 1 ≤ data.length ∧ data.length ≤ 50 then
    -- all bytes are copied from the user
    let buf := (buf.copy data).set (data.length - 1) 0
    some ({ s with curProc := (kstrtol buf.str).getD s.curProc }, data.length)
  else none

/-- Writing the text sets `cur_proc` to the number whose decimal text it is, and leaves `cur_proc`
as it was if `kstrtol` would reject the text. -/
def SelectsPid (buf : CharArray 50) (text : Bytes) : Prop :=
  ∀ s : Globals, ∃ s', myWrite buf text s = some (s', text.length) ∧
    (∀ n, LongRange n → text = decimal n ∨ text = decimal n ++ [10] → s'.curProc = n) ∧
    (kstrtol (cString text) = none → s'.curProc = s.curProc)

/-- A number that `kstrtol` accepts, alone or with its newline, and one more byte that makes the
text unacceptable. -/
inductive Spoilt : Bytes → Prop
  /-- The byte belongs to no number. -/
  | stray {tok : Bytes} {z : ℤ} {c : UInt8} : numeral? tok = some z → LongRange z → c ≠ 0 → c ≠ 10 →
    isDigit c = false → Spoilt (tok ++ [c])
  /-- The byte is a digit, and the number with it is outside the range of `long`. -/
  | tooLong {tok : Bytes} {z z' : ℤ} {c : UInt8} : numeral? tok = some z → LongRange z →
    numeral? (tok ++ [c]) = some z' → ¬ LongRange z' → Spoilt (tok ++ [c])
  /-- The byte stands behind the newline. -/
  | afterNewline {tok : Bytes} {z : ℤ} {c : UInt8} : numeral? tok = some z → LongRange z → c ≠ 0 →
    Spoilt (tok ++ [10] ++ [c])

/-! ## The string that is parsed -/

theorem cString_eq_self {s : Bytes} (h : ∀ c ∈ s, c ≠ 0) : cString s = s :=
  List.takeWhile_eq_self_iff.mpr fun c hc => by simpa using h c hc

theorem cString_concat {s : Bytes} {c : UInt8} (hs : ∀ d ∈ s, d ≠ 0) (hc : c ≠ 0) :
    cString (s ++ [c]) = s ++ [c] := by
  apply cString_eq_self
  intro d hd
  rcases List.mem_append.mp hd with hd | hd
  · exact hs d hd
  · rwa [List.mem_singleton.mp hd]

/-- `my_write` parses the text without its last byte. -/
theorem myWrite_eq (buf : CharArray 50) {text : Bytes} (hpos : 1 ≤ text.length)
    (hle : text.length ≤ 50) (s : Globals) : myWrite buf text s =
      some ({ s with curProc := (kstrtol (cString text.dropLast)).getD s.curProc },
        text.length) := by
  obtain ⟨t, c, rfl⟩ : ∃ t c, text = t ++ [c] := by
    rcases List.eq_nil_or_concat text with rfl | ⟨t, c, ht⟩
    · simp at hpos
    · exact ⟨t, c, by rw [ht, List.concat_eq_append]⟩
  rw [List.length_append, List.length_singleton] at hle
  have hstr : ((buf.copy (t ++ [c])).set ((t ++ [c]).length - 1) 0).str = cString t := by
    rw [List.length_append, List.length_singleton, Nat.add_sub_cancel]
    exact buf.str_copy_set t c (by omega)
  rw [myWrite, if_pos ⟨hpos, by simpa using hle⟩, List.dropLast_concat]
  simp only [hstr]

theorem kstrtol_numeral {tok : Bytes} {z : ℤ} (h : numeral? tok = some z) (hz : LongRange z) :
    kstrtol tok = some z := by
  have hlast : tok.getLast? ≠ some 10 :=
    fun hc => (mem_numeral h 10 (List.mem_of_getLast? hc)).2 rfl
  rw [kstrtol, if_neg hlast, h, Option.filter_some_pos (by simpa using hz)]

theorem kstrtol_eq_some_iff {t : Bytes} {z : ℤ} :
    kstrtol t = some z ↔
      ∃ tok, numeral? tok = some z ∧ LongRange z ∧ (t = tok ∨ t = tok ++ [10]) := by
  unfold kstrtol
  constructor
  · intro h
    obtain ⟨htok, hz⟩ := Option.filter_eq_some_iff.mp h
    refine ⟨_, htok, by simpa using hz, ?_⟩
    by_cases hlast : t.getLast? = some 10
    · right
      obtain ⟨r, rfl⟩ := List.getLast?_eq_some_iff.mp hlast
      rw [if_pos hlast, List.dropLast_concat]
    · left
      rw [if_neg hlast]
  · rintro ⟨tok, htok, hz, rfl | rfl⟩
    · exact kstrtol_numeral htok hz
    · rw [if_pos List.getLast?_concat, List.dropLast_concat, htok,
        Option.filter_some_pos (by simpa using hz)]

/-- A number whose last digit is lost is another one. -/
theorem kstrtol_dropLast_decimal {n : ℤ} {v : ℤ} (h : kstrtol (decimal n).dropLast = some v) :
    v ≠ n := by
  have htok := numeral?_decimal n
  have hlast : (decimal n).dropLast.getLast? ≠ some 10 := fun hc =>
    (mem_numeral htok 10 (List.dropLast_subset _ (List.mem_of_getLast? hc))).2 rfl
  rw [kstrtol, if_neg hlast] at h
  have hv : numeral? (decimal n).dropLast = some v := (Option.filter_eq_some_iff.mp h).1
  have hne := numeral_ne_nil hv
  rw [List.dropLast_eq_take] at hv hne
  have hlen : 0 < (decimal n).length - 1 := by
    by_contra hzero
    rw [Nat.eq_zero_of_not_pos hzero, List.take_zero] at hne
    exact hne rfl
  rcases numeral_take htok hlen (by omega) with ⟨hnone, -⟩ | ⟨z', hz', hle⟩
  · rw [hnone] at hv
    simp at hv
  · rw [hz'] at hv
    obtain rfl := Option.some.inj hv
    rintro rfl
    -- zero has one digit
    have hzero : z' = 0 := by omega
    rw [hzero] at hlen
    exact absurd hlen (by decide)

/-! ## The texts that are spoilt by their last byte -/

section Spoilt

variable {text : Bytes}

/-- A number and its newline hold no NUL. -/
theorem nul_notMem_line {tok : Bytes} {z : ℤ} (htok : numeral? tok = some z) :
    ∀ c ∈ tok ++ [10], c ≠ 0 := by
  intro c hc
  rcases List.mem_append.mp hc with hc | hc
  · exact (mem_numeral htok c hc).1
  · rw [List.mem_singleton.mp hc]
    decide

theorem numeral?_of_newline {a b : Bytes} : numeral? (a ++ 10 :: b) = none := by
  by_contra hne
  obtain ⟨z, hz⟩ := Option.ne_none_iff_exists'.mp hne
  exact (mem_numeral hz 10 (by simp)).2 rfl

theorem Spoilt.rejected (h : Spoilt text) : kstrtol (cString text) = none := by
  cases h with
  | @stray tok z c htok _ hnul hnewline hdigit =>
    have hstr := cString_concat (fun d hd => (mem_numeral htok d hd).1) hnul
    have hnone : numeral? (tok ++ [c]) = none := by
      by_contra hne
      obtain ⟨z', hz'⟩ := Option.ne_none_iff_exists'.mp hne
      have hlast := isDigit_getLast_numeral hz' c List.getLast?_concat
      rw [hdigit] at hlast
      exact Bool.false_ne_true hlast
    rw [hstr, kstrtol, if_neg (by simpa using hnewline), hnone, Option.filter_none]
  | @tooLong tok z z' c _ _ hz' hrange =>
    have hstr : cString (tok ++ [c]) = tok ++ [c] :=
      cString_eq_self fun d hd => (mem_numeral hz' d hd).1
    have hlast : c ≠ 10 := (mem_numeral hz' c (by simp)).2
    rw [hstr, kstrtol, if_neg (by simpa using hlast), hz',
      Option.filter_some_neg (by simpa using hrange)]
  | @afterNewline tok z c htok _ hnul =>
    have hstr := cString_concat (nul_notMem_line htok) hnul
    -- a newline is left, with or without the last byte
    have hnone : numeral? (tok ++ [10]) = none := numeral?_of_newline
    have hnone' : numeral? (tok ++ [10] ++ [c]) = none := by
      rw [List.append_assoc]
      exact numeral?_of_newline
    rw [hstr, kstrtol]
    by_cases hlast : c = 10
    · rw [if_pos (by simpa using hlast), List.dropLast_concat, hnone, Option.filter_none]
    · rw [if_neg (by simpa using hlast), hnone', Option.filter_none]

/-- Without its last byte, a spoilt text is a number that is accepted. -/
theorem Spoilt.accepted (h : Spoilt text) : kstrtol (cString text.dropLast) ≠ none := by
  obtain ⟨z, hz⟩ : ∃ z, kstrtol (cString text.dropLast) = some z := by
    cases h with
    | @stray tok z c htok hz _ _ _ =>
      rw [List.dropLast_concat, cString_eq_self fun d hd => (mem_numeral htok d hd).1]
      exact ⟨z, kstrtol_numeral htok hz⟩
    | @tooLong tok z z' c htok hz _ _ =>
      rw [List.dropLast_concat, cString_eq_self fun d hd => (mem_numeral htok d hd).1]
      exact ⟨z, kstrtol_numeral htok hz⟩
    | @afterNewline tok z c htok hz _ =>
      rw [List.dropLast_concat, cString_eq_self (nul_notMem_line htok)]
      exact ⟨z, kstrtol_eq_some_iff.mpr ⟨tok, htok, hz, Or.inr rfl⟩⟩
  rw [hz]
  simp

/-- A NUL in front of the last byte, or in its place, hides that byte from `kstrtol`. -/
theorem nul_free_of_kstrtol_ne {t : Bytes} {c : UInt8} {z : ℤ} (hz : kstrtol (cString t) = some z)
    (hreject : kstrtol (cString (t ++ [c])) = none) : (∀ d ∈ t, d ≠ 0) ∧ c ≠ 0 := by
  have hfree : ∀ d ∈ t, d ≠ 0 := by
    by_contra hmem
    have hstr : cString (t ++ [c]) = cString t := by
      rw [cString, cString, List.takeWhile_append, if_neg]
      intro hlength
      have hinitial : t.takeWhile (· ≠ 0) <+: t := List.takeWhile_prefix _
      have hself := hinitial.eq_of_length hlength
      refine hmem fun d hd => ?_
      simpa using List.takeWhile_eq_self_iff.mp hself d hd
    rw [hstr, hz] at hreject
    simp at hreject
  refine ⟨hfree, ?_⟩
  rintro rfl
  have hstr : cString (t ++ [0]) = t := takeWhile_append_of_head (by simpa using hfree) (by simp)
  rw [hstr, ← cString_eq_self hfree, hz] at hreject
  simp at hreject

/-- The last byte of a text makes a difference to `kstrtol` only if the text is spoilt. -/
theorem spoilt_of_rejected (hreject : kstrtol (cString text) = none)
    (haccept : kstrtol (cString text.dropLast) ≠ none) : Spoilt text := by
  obtain ⟨z, hz⟩ := Option.ne_none_iff_exists'.mp haccept
  rcases List.eq_nil_or_concat text with rfl | ⟨t, c, rfl⟩
  · exact absurd hreject haccept
  rw [List.concat_eq_append] at *
  rw [List.dropLast_concat] at hz
  have hnul := nul_free_of_kstrtol_ne hz hreject
  rw [cString_concat hnul.1 hnul.2] at hreject
  rw [cString_eq_self hnul.1] at hz
  obtain ⟨tok, htok, hrange, rfl | rfl⟩ := kstrtol_eq_some_iff.mp hz
  · have hnewline : c ≠ 10 := by
      rintro rfl
      rw [kstrtol_eq_some_iff.mpr ⟨t, htok, hrange, Or.inr rfl⟩] at hreject
      simp at hreject
    by_cases hdigit : isDigit c = true
    · obtain ⟨z', hz'⟩ := numeral_concat htok hdigit
      refine .tooLong htok hrange hz' fun hrange' => ?_
      rw [kstrtol_numeral hz' hrange'] at hreject
      simp at hreject
    · exact .stray htok hrange hnul.2 hnewline (by simpa using hdigit)
  · exact .afterNewline htok hrange hnul.2

end Spoilt

/-! ## The texts that are taken as they were written -/

section Selects

variable {buf : CharArray 50} {text : Bytes}

/-- A number without a newline is not selected. -/
theorem SelectsPid.ne_decimal (h : SelectsPid buf text) (hpos : 1 ≤ text.length)
    (hle : text.length ≤ 50) {n : ℤ} (hn : LongRange n) : text ≠ decimal n := by
  rintro rfl
  have hstr : cString (decimal n).dropLast = (decimal n).dropLast :=
    cString_eq_self fun c hc => (mem_numeral (numeral?_decimal n) c (List.dropLast_subset _ hc)).1
  obtain ⟨s', hs', hselect, -⟩ := h ⟨n + 1, 0⟩
  rw [myWrite_eq buf hpos hle, hstr] at hs'
  obtain ⟨rfl, -⟩ := Prod.mk.inj (Option.some.inj hs')
  have hcur := hselect n hn (Or.inl rfl)
  cases hv : kstrtol (decimal n).dropLast with
  | none => simp [hv] at hcur
  | some v =>
    simp only [hv, Option.getD_some] at hcur
    exact kstrtol_dropLast_decimal hv hcur

/-- A text that should be rejected is rejected without its last byte. -/
theorem SelectsPid.rejects (h : SelectsPid buf text) (hpos : 1 ≤ text.length)
    (hle : text.length ≤ 50) (hnone : kstrtol (cString text) = none) :
    kstrtol (cString text.dropLast) = none := by
  cases hv : kstrtol (cString text.dropLast) with
  | none => rfl
  | some v =>
    obtain ⟨s', hs', -, hkeep⟩ := h ⟨v + 1, 0⟩
    rw [myWrite_eq buf hpos hle] at hs'
    obtain ⟨rfl, -⟩ := Prod.mk.inj (Option.some.inj hs')
    have hcur := hkeep hnone
    simp [hv] at hcur

theorem selectsPid_of (hpos : 1 ≤ text.length)
    (hle : text.length ≤ 50) (hbare : ∀ n, LongRange n → text ≠ decimal n)
    (hreject : kstrtol (cString text) = none → kstrtol (cString text.dropLast) = none) :
    SelectsPid buf text := by
  intro s
  refine ⟨_, myWrite_eq buf hpos hle s, fun n hn htext => ?_,
    fun hnone => by rw [hreject hnone]; rfl⟩
  rcases htext with rfl | rfl
  · exact absurd rfl (hbare n hn)
  · have htok := numeral?_decimal n
    simp only [List.dropLast_concat, cString_eq_self fun c hc => (mem_numeral htok c hc).1,
      kstrtol_numeral htok hn, Option.getD_some]

end Selects

/-- What `echo` writes: a line that ends in one newline. -/
theorem selectsPid_echo (buf : CharArray 50) {line : Bytes} (hnul : ∀ c ∈ line, c ≠ 0)
    (hlast : line.getLast? ≠ some 10) (hle : line.length ≤ 49) : SelectsPid buf (line ++ [10]) := by
  have hlength : (line ++ [10]).length = line.length + 1 := List.length_append
  refine selectsPid_of (by omega) (by omega) ?_ ?_
  · intro n _ hline
    have hmem : (10 : UInt8) ∈ decimal n := by simp [← hline]
    exact (mem_numeral (numeral?_decimal n) 10 hmem).2 rfl
  · rw [cString_concat hnul (by decide), List.dropLast_concat, cString_eq_self hnul, kstrtol,
      kstrtol, if_neg hlast]
    simp

/-- A text selects what it says, whatever `cur_proc` was before, exactly if it is no number without
a newline, and no number that is spoilt by one more byte. -/
theorem selectsPid_iff (buf : CharArray 50) (text : Bytes) (hpos : 1 ≤ text.length)
    (hle : text.length ≤ 49) :
    SelectsPid buf text ↔ (∀ n, LongRange n → text ≠ decimal n) ∧ ¬ Spoilt text := by
  constructor
  · intro h
    refine ⟨fun n hn => h.ne_decimal hpos (by omega) hn, fun hspoilt => ?_⟩
    exact hspoilt.accepted (h.rejects hpos (by omega) hspoilt.rejected)
  · rintro ⟨hbare, hspoilt⟩
    refine selectsPid_of hpos (by omega) hbare fun hreject => ?_
    by_contra haccept
    exact hspoilt (spoilt_of_rejected hreject haccept)

theorem selectsPid_iff_seven :
    (1 ≤ [55, 10].length ∧ [55, 10].length ≤ 49) ∧ SelectsPid (.zero 50) [55, 10] := by
  refine ⟨⟨by decide, by decide⟩, (selectsPid_iff _ _ (by decide) (by decide)).mpr ⟨?_, ?_⟩⟩
  · intro n _ htext
    exact (mem_numeral (numeral?_decimal n) 10 (by simp [← htext])).2 rfl
  · intro hspoilt
    have hsome : kstrtol (cString [55, 10]) = some 7 := by decide
    rw [hspoilt.rejected] at hsome
    simp at hsome

/-- Without a newline, 12 selects process 1. The text `5x` is no number, and selects process 5. -/
theorem not_selectsPid_twelve :
    (LongRange 12 ∧ ascii "12" = decimal 12 ∧
      myWrite (.zero 50) (ascii "12") ⟨-1, 0⟩ = some (⟨1, 0⟩, 2) ∧
      ¬ SelectsPid (.zero 50) (ascii "12")) ∧
    kstrtol (cString (ascii "5x")) = none ∧
      myWrite (.zero 50) (ascii "5x") ⟨-1, 0⟩ = some (⟨5, 0⟩, 2) ∧
      ¬ SelectsPid (.zero 50) (ascii "5x") := by
  have htwelve : LongRange 12 := ⟨by decide, by decide⟩
  have hdecimal : ascii "12" = decimal 12 := by decide
  refine ⟨⟨htwelve, hdecimal, rfl, fun h => ?_⟩, rfl, rfl, fun h => ?_⟩
  · exact h.ne_decimal (by decide) (by decide) htwelve hdecimal
  · have hnone := h.rejects (by decide) (by decide) rfl
    have hsome : kstrtol (cString (ascii "5x").dropLast) = some 5 := by decide
    rw [hsome] at hnone
    simp at hnone

end SchoolOS.ProcInfo
