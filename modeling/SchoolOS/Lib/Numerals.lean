import SchoolOS.Lib.Stdio
import Mathlib.Data.List.DropRight

/-!
# Texts of numbers

`numeral?` is the value of a decimal numeral. `Numbers sep s zs` says that the text `s` consists of
the numerals `zs`, each followed by a separator or by the end of the text. `scanInts` is a `fscanf`
of several `%d`; it reads the numbers of such a text one after the other, also when the text is
followed by something else (`scanInts_numbers`).
-/

namespace SchoolOS

/-! ## Numerals -/

/-- An optional sign. -/
def IsSign (sign : Bytes) : Prop := sign = [] ∨ sign = [43] ∨ sign = [45]

/-- The value of a number with a sign. -/
def signed (sign : Bytes) (v : ℕ) : ℤ := if sign = [45] then -(v : ℤ) else v

theorem natAbs_signed (sign : Bytes) (v : ℕ) : (signed sign v).natAbs = v := by
  unfold signed
  split
  · omega
  · omega

/-- The value of a decimal numeral: an optional sign and at least one digit. -/
def numeral? (s : Bytes) : Option ℤ :=
  let (negative, ds) := scanSign s
  if ds ≠ [] ∧ ds.all isDigit = true then
    some (if negative then -(digitsValue ds : ℤ) else digitsValue ds)
  else none

theorem scanSign_append {sign r : Bytes} (hsign : IsSign sign)
    (hr : ∀ c ∈ r.head?, isDigit c = true) : scanSign (sign ++ r) = (decide (sign = [45]), r) := by
  rcases hsign with rfl | rfl | rfl
  · cases r with
    | nil => rfl
    | cons c r =>
      have hc : isDigit c = true := hr c rfl
      have h45 : c ≠ 45 := by rintro rfl; simp [isDigit] at hc
      have h43 : c ≠ 43 := by rintro rfl; simp [isDigit] at hc
      simp [scanSign, h45, h43]
  · rfl
  · rfl

/-- A sign is read off in front of what follows. -/
theorem exists_of_scanSign {s r : Bytes} {negative : Bool} (h : scanSign s = (negative, r)) :
    ∃ sign, IsSign sign ∧ s = sign ++ r ∧ negative = decide (sign = [45]) := by
  cases s with
  | nil =>
    obtain ⟨rfl, rfl⟩ := Prod.mk.inj h
    exact ⟨[], Or.inl rfl, rfl, rfl⟩
  | cons c s =>
    simp only [scanSign] at h
    split at h
    · obtain ⟨rfl, rfl⟩ := Prod.mk.inj h
      exact ⟨[45], Or.inr (Or.inr rfl), by simp [*], rfl⟩
    · split at h
      · obtain ⟨rfl, rfl⟩ := Prod.mk.inj h
        exact ⟨[43], Or.inr (Or.inl rfl), by simp [*], rfl⟩
      · obtain ⟨rfl, rfl⟩ := Prod.mk.inj h
        exact ⟨[], Or.inl rfl, rfl, rfl⟩

/-- The parts of a numeral. -/
theorem numeral?_eq_some_iff {s : Bytes} {z : ℤ} :
    numeral? s = some z ↔ ∃ sign ds, IsSign sign ∧ ds ≠ [] ∧ (∀ c ∈ ds, isDigit c = true) ∧
      s = sign ++ ds ∧ z = signed sign (digitsValue ds) := by
  constructor
  · intro h
    rcases hscan : scanSign s with ⟨negative, ds⟩
    obtain ⟨sign, hsign, rfl, rfl⟩ := exists_of_scanSign hscan
    simp only [numeral?, hscan] at h
    split at h
    · rename_i hds
      refine ⟨sign, ds, hsign, hds.1, List.all_eq_true.mp hds.2, rfl, ?_⟩
      simpa [signed] using (Option.some.inj h).symm
    · simp at h
  · rintro ⟨sign, ds, hsign, hne, hds, rfl, rfl⟩
    have hscan := scanSign_append hsign (r := ds) fun c hc => hds c (List.mem_of_mem_head? hc)
    simp only [numeral?, hscan]
    rw [if_pos ⟨hne, List.all_eq_true.mpr hds⟩]
    simp [signed]

theorem isSpace_of_mem_sign {sign : Bytes} (h : IsSign sign) : ∀ c ∈ sign, isSpace c = false := by
  rcases h with rfl | rfl | rfl
  · simp
  · exact List.forall_mem_singleton.mpr rfl
  · exact List.forall_mem_singleton.mpr rfl

section Numeral

variable {tok : Bytes} {z : ℤ} (h : numeral? tok = some z)

include h

theorem numeral_ne_nil : tok ≠ [] := by
  obtain ⟨sign, ds, -, hne, -, rfl, -⟩ := numeral?_eq_some_iff.mp h
  simp [hne]

/-- A numeral holds no white space. -/
theorem isSpace_of_mem_numeral : ∀ c ∈ tok, isSpace c = false := by
  obtain ⟨sign, ds, hsign, -, hds, rfl, -⟩ := numeral?_eq_some_iff.mp h
  intro c hc
  rcases List.mem_append.mp hc with hc | hc
  · exact isSpace_of_mem_sign hsign c hc
  · exact isSpace_of_isDigit (hds c hc)

/-- A numeral holds no NUL and no newline. -/
theorem mem_numeral : ∀ c ∈ tok, c ≠ 0 ∧ c ≠ 10 := by
  obtain ⟨sign, ds, hsign, -, hds, rfl, -⟩ := numeral?_eq_some_iff.mp h
  intro c hc
  rcases List.mem_append.mp hc with hc | hc
  · rcases hsign with rfl | rfl | rfl
    · simp at hc
    · rw [List.mem_singleton.mp hc]
      decide
    · rw [List.mem_singleton.mp hc]
      decide
  · have hdigit := hds c hc
    constructor
    · rintro rfl
      exact Bool.false_ne_true hdigit
    · rintro rfl
      exact Bool.false_ne_true hdigit

/-- A numeral ends in a digit. -/
theorem isDigit_getLast_numeral : ∀ c ∈ tok.getLast?, isDigit c = true := by
  obtain ⟨sign, ds, -, hne, hds, rfl, -⟩ := numeral?_eq_some_iff.mp h
  intro c hc
  rw [List.getLast?_append_of_ne_nil _ hne] at hc
  exact hds c (List.mem_of_getLast? hc)

theorem numeral_concat {c : UInt8} (hc : isDigit c = true) :
    ∃ z', numeral? (tok ++ [c]) = some z' := by
  obtain ⟨sign, ds, hsign, -, hds, rfl, -⟩ := numeral?_eq_some_iff.mp h
  refine ⟨_, numeral?_eq_some_iff.mpr ⟨sign, ds ++ [c], hsign, by simp, ?_, by simp, rfl⟩⟩
  intro d hd
  rcases List.mem_append.mp hd with hd | hd
  · exact hds d hd
  · exact List.mem_singleton.mp hd ▸ hc

/-- `%d` reads a numeral whole, up to a byte that is no digit. -/
theorem scanInt_numeral {ws rest : Bytes} (hws : ∀ c ∈ ws, isSpace c = true)
    (hrest : ∀ c ∈ rest.head?, isDigit c = false) :
    scanInt (ws ++ (tok ++ rest)) = (some z, rest) := by
  have hspace := isSpace_of_mem_numeral h
  have hne := numeral_ne_nil h
  obtain ⟨sign, ds, hsign, hne', hds, rfl, rfl⟩ := numeral?_eq_some_iff.mp h
  have hskip : (ws ++ (sign ++ ds ++ rest)).dropWhile isSpace = sign ++ (ds ++ rest) := by
    rw [dropWhile_append_of_head hws, List.append_assoc]
    obtain ⟨c, r, hc⟩ := List.exists_cons_of_ne_nil hne
    rw [hc] at hspace ⊢
    simpa using hspace c (by simp)
  have hhead : ∀ c ∈ (ds ++ rest).head?, isDigit c = true := by
    obtain ⟨c, r, rfl⟩ := List.exists_cons_of_ne_nil hne'
    simpa using hds c (by simp)
  simp only [scanInt, hskip, scanSign_append hsign hhead, takeWhile_append_of_head hds hrest,
    dropWhile_append_of_head hds hrest]
  rw [if_neg hne']
  simp [signed]

end Numeral

theorem numeral?_decimal (z : ℤ) : numeral? (decimal z) = some z := by
  rw [numeral?_eq_some_iff]
  refine ⟨if z < 0 then [45] else [], natDecimal z.natAbs, ?_, natDecimal_ne_nil _,
    fun c hc => isDigit_of_mem_natDecimal hc, ?_, ?_⟩
  · split
    · exact Or.inr (Or.inr rfl)
    · exact Or.inl rfl
  · unfold decimal
    split
    · rfl
    · rfl
  · rw [digitsValue_natDecimal, signed]
    split
    · rw [if_pos rfl]
      omega
    · rw [if_neg (by simp)]
      omega

theorem SpaceNext.isDigit_eq_false {s : Bytes} (h : SpaceNext s) :
    ∀ c ∈ s.head?, isDigit c = false := by
  intro c hc
  have hspace := h c hc
  by_contra hd
  rw [isSpace_of_isDigit (by simpa using hd)] at hspace
  exact Bool.false_ne_true hspace

/-- `%d` reads back what `%d` printed. -/
theorem scanInt_decimal {ws rest : Bytes} (z : ℤ) (hws : ∀ c ∈ ws, isSpace c = true)
    (hrest : SpaceNext rest) : scanInt (ws ++ (decimal z ++ rest)) = (some z, rest) :=
  scanInt_numeral (numeral?_decimal z) hws hrest.isDigit_eq_false

/-! ## Texts of numbers -/

/-- The text consists of numerals, each followed by a separator or by the end of the text. -/
inductive Numbers (sep : UInt8 → Bool) : Bytes → List ℤ → Prop
  | nil {ws : Bytes} : (∀ c ∈ ws, sep c = true) → Numbers sep ws []
  | cons {ws tok s : Bytes} {z : ℤ} {zs : List ℤ} : (∀ c ∈ ws, sep c = true) →
    numeral? tok = some z → (∀ c ∈ s.head?, sep c = true) → Numbers sep s zs →
    Numbers sep (ws ++ (tok ++ s)) (z :: zs)

/-- What follows the text `pre` does not go on with its last numeral. -/
def Apart (sep : UInt8 → Bool) (pre rest : Bytes) : Prop :=
  ∀ c ∈ rest.head?, isDigit c = true → ∀ d ∈ pre.getLast?, sep d = true

/-- A `fscanf` with `k` conversions `%d` and white space at the end of its format: the numbers that
are converted, and the unread rest. -/
def scanInts : ℕ → Bytes → List ℤ × Bytes
  | 0, s => ([], s.dropWhile isSpace)
  | k + 1, s =>
    match scanInt s with
    | (none, rest) => ([], rest)
    | (some z, rest) => (z :: (scanInts k rest).1, (scanInts k rest).2)

theorem scanInts_dropWhile (k : ℕ) (s : Bytes) :
    scanInts k (s.dropWhile isSpace) = scanInts k s := by
  have hidem : (s.dropWhile isSpace).dropWhile isSpace = s.dropWhile isSpace :=
    List.dropWhile_idempotent isSpace s
  cases k with
  | zero => simp only [scanInts, hidem]
  | succ k => simp only [scanInts, scanInt, hidem]

section Texts

variable {sep : UInt8 → Bool} {pre rest : Bytes} {zs ys : List ℤ}

theorem Numbers.append_sep {c : UInt8} (h : Numbers sep pre zs) (hc : sep c = true) :
    Numbers sep (pre ++ [c]) zs := by
  induction h with
  | nil hws =>
    refine .nil fun d hd => ?_
    rcases List.mem_append.mp hd with hd | hd
    · exact hws d hd
    · exact List.mem_singleton.mp hd ▸ hc
  | @cons ws tok s z zs hws htok hs _ ih =>
    rw [List.append_assoc, List.append_assoc]
    refine .cons hws htok (fun d hd => ?_) ih
    cases s with
    | nil => exact Option.some.inj hd ▸ hc
    | cons e s => exact hs d hd

/-- A digit behind the last numeral is part of it. -/
theorem Numbers.append_digit {c : UInt8} (h : Numbers sep pre zs) (hc : isDigit c = true)
    (hlast : ¬ ∀ d ∈ pre.getLast?, sep d = true) :
    ∃ zs', zs'.length = zs.length ∧ Numbers sep (pre ++ [c]) zs' := by
  induction h with
  | nil hws => exact absurd (fun d hd => hws d (List.mem_of_getLast? hd)) hlast
  | @cons ws tok s z zs hws htok hs hnum ih =>
    cases s with
    | nil =>
      obtain ⟨z', hz'⟩ := numeral_concat htok hc
      refine ⟨z' :: zs, rfl, ?_⟩
      have hcons := Numbers.cons hws hz' hs hnum
      rw [List.append_nil] at hcons ⊢
      rwa [List.append_assoc]
    | cons e s =>
      rw [← List.append_assoc, List.getLast?_append_of_ne_nil _ (by simp)] at hlast
      obtain ⟨zs', hlength, hnum'⟩ := ih hlast
      refine ⟨z :: zs', by simp [hlength], ?_⟩
      rw [List.append_assoc, List.append_assoc]
      exact .cons hws htok (fun d hd => hs d hd) hnum'

theorem Numbers.of_nil (h : Numbers sep pre []) : ∀ c ∈ pre, sep c = true := by
  cases h with
  | nil hws => exact hws

variable (hsep : ∀ c, sep c = true → isSpace c = true)

include hsep

theorem isDigit_eq_false_of_sep {c : UInt8} (hc : sep c = true) : isDigit c = false := by
  by_contra hd
  have hspace := hsep c hc
  rw [isSpace_of_isDigit (by simpa using hd)] at hspace
  exact Bool.false_ne_true hspace

theorem not_sep_of_mem_numeral {tok : Bytes} {z : ℤ} (h : numeral? tok = some z) :
    ∀ c ∈ tok, sep c = false := by
  intro c hc
  by_contra hcontra
  have hspace := hsep c (by simpa using hcontra)
  rw [isSpace_of_mem_numeral h c hc] at hspace
  exact Bool.false_ne_true hspace

/-- The first numeral of a text ends where the text goes on. -/
theorem Apart.tail {ws tok s : Bytes} {z : ℤ} (h : Apart sep (ws ++ (tok ++ s)) rest)
    (htok : numeral? tok = some z) (hs : ∀ c ∈ s.head?, sep c = true) :
    (∀ c ∈ (s ++ rest).head?, isDigit c = false) ∧ Apart sep s rest := by
  cases s with
  | nil =>
    refine ⟨fun c hc => ?_, fun c _ _ d hd => by simp at hd⟩
    by_contra hdigit
    obtain ⟨d, hd⟩ : ∃ d, tok.getLast? = some d :=
      ⟨_, List.getLast?_eq_some_getLast (numeral_ne_nil htok)⟩
    have hlast : (ws ++ (tok ++ [])).getLast? = some d := by
      rw [List.append_nil, List.getLast?_append_of_ne_nil _ (numeral_ne_nil htok), hd]
    have hspace := h c hc (by simpa using hdigit) d hlast
    have hfalse := isDigit_eq_false_of_sep hsep hspace
    rw [isDigit_getLast_numeral htok d hd] at hfalse
    exact Bool.false_ne_true hfalse.symm
  | cons e s =>
    refine ⟨fun c hc => ?_, fun c hc hdigit d hd => h c hc hdigit d ?_⟩
    · exact isDigit_eq_false_of_sep hsep (hs c hc)
    · rwa [← List.append_assoc, List.getLast?_append_of_ne_nil _ (by simp)]

theorem Numbers.scanInt_append {ws tok s : Bytes} {z : ℤ} (hws : ∀ c ∈ ws, sep c = true)
    (htok : numeral? tok = some z) (hrest : ∀ c ∈ (s ++ rest).head?, isDigit c = false) :
    scanInt (ws ++ (tok ++ s) ++ rest) = (some z, s ++ rest) := by
  rw [List.append_assoc, List.append_assoc]
  exact scanInt_numeral htok (fun c hc => hsep c (hws c hc)) hrest

/-- Reading the first numbers of a text. -/
theorem scanInts_numbers (h : Numbers sep pre (zs ++ ys)) (hapart : Apart sep pre rest) :
    ∃ pre', Numbers sep pre' ys ∧ Apart sep pre' rest ∧
      scanInts zs.length (pre ++ rest) = (zs, (pre' ++ rest).dropWhile isSpace) := by
  induction zs generalizing pre with
  | nil => exact ⟨pre, h, hapart, rfl⟩
  | cons z zs ih =>
    obtain _ | ⟨hws, htok, hs, hnum⟩ := h
    obtain ⟨hdigit, hapart'⟩ := hapart.tail hsep htok hs
    obtain ⟨pre', hnum', hapart', hscan⟩ := ih hnum hapart'
    refine ⟨pre', hnum', hapart', ?_⟩
    rw [List.length_cons, scanInts, Numbers.scanInt_append hsep hws htok hdigit]
    simp only [hscan]

/-- More conversions than there are numbers read them all. -/
theorem Numbers.scanInts_add (h : Numbers sep pre zs) (k : ℕ) :
    scanInts (zs.length + (k + 1)) pre = (zs, []) := by
  induction h with
  | nil hws =>
    rw [List.length_nil, Nat.zero_add, scanInts, scanInt_end fun c hc => hsep c (hws c hc)]
  | @cons ws tok s z zs hws htok hs _ ih =>
    have hdigit : ∀ c ∈ s.head?, isDigit c = false :=
      fun c hc => isDigit_eq_false_of_sep hsep (hs c hc)
    rw [List.length_cons, Nat.add_right_comm, scanInts,
      scanInt_numeral htok (fun c hc => hsep c (hws c hc)) hdigit]
    simp only [ih]

end Texts

end SchoolOS
