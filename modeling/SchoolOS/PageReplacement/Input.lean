import SchoolOS.Lib.Words
import SchoolOS.PageReplacement.Defs

/-!
# Reading the reference string

Reference: `Assignment4-2/page_replacement_simulator.c`, `main`.

`main` reads the number of frames with `fscanf`, one line with `fgets`, and the pages on it with a
loop over `strtok`. The line buffer is filled by one `fgets`, so it holds the first `MAX_SIZE*5-1`
bytes of a line, whatever they are. The array `string` has room for `MAX_SIZE` pages, while the
buffer can hold up to 2500. The whole string is read exactly if it has no more than `MAX_SIZE` pages
and the line is not cut before or inside its last number (`readInput_iff`).
-/

namespace SchoolOS.PageReplacement

open Loop

/-- The delimiters `" \n"`. -/
def isDelim (c : UInt8) : Bool := c = 32 || c = 10

/-- The locals of the loop over the tokens. `ptr` is the token that `strtok` has returned, with the
place where it goes on. -/
structure Parse where
  string : CArray MAX_SIZE
  len : ℤ
  ptr : Option (Bytes × Bytes)

/-- `string[len++] = atoi(ptr); ptr = strtok(NULL, " \n");` -/
def Parse.next (s : Parse) : Option Parse := do
  let (tok, rest) ← s.ptr
  let string ← s.string.set? s.len (atoi tok)
  some ⟨string, s.len + 1, strtok isDelim rest⟩

/-- The loop `while (ptr != NULL)`. -/
def parse (fuel : ℕ) (s : Parse) : Option Parse :=
  whileLoop (fun s => s.ptr.isSome) Parse.next fuel s

/-- What `main` gives to the simulators. -/
structure Input where
  max : ℤ
  string : CArray MAX_SIZE
  len : ℤ

/-- `string[0]`, …, `string[len-1]`. -/
def Input.pages (r : Input) : List ℤ := r.string.cells.take r.len.toNat

/-- The input of `main`, with the contents of the uninitialised array. A file without a number
leaves `max` unset, and one that ends behind it leaves `buf` unset. -/
def readInput (arr : CArray MAX_SIZE) (file : Bytes) (fuel : ℕ) : Option Input := do
  let (converted, rest) := scanInts 1 file
  let max ← converted.head?
  let (buf, _) ← fgets (MAX_SIZE * 5) rest
  let s ← parse fuel ⟨arr, 0, strtok isDelim (buf.takeWhile (· ≠ 0))⟩
  some ⟨max, s.string, s.len⟩

/-! ## The loop over the tokens -/

section Tokens

variable {arr : CArray MAX_SIZE} {text : Bytes} {values : List ℤ} {s : Parse}

/-- The words that the loop has not read yet. -/
def Parse.unread (s : Parse) : List Bytes := s.ptr.elim [] fun p => p.1 :: words isDelim p.2

/-- The values that have been stored are those of the words read so far. -/
def Parse.Stored (s : Parse) (values : List ℤ) : Prop :=
  ∃ l, s.string.Holds l ∧ s.len = l.length ∧ l ++ s.unread.map atoi = values

theorem Parse.unread_start (arr : CArray MAX_SIZE) (len : ℤ) (text : Bytes) :
    Parse.unread ⟨arr, len, strtok isDelim text⟩ = words isDelim text := by
  obtain ⟨hnone, hsome⟩ := strtok_words isDelim text
  cases hptr : strtok isDelim text with
  | none => exact (hnone hptr).symm
  | some p => exact (hsome p.1 p.2 hptr).symm

/-- The body stores the value of the next word, if there is room for it. -/
theorem Parse.next_spec (h : s.Stored values) (hptr : s.ptr.isSome = true) :
    (∀ s', s.next = some s' → s'.Stored values ∧ s'.unread.length < s.unread.length) ∧
    (values.length ≤ MAX_SIZE → ∃ s', s.next = some s') := by
  obtain ⟨⟨tok, rest⟩, hp⟩ := Option.isSome_iff_exists.mp hptr
  obtain ⟨l, hholds, hlen, hvalues⟩ := h
  have hunread : s.unread = tok :: words isDelim rest := by simp [Parse.unread, hp]
  have hnext : s.next =
      (s.string.set? l.length (atoi tok)).map fun a => ⟨a, s.len + 1, strtok isDelim rest⟩ := by
    simp only [Parse.next, hp, hlen, Option.bind_eq_bind, Option.bind_some]
    rw [Option.map_eq_bind]
    rfl
  by_cases hlt : l.length < MAX_SIZE
  · obtain ⟨a, hset, hholds'⟩ := hholds.concat hlt (atoi tok)
    rw [hnext, hset, Option.map_some]
    refine ⟨?_, fun _ => ⟨_, rfl⟩⟩
    rintro _ ⟨⟩
    refine ⟨⟨l ++ [atoi tok], hholds', by simp [hlen], ?_⟩, ?_⟩
    · rw [Parse.unread_start, ← hvalues, hunread]
      simp
    · rw [Parse.unread_start, hunread]
      simp
  · have hnone : s.string.set? l.length (atoi tok) = none := if_neg (by omega)
    rw [hnext, hnone]
    refine ⟨fun s' hs' => by simp at hs', fun hle => absurd hle ?_⟩
    rw [← hvalues, hunread, List.length_append, List.length_map, List.length_cons]
    omega

theorem Parse.Stored.done (h : s.Stored values) (hptr : s.ptr.isSome = false) :
    s.string.Holds values ∧ s.len = values.length := by
  obtain ⟨l, hholds, hlen, hvalues⟩ := h
  have hnone : s.ptr = none := Option.not_isSome_iff_eq_none.mp (by simp [hptr])
  have hnil : s.unread = [] := by simp [Parse.unread, hnone]
  rw [hnil, List.map_nil, List.append_nil] at hvalues
  exact ⟨hvalues ▸ hholds, hvalues ▸ hlen⟩

theorem Parse.stored_start (arr : CArray MAX_SIZE) (text : Bytes) :
    Parse.Stored ⟨arr, 0, strtok isDelim text⟩ ((words isDelim text).map atoi) :=
  ⟨[], List.take_zero, rfl, by rw [Parse.unread_start]; rfl⟩

/-- A loop that ends has stayed inside the array, and has stored the values of all words. -/
theorem parse_spec {fuel : ℕ} (h : parse fuel ⟨arr, 0, strtok isDelim text⟩ = some s) :
    (words isDelim text).length ≤ MAX_SIZE ∧
      s.string.cells.take s.len.toNat = (words isDelim text).map atoi := by
  obtain ⟨hstored, hptr⟩ := whileLoop_invariant
    (fun s : Parse => s.Stored ((words isDelim text).map atoi))
    (fun s s' hs hptr hnext => ((Parse.next_spec hs hptr).1 s' hnext).1)
    (Parse.stored_start arr text) h
  obtain ⟨hholds, hlen⟩ := hstored.done hptr
  rw [hlen, Int.toNat_natCast]
  exact ⟨by simpa using hholds.length_le, hholds⟩

/-- The loop ends if the array has room for all words. -/
theorem parse_returns (arr : CArray MAX_SIZE) (h : (words isDelim text).length ≤ MAX_SIZE) :
    ∃ s, Returns (fun fuel => parse fuel ⟨arr, 0, strtok isDelim text⟩) s := by
  obtain ⟨s, hrun, -, -⟩ := returns_whileLoop (fun s : Parse => s.ptr.isSome) Parse.next
    (fun s : Parse => s.Stored ((words isDelim text).map atoi)) (fun s => s.unread.length) (by
      intro s hs hptr
      obtain ⟨hkeep, hsome⟩ := Parse.next_spec hs hptr
      obtain ⟨s', hs'⟩ := hsome (by simpa using h)
      obtain ⟨hstored, hlt⟩ := hkeep s' hs'
      exact ⟨s', hs', hstored, hlt⟩) _ (Parse.stored_start arr text)
  exact ⟨s, hrun⟩

end Tokens

/-! ## The line -/

/-- The separator of the pages in a line. -/
def isBlank (c : UInt8) : Bool := c = 32

theorem isSpace_of_isBlank (c : UInt8) (h : isBlank c = true) : isSpace c = true := by
  have hc : c = 32 := by simpa [isBlank] using h
  rw [hc]
  rfl

/-- The number of frames, and the reference string in the next line that is not blank. White space
at the beginning of that line is part of `gap`. -/
structure InputFile (file line : Bytes) (numbers : List ℤ) : Prop where
  text : ∃ ws tok gap after max, file = ws ++ (tok ++ (gap ++ (line ++ after))) ∧
    (∀ c ∈ ws, isSpace c = true) ∧ numeral? tok = some max ∧ gap ≠ [] ∧
    (∀ c ∈ gap, isSpace c = true) ∧ ∀ c ∈ after.head?, c = 10
  first : ∀ c ∈ line.head?, isSpace c = false
  pages : Numbers isBlank line numbers
  ne_nil : numbers ≠ []
  range : ∀ z ∈ numbers, IntRange z

/-- The last number of the line ends within the first `n` bytes, or it begins there and is zero. -/
def Fits (n : ℕ) (line : Bytes) : Prop :=
  ∃ head tok ws z, line = head ++ (tok ++ ws) ∧ (∀ c ∈ head.getLast?, isBlank c = true) ∧
    numeral? tok = some z ∧ (∀ c ∈ ws, isBlank c = true) ∧
    (head.length + tok.length ≤ n ∨ z = 0 ∧ head.length < n)

section Line

variable {line : Bytes} {numbers : List ℤ} {n : ℕ}

/-- The bytes of a line of numbers. -/
theorem mem_line (h : Numbers isBlank line numbers) : ∀ c ∈ line, c ≠ 0 ∧ c ≠ 10 := by
  have hblank : ∀ {ws : Bytes}, (∀ c ∈ ws, isBlank c = true) → ∀ c ∈ ws, c ≠ 0 ∧ c ≠ 10 := by
    intro ws hws c hc
    have hc : c = 32 := by simpa [isBlank] using hws c hc
    rw [hc]
    decide
  induction h with
  | nil hws => exact hblank hws
  | @cons ws tok s z zs hws htok hs _ ih =>
    intro c hc
    rcases List.mem_append.mp hc with hc | hc
    · exact hblank hws c hc
    · rcases List.mem_append.mp hc with hc | hc
      · exact mem_numeral htok c hc
      · exact ih c hc

theorem values_of_words {ws : List Bytes} {zs : List ℤ} (h : ws.map numeral? = zs.map some)
    (hrange : ∀ z ∈ zs, IntRange z) : ws.map atoi = zs := by
  induction ws generalizing zs with
  | nil =>
    cases zs with
    | nil => rfl
    | cons z zs => simp at h
  | cons w ws ih =>
    cases zs with
    | nil => simp at h
    | cons z zs =>
      obtain ⟨hw, hws⟩ := List.cons.inj h
      rw [List.map_cons, atoi_numeral hw (hrange z (by simp)),
        ih hws fun z hz => hrange z (by simp [hz])]

/-- The words of a line that ends in a numeral. -/
theorem words_line {head tok ws : Bytes} {z : ℤ} (hhead : ∀ c ∈ head.getLast?, isBlank c = true)
    (htok : numeral? tok = some z) (hws : ∀ c ∈ ws, isBlank c = true) {j : ℕ} (hj : 0 < j) :
    words isBlank (head ++ (tok.take j ++ ws)) = words isBlank head ++ [tok.take j] := by
  have hne : tok.take j ≠ [] := by
    have := numeral_ne_nil htok
    simp [this]
    omega
  have hnot := not_sep_of_mem_numeral isSpace_of_isBlank htok
  rw [words_append_of_last hhead, words_append_of_head fun c hc => hws c (List.mem_of_mem_head? hc),
    words_of_sep hws, words_token hne fun c hc => hnot c (List.mem_of_mem_take hc), List.append_nil]

/-- A line whose last number fits is read completely. -/
theorem values_of_fits (h : Numbers isBlank line numbers) (hrange : ∀ z ∈ numbers, IntRange z)
    (hfits : Fits n line) : (words isBlank (line.take n)).map atoi = numbers := by
  obtain ⟨head, tok, ws, z, rfl, hhead, htok, hws, hpos⟩ := hfits
  have hlen : 0 < tok.length := List.length_pos_iff.mpr (numeral_ne_nil htok)
  have hwords := h.words isSpace_of_isBlank
  have hall := words_line hhead htok hws hlen
  rw [List.take_length] at hall
  rw [hall, List.map_append, List.map_singleton] at hwords
  obtain ⟨zs, zs', rfl, hzs, hzs'⟩ := List.map_eq_append_iff.mp hwords.symm
  obtain ⟨z', rfl⟩ : ∃ z', zs' = [z'] := List.length_eq_one_iff.mp (by
    simpa using congrArg List.length hzs')
  obtain rfl : z' = z := Option.some.inj ((List.cons.inj hzs').1.trans htok)
  have hz : IntRange z' := hrange z' (by simp)
  -- the part of the line that is kept
  have hcut : (head ++ (tok ++ ws)).take n =
      head ++ (tok.take (n - head.length) ++ ws.take (n - head.length - tok.length)) := by
    rw [List.take_append, List.take_of_length_le (by omega), List.take_append]
  have hvalue : atoi (tok.take (n - head.length)) = z' := by
    by_cases hfull : tok.length ≤ n - head.length
    · rw [List.take_of_length_le hfull, atoi_numeral htok hz]
    · exact (atoi_take_eq_iff htok hz (by omega) (by omega)).mpr (by omega)
  rw [hcut, words_line hhead htok (fun c hc => hws c (List.mem_of_mem_take hc)) (by omega),
    List.map_append, List.map_singleton, hvalue,
    values_of_words hzs.symm fun z hz => hrange z (by simp [hz])]

/-- The rest of a line behind its first number begins with a separator. -/
theorem Fits.cons {s tok : Bytes} (hs : ∀ c ∈ s.head?, isBlank c = true) (ws : Bytes)
    (hle : ws.length + tok.length ≤ n) (h : Fits (n - (ws.length + tok.length)) s) :
    Fits n (ws ++ (tok ++ s)) := by
  obtain ⟨head, tok', ws', z, rfl, hhead, htok', hws', hpos⟩ := h
  refine ⟨ws ++ (tok ++ head), tok', ws', z, by simp, ?_, htok', hws', ?_⟩
  · have hne : head ≠ [] := by
      rintro rfl
      obtain ⟨c, t, hc⟩ := List.exists_cons_of_ne_nil (numeral_ne_nil htok')
      have hsep := hs c (by simp [hc])
      have hnot := not_sep_of_mem_numeral isSpace_of_isBlank htok' c (by simp [hc])
      rw [hsep] at hnot
      exact Bool.false_ne_true hnot.symm
    rwa [← List.append_assoc, List.getLast?_append_of_ne_nil _ hne]
  · simp only [List.length_append]
    omega

/-- A line that is read completely has room for its last number. -/
theorem fits_of_values (h : Numbers isBlank line numbers) (hrange : ∀ z ∈ numbers, IntRange z)
    (hne : numbers ≠ []) (hvalues : (words isBlank (line.take n)).map atoi = numbers) :
    Fits n line := by
  induction h generalizing n with
  | nil hws => exact absurd rfl hne
  | @cons ws tok s z zs hws htok hs hnum ih =>
    obtain ⟨hz, hzs⟩ := List.forall_mem_cons.mp hrange
    have hhead : ∀ c ∈ ws.getLast?, isBlank c = true := fun c hc => hws c (List.mem_of_getLast? hc)
    by_cases hn : n ≤ ws.length
    · -- not even the first number begins
      rw [List.take_append_of_le_length hn,
        words_of_sep fun c hc => hws c (List.mem_of_mem_take hc)]
        at hvalues
      simp at hvalues
    · by_cases htokLen : n < ws.length + tok.length
      · -- the first number is cut
        have hcut : (ws ++ (tok ++ s)).take n = ws ++ (tok.take (n - ws.length) ++ []) := by
          rw [List.take_append, List.take_of_length_le (by omega),
            List.take_append_of_le_length (by omega), List.append_nil]
        rw [hcut, words_line hhead htok (by simp) (by omega), words_of_sep hws, List.nil_append,
          List.map_singleton] at hvalues
        obtain ⟨hvalue, rfl⟩ := List.cons.inj hvalues
        have hzero := (atoi_take_eq_iff htok hz (by omega) (by omega)).mp hvalue
        exact ⟨ws, tok, s, z, rfl, hhead, htok, hnum.of_nil, Or.inr ⟨hzero, by omega⟩⟩
      · -- the first number is kept
        have hcut : (ws ++ (tok ++ s)).take n =
            ws ++ (tok ++ s.take (n - (ws.length + tok.length))) := by
          rw [List.take_append, List.take_of_length_le (by omega), List.take_append,
            List.take_of_length_le (by omega), Nat.sub_sub]
        have hs' : ∀ c ∈ (s.take (n - (ws.length + tok.length))).head?, isBlank c = true := by
          intro c hc
          rw [List.head?_take] at hc
          split at hc
          · simp at hc
          · exact hs c hc
        rw [hcut, words_sep_append hws, words_append_of_head hs',
          words_token (numeral_ne_nil htok) (not_sep_of_mem_numeral isSpace_of_isBlank htok),
          List.singleton_append, List.map_cons] at hvalues
        obtain ⟨-, hvalues⟩ := List.cons.inj hvalues
        by_cases hzsNil : zs = []
        · subst hzsNil
          exact ⟨ws, tok, s, z, rfl, hhead, htok, hnum.of_nil, Or.inl (by omega)⟩
        · exact Fits.cons hs ws (by omega) (ih hzs hzsNil hvalues)

end Line

/-! ## The input of `main` -/

section Main

variable {file line : Bytes} {numbers : List ℤ}

theorem InputFile.line_ne_nil (h : InputFile file line numbers) : line ≠ [] := by
  rintro rfl
  have hlength := congrArg List.length (h.pages.words isSpace_of_isBlank)
  rw [List.length_map, List.length_map] at hlength
  exact h.ne_nil (List.length_eq_zero_iff.mp hlength.symm)

/-- `fscanf` stops in front of the line. -/
theorem InputFile.scan (h : InputFile file line numbers) :
    ∃ max after, scanInts 1 file = ([max], line ++ after) ∧ ∀ c ∈ after.head?, c = 10 := by
  obtain ⟨ws, tok, gap, after, max, rfl, hws, htok, hgap, hspace, hafter⟩ := h.text
  refine ⟨max, after, ?_, hafter⟩
  have hdigit : ∀ c ∈ (gap ++ (line ++ after)).head?, isDigit c = false := by
    obtain ⟨c, t, rfl⟩ := List.exists_cons_of_ne_nil hgap
    exact (SpaceNext.cons (hspace c (by simp))).isDigit_eq_false
  have hhead : ∀ c ∈ (line ++ after).head?, isSpace c = false := by
    obtain ⟨c, t, rfl⟩ := List.exists_cons_of_ne_nil h.line_ne_nil
    exact h.first
  rw [scanInts, scanInt_numeral htok hws hdigit]
  simp only [scanInts, dropWhile_append_of_head hspace hhead]

/-- The loop reads the words of the part of the line that fits into the buffer. -/
theorem readInput_eq (h : InputFile file line numbers) (arr : CArray MAX_SIZE) :
    ∃ max text, words isDelim text = words isBlank (line.take (MAX_SIZE * 5 - 1)) ∧
      ∀ fuel, readInput arr file fuel =
        (parse fuel ⟨arr, 0, strtok isDelim text⟩).map fun s => ⟨max, s.string, s.len⟩ := by
  obtain ⟨max, after, hscan, hafter⟩ := h.scan
  have hmem := mem_line h.pages
  obtain ⟨nl, hnl, htake⟩ := takeLine_line (fun hc => (hmem 10 hc).2 rfl) hafter (MAX_SIZE * 5 - 1)
  have hbuf : ∀ c ∈ line.take (MAX_SIZE * 5 - 1) ++ nl, c ≠ 0 := by
    intro c hc
    rcases List.mem_append.mp hc with hc | hc
    · exact (hmem c (List.mem_of_mem_take hc)).1
    · rw [hnl c hc]
      decide
  refine ⟨max, line.take (MAX_SIZE * 5 - 1) ++ nl, ?_, fun fuel => ?_⟩
  · have hsep : ∀ c ∈ nl, isDelim c = true := by
      intro c hc
      rw [hnl c hc]
      rfl
    rw [words_append_of_head fun c hc => hsep c (List.mem_of_mem_head? hc), words_of_sep hsep,
      List.append_nil]
    refine words_congr fun c hc => ?_
    have hne := (hmem c (List.mem_of_mem_take hc)).2
    simp [isDelim, isBlank, hne]
  · have hne : line ++ after ≠ [] := by simp [h.line_ne_nil]
    have hstr : (line.take (MAX_SIZE * 5 - 1) ++ nl).takeWhile (· ≠ 0) =
        line.take (MAX_SIZE * 5 - 1) ++ nl :=
      List.takeWhile_eq_self_iff.mpr fun c hc => by simpa using hbuf c hc
    simp only [readInput, hscan, fgets, if_neg hne, List.head?_cons, Option.bind_eq_bind,
      Option.bind_some, htake, hstr]
    rw [Option.map_eq_bind]
    rfl

/-- The numbers in the line are what the simulators get exactly if there are at most `MAX_SIZE` of
them, and the last one ends within the first `MAX_SIZE*5-1` bytes of the line (or is a zero that
begins there). -/
theorem readInput_iff (arr : CArray MAX_SIZE) (h : InputFile file line numbers) :
    (∃ r, Returns (readInput arr file) r ∧ r.pages = numbers) ↔
      numbers.length ≤ MAX_SIZE ∧ Fits (MAX_SIZE * 5 - 1) line := by
  obtain ⟨max, text, hwords, hread⟩ := readInput_eq h arr
  constructor
  · rintro ⟨r, ⟨N, hN⟩, hpages⟩
    have hrun := hN N le_rfl
    rw [hread] at hrun
    obtain ⟨s, hs, rfl⟩ := Option.map_eq_some_iff.mp hrun
    obtain ⟨hle, hvalues⟩ := parse_spec hs
    rw [Input.pages, hvalues] at hpages
    refine ⟨by simpa [← hpages] using hle, ?_⟩
    rw [hwords] at hpages
    exact fits_of_values h.pages h.range h.ne_nil hpages
  · rintro ⟨hle, hfits⟩
    have hvalues := values_of_fits h.pages h.range hfits
    rw [← hwords] at hvalues
    have hcount : (words isDelim text).length ≤ MAX_SIZE := by simpa [← hvalues] using hle
    obtain ⟨s, hrun⟩ := parse_returns arr hcount
    refine ⟨⟨max, s.string, s.len⟩, ?_, ?_⟩
    · rw [funext hread]
      exact hrun.map _
    · obtain ⟨N, hN⟩ := hrun
      rw [Input.pages, (parse_spec (hN N le_rfl)).2, hvalues]

end Main

/-- A line of `k + 1` references to page 1. -/
def onesLine (k : ℕ) : Bytes := [49] ++ (List.replicate k [32, 49]).flatten

/-- Three frames, and `k + 1` references to page 1. -/
def onesFile (k : ℕ) : Bytes := [51, 10] ++ (onesLine k ++ [10])

theorem length_onesLine (k : ℕ) : (onesLine k).length = k * 2 + 1 := by
  simp [onesLine]

theorem numbers_ones (k : ℕ) :
    (∀ c ∈ ((List.replicate k [32, 49]).flatten : Bytes).head?, isBlank c = true) ∧
      Numbers isBlank (List.replicate k [32, 49]).flatten (List.replicate k 1) := by
  induction k with
  | zero => exact ⟨by simp, .nil (by simp)⟩
  | succ k ih =>
    refine ⟨by simp [List.replicate_succ, isBlank], ?_⟩
    show Numbers isBlank ([32] ++ ([49] ++ (List.replicate k [32, 49]).flatten))
      (1 :: List.replicate k 1)
    exact .cons (by simp [isBlank]) rfl ih.1 ih.2

theorem inputFile_ones (k : ℕ) :
    InputFile (onesFile k) (onesLine k) (List.replicate (k + 1) 1) where
  text := ⟨[], [51], [10], [10], 3, rfl, by simp, rfl, by simp, List.forall_mem_singleton.mpr rfl,
    by simp⟩
  first c hc := Option.some.inj hc ▸ rfl
  pages := by
    show Numbers isBlank ([] ++ ([49] ++ (List.replicate k [32, 49]).flatten))
      (1 :: List.replicate k 1)
    exact .cons (by simp) rfl (numbers_ones k).1 (numbers_ones k).2
  ne_nil := by simp
  range z hz := by
    rw [List.eq_of_mem_replicate hz]
    exact ⟨by decide, by decide⟩

theorem readInput_ones :
    InputFile (onesFile 1) (onesLine 1) [1, 1] ∧
      ∃ r, Returns (readInput (CArray.zero MAX_SIZE) (onesFile 1)) r ∧ r.pages = [1, 1] := by
  refine ⟨inputFile_ones 1, (readInput_iff _ (inputFile_ones 1)).mpr ⟨by decide, ?_⟩⟩
  refine ⟨[49, 32], [49], [], 1, rfl, ?_, rfl, by simp, Or.inl (by decide)⟩
  exact fun c hc => Option.some.inj hc ▸ rfl

/-- A line of 2001 bytes with 1001 pages: the last one is stored behind the array. -/
theorem not_readInput_ones :
    InputFile (onesFile 1000) (onesLine 1000) (List.replicate 1001 1) ∧
      ¬ ∃ r, Returns (readInput (CArray.zero MAX_SIZE) (onesFile 1000)) r := by
  have h := inputFile_ones 1000
  refine ⟨h, ?_⟩
  rintro ⟨r, N, hN⟩
  obtain ⟨max, text, hwords, hread⟩ := readInput_eq h (CArray.zero MAX_SIZE)
  have hrun := hN N le_rfl
  rw [hread] at hrun
  obtain ⟨s, hs, -⟩ := Option.map_eq_some_iff.mp hrun
  have hle := (parse_spec hs).1
  have hlen : (onesLine 1000).length ≤ MAX_SIZE * 5 - 1 := by
    rw [length_onesLine]
    decide
  have hcount := congrArg List.length (h.pages.words isSpace_of_isBlank)
  rw [hwords, List.take_of_length_le hlen] at hle
  rw [List.length_map, List.length_map, List.length_replicate] at hcount
  rw [hcount] at hle
  exact absurd hle (by decide)

end SchoolOS.PageReplacement
