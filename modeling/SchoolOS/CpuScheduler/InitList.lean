import SchoolOS.CpuScheduler.Schedulers
import SchoolOS.Lib.CInt
import SchoolOS.Lib.Numerals

/-!
# Loading the process list

Reference: `Assignment3-3/cpu_scheduler.c`, `init_list`.

The loop of `init_list` appends a record whenever `fscanf` does not return `EOF`, also when it has
converted less than three numbers. The fields that were not converted then keep what the record
before them held, and a byte that belongs to no number stays unread for ever. So the list is the
list of the triples in the file exactly if the file holds nothing else (`readsTriples_iff`).
-/

namespace SchoolOS.CpuScheduler

open Loop

/-- What `fscanf(f_temp, "%d %d %d\n", &(p.pid), &(p.arrival), &(p.burst))` stores, given the
values of its conversions. -/
def Process.assign (p : Process) : List ℤ → Process
  | [] => p
  | [a] => { p with pid := a }
  | [a, b] => { p with pid := a, arrival := b }
  | a :: b :: c :: _ => { p with pid := a, arrival := b, burst := c }

/-- The record `p` that is read into, the unread input and the list so far. -/
structure Loading where
  p : Process
  stream : Bytes
  list : List Process

namespace Loading

/-- `fscanf(..) != EOF`: the input does not end before the first conversion. -/
def more (s : Loading) : Bool := s.stream.dropWhile isSpace ≠ []

/-- One iteration: `fscanf`, `p.remain = p.burst` and the growth of the list by `p`. `%d` stores the
low 32 bits of a number. -/
def next (s : Loading) : Loading :=
  let (converted, rest) := scanInts 3 s.stream
  let p := s.p.assign (converted.map toInt)
  let p := { p with remain := p.burst }
  ⟨p, rest, s.list ++ [p]⟩

end Loading

/-- `init_list`, with what the uninitialised record `p` happens to hold. -/
def initList (p : Process) (text : Bytes) (fuel : ℕ) : Option (List Process) :=
  (whileLoop Loading.more (fun s => some s.next) fuel ⟨{ p with ended := 0 }, text, []⟩).map
    Loading.list

/-- Every list that `init_list` returns is one that the schedulers can be given. -/
theorem loaded_of_initList {p : Process} {text : Bytes} {fuel : ℕ} {list : List Process}
    (h : initList p text fuel = some list) : Loaded list.get := by
  obtain ⟨s, hs, rfl⟩ := Option.map_eq_some_iff.mp h
  have hassign : ∀ (p : Process) zs, (p.assign zs).ended = p.ended := by
    intro p zs
    unfold Process.assign
    split
    · rfl
    · rfl
    · rfl
    · rfl
  obtain ⟨⟨-, hinv⟩, -⟩ := whileLoop_invariant (fun s : Loading => s.p.ended = 0 ∧
      ∀ p ∈ s.list, p.remain = p.burst ∧ p.ended = 0) (by
    rintro s _ ⟨hended, hlist⟩ - ⟨⟩
    have hended' : s.next.p.ended = 0 := (hassign s.p _).trans hended
    refine ⟨hended', fun p hp => ?_⟩
    rcases List.mem_append.mp hp with hp | hp
    · exact hlist p hp
    · rw [List.mem_singleton.mp hp]
      exact ⟨rfl, hended'⟩) ⟨rfl, by simp⟩ hs
  exact fun i => hinv _ (List.get_mem s.list i)

/-! ## The triples of a text -/

/-- The numbers of one record. -/
def numbersOf (r : ℤ × ℤ × ℤ) : List ℤ := [r.1, r.2.1, r.2.2]

/-- What is stored of a record. -/
def storedOf (r : ℤ × ℤ × ℤ) : ℤ × ℤ × ℤ := (toInt r.1, toInt r.2.1, toInt r.2.2)

/-- The numbers of the record are values of type `int`. -/
def InIntRange (r : ℤ × ℤ × ℤ) : Prop := IntRange r.1 ∧ IntRange r.2.1 ∧ IntRange r.2.2

theorem storedOf_eq_self_iff {r : ℤ × ℤ × ℤ} : storedOf r = r ↔ InIntRange r := by
  constructor
  · intro h
    rw [← h]
    exact ⟨intRange_toInt _, intRange_toInt _, intRange_toInt _⟩
  · rintro ⟨hpid, harrival, hburst⟩
    rw [storedOf, toInt_eq_self hpid, toInt_eq_self harrival, toInt_eq_self hburst]

/-- The text consists of integers separated by white space, three for each record. -/
def Triples (text : Bytes) (records : List (ℤ × ℤ × ℤ)) : Prop :=
  Numbers isSpace text (records.flatMap numbersOf)

/-- The longest part at the beginning of a text that consists of triples. -/
structure LongestTriples (text pre : Bytes) (records : List (ℤ × ℤ × ℤ)) : Prop where
  initial : pre <+: text
  triples : Triples pre records
  longest : ∀ pre' records', pre' <+: text → Triples pre' records' → pre'.length ≤ pre.length

/-- `init_list` ends, and its list holds the triples of the longest such part. -/
def ReadsTriples (p : Process) (text : Bytes) : Prop :=
  ∃ list pre records, Returns (initList p text) list ∧ LongestTriples text pre records ∧
    list.map Process.input = records

theorem exists_triples {k : ℕ} : ∀ {zs : List ℤ}, zs.length = 3 * k →
    ∃ records : List (ℤ × ℤ × ℤ), zs = records.flatMap numbersOf := by
  induction k with
  | zero => exact fun h => ⟨[], List.length_eq_zero_iff.mp h⟩
  | succ k ih =>
    intro zs h
    obtain ⟨a, b, c, zs, rfl⟩ : ∃ a b c zs', zs = a :: b :: c :: zs' := by
      match zs, h with
      | a :: b :: c :: zs, _ => exact ⟨a, b, c, zs, rfl⟩
    have hlength : zs.length = 3 * k := by
      simp only [List.length_cons] at h
      omega
    obtain ⟨records, rfl⟩ := ih hlength
    exact ⟨(a, b, c) :: records, rfl⟩

theorem length_triples (records : List (ℤ × ℤ × ℤ)) :
    (records.flatMap numbersOf).length = 3 * records.length := by
  simp [List.length_flatMap, numbersOf, Nat.mul_comm]

/-- Behind the longest part there is no white space, and nothing that goes on with its last
number. -/
theorem LongestTriples.rest {text pre rest : Bytes} {records : List (ℤ × ℤ × ℤ)}
    (h : LongestTriples text pre records) (htext : text = pre ++ rest) :
    (∀ c ∈ rest.head?, isSpace c = false) ∧ Apart isSpace pre rest := by
  have hstep : ∀ c ∈ rest.head?, pre ++ [c] <+: text := by
    intro c hc
    obtain ⟨rest, rfl⟩ := List.head?_eq_some_iff.mp hc
    exact ⟨rest, by rw [htext, List.append_assoc, List.singleton_append]⟩
  constructor
  · intro c hc
    by_contra hspace
    have hlonger := h.longest _ _ (hstep c hc) (h.triples.append_sep (by simpa using hspace))
    simp at hlonger
  · intro c hc hdigit
    by_contra hlast
    obtain ⟨zs, hlength, hnum⟩ := h.triples.append_digit hdigit hlast
    obtain ⟨records', rfl⟩ := exists_triples (hlength.trans (length_triples records))
    have hlonger := h.longest _ _ (hstep c hc) hnum
    simp at hlonger

/-! ## Reading the triples -/

/-- The input that is unread consists of the triples `records`, followed by `rest`. -/
def Ahead (rest : Bytes) (records : List (ℤ × ℤ × ℤ)) (s : Loading) : Prop :=
  ∃ pre, Triples pre records ∧ Apart isSpace pre rest ∧
    s.stream.dropWhile isSpace = (pre ++ rest).dropWhile isSpace

section Read

variable {rest : Bytes} {records : List (ℤ × ℤ × ℤ)} {s : Loading}

/-- A triple is read into a record of its own. -/
theorem Ahead.next {r : ℤ × ℤ × ℤ} (h : Ahead rest (r :: records) s) :
    s.more = true ∧ Ahead rest records s.next ∧
      s.next.list.map Process.input = s.list.map Process.input ++ [storedOf r] := by
  obtain ⟨pre, htriples, hapart, hstream⟩ := h
  have hnumbers : Numbers isSpace pre (numbersOf r ++ records.flatMap numbersOf) := htriples
  obtain ⟨pre', hnum, hapart', hscan⟩ := scanInts_numbers (fun _ hc => hc) hnumbers hapart
  have hscan' : scanInts 3 s.stream = ([r.1, r.2.1, r.2.2], (pre' ++ rest).dropWhile isSpace) := by
    rw [← scanInts_dropWhile, hstream, scanInts_dropWhile]
    exact hscan
  refine ⟨?_, ⟨pre', hnum, hapart', ?_⟩, ?_⟩
  · by_contra hmore
    have hblank : s.stream.dropWhile isSpace = [] := by simpa [Loading.more] using hmore
    rw [← scanInts_dropWhile, hblank] at hscan'
    have hfst := congrArg Prod.fst hscan'
    simp [scanInts, scanInt, scanSign] at hfst
  · simp only [Loading.next, hscan']
    exact List.dropWhile_idempotent isSpace _
  · simp only [Loading.next, hscan', List.map_append]
    rfl

/-- Behind the last triple there is only `rest`. -/
theorem Ahead.more_iff (h : Ahead rest [] s) : s.more = true ↔ rest.dropWhile isSpace ≠ [] := by
  obtain ⟨pre, htriples, -, hstream⟩ := h
  rw [Loading.more, hstream, List.dropWhile_append_of_pos (Numbers.of_nil htriples)]
  simp

theorem length_next (s : Loading) : s.next.list.length = s.list.length + 1 := by
  simp [Loading.next]

/-- A text of triples is read completely. -/
theorem returns_of_triples {text : Bytes} (p : Process) (h : Triples text records) :
    ∃ list, Returns (initList p text) list ∧ list.map Process.input = records.map storedOf := by
  obtain ⟨s, hrun, ⟨records', hahead, hlist⟩, hmore⟩ := returns_whileLoop Loading.more
    (fun s => some s.next)
    (fun s => ∃ records', Ahead [] records' s ∧
      s.list.map Process.input ++ records'.map storedOf = records.map storedOf)
    (fun s => records.length - s.list.length) (by
      rintro s ⟨records', hahead, hlist⟩ hmore
      cases records' with
      | nil => exact absurd rfl (hahead.more_iff.mp hmore)
      | cons r records' =>
        obtain ⟨-, hahead', hlist'⟩ := hahead.next
        refine ⟨_, rfl, ⟨records', hahead', ?_⟩, ?_⟩
        · rw [hlist', List.append_assoc, List.singleton_append, ← List.map_cons]
          exact hlist
        have hlength := congrArg List.length hlist
        have hlength' := length_next s
        simp only [List.length_append, List.length_map, List.length_cons] at hlength
        omega)
    ⟨{ p with ended := 0 }, text, []⟩
    ⟨records, ⟨text, h, fun c hc => by simp at hc, by rw [List.append_nil]⟩, rfl⟩
  have hnil : records' = [] := by
    cases records' with
    | nil => rfl
    | cons r records' =>
      rw [hahead.next.1] at hmore
      exact absurd hmore.symm Bool.false_ne_true
  rw [hnil, List.map_nil, List.append_nil] at hlist
  exact ⟨s.list, hrun.map Loading.list, hlist⟩

/-- If something else follows the triples then the list gets too long. -/
theorem length_lt_of_rest {text pre : Bytes} {p : Process} {list : List Process} {fuel : ℕ}
    (h : LongestTriples text pre records) (htext : text = pre ++ rest) (hne : rest ≠ [])
    (hrun : initList p text fuel = some list) : records.length < list.length := by
  obtain ⟨hspace, hapart⟩ := h.rest htext
  have hrest : rest.dropWhile isSpace ≠ [] := by
    obtain ⟨c, r, rfl⟩ := List.exists_cons_of_ne_nil hne
    rw [List.dropWhile_cons_of_neg (by simpa using hspace c rfl)]
    exact hne
  obtain ⟨s, hs, rfl⟩ := Option.map_eq_some_iff.mp hrun
  obtain ⟨hinv, hmore⟩ := whileLoop_invariant (fun s : Loading => records.length < s.list.length ∨
      ∃ records', Ahead rest records' s ∧ s.list.length + records'.length = records.length) (by
    rintro s _ hs - ⟨⟩
    have hlength := length_next s
    rcases hs with hlt | ⟨records', hahead, hsum⟩
    · exact Or.inl (by omega)
    · cases records' with
      | nil =>
        simp only [List.length_nil] at hsum
        exact Or.inl (by omega)
      | cons r records' =>
        rw [List.length_cons] at hsum
        exact Or.inr ⟨records', hahead.next.2.1, by omega⟩)
    (Or.inr ⟨records, ⟨pre, h.triples, hapart, by rw [htext]⟩, Nat.zero_add _⟩) hs
  rcases hinv with hlt | ⟨records', hahead, -⟩
  · exact hlt
  · -- the loop does not end before `rest`
    have htrue : s.more = true := by
      cases records' with
      | nil => exact hahead.more_iff.mpr hrest
      | cons r records' => exact hahead.next.1
    rw [htrue] at hmore
    exact absurd hmore.symm Bool.false_ne_true

end Read

/-- Only a text that consists of triples of values of type `int` is read as it should. -/
theorem triples_of_readsTriples {p : Process} {text : Bytes} (h : ReadsTriples p text) :
    ∃ records, Triples text records ∧ ∀ r ∈ records, InIntRange r := by
  obtain ⟨list, pre, records, ⟨N, hN⟩, hlongest, hlist⟩ := h
  obtain ⟨rest, htext⟩ := hlongest.initial
  by_cases hnil : rest = []
  · rw [hnil, List.append_nil] at htext
    subst htext
    refine ⟨records, hlongest.triples, fun r hr => ?_⟩
    -- the list that is returned has the records as they are stored
    obtain ⟨list', hreturns, hlist'⟩ := returns_of_triples p hlongest.triples
    rw [Returns.unique hreturns ⟨N, hN⟩, hlist] at hlist'
    have hstored : records.map storedOf = records.map id := by
      rw [List.map_id]
      exact hlist'.symm
    exact storedOf_eq_self_iff.mp (List.map_inj_left.mp hstored r hr)
  · have hlt := length_lt_of_rest hlongest htext.symm hnil (hN N le_rfl)
    rw [← hlist, List.length_map] at hlt
    exact absurd hlt (lt_irrefl _)

/-- `init_list` ends with the triples of the longest part of the text that consists of triples
exactly if this part is the whole text and all its numbers are in the range of `int`. -/
theorem readsTriples_iff (p : Process) (text : Bytes) :
    ReadsTriples p text ↔ ∃ records, Triples text records ∧ ∀ r ∈ records, InIntRange r := by
  constructor
  · exact triples_of_readsTriples
  · rintro ⟨records, h, hrange⟩
    obtain ⟨list, hrun, hlist⟩ := returns_of_triples p h
    rw [List.map_congr_left fun r hr => storedOf_eq_self_iff.mpr (hrange r hr),
      List.map_id'] at hlist
    exact ⟨list, text, records, hrun, ⟨List.prefix_rfl, h, fun pre' _ hle _ => hle.length_le⟩,
      hlist⟩

/-- A file whose last line has been cut off. -/
def cutText : Bytes := ascii "1 0 5\n2 1"

/-- A file that holds no number. -/
def strayText : Bytes := ascii "x"

theorem numbers_cutText {zs : List ℤ} (h : Numbers isSpace cutText zs) : zs = [1, 0, 5, 2, 1] :=
  (congrArg Prod.fst (h.scanInts_add (fun _ hc => hc) 5)).symm

theorem next_cutText : Loading.next ⟨loadedProcess 0 0 0, cutText, []⟩ =
    ⟨loadedProcess 1 0 5, ascii "2 1", [loadedProcess 1 0 5]⟩ := by
  have hscan : scanInts 3 cutText = ([1, 0, 5], ascii "2 1") := rfl
  simp only [Loading.next, hscan, List.map_cons]
  rfl

/-- The last line has two numbers, and the third field is left as it was. -/
theorem next_cutLine :
    Loading.next ⟨loadedProcess 1 0 5, ascii "2 1", [loadedProcess 1 0 5]⟩ =
      ⟨loadedProcess 2 1 5, [], [loadedProcess 1 0 5, loadedProcess 2 1 5]⟩ := by
  have hscan : scanInts 3 (ascii "2 1") = ([2, 1], []) := rfl
  simp only [Loading.next, hscan, List.map_cons]
  rfl

/-- The incomplete line becomes a record that keeps the burst time of the record before it, and a
byte that belongs to no number is never passed. -/
theorem not_readsTriples_cutText :
    (∃ list, Returns (initList (loadedProcess 0 0 0) cutText) list ∧
      list.map Process.input = [(1, 0, 5), (2, 1, 5)]) ∧
    ¬ ReadsTriples (loadedProcess 0 0 0) cutText ∧
    ¬ ∃ list, Returns (initList (loadedProcess 0 0 0) strayText) list := by
  refine ⟨⟨[loadedProcess 1 0 5, loadedProcess 2 1 5], ⟨3, fun fuel hfuel => ?_⟩, rfl⟩, fun h => ?_,
    ?_⟩
  · obtain ⟨m, rfl⟩ : ∃ m, fuel = m + 3 := ⟨fuel - 3, by omega⟩
    show (whileLoop Loading.more _ (m + 3) ⟨loadedProcess 0 0 0, cutText, []⟩).map Loading.list = _
    rw [whileLoop_of_step rfl next_cutText, whileLoop_of_step rfl next_cutLine,
      whileLoop_of_not m rfl]
    rfl
  · obtain ⟨records, hrecords, -⟩ := triples_of_readsTriples h
    have hlength := congrArg List.length (numbers_cutText hrecords)
    rw [length_triples, List.length_cons] at hlength
    simp only [List.length_cons, List.length_nil] at hlength
    omega
  · rintro ⟨list, N, hN⟩
    obtain ⟨s, hs, -⟩ := Option.map_eq_some_iff.mp (hN N le_rfl)
    obtain ⟨hstream, hmore⟩ := whileLoop_invariant (fun s : Loading => s.stream = strayText) (by
      rintro s _ hstream - ⟨⟩
      simp only [Loading.next, hstream]
      rfl) rfl hs
    rw [Loading.more, hstream] at hmore
    exact absurd hmore (by decide)

end SchoolOS.CpuScheduler
