import SchoolOS.Lib.CInt
import SchoolOS.Lib.Numerals

/-!
# Words

`words sep s` are the maximal pieces of a text without a separator, as a loop over `strtok` finds
them. `atoi` is the value of a word. The words of a text of numbers are its numerals
(`Numbers.words`); a numeral of which only the first bytes are left has another value, unless it is
zero (`atoi_take_eq_iff`).
-/

namespace SchoolOS

/-- The words of a text. -/
def words (sep : UInt8 → Bool) (s : Bytes) : List Bytes := (s.splitOnP sep).filter (· ≠ [])

/-- `strtok(s, ..)`: the next word, and where `strtok(NULL, ..)` goes on. -/
def strtok (sep : UInt8 → Bool) (s : Bytes) : Option (Bytes × Bytes) :=
  let s := s.dropWhile sep
  if s = [] then none else some (s.takeWhile (! sep ·), (s.dropWhile (! sep ·)).drop 1)

/-- `atoi`, which is 0 for a text without a number. -/
def atoi (s : Bytes) : ℤ := toInt ((scanInt s).1.getD 0)

section Words

variable {sep : UInt8 → Bool} {s tok ws : Bytes}

theorem words_append_cons {c : UInt8} (a b : Bytes) (hc : sep c = true) :
    words sep (a ++ c :: b) = words sep a ++ words sep b := by
  rw [words, List.splitOnP_append_cons a b hc, List.filter_append]
  rfl

theorem words_token (hne : tok ≠ []) (htok : ∀ c ∈ tok, sep c = false) : words sep tok = [tok] := by
  rw [words, List.splitOnP_eq_singleton htok]
  simp [hne]

theorem words_append_of_head {a b : Bytes} (hb : ∀ c ∈ b.head?, sep c = true) :
    words sep (a ++ b) = words sep a ++ words sep b := by
  cases b with
  | nil => rw [List.append_nil]; exact (List.append_nil _).symm
  | cons c b =>
    have hc : sep c = true := hb c rfl
    have hhead : words sep (c :: b) = words sep b := words_append_cons [] b hc
    rw [words_append_cons a b hc, hhead]

theorem words_append_of_last {a b : Bytes} (ha : ∀ c ∈ a.getLast?, sep c = true) :
    words sep (a ++ b) = words sep a ++ words sep b := by
  rcases List.eq_nil_or_concat a with rfl | ⟨a, c, rfl⟩
  · rfl
  · have hc : sep c = true := ha c (by simp)
    have hlast : words sep (a ++ [c]) = words sep a := by
      rw [words_append_cons a [] hc]
      exact List.append_nil _
    rw [List.concat_eq_append, hlast, List.append_assoc, List.singleton_append,
      words_append_cons a b hc]

theorem words_of_sep (hws : ∀ c ∈ ws, sep c = true) : words sep ws = [] := by
  induction ws with
  | nil => rfl
  | cons c ws ih =>
    have hcons : words sep (c :: ws) = words sep ws := words_append_cons [] ws (hws c (by simp))
    rw [hcons]
    exact ih fun d hd => hws d (by simp [hd])

theorem words_sep_append (hws : ∀ c ∈ ws, sep c = true) (s : Bytes) :
    words sep (ws ++ s) = words sep s := by
  rw [words_append_of_last fun c hc => hws c (List.mem_of_getLast? hc), words_of_sep hws,
    List.nil_append]

theorem words_congr {sep' : UInt8 → Bool} (h : ∀ c ∈ s, sep c = sep' c) :
    words sep s = words sep' s := by
  have hsplit : s.splitOnP sep = s.splitOnP sep' := by
    induction s with
    | nil => rfl
    | cons c s ih =>
      rw [List.splitOnP_cons_eq_if_modifyHead, List.splitOnP_cons_eq_if_modifyHead, h c (by simp),
        ih fun d hd => h d (by simp [hd])]
  rw [words, hsplit, words]

/-- `strtok` finds the words one after the other. -/
theorem strtok_words (sep : UInt8 → Bool) (s : Bytes) :
    (strtok sep s = none → words sep s = []) ∧
    ∀ tok rest, strtok sep s = some (tok, rest) → words sep s = tok :: words sep rest := by
  have hskip : words sep s = words sep (s.dropWhile sep) := by
    rw [← words_sep_append (fun c hc => List.mem_takeWhile_imp hc) (s.dropWhile sep),
      List.takeWhile_append_dropWhile]
  unfold strtok
  dsimp only
  generalize hrest : s.dropWhile sep = r at hskip
  split
  · rename_i hnil
    exact ⟨fun _ => by rw [hskip, hnil]; rfl, fun _ _ h => by simp at h⟩
  · rename_i hne
    refine ⟨fun h => by simp at h, fun tok rest h => ?_⟩
    obtain ⟨rfl, rfl⟩ := Prod.mk.inj (Option.some.inj h)
    have hfirst : r.takeWhile (! sep ·) ≠ [] := by
      obtain ⟨c, t, rfl⟩ := List.exists_cons_of_ne_nil hne
      have hc : sep c = false := by simpa [hrest] using List.head?_dropWhile_not sep s
      simp [hc]
    have htok := words_token hfirst fun c hc => by simpa using List.mem_takeWhile_imp hc
    have hafter : ∀ c ∈ (r.dropWhile (! sep ·)).head?, sep c = true := by
      intro c hc
      have hnot := List.head?_dropWhile_not (! sep ·) r
      rw [hc] at hnot
      simpa using hnot
    have hdrop :
        words sep (r.dropWhile (! sep ·)) = words sep ((r.dropWhile (! sep ·)).drop 1) := by
      cases hcase : r.dropWhile (! sep ·) with
      | nil => rfl
      | cons c t => exact words_append_cons [] t (hafter c (by rw [hcase]; rfl))
    calc words sep s = words sep (r.takeWhile (! sep ·) ++ r.dropWhile (! sep ·)) := by
          rw [hskip, List.takeWhile_append_dropWhile]
      _ = _ := by
          rw [words_append_of_head hafter, htok, hdrop]
          rfl

/-- The words of a text of numbers are its numerals. -/
theorem Numbers.words {zs : List ℤ} (hsep : ∀ c, sep c = true → isSpace c = true)
    (h : Numbers sep s zs) : (words sep s).map numeral? = zs.map some := by
  induction h with
  | nil hws =>
    rw [words_of_sep hws]
    rfl
  | cons hws htok hs _ ih =>
    have hnot := not_sep_of_mem_numeral hsep htok
    rw [words_sep_append hws, words_append_of_head hs, words_token (numeral_ne_nil htok) hnot,
      List.map_append, ih, List.map_singleton, htok]
    rfl

end Words

/-! ## The value of a word -/

theorem digitsValue_append (a b : Bytes) :
    digitsValue (a ++ b) = digitsValue a * 10 ^ b.length + digitsValue b := by
  induction b using List.reverseRecOn with
  | nil => simp [digitsValue]
  | append_singleton b c ih =>
    have hconcat : ∀ l : Bytes, digitsValue (l ++ [c]) = 10 * digitsValue l + (c.toNat - 48) :=
      fun l => by simp [digitsValue]
    rw [← List.append_assoc, hconcat, hconcat, ih, List.length_append, List.length_singleton,
      pow_succ]
    ring

section Value

variable {tok : Bytes} {z : ℤ}

theorem atoi_numeral (h : numeral? tok = some z) (hz : IntRange z) : atoi tok = z := by
  have hscan : scanInt ([] ++ (tok ++ [])) = (some z, []) :=
    scanInt_numeral h (by simp) (by simp)
  rw [List.nil_append, List.append_nil] at hscan
  rw [atoi, hscan]
  exact toInt_eq_self hz

/-- What is left of a numeral when its last bytes are lost: only a sign, or a number of at most a
tenth. -/
theorem numeral_take (h : numeral? tok = some z) {j : ℕ} (hpos : 0 < j) (hlt : j < tok.length) :
    (numeral? (tok.take j) = none ∧ atoi (tok.take j) = 0) ∨
      ∃ z', numeral? (tok.take j) = some z' ∧ z'.natAbs * 10 ≤ z.natAbs := by
  obtain ⟨sign, ds, hsign, -, hds, rfl, rfl⟩ := numeral?_eq_some_iff.mp h
  by_cases hj : j ≤ sign.length
  · left
    rw [List.take_append_of_le_length hj]
    rcases hsign with rfl | rfl | rfl
    · exact absurd hj (by simp; omega)
    · rw [List.take_of_length_le hpos]
      exact ⟨rfl, rfl⟩
    · rw [List.take_of_length_le hpos]
      exact ⟨rfl, rfl⟩
  · right
    obtain ⟨m, rfl⟩ : ∃ m, j = sign.length + m := ⟨j - sign.length, by omega⟩
    rw [List.length_append] at hlt
    rw [List.take_length_add_append]
    refine ⟨_, numeral?_eq_some_iff.mpr ⟨sign, ds.take m, hsign, ?_,
      fun c hc => hds c (List.mem_of_mem_take hc), rfl, rfl⟩, ?_⟩
    · rw [Ne, ← List.length_eq_zero_iff, List.length_take]
      omega
    · have hvalue := digitsValue_append (ds.take m) (ds.drop m)
      rw [List.take_append_drop, List.length_drop] at hvalue
      have hpow : 10 ≤ 10 ^ (ds.length - m) := Nat.le_self_pow (by omega) 10
      have hle : digitsValue (ds.take m) * 10 ≤ digitsValue ds := by
        rw [hvalue]
        exact (Nat.mul_le_mul_left _ hpow).trans (Nat.le_add_right _ _)
      rw [natAbs_signed, natAbs_signed]
      exact hle

/-- A numeral that has lost its last bytes keeps its value only if it is zero. -/
theorem atoi_take_eq_iff (h : numeral? tok = some z) (hz : IntRange z) {j : ℕ} (hpos : 0 < j)
    (hlt : j < tok.length) : atoi (tok.take j) = z ↔ z = 0 := by
  rcases numeral_take h hpos hlt with ⟨-, hzero⟩ | ⟨z', hz', hle⟩
  · rw [hzero, eq_comm]
  · have hrange : IntRange z' := by
      unfold IntRange at *
      omega
    rw [atoi_numeral hz' hrange]
    omega

end Value

end SchoolOS
