import SchoolOS.Lib.Competitive
import SchoolOS.Lib.SecondChance

/-!
# The faults of the second-chance machine

A page is loaded with a clear use bit. It may be replaced and loaded again while `m` pages are
referenced, so the machine is not `Paging.Conservative`. But the hand replaces all other pages in
two turns. Let `P` be the pages of a piece of the string, at most `m` of them. `wait` bounds the
number of faults until the page of a slot is replaced. Every fault in the piece lowers the largest
`wait` of a slot whose page is not in `P` (`Valid.within_step`), and there is such a slot as long as
there are faults. So a piece has at most `2m - 1` faults (`faults_run_le`).
-/

namespace SchoolOS.SecondChance

open Paging (Policy Spread faultsUpTo pagesBetween)

variable {m h j n : ℕ} {bits : List Bool} {used : Bool}

/-! ## The walk of the hand -/

/-- The way of the hand to slot `j`. -/
def way (m hand j : ℕ) : ℕ := if hand ≤ j then j - hand else j + m - hand

theorem way_lt (hj : j < m) (hand : ℕ) : way m hand j < m := by
  unfold way
  split_ifs <;> omega

/-- The hand comes closer to the other slots. -/
theorem way_succ (hh : h < m) (hj : j < m) (hne : j ≠ h) :
    way m ((h + 1) % m) j + 1 = way m h j := by
  unfold way
  by_cases hlast : h + 1 = m
  · rw [hlast, Nat.mod_self, if_pos (Nat.zero_le j), if_neg (by omega)]
    omega
  · rw [Nat.mod_eq_of_lt (by omega)]
    split_ifs <;> omega

/-- The faults until the page in slot `j` is replaced, at most: the way of the hand to the slot, and
another turn if the slot is in use. That turn starts in the walk that passes the slot, so it has one
fault less than slots. -/
def wait (m hand j : ℕ) (used : Bool) : ℕ := way m hand j + 1 + if used then m - 1 else 0

theorem wait_pos (m hand j : ℕ) (used : Bool) : 1 ≤ wait m hand j used := by
  unfold wait
  omega

theorem wait_le (hm : 1 ≤ m) (hand j : ℕ) (used : Bool) :
    wait m hand j used ≤ way m hand j + m := by
  unfold wait
  split_ifs <;> omega

theorem wait_succ (hh : h < m) (hj : j < m) (hne : j ≠ h) (used : Bool) :
    wait m ((h + 1) % m) j used + 1 = wait m h j used := by
  have hway := way_succ hh hj hne
  unfold wait
  omega

/-- A slot in use is passed. -/
theorem wait_self (hh : h < m) : wait m ((h + 1) % m) h false ≤ wait m h h true := by
  have hlt := way_lt hh ((h + 1) % m)
  unfold wait
  rw [if_neg Bool.false_ne_true, if_pos rfl]
  omega

theorem getD_set (bits : List Bool) (hne : j ≠ h) (b : Bool) :
    (bits.set h b).getD j false = bits.getD j false := by
  rw [List.getD_eq_getElem?_getD, List.getD_eq_getElem?_getD, List.getElem?_set_ne hne.symm]

theorem getD_set_self (bits : List Bool) (h : ℕ) : (bits.set h false).getD h false = false := by
  rw [List.getD_eq_getElem?_getD, List.getElem?_set_self']
  cases bits[h]? with
  | none => rfl
  | some b => rfl

/-- The walk brings no slot farther away. -/
theorem turn_spec (bits : List Bool) (hh : h < m) :
    (turn m bits h).2 < m ∧ (turn m bits h).1.length = bits.length ∧
      ∀ j < m, wait m (turn m bits h).2 j ((turn m bits h).1.getD j false) ≤
        wait m h j (bits.getD j false) := by
  fun_induction turn m bits h with
  | case1 bits h hbit ih =>
    obtain ⟨hlt, hlength, hwait⟩ := ih (Nat.mod_lt _ (by omega))
    refine ⟨hlt, hlength.trans List.length_set, fun j hj => (hwait j hj).trans ?_⟩
    by_cases hne : j = h
    · subst hne
      rw [getD_set_self, List.getD_eq_getElem?_getD, hbit, Option.getD_some]
      exact wait_self hh
    · rw [getD_set bits hne]
      have hsucc := wait_succ hh hj hne (bits.getD j false)
      omega
  | case2 bits h hbit => exact ⟨hh, rfl, fun j _ => le_rfl⟩

/-! ## One reference -/

variable {α : Type} [DecidableEq α] {s : SecondChance α} {page : α} {P : Finset α}

/-- The machine between two references. -/
structure Valid (m : ℕ) (s : SecondChance α) : Prop where
  nodup : s.pages.Nodup
  length_le : s.pages.length ≤ m
  length_bits : s.bits.length = s.pages.length
  hand_lt : s.hand < m
  /-- The hand does not move before the table is full. -/
  hand_eq : s.pages.length < m → s.hand = 0

/-- The pages that are not in `P` are replaced within `n` faults. -/
def Within (m : ℕ) (P : Finset α) (n : ℕ) (s : SecondChance α) : Prop :=
  ∀ j x, s.pages[j]? = some x → x ∉ P → wait m s.hand j (s.bits.getD j false) ≤ n

namespace Valid

omit [DecidableEq α] in
theorem start (hm : 1 ≤ m) : (start : SecondChance α).Valid m :=
  ⟨List.nodup_nil, Nat.zero_le _, rfl, hm, fun _ => rfl⟩

theorem step (hs : s.Valid m) (page : α) : (s.step m page).Valid m := by
  by_cases hpage : page ∈ s.pages
  · rw [step_hit hpage]
    exact ⟨hs.nodup, hs.length_le, List.length_set.trans hs.length_bits, hs.hand_lt, hs.hand_eq⟩
  · by_cases hfull : s.pages.length = m
    · obtain ⟨hlt, hlength, -⟩ := turn_spec s.bits hs.hand_lt
      rw [step_evict hpage hfull rfl]
      refine ⟨hs.nodup.set hpage, ?_, ?_, Nat.mod_lt _ (by omega), fun hless => ?_⟩
      · exact (List.length_set.trans hfull).le
      · rw [List.length_set, List.length_set, hlength, hs.length_bits]
      · exact absurd (List.length_set.trans hfull) hless.ne
    · have hlt := lt_of_le_of_ne hs.length_le hfull
      rw [step_fill hpage hlt]
      refine ⟨?_, ?_, ?_, hs.hand_lt, fun _ => hs.hand_eq hlt⟩
      · exact (List.perm_append_singleton _ _).nodup_iff.mpr (List.nodup_cons.mpr ⟨hpage, hs.nodup⟩)
      · rwa [List.length_append, List.length_singleton]
      · rw [List.length_append, List.length_append, hs.length_bits]
        rfl

omit [DecidableEq α] in
/-- Every page is replaced within two turns. -/
theorem within (hs : s.Valid m) (P : Finset α) : s.Within m P (s.pages.length + (m - 1)) := by
  intro j x hx hout
  obtain ⟨hj, -⟩ := List.getElem?_eq_some_iff.mp hx
  have hle := hs.length_le
  have hwait := wait_le (show 1 ≤ m by omega) s.hand j (s.bits.getD j false)
  have hway : way m s.hand j < s.pages.length := by
    by_cases hfull : s.pages.length = m
    · rw [hfull]
      exact way_lt (by omega) _
    · rw [hs.hand_eq (lt_of_le_of_ne hle hfull), way, if_pos (Nat.zero_le j)]
      exact hj
  omega

/-- A page of `P` is referenced in its slot. -/
theorem within_hit (hmem : page ∈ s.pages) (hpage : page ∈ P) (hn : s.Within m P n) :
    Within m P n { s with bits := s.bits.set (s.pages.idxOf page) true } := by
  intro j x hx hout
  have hne : j ≠ s.pages.idxOf page := by
    rintro rfl
    rw [List.getElem?_idxOf hmem, Option.some.injEq] at hx
    exact hout (hx ▸ hpage)
  rw [getD_set _ hne]
  exact hn j x hx hout

/-- At a fault on a page of `P`, a page that is not in `P` is in the full table. -/
theorem exists_notMem (hs : s.Valid m) (hP : P.card ≤ m) (hpage : page ∈ P) (hnew : page ∉ s.pages)
    (hfull : s.pages.length = m) : ∃ x ∈ s.pages, x ∉ P := by
  by_contra hall
  push Not at hall
  have hsub : s.pages.toFinset ⊆ P.erase page := by
    intro x hx
    rw [List.mem_toFinset] at hx
    exact Finset.mem_erase.mpr ⟨fun heq => hnew (heq ▸ hx), hall x hx⟩
  have hcard := Finset.card_le_card hsub
  rw [List.toFinset_card_of_nodup hs.nodup, Finset.card_erase_of_mem hpage] at hcard
  have hpos := Finset.card_pos.mpr ⟨page, hpage⟩
  omega

omit [DecidableEq α] in
/-- An empty slot is filled with a page of `P`. -/
theorem within_fill (hs : s.Valid m) (hpage : page ∈ P) (hn : s.Within m P n) (c : ℕ) :
    Within m P n ⟨s.pages ++ [page], s.bits ++ [false], s.hand, c⟩ := by
  intro j x hx hout
  have hj : j < s.pages.length := by
    by_contra hge
    rw [List.getElem?_append_right (by omega)] at hx
    exact hout (List.mem_singleton.mp (List.mem_of_getElem? hx) ▸ hpage)
  rw [List.getElem?_append_left hj] at hx
  have hbit : (s.bits ++ [false]).getD j false = s.bits.getD j false := by
    rw [List.getD_eq_getElem?_getD, List.getD_eq_getElem?_getD,
      List.getElem?_append_left (by rwa [hs.length_bits])]
  rw [hbit]
  exact hn j x hx hout

omit [DecidableEq α] in
/-- The page at the hand is replaced by a page of `P`, and the hand moves on. -/
theorem within_evict (hs : s.Valid m) (hpage : page ∈ P) (hfull : s.pages.length = m)
    (hn : s.Within m P n) (hturn : turn m s.bits s.hand = (bits, h)) (c : ℕ) :
    Within m P (n - 1) ⟨s.pages.set h page, bits.set h false, (h + 1) % m, c⟩ := by
  obtain ⟨hlt, -, hwait⟩ := turn_spec s.bits hs.hand_lt
  rw [hturn] at hlt hwait
  intro j x hx hout
  have hne : j ≠ h := by
    rintro rfl
    rw [List.getElem?_set_self (hfull ▸ hlt), Option.some.injEq] at hx
    exact hout (hx ▸ hpage)
  rw [List.getElem?_set_ne hne.symm] at hx
  have hj : j < m := hfull ▸ (List.getElem?_eq_some_iff.mp hx).1
  have hold := (hwait j hj).trans (hn j x hx hout)
  rw [← wait_succ hlt hj hne] at hold
  rw [getD_set _ hne]
  exact Nat.le_sub_one_of_lt hold

/-- A fault on a page of `P` is paid for by the slots that are left to fill or by the way of the
hand. -/
theorem within_step (hs : s.Valid m) (hP : P.card ≤ m) (hpage : page ∈ P) (hn : s.Within m P n) :
    ∃ n', (s.step m page).Within m P n' ∧
      n' + (m - (s.step m page).pages.length) + (s.step m page).faults ≤
        n + (m - s.pages.length) + s.faults := by
  by_cases hmem : page ∈ s.pages
  · rw [step_hit hmem]
    exact ⟨n, within_hit hmem hpage hn, le_rfl⟩
  · by_cases hfull : s.pages.length = m
    · obtain ⟨y, hy, hout⟩ := hs.exists_notMem hP hpage hmem hfull
      obtain ⟨i, hi⟩ := List.mem_iff_getElem?.mp hy
      have hpos := (wait_pos _ _ _ _).trans (hn i y hi hout)
      rw [step_evict hmem hfull rfl]
      refine ⟨n - 1, hs.within_evict hpage hfull hn rfl _, ?_⟩
      simp only [List.length_set]
      omega
    · have hlt := lt_of_le_of_ne hs.length_le hfull
      rw [step_fill hmem hlt]
      refine ⟨n, hs.within_fill hpage hn _, ?_⟩
      simp only [List.length_append, List.length_singleton]
      omega

end Valid

/-! ## The run -/

theorem valid_run (hm : 1 ≤ m) (string : List α) : (run m string).Valid m := by
  induction string using List.reverseRecOn with
  | nil => exact .start hm
  | append_singleton string page ih =>
    rw [run_concat]
    exact ih.step page

theorem faults_step (s : SecondChance α) (hle : s.pages.length ≤ m) (page : α) :
    (s.step m page).faults = s.faults + if page ∈ s.pages then 0 else 1 := by
  by_cases hpage : page ∈ s.pages
  · rw [step_hit hpage, if_pos hpage, Nat.add_zero]
  · rw [if_neg hpage]
    by_cases hfull : s.pages.length = m
    · rw [step_evict hpage hfull rfl]
    · rw [step_fill hpage (lt_of_le_of_ne hle hfull)]

/-- The pages in the table before reference `k`. -/
def resident (m : ℕ) (string : List α) (k : ℕ) : Finset α := (run m (string.take k)).pages.toFinset

variable {string : List α}

theorem faults_run (hm : 1 ≤ m) {k : ℕ} (hk : k ≤ string.length) :
    (run m (string.take k)).faults = faultsUpTo string (resident m string) k := by
  induction k with
  | zero => rw [List.take_zero, Paging.faultsUpTo_zero, run, List.foldl_nil, start]
  | succ k ih =>
    rw [List.take_succ_eq_append_getElem hk, run_concat, faults_step _ (valid_run hm _).length_le,
      ih (Nat.le_of_succ_le hk), Paging.faultsUpTo_succ hk]
    simp only [resident, List.mem_toFinset]

/-- A piece of the string with at most `m` pages has at most `2m - 1` faults. -/
theorem faults_run_le (hm : 1 ≤ m) {lo hi : ℕ} (hlo : lo ≤ hi) (hhi : hi ≤ string.length)
    (hP : (pagesBetween string lo hi).card ≤ m) :
    (run m (string.take hi)).faults ≤ (run m (string.take lo)).faults + (2 * m - 1) := by
  have hpiece : ∀ k, lo ≤ k → k ≤ hi → ∃ n,
      (run m (string.take k)).Within m (pagesBetween string lo hi) n ∧
        n + (m - (run m (string.take k)).pages.length) + (run m (string.take k)).faults ≤
          (run m (string.take lo)).faults + (2 * m - 1) := by
    intro k hk
    induction k, hk using Nat.le_induction with
    | base =>
      intro _
      have hs := valid_run hm (string.take lo)
      have hle := hs.length_le
      exact ⟨_, hs.within _, by omega⟩
    | succ k hk ih =>
      intro hlt
      obtain ⟨n, hn, hle⟩ := ih (Nat.le_of_succ_le hlt)
      have hklt : k < string.length := by omega
      have hpage : string[k] ∈ pagesBetween string lo hi :=
        Paging.getElem_mem_pagesBetween hk hlt hklt
      obtain ⟨n', hn', hle'⟩ := (valid_run hm (string.take k)).within_step hP hpage hn
      rw [List.take_succ_eq_append_getElem hklt, run_concat]
      exact ⟨n', hn', hle'.trans hle⟩
  obtain ⟨n, -, hle⟩ := hpiece hi hlo le_rfl
  omega

-- The bound is attained: the piece `3, 4, 3` has two pages and three faults.
example : (run 2 [1, 2, 2]).faults = 2 ∧ (run 2 [1, 2, 2, 3, 4, 3]).faults = 5 := by
  simp [run, start, step, turn]

theorem spread (hm : 1 ≤ m) : Spread (2 * m - 1) m string (resident m string) := by
  intro a b ha hb hab hfa hfb hcount
  by_contra hfew
  -- with the page of `a`, the references from `a` to `b` have at most `m` pages
  have hsub : pagesBetween string a (b + 1) ⊆
      insert string[a] ((pagesBetween string (a + 1) (b + 1)).erase string[a]) := by
    intro x hx
    obtain ⟨i, hlo, hhi, hi⟩ := Paging.mem_pagesBetween.mp hx
    rw [Finset.mem_insert, Finset.mem_erase, or_iff_not_imp_left]
    intro hne
    have hia : i ≠ a := by
      rintro rfl
      rw [List.getElem?_eq_getElem ha, Option.some.injEq] at hi
      exact hne hi.symm
    exact ⟨hne, Paging.mem_pagesBetween.mpr ⟨i, by omega, hhi, hi⟩⟩
  have hcard := (Finset.card_le_card hsub).trans (Finset.card_insert_le _ _)
  have hle := faults_run_le hm (show a ≤ b + 1 by omega) hb (by omega)
  rw [faults_run hm hb, faults_run hm ha.le, Paging.faultsUpTo_succ hb, if_neg hfb] at hle
  omega

/-- The machine with `m` slots against any policy with `h ≤ m` frames. -/
theorem faults_run_competitive {T : ℕ → Finset α} (hT : Policy h string T) (hm : 1 ≤ m)
    (hle : h ≤ m) :
    (m - h + 1) * (run m string).faults ≤
      (2 * m - 1) * Paging.faults string T + (2 * m - 1) * (m - h) := by
  have hfaults : (run m string).faults = Paging.faults string (resident m string) := by
    rw [← Paging.faultsUpTo_length, ← faults_run hm le_rfl, List.take_length]
  rw [hfaults]
  exact (spread hm).faults_le hT (by omega) hle

end SchoolOS.SecondChance
