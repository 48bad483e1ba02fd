import Mathlib.Data.List.Perm.Basic
import Mathlib.Tactic.Ring
import SchoolOS.Lib.Paging

/-!
# Replacement without knowledge of the future

Cut the string behind every `n`-th fault of a run. The run is `Spread` if every piece has `m` pages
besides the one that was referenced just before it. A policy with `h ≤ m` frames then has
`m - h + 1` faults in the piece (`Spread.faults_le`). A run is `Conservative` if at least `m` other
pages are referenced between two faults on the same page, and then every `m` faults have `m` pages
(`Conservative.spread`).

A `QueueRun` keeps its pages in a queue, replaces the page at the front, and may move a page that is
referenced to the end. All its runs are conservative, since the pages behind a page in the queue
have all been referenced after it was loaded (`QueueRun.conservative`).
-/

namespace SchoolOS.Paging

variable {α : Type*} [DecidableEq α] {m h : ℕ} {string : List α} {S T : ℕ → Finset α}

/-! ## The pages of a piece of the string -/

/-- The pages of the references `lo`, …, `hi - 1`. -/
def pagesBetween (string : List α) (lo hi : ℕ) : Finset α := ((string.take hi).drop lo).toFinset

theorem mem_pagesBetween {lo hi : ℕ} {x : α} :
    x ∈ pagesBetween string lo hi ↔ ∃ i, lo ≤ i ∧ i < hi ∧ string[i]? = some x := by
  rw [pagesBetween, List.mem_toFinset, List.mem_iff_getElem?]
  constructor
  · rintro ⟨n, hn⟩
    rw [List.getElem?_drop, List.getElem?_take] at hn
    split at hn
    · exact ⟨lo + n, Nat.le_add_right _ _, by assumption, hn⟩
    · exact absurd hn (by simp)
  · rintro ⟨i, hlo, hhi, hi⟩
    refine ⟨i - lo, ?_⟩
    rw [List.getElem?_drop, List.getElem?_take, Nat.add_sub_cancel' hlo, if_pos hhi, hi]

theorem getElem_mem_pagesBetween {lo hi i : ℕ} (hlo : lo ≤ i) (hhi : i < hi)
    (hlt : i < string.length) : string[i] ∈ pagesBetween string lo hi :=
  mem_pagesBetween.mpr ⟨i, hlo, hhi, List.getElem?_eq_getElem hlt⟩

@[simp] theorem pagesBetween_self (lo : ℕ) : pagesBetween string lo lo = ∅ := by
  ext x
  rw [mem_pagesBetween]
  constructor
  · rintro ⟨i, hlo, hhi, -⟩
    omega
  · intro hx
    exact absurd hx (Finset.notMem_empty x)

theorem pagesBetween_succ {lo k : ℕ} (hlo : lo ≤ k) (hk : k < string.length) :
    pagesBetween string lo (k + 1) = insert string[k] (pagesBetween string lo k) := by
  ext x
  rw [Finset.mem_insert, mem_pagesBetween, mem_pagesBetween]
  constructor
  · rintro ⟨i, hi, hlt, hx⟩
    by_cases hik : i = k
    · subst hik
      rw [List.getElem?_eq_getElem hk, Option.some.injEq] at hx
      exact Or.inl hx.symm
    · exact Or.inr ⟨i, hi, by omega, hx⟩
  · rintro (rfl | ⟨i, hi, hlt, hx⟩)
    · exact ⟨k, hlo, Nat.lt_succ_self k, List.getElem?_eq_getElem hk⟩
    · exact ⟨i, hi, by omega, hx⟩

theorem pagesBetween_subset {lo lo' hi hi' : ℕ} (hlo : lo' ≤ lo) (hhi : hi ≤ hi') :
    pagesBetween string lo hi ⊆ pagesBetween string lo' hi' := by
  intro x hx
  obtain ⟨i, hi, hlt, hx⟩ := mem_pagesBetween.mp hx
  exact mem_pagesBetween.mpr ⟨i, hlo.trans hi, hlt.trans_le hhi, hx⟩

/-! ## The competitor in a piece of the string -/

theorem faultsUpTo_mono (string : List α) (S : ℕ → Finset α) {j k : ℕ} (hjk : j ≤ k) :
    faultsUpTo string S j ≤ faultsUpTo string S k := by
  apply Finset.card_le_card
  apply Finset.monotone_filter_right
  exact fun i _ hi => ⟨hi.1.trans_le hjk, hi.2⟩

namespace Policy

/-- A page is resident because it was, or because it has been referenced since. -/
theorem subset_union (hT : Policy h string T) {lo hi : ℕ} (hlo : lo ≤ hi)
    (hhi : hi ≤ string.length) :
    T hi ⊆ T lo ∪ pagesBetween string lo hi := by
  induction hi, hlo using Nat.le_induction with
  | base => exact Finset.subset_union_left
  | succ k hk ih =>
    rw [pagesBetween_succ hk hhi, Finset.union_insert]
    exact (hT.subset k hhi).trans (Finset.insert_subset_insert _ (ih (Nat.le_of_succ_le hhi)))

/-- Every page of a piece that is not resident at its beginning costs a fault in it. -/
theorem card_sdiff_add_le (hT : Policy h string T) {lo hi : ℕ} (hlo : lo ≤ hi)
    (hhi : hi ≤ string.length) :
    (pagesBetween string lo hi \ T lo).card + faultsUpTo string T lo ≤ faultsUpTo string T hi := by
  induction hi, hlo using Nat.le_induction with
  | base => simp
  | succ k hk ih =>
    have ih := ih (Nat.le_of_succ_le hhi)
    rw [pagesBetween_succ hk hhi, faultsUpTo_succ hhi]
    by_cases hres : string[k] ∈ T k
    · -- a resident page was resident at the beginning or has been counted
      have hsame : insert string[k] (pagesBetween string lo k) \ T lo =
          pagesBetween string lo k \ T lo := by
        have hunion := hT.subset_union hk (Nat.le_of_succ_le hhi) hres
        rcases Finset.mem_union.mp hunion with hold | hnew
        · exact Finset.insert_sdiff_of_mem _ hold
        · rw [Finset.insert_eq_of_mem hnew]
      rw [hsame, if_pos hres]
      exact ih
    · have hsub : insert string[k] (pagesBetween string lo k) \ T lo ⊆
          insert string[k] (pagesBetween string lo k \ T lo) := by
        intro x hx
        obtain ⟨hpage, hout⟩ := Finset.mem_sdiff.mp hx
        exact Finset.mem_insert.mpr
          ((Finset.mem_insert.mp hpage).imp id fun hpage => Finset.mem_sdiff.mpr ⟨hpage, hout⟩)
      have hcard := (Finset.card_le_card hsub).trans (Finset.card_insert_le _ _)
      rw [if_neg hres]
      omega

/-- After a reference to `p`, a piece with `m` pages besides `p` costs `m - h + 1` faults. -/
theorem faultsUpTo_add_le (hT : Policy h string T) (hle : h ≤ m) {a b : ℕ} (hab : a ≤ b)
    (hb : b < string.length)
    (hpages : m ≤ ((pagesBetween string (a + 1) (b + 1)).erase string[a]).card) :
    faultsUpTo string T (a + 1) + (m - h + 1) ≤ faultsUpTo string T (b + 1) := by
  have hha : a < string.length := by omega
  have hpiece := hT.card_sdiff_add_le (show a + 1 ≤ b + 1 by omega) hb
  have hsub : (pagesBetween string (a + 1) (b + 1)).erase string[a] \ (T (a + 1)).erase string[a] ⊆
      pagesBetween string (a + 1) (b + 1) \ T (a + 1) := by
    intro x hx
    obtain ⟨hpage, hout⟩ := Finset.mem_sdiff.mp hx
    obtain ⟨hne, hpage⟩ := Finset.mem_erase.mp hpage
    exact Finset.mem_sdiff.mpr ⟨hpage, fun hmem => hout (Finset.mem_erase.mpr ⟨hne, hmem⟩)⟩
  have hcard := (Finset.le_card_sdiff ((T (a + 1)).erase string[a])
    ((pagesBetween string (a + 1) (b + 1)).erase string[a])).trans (Finset.card_le_card hsub)
  rw [Finset.card_erase_of_mem (hT.resident a hha)] at hcard
  have hframes := hT.card_le a hha
  have hpos := Finset.card_pos.mpr ⟨_, hT.resident a hha⟩
  omega

end Policy

/-! ## The faults of a run -/

/-- At least `m` other pages are referenced between two faults on the same page. -/
def Conservative (m : ℕ) (string : List α) (S : ℕ → Finset α) : Prop :=
  ∀ u v (hu : u < string.length) (hv : v < string.length), u < v → string[u] = string[v] →
    string[u] ∉ S u → string[v] ∉ S v → m ≤ ((pagesBetween string (u + 1) v).erase string[v]).card

/-- A piece with `n` faults has `m` pages besides the one that was loaded just before it. -/
def Spread (n m : ℕ) (string : List α) (S : ℕ → Finset α) : Prop :=
  ∀ a b (ha : a < string.length) (hb : b < string.length), a ≤ b → string[a] ∉ S a →
    string[b] ∉ S b → faultsUpTo string S b = faultsUpTo string S a + n →
    m ≤ ((pagesBetween string (a + 1) (b + 1)).erase string[a]).card

/-- The fault number `c`, counted from 0. -/
theorem exists_fault {c k : ℕ} (hk : k ≤ string.length) (hc : c < faultsUpTo string S k) :
    ∃ a, ∃ ha : a < string.length, a < k ∧ string[a] ∉ S a ∧ faultsUpTo string S a = c := by
  induction k with
  | zero => exact absurd hc (by simp)
  | succ k ih =>
    by_cases hlt : c < faultsUpTo string S k
    · obtain ⟨a, ha, hak, hfault⟩ := ih (Nat.le_of_succ_le hk) hlt
      exact ⟨a, ha, by omega, hfault⟩
    · rw [faultsUpTo_succ hk] at hc
      by_cases hres : string[k] ∈ S k
      · rw [if_pos hres] at hc
        exact absurd hc hlt
      · rw [if_neg hres] at hc
        exact ⟨k, hk, Nat.lt_succ_self k, hres, by omega⟩

/-- The faults from reference `a` to reference `b`. -/
def faultsBetween (string : List α) (S : ℕ → Finset α) (a b : ℕ) : Finset (Fin string.length) :=
  Finset.univ.filter fun i => a ≤ i.val ∧ i.val ≤ b ∧ string.get i ∉ S i

theorem card_faultsBetween (string : List α) (S : ℕ → Finset α) {a b : ℕ} (hab : a ≤ b) :
    (faultsBetween string S a b).card + faultsUpTo string S a = faultsUpTo string S (b + 1) := by
  rw [faultsUpTo, faultsUpTo, ← Finset.card_union_of_disjoint]
  · congr 1
    ext i
    simp only [faultsBetween, Finset.mem_union, Finset.mem_filter, Finset.mem_univ, true_and]
    constructor
    · rintro (⟨-, hle, hfault⟩ | ⟨hlt, hfault⟩)
      · exact ⟨by omega, hfault⟩
      · exact ⟨by omega, hfault⟩
    · rintro ⟨hlt, hfault⟩
      by_cases hia : i.val < a
      · exact Or.inr ⟨hia, hfault⟩
      · exact Or.inl ⟨by omega, by omega, hfault⟩
  · rw [Finset.disjoint_left]
    intro i hi hi'
    have hge := (Finset.mem_filter.mp hi).2.1
    have hlt := (Finset.mem_filter.mp hi').2.1
    omega

/-- The faults of a piece are on different pages, or there are `m` pages between two of them. -/
theorem Conservative.spread (hS : Conservative m string S) : Spread m m string S := by
  intro a b ha hb hab hfa hfb hcount
  have hcard := card_faultsBetween string S hab
  rw [faultsUpTo_succ hb, if_neg hfb, hcount] at hcard
  by_cases hinj : Set.InjOn (fun i : Fin string.length => string[i]) (faultsBetween string S a b)
  · -- The faults are on different pages.
    have himage := Finset.card_image_of_injOn hinj
    have hsub : (faultsBetween string S a b).image (fun i : Fin string.length => string[i]) ⊆
        insert string[a] ((pagesBetween string (a + 1) (b + 1)).erase string[a]) := by
      intro x hx
      obtain ⟨i, hi, rfl⟩ := Finset.mem_image.mp hx
      obtain ⟨hai, hib, -⟩ := (Finset.mem_filter.mp hi).2
      rw [Finset.mem_insert, Finset.mem_erase, or_iff_not_imp_left]
      intro hne
      have hia : i.val ≠ a := by
        rintro rfl
        exact hne rfl
      exact ⟨hne, getElem_mem_pagesBetween (by omega) (by omega) i.isLt⟩
    have hle := (Finset.card_le_card hsub).trans (Finset.card_insert_le _ _)
    omega
  · -- Two of the faults are on the same page.
    have htwice : ∃ u v : Fin string.length, u.val < v.val ∧ a ≤ u.val ∧ v.val ≤ b ∧
        string[u] = string[v] ∧ string[u] ∉ S u ∧ string[v] ∉ S v := by
      simp only [Set.InjOn, not_forall] at hinj
      obtain ⟨u, hu, v, hv, heq, hne⟩ := hinj
      obtain ⟨hau, hub, hfu⟩ := (Finset.mem_filter.mp hu).2
      obtain ⟨hav, hvb, hfv⟩ := (Finset.mem_filter.mp hv).2
      rcases Nat.lt_or_gt_of_ne (Fin.val_ne_of_ne hne) with hlt | hgt
      · exact ⟨u, v, hlt, hau, hvb, heq, hfu, hfv⟩
      · exact ⟨v, u, hgt, hav, hub, heq.symm, hfv, hfu⟩
    obtain ⟨u, v, huv, hau, hvb, heq, hfu, hfv⟩ := htwice
    have hmany := hS u v u.isLt v.isLt huv heq hfu hfv
    have hsub : insert string[v] ((pagesBetween string (u + 1) v).erase string[v]) ⊆
        pagesBetween string (a + 1) (b + 1) := by
      rw [Finset.insert_subset_iff]
      refine ⟨getElem_mem_pagesBetween (by omega) (by omega) v.isLt, ?_⟩
      have hlo : a + 1 ≤ u.val + 1 := by omega
      have hhi : v.val ≤ b + 1 := by omega
      exact (Finset.erase_subset _ _).trans (pagesBetween_subset hlo hhi)
    have hle := Finset.card_le_card hsub
    rw [Finset.card_insert_of_notMem (Finset.notMem_erase _ _)] at hle
    have herase := Finset.pred_card_le_card_erase (s := pagesBetween string (a + 1) (b + 1))
      (a := string[a])
    simp only [Fin.getElem_fin] at hle
    omega

namespace Spread

variable {n : ℕ}

/-- At a fault of the run, the competitor has had `m - h + 1` faults for every `n` faults of the
run, and one fault for the first reference. -/
theorem faultsUpTo_le (hS : Spread n m string S) (hT : Policy h string T) (hn : 1 ≤ n) (hle : h ≤ m)
    (a : ℕ) (ha : a < string.length) (hfa : string[a] ∉ S a) :
    faultsUpTo string S a / n * (m - h + 1) + 1 ≤ faultsUpTo string T (a + 1) := by
  induction a using Nat.strong_induction_on with
  | _ b ih =>
    by_cases hlt : faultsUpTo string S b < n
    · have hfirst : faultsUpTo string T 1 = 1 := by
        rw [faultsUpTo_succ (by omega), faultsUpTo_zero, hT.start]
        rfl
      have hmono := faultsUpTo_mono string T (show 1 ≤ b + 1 by omega)
      rw [Nat.div_eq_of_lt hlt, Nat.zero_mul]
      omega
    · -- the piece begins behind the fault that is `n` faults earlier
      obtain ⟨a, ha', hab, hfa', hcount⟩ := exists_fault (S := S) (c := faultsUpTo string S b - n)
        (k := b) ha.le (by omega)
      have ih := ih a hab ha' hfa'
      have hpages := hS a b ha' ha hab.le hfa' hfa (by omega)
      have hpiece := hT.faultsUpTo_add_le hle hab.le ha hpages
      have hdiv : faultsUpTo string S b / n = faultsUpTo string S a / n + 1 := by
        rw [show faultsUpTo string S b = faultsUpTo string S a + n by omega,
          Nat.add_div_right _ (by omega)]
      rw [hdiv, Nat.add_mul, Nat.one_mul]
      omega

/-- The run against any policy with `h ≤ m` frames. -/
theorem faults_le (hS : Spread n m string S) (hT : Policy h string T) (hn : 1 ≤ n) (hle : h ≤ m) :
    (m - h + 1) * faults string S ≤ n * faults string T + n * (m - h) := by
  rw [← faultsUpTo_length (S := S), ← faultsUpTo_length (S := T)]
  rcases Nat.eq_zero_or_pos (faultsUpTo string S string.length) with hzero | hpos
  · rw [hzero, Nat.mul_zero]
    exact Nat.zero_le _
  · obtain ⟨a, ha, -, hfa, hcount⟩ := exists_fault (S := S)
      (c := faultsUpTo string S string.length - 1) le_rfl (Nat.sub_lt hpos Nat.one_pos)
    have hlast := (hS.faultsUpTo_le hT hn hle a ha hfa).trans
      (faultsUpTo_mono string T (show a + 1 ≤ string.length by omega))
    rw [hcount] at hlast
    generalize faultsUpTo string T string.length = t at hlast ⊢
    generalize faultsUpTo string S string.length = s at hlast hpos ⊢
    have hround : s ≤ n * ((s - 1) / n + 1) := by
      have hlt := Nat.lt_mul_div_succ (s - 1) hn
      omega
    calc (m - h + 1) * s ≤ (m - h + 1) * (n * ((s - 1) / n + 1)) := Nat.mul_le_mul_left _ hround
      _ = n * ((s - 1) / n * (m - h + 1) + 1 + (m - h)) := by ring
      _ ≤ n * (t + (m - h)) := Nat.mul_le_mul_left _ (Nat.add_le_add_right hlast _)
      _ = n * t + n * (m - h) := Nat.mul_add _ _ _

end Spread

/-! ## Queues -/

/-- A queue of pages before and after a reference to `page`. The page at the front is replaced if
the queue has `m` pages. A page that is referenced again keeps its place or moves to the end. -/
inductive QueueStep (m : ℕ) (l : List α) (page : α) : List α → Prop
  | keep : page ∈ l → QueueStep m l page l
  | move : page ∈ l → QueueStep m l page (l.erase page ++ [page])
  | push : page ∉ l → QueueStep m l page ((if l.length = m then l.tail else l) ++ [page])

/-- The queues of a run: `l i` is the queue before reference `i`. -/
structure QueueRun (m : ℕ) (string : List α) (l : ℕ → List α) : Prop where
  start : l 0 = []
  step : ∀ i (hi : i < string.length), QueueStep m (l i) string[i] (l (i + 1))

/-- The pages behind `x` in the queue are all among `refs`. -/
def Behind (x : α) (refs : Finset α) (l : List α) : Prop :=
  ∃ before after, l = before ++ x :: after ∧ ∀ y ∈ after, y ∈ refs

section Queue

variable {l l' : List α} {page x : α} {refs : Finset α}

theorem QueueStep.nodup (h : QueueStep m l page l') (hl : l.Nodup) : l'.Nodup := by
  cases h with
  | keep => exact hl
  | move hpage =>
    rw [(List.perm_append_singleton _ _).nodup_iff]
    exact (List.perm_cons_erase hpage).nodup_iff.mp hl
  | push hpage =>
    refine (List.perm_append_singleton _ _).nodup_iff.mpr (List.nodup_cons.mpr ?_)
    by_cases hfull : l.length = m
    · rw [if_pos hfull]
      exact ⟨fun hmem => hpage (List.mem_of_mem_tail hmem), hl.tail⟩
    · rw [if_neg hfull]
      exact ⟨hpage, hl⟩

theorem Behind.append (h : Behind x refs l) (page : α) :
    Behind x (insert page refs) (l ++ [page]) := by
  obtain ⟨before, after, rfl, hafter⟩ := h
  refine ⟨before, after ++ [page], by simp, fun y hy => ?_⟩
  rcases List.mem_append.mp hy with hy | hy
  · exact Finset.mem_insert_of_mem (hafter y hy)
  · rw [List.mem_singleton.mp hy]
    exact Finset.mem_insert_self _ _

omit [DecidableEq α] in
theorem Behind.mono {refs' : Finset α} (h : Behind x refs l) (hsub : refs ⊆ refs') :
    Behind x refs' l := by
  obtain ⟨before, after, hl, hafter⟩ := h
  exact ⟨before, after, hl, fun y hy => hsub (hafter y hy)⟩

theorem Behind.erase (h : Behind x refs l) (hne : page ≠ x) : Behind x refs (l.erase page) := by
  obtain ⟨before, after, rfl, hafter⟩ := h
  by_cases hbefore : page ∈ before
  · exact ⟨before.erase page, after, List.erase_append_left _ hbefore, hafter⟩
  · refine ⟨before, after.erase page, ?_, fun y hy => hafter y (List.mem_of_mem_erase hy)⟩
    rw [List.erase_append_right _ hbefore, List.erase_cons_tail (by simpa using hne.symm)]

/-- The page stays in the queue, in front of the pages that are referenced from now on, or it is
replaced, and then `m` other pages have been referenced. -/
theorem QueueStep.behind (h : QueueStep m l page l') (hl : l.Nodup) (hx : Behind x refs l) :
    Behind x (insert page refs) l' ∨ m ≤ ((insert page refs).erase x).card := by
  cases h with
  | keep => exact Or.inl (hx.mono (Finset.subset_insert _ _))
  | move hpage =>
    left
    by_cases heq : page = x
    · subst heq
      exact ⟨l.erase page, [], rfl, fun y hy => absurd hy List.not_mem_nil⟩
    · exact (hx.erase heq).append page
  | push hpage =>
    by_cases hfull : l.length = m
    · rw [if_pos hfull]
      obtain ⟨before, after, rfl, hafter⟩ := hx
      cases before with
      | cons b before => exact Or.inl (Behind.append ⟨before, after, rfl, hafter⟩ page)
      | nil =>
        -- the page is at the front, with `m - 1` others behind it
        right
        rw [List.nil_append] at hpage hl hfull
        have hsub : insert page after.toFinset ⊆ (insert page refs).erase x := by
          rw [Finset.subset_erase]
          refine ⟨Finset.insert_subset_insert _ fun y hy => hafter y (List.mem_toFinset.mp hy), ?_⟩
          rw [Finset.mem_insert, List.mem_toFinset, not_or]
          exact ⟨fun heq => hpage (heq ▸ List.mem_cons_self), (List.nodup_cons.mp hl).1⟩
        have hnew : page ∉ after.toFinset := by
          rw [List.mem_toFinset]
          exact fun hmem => hpage (List.mem_cons_of_mem _ hmem)
        have hcard := Finset.card_le_card hsub
        rw [Finset.card_insert_of_notMem hnew,
          List.toFinset_card_of_nodup (List.nodup_cons.mp hl).2] at hcard
        rw [List.length_cons] at hfull
        omega
    · rw [if_neg hfull]
      exact Or.inl (hx.append page)

end Queue

namespace QueueRun

variable {l : ℕ → List α}

theorem nodup (h : QueueRun m string l) {k : ℕ} (hk : k ≤ string.length) : (l k).Nodup := by
  induction k with
  | zero => simp [h.start]
  | succ k ih => exact (h.step k hk).nodup (ih (Nat.le_of_succ_le hk))

/-- After a page has been loaded, it is in front of the pages that have been referenced since, or
those are `m` others. -/
theorem behind (h : QueueRun m string l) {u : ℕ} (hu : u < string.length) (hnew : string[u] ∉ l u)
    {w : ℕ} (huw : u + 1 ≤ w) (hw : w ≤ string.length) :
    Behind string[u] (pagesBetween string (u + 1) w) (l w) ∨
      m ≤ ((pagesBetween string (u + 1) w).erase string[u]).card := by
  induction w, huw using Nat.le_induction with
  | base =>
    left
    have hstep := h.step u hu
    generalize l (u + 1) = l' at hstep ⊢
    cases hstep with
    | keep hmem => exact absurd hmem hnew
    | move hmem => exact absurd hmem hnew
    | push => exact ⟨_, [], rfl, fun y hy => absurd hy List.not_mem_nil⟩
  | succ w huw ih =>
    rw [pagesBetween_succ huw hw]
    rcases ih (Nat.le_of_succ_le hw) with hbehind | hmany
    · exact (h.step w hw).behind (h.nodup (Nat.le_of_succ_le hw)) hbehind
    · right
      exact hmany.trans
        (Finset.card_le_card (Finset.erase_subset_erase _ (Finset.subset_insert _ _)))

/-- Between two faults on a page, `m` other pages are referenced. -/
theorem conservative (h : QueueRun m string l) : Conservative m string fun k => (l k).toFinset := by
  intro u v hu hv huv heq hfu hfv
  rw [List.mem_toFinset] at hfu hfv
  rcases h.behind hu hfu huv hv.le with ⟨before, after, hl, -⟩ | hmany
  · rw [hl, ← heq] at hfv
    exact absurd (List.mem_append_right _ List.mem_cons_self) hfv
  · rwa [← heq]

end QueueRun

end SchoolOS.Paging
