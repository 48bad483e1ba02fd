import SchoolOS.PageReplacement.Steps

/-!
# The victim of `OPT`

`Visited` is the invariant of the loop over the future references: the marked pages are those that
were seen, and `delete_idx` is the one that was seen first at the latest position. So a page that is
not marked at the end is never used again, and if all are marked then `delete_idx` is the page whose
next use is farthest away.
-/

namespace SchoolOS.PageReplacement

open Paging (Farthest nextUse)

variable {n m : ℕ} {q : Queue} {l pre future : List ℤ} {page : ℤ}

/-- The marks and `delete_idx` after the references `pre`. -/
structure Visited (l pre : List ℤ) (visit : CArray n) (deleteIdx : Option ℤ) : Prop where
  mark : ∀ i (hi : i < l.length), visit.cells[i]? = some (if l[i] ∈ pre then 1 else 0)
  last : (∃ x ∈ l, x ∈ pre) → ∃ i, ∃ hi : i < l.length, deleteIdx = some (i : ℤ) ∧ l[i] ∈ pre ∧
    ∀ x ∈ l, x ∈ pre → ∀ t, l[i] ∈ pre.take t → x ∈ pre.take t

theorem visited_nil (hn : l.length = n) (deleteIdx : Option ℤ) :
    Visited l [] (CArray.zero n) deleteIdx where
  mark i hi := by simp [CArray.zero, hn ▸ hi]
  last := by simp

/-- Nothing changes at a reference to a page that is not in the queue or has been seen before. -/
theorem Visited.skip {visit : CArray n} {deleteIdx : Option ℤ} (h : Visited l pre visit deleteIdx)
    (hpage : page ∈ l → page ∈ pre) : Visited l (pre ++ [page]) visit deleteIdx := by
  have hmem : ∀ x ∈ l, x ∈ pre ++ [page] ↔ x ∈ pre := by
    intro x hx
    rw [List.mem_append, List.mem_singleton]
    constructor
    · rintro (hpre | rfl)
      · exact hpre
      · exact hpage hx
    · exact Or.inl
  constructor
  · intro i hi
    rw [h.mark i hi]
    simp only [hmem l[i] (List.getElem_mem hi)]
  · rintro ⟨y, hy, hypre⟩
    obtain ⟨i, hi, hidx, hseen, hlast⟩ := h.last ⟨y, hy, (hmem y hy).mp hypre⟩
    refine ⟨i, hi, hidx, List.mem_append_left _ hseen, fun x hx hxpre t ht => ?_⟩
    have hxpre := (hmem x hx).mp hxpre
    by_cases hle : t ≤ pre.length
    · rw [List.take_append_of_le_length hle] at ht ⊢
      exact hlast x hx hxpre t ht
    · rw [List.take_append, List.take_of_length_le (by omega)]
      exact List.mem_append_left _ hxpre

/-- The first reference to a page of the queue. -/
theorem Visited.first {visit visit' : CArray n} {deleteIdx : Option ℤ}
    (h : Visited l pre visit deleteIdx) (hl : l.Nodup) {i : ℕ} (hi : i < l.length)
    (hnew : l[i] ∉ pre) (hn : l.length = n) (hvisit' : visit'.cells = visit.cells.set i 1) :
    Visited l (pre ++ [l[i]]) visit' (some (i : ℤ)) := by
  constructor
  · intro j hj
    rw [hvisit', List.getElem?_set, visit.length_eq]
    by_cases hij : i = j
    · subst hij
      rw [if_pos rfl, if_pos (hn ▸ hi),
        if_pos (List.mem_append_right _ (List.mem_singleton_self _))]
    · have hne : l[j] ≠ l[i] := fun heq => hij (hl.getElem_inj_iff.mp heq).symm
      rw [if_neg hij, h.mark j hj]
      simp [hne]
  · rintro -
    refine ⟨i, hi, rfl, List.mem_append_right _ (List.mem_singleton_self _), fun x _ hx t ht => ?_⟩
    -- the last reference of the list is the only one to `l[i]`, so all of them are taken
    have hlt : pre.length < t := by
      by_contra hle
      rw [List.take_append_of_le_length (by omega)] at ht
      exact hnew (List.mem_of_mem_take ht)
    rwa [List.take_of_length_le (by rw [List.length_append, List.length_singleton]; omega)]

theorem visitStep_visited {visit : CArray n} {deleteIdx : Option ℤ} (hq : q.Lists l)
    (hl : l.Nodup) (hn : l.length = n) (h : Visited l pre visit deleteIdx) (page : ℤ) :
    ∃ visit' deleteIdx', visitStep q (visit, deleteIdx) page = some (visit', deleteIdx') ∧
      Visited l (pre ++ [page]) visit' deleteIdx' := by
  unfold visitStep
  rw [hq.isHere]
  by_cases hpage : page ∈ l
  · have hlt := List.idxOf_lt_length_of_mem hpage
    have hget : l[l.idxOf page] = page := List.getElem_idxOf hlt
    have hidx : ((l.idxOf page : ℕ) : ℤ) ≠ -1 := by omega
    have hmark := h.mark _ hlt
    rw [hget] at hmark
    simp only [if_pos hpage, Option.bind_eq_bind, Option.bind_some, if_neg hidx,
      CArray.get?_natCast, hmark]
    by_cases hseen : page ∈ pre
    · refine ⟨visit, deleteIdx, by simp [hseen], h.skip fun _ => hseen⟩
    · obtain ⟨visit', hset, hcells⟩ := visit.set?_natCast (hn ▸ hlt) 1
      refine ⟨visit', some (l.idxOf page : ℤ), by simp [hseen, hset], ?_⟩
      have hfirst := h.first hl hlt (by rwa [hget]) hn hcells
      rwa [hget] at hfirst
  · refine ⟨visit, deleteIdx, by simp [hpage], h.skip fun hmem => absurd hmem hpage⟩

theorem visit_loop (hq : q.Lists l) (hl : l.Nodup) (hn : l.length = n) (deleteIdx : Option ℤ)
    (future : List ℤ) :
    ∃ visit deleteIdx', future.foldlM (visitStep q) (CArray.zero n, deleteIdx) =
      some (visit, deleteIdx') ∧ Visited l future visit deleteIdx' := by
  induction future using List.reverseRecOn with
  | nil => exact ⟨_, _, rfl, visited_nil hn deleteIdx⟩
  | append_singleton pre page ih =>
    obtain ⟨visit, d, hfold, hvisited⟩ := ih
    obtain ⟨visit', d', hstep, hvisited'⟩ := visitStep_visited hq hl hn hvisited page
    refine ⟨visit', d', ?_, hvisited'⟩
    rw [List.foldlM_append, hfold]
    simpa using hstep

/-! ## The eviction -/

/-- The page at `i` is used no earlier than any other page of `l`. A page that is never used again
is taken first, at the lowest index. -/
structure FarthestAt (l future : List ℤ) (i : ℕ) : Prop where
  lt : i < l.length
  farthest : Farthest l.toFinset l[i] future
  lowest : ∀ j (hj : j < l.length), l[j] ∉ future → l[i] ∉ future ∧ i ≤ j

/-- The index that is evicted, from the final marks. -/
theorem Visited.victim {visit : CArray n} {deleteIdx : Option ℤ}
    (h : Visited l future visit deleteIdx) (hn : l.length = n) (hpos : 0 < n) :
    ∃ i : ℕ, (visit.find 0 0 n).bind (fun idx => if idx = n then deleteIdx else some idx)
      = some (i : ℤ) ∧ FarthestAt l future i := by
  have hfind := visit.find_natCast 0 0 n (by omega)
  rw [List.drop_zero, List.take_of_length_le visit.length_eq.le, Nat.zero_add,
    Nat.cast_zero] at hfind
  rw [hfind, Option.bind_some]
  by_cases hall : (0 : ℤ) ∈ visit.cells
  · -- some page is not marked
    have hlt := List.idxOf_lt_length_of_mem hall
    have hget : visit.cells[visit.cells.idxOf 0] = 0 := List.getElem_idxOf hlt
    have hi : visit.cells.idxOf 0 < l.length := hlt.trans_eq (visit.length_eq.trans hn.symm)
    have hmark := h.mark _ hi
    rw [List.getElem?_eq_getElem hlt, hget] at hmark
    have hnever : l[visit.cells.idxOf 0] ∉ future := by
      intro hmem
      simp [hmem] at hmark
    refine ⟨_, if_neg (by omega), hi, fun x _ t ht => ?_, fun j hj hnot => ⟨hnever, ?_⟩⟩
    · exact absurd (List.mem_of_mem_take ht) hnever
    · have hmark := h.mark j hj
      rw [if_neg hnot] at hmark
      by_contra hlt
      have hmem : (0 : ℤ) ∈ visit.cells.take (j + 1) :=
        List.mem_of_getElem? (by rw [List.getElem?_take_of_lt (Nat.lt_succ_self j), hmark])
      have := (List.mem_take_iff_idxOf_lt hall).mp hmem
      omega
  · -- every page will be used again
    have hused : ∀ x ∈ l, x ∈ future := by
      intro x hx
      by_contra hnot
      obtain ⟨j, hj, rfl⟩ := List.mem_iff_getElem.mp hx
      have hmark := h.mark j hj
      rw [if_neg hnot] at hmark
      exact hall (List.mem_of_getElem? hmark)
    have hmem : l[0] ∈ l := List.getElem_mem (by omega)
    obtain ⟨i, hi, hidx, -, hlast⟩ := h.last ⟨l[0], hmem, hused _ hmem⟩
    refine ⟨i, ?_, hi, fun x hx t ht => ?_, fun j hj hnot => ?_⟩
    · rw [List.idxOf_eq_length hall, visit.length_eq, if_pos rfl, hidx]
    · rw [List.mem_toFinset] at hx
      exact hlast x hx (hused x hx) t ht
    · exact absurd (hused _ (List.getElem_mem hj)) hnot

/-- The search for the page to evict, and `delete_idx` after it. -/
def Opt.victim (future : List ℤ) (s : Opt) : Option (ℤ × Option ℤ) := do
  let (visit, deleteIdx) ←
    future.foldlM (visitStep s.q) (CArray.zero s.q.len.toNat, s.deleteIdx)
  let idx ← visit.find 0 0 s.q.len.toNat
  let victim ← if idx = s.q.len then deleteIdx else some idx
  some (victim, deleteIdx)

/-- `OPT` searches for a page and evicts it. -/
theorem Opt.evict_eq_victim (future : List ℤ) (s : Opt) :
    s.evict future = (s.victim future).bind fun found =>
      (s.q.pop found.1).bind fun q => some { s with q := q, deleteIdx := found.2 } := by
  unfold Opt.evict Opt.victim
  simp only [Option.bind_eq_bind, Option.bind_assoc, Option.bind_some]
  refine congrArg _ (funext fun marks => congrArg _ (funext fun idx => ?_))
  split
  · rw [Option.bind_assoc]
    rfl
  · rfl

/-- The search always ends with a page, and with one whose next use is farthest away. -/
theorem Opt.victim_eq {s : Opt} (hq : s.q.Lists l) (hl : l.Nodup) (hpos : 0 < l.length)
    (hlen : s.q.len = l.length) (future : List ℤ) :
    ∃ (i : ℕ) (d : Option ℤ), s.victim future = some ((i : ℤ), d) ∧ FarthestAt l future i := by
  have hn : l.length = s.q.len.toNat := by rw [hlen, Int.toNat_natCast]
  have hcast : ((s.q.len.toNat : ℕ) : ℤ) = s.q.len := by rw [← hn, hlen]
  obtain ⟨visit, d, hloop, hvisited⟩ := visit_loop hq hl hn s.deleteIdx future
  obtain ⟨i, hvictim, hfar⟩ := hvisited.victim hn (by omega)
  obtain ⟨idx, hfind, hidx⟩ := Option.bind_eq_some_iff.mp hvictim
  rw [hcast] at hidx
  refine ⟨i, d, ?_, hfar⟩
  unfold Opt.victim
  simp only [hloop, hfind, Option.bind_eq_bind, Option.bind_some]
  by_cases hall : idx = s.q.len
  · rw [if_pos hall] at hidx
    simp only [if_pos hall, hidx, Option.bind_some]
  · rw [if_neg hall, Option.some.injEq] at hidx
    simp only [if_neg hall]
    rw [hidx]

theorem Opt.evict_eq {s : Opt} (hq : s.q.Represents m l) (hl : l.Nodup) (hm : 0 < m)
    (hfull : l.length = m) (future : List ℤ) :
    ∃ (s' : Opt) (i : ℕ) (d : Option ℤ), s.victim future = some ((i : ℤ), d) ∧
      FarthestAt l future i ∧
      s.evict future = some s' ∧ s'.q.Represents m (l.eraseIdx i) ∧ s'.pageFault = s.pageFault := by
  obtain ⟨i, d, hvictim, hfar⟩ :=
    Opt.victim_eq hq.lists hl (by omega) (by rw [hq.len, hfull]) future
  obtain ⟨q', hpop, hq'⟩ := hq.pop hfar.lt
  refine ⟨⟨⟨q', s.pageFault⟩, d⟩, i, d, hvictim, hfar, ?_, hq', rfl⟩
  rw [Opt.evict_eq_victim, hvictim, Option.bind_some, hpop, Option.bind_some]

/-- One reference in `OPT`. A page that is replaced is one whose next use is farthest away. -/
theorem optStep_eq {s : Opt} (hm : 0 < m) (h : s.Valid m) (page : ℤ) (future : List ℤ) :
    ∃ s', optStep page future s = some s' ∧ s'.Valid m ∧ s.Served m page s'.toFrames ∧
      (page ∉ s.q.pages → s.q.pages.length = m → ∃ (i : ℕ) (d : Option ℤ),
        s.victim future = some ((i : ℤ), d) ∧ FarthestAt s.q.pages future i ∧
        s'.q.pages = s.q.pages.eraseIdx i ++ [page]) := by
  have hq := h.represents
  have hle := hq.length_le
  unfold optStep
  rw [hq.isHere]
  by_cases hpage : page ∈ s.q.pages
  · have hidx : ((s.q.pages.idxOf page : ℕ) : ℤ) ≠ -1 := by omega
    refine ⟨s, by simp [hpage, hidx], h, ⟨.hit h.nodup hpage (List.Perm.refl _), by simp [hpage]⟩,
      ?_⟩
    exact fun hnot => absurd hpage hnot
  · simp only [if_neg hpage, Option.bind_eq_bind, Option.bind_some, if_true, hq.isFull]
    by_cases hfull : s.q.pages.length = m
    · obtain ⟨s₁, i, d, hvictim, hfar, hevict, hq₁, hfault⟩ :=
        Opt.evict_eq hq h.nodup hm hfull future
      have hlength := List.length_eraseIdx_of_lt hfar.lt
      obtain ⟨q', hpush, hq'⟩ := hq₁.push_tail (by omega) page
      have hserved : Frames.Valid m ⟨q', s₁.pageFault + 1⟩ ∧
          s.Served m page ⟨q', s₁.pageFault + 1⟩ :=
        Frames.served_of_represents hq'
          (.evict h.nodup hpage hfull hfar.lt (List.perm_append_singleton _ _))
          (by simp [hpage, hfault])
      refine ⟨{ s₁ with q := q', pageFault := s₁.pageFault + 1 }, ?_, hserved.1, hserved.2, ?_⟩
      · simp [hfull, hevict, hpush]
      · exact fun _ _ => ⟨i, d, hvictim, hfar, hq'.pages⟩
    · obtain ⟨q', hpush, hq'⟩ := hq.push_tail (by omega) page
      have hserved : Frames.Valid m ⟨q', s.pageFault + 1⟩ ∧ s.Served m page ⟨q', s.pageFault + 1⟩ :=
        Frames.served_of_represents hq'
          (.fill h.nodup hpage (by omega) (List.perm_append_singleton _ _)) (by simp [hpage])
      refine ⟨{ s with q := q', pageFault := s.pageFault + 1 }, ?_, hserved.1, hserved.2, ?_⟩
      · simp [hfull, hpush]
      · exact fun _ hm => absurd hm hfull

/-- The search of `OPT` in a full table without duplicates, whatever `delete_idx` holds. It finds
the index of a page whose next use is no earlier than that of any other page of the table, and the
lowest index of a page that is never used again if there is one. The page at this index is the one
that is replaced (if `pop` has the cell behind the table that it reads). -/
theorem opt_victim_farthest {s : Opt} {l : List ℤ} (hq : s.q.Lists l) (hl : l.Nodup)
    (hpos : 1 ≤ l.length) (hfull : s.q.isFull) (string : List ℤ) (i : ℕ) (hi : i < string.length)
    (hmiss : string[i] ∉ l) :
    ∃ (v : ℕ) (d : Option ℤ), s.victim (string.drop (i + 1)) = some ((v : ℤ), d) ∧
      (∃ hv : v < l.length,
        (∀ x ∈ l, nextUse (string.drop (i + 1)) x ≤ nextUse (string.drop (i + 1)) l[v]) ∧
        ∀ j (hj : j < l.length), l[j] ∉ string.drop (i + 1) → l[v] ∉ string.drop (i + 1) ∧ v ≤ j) ∧
      (l.length < MAX_SIZE → ∃ s', optStep string[i] (string.drop (i + 1)) s = some s' ∧
        s'.q.pages = l.eraseIdx v ++ [string[i]]) := by
  have hlen : s.q.len = l.length := by
    rw [← hq.tail]
    exact (of_decide_eq_true hfull).symm
  obtain ⟨v, d, hvictim, hfar⟩ := Opt.victim_eq hq hl hpos hlen (string.drop (i + 1))
  refine ⟨v, d, hvictim, ⟨hfar.lt, fun x hx => ?_, hfar.lowest⟩, fun hmax => ?_⟩
  · exact hfar.farthest.nextUse_le (List.mem_toFinset.mpr hx)
  · have hpages := hq.pages
    have hrep : s.q.Represents l.length l := ⟨hlen, hq.tail, hq.holds, le_rfl, hmax⟩
    have hvalid : s.toFrames.Valid l.length := ⟨hpages.symm ▸ hrep, hpages.symm ▸ hl⟩
    obtain ⟨s', hstep, -, -, hevict⟩ := optStep_eq hpos hvalid string[i] (string.drop (i + 1))
    rw [hpages] at hevict
    obtain ⟨v', d', hvictim', -, hpages'⟩ := hevict hmiss rfl
    rw [hvictim, Option.some.injEq, Prod.mk.injEq, Nat.cast_inj] at hvictim'
    obtain ⟨rfl, -⟩ := hvictim'
    exact ⟨s', hstep, hpages'⟩

/-- A full table with the pages `1` and `2`. -/
def twoPages : Opt where
  q :=
    ⟨⟨[1, 2] ++ List.replicate 998 0, by rw [List.length_append, List.length_replicate]; rfl⟩, 2, 2⟩
  pageFault := 2
  deleteIdx := none

/-- The page `1` is evicted, since it is used after `2`. -/
theorem opt_victim_farthest_twoPages :
    ∃ s', optStep 3 [2, 1] twoPages = some s' ∧ s'.q.pages = [2, 3] := by
  obtain ⟨v, d, -, ⟨hv, hfar, -⟩, hstep⟩ := opt_victim_farthest (s := twoPages) (l := [1, 2])
    ⟨rfl, rfl⟩ (by decide) (by decide) rfl [3, 2, 1] 0 (by decide) (by decide)
  have hle : nextUse [2, 1] (1 : ℤ) ≤ nextUse [2, 1] ([1, 2] : List ℤ)[v] := hfar 1 (by decide)
  have hzero : v = 0 := by
    by_contra hne
    obtain rfl : v = 1 := by
      simp only [List.length_cons, List.length_nil] at hv
      omega
    simp [nextUse] at hle
  subst hzero
  exact hstep (by decide)

end SchoolOS.PageReplacement
