import SchoolOS.PageReplacement.Queue

/-!
# One reference in `FIFO` and `LRU`

A reference is described by the lists of pages before and after it: `fifoPages` and `lruPages` are
what `FIFO` and `LRU` do to the list, and `Serves` is what the four algorithms have in common.
-/

namespace SchoolOS.PageReplacement

open Paging (Replaces)

/-- A reference to `page` turns the pages `l` into `l'`. -/
structure Serves (m : ℕ) (page : ℤ) (l l' : List ℤ) : Prop where
  nodup : l'.Nodup
  replaces : Replaces m l.toFinset page l'.toFinset

section Serves

variable {m : ℕ} {page : ℤ} {l l' : List ℤ}

theorem Serves.hit (hl : l.Nodup) (hpage : page ∈ l) (hperm : l'.Perm l) : Serves m page l l' where
  nodup := hperm.nodup_iff.mpr hl
  replaces := by
    rw [List.toFinset_eq_of_perm _ _ hperm]
    exact .hit (List.mem_toFinset.mpr hpage)

theorem Serves.fill (hl : l.Nodup) (hpage : page ∉ l) (hlt : l.length < m)
    (hperm : l'.Perm (page :: l)) : Serves m page l l' where
  nodup := hperm.nodup_iff.mpr (List.nodup_cons.mpr ⟨hpage, hl⟩)
  replaces := by
    rw [List.toFinset_eq_of_perm _ _ hperm, List.toFinset_cons]
    refine .fill (List.mem_toFinset.not.mpr hpage) ?_
    rwa [List.toFinset_card_of_nodup hl]

theorem toFinset_eraseIdx (hl : l.Nodup) {i : ℕ} (hi : i < l.length) :
    (l.eraseIdx i).toFinset = l.toFinset.erase l[i] := by
  ext x
  rw [← hl.erase_getElem i hi, List.mem_toFinset, hl.mem_erase_iff, Finset.mem_erase,
    List.mem_toFinset]

theorem Serves.evict (hl : l.Nodup) (hpage : page ∉ l) (hfull : l.length = m) {i : ℕ}
    (hi : i < l.length) (hperm : l'.Perm (page :: l.eraseIdx i)) : Serves m page l l' where
  nodup := by
    have hnot : page ∉ l.eraseIdx i := fun hmem => hpage (List.mem_of_mem_eraseIdx hmem)
    exact hperm.nodup_iff.mpr (List.nodup_cons.mpr ⟨hnot, hl.eraseIdx i⟩)
  replaces := by
    rw [List.toFinset_eq_of_perm _ _ hperm, List.toFinset_cons, toFinset_eraseIdx hl hi]
    refine .evict (List.mem_toFinset.not.mpr hpage) ?_ (List.mem_toFinset.mpr (List.getElem_mem hi))
    rwa [List.toFinset_card_of_nodup hl]

end Serves

/-- What a step of a simulator does to the queue and the counter. -/
structure Frames.Served (m : ℕ) (page : ℤ) (s s' : Frames) : Prop where
  serves : Serves m page s.q.pages s'.q.pages
  pageFault : s'.pageFault = s.pageFault + if page ∈ s.q.pages then 0 else 1

/-- The queue holds pairwise distinct pages, in a table of `m` frames. -/
structure Frames.Valid (m : ℕ) (s : Frames) : Prop where
  represents : s.q.Represents m s.q.pages
  nodup : s.q.pages.Nodup

section Step

variable {m : ℕ} {page : ℤ} {future : List ℤ} {q : Queue} {l : List ℤ} {s s' : Frames}

/-- A step is described by its effect on the list of pages. -/
theorem Frames.served_of_represents (hq : s'.q.Represents m l)
    (hl : Serves m page s.q.pages l)
    (hfault : s'.pageFault = s.pageFault + if page ∈ s.q.pages then 0 else 1) :
    s'.Valid m ∧ s.Served m page s' := by
  obtain rfl := hq.pages
  exact ⟨⟨hq, hl.nodup⟩, hl, hfault⟩

/-! ## `FIFO` -/

/-- The pages after a fault of `FIFO` or `LRU`. -/
def pushPage (m : ℕ) (l : List ℤ) (page : ℤ) : List ℤ :=
  (if l.length = m then l.tail else l) ++ [page]

/-- The pages after a reference in `FIFO`. -/
def fifoPages (m : ℕ) (l : List ℤ) (page : ℤ) : List ℤ := if page ∈ l then l else pushPage m l page

theorem serves_pushPage (hm : 0 < m) (hl : l.Nodup) (hle : l.length ≤ m) (hpage : page ∉ l) :
    Serves m page l (pushPage m l page) := by
  unfold pushPage
  by_cases hfull : l.length = m
  · rw [if_pos hfull]
    refine .evict hl hpage hfull (i := 0) (by omega) ?_
    rw [List.eraseIdx_zero]
    exact List.perm_append_singleton _ _
  · rw [if_neg hfull]
    exact .fill hl hpage (by omega) (List.perm_append_singleton _ _)

/-- Evicting the oldest page of a full table and pushing the new one, before any continuation. -/
theorem Queue.Represents.pushPage {β : Type} (h : q.Represents m l) (hm : 0 < m) (page : ℤ)
    (k : Queue → Option β) :
    ∃ q', (if q.isFull then (q.pop 0).bind fun q => (q.push page q.tail).bind k
      else (q.push page q.tail).bind k) = k q' ∧
      q'.Represents m (PageReplacement.pushPage m l page) := by
  have hle := h.length_le
  unfold PageReplacement.pushPage
  by_cases hfull : l.length = m
  · obtain ⟨q₁, hpop, hq₁⟩ := h.pop (i := 0) (by omega)
    rw [List.eraseIdx_zero] at hq₁
    obtain ⟨q', hpush, hq'⟩ := hq₁.push_tail (by rw [List.length_tail]; omega) page
    rw [Nat.cast_zero] at hpop
    refine ⟨q', ?_, ?_⟩
    · rw [h.isFull, decide_eq_true hfull, if_pos rfl, hpop, Option.bind_some, hpush,
        Option.bind_some]
    · rwa [if_pos hfull]
  · obtain ⟨q', hpush, hq'⟩ := h.push_tail (by omega) page
    refine ⟨q', ?_, ?_⟩
    · rw [h.isFull, decide_eq_false hfull, if_neg Bool.false_ne_true, hpush, Option.bind_some]
    · rwa [if_neg hfull]

theorem fifoStep_eq (h : s.q.Represents m l) (hm : 0 < m) (page : ℤ) (future : List ℤ) :
    ∃ s', fifoStep page future s = some s' ∧ s'.q.Represents m (fifoPages m l page) ∧
      s'.pageFault = s.pageFault + if page ∈ l then 0 else 1 := by
  unfold fifoStep fifoPages
  by_cases hpage : page ∈ l
  · refine ⟨s, ?_, ?_, ?_⟩
    · have hidx : ((l.idxOf page : ℕ) : ℤ) ≠ -1 := by omega
      simp [h.isHere, hpage, hidx]
    · rwa [if_pos hpage]
    · simp [hpage]
  · obtain ⟨q', hpush, hq'⟩ := h.pushPage hm page fun q => some (⟨q, s.pageFault + 1⟩ : Frames)
    refine ⟨⟨q', s.pageFault + 1⟩, ?_, ?_, ?_⟩
    · simp only [h.isHere, if_neg hpage, Option.bind_eq_bind, Option.bind_some, if_true]
      exact hpush
    · rwa [if_neg hpage]
    · simp [hpage]

theorem fifoStep_served (hm : 0 < m) (h : s.Valid m) :
    ∃ s', fifoStep page future s = some s' ∧ s'.Valid m ∧ s.Served m page s' := by
  obtain ⟨s', hstep, hq, hfault⟩ := fifoStep_eq h.represents hm page future
  refine ⟨s', hstep, Frames.served_of_represents hq ?_ hfault⟩
  unfold fifoPages
  by_cases hpage : page ∈ s.q.pages
  · rw [if_pos hpage]
    exact .hit h.nodup hpage (List.Perm.refl _)
  · rw [if_neg hpage]
    exact serves_pushPage hm h.nodup h.represents.length_le hpage

/-! ## `LRU` -/

/-- The pages after a reference in `LRU`. -/
def lruPages (m : ℕ) (l : List ℤ) (page : ℤ) : List ℤ :=
  if page ∈ l then l.erase page ++ [page] else pushPage m l page

/-- On a fault `LRU` does what `FIFO` does. -/
theorem lruStep_eq_fifoStep (h : s.q.isHere page = some (-1)) :
    lruStep page future s = fifoStep page future s := by
  unfold lruStep fifoStep
  rw [h]
  rfl

theorem lruStep_eq (h : s.q.Represents m l) (hm : 0 < m) (page : ℤ) (future : List ℤ) :
    ∃ s', lruStep page future s = some s' ∧ s'.q.Represents m (lruPages m l page) ∧
      s'.pageFault = s.pageFault + if page ∈ l then 0 else 1 := by
  unfold lruPages
  have hle := h.length_le
  by_cases hpage : page ∈ l
  · have hidx : ((l.idxOf page : ℕ) : ℤ) ≠ -1 := by omega
    have hlt := List.idxOf_lt_length_of_mem hpage
    obtain ⟨q₁, hpop, hq₁⟩ := h.pop hlt
    rw [← List.erase_eq_eraseIdx_of_idxOf rfl] at hq₁
    have hlength := List.length_erase_of_mem hpage
    obtain ⟨q', hpush, hq'⟩ := hq₁.push_tail (by omega) page
    refine ⟨⟨q', s.pageFault⟩, ?_, ?_, ?_⟩
    · simp [lruStep, h.isHere, hpage, hidx, hpop, hpush]
    · rwa [if_pos hpage]
    · simp [hpage]
  · obtain ⟨s', hstep, hq', hfault⟩ := fifoStep_eq h hm page future
    refine ⟨s', ?_, ?_, hfault⟩
    · rw [lruStep_eq_fifoStep (by rw [h.isHere, if_neg hpage]), hstep]
    · rw [fifoPages, if_neg hpage] at hq'
      rwa [if_neg hpage]

theorem lruStep_served (hm : 0 < m) (h : s.Valid m) :
    ∃ s', lruStep page future s = some s' ∧ s'.Valid m ∧ s.Served m page s' := by
  obtain ⟨s', hstep, hq, hfault⟩ := lruStep_eq h.represents hm page future
  refine ⟨s', hstep, Frames.served_of_represents hq ?_ hfault⟩
  unfold lruPages
  by_cases hpage : page ∈ s.q.pages
  · rw [if_pos hpage]
    -- moving a page to the end only permutes the table
    refine .hit h.nodup hpage ?_
    exact (List.perm_append_singleton _ _).trans (List.perm_cons_erase hpage).symm
  · rw [if_neg hpage]
    exact serves_pushPage hm h.nodup h.represents.length_le hpage

end Step

end SchoolOS.PageReplacement
