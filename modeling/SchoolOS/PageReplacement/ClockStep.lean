import SchoolOS.PageReplacement.SecondChance
import SchoolOS.PageReplacement.Steps

/-!
# One reference in `CLOCK`

The queue of use bits is as long as the queue of pages, and the hand `evict` points into the table.
What a reference does to the pages is read off the second-chance machine, which replaces a page in
place.
-/

namespace SchoolOS.PageReplacement

variable {m : ℕ} {page : ℤ} {future : List ℤ} {s : Clock} {t : SecondChance ℤ}

/-- The state of `CLOCK` between two references. -/
structure Clock.Valid (m : ℕ) (s : Clock) : Prop extends Frames.Valid m s.toFrames where
  bits : ∃ bits, s.bitQueue.Represents m bits ∧ bits.length = s.q.pages.length
  evict_nonneg : 0 ≤ s.evict
  evict_lt : s.evict < m

theorem Clock.Refines.valid (h : s.Refines m t) (hnodup : t.pages.Nodup) : s.Valid m := by
  have hlt := h.hand_lt
  have hpages := h.pages.pages
  refine ⟨⟨?_, ?_⟩, ⟨_, h.bits, ?_⟩, ?_, ?_⟩
  · rw [hpages]
    exact h.pages
  · rwa [hpages]
  · rw [List.length_map, h.length_bits, hpages]
  · rw [h.evict]
    omega
  · rw [h.evict]
    omega

/-- Replacing a page in place. -/
theorem perm_set {l : List ℤ} {i : ℕ} (hi : i < l.length) (page : ℤ) :
    (l.set i page).Perm (page :: l.eraseIdx i) := by
  have herase := List.length_eraseIdx_of_lt hi
  rw [← List.insertIdx_eraseIdx_self (by omega)]
  exact List.perm_insertIdx _ _ (by omega)

theorem serves_step (h : s.Refines m t) (hnodup : t.pages.Nodup) (page : ℤ) :
    Serves m page t.pages (t.step m page).pages ∧
      (t.step m page).faults = t.faults + if page ∈ t.pages then 0 else 1 := by
  by_cases hpage : page ∈ t.pages
  · rw [SecondChance.step_hit hpage]
    exact ⟨.hit hnodup hpage (List.Perm.refl _), by simp [hpage]⟩
  · by_cases hfull : t.pages.length = m
    · obtain ⟨k, b, -, hturn, hk, -⟩ := Clock.evictPage_turn h hfull
      rw [SecondChance.step_evict hpage hfull hturn]
      exact ⟨.evict hnodup hpage hfull (by omega) (perm_set (by omega) page), by simp [hpage]⟩
    · have hlt := lt_of_le_of_ne h.pages.length_le hfull
      rw [SecondChance.step_fill hpage hlt]
      exact ⟨.fill hnodup hpage hlt (List.perm_append_singleton _ _), by simp [hpage]⟩

theorem clockStep_served (h : s.Refines m t) (hnodup : t.pages.Nodup) :
    ∃ s', clockStep page future s = some s' ∧
      (∃ t' : SecondChance ℤ, s'.Refines m t' ∧ t'.pages.Nodup) ∧ s.Served m page s'.toFrames := by
  obtain ⟨s', hstep, h'⟩ := clockStep_refines h page future
  obtain ⟨hserves, hfaults⟩ := serves_step h hnodup page
  have hserves' := hserves
  rw [← h.pages.pages, ← h'.pages.pages] at hserves'
  refine ⟨s', hstep, ⟨t.step m page, h', hserves.nodup⟩, hserves', ?_⟩
  rw [h'.pageFault, h.pageFault, h.pages.pages, hfaults]

end SchoolOS.PageReplacement
