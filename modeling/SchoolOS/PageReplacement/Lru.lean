import SchoolOS.Lib.Recency
import SchoolOS.PageReplacement.DemandPaging

/-!
# The pages of `LRU`

After every prefix of the reference string, the queue of `LRU` with `m` frames holds the last `m`
pages of the recency list of the prefix: its distinct pages, ordered by their last references
(`lru_eq_rtake`). The recency list does not depend on `m`, so a larger table holds the pages of a
smaller one.
-/

namespace SchoolOS.PageReplacement

variable {m : ℕ} {L l : List ℤ} {page : ℤ}

theorem lruPages_rtake (hm : 1 ≤ m) (hL : L.Nodup) :
    lruPages m (L.rtake m) page = (L.erase page ++ [page]).rtake m := by
  obtain ⟨n, rfl⟩ : ∃ n, m = n + 1 := ⟨m - 1, by omega⟩
  rw [List.rtake_concat_succ]
  unfold lruPages pushPage
  by_cases hpage : page ∈ L.rtake (n + 1)
  · rw [if_pos hpage, rtake_erase_of_mem hL hpage]
  · rw [if_neg hpage, rtake_erase_of_notMem hpage]

/-- `LRU` keeps the most recently used pages, in the order of their last references. -/
theorem lru_eq_rtake (arr : CArray MAX_SIZE) (hm : 1 ≤ m) (hmax : m < MAX_SIZE) {string : List ℤ}
    {k : ℕ} (hk : k ≤ string.length) :
    ∃ s, lru arr m string k = some s ∧ s.q.Represents m ((string.take k).dedup.rtake m) := by
  refine iterate_invariant
    (I := fun k (s : Frames) => s.q.Represents m ((string.take k).dedup.rtake m)) ?_ ?_ hk
  · rw [List.take_zero, List.dedup_nil, List.rtake_nil]
    exact Queue.represents_init arr hmax
  · intro k hk s hq
    obtain ⟨s', hstep, hq', -⟩ := lruStep_eq hq hm string[k] (string.drop (k + 1))
    refine ⟨s', hstep, ?_⟩
    rwa [lruPages_rtake hm (List.nodup_dedup _), ← dedup_concat,
      ← List.take_succ_eq_append_getElem hk] at hq'

/-- Only the first page of the queue can leave it. -/
theorem eq_cons_of_evicted {v : ℤ} (hv : v ∈ l) (hout : v ∉ lruPages m l page) :
    l = v :: l.tail := by
  unfold lruPages pushPage at hout
  by_cases hpage : page ∈ l
  · rw [if_pos hpage, List.mem_append, not_or] at hout
    have hne : v ≠ page := fun heq => hout.2 (List.mem_singleton.mpr heq)
    exact absurd ((List.mem_erase_of_ne hne).mpr hv) hout.1
  · rw [if_neg hpage, List.mem_append, not_or] at hout
    by_cases hfull : l.length = m
    · rw [if_pos hfull] at hout
      obtain ⟨first, tail, rfl⟩ := List.exists_cons_of_ne_nil (List.ne_nil_of_mem hv)
      obtain rfl := (List.mem_cons.mp hv).resolve_right hout.1
      rfl
    · rw [if_neg hfull] at hout
      exact absurd hv hout.1

/-- After every prefix the queue of `LRU` is the list of the `m` most recently used pages (or of all
pages, if there are fewer), ordered by their last references. A page that leaves the queue is the
one of its pages whose last reference is oldest. -/
theorem lru_mostRecent (arr : CArray MAX_SIZE) {m : ℕ} (hm : 1 ≤ m) (hmax : m < MAX_SIZE)
    (string : List ℤ) :
    ∃ trace : ℕ → Frames, (∀ k ≤ string.length, lru arr m string k = some (trace k) ∧
        MostRecent m (string.take k) (trace k).q.pages) ∧
      ∀ k < string.length, ∀ v ∈ (trace k).q.pages, v ∉ (trace (k + 1)).q.pages →
        ∀ x ∈ (trace k).q.pages, x ≠ v → UsedBefore (string.take k) v x := by
  obtain ⟨trace, htrace, -⟩ := lru_run hm hmax arr string
  have hpages : ∀ k ≤ string.length, (trace k).q.pages = (string.take k).dedup.rtake m := by
    intro k hk
    obtain ⟨s, hs, hq⟩ := lru_eq_rtake arr hm hmax hk
    obtain rfl := Option.some.inj ((htrace k hk).symm.trans hs)
    exact hq.pages
  refine ⟨trace, fun k hk => ⟨htrace k hk, ?_⟩, fun k hk v hv hout x hx hne => ?_⟩
  · rw [hpages k hk]
    exact mostRecent_rtake m _
  · have hordered := (mostRecent_rtake m (string.take k)).ordered
    rw [hpages (k + 1) hk, List.take_succ_eq_append_getElem hk, dedup_concat,
      ← lruPages_rtake hm (List.nodup_dedup _)] at hout
    rw [hpages k hk.le] at hv hx
    rw [eq_cons_of_evicted hv hout] at hordered hx
    exact (List.pairwise_cons.mp hordered).1 x ((List.mem_cons.mp hx).resolve_left hne)

/-- The page `2` is evicted at the last reference, since `1` has been used again. -/
theorem lru_mostRecent_reuse :
    ∃ s, lru (.zero MAX_SIZE) (2 : ℕ) [1, 2, 1, 3] 4 = some s ∧
      MostRecent 2 [1, 2, 1, 3] s.q.pages := by
  obtain ⟨trace, htrace, -⟩ :=
    lru_mostRecent (.zero MAX_SIZE) (m := 2) (by decide) (by decide) [1, 2, 1, 3]
  exact ⟨trace 4, htrace 4 le_rfl⟩

/-- A larger table of `LRU` holds every page of a smaller one after every prefix, so it has at most
as many faults. -/
theorem lru_inclusion (arr arr' : CArray MAX_SIZE) {m m' : ℕ} (hm : 1 ≤ m) (hle : m ≤ m')
    (hmax : m' < MAX_SIZE) (string : List ℤ) :
    ∃ trace trace' : ℕ → Frames, (∀ k ≤ string.length, lru arr m string k = some (trace k)) ∧
      (∀ k ≤ string.length, lru arr' m' string k = some (trace' k)) ∧
      (∀ k ≤ string.length, resident trace k ⊆ resident trace' k) ∧
      ∀ k ≤ string.length, (trace' k).pageFault ≤ (trace k).pageFault := by
  have hm' := hm.trans hle
  obtain ⟨trace, htrace, hrun⟩ := lru_run hm (hle.trans_lt hmax) arr string
  obtain ⟨trace', htrace', hrun'⟩ := lru_run hm' hmax arr' string
  have hsub : ∀ k ≤ string.length, resident trace k ⊆ resident trace' k := by
    intro k hk
    obtain ⟨s, hs, hq⟩ := lru_eq_rtake arr hm (hle.trans_lt hmax) hk
    obtain ⟨s', hs', hq'⟩ := lru_eq_rtake arr' hm' hmax hk
    obtain rfl := Option.some.inj ((htrace k hk).symm.trans hs)
    obtain rfl := Option.some.inj ((htrace' k hk).symm.trans hs')
    intro x hx
    rw [resident, List.mem_toFinset, hq.pages] at hx
    rw [resident, List.mem_toFinset, hq'.pages]
    -- fewer of the oldest pages are dropped
    exact (List.drop_subset_drop_left _ (by omega)) hx
  refine ⟨trace, trace', htrace, htrace', hsub, fun k hk => ?_⟩
  rw [hrun.pageFault k hk, hrun'.pageFault k hk]
  exact Paging.faultsUpTo_anti fun i hi => hsub i hi.le

theorem lru_inclusion_inputString :
    ∃ trace trace' : ℕ → Frames,
      (∀ k ≤ 13, lru (.zero MAX_SIZE) (3 : ℕ) inputString k = some (trace k)) ∧
      (∀ k ≤ 13, lru (.zero MAX_SIZE) (4 : ℕ) inputString k = some (trace' k)) ∧
      (∀ k ≤ 13, resident trace k ⊆ resident trace' k) ∧
      ∀ k ≤ 13, (trace' k).pageFault ≤ (trace k).pageFault :=
  lru_inclusion (.zero MAX_SIZE) (.zero MAX_SIZE) (by decide) (by decide) (by decide) inputString

end SchoolOS.PageReplacement
