import SchoolOS.Fat.Names

/-!
# Deleting gives everything back

The directory and the chains determine the FAT, the entries in use and the contents
(`Represents.agree`). A file that no call of a run names keeps its chain (`run_represents_frame`),
and creating, writing and deleting one new file ends in the directory it started from
(`Directory.run_create_delete`), so the arrays are then what they were.
-/

namespace SchoolOS.Fat

open Function

variable {fs fs' : FileSystem} {d : Directory} {chain chain' : Fin ENTRY → List (Fin BLOCK_SIZE)}

/-! ## The chains determine the FAT -/

/-- Two walks through the same blocks read the same cells. -/
theorem FatWalk.fat_eq {fat fat' : Fin BLOCK_SIZE → ℤ} {a a' : Fin BLOCK_SIZE}
    {l : List (Fin BLOCK_SIZE)} (h : FatWalk fat a l) (h' : FatWalk fat' a' l) :
    ∀ x ∈ l, fat' x = fat x := by
  induction h generalizing a' with
  | last hs =>
    cases h' with
    | last hs' => simp [hs, hs']
    | cons _ htail => exact absurd rfl htail.ne_nil
  | cons hab htail ih =>
    cases h' with
    | last _ => exact absurd rfl htail.ne_nil
    | cons hab' htail' =>
      have hb := htail.head?_eq.symm.trans htail'.head?_eq
      obtain rfl := Option.some.inj hb
      intro x hx
      rcases List.mem_cons.mp hx with rfl | hx
      · rw [hab, hab']
      · exact ih htail' x hx

/-- Two states that hold the same directory in the same chains agree on the FAT, on the entries in
use and on their contents. -/
theorem Represents.agree (h : Represents fs d chain) (h' : Represents fs' d chain')
    (hchain : ∀ i f, d i = some f → chain' i = chain i) :
    fs'.fat = fs.fat ∧ (∀ i, (fs'.entries i).use = (fs.entries i).use) ∧
      ∀ i, (fs.entries i).use ≠ 0 →
        (fs.entries i).Agrees (fs'.entries i) ∧ contentOf fs' i = contentOf fs i := by
  have hall : chain' = chain := by
    funext i
    cases hi : d i with
    | none => rw [(h.unused i hi).2, (h'.unused i hi).2]
    | some f => exact hchain i f hi
  subst hall
  refine ⟨?_, ?_, ?_⟩
  · funext b
    by_cases hb : fs.fat b = -2
    · have hb' : ¬ fs'.fat b ≠ -2 := by rw [h'.owned b, ← h.owned b, not_not, hb]
      rw [hb, not_not.mp hb']
    · obtain ⟨i, hmem⟩ := (h.owned b).mp hb
      cases hi : d i with
      | none => simp [(h.unused i hi).2] at hmem
      | some f =>
        obtain ⟨a, -, hwalk⟩ := (h.holds i f hi).walk
        obtain ⟨a', -, hwalk'⟩ := (h'.holds i f hi).walk
        exact hwalk.fat_eq hwalk' b hmem
  · intro i
    cases hi : d i with
    | none => rw [(h.unused i hi).1, (h'.unused i hi).1]
    | some f => rw [(h.holds i f hi).use, (h'.holds i f hi).use]
  · intro i huse
    cases hi : d i with
    | none => exact absurd (h.unused i hi).1 huse
    | some f =>
      have hh := h.holds i f hi
      have hh' := h'.holds i f hi
      obtain ⟨a, hstart, hwalk⟩ := hh.walk
      obtain ⟨a', hstart', hwalk'⟩ := hh'.walk
      have ha : a' = a := Option.some.inj (hwalk'.head?_eq.symm.trans hwalk.head?_eq)
      refine ⟨⟨?_, ?_, ?_, ?_⟩, ?_⟩
      · rw [hh.name, hh'.name]
      · rw [hh.size, hh'.size]
      · rw [hstart, hstart', ha]
      · rw [hh.use, hh'.use]
      · rw [h.toLinks.contentOf_eq hi, h'.toLinks.contentOf_eq hi]

/-! ## One new file -/

namespace Directory

/-- The new file is the only one with its name. -/
theorem lookup_update {k : Fin ENTRY} {f : File} (hfind : d.find f.name = none) :
    lookup (update d k (some f)) f.name = some (k, f) := by
  have hk : update d k (some f) k = some f := update_self k (some f) d
  cases hlook : lookup (update d k (some f)) f.name with
  | none => exact absurd rfl (find_eq_none_iff.mp (lookup_eq_none hlook) k f hk)
  | some p =>
    obtain ⟨i, g⟩ := p
    obtain ⟨-, hi, hg⟩ := lookup_eq_some hlook
    by_cases hik : i = k
    · subst hik
      rw [hk] at hi
      obtain rfl := Option.some.inj hi
      rfl
    · rw [update_of_ne hik] at hi
      exact absurd hg (find_eq_none_iff.mp hfind i g hi)

/-- Writes to the new file keep everything but its content. -/
theorem run_writes {k : Fin ENTRY} {name : CString} (hfind : d.find name.bytes = none)
    (contents : List CString) (c : Bytes) :
    ∃ c', (run (contents.map (Op.write name)) (update d k (some ⟨name.bytes, c⟩))).1 =
      update d k (some ⟨name.bytes, c'⟩) := by
  induction contents generalizing c with
  | nil => exact ⟨c, rfl⟩
  | cons content contents ih =>
    have hlook := lookup_update (k := k) (f := ⟨name.bytes, c⟩) hfind
    obtain ⟨c', hc'⟩ := ih (c ++ (content.bytes.take
      (room (update d k (some ⟨name.bytes, c⟩)) c.length)).map noNewline)
    refine ⟨c', ?_⟩
    rw [List.map_cons, run, step, write, hlook, ← hc']
    simp only [append, update_idem]

theorem run_concat_fst (ops : List Op) (op : Op) :
    (run (ops ++ [op]) d).1 = ((run ops d).1.step op).1 := by
  induction ops generalizing d with
  | nil => rfl
  | cons op' ops ih => exact ih

/-- A new file that is written to and deleted leaves no trace. -/
theorem run_create_delete {name : CString} (hlen : name.bytes.length ≤ FILE_NAME)
    (hfind : d.find name.bytes = none) (hvac : d.vacant ≠ none) (hfree : d.free ≠ 0)
    (contents : List CString) :
    (run (.create name :: contents.map (Op.write name) ++ [.delete name]) d).1 = d := by
  obtain ⟨k, hk⟩ := Option.ne_none_iff_exists'.mp hvac
  have hcreate : (d.step (.create name)).1 = update d k (some ⟨name.bytes, []⟩) := by
    rw [step, create_of_free hfind hk hfree, List.take_of_length_le hlen]
  obtain ⟨c, hwrites⟩ := run_writes (k := k) hfind contents []
  have hlook := lookup_update (k := k) (f := ⟨name.bytes, c⟩) hfind
  rw [run_concat_fst, run, hcreate]
  simp only [hwrites, step, delete, hlook, update_idem]
  rw [← vacant_eq_some hk, update_eq_self]

end Directory

/-- Deleting gives everything back: after a new file has been created, written to any number of
times, on a full disk or not, and deleted, every FAT cell is what it was, and the entries in use are
the same ones, with the same names, sizes, starts and contents. -/
theorem create_writes_delete (hreach : Reachable fs) {name : CString}
    (hlen : name.bytes.length ≤ FILE_NAME) (hcreates : Creates fs name) (contents : List CString) :
    ∃ fs' outs,
      run (.create name :: contents.map (Op.write name) ++ [.delete name]) fs = some (fs', outs) ∧
      fs'.fat = fs.fat ∧ (∀ i, (fs'.entries i).use = (fs.entries i).use) ∧
      ∀ i, (fs.entries i).use ≠ 0 →
        (fs.entries i).Agrees (fs'.entries i) ∧ contentOf fs' i = contentOf fs i := by
  obtain ⟨d, chain, h, -⟩ := hreach.represents
  obtain ⟨hfind, hvac, hfree⟩ := (h.creates_iff name).mp hcreates
  obtain ⟨fs', chain', hrun, h', hframe⟩ := run_represents_frame h
    (.create name :: contents.map (Op.write name) ++ [.delete name])
  rw [Directory.run_create_delete hlen hfind hvac hfree] at h'
  refine ⟨fs', _, hrun, h.agree h' ?_⟩
  intro j f hj
  refine hframe j f hj ?_
  -- every call of the run names the new file, and no other file has its name
  have hname : f.name ≠ name.bytes := Directory.find_eq_none_iff.mp hfind j f hj
  have hall : ∀ op ∈ Op.create name :: contents.map (Op.write name) ++ [.delete name],
      op.name? = some name := by
    intro op hop
    simp only [List.cons_append, List.mem_cons, List.mem_append, List.mem_map,
      List.not_mem_nil, or_false] at hop
    rcases hop with rfl | ⟨content, -, rfl⟩ | rfl <;> rfl
  intro op hop name' hname'
  rw [hall op hop] at hname'
  obtain rfl := Option.some.inj hname'
  exact hname

theorem create_writes_delete_twoFiles :
    ∃ fs, Reachable fs ∧ contentOf fs ⟨0, by decide⟩ = longText.bytes ∧ Creates fs (word "c") ∧
      ∃ fs' outs,
        run [.create (word "c"), .write (word "c") longText, .delete (word "c")] fs =
          some (fs', outs) ∧
        fs'.fat = fs.fat ∧ (∀ i, (fs'.entries i).use = (fs.entries i).use) ∧
        (fs.entries ⟨0, by decide⟩).Agrees (fs'.entries ⟨0, by decide⟩) ∧
        contentOf fs' ⟨0, by decide⟩ = longText.bytes := by
  obtain ⟨fs, outs, chain, -, hreach, h⟩ := exists_twoFiles
  have hzero := files_twoFiles.1
  have hcreates : Creates fs (word "c") := by
    refine (h.creates_iff _).mpr ⟨?_, ?_, ?_⟩ <;> decide +kernel
  have hcontent := h.toLinks.contentOf_eq hzero
  obtain ⟨fs', outs', hrun, hfat, huse, hothers⟩ :=
    create_writes_delete hreach (by decide) hcreates [longText]
  obtain ⟨hagrees, hcontent'⟩ := hothers ⟨0, by decide⟩ (by simp [(h.holds _ _ hzero).use])
  exact ⟨fs, hreach, hcontent, hcreates, fs', outs', hrun, hfat, huse, hagrees,
    hcontent'.trans hcontent⟩

end SchoolOS.Fat
