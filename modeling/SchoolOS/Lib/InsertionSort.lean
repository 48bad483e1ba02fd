import SchoolOS.Lib.Loop
import Mathlib.Data.Fintype.EquivFin
import Mathlib.Logic.Function.Basic

/-!
# In-place insertion sort of an array

`insertionSort key a` is the usual pair of C loops on an array `a`. `sortOrder key a` is the order
in which it puts the elements: position `i` of the result holds element `sortOrder key a i` of the
input (`insertionSort_eq`). The order is a permutation (`sortOrder_bijective`), sorted by `key`, and
stable (`sortOrder_stable`).
-/

namespace SchoolOS

open Function Loop

variable {n : ℕ} {α β : Type*}

/-- The inner loop, with the hole `j + 1` at `k`: move elements with a larger key one place up, then
store the pivot. -/
def insertAt (key : α → ℤ) (pivot : α) : (k : ℕ) → k < n → (Fin n → α) → Fin n → α
  | 0, h, a => update a ⟨0, h⟩ pivot
  | k + 1, h, a =>
    if key (a ⟨k, by omega⟩) > key pivot then
      insertAt key pivot k (by omega) (update a ⟨k + 1, h⟩ (a ⟨k, by omega⟩))
    else update a ⟨k + 1, h⟩ pivot

/-- `for (int i = 1; i < n; i++)`, inserting `a[i]` into the part before it. -/
def insertionSort (key : α → ℤ) (a : Fin n → α) : Fin n → α :=
  forLoop (fun i a => if i.val = 0 then a else insertAt key (a i) i i.isLt a) a

/-- The positions of the elements after sorting. -/
def sortOrder (key : α → ℤ) (a : Fin n → α) : Fin n → Fin n := insertionSort (key ∘ a) id

/-! ## Sorting commutes with relabelling -/

theorem insertAt_comp (key : α → ℤ) (g : β → α) (pivot : β) (k : ℕ) (hk : k < n) (a : Fin n → β) :
    insertAt key (g pivot) k hk (g ∘ a) = g ∘ insertAt (key ∘ g) pivot k hk a := by
  induction k generalizing a with
  | zero => exact (comp_update g a _ _).symm
  | succ k ih =>
    unfold insertAt
    simp only [comp_apply]
    split
    · rw [← ih, comp_update]
    · rw [comp_update]

theorem insertionSort_comp (key : α → ℤ) (g : β → α) (a : Fin n → β) :
    insertionSort key (g ∘ a) = g ∘ insertionSort (key ∘ g) a := by
  unfold insertionSort forLoop
  apply List.foldl_hom (g ∘ ·)
  intro b i
  show (if i.val = 0 then g ∘ b else insertAt key (g (b i)) i i.isLt (g ∘ b)) =
    g ∘ (if i.val = 0 then b else insertAt (key ∘ g) (b i) i i.isLt b)
  split
  · rfl
  · exact insertAt_comp key g (b i) i i.isLt b

/-- Position `i` of the result holds element `sortOrder key a i`. -/
theorem insertionSort_eq (key : α → ℤ) (a : Fin n → α) :
    insertionSort key a = a ∘ sortOrder key a :=
  insertionSort_comp key a id

/-! ## The order is sorted and stable -/

/-- The first `m + 1` places of the array while the pivot is being inserted: apart from the hole at
`k` they are sorted by `R`, and those above the hole lie behind the pivot. -/
structure Hole (R : α → α → Prop) (pivot : α) (m k : ℕ) (a : Fin n → α) : Prop where
  sorted : ∀ p q : Fin n, p.val < q.val → q.val ≤ m → p.val ≠ k → q.val ≠ k → R (a p) (a q)
  above : ∀ q : Fin n, k < q.val → q.val ≤ m → R pivot (a q)

/-- What an insertion into the first `m + 1` places of `a`, with the hole at `k`, leaves behind. -/
structure Inserted (R : α → α → Prop) (pivot : α) (m k : ℕ) (a b : Fin n → α) : Prop where
  sorted : ∀ p q : Fin n, p.val < q.val → q.val ≤ m → R (b p) (b q)
  origin : ∀ p : Fin n, p.val ≤ m → b p = pivot ∨ ∃ q : Fin n, q.val ≤ m ∧ q.val ≠ k ∧ b p = a q
  rest : ∀ p : Fin n, m < p.val → b p = a p

section Insert

variable {R : α → α → Prop} {pivot : α} {m k : ℕ} {a : Fin n → α}

/-- Storing the pivot in the hole, when everything below lies before it. -/
theorem Hole.store (h : Hole R pivot m k a) (hk : k < n) (hm : k ≤ m)
    (hbelow : ∀ p : Fin n, p.val < k → R (a p) pivot) :
    Inserted R pivot m k a (update a ⟨k, hk⟩ pivot) := by
  have hne : ∀ p : Fin n, p.val ≠ k → update a ⟨k, hk⟩ pivot p = a p :=
    fun p hp => update_of_ne (Fin.ne_of_val_ne hp) _ _
  have heq : ∀ p : Fin n, p.val = k → update a ⟨k, hk⟩ pivot p = pivot := by
    rintro p rfl
    exact update_self _ _ _
  refine ⟨?_, ?_, fun p hp => hne p (by omega)⟩
  · intro p q hpq hq
    by_cases hp : p.val = k
    · rw [heq p hp, hne q (by omega)]
      exact h.above q (by omega) hq
    · rw [hne p hp]
      by_cases hqk : q.val = k
      · rw [heq q hqk]
        exact hbelow p (by omega)
      · rw [hne q hqk]
        exact h.sorted p q hpq hq hp hqk
  · intro p hp
    by_cases hpk : p.val = k
    · exact Or.inl (heq p hpk)
    · exact Or.inr ⟨p, hp, hpk, hne p hpk⟩

/-- Moving an element that lies behind the pivot up into the hole. -/
theorem Hole.shift (h : Hole R pivot m (k + 1) a) (hk : k + 1 < n)
    (hbehind : R pivot (a ⟨k, by omega⟩)) :
    Hole R pivot m k (update a ⟨k + 1, hk⟩ (a ⟨k, by omega⟩)) := by
  have hne : ∀ p : Fin n, p.val ≠ k + 1 → update a ⟨k + 1, hk⟩ (a ⟨k, by omega⟩) p = a p :=
    fun p hp => update_of_ne (Fin.ne_of_val_ne hp) _ _
  have heq : ∀ p : Fin n, p.val = k + 1 →
      update a ⟨k + 1, hk⟩ (a ⟨k, by omega⟩) p = a ⟨k, by omega⟩ := by
    intro p hp
    rw [show p = ⟨k + 1, hk⟩ from Fin.ext hp, update_self]
  constructor
  · intro p q hpq hq hpk hqk
    by_cases hp : p.val = k + 1
    · rw [heq p hp, hne q (by omega)]
      exact h.sorted _ q (by simp only; omega) hq (by simp) (by omega)
    · rw [hne p hp]
      by_cases hq' : q.val = k + 1
      · rw [heq q hq']
        exact h.sorted p _ (by simp only; omega) (by simp only; omega) hp (by simp)
      · rw [hne q hq']
        exact h.sorted p q hpq hq hp hq'
  · intro q hkq hq
    by_cases hq' : q.val = k + 1
    · rw [heq q hq']
      exact hbehind
    · rw [hne q hq']
      exact h.above q (by omega) hq

/-- One insertion. `R` orders the elements by `key`, and those with the key of the pivot before the
pivot. -/
theorem insertAt_spec {key : α → ℤ} (hkey : ∀ x y, R x y → key x ≤ key y)
    (hgt : ∀ x, key pivot < key x → R pivot x) (hk : k < n) (hm : k ≤ m)
    (h : Hole R pivot m k a)
    (hle : ∀ p : Fin n, p.val ≤ m → p.val ≠ k → key (a p) ≤ key pivot → R (a p) pivot) :
    Inserted R pivot m k a (insertAt key pivot k hk a) := by
  induction k generalizing a with
  | zero => exact h.store hk hm fun p hp => absurd hp (Nat.not_lt_zero _)
  | succ k ih =>
    have hk' : k < n := by omega
    unfold insertAt
    by_cases hshift : key (a ⟨k, hk'⟩) > key pivot
    · rw [if_pos hshift]
      have hmoved : ∀ p : Fin n, p.val ≠ k → ∃ q : Fin n, (p.val ≤ m → q.val ≤ m) ∧
          q.val ≠ k + 1 ∧ update a ⟨k + 1, hk⟩ (a ⟨k, hk'⟩) p = a q := by
        intro p hpk
        by_cases hp : p.val = k + 1
        · rw [show p = ⟨k + 1, hk⟩ from Fin.ext hp, update_self]
          exact ⟨⟨k, hk'⟩, fun _ => by simp only; omega, by simp, rfl⟩
        · exact ⟨p, id, hp, update_of_ne (Fin.ne_of_val_ne hp) _ _⟩
      have hins := ih hk' (by omega) (h.shift hk (hgt _ hshift)) (by
        intro p hp hpk hpivot
        obtain ⟨q, hq, hqk, heq⟩ := hmoved p hpk
        rw [heq] at hpivot ⊢
        exact hle q (hq hp) hqk hpivot)
      refine ⟨hins.sorted, ?_, ?_⟩
      · intro p hp
        rcases hins.origin p hp with hpivot | ⟨q, hq, hqk, heq⟩
        · exact Or.inl hpivot
        · obtain ⟨r, hr, hrk, heq'⟩ := hmoved q hqk
          exact Or.inr ⟨r, hr hq, hrk, heq.trans heq'⟩
      · intro p hp
        rw [hins.rest p hp, update_of_ne (Fin.ne_of_val_ne (by simp only; omega))]
    · rw [if_neg hshift]
      apply h.store hk hm
      intro p hp
      apply hle p (by omega) (by omega)
      have hlast : key (a p) ≤ key (a ⟨k, hk'⟩) := by
        by_cases hpk : p.val = k
        · rw [show p = ⟨k, hk'⟩ from Fin.ext hpk]
        · exact hkey _ _ (h.sorted p ⟨k, hk'⟩ (by simp only; omega) (by simp only; omega) (by omega)
            (by simp))
      omega

end Insert

/-- Elements with the same key keep the order of their positions. -/
def StableLt (key : Fin n → ℤ) (p q : Fin n) : Prop := key p < key q ∨ key p = key q ∧ p < q

theorem StableLt.asymm {key : Fin n → ℤ} {p q : Fin n} (h : StableLt key p q) :
    ¬ StableLt key q p := by
  unfold StableLt at *
  omega

/-- Before iteration `k` of the sort of all positions: the first `k` places hold the positions below
`k`, sorted, and nothing else has moved. -/
structure SortedUpTo (key : Fin n → ℤ) (k : ℕ) (a : Fin n → Fin n) : Prop where
  sorted : ∀ p q : Fin n, p.val < q.val → q.val < k → StableLt key (a p) (a q)
  below : ∀ p : Fin n, p.val < k → (a p).val < k
  rest : ∀ p : Fin n, k ≤ p.val → a p = p

theorem SortedUpTo.insert {key : Fin n → ℤ} {k : Fin n} {a : Fin n → Fin n}
    (h : SortedUpTo key k a) : SortedUpTo key (k + 1) (insertAt key (a k) k k.isLt a) := by
  have hpivot : a k = k := h.rest k le_rfl
  rw [hpivot]
  have hhole : Hole (StableLt key) k k.val k.val a :=
    ⟨fun p q hpq hq _ hqk => h.sorted p q hpq (by omega), fun q hkq hq => by omega⟩
  have hkey : ∀ x y, StableLt key x y → key x ≤ key y := by
    rintro x y (hlt | ⟨heq, -⟩)
    · exact hlt.le
    · exact heq.le
  have hle : ∀ p : Fin n, p.val ≤ k.val → p.val ≠ k.val → key (a p) ≤ key k →
      StableLt key (a p) k := by
    intro p hp hpk hle
    have hbelow := h.below p (by omega)
    rcases hle.lt_or_eq with hlt | heq
    · exact Or.inl hlt
    · exact Or.inr ⟨heq, hbelow⟩
  have hins := insertAt_spec hkey (fun x hx => Or.inl hx) k.isLt le_rfl hhole hle
  refine ⟨fun p q hpq hq => hins.sorted p q hpq (by omega), ?_, ?_⟩
  · intro p hp
    rcases hins.origin p (by omega) with heq | ⟨q, hq, hqk, heq⟩
    · rw [heq]
      omega
    · rw [heq]
      have := h.below q (by omega)
      omega
  · intro p hp
    rw [hins.rest p (by omega)]
    exact h.rest p (by omega)

theorem sortedUpTo_insertionSort (key : Fin n → ℤ) : SortedUpTo key n (insertionSort key id) := by
  unfold insertionSort
  apply forLoop_invariant (SortedUpTo key)
  · exact ⟨fun p q _ hq => absurd hq (Nat.not_lt_zero _), fun p hp => absurd hp (Nat.not_lt_zero _),
      fun _ _ => rfl⟩
  · intro k a h
    -- iteration 0 of the model does nothing: the loop of the source starts at 1
    split
    · rename_i hk
      refine ⟨fun p q hpq hq => by omega, fun p hp => ?_, fun p hp => h.rest p (by omega)⟩
      rw [h.rest p (by omega)]
      exact hp
    · exact h.insert

theorem sortOrder_stable (key : α → ℤ) (a : Fin n → α) {i j : Fin n} (hij : i < j) :
    StableLt (key ∘ a) (sortOrder key a i) (sortOrder key a j) :=
  (sortedUpTo_insertionSort _).sorted i j hij j.isLt

theorem sortOrder_bijective (key : α → ℤ) (a : Fin n → α) : Bijective (sortOrder key a) := by
  rw [← Finite.injective_iff_bijective]
  intro i j hij
  by_contra hne
  have hirrefl : ∀ p, ¬ StableLt (key ∘ a) p p := fun p hp => hp.asymm hp
  rcases lt_or_gt_of_ne hne with hlt | hlt
  · exact hirrefl _ (hij ▸ sortOrder_stable key a hlt)
  · exact hirrefl _ (hij ▸ sortOrder_stable key a hlt)

end SchoolOS
