import Mathlib.Data.List.Basic
import SchoolOS.Lib.Loop

/-!
# Doubly linked lists in memory

`DList links prev p l` says that the pointer `p` is the head of a null-terminated list of the cells
`l`, the first of which points back to `prev`. `links` gives both pointers of a cell, and nothing
where there is no cell.

A list only depends on the links of its own cells (`DList.congr`). A cell can be appended through
the pointer at the end of the list (`DList.concat`). `Loop.returns_along` is the rule for loops that
follow a list.
-/

namespace SchoolOS

variable {α : Type*} {links links' : α → Option (Option α × Option α)}

/-- The cells of the list with the head `p`, the first of which points back to `prev`. -/
def DList (links : α → Option (Option α × Option α)) : Option α → Option α → List α → Prop
  | _, p, [] => p = none
  | prev, p, a :: l => p = some a ∧ ∃ next, links a = some (prev, next) ∧
      DList links (some a) next l

namespace DList

variable {prev p : Option α} {l : List α}

theorem head_eq (h : DList links prev p l) : p = l.head? := by
  cases l with
  | nil => exact h
  | cons a l => exact h.1

/-- Frame rule. -/
theorem congr (h : DList links prev p l) (hlinks : ∀ a ∈ l, links' a = links a) :
    DList links' prev p l := by
  induction l generalizing prev p with
  | nil => exact h
  | cons a l ih =>
    obtain ⟨hp, next, ha, htail⟩ := h
    refine ⟨hp, next, ?_, ih htail fun b hb => hlinks b (List.mem_cons_of_mem a hb)⟩
    rw [hlinks a List.mem_cons_self]
    exact ha

/-- Appending a cell: only the last cell, or the head, gets a new pointer. -/
theorem concat {b : α} (h : DList links prev p l) (hnodup : l.Nodup)
    (hb : links' b = some (l.getLast?.or prev, none))
    (hlast : ∀ z ∈ l.getLast?, links' z = (links z).map fun q => (q.1, some b))
    (hrest : ∀ a ∈ l, l.getLast? ≠ some a → links' a = links a) :
    DList links' prev (p.or (some b)) (l ++ [b]) := by
  induction l generalizing prev p with
  | nil =>
    rw [show p = none from h]
    exact ⟨rfl, none, hb, rfl⟩
  | cons a l ih =>
    obtain ⟨rfl, next, ha, htail⟩ := h
    obtain ⟨hal, hl⟩ := List.nodup_cons.mp hnodup
    refine ⟨rfl, next.or (some b), ?_, ?_⟩
    · cases l with
      | nil =>
        rw [hlast a rfl, ha, show next = none from htail]
        rfl
      | cons c l =>
        have hne : (a :: c :: l).getLast? ≠ some a := fun heq => by
          rw [List.getLast?_cons_cons] at heq
          exact hal (List.mem_of_getLast? heq)
        rw [hrest a List.mem_cons_self hne, ha, htail.head_eq]
        rfl
    · refine ih htail hl ?_ ?_ ?_
      · rw [hb, List.getLast?_cons]
        cases l.getLast? <;> rfl
      · intro z hz
        refine hlast z ?_
        cases l with
        | nil => simp at hz
        | cons c l => rwa [List.getLast?_cons_cons]
      · intro c hc hne
        refine hrest c (List.mem_cons_of_mem a hc) ?_
        cases l with
        | nil => simp at hc
        | cons d l => rwa [List.getLast?_cons_cons]

end DList

/-- A loop that follows a list ends, because every iteration takes a cell off the rest of the list.
The loop may be left before the end of the list. -/
theorem Loop.returns_along {σ : Type*} (cond : σ → Bool) (body : σ → Option σ)
    (I : List α → σ → Prop) (hnil : ∀ s, I [] s → cond s = false)
    (hcons : ∀ a l s, I (a :: l) s → cond s = true → ∃ s', body s = some s' ∧ I l s')
    {l : List α} {s : σ} (hs : I l s) :
    ∃ rest s', Returns (fun fuel => whileLoop cond body fuel s) s' ∧ I rest s' ∧
      cond s' = false := by
  induction l generalizing s with
  | nil => exact ⟨[], s, returns_of_not (hnil s hs), hs, hnil s hs⟩
  | cons a l ih =>
    cases hc : cond s with
    | false => exact ⟨a :: l, s, returns_of_not hc, hs, hc⟩
    | true =>
      obtain ⟨s₁, hbody, hs₁⟩ := hcons a l s hs hc
      obtain ⟨rest, s', ⟨N, hN⟩, hs', hc'⟩ := ih hs₁
      refine ⟨rest, s', ⟨N + 1, ?_⟩, hs', hc'⟩
      intro fuel hfuel
      obtain ⟨f, rfl⟩ : ∃ f, fuel = f + 1 := ⟨fuel - 1, by omega⟩
      simp only [whileLoop_of_body hc hbody]
      exact hN f (by omega)

end SchoolOS
