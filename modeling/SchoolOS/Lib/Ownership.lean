import Mathlib.Logic.Function.Basic

/-!
# Owners of blocks

A heap is a map from addresses to blocks, and `held` gives for each owner the address that it holds,
if any. In a heap that is `Owned`, what an owner holds is there and is held by no other owner. The
rules follow the life of a block: it is allocated, written, handed over and freed.
-/

namespace SchoolOS

variable {ω α β : Type*} {held : ω → Option α} {heap : α → Option β} {o o' : ω} {a : α}

/-- Every address that is held is in the heap, and has one owner. -/
structure Owned (held : ω → Option α) (heap : α → Option β) : Prop where
  live : ∀ o a, held o = some a → ∃ b, heap a = some b
  apart : ∀ o o' a, held o = some a → held o' = some a → o = o'

namespace Owned

/-- Another owner holds another address. -/
theorem ne (h : Owned held heap) {a' : α} (ho : held o = some a) (hne : o' ≠ o)
    (ho' : held o' = some a') :
    a' ≠ a := by
  rintro rfl
  exact hne (h.apart o' o a' ho' ho)

/-- No owner holds the address of a block that is not there. -/
theorem ne_some (h : Owned held heap) (ha : heap a = none) (o : ω) : held o ≠ some a := by
  intro ho
  obtain ⟨b, hb⟩ := h.live o a ho
  rw [ha] at hb
  cases hb

section Heap

variable [DecidableEq α]

theorem write (h : Owned held heap) (a : α) (b : β) :
    Owned held (Function.update heap a (some b)) where
  live := by
    intro o a' ho
    by_cases ha : a' = a
    · exact ⟨b, by rw [ha, Function.update_self]⟩
    · rw [Function.update_of_ne ha]
      exact h.live o a' ho
  apart := h.apart

end Heap

section Held

variable [DecidableEq ω]

/-- An owner gives up what it holds. -/
theorem drop (h : Owned held heap) (o : ω) : Owned (Function.update held o none) heap where
  live := by
    intro o' a' ho'
    rw [Function.update_apply] at ho'
    split at ho'
    · cases ho'
    · exact h.live o' a' ho'
  apart := by
    intro o₁ o₂ a' h₁ h₂
    rw [Function.update_apply] at h₁ h₂
    split at h₁
    · cases h₁
    · split at h₂
      · cases h₂
      · exact h.apart o₁ o₂ a' h₁ h₂

/-- An owner takes a block that no owner holds. -/
theorem take (h : Owned held heap) (o : ω) {b : β} (ha : heap a = some b)
    (hfree : ∀ o', held o' ≠ some a) :
    Owned (Function.update held o (some a)) heap where
  live := by
    intro o' a' ho'
    rw [Function.update_apply] at ho'
    split at ho'
    · cases ho'
      exact ⟨b, ha⟩
    · exact h.live o' a' ho'
  apart := by
    intro o₁ o₂ a' h₁ h₂
    rw [Function.update_apply] at h₁ h₂
    split at h₁
    · next ho₁ =>
      cases h₁
      split at h₂
      · next ho₂ => exact ho₁.trans ho₂.symm
      · exact absurd h₂ (hfree o₂)
    · split at h₂
      · cases h₂
        exact absurd h₁ (hfree o₁)
      · exact h.apart o₁ o₂ a' h₁ h₂

/-- An owner hands over what it holds. -/
theorem move (h : Owned held heap) (o' : ω) (ho : held o = some a) :
    Owned (Function.update (Function.update held o none) o' (some a)) heap := by
  obtain ⟨b, hb⟩ := h.live o a ho
  refine (h.drop o).take o' hb ?_
  intro o₁ h₁
  rw [Function.update_apply] at h₁
  split at h₁
  · cases h₁
  · next hne => exact hne (h.apart o₁ o a h₁ ho)

variable [DecidableEq α]

theorem alloc (h : Owned held heap) (o : ω) (ha : heap a = none) (b : β) :
    Owned (Function.update held o (some a)) (Function.update heap a (some b)) :=
  (h.write a b).take o (Function.update_self a (some b) heap) (h.ne_some ha)

theorem free (h : Owned held heap) (ho : held o = some a) :
    Owned (Function.update held o none) (Function.update heap a none) where
  live := by
    intro o' a' ho'
    by_cases hoo : o' = o
    · rw [hoo, Function.update_self] at ho'
      cases ho'
    · rw [Function.update_of_ne hoo] at ho'
      rw [Function.update_of_ne (h.ne ho hoo ho')]
      exact h.live o' a' ho'
  apart := (h.drop o).apart

end Held

end Owned

end SchoolOS
