import Mathlib.Data.List.Basic
import Mathlib.Data.List.Nodup
import Mathlib.Tactic.Common

/-!
# Walks along a deterministic link relation

`Walk link stop a l` says that following `link` from `a` visits exactly the nodes `l` and ends at a
node that satisfies `stop`. When `link` is a partial function and no linked node satisfies `stop`,
the walk from a node is unique, and it visits no node twice.
-/

namespace SchoolOS

variable {α : Type*}

/-- The nodes visited from `a` along `link`, up to a node that satisfies `stop`. -/
inductive Walk (link : α → α → Prop) (stop : α → Prop) : α → List α → Prop
  | last {a : α} : stop a → Walk link stop a [a]
  | cons {a b : α} {l : List α} : link a b → Walk link stop b l → Walk link stop a (a :: l)

namespace Walk

variable {link link' : α → α → Prop} {stop stop' : α → Prop} {a b : α} {l l' : List α}

theorem head?_eq (h : Walk link stop a l) : l.head? = some a := by
  cases h <;> rfl

theorem ne_nil (h : Walk link stop a l) : l ≠ [] := by
  cases h <;> simp

/-- The last node of a walk satisfies `stop`. -/
theorem stop_of_append {z : α} (h : Walk link stop a (l ++ [z])) : stop z := by
  induction l generalizing a with
  | nil =>
    cases h with
    | last hs => exact hs
    | cons _ htail => exact absurd rfl htail.ne_nil
  | cons x l ih =>
    generalize hm : l ++ [z] = m at h
    rw [List.cons_append, hm] at h
    cases h with
    | last _ => simp at hm
    | cons _ htail => exact ih (hm ▸ htail)

/-- Frame rule: a walk only depends on the links and stops of the nodes it visits. -/
theorem congr (h : Walk link stop a l) (hlink : ∀ x ∈ l, ∀ y, link x y → link' x y)
    (hstop : ∀ x ∈ l, stop x → stop' x) : Walk link' stop' a l := by
  induction h with
  | last hs => exact .last (hstop _ (by simp) hs)
  | cons hab _ ih =>
    exact .cons (hlink _ (by simp) _ hab)
      (ih (fun x hx => hlink x (by simp [hx])) (fun x hx => hstop x (by simp [hx])))

/-- Extension: relink the last node of a walk to a new last node. -/
theorem snoc {z : α} (h : Walk link stop a (l ++ [z]))
    (hlink : ∀ x ∈ l, ∀ y, link x y → link' x y) (hz : link' z b) (hb : stop' b) :
    Walk link' stop' a (l ++ [z, b]) := by
  induction l generalizing a with
  | nil =>
    have ha : a = z := by simpa using h.head?_eq.symm
    subst ha
    exact .cons hz (.last hb)
  | cons x l ih =>
    generalize hm : l ++ [z] = m at h
    rw [List.cons_append, hm] at h
    cases h with
    | last _ => simp at hm
    | cons hab htail =>
      exact .cons (hlink _ (by simp) _ hab) (ih (hm ▸ htail) fun y hy => hlink y (by simp [hy]))

section Deterministic

variable (hfun : ∀ x y z, link x y → link x z → y = z) (hstop : ∀ x y, link x y → ¬ stop x)

include hfun hstop in
/-- The walk from a node is unique. -/
theorem unique (h : Walk link stop a l) (h' : Walk link stop a l') : l = l' := by
  induction h generalizing l' with
  | last hs =>
    cases h' with
    | last _ => rfl
    | cons hab _ => exact absurd hs (hstop _ _ hab)
  | cons hab _ ih =>
    cases h' with
    | last hs => exact absurd hs (hstop _ _ hab)
    | cons hac htail => rw [ih (hfun _ _ _ hac hab ▸ htail)]

/-- The walk from a visited node is a suffix. -/
theorem exists_suffix (h : Walk link stop a l) (hb : b ∈ l) :
    ∃ m, m <:+ l ∧ Walk link stop b m := by
  induction h with
  | last hs =>
    obtain rfl := List.mem_singleton.mp hb
    exact ⟨_, List.suffix_refl _, .last hs⟩
  | cons hac htail ih =>
    rcases List.mem_cons.mp hb with rfl | hb
    · exact ⟨_, List.suffix_refl _, .cons hac htail⟩
    · obtain ⟨m, hm, hwalk⟩ := ih hb
      exact ⟨m, hm.trans (List.suffix_cons _ _), hwalk⟩

include hfun hstop in
/-- A walk visits no node twice: a second visit would start the same, longer, walk again. -/
theorem nodup (h : Walk link stop a l) : l.Nodup := by
  induction h with
  | last _ => exact List.nodup_singleton _
  | @cons a b l hab htail ih =>
    refine List.nodup_cons.mpr ⟨fun ha => ?_, ih⟩
    obtain ⟨m, hm, hwalk⟩ := htail.exists_suffix ha
    have heq : m = a :: l := unique hfun hstop hwalk (.cons hab htail)
    have hlen := hm.length_le
    rw [heq, List.length_cons] at hlen
    omega

end Deterministic

end Walk

end SchoolOS
