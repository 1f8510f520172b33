import Mathlib.Order.Lattice

/-!
# The greatest element of a set

A set that is ordered by a comparison, as the list of its elements. Only its greatest
element is looked up by the order.
-/

namespace Greatest

open List

variable {α κ : Type} [LinearOrder κ]

/-- The greatest element by a strict comparison. -/
def greatest (less : α → α → Bool) : List α → Option α
  | [] => none
  | a :: l =>
    match greatest less l with
    | none => some a
    | some b => some (if less b a then a else b)

variable {less : α → α → Bool} {l : List α}

theorem greatest_eq_none : greatest less l = none ↔ l = [] := by
  cases l with
  | nil => exact iff_of_true rfl rfl
  | cons a l =>
    refine iff_of_false (fun h => ?_) (cons_ne_nil a l)
    unfold greatest at h
    split at h <;> cases h

theorem mem_of_greatest {m : α} (h : greatest less l = some m) : m ∈ l := by
  induction l generalizing m with
  | nil => cases h
  | cons a l ih =>
    unfold greatest at h
    split at h
    · cases h
      exact mem_cons_self
    · next b hb =>
      cases h
      by_cases hlt : less b a = true
      · rw [if_pos hlt]
        exact mem_cons_self
      · rw [if_neg hlt]
        exact mem_cons_of_mem a (ih hb)

theorem greatest_spec {key : α → κ} (hless : ∀ a b, less a b = true ↔ key a < key b) {m : α}
    (h : greatest less l = some m) : m ∈ l ∧ ∀ b ∈ l, key b ≤ key m := by
  refine ⟨mem_of_greatest h, ?_⟩
  induction l generalizing m with
  | nil => cases h
  | cons a l ih =>
    unfold greatest at h
    split at h
    · next hnone =>
      cases h
      rw [greatest_eq_none.mp hnone]
      exact fun b hb => List.mem_singleton.mp hb ▸ le_rfl
    · next b hb =>
      have hmax := ih hb
      cases h
      intro c hc
      by_cases hlt : less b a = true
      · rw [if_pos hlt]
        rcases List.mem_cons.mp hc with rfl | hc
        · exact le_rfl
        · exact (hmax c hc).trans ((hless b a).mp hlt).le
      · rw [if_neg hlt]
        rcases List.mem_cons.mp hc with rfl | hc
        · exact not_lt.mp fun h => hlt ((hless b c).mpr h)
        · exact hmax c hc

end Greatest
