import Mathlib.Data.List.NodupEquivFin

/-!
# Greedy matching in order

Whether the elements of one list can be related, in order, to elements of another:
`List.SublistForall₂`. An element that can be matched may be matched at once.
-/

namespace GreedyMatching

open List

variable {α β : Type} {R : α → β → Prop} {a : α} {b : β} {l₁ : List α} {l₂ : List β}

theorem length_le (h : SublistForall₂ R l₁ l₂) : l₁.length ≤ l₂.length := by
  induction h with
  | nil => exact Nat.zero_le _
  | cons _ _ ih => exact Nat.succ_le_succ ih
  | cons_right _ ih => exact Nat.le_succ_of_le ih

theorem sublistForall₂_of_cons (h : SublistForall₂ R (a :: l₁) l₂) : SublistForall₂ R l₁ l₂ := by
  obtain ⟨l, hl, hsub⟩ := sublistForall₂_iff.mp h
  cases hl with
  | cons _ hrest => exact sublistForall₂_iff.mpr ⟨_, hrest, (sublist_cons_self _ _).trans hsub⟩

theorem sublistForall₂_cons_of_rel (hab : R a b) :
    SublistForall₂ R (a :: l₁) (b :: l₂) ↔ SublistForall₂ R l₁ l₂ := by
  constructor
  · intro h
    cases h with
    | cons _ h => exact h
    | cons_right h => exact sublistForall₂_of_cons h
  · exact .cons hab

theorem sublistForall₂_cons_of_not_rel (hab : ¬R a b) :
    SublistForall₂ R (a :: l₁) (b :: l₂) ↔ SublistForall₂ R (a :: l₁) l₂ := by
  constructor
  · intro h
    cases h with
    | cons h _ => exact absurd h hab
    | cons_right h => exact h
  · exact .cons_right

theorem sublistForall₂_iff_strictMono : SublistForall₂ R l₁ l₂ ↔
    ∃ f : Fin l₁.length → Fin l₂.length, StrictMono f ∧ ∀ i, R (l₁.get i) (l₂.get (f i)) := by
  rw [sublistForall₂_iff]
  constructor
  · rintro ⟨l, hl, hsub⟩
    obtain ⟨g, hg⟩ := sublist_iff_exists_fin_orderEmbedding_get_eq.mp hsub
    refine ⟨fun i => g (i.cast hl.length_eq), fun i j hij => g.lt_iff_lt.mpr hij, fun i => ?_⟩
    rw [← hg]
    exact (forall₂_iff_get.mp hl).2 i.1 i.2 (hl.length_eq ▸ i.2)
  · rintro ⟨f, hf, hrel⟩
    refine ⟨List.ofFn fun i => l₂.get (f i), ?_, ?_⟩
    · refine forall₂_iff_get.mpr ⟨(length_ofFn).symm, fun i hi _ => ?_⟩
      rw [get_ofFn]
      exact hrel ⟨i, hi⟩
    · refine sublist_iff_exists_fin_orderEmbedding_get_eq.mpr
        ⟨OrderEmbedding.ofStrictMono (fun i => f (i.cast length_ofFn)) fun i j hij => hf hij,
          fun i => ?_⟩
      rw [get_ofFn]
      rfl

end GreedyMatching
