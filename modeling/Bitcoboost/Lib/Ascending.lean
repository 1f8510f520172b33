import Mathlib.Data.Finset.Max

/-!
# The elements of a finite set in ascending order

What a loop over an ordered set goes through. It is taken from the set one least element
after the other, by a structural recursion, so that it can be evaluated.
-/

namespace Ascending

open List Finset

variable {κ : Type} [LinearOrder κ] {s : Finset κ} {x : κ} {n : Nat}

/-- The `n` least elements of a set. -/
def leastElements : Nat → Finset κ → List κ
  | 0, _ => []
  | n + 1, s => if h : s.Nonempty then s.min' h :: leastElements n (s.erase (s.min' h)) else []

def elements (s : Finset κ) : List κ := leastElements s.card s

theorem mem_of_mem_leastElements (h : x ∈ leastElements n s) : x ∈ s := by
  induction n generalizing s with
  | zero => cases h
  | succ n ih =>
    unfold leastElements at h
    split at h
    · rename_i hne
      rcases List.mem_cons.mp h with rfl | h
      · exact s.min'_mem hne
      · exact mem_of_mem_erase (ih h)
    · cases h

theorem mem_leastElements (hn : s.card ≤ n) : x ∈ leastElements n s ↔ x ∈ s := by
  refine ⟨mem_of_mem_leastElements, fun hx => ?_⟩
  induction n generalizing s with
  | zero => exact absurd (Finset.card_pos.mpr ⟨x, hx⟩) (by omega)
  | succ n ih =>
    have hne : s.Nonempty := ⟨x, hx⟩
    unfold leastElements
    rw [dif_pos hne]
    by_cases hmin : x = s.min' hne
    · rw [hmin]
      exact mem_cons_self
    · refine mem_cons_of_mem _ (ih ?_ (Finset.mem_erase.mpr ⟨hmin, hx⟩))
      rw [card_erase_of_mem (s.min'_mem hne)]
      omega

theorem nodup_leastElements (n : Nat) (s : Finset κ) : (leastElements n s).Nodup := by
  induction n generalizing s with
  | zero => exact nodup_nil
  | succ n ih =>
    unfold leastElements
    split
    · refine List.nodup_cons.mpr ⟨fun h => ?_, ih _⟩
      exact notMem_erase _ _ (mem_of_mem_leastElements h)
    · exact nodup_nil

@[simp] theorem mem_elements : x ∈ elements s ↔ x ∈ s := mem_leastElements le_rfl

theorem nodup_elements (s : Finset κ) : (elements s).Nodup := nodup_leastElements _ _

@[simp] theorem toFinset_elements (s : Finset κ) : (elements s).toFinset = s := by
  ext x
  rw [mem_toFinset, mem_elements]

theorem elements_singleton (x : κ) : elements ({x} : Finset κ) = [x] := by
  simp [elements, leastElements]

end Ascending
