import Mathlib.Data.List.GetD
import Mathlib.Order.Lattice

/-!
# Order statistics

The element at a place of a sorted list is at least a bound exactly if no more elements than
that place are below it.
-/

namespace OrderStatistic

open List

variable {α : Type} [LinearOrder α] {l : List α} {i : Nat}

theorem countP_lt_eq_zero {m : α} (h : ∀ a ∈ l, m ≤ a) : l.countP (· < m) = 0 := by
  refine List.countP_eq_zero.mpr fun a ha hlt => ?_
  exact absurd (of_decide_eq_true hlt) (not_lt.mpr (h a ha))

theorem le_getD_iff (hsorted : l.Pairwise (· ≤ ·)) (hi : i < l.length) (m d : α) :
    m ≤ l.getD i d ↔ l.countP (· < m) ≤ i := by
  induction l generalizing i with
  | nil => exact absurd hi (Nat.not_lt_zero i)
  | cons a l ih =>
    obtain ⟨hle, hl⟩ := List.pairwise_cons.mp hsorted
    rcases lt_or_ge a m with hlt | hge
    · rw [countP_cons, if_pos (decide_eq_true hlt)]
      cases i with
      | zero => exact iff_of_false (not_le.mpr hlt) (Nat.not_succ_le_zero _)
      | succ i => rw [getD_cons_succ, ih hl (Nat.lt_of_succ_lt_succ hi), Nat.succ_le_succ_iff]
    · -- nothing is below the bound
      have hall : ∀ b ∈ a :: l, m ≤ b := by
        intro b hb
        rcases List.mem_cons.mp hb with rfl | hb
        · exact hge
        · exact hge.trans (hle b hb)
      rw [countP_lt_eq_zero hall]
      refine iff_of_true (hall _ ?_) (Nat.zero_le i)
      rw [getD_eq_getElem _ _ hi]
      exact getElem_mem hi

theorem le_getD_mergeSort_iff (l : List α) (hi : i < l.length) (m d : α) :
    m ≤ l.mergeSort.getD i d ↔ l.countP (· < m) ≤ i := by
  have hperm := mergeSort_perm l (· ≤ ·)
  have hsorted : l.mergeSort.Pairwise (· ≤ ·) := by
    refine (pairwise_mergeSort (fun a b c => ?_) (fun a b => ?_) l).imp of_decide_eq_true
    · simpa using le_trans
    · simpa using le_total a b
  rw [le_getD_iff hsorted (by rwa [hperm.length_eq]), hperm.countP_eq]

end OrderStatistic
