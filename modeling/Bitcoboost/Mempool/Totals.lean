import Bitcoboost.Mempool.Entry
import Mathlib.Algebra.Order.BigOperators.Group.Finset

/-!
# Sums that fit

An update of the totals of an entry is an addition as long as the size that is added fits 32
bits, the sum of the fees fits 64 bits, and no assertion fails. `SumsFit` says that of all the
sums over the subsets of a set.
-/

namespace Bitcoboost.Mempool

open Finset

theorem toInt32_eq {n : Int} (hlow : -2 ^ 31 ≤ n) (hhigh : n < 2 ^ 31) : toInt32 n = n := by
  rw [toInt32, BitVec.toInt_ofInt]
  exact Int.bmod_eq_of_le (by omega) (by omega)

theorem toInt32_le {n : Int} (h : 0 ≤ n) : toInt32 n ≤ n := by
  rw [toInt32, BitVec.toInt_ofInt, Int.bmod_def]
  split <;> omega

namespace Totals

/-- Where no assertion fails, a count and a size are added. -/
theorem update_eq_some {t modify t' : Totals} (h : t.update modify = some t') :
    t'.count = t.count + modify.count ∧ t'.size = t.size + toInt32 modify.size := by
  simp only [update] at h
  split at h
  · cases h
    exact ⟨rfl, rfl⟩
  · cases h

/-- A change of the size fits an `int32_t`, and after it the assertions hold. -/
structure Fits (t modify : Totals) : Prop where
  low : -2 ^ 31 ≤ modify.size
  high : modify.size < 2 ^ 31
  size : 0 < t.size + modify.size
  count : 0 < t.count + modify.count
  sigOpCost : 0 ≤ t.sigOpCost + modify.sigOpCost
  sigOpCost_lt : t.sigOpCost + modify.sigOpCost < 2 ^ 31

theorem Fits.update {t modify : Totals} (h : Fits t modify) :
    t.update modify =
      some { t + modify with modFees := saturatingAdd t.modFees modify.modFees } := by
  have hsize := toInt32_eq h.low h.high
  have hsigOps := toInt32_eq (by have := h.sigOpCost; omega) h.sigOpCost_lt
  have hassert : 0 < t.size + toInt32 modify.size ∧ 0 < t.count + modify.count
      ∧ 0 ≤ toInt32 (t.sigOpCost + modify.sigOpCost) := by
    rw [hsize, hsigOps]
    exact ⟨h.size, h.count, h.sigOpCost⟩
  unfold Totals.update
  rw [if_pos hassert, hsize]
  rfl

/-- What a set of weights must keep to, so that no assertion fails. -/
structure SumsFit {ι : Type} (s : Finset ι) (w : ι → Totals) : Prop where
  count : ∀ i ∈ s, 0 < (w i).count
  size : ∀ i ∈ s, 0 < (w i).size
  sigOpCost : ∀ i ∈ s, 0 ≤ (w i).sigOpCost
  size_lt : ∑ i ∈ s, (w i).size < 2 ^ 31
  sigOpCost_lt : ∑ i ∈ s, (w i).sigOpCost < 2 ^ 31

namespace SumsFit

variable {ι : Type} {s t : Finset ι} {w : ι → Totals} (h : SumsFit s w) (ht : t ⊆ s)
include h ht

theorem size_sum_lt : (∑ i ∈ t, w i).size < 2 ^ 31 := by
  rw [size_sum]
  exact (sum_le_sum_of_subset_of_nonneg ht fun i hi _ => (h.size i hi).le).trans_lt h.size_lt

theorem size_sum_nonneg : 0 ≤ (∑ i ∈ t, w i).size := by
  rw [size_sum]
  exact sum_nonneg fun i hi => (h.size i (ht hi)).le

variable {totals modify : Totals} (hne : t.Nonempty) (hsum : totals + modify = ∑ i ∈ t, w i)
  (hlow : -2 ^ 31 ≤ modify.size) (hhigh : modify.size < 2 ^ 31)
include hne hsum hlow hhigh

/-- The totals can become those of a subset that is not empty. -/
theorem fits : Fits totals modify := by
  refine ⟨hlow, hhigh, ?_, ?_, ?_, ?_⟩
  · rw [← size_add, hsum, size_sum]
    exact sum_pos (fun i hi => h.size i (ht hi)) hne
  · rw [← count_add, hsum, count_sum]
    exact sum_pos (fun i hi => h.count i (ht hi)) hne
  · rw [← sigOpCost_add, hsum, sigOpCost_sum]
    exact sum_nonneg fun i hi => h.sigOpCost i (ht hi)
  · rw [← sigOpCost_add, hsum, sigOpCost_sum]
    exact (sum_le_sum_of_subset_of_nonneg ht fun i hi _ => h.sigOpCost i hi).trans_lt h.sigOpCost_lt

end SumsFit

end Totals

end Bitcoboost.Mempool
