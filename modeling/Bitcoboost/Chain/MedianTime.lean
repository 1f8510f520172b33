import Bitcoboost.Chain.Ancestors
import Bitcoboost.Consensus.TxVerify
import Bitcoboost.Lib.OrderStatistic

/-!
# Median time past

The times of a chain may go up and down, but a header is accepted only if its time is past
the median of its parent (`time-too-old`). The medians are then in order, and what is final
stays final.
-/

namespace Bitcoboost

open List

/-- The chains whose blocks all pass the check `time-too-old` of `ContextualCheckBlockHeader`. -/
inductive CBlockIndex.TimesOrdered : CBlockIndex → Prop
  | genesis (header : CBlockHeader) : TimesOrdered (.genesis header)
  | next {pprev : CBlockIndex} {header : CBlockHeader} : TimesOrdered pprev →
      (header.nTime.toNat : Int) > pprev.getMedianTimePast → TimesOrdered (.next pprev header)

namespace MedianTimeLemmas

open CBlockIndex

variable (count : Nat) (pindex : CBlockIndex)

/-- A smaller window has the newest of the times. -/
theorem lastTimes_sublist : (pindex.lastTimes count).Sublist (pindex.lastTimes (count + 1)) := by
  induction pindex generalizing count with
  | genesis header =>
    cases count with
    | zero => exact nil_sublist _
    | succ count => exact List.Sublist.refl _
  | next pprev header ih =>
    cases count with
    | zero => exact nil_sublist _
    | succ count => exact (ih count).cons_cons _

theorem length_lastTimes_le :
    (pindex.lastTimes (count + 1)).length ≤ (pindex.lastTimes count).length + 1 := by
  induction pindex generalizing count with
  | genesis header =>
    cases count with
    | zero => exact Nat.le_refl 1
    | succ count => exact Nat.le_succ 1
  | next pprev header ih =>
    cases count with
    | zero => simp [lastTimes]
    | succ count => exact Nat.succ_le_succ (ih count)

theorem length_lastTimes_pos : 0 < (pindex.lastTimes (count + 1)).length := by
  cases pindex <;> exact Nat.succ_pos _

/-- What is at most the median: a bound that at most half of the times are below. -/
theorem le_getMedianTimePast_iff (m : Int) :
    m ≤ pindex.getMedianTimePast ↔ (pindex.lastTimes 11).countP (· < m) ≤
      (pindex.lastTimes 11).length / 2 := by
  have hlength : ((pindex.lastTimes 11).mergeSort).length = (pindex.lastTimes 11).length :=
    length_mergeSort _
  unfold getMedianTimePast
  dsimp only
  rw [hlength]
  refine OrderStatistic.le_getD_mergeSort_iff _ ?_ m 0
  exact Nat.div_lt_self (length_lastTimes_pos 10 pindex) (by decide)

theorem getMedianTimePast_lt_iff (m : Int) :
    pindex.getMedianTimePast < m ↔ (pindex.lastTimes 11).length / 2 <
      (pindex.lastTimes 11).countP (· < m) := by
  rw [← not_le, le_getMedianTimePast_iff, not_le]

theorem lastTimes_nonneg : ∀ t ∈ pindex.lastTimes count, 0 ≤ t := by
  induction pindex generalizing count with
  | genesis header =>
    cases count with
    | zero => exact nofun
    | succ count =>
      intro t ht
      rw [List.mem_singleton.mp ht]
      exact Int.natCast_nonneg _
  | next pprev header ih =>
    cases count with
    | zero => exact nofun
    | succ count => exact List.forall_mem_cons.mpr ⟨Int.natCast_nonneg _, ih count⟩

theorem getMedianTimePast_nonneg : 0 ≤ pindex.getMedianTimePast := by
  rw [le_getMedianTimePast_iff, OrderStatistic.countP_lt_eq_zero (lastTimes_nonneg 11 pindex)]
  exact Nat.zero_le _

/-- The median does not go back. -/
theorem getMedianTimePast_next {pprev : CBlockIndex} {header : CBlockHeader}
    (h : (header.nTime.toNat : Int) > pprev.getMedianTimePast) :
    pprev.getMedianTimePast ≤ (CBlockIndex.next pprev header).getMedianTimePast := by
  have hhalf := (le_getMedianTimePast_iff pprev _).mp le_rfl
  refine (le_getMedianTimePast_iff _ _).mpr ?_
  rw [lastTimes, countP_cons, if_neg (by simpa using h.le), length_cons]
  calc (pprev.lastTimes 10).countP (· < pprev.getMedianTimePast)
      ≤ (pprev.lastTimes 11).countP (· < pprev.getMedianTimePast) :=
        (lastTimes_sublist 10 pprev).countP_le
    _ ≤ (pprev.lastTimes 11).length / 2 := hhalf
    _ ≤ ((pprev.lastTimes 10).length + 1) / 2 := Nat.div_le_div_right (length_lastTimes_le 10 pprev)

theorem timesOrdered_of_below {pindex tip : CBlockIndex} (hbelow : pindex.Below tip)
    (htip : tip.TimesOrdered) : pindex.TimesOrdered := by
  induction hbelow with
  | refl => exact htip
  | next _ ih =>
    cases htip with
    | next hprev _ => exact ih hprev

theorem getMedianTimePast_mono {pindex tip : CBlockIndex} (hbelow : pindex.Below tip)
    (htip : tip.TimesOrdered) : pindex.getMedianTimePast ≤ tip.getMedianTimePast := by
  induction hbelow with
  | refl => exact le_rfl
  | next _ ih =>
    cases htip with
    | next hprev htime => exact (ih hprev).trans (getMedianTimePast_next htime)

/-- A transaction stays final at a greater height and a later time. -/
theorem isFinalTx_of_le {tx : CTransaction} {nHeight nHeight' : Nat} {nTime nTime' : Int}
    (hheight : nHeight ≤ nHeight')
    (htime : nTime ≤ nTime') (hfinal : isFinalTx tx nHeight nTime = true) :
    isFinalTx tx nHeight' nTime' = true := by
  unfold isFinalTx at hfinal ⊢
  simp only [Bool.or_eq_true, decide_eq_true_eq] at hfinal ⊢
  rcases hfinal with (hzero | hpast) | hsequence
  · exact .inl (.inl hzero)
  · refine .inl (.inr ?_)
    split_ifs at hpast ⊢
    · exact hpast.trans_le (Int.ofNat_le.mpr hheight)
    · exact hpast.trans_le htime
  · exact .inr hsequence

end MedianTimeLemmas

open MedianTimeLemmas AncestorLemmas

/-- Medians are in order along a chain, and a transaction that is final for the block after an
entry is final for the block after each of its descendants. -/
theorem medianTimePast_final_mono (tip : CBlockIndex) (htip : tip.TimesOrdered) :
    (∀ pprev header, (CBlockIndex.next pprev header).Below tip →
      pprev.getMedianTimePast ≤ (CBlockIndex.next pprev header).getMedianTimePast) ∧
    ∀ (tx : CTransaction) (pindex : CBlockIndex), pindex.Below tip →
    isFinalTx tx (pindex.nHeight + 1) pindex.getMedianTimePast = true →
      isFinalTx tx (tip.nHeight + 1) tip.getMedianTimePast = true := by
  constructor
  · intro pprev header hbelow
    exact getMedianTimePast_mono (.next .refl) (timesOrdered_of_below hbelow htip)
  · intro tx pindex hbelow
    exact isFinalTx_of_le (Nat.succ_le_succ (nHeight_le_of_below hbelow))
      (getMedianTimePast_mono hbelow htip)

/-- A chain whose last block is earlier than the one before. -/
def unevenTimes : CBlockIndex :=
  .next (.next (.next (.genesis { nTime := 500000100#32 }) { nTime := 500000300#32 })
    { nTime := 500000400#32 }) { nTime := 500000301#32 }

def lockedTx : CTransaction where
  vin := [⟨⟨nullUint256, 0#32⟩, [], 0#32, []⟩]
  vout := []
  nVersion := 1#32
  nLockTime := 500000299#32

theorem lockedTx_final : isFinalTx lockedTx 4 unevenTimes.getMedianTimePast = true := by
  have htimes : unevenTimes.TimesOrdered := by
    refine .next (.next (.next (.genesis _) ?_) ?_) ?_ <;>
      exact (getMedianTimePast_lt_iff _ _).mpr (by decide)
  refine (medianTimePast_final_mono unevenTimes htimes).2 lockedTx _ (.next (.next .refl)) ?_
  exact isFinalTx_of_le le_rfl ((le_getMedianTimePast_iff _ 500000300).mpr (by decide)) (by decide)

end Bitcoboost
