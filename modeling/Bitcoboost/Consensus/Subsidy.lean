import Bitcoboost.Consensus.Params
import Mathlib.Tactic.Ring

/-!
# The block subsidy and the supply

`GetBlockSubsidy` pays 1 coin for the first thousand blocks, 10 coins for the second thousand and
then 50 coins, halved every `nSubsidyHalvingInterval` blocks counted from height 2001. The
halving series alone comes to just under 21 million coins, so the slow start takes the sum over
`MAX_MONEY`.
-/

namespace Bitcoboost

open List

/-- `GetBlockSubsidy`. Every network has a positive halving interval. -/
def getBlockSubsidy (nHeight : Int) (params : Params) : CAmount :=
  if nHeight ≤ 1000 then 1 * coin
  else if nHeight ≤ 2000 then 10 * coin
  else
    let halvings := (nHeight - 2001).tdiv params.nSubsidyHalvingInterval
    -- the right shift would be undefined
    if halvings ≥ 64 then 0
    else (50 * coin) >>> halvings.toNat

/-- The sum of the subsidies of the heights 1 to `n`. -/
def totalSubsidy (params : Params) (n : Nat) : CAmount :=
  ((List.range n).map fun h => getBlockSubsidy ((h : Int) + 1) params).sum

/-- The subsidy of the epoch after `halvings` halvings. -/
def epochSubsidy (halvings : Nat) : CAmount := (50 * coin) >>> halvings

namespace SubsidyLemmas

theorem totalSubsidy_succ (params : Params) (n : Nat) :
    totalSubsidy params (n + 1) = totalSubsidy params n +
      getBlockSubsidy ((n : Int) + 1) params := by
  simp [totalSubsidy, range_succ]

/-- A stretch of heights with one subsidy. -/
theorem totalSubsidy_add {params : Params} {n m : Nat} {s : CAmount}
    (h : ∀ k < m, getBlockSubsidy ((n : Int) + k + 1) params = s) :
    totalSubsidy params (n + m) = totalSubsidy params n + m * s := by
  induction m with
  | zero => simp
  | succ m ih =>
    rw [← Nat.add_assoc, totalSubsidy_succ, ih fun k hk => h k (by omega), Int.natCast_add,
      h m (by omega), Int.natCast_succ]
    ring

theorem getBlockSubsidy_epoch {params : Params} {interval : Nat}
    (hint : params.nSubsidyHalvingInterval = interval)
    {halvings k : Nat} (hhalvings : halvings < 64) (hk : k < interval) :
    getBlockSubsidy (((2000 + interval * halvings : Nat) : Int) + k + 1) params =
      epochSubsidy halvings := by
  have hdiv :
      (((2000 + interval * halvings : Nat) : Int) + k + 1 - 2001).tdiv interval = halvings := by
    rw [show (((2000 + interval * halvings : Nat) : Int) + k + 1 - 2001) =
      ((k + interval * halvings : Nat) : Int) by push_cast; ring]
    rw [← Int.ofNat_tdiv, Nat.add_mul_div_left _ _ (by omega), Nat.div_eq_of_lt hk, Nat.zero_add]
  rw [getBlockSubsidy, if_neg (by omega), if_neg (by omega)]
  rw [hint, hdiv, if_neg (by omega), Int.toNat_natCast, epochSubsidy]

theorem epochSubsidy_nonneg (halvings : Nat) : 0 ≤ epochSubsidy halvings :=
  Int.le_shiftRight_of_nonneg (by decide)

end SubsidyLemmas

open SubsidyLemmas

theorem getBlockSubsidy_nonneg (nHeight : Int) (params : Params) :
    0 ≤ getBlockSubsidy nHeight params := by
  unfold getBlockSubsidy
  split
  · decide
  · split
    · decide
    · dsimp only
      split
      · exact le_refl _
      · exact epochSubsidy_nonneg _

theorem totalSubsidy_mono {params : Params} {n m : Nat} (h : n ≤ m) :
    totalSubsidy params n ≤ totalSubsidy params m := by
  induction h with
  | refl => exact le_refl _
  | step _ ih =>
    rw [totalSubsidy_succ]
    exact ih.trans (Int.le_add_of_nonneg_right (getBlockSubsidy_nonneg _ _))

theorem totalSubsidy_slowStart (params : Params) : totalSubsidy params 2000 = 11000 * coin := by
  have hfirst : totalSubsidy params (0 + 1000) = totalSubsidy params 0 + (1000 : Nat) *
    (1 * coin) := totalSubsidy_add fun k hk => by rw [getBlockSubsidy, if_pos (by omega)]
  have hsecond :
    totalSubsidy params (1000 + 1000) = totalSubsidy params 1000 + (1000 : Nat) * (10 * coin) :=
    totalSubsidy_add fun k hk => by rw [getBlockSubsidy, if_neg (by omega), if_pos (by omega)]
  have hzero : totalSubsidy params 0 = 0 := rfl
  rw [hsecond, show totalSubsidy params 1000 = _ from hfirst, hzero]
  decide

theorem totalSubsidy_epoch {params : Params} {interval : Nat}
    (hint : params.nSubsidyHalvingInterval = interval) {k : Nat} (hk : k ≤ 64) :
    totalSubsidy params (2000 + interval * k) =
      11000 * coin + interval * ((List.range k).map epochSubsidy).sum := by
  induction k with
  | zero => simp [totalSubsidy_slowStart]
  | succ k ih =>
    have hstep := totalSubsidy_add fun j hj =>
      getBlockSubsidy_epoch (k := j) hint (show k < 64 by omega) hj
    rw [Nat.mul_succ, ← Nat.add_assoc, hstep, ih (by omega), range_succ, map_append, sum_append]
    simp only [map_cons, map_nil, sum_cons, sum_nil]
    ring

theorem totalSubsidy_inEpoch {params : Params} {interval : Nat}
    (hint : params.nSubsidyHalvingInterval = interval)
    {k m : Nat} (hk : k < 64) (hm : m ≤ interval) :
    totalSubsidy params (2000 + interval * k + m)
      = 11000 * coin + interval * ((List.range k).map epochSubsidy).sum + m * epochSubsidy k := by
  rw [totalSubsidy_add fun j hj => getBlockSubsidy_epoch hint hk (by omega),
    totalSubsidy_epoch hint hk.le]

/-! ## The mainnet supply -/

namespace SubsidyLemmas

theorem mainConsensus_interval : mainConsensus.nSubsidyHalvingInterval = (210000 : Nat) := rfl

/-- The supply in the eleventh halving epoch, where it passes the cap. -/
theorem totalSubsidy_eleventh {m : Nat} (hm : m ≤ 210000) :
    totalSubsidy mainConsensus (2102000 + m) = 2099049218750000 + m * 4882812 :=
  totalSubsidy_inEpoch mainConsensus_interval (k := 10) (by decide) hm

end SubsidyLemmas

/-- The cap of 21 million coins holds up to the height 2296720, in the eleventh
halving epoch, and at no height after it. -/
theorem totalSubsidy_le_maxMoney_iff (n : Nat) :
    totalSubsidy mainConsensus n ≤ maxMoney ↔ n ≤ 2296720 := by
  constructor
  · intro h
    by_contra hn
    have hfirst : totalSubsidy mainConsensus (2102000 + 194721) ≤ totalSubsidy mainConsensus n :=
      totalSubsidy_mono (by omega)
    rw [totalSubsidy_eleventh (by decide)] at hfirst
    exact absurd (hfirst.trans h) (by decide)
  · intro h
    calc totalSubsidy mainConsensus n
        ≤ totalSubsidy mainConsensus (2102000 + 194720) := totalSubsidy_mono (by omega)
      _ = 2099049218750000 + (194720 : Nat) * 4882812 := totalSubsidy_eleventh (by decide)
      _ ≤ maxMoney := by decide

/-- The block of height 2296721 takes the supply over the cap. -/
theorem supply_over_maxMoney : maxMoney < totalSubsidy mainConsensus 2296721 := by
  rw [show 2296721 = 2102000 + 194721 by decide, totalSubsidy_eleventh (by decide)]
  decide

end Bitcoboost
