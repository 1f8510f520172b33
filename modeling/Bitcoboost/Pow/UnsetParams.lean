import Bitcoboost.Chain.Ancestors
import Bitcoboost.Pow.Transition

/-!
# Networks that leave the fast retarget open

The constructors of the testnet and signet parameters do not assign `nFastRetargetPeriod` and
`nFastRetargetUntilHeight`, so both hold whatever was in memory. The retarget reads them on every
network.
-/

namespace Bitcoboost

open ArithUint256 ChainLemmas RetargetLemmas TransitionLemmas CBlockIndex Option

def Params.standard (params : Params) : Params :=
  { params with nFastRetargetPeriod := 0, nFastRetargetUntilHeight := 0 }

/-- The required work and the permitted transitions are those of the standard retarget, on every
chain, and there is always a result: nothing is divided by zero. -/
structure RetargetsStandard (params : Params) : Prop where
  nextWork : ∀ pindexLast pblock, getNextWorkRequired pindexLast pblock params =
    getNextWorkRequired pindexLast pblock params.standard ∧
    getNextWorkRequired pindexLast pblock params ≠ none
  permitted : ∀ (height : Int) (oldNbits newNbits : BitVec 32), 0 < height →
    permittedDifficultyTransition params height oldNbits newNbits =
    permittedDifficultyTransition params.standard height oldNbits newNbits ∧
    permittedDifficultyTransition params height oldNbits newNbits ≠ none

/-- What the constructors of testnet and signet do assign. -/
structure TestNetwork (params : Params) : Prop where
  spacing : params.nPowTargetSpacing = 600
  timespan : params.nPowTargetTimespan = 1209600
  retargeting : params.fPowNoRetargeting = false
  powLimit :
    params.powLimit = uint256S 0x7fffffffffffffffffffffffffffffffffffffffffffffffffffffffffffffff

namespace UnsetParamsLemmas

variable {params : Params} (count : Nat) {pindexLast : CBlockIndex} {height : Int}
  {pblock : CBlockHeader}

theorem testNetwork_standard (h : TestNetwork params) : TestNetwork params.standard :=
  ⟨h.spacing, h.timespan, h.retargeting, h.powLimit⟩

theorem standardInterval (h : TestNetwork params) (height : Int) :
    bbGetRetargetInterval height params.standard = some 2016 := by
  unfold bbGetRetargetInterval Params.difficultyAdjustmentInterval
  rw [if_neg (by simp [Params.standard]), show params.standard.nPowTargetTimespan =
    1209600 from h.timespan, show params.standard.nPowTargetSpacing = 600 from h.spacing]
  rfl

/-- The fields are read for the interval at the height of the block only. -/
theorem getNextWorkRequired_congr (pblock : CBlockHeader)
    (h : bbGetRetargetInterval (pindexLast.nHeight + 1) params =
      bbGetRetargetInterval (pindexLast.nHeight + 1) params.standard) :
    getNextWorkRequired pindexLast pblock params =
      getNextWorkRequired pindexLast pblock params.standard := by
  unfold getNextWorkRequired calculateNextWorkRequired bbGetTargetTimespan
  rw [h]
  rfl

theorem permitted_congr {oldNbits newNbits : BitVec 32}
    (h : bbGetRetargetInterval height params = bbGetRetargetInterval height params.standard) :
    permittedDifficultyTransition params height oldNbits newNbits =
      permittedDifficultyTransition params.standard height oldNbits newNbits := by
  unfold permittedDifficultyTransition bbGetTargetTimespan
  rw [h]
  rfl

/-! ## Inside a period -/

theorem getNextWorkRequired_inside {interval : Int}
    (hinterval : bbGetRetargetInterval (pindexLast.nHeight + 1) params = some interval)
    (hzero : interval ≠ 0) (hmod : ((pindexLast.nHeight : Int) + 1).tmod interval ≠ 0) :
    getNextWorkRequired pindexLast pblock params =
      some (if params.fPowAllowMinDifficultyBlocks then
        if (pblock.nTime.toNat : Int) > pindexLast.getBlockTime + params.nPowTargetSpacing * 2 then
          (uintToArith256 params.powLimit).getCompact false
        else lastNonSpecial interval ((uintToArith256 params.powLimit).getCompact false) pindexLast
      else pindexLast.nBits) := by
  have hcmod : cMod (pindexLast.nHeight + 1) interval =
    some (((pindexLast.nHeight : Int) + 1).tmod interval) := if_neg hzero
  unfold getNextWorkRequired
  rw [hinterval, bind_eq_bind, bind_some, hcmod]
  simp only [bind_eq_bind, bind_some, if_pos hmod]
  split_ifs <;> rfl

theorem permitted_inside {interval : Int} {oldNbits newNbits : BitVec 32}
    (hmin : params.fPowAllowMinDifficultyBlocks = false)
    (hinterval : bbGetRetargetInterval height params = some interval) (hzero : interval ≠ 0)
    (hmod : height.tmod interval ≠ 0) :
    permittedDifficultyTransition params height oldNbits newNbits =
      some (decide (oldNbits = newNbits)) := by
  have hcmod : cMod height interval = some (height.tmod interval) := if_neg hzero
  unfold permittedDifficultyTransition
  rw [hmin, hinterval, bbGetTargetTimespan_eq hinterval]
  simp only [bind_eq_bind, bind_some, hcmod, if_neg hmod]
  rfl

/-- Below both intervals no height ends a period. -/
theorem lastNonSpecial_congr {interval interval' : Int} (nProofOfWorkLimit : BitVec 32)
    {pindex : CBlockIndex}
    (h : (pindex.nHeight : Int) < interval) (h' : (pindex.nHeight : Int) < interval') :
    lastNonSpecial interval nProofOfWorkLimit pindex =
      lastNonSpecial interval' nProofOfWorkLimit pindex := by
  induction pindex with
  | genesis header => rfl
  | next pprev header ih =>
    rw [nHeight_next] at h h'
    have hmod {n : Int} (hn : ((pprev.nHeight + 1 : Nat) : Int) < n) :
        ((next pprev header).nHeight : Int).tmod n ≠ 0 := by
      rw [nHeight_next, Int.tmod_eq_of_lt (by omega) hn]
      omega
    unfold lastNonSpecial
    rw [ih (by omega) (by omega)]
    simp only [ne_eq, hmod h, hmod h', not_false_eq_true, true_and]

/-! ## The end of a period -/

section

variable (h : TestNetwork params) {pindexLast : CBlockIndex} {interval : Nat} (hpos : 0 < interval)
  (hinterval : bbGetRetargetInterval (pindexLast.nHeight + 1) params = some (interval : Int))
  (hdvd : interval ∣ pindexLast.nHeight + 1)
include h hpos hinterval hdvd

theorem atRetarget_of_dvd :
    ∃ pindexFirst, pindexLast.getAncestor (pindexLast.nHeight + 1 - interval : Nat) =
      some pindexFirst ∧
      AtRetarget params pindexLast pindexFirst (interval * 600 : Nat) := by
  have hle := Nat.le_of_dvd (Nat.succ_pos _) hdvd
  have hheight : (pindexLast.nHeight : Int) - (interval - 1) =
    (pindexLast.nHeight + 1 - interval : Nat) := by omega
  have hfirst :=
    AncestorLemmas.getAncestor_of_le (show pindexLast.nHeight + 1 - interval ≤
      pindexLast.nHeight by omega)
  refine ⟨_, hfirst, ⟨interval, hinterval, ?_, hheight ▸ hfirst⟩, ?_⟩
  · rw [cMod, if_neg (by omega)]
    exact congrArg some (Int.tmod_eq_zero_of_dvd (Int.natCast_dvd_natCast.mpr hdvd))
  · rw [bbGetTargetTimespan_eq hinterval, h.spacing]
    rfl

theorem getNextWorkRequired_dvd (pblock : CBlockHeader) (hlt : interval ≤ 2016) :
    ∃ pindexFirst, pindexLast.getAncestor (pindexLast.nHeight + 1 - interval : Nat) =
      some pindexFirst ∧
      getNextWorkRequired pindexLast pblock params = some (compactForm (min params.limit
        (pindexLast.target * retargetTimespan pindexLast pindexFirst (interval * 600) % 2 ^ 256 /
          (interval * 600)))) := by
  obtain ⟨pindexFirst, hfirst, hat⟩ := atRetarget_of_dvd h hpos hinterval hdvd
  refine ⟨pindexFirst, hfirst, ?_⟩
  rw [getNextWorkRequired_atRetarget pblock hat,
    calculateNextWorkRequired_eq h.retargeting hat (by omega) (by omega)]

end

/-! ## The standard retarget -/

theorem getNextWorkRequired_standard (h : TestNetwork params) :
    getNextWorkRequired pindexLast pblock params.standard ≠ none := by
  have hinterval := standardInterval h (pindexLast.nHeight + 1)
  by_cases hdvd : 2016 ∣ pindexLast.nHeight + 1
  · obtain ⟨_, _, hwork⟩ :=
      getNextWorkRequired_dvd (testNetwork_standard h) (by decide) hinterval hdvd pblock
        (Nat.le_refl 2016)
    rw [hwork]
    exact some_ne_none _
  · have hmod : ((pindexLast.nHeight : Int) + 1).tmod 2016 ≠ 0 := fun hzero =>
      hdvd (Int.natCast_dvd_natCast.mp (Int.dvd_of_tmod_eq_zero hzero))
    rw [getNextWorkRequired_inside hinterval (by decide) hmod]
    exact some_ne_none _

theorem permitted_standard (h : TestNetwork params) {oldNbits newNbits : BitVec 32} :
    permittedDifficultyTransition params.standard height oldNbits newNbits ≠ none := by
  cases hmin : params.standard.fPowAllowMinDifficultyBlocks with
  | true =>
    unfold permittedDifficultyTransition
    rw [hmin]
    exact some_ne_none _
  | false =>
    have hinterval := standardInterval h height
    by_cases hmod : height.tmod 2016 = 0
    · have hspan : bbGetTargetTimespan height params.standard = some ((1209600 : Nat) : Int) := by
        rw [bbGetTargetTimespan_eq hinterval, (testNetwork_standard h).spacing]
        rfl
      have hcmod : cMod height 2016 = some 0 := by rw [cMod, if_neg (by decide), hmod]
      rw [permitted_boundary hmin hinterval hspan hcmod (by decide) (by decide)]
      exact some_ne_none _
    · rw [permitted_inside hmin hinterval (by decide) hmod]
      exact some_ne_none _

/-- Values that leave the standard retarget alone. -/
def Harmless (params : Params) : Prop :=
  params.nFastRetargetPeriod ≤ 0 ∨ params.nFastRetargetPeriod = 2016 ∨
    params.nFastRetargetUntilHeight ≤ min params.nFastRetargetPeriod 2016

/-- At every height the interval is the standard one, or the height is below both. -/
theorem interval_cases (h : TestNetwork params) (hharmless : Harmless params) :
    bbGetRetargetInterval height params = bbGetRetargetInterval height params.standard ∨
      bbGetRetargetInterval height params = some params.nFastRetargetPeriod ∧
        height < min params.nFastRetargetPeriod 2016 := by
  rw [standardInterval h]
  unfold bbGetRetargetInterval Params.difficultyAdjustmentInterval
  rw [h.timespan, h.spacing]
  split
  · next hfast =>
    obtain ⟨hperiod, _, hheight⟩ := hfast
    rcases hharmless with hle | heq | huntil
    · exact absurd hperiod (not_lt.mpr hle)
    · exact .inl (congrArg some heq)
    · exact .inr ⟨rfl, hheight.trans_le huntil⟩
  · exact .inl rfl

theorem tmod_ne_zero {interval : Int} (hpos : 0 < height) (hlt : height < interval) :
    height.tmod interval ≠ 0 := by
  rw [Int.tmod_eq_of_lt hpos.le hlt]
  exact hpos.ne'

theorem retargetsStandard_of_harmless (h : TestNetwork params) (hharmless : Harmless params) :
    RetargetsStandard params := by
  constructor
  · intro pindexLast pblock
    have heq : getNextWorkRequired pindexLast pblock params =
        getNextWorkRequired pindexLast pblock params.standard := by
      rcases interval_cases h hharmless with hsame | ⟨hfast, hlt⟩
      · exact getNextWorkRequired_congr pblock hsame
      · obtain ⟨hperiod, hstandard⟩ := lt_min_iff.mp hlt
        rw [getNextWorkRequired_inside hfast (by omega) (tmod_ne_zero (by omega) hperiod),
          getNextWorkRequired_inside (standardInterval h _) (by decide)
          (tmod_ne_zero (by omega) hstandard),
          lastNonSpecial_congr _ (by omega : (pindexLast.nHeight : Int) <
          params.nFastRetargetPeriod) (by omega : (pindexLast.nHeight : Int) < 2016)]
        rfl
    exact ⟨heq, heq ▸ getNextWorkRequired_standard h⟩
  · intro height oldNbits newNbits hpos
    have heq : permittedDifficultyTransition params height oldNbits newNbits =
        permittedDifficultyTransition params.standard height oldNbits newNbits := by
      rcases interval_cases h hharmless with hsame | ⟨hfast, hlt⟩
      · exact permitted_congr hsame
      · obtain ⟨hperiod, hstandard⟩ := lt_min_iff.mp hlt
        cases hmin : params.fPowAllowMinDifficultyBlocks with
        | true =>
          unfold permittedDifficultyTransition
          rw [hmin, show params.standard.fPowAllowMinDifficultyBlocks = true from hmin]
          rfl
        | false =>
          rw [permitted_inside hmin hfast (by omega) (tmod_ne_zero hpos hperiod),
            permitted_inside (show params.standard.fPowAllowMinDifficultyBlocks = false from hmin)
            (standardInterval h _) (by decide) (tmod_ne_zero hpos hstandard)]
    exact ⟨heq, heq ▸ permitted_standard h⟩

/-! ## Values that do harm -/

/-- A chain of blocks with one time and the difficulty of `0x1d00ffff`. -/
def stillChain (count : Nat) : CBlockIndex :=
  (CBlockIndex.genesis { nBits := 0x1d00ffff#32 }).extend (fun _ => 0#32) count

theorem nHeight_stillChain : (stillChain count).nHeight = count := by
  rw [stillChain, nHeight_extend]
  exact Nat.zero_add count

theorem nBits_stillChain : (stillChain count).nBits = 0x1d00ffff#32 := nBits_extend _ _ count

theorem nTime_stillChain : (stillChain count).nTime = 0#32 := by
  cases count <;> rfl

section

variable (h : TestNetwork params)
include h

theorem limit_eq : (uintToArith256 params.powLimit).getCompact false = 0x207fffff#32 ∧
    params.limit = 2 ^ 255 - 1 := by
  unfold Params.limit
  rw [h.powLimit]
  decide +kernel

/-- Inside a period the difficulty stays. -/
theorem stillChain_inside {count : Nat} {interval : Int} (hpos : 0 < interval)
    (hinterval : bbGetRetargetInterval ((count : Int) + 1) params = some interval)
    (hmod : ((count : Int) + 1).tmod interval ≠ 0) :
    getNextWorkRequired (stillChain count) {} params = some 0x1d00ffff#32 := by
  rw [getNextWorkRequired_inside (by rwa [nHeight_stillChain]) hpos.ne'
    (by rwa [nHeight_stillChain]), (limit_eq h).1]
  have hspecial : lastNonSpecial interval 0x207fffff#32 (stillChain count) = 0x1d00ffff#32 := by
    cases count with
    | zero => rfl
    | succ count =>
      have hbits : ((genesis { nBits := 0x1d00ffff#32 }).nBits) ≠ 0x207fffff#32 := by decide
      exact if_neg fun hspecial => hbits hspecial.2
  rw [hspecial, nBits_stillChain, getBlockTime, nTime_stillChain, h.spacing]
  simp

/-- At its end the target is divided by four. -/
theorem stillChain_retarget {interval : Nat} (hpos : 0 < interval) (hle : interval ≤ 2016)
    (hinterval : bbGetRetargetInterval (interval : Int) params = some (interval : Int)) :
    getNextWorkRequired (stillChain (interval - 1)) {} params = some 0x1c3fffc0#32 := by
  have hheight : (stillChain (interval - 1)).nHeight + 1 =
    interval := by rw [nHeight_stillChain, Nat.sub_add_cancel hpos]
  have hcast : ((stillChain (interval - 1)).nHeight : Int) + 1 = interval := by omega
  obtain ⟨pindexFirst, hfirst, hwork⟩ :=
    @getNextWorkRequired_dvd params h (stillChain (interval - 1)) interval hpos (hcast ▸ hinterval)
      (by rw [hheight]) {} hle
  rw [hheight, Nat.sub_self] at hfirst
  have hgenesis : pindexFirst = .genesis { nBits := 0x1d00ffff#32 } :=
    (Option.some.inj ((getAncestor_extend _ _ _).symm.trans hfirst)).symm
  have htarget : (stillChain (interval - 1)).target = 0xffff * 2 ^ 208 := by
    rw [target, nBits_stillChain]
    decide +kernel
  have hspan : retargetTimespan (stillChain (interval - 1)) pindexFirst (interval * 600) =
      interval * 150 := by
    unfold retargetTimespan
    rw [hgenesis, getBlockTime, getBlockTime, nTime_stillChain]
    simp only [nTime, header, BitVec.toNat_ofNat, Nat.zero_mod]
    omega
  have hquarter :
      0xffff * 2 ^ 208 * (interval * 150) % 2 ^ 256 / (interval * 600) = 0xffff * 2 ^ 206 := by
    rw [Nat.mod_eq_of_lt (by omega), show interval * 600 = 4 * (interval * 150) by omega,
      Nat.mul_div_mul_right _ _ (by omega : 0 < interval * 150)]
    decide
  rw [hwork, htarget, hspan, hquarter, (limit_eq h).2]
  decide +kernel

theorem harmless_of_retargetsStandard (hstandard : RetargetsStandard params) : Harmless params := by
  by_contra hharm
  obtain ⟨hle, hrest⟩ := not_or.mp hharm
  obtain ⟨hne, hlong⟩ := not_or.mp hrest
  have hperiod := not_le.mp hle
  have hfast {height : Int} (hheight : height < params.nFastRetargetUntilHeight) :
      bbGetRetargetInterval height params = some params.nFastRetargetPeriod :=
    if_pos ⟨hperiod, by omega, hheight⟩
  have hdiffer : some 0x1c3fffc0#32 ≠ some 0x1d00ffff#32 := by decide
  rcases lt_or_gt_of_ne hne with hlt | hgt
  · -- the first fast retarget comes before the standard one
    obtain ⟨interval, hinterval⟩ := Int.eq_ofNat_of_zero_le hperiod.le
    have hcount : ((interval - 1 : Nat) : Int) + 1 = interval := by omega
    have hwork :=
      stillChain_retarget h (by omega : 0 < interval) (by omega) (hinterval ▸ hfast (by omega))
    have hstay := stillChain_inside (testNetwork_standard h) (by decide) (standardInterval h _)
      (hcount ▸ tmod_ne_zero (by omega) (by omega) :
        (((interval - 1 : Nat) : Int) + 1).tmod 2016 ≠ 0)
    exact hdiffer (hwork.symm.trans ((hstandard.nextWork _ _).1.trans hstay))
  · -- the first standard retarget is passed over
    have hwork :=
      stillChain_retarget (testNetwork_standard h) (by decide) (Nat.le_refl 2016)
        (standardInterval h _)
    have hstay :=
      @stillChain_inside _ h 2015 _ hperiod (hfast (by omega)) (tmod_ne_zero (by decide) hgt)
    exact hdiffer (hwork.symm.trans ((hstandard.nextWork _ _).1.symm.trans hstay))

end

end UnsetParamsLemmas

open UnsetParamsLemmas

/-- Testnet and signet retarget as they should exactly if the unset fields hold no fast period, the
standard one, or one that ends before the first retarget of either kind. -/
theorem retargetsStandard_iff (unset : Unset) :
    (RetargetsStandard (testNetConsensus unset) ↔
      unset.nFastRetargetPeriod ≤ 0 ∨ unset.nFastRetargetPeriod = 2016 ∨
        unset.nFastRetargetUntilHeight ≤ min unset.nFastRetargetPeriod 2016) ∧
    (RetargetsStandard (sigNetConsensus unset) ↔
      unset.nFastRetargetPeriod ≤ 0 ∨ unset.nFastRetargetPeriod = 2016 ∨
        unset.nFastRetargetUntilHeight ≤ min unset.nFastRetargetPeriod 2016) := by
  have htest : TestNetwork (testNetConsensus unset) := ⟨rfl, rfl, rfl, rfl⟩
  have hsig : TestNetwork (sigNetConsensus unset) := ⟨rfl, rfl, rfl, rfl⟩
  exact ⟨⟨harmless_of_retargetsStandard htest, retargetsStandard_of_harmless htest⟩,
    ⟨harmless_of_retargetsStandard hsig, retargetsStandard_of_harmless hsig⟩⟩

/-- The block after the testnet genesis block, with a field that holds one. -/
theorem unset_fields_read :
    getNextWorkRequired (.genesis (testNetParams ⟨1, 2, nullUint256, nullUint256⟩).genesis) {}
        (testNetConsensus ⟨1, 2, nullUint256, nullUint256⟩) ≠
      getNextWorkRequired (.genesis (testNetParams ⟨0, 0, nullUint256, nullUint256⟩).genesis) {}
        (testNetConsensus ⟨0, 0, nullUint256, nullUint256⟩) := by
  decide +kernel

end Bitcoboost
