import Bitcoboost.Pow.Transition

/-!
# Whether a mainnet chain can be extended

A chain is stuck when the next `nBits` encode a target that `CheckProofOfWork` refuses for every
hash but the genesis hash: exactly when a retarget comes out as zero, as `GetCompact` never sets
the sign or overflows and the target never exceeds the limit.
-/

namespace Bitcoboost

open ArithUint256 RoundDown ChainLemmas RetargetLemmas

/-- `SetCompact` decodes `nBits` to a target that `CheckProofOfWork` has no
objection to. -/
structure ValidNBits (params : Params) (nBits : BitVec 32) : Prop where
  notNegative : (setCompact nBits).fNegative = false
  notOverflow : (setCompact nBits).fOverflow = false
  nonzero : (setCompact nBits).target ≠ 0
  inLimit : (setCompact nBits).target ≤ uintToArith256 params.powLimit

/-- The next block after `pindexLast` has required `nBits`, they are valid, and
some hash other than that of the genesis block meets them. -/
def Extendable (params : Params) (pindexLast : CBlockIndex) : Prop :=
  ∀ pblock, ∃ nBits, getNextWorkRequired pindexLast pblock params = some nBits ∧
    ValidNBits params nBits ∧
    ∃ hash, hash ≠ params.hashGenesisBlock ∧ checkProofOfWork hash nBits params = true

namespace ExtendableLemmas

theorem checkProofOfWork_zero {params : Params} {nBits : BitVec 32} (h : ValidNBits params nBits) :
    checkProofOfWork (uint256S 0) nBits params = true := by
  have hlimit : ¬ (setCompact nBits).target > uintToArith256 params.powLimit :=
    Nat.not_lt.mpr (show (setCompact nBits).target.toNat ≤ _ from h.inLimit)
  have hzero : ¬ uintToArith256 (uint256S 0) > (setCompact nBits).target := Nat.not_lt_zero _
  unfold checkProofOfWork
  split
  · rfl
  · dsimp only
    rw [if_neg, if_neg hzero]
    rintro (hneg | hz | hover | hgt)
    · exact absurd (hneg.symm.trans h.notNegative) (by decide)
    · exact h.nonzero hz
    · exact absurd (hover.symm.trans h.notOverflow) (by decide)
    · exact hlimit hgt

variable {pindexLast : CBlockIndex}

/-- Every height of mainnet is inside a period or a retarget height whose first
block exists. -/
theorem main_step :
    InPeriod mainConsensus pindexLast ∨
    ∃ pindexFirst span, AtRetarget mainConsensus pindexLast pindexFirst span := by
  obtain ⟨interval, hpos, hle, hinterval⟩ : ∃ interval : Int, 0 < interval ∧
      (interval = 144 ∨ interval = 2016) ∧
      bbGetRetargetInterval (pindexLast.nHeight + 1) mainConsensus = some interval := by
    refine ⟨_, ?_, ?_, mainInterval _⟩ <;> split <;> simp
  have hmod :
      cMod (pindexLast.nHeight + 1) interval = some ((pindexLast.nHeight + 1) % interval) := by
    rw [cMod, if_neg hpos.ne', Int.tmod_eq_emod_of_nonneg (by omega)]
  by_cases hr : ((pindexLast.nHeight : Int) + 1) % interval = 0
  · rw [hr] at hmod
    have hfirst : ¬ ((pindexLast.nHeight : Int) - (interval - 1) > pindexLast.nHeight ∨
        (pindexLast.nHeight : Int) - (interval - 1) < 0) := by
      rcases hle with rfl | rfl <;> omega
    exact .inr ⟨_, _, ⟨interval, hinterval, hmod, if_neg hfirst⟩, bbGetTargetTimespan_eq hinterval⟩
  · exact .inl ⟨interval, _, hinterval, hmod, hr⟩

/-- The `nBits` of a mainnet retarget are valid if and only if the quotient is
not zero. -/
theorem validNBits_compactForm_iff {n : Nat} :
    ValidNBits mainConsensus (compactForm (min mainConsensus.limit n)) ↔ n ≠ 0 := by
  have htarget := target_compactForm (min_limit_lt mainConsensus n)
  have hlimit : mainConsensus.limit ≠ 0 := by decide
  constructor
  · rintro ⟨_, _, hnonzero, _⟩ rfl
    exact hnonzero (BitVec.eq_of_toNat_eq htarget)
  · intro hn
    refine ⟨?_, ?_, fun hz => ?_, ?_⟩
    · rw [compactForm, setCompact_getCompact]
    · rw [compactForm, setCompact_getCompact]
    · rw [hz] at htarget
      have := (round_eq_zero_iff compactSchedule).mp htarget.symm
      omega
    · change (setCompact _).target.toNat ≤ mainConsensus.limit
      rw [htarget]
      exact (round_le _ _).trans (Nat.min_le_left _ _)

theorem extendable_of_valid {nBits : BitVec 32}
    (hwork : ∀ pblock, getNextWorkRequired pindexLast pblock mainConsensus = some nBits)
    (hvalid : ValidNBits mainConsensus nBits) : Extendable mainConsensus pindexLast :=
  fun pblock => ⟨nBits, hwork pblock, hvalid, uint256S 0, by decide, checkProofOfWork_zero hvalid⟩

theorem extendable_atRetarget_iff {pindexFirst : CBlockIndex} {span : Nat}
    (hat : AtRetarget mainConsensus pindexLast pindexFirst span) :
    Extendable mainConsensus pindexLast ↔
      span ≤ pindexLast.target * retargetTimespan pindexLast pindexFirst span % 2 ^ 256 := by
  obtain ⟨_, hcast, hpos, hspan⟩ := mainSpan_nat hat
  obtain rfl := Int.ofNat.inj hcast
  have hwork (pblock : CBlockHeader) := (getNextWorkRequired_atRetarget pblock hat).trans
    (calculateNextWorkRequired_eq rfl hat hpos hspan)
  rw [← Nat.one_le_div_iff hpos, Nat.one_le_iff_ne_zero, ← validNBits_compactForm_iff]
  constructor
  · intro h
    obtain ⟨nBits, hsome, hvalid, _⟩ := h {}
    rw [hwork, Option.some.injEq] at hsome
    rw [hsome]
    exact hvalid
  · exact extendable_of_valid hwork

end ExtendableLemmas

open ExtendableLemmas

/-- A mainnet chain could be extended at every block if and only if at each of
its retargets the low 256 bits of target times timespan are at least the target
timespan. -/
theorem mainChain_extendable_iff {tip : CBlockIndex} (hchain : MainChain tip) :
    (∀ {pindexLast : CBlockIndex}, pindexLast.Below tip → Extendable mainConsensus pindexLast) ↔
    (∀ {pindexLast pindexFirst : CBlockIndex} {span : Nat}, pindexLast.Below tip →
      AtRetarget mainConsensus pindexLast pindexFirst span →
      span ≤ pindexLast.target * retargetTimespan pindexLast pindexFirst span % 2 ^ 256) := by
  constructor
  · intro h pindexLast pindexFirst span hb hat
    exact (extendable_atRetarget_iff hat).mp (h hb)
  · intro h pindexLast hb
    rcases main_step with hperiod | ⟨pindexFirst, span, hat⟩
    · refine extendable_of_valid (fun pblock => getNextWorkRequired_inPeriod pblock rfl hperiod) ?_
      -- inside a period the `nBits` go back to the genesis block or to a retarget
      refine FollowsWork.nBits_induction (ValidNBits mainConsensus) rfl ⟨by decide, by decide,
          by decide, by decide⟩ ?_
        (hchain.of_below hb)
      intro last first span nBits hlast hat _ hcalc
      obtain ⟨span, rfl, _, _⟩ := mainSpan_nat hat
      obtain ⟨_, hsome, hvalid, _⟩ :=
        (extendable_atRetarget_iff hat).mpr (h (hlast.trans hb) hat) {}
      rw [getNextWorkRequired_atRetarget _ hat, hcalc, Option.some.injEq] at hsome
      rw [hsome]
      exact hvalid
    · obtain ⟨span, rfl, _, _⟩ := mainSpan_nat hat
      exact (extendable_atRetarget_iff hat).mpr (h hb hat)

namespace ExtendableLemmas

/-- From the genesis target `0xffff * 2 ^ 224` no timespan wraps to zero. -/
theorem genesis_product {c span : Nat} (hpos : 0 < c) (hc : c < 2 ^ 32) (hspan : span < 2 ^ 32) :
    span ≤ 0xffff * 2 ^ 224 * c % 2 ^ 256 := by
  omega

end ExtendableLemmas

/-- A chain on schedule can be extended over its first retarget. -/
theorem mainChain_extendable_steady :
    MainChain (mainGenesis.extend (steadyTime 600) 143) ∧
    Extendable mainConsensus (mainGenesis.extend (steadyTime 600) 143) := by
  have hchain : MainChain (mainGenesis.extend (steadyTime 600) 143) :=
    followsWork_extend_fast _ .genesis (by decide) (by decide)
  refine ⟨hchain, (mainChain_extendable_iff hchain).mpr ?_ .refl⟩
  intro pindexLast pindexFirst span hb hat
  have hmain := mainSpan hat
  have hlo := le_retargetTimespan pindexLast pindexFirst span
  have hhi := retargetTimespan_le pindexLast pindexFirst span
  have htarget : pindexLast.target = 0xffff * 2 ^ 224 := by
    rw [CBlockIndex.target, nBits_of_below_extend _ hb]
    decide
  rw [htarget]
  exact genesis_product (by omega) (by omega) (by omega)

/-- The times of the stuck chain: the first period takes half a day, the second
takes `2 ^ 17` seconds. -/
def stuckTime (height : Nat) : BitVec 32 :=
  mainParams.genesis.nTime + (if height < 287 then 43201#32 else 174273#32)

/-- The first block of the second period of the stuck chain. -/
def stuckFirst : CBlockIndex :=
  .next (mainGenesis.extend stuckTime 143) { nTime := stuckTime 144, nBits := 0x1f008000#32 }

/-- A chain whose second retarget multiplies the target `2 ^ 239` by `2 ^ 17`. The
product wraps to zero, and only the genesis hash would pass the next block. -/
theorem stuck_after_second_retarget :
    MainChain (stuckFirst.extend stuckTime 143) ∧
    (∀ pblock, getNextWorkRequired (stuckFirst.extend stuckTime 143) pblock mainConsensus =
    some 0#32) ∧ (setCompact 0#32).target = 0 ∧
    ∀ hash, hash ≠ mainConsensus.hashGenesisBlock →
    checkProofOfWork hash 0#32 mainConsensus = false := by
  have hheight : stuckFirst.nHeight = 144 := by
    rfl
  have hfirst := atRetarget_extend (p := mainGenesis) stuckTime (by decide) (by decide)
  have hsecond :=
    atRetarget_extend (p := stuckFirst) stuckTime (by simp [hheight]) (by simp [hheight])
  refine ⟨followsWork_extend_fast _ ?_ (by simp [hheight]) (by simp [hheight]), fun pblock => ?_,
    by decide, ?_⟩
  · refine .next _
      (followsWork_extend_fast _ .genesis (by decide) (by decide)) ?_
    rw [getNextWorkRequired_atRetarget _ hfirst,
      calculateNextWorkRequired_eq rfl hfirst (by decide) (by decide)]
    decide
  · rw [getNextWorkRequired_atRetarget _ hsecond,
      calculateNextWorkRequired_eq rfl hsecond (by decide) (by decide)]
    have htarget : (stuckFirst.extend stuckTime 143).target = 2 ^ 239 := by decide
    have htime : retargetTimespan (stuckFirst.extend stuckTime 143) stuckFirst 86400 = 2 ^ 17 := by
      rw [retargetTimespan, CBlockIndex.extend, hheight]
      decide
    rw [htarget, htime]
    decide
  · intro hash hne
    rw [checkProofOfWork, if_neg hne]
    exact if_pos (by decide)

end Bitcoboost
