import Bitcoboost.Pow.Chain

/-!
# The retarget step

`CalculateNextWorkRequired` should scale the target of the last block by the time the period
took. The mainnet limit of `2 ^ 240 - 1` leaves the 256-bit product sixteen bits, and a timespan
needs up to twenty-three, so the product wraps at the easy end of the range.
-/

namespace Bitcoboost

open ArithUint256 RoundDown BitVec

/-! ## The value over the integers -/

/-- The target that the `nBits` of a block encode. -/
def CBlockIndex.target (pindex : CBlockIndex) : Nat := (setCompact pindex.nBits).target.toNat

/-- The easiest target of a network. -/
def Params.limit (params : Params) : Nat := (uintToArith256 params.powLimit).toNat

/-- The compact form of a number below `2 ^ 256`. -/
def compactForm (n : Nat) : BitVec 32 := getCompact (BitVec.ofNat 256 n) false

/-- `clamp(actual, span / 4, 4 * span)` for the time between the two blocks. -/
def retargetTimespan (pindexLast pindexFirst : CBlockIndex) (span : Nat) : Nat :=
  (max (span / 4) (min (span * 4) (pindexLast.getBlockTime - pindexFirst.getBlockTime)) : Int).toNat

def exactTarget (params : Params) (target timespan span : Nat) : Nat :=
  min params.limit (target * timespan / span)

namespace RetargetLemmas

variable (pindexLast pindexFirst : CBlockIndex)

theorem limitTimespan_eq (span : Nat) :
    limitTimespan span (pindexLast.getBlockTime - pindexFirst.getBlockTime) =
      (retargetTimespan pindexLast pindexFirst span : Nat) := by
  have hdiv : (span : Int).tdiv 4 = (span : Int) / 4 := rfl
  unfold limitTimespan retargetTimespan
  dsimp only
  split <;> split <;> omega

theorem retargetTimespan_le (span : Nat) :
    retargetTimespan pindexLast pindexFirst span ≤ 4 * span := by
  unfold retargetTimespan
  omega

theorem le_retargetTimespan (span : Nat) :
    span / 4 ≤ retargetTimespan pindexLast pindexFirst span := by
  unfold retargetTimespan
  omega

theorem toNat_ofNat_min (P : ArithUint256) (n : Nat) :
    (BitVec.ofNat 256 (min P.toNat n)).toNat = min P.toNat n := by
  rw [toNat_ofNat, Nat.mod_eq_of_lt]
  exact (Nat.min_le_left _ _).trans_lt P.isLt

theorem min_limit_lt (params : Params) (n : Nat) : min params.limit n < 2 ^ 256 :=
  (Nat.min_le_left _ _).trans_lt (uintToArith256 params.powLimit).isLt

theorem target_compactForm {n : Nat} (h : n < 2 ^ 256) :
    (setCompact (compactForm n)).target.toNat = compactSchedule.round n := by
  rw [compactForm, target_getCompact, toNat_ofNat, Nat.mod_eq_of_lt h]

theorem round_eq_of_compactForm_eq {a b : Nat} (ha : a < 2 ^ 256) (hb : b < 2 ^ 256)
    (h : compactForm a = compactForm b) : compactSchedule.round a = compactSchedule.round b := by
  rw [← target_compactForm ha, h, target_compactForm hb]

theorem scaleTarget_eq (bn P : ArithUint256) {c span : Nat} (hc : c < 2 ^ 32) (hpos : 0 < span)
    (hspan : span < 2 ^ 64) :
    scaleTarget bn c span P =
      some (BitVec.ofNat 256 (min P.toNat (bn.toNat * c % 2 ^ 256 / span))) := by
  have hd : ((BitVec.ofInt 64 span).setWidth 256).toNat = span := by
    rw [toNat_setWidth, ofInt_natCast, toNat_ofNat, Nat.mod_eq_of_lt hspan,
      Nat.mod_eq_of_lt (hspan.trans (by decide))]
  have hne : (BitVec.ofInt 64 span).setWidth 256 ≠ 0#256 := by
    intro h
    rw [h] at hd
    exact absurd hd (by simp; omega)
  have hquot : (mulAssign bn (BitVec.ofInt 32 c) / (BitVec.ofInt 64 span).setWidth 256).toNat =
      bn.toNat * c % 2 ^ 256 / span := by
    rw [toNat_udiv, mulAssign_toNat, hd, ofInt_natCast, toNat_ofNat, Nat.mod_eq_of_lt hc]
  simp only [scaleTarget, divAssign_of_ne_zero hne, Option.bind_eq_bind, Option.bind_some,
    Option.some.injEq]
  apply eq_of_toNat_eq
  rw [toNat_ofNat_min]
  split
  · next h =>
    have h' : P.toNat < _ := h
    omega
  · next h =>
    have h' : ¬ P.toNat < _ := h
    omega

end RetargetLemmas

open ChainLemmas RetargetLemmas

variable {pindexLast pindexFirst : CBlockIndex} {params : Params}

/-- The value of `CalculateNextWorkRequired`: the product of the target and the
timespan is taken modulo `2 ^ 256`. -/
theorem calculateNextWorkRequired_eq {span : Nat} (hret : params.fPowNoRetargeting = false)
    (hat : AtRetarget params pindexLast pindexFirst span) (hpos : 0 < span)
    (hspan : 4 * span < 2 ^ 32) :
    calculateNextWorkRequired pindexLast pindexFirst.getBlockTime params =
      some (compactForm (min params.limit (pindexLast.target *
        retargetTimespan pindexLast pindexFirst span % 2 ^ 256 / span))) := by
  have hc := (retargetTimespan_le pindexLast pindexFirst span).trans_lt hspan
  simp [calculateNextWorkRequired, hret, hat.timespan, limitTimespan_eq,
    scaleTarget_eq _ _ hc hpos (by omega : span < 2 ^ 64), compactForm, Params.limit,
    CBlockIndex.target]

theorem target_calculateNextWorkRequired {span : Nat} {nBits : BitVec 32}
    (hret : params.fPowNoRetargeting = false) (hat : AtRetarget params pindexLast pindexFirst span)
    (hpos : 0 < span) (hspan : 4 * span < 2 ^ 32)
    (h : calculateNextWorkRequired pindexLast pindexFirst.getBlockTime params = some nBits) :
    (setCompact nBits).target.toNat = compactSchedule.round (min params.limit (pindexLast.target *
      retargetTimespan pindexLast pindexFirst span % 2 ^ 256 / span)) := by
  rw [calculateNextWorkRequired_eq hret hat hpos hspan, Option.some.injEq] at h
  rw [← h, target_compactForm (min_limit_lt _ _)]

/-! ## Mainnet -/

/-- A chain of mainnet blocks whose `nBits` are the required ones. -/
abbrev MainChain (tip : CBlockIndex) : Prop := FollowsWork mainConsensus mainParams.genesis tip

namespace RetargetLemmas

theorem mainInterval (height : Int) :
    bbGetRetargetInterval height mainConsensus = some (if height < 2016 then 144 else 2016) := by
  unfold bbGetRetargetInterval
  by_cases h : height < 2016
  · rw [if_pos ⟨by decide, by decide, h⟩, if_pos h]
    rfl
  · rw [if_neg (fun hand => h hand.2.2), if_neg h]
    rfl

theorem mainSpan {span : Int} (hat : AtRetarget mainConsensus pindexLast pindexFirst span) :
    span = 86400 ∨ span = 1209600 := by
  have hspan := hat.timespan
  rw [bbGetTargetTimespan_eq (mainInterval _), Option.some.injEq] at hspan
  rw [← hspan]
  split
  · exact .inl rfl
  · exact .inr rfl

theorem mainSpan_nat {span : Int} (hat : AtRetarget mainConsensus pindexLast pindexFirst span) :
    ∃ n : Nat, span = n ∧ 0 < n ∧ 4 * n < 2 ^ 32 := by
  rcases mainSpan hat with h | h
  · exact ⟨86400, h, by decide, by decide⟩
  · exact ⟨1209600, h, by decide, by decide⟩

theorem target_le_limit {tip : CBlockIndex} (h : MainChain tip) :
    tip.target ≤ mainConsensus.limit := by
  refine FollowsWork.nBits_induction (fun nBits =>
      (setCompact nBits).target.toNat ≤ mainConsensus.limit)
    rfl (by decide) ?_ h
  intro pindexLast pindexFirst span nBits _ hat _ hcalc
  obtain ⟨n, rfl, hpos, hspan⟩ := mainSpan_nat hat
  rw [target_calculateNextWorkRequired rfl hat hpos hspan hcalc]
  exact (round_le _ _).trans (Nat.min_le_left _ _)

/-- A wrapped product is far below the limit and below the integer value: the
two differ in the leading bits, which the compact form keeps. -/
theorem wrapped_far {x span : Nat} (hspan : span = 86400 ∨ span = 1209600) (hx : 2 ^ 256 ≤ x) :
    min (2 ^ 240 - 1) (x % 2 ^ 256 / span) + 2 ^ 224 ≤ min (2 ^ 240 - 1) (x / span) := by
  rcases hspan with rfl | rfl <;> omega

theorem bitLen_min_le (n : Nat) : bitLen (min (2 ^ 240 - 1) n) ≤ 240 :=
  bitLen_le_iff.mpr (by omega)

theorem quarter_le {T c span : Nat} (hdvd : 4 ∣ span) (hpos : 0 < span) (hc : span / 4 ≤ c) :
    T / 4 ≤ T * c / span := by
  obtain ⟨k, rfl⟩ := hdvd
  rw [Nat.mul_div_cancel_left _ (by decide)] at hc
  calc T / 4 = T * k / (4 * k) := (Nat.mul_div_mul_right _ _ (by omega)).symm
    _ ≤ T * c / (4 * k) := Nat.div_le_div_right (Nat.mul_le_mul_left _ hc)

end RetargetLemmas

/-- A mainnet retarget is exact, and raises the difficulty by a factor of at
most four, if and only if the target of the last block times the clamped
timespan is below `2 ^ 256`. -/
theorem retarget_exact_iff {pindexLast pindexFirst : CBlockIndex} {span : Nat}
    (hchain : MainChain pindexLast) (hat : AtRetarget mainConsensus pindexLast pindexFirst span) :
    (∃ nBits, calculateNextWorkRequired pindexLast pindexFirst.getBlockTime mainConsensus =
      some nBits ∧ nBits = compactForm (exactTarget mainConsensus pindexLast.target
        (retargetTimespan pindexLast pindexFirst span) span) ∧
      compactSchedule.round (pindexLast.target / 4) ≤ (setCompact nBits).target.toNat) ↔
    pindexLast.target * retargetTimespan pindexLast pindexFirst span < 2 ^ 256 := by
  obtain ⟨_, hcast, hpos, hspan⟩ := mainSpan_nat hat
  obtain rfl := Int.ofNat.inj hcast
  have hmain : span = 86400 ∨ span = 1209600 := by
    have := mainSpan hat
    omega
  have hcalc := calculateNextWorkRequired_eq rfl hat hpos hspan
  constructor
  · rintro ⟨nBits, hsome, hexact, _⟩
    by_contra hwrap
    rw [hcalc, Option.some.injEq] at hsome
    -- equal compact forms would make the two targets close
    have hround := round_eq_of_compactForm_eq (min_limit_lt _ _) (min_limit_lt _ _)
      (hexact.symm.trans hsome.symm)
    have hclose := close_of_round_eq compactSchedule (bitLen_min_le _) hround
    exact absurd (wrapped_far hmain (Nat.le_of_not_lt hwrap)) (Nat.not_le.mpr hclose)
  · intro hfits
    rw [Nat.mod_eq_of_lt hfits] at hcalc
    refine ⟨_, hcalc, rfl, ?_⟩
    rw [target_compactForm (min_limit_lt _ _)]
    refine round_mono _ (Nat.le_min.mpr ⟨?_, ?_⟩)
    · exact (Nat.div_le_self _ _).trans (target_le_limit hchain)
    · refine quarter_le ?_ hpos (le_retargetTimespan _ _ _)
      rcases hmain with rfl | rfl <;> decide

/-! ## Mainnet chains with given times -/

def mainGenesis : CBlockIndex := .genesis mainParams.genesis

/-- The time of the block at `height` when a block comes every `spacing` seconds. -/
def steadyTime (spacing height : Nat) : BitVec 32 :=
  mainParams.genesis.nTime + BitVec.ofNat 32 (spacing * height)

namespace RetargetLemmas

/-- The 144 blocks from a retarget height on, while retargets are fast. -/
theorem followsWork_extend_fast {genesis : CBlockHeader} {p : CBlockIndex} (time : Nat → BitVec 32)
    (hp : FollowsWork mainConsensus genesis p) (hdvd : 144 ∣ p.nHeight)
    (hfast : p.nHeight + 144 < 2016) : FollowsWork mainConsensus genesis (p.extend time 143) := by
  refine followsWork_extend p time rfl hp fun k hk => ?_
  refine ⟨144, _, ?_, rfl, ?_⟩
  · rw [mainInterval, if_pos]
    rw [nHeight_extend]
    omega
  · rw [nHeight_extend, Int.tmod_eq_emod_of_nonneg (by omega)]
    omega

theorem atRetarget_extend {p : CBlockIndex} (time : Nat → BitVec 32) (hdvd : 144 ∣ p.nHeight)
    (hfast : p.nHeight + 144 < 2016) :
    AtRetarget mainConsensus (p.extend time 143) p (86400 : Nat) := by
  have hinterval :
      bbGetRetargetInterval ((p.extend time 143).nHeight + 1) mainConsensus = some 144 := by
    rw [mainInterval, if_pos]
    rw [nHeight_extend]
    omega
  refine ⟨⟨144, hinterval, ?_, ?_⟩, bbGetTargetTimespan_eq hinterval⟩
  · rw [cMod, if_neg (by decide), nHeight_extend, Int.tmod_eq_emod_of_nonneg (by omega)]
    exact congrArg some (by omega)
  · have hheight : ((p.extend time 143).nHeight : Int) - (144 - 1) = p.nHeight := by
      rw [nHeight_extend]
      omega
    rw [hheight, getAncestor_extend]

end RetargetLemmas

/-- The first retarget of a chain whose blocks come every 300 seconds. -/
theorem retarget_exact_iff_steady :
    MainChain (mainGenesis.extend (steadyTime 300) 143) ∧
    ∃ nBits, calculateNextWorkRequired (mainGenesis.extend (steadyTime 300) 143)
    mainGenesis.getBlockTime
        mainConsensus = some nBits ∧
      nBits = compactForm (exactTarget mainConsensus
        (mainGenesis.extend (steadyTime 300) 143).target
        (retargetTimespan (mainGenesis.extend (steadyTime 300) 143) mainGenesis 86400) 86400) ∧
      compactSchedule.round ((mainGenesis.extend (steadyTime 300) 143).target / 4) ≤
        (setCompact nBits).target.toNat := by
  have hchain : MainChain (mainGenesis.extend (steadyTime 300) 143) :=
    followsWork_extend_fast _ .genesis (by decide) (by decide)
  exact ⟨hchain, (retarget_exact_iff hchain (atRetarget_extend _ (by decide) (by decide))).mpr
    (by decide)⟩

/-- A chain whose blocks come exactly on schedule. The first retarget should
leave the difficulty almost unchanged, and makes it more than four times harder. -/
theorem retarget_wraps_on_schedule :
    MainChain (mainGenesis.extend (steadyTime 600) 143) ∧
    AtRetarget mainConsensus (mainGenesis.extend (steadyTime 600) 143) mainGenesis (86400 : Nat) ∧
    calculateNextWorkRequired (mainGenesis.extend (steadyTime 600) 143) mainGenesis.getBlockTime
      mainConsensus = some 0x1e3c09a0#32 ∧
    compactForm (exactTarget mainConsensus (mainGenesis.extend (steadyTime 600) 143).target
      (retargetTimespan (mainGenesis.extend (steadyTime 600) 143) mainGenesis 86400) 86400) =
        0x1f00fe37#32 ∧
    (setCompact 0x1e3c09a0#32).target.toNat <
      compactSchedule.round ((mainGenesis.extend (steadyTime 600) 143).target / 4) := by
  have hat := atRetarget_extend (p := mainGenesis) (steadyTime 600) (by decide) (by decide)
  refine ⟨followsWork_extend_fast _ .genesis (by decide) (by decide), hat, ?_, by decide, by decide⟩
  rw [calculateNextWorkRequired_eq rfl hat (by decide) (by decide)]
  decide

end Bitcoboost
