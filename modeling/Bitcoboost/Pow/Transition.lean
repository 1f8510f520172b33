import Bitcoboost.Pow.Retarget

/-!
# Header pre-sync against the difficulty rule

`PermittedDifficultyTransition` recomputes the easiest and the hardest target a retarget can
reach, without the timestamps of the period. Both bounds go through the same 256-bit product as
the retarget itself, with timespans of their own, and may wrap where it does not.
-/

namespace Bitcoboost

open ArithUint256 RoundDown ChainLemmas RetargetLemmas Option

/-- If a retarget comes after `pindexLast`, the largest product of its bounds
fits in 256 bits and the timespans in 32. -/
def RetargetFits (params : Params) (pindexLast : CBlockIndex) : Prop :=
  ∀ pindexFirst span, AtRetarget params pindexLast pindexFirst span →
    0 < span ∧ 4 * span < 2 ^ 32 ∧ pindexLast.target * (4 * span) < 2 ^ 256

/-- The target that a timespan leads to, with the product taken modulo `2 ^ 256`. -/
def wrappedTarget (params : Params) (target timespan span : Nat) : Nat :=
  compactSchedule.round (min params.limit (target * timespan % 2 ^ 256 / span))

namespace TransitionLemmas

variable {params : Params} {pindexLast : CBlockIndex} {nBits : BitVec 32} {span c : Nat}

theorem wrappedTarget_mono {target d : Nat} (hcd : c ≤ d) (hfits : target * d < 2 ^ 256) :
    wrappedTarget params target c span ≤ wrappedTarget params target d span := by
  have hle : target * c ≤ target * d := Nat.mul_le_mul_left _ hcd
  unfold wrappedTarget
  rw [Nat.mod_eq_of_lt hfits, Nat.mod_eq_of_lt (hle.trans_lt hfits)]
  exact round_mono _ (Nat.le_min.mpr ⟨Nat.min_le_left _ _,
    (Nat.min_le_right _ _).trans (Nat.div_le_div_right hle)⟩)

theorem scaleTarget_wrapped (params : Params) (nBits : BitVec 32) (hc : c < 2 ^ 32)
    (hpos : 0 < span) (hspan : span < 2 ^ 64) :
    ∃ bn, scaleTarget (setCompact nBits).target c span (uintToArith256 params.powLimit) = some bn ∧
      (setCompact (bn.getCompact false)).target.toNat =
        wrappedTarget params (setCompact nBits).target.toNat c span :=
  ⟨_, scaleTarget_eq _ _ hc hpos hspan, target_compactForm (min_limit_lt _ _)⟩

theorem permitted_boundary {height interval : Int} {old new : BitVec 32}
    (hmin : params.fPowAllowMinDifficultyBlocks = false)
    (hinterval : bbGetRetargetInterval height params = some interval)
    (htimespan : bbGetTargetTimespan height params = some (span : Int))
    (hmod : cMod height interval = some 0) (hpos : 0 < span) (hspan : 4 * span < 2 ^ 32) :
    permittedDifficultyTransition params height old new = some (decide
      (wrappedTarget params (setCompact old).target.toNat (span / 4) span ≤
        (setCompact new).target.toNat ∧
       (setCompact new).target.toNat ≤ wrappedTarget params (setCompact old).target.toNat
         (4 * span) span)) := by
  obtain ⟨largest, hlargest, hmax⟩ := scaleTarget_wrapped params old hspan hpos (by omega)
  obtain ⟨smallest, hsmallest, hmin'⟩ :=
    scaleTarget_wrapped params old (show span / 4 < 2 ^ 32 by omega) hpos (by omega)
  rw [show ((4 * span : Nat) : Int) = span * 4 by omega] at hlargest
  rw [show ((span / 4 : Nat) : Int) = (span : Int).tdiv 4 from rfl] at hsmallest
  simp only [permittedDifficultyTransition, hmin, hinterval, htimespan, hmod, bind_eq_bind,
    bind_some, hlargest, hsmallest, BitVec.lt_def, gt_iff_lt, hmax, hmin', pure_def, if_true,
    Bool.false_eq_true, if_false]
  split
  · next h => simp [Nat.not_le.mpr h]
  · next h =>
    split
    · next h' => simp [Nat.not_le.mpr h']
    · next h' => simp [Nat.le_of_not_lt h, Nat.le_of_not_lt h']

theorem permitted_inPeriod (hmin : params.fPowAllowMinDifficultyBlocks = false)
    (h : InPeriod params pindexLast) :
    permittedDifficultyTransition params (pindexLast.nHeight + 1) pindexLast.nBits
    pindexLast.nBits =
      some true := by
  obtain ⟨interval, r, hinterval, hmod, hr⟩ := h
  simp [permittedDifficultyTransition, hmin, hinterval, hmod, hr, bbGetTargetTimespan_eq hinterval]

theorem calculateNextWorkRequired_noRetargeting {time : Int}
    (hret : params.fPowNoRetargeting = true)
    (h : calculateNextWorkRequired pindexLast time params = some nBits) :
    nBits = pindexLast.nBits := by
  have heq : pindexLast.nBits = nBits := by simpa [calculateNextWorkRequired, hret] using h
  exact heq.symm

/-- A retarget that fits stays inside the bounds, also when `fPowNoRetargeting`
keeps the old value. -/
theorem permitted_atRetarget {pindexFirst : CBlockIndex} {span : Int}
    (hmin : params.fPowAllowMinDifficultyBlocks = false)
    (hlimit : params.fPowNoRetargeting = true → pindexLast.target ≤ params.limit)
    (hat : AtRetarget params pindexLast pindexFirst span) (hfits : RetargetFits params pindexLast)
    (hcalc : calculateNextWorkRequired pindexLast pindexFirst.getBlockTime params = some nBits) :
    permittedDifficultyTransition params (pindexLast.nHeight + 1) pindexLast.nBits nBits =
      some true := by
  obtain ⟨hpos, hspan, hproduct⟩ := hfits _ _ hat
  lift span to Nat using hpos.le
  obtain ⟨interval, hinterval, hmod, _⟩ := hat.period
  norm_cast at hpos hspan hproduct
  rw [permitted_boundary hmin hinterval hat.timespan hmod hpos hspan, Option.some.injEq,
    decide_eq_true_eq]
  have hbounds : ∀ c, span / 4 ≤ c → c ≤ 4 * span →
      wrappedTarget params pindexLast.target (span / 4) span ≤
      wrappedTarget params pindexLast.target c span ∧
      wrappedTarget params pindexLast.target c span ≤
        wrappedTarget params pindexLast.target (4 * span) span :=
    fun c hlo hhi => ⟨wrappedTarget_mono hlo ((Nat.mul_le_mul_left _ hhi).trans_lt hproduct),
      wrappedTarget_mono hhi hproduct⟩
  cases hret : params.fPowNoRetargeting with
  | false =>
    have htarget := target_calculateNextWorkRequired hret hat hpos hspan hcalc
    rw [htarget]
    exact hbounds _ (le_retargetTimespan _ _ _) (retargetTimespan_le _ _ _)
  | true =>
    -- the old target is what the timespan `span` leads to
    have hself : wrappedTarget params pindexLast.target span span = pindexLast.target := by
      have hle : pindexLast.target * span ≤ pindexLast.target * (4 * span) :=
        Nat.mul_le_mul_left _ (by omega)
      rw [wrappedTarget, Nat.mod_eq_of_lt (hle.trans_lt hproduct), Nat.mul_div_cancel _ hpos,
        Nat.min_eq_right (hlimit hret)]
      exact round_target _
    have hspanBounds := hbounds span (by omega) (by omega)
    rw [hself] at hspanBounds
    rw [calculateNextWorkRequired_noRetargeting hret hcalc]
    exact hspanBounds

end TransitionLemmas

open TransitionLemmas

/-- Pre-sync accepts every block of a chain that follows `GetNextWorkRequired`,
if at each retarget of the chain the largest product fits in 256 bits. A network
that never retargets also needs a genesis target within its limit. -/
theorem permittedDifficultyTransition_followsWork {params : Params} {genesis : CBlockHeader}
    {tip : CBlockIndex} (hmin : params.fPowAllowMinDifficultyBlocks = false)
    (hgenesis : params.fPowNoRetargeting = true → (setCompact genesis.nBits).target.toNat ≤
    params.limit) (hchain : FollowsWork params genesis tip)
    (hfits : ∀ {pindexLast header}, (CBlockIndex.next pindexLast header).Below tip →
      RetargetFits params pindexLast) :
    ∀ {pindexLast header}, (CBlockIndex.next pindexLast header).Below tip →
      permittedDifficultyTransition params (pindexLast.nHeight + 1) pindexLast.nBits header.nBits =
        some true := by
  intro pindexLast header hb
  cases hchain.of_below hb with
  | next _ hlast hwork =>
    rcases getNextWorkRequired_cases hmin hwork with ⟨hperiod, heq⟩ | ⟨pindexFirst,
      span, hat, hcalc⟩
    · rw [heq]
      exact permitted_inPeriod hmin hperiod
    · refine permitted_atRetarget hmin (fun hret => ?_) hat (hfits hb) hcalc
      refine FollowsWork.nBits_induction (fun n => (setCompact n).target.toNat ≤ params.limit)
        hmin (hgenesis hret) ?_ hlast
      intro pindexLast pindexFirst span nBits _ _ hinv hcalc
      rw [calculateNextWorkRequired_noRetargeting hret hcalc]
      exact hinv

/-! ## Mainnet -/

namespace TransitionLemmas

theorem retargetFits_main {pindexLast : CBlockIndex}
    (h : pindexLast.target * (4 * 1209600) < 2 ^ 256) : RetargetFits mainConsensus pindexLast := by
  intro pindexFirst span hat
  rcases mainSpan hat with rfl | rfl
  · exact ⟨by decide, by decide, by omega⟩
  · exact ⟨by decide, by decide, by omega⟩

end TransitionLemmas

/-- A genesis header with `nBits` `0x1d00ffff`, far below the limit. -/
def hardGenesis : CBlockHeader := { mainParams.genesis with nBits := 0x1d00ffff#32 }

/-- From the genesis block `hardGenesis` the first retarget of a chain on
schedule passes. -/
theorem permittedDifficultyTransition_followsWork_steady :
    let last := (CBlockIndex.genesis hardGenesis).extend (steadyTime 600) 143
    FollowsWork mainConsensus hardGenesis
      (.next last { nTime := steadyTime 600 144, nBits := 0x1d00fe37#32 }) ∧
    permittedDifficultyTransition mainConsensus (last.nHeight + 1) last.nBits 0x1d00fe37#32 =
      some true := by
  have hat := atRetarget_extend (p := .genesis hardGenesis) (steadyTime 600) (by decide) (by decide)
  have hchain : FollowsWork mainConsensus hardGenesis
      (.next (CBlockIndex.extend (.genesis hardGenesis) (steadyTime 600) 143)
        { nTime := steadyTime 600 144, nBits := 0x1d00fe37#32 }) := by
    refine .next _ (followsWork_extend_fast _ .genesis (by decide) (by decide)) ?_
    rw [getNextWorkRequired_atRetarget _ hat,
      calculateNextWorkRequired_eq rfl hat (by decide) (by decide)]
    decide
  have hpass :=
    permittedDifficultyTransition_followsWork rfl (by decide) hchain
      (fun {pindexLast header} hb => ?_) .refl
  · exact ⟨hchain, hpass⟩
  have hbits : pindexLast.nBits = 0x1d00ffff#32 := by
    cases hb with
    | refl =>
      rfl
    | next hb =>
      rw [nBits_of_below_extend _ (.trans (.next .refl) hb)]
      rfl
  apply retargetFits_main
  rw [CBlockIndex.target, hbits]
  decide

/-- On mainnet the two bounds cross at the first retarget: the easiest target
wraps below the hardest one. Pre-sync refuses every header at height 144 that
comes after the genesis difficulty. -/
theorem permitted_first_retarget (newNbits : BitVec 32) :
    permittedDifficultyTransition mainConsensus 144 mainParams.genesis.nBits newNbits =
      some false := by
  have hcross :
      wrappedTarget mainConsensus (setCompact mainParams.genesis.nBits).target.toNat
      (4 * 86400) 86400 <
      wrappedTarget mainConsensus (setCompact mainParams.genesis.nBits).target.toNat
        (86400 / 4) 86400 := by
    decide
  have htimespan : bbGetTargetTimespan 144 mainConsensus = some (86400 : Nat) :=
    bbGetTargetTimespan_eq (mainInterval 144)
  rw [permitted_boundary rfl (mainInterval 144) htimespan (by decide) (by decide) (by decide),
    Option.some.injEq, decide_eq_false_iff_not]
  omega

/-- A mainnet chain on schedule, up to its first retarget. -/
theorem permitted_refuses_on_schedule :
    MainChain (.next (mainGenesis.extend (steadyTime 600) 143)
      { nTime := steadyTime 600 144, nBits := 0x1e3c09a0#32 }) ∧
    (mainGenesis.extend (steadyTime 600) 143).nHeight + 1 = 144 ∧
    permittedDifficultyTransition mainConsensus 144 (mainGenesis.extend (steadyTime 600) 143).nBits
      0x1e3c09a0#32 = some false := by
  have hat := atRetarget_extend (p := mainGenesis) (steadyTime 600) (by decide) (by decide)
  refine ⟨.next _ (followsWork_extend_fast _ .genesis (by decide) (by decide)) ?_,
    by rw [nHeight_extend]; rfl, ?_⟩
  · rw [getNextWorkRequired_atRetarget _ hat,
      calculateNextWorkRequired_eq rfl hat (by decide) (by decide)]
    decide
  · rw [nBits_extend]
    exact permitted_first_retarget _

end Bitcoboost
