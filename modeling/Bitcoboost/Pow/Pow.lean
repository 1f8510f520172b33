import Bitcoboost.Consensus.Params

/-!
# Difficulty retargeting and proof of work

The functions of `pow.cpp` over a chain of block index entries, and the work of a
chain and its locator from `chain.cpp`. `none` is a failed assertion, a division by
zero or the `uint_error` it throws: the node stops there.
-/

namespace Bitcoboost

open ArithUint256

/-- `CBlockIndex`, with `pprev` as the chain it ends and the header fields as the
header. An entry has one block more below it than its parent, so `nHeight` is
not a field. -/
inductive CBlockIndex where
  | genesis (header : CBlockHeader)
  | next (pprev : CBlockIndex) (header : CBlockHeader)
deriving DecidableEq, Repr

namespace CBlockIndex

/-- `GetBlockHeader()`. -/
def header : CBlockIndex → CBlockHeader
  | genesis header => header
  | next _ header => header

variable (pindex : CBlockIndex)

def nTime : BitVec 32 := pindex.header.nTime

def nBits : BitVec 32 := pindex.header.nBits

def nHeight : CBlockIndex → Nat
  | genesis _ => 0
  | next pprev _ => pprev.nHeight + 1

def getBlockTime : Int := pindex.nTime.toNat

/-- Follow `pprev` down to the given height. -/
def walk (height : Int) : CBlockIndex → CBlockIndex
  | genesis header => genesis header
  | next pprev header =>
    if ((next pprev header).nHeight : Int) > height then pprev.walk height
    else next pprev header

/-- `GetAncestor`. The skip pointers of the source reach the same entry in
fewer steps. -/
def getAncestor (height : Int) : Option CBlockIndex :=
  if height > pindex.nHeight ∨ height < 0 then none else some (pindex.walk height)

/-- The parent entry, if there is one. -/
def pprev : CBlockIndex → Option CBlockIndex
  | genesis _ => none
  | next pprev _ => some pprev

def getBlockHash (hashX16RV2 : Bytes → Uint256 → Uint256) (pindex : CBlockIndex) : Uint256 :=
  pindex.header.getHash hashX16RV2

/-- The times of the entry and its ancestors, `count` at most. -/
def lastTimes : Nat → CBlockIndex → List Int
  | 0, _ => []
  | _ + 1, genesis header => [header.nTime.toNat]
  | count + 1, next pprev header => header.nTime.toNat :: lastTimes count pprev

/-- `GetMedianTimePast()`, over `nMedianTimeSpan` blocks. -/
def getMedianTimePast : Int :=
  let times := (lastTimes 11 pindex).mergeSort
  times.getD (times.length / 2) 0

end CBlockIndex

def bbGetRetargetInterval (nHeight : Int) (params : Params) : Option Int :=
  if params.nFastRetargetPeriod > 0 ∧ params.nFastRetargetUntilHeight > 0 ∧
      nHeight < params.nFastRetargetUntilHeight then
    some params.nFastRetargetPeriod
  else
    params.difficultyAdjustmentInterval

/-- The product of type `int64_t` is taken over the integers. With the spacings of the networks it
fits for periods below `2 ^ 53`. -/
def bbGetTargetTimespan (nHeight : Int) (params : Params) : Option Int := do
  let interval ← bbGetRetargetInterval nHeight params
  some (interval * params.nPowTargetSpacing)

/-- The clamped `nActualTimespan` of `CalculateNextWorkRequired`. -/
def limitTimespan (nTargetTimespan nActualTimespan : Int) : Int :=
  let nActualTimespan :=
    if nActualTimespan < nTargetTimespan.tdiv 4 then nTargetTimespan.tdiv 4 else nActualTimespan
  if nActualTimespan > nTargetTimespan * 4 then nTargetTimespan * 4 else nActualTimespan

/-- Scale a target: `bn *= nTimespan; bn /= nTargetTimespan` and the cap at
`bnPowLimit`, as `CalculateNextWorkRequired` and `PermittedDifficultyTransition`
both write it. The timespan is converted to `uint32_t` by the call of `*=`, the
divisor to `uint64_t` by the conversion to `arith_uint256`. -/
def scaleTarget (bn : ArithUint256) (nTimespan nTargetTimespan : Int) (bnPowLimit : ArithUint256) :
    Option ArithUint256 := do
  let bn := mulAssign bn (BitVec.ofInt 32 nTimespan)
  let bn ← divAssign bn ((BitVec.ofInt 64 nTargetTimespan).setWidth 256)
  some (if bn > bnPowLimit then bnPowLimit else bn)

def calculateNextWorkRequired (pindexLast : CBlockIndex) (nFirstBlockTime : Int) (params : Params) :
    Option (BitVec 32) := do
  if params.fPowNoRetargeting then
    return pindexLast.nBits
  let nTargetTimespan ← bbGetTargetTimespan (pindexLast.nHeight + 1) params
  let nActualTimespan := limitTimespan nTargetTimespan (pindexLast.getBlockTime - nFirstBlockTime)
  let bnNew := (setCompact pindexLast.nBits).target
  let bnNew ← scaleTarget bnNew nActualTimespan nTargetTimespan (uintToArith256 params.powLimit)
  return bnNew.getCompact false

/-- The loop of `GetNextWorkRequired` back to the last block without the special
minimum difficulty. -/
def lastNonSpecial (nRetargetInterval : Int) (nProofOfWorkLimit : BitVec 32) :
    CBlockIndex → BitVec 32
  | .genesis header => header.nBits
  | .next pprev header =>
    if ((CBlockIndex.next pprev header).nHeight : Int).tmod nRetargetInterval ≠ 0 ∧
        header.nBits = nProofOfWorkLimit then
      lastNonSpecial nRetargetInterval nProofOfWorkLimit pprev
    else header.nBits

def getNextWorkRequired (pindexLast : CBlockIndex) (pblock : CBlockHeader) (params : Params) :
    Option (BitVec 32) := do
  let nProofOfWorkLimit := (uintToArith256 params.powLimit).getCompact false
  let nRetargetInterval ← bbGetRetargetInterval (pindexLast.nHeight + 1) params
  -- Only change once per difficulty adjustment interval
  if (← cMod (pindexLast.nHeight + 1) nRetargetInterval) ≠ 0 then
    if params.fPowAllowMinDifficultyBlocks then
      if (pblock.nTime.toNat : Int) > pindexLast.getBlockTime + params.nPowTargetSpacing * 2 then
        return nProofOfWorkLimit
      else
        return lastNonSpecial nRetargetInterval nProofOfWorkLimit pindexLast
    return pindexLast.nBits
  let nHeightFirst := pindexLast.nHeight - (nRetargetInterval - 1)
  let pindexFirst ← pindexLast.getAncestor nHeightFirst
  calculateNextWorkRequired pindexLast pindexFirst.getBlockTime params

/-- `PermittedDifficultyTransition`, for a height that an `int` holds: the source casts it to
`int` for the two helpers. -/
def permittedDifficultyTransition (params : Params) (height : Int)
    (oldNbits newNbits : BitVec 32) : Option Bool := do
  if params.fPowAllowMinDifficultyBlocks then
    return true
  let nRetargetInterval ← bbGetRetargetInterval height params
  let nTargetTimespan ← bbGetTargetTimespan height params
  if (← cMod height nRetargetInterval) = 0 then
    let smallestTimespan := nTargetTimespan.tdiv 4
    let largestTimespan := nTargetTimespan * 4
    let powLimit := uintToArith256 params.powLimit
    let observedNewTarget := (setCompact newNbits).target
    let largestDifficultyTarget ←
      scaleTarget (setCompact oldNbits).target largestTimespan nTargetTimespan powLimit
    let maximumNewTarget := (setCompact (largestDifficultyTarget.getCompact false)).target
    if maximumNewTarget < observedNewTarget then
      return false
    let smallestDifficultyTarget ←
      scaleTarget (setCompact oldNbits).target smallestTimespan nTargetTimespan powLimit
    let minimumNewTarget := (setCompact (smallestDifficultyTarget.getCompact false)).target
    if minimumNewTarget > observedNewTarget then
      return false
    return true
  else
    return oldNbits = newNbits

/-- The conversion to `int` keeps the low 32 bits. -/
def toInt32 (n : Int) : Int := (BitVec.ofInt 32 n).toInt

def checkProofOfWork (hash : Uint256) (nBits : BitVec 32) (params : Params) : Bool :=
  if hash = params.hashGenesisBlock then true
  else
    let bn := setCompact nBits
    if bn.fNegative ∨ bn.target = 0 ∨ bn.fOverflow ∨ bn.target > uintToArith256 params.powLimit then
      false
    else if uintToArith256 hash > bn.target then false
    else true

/-! ## Work and locators -/

/-- `GetBlockProof`. A target has 23 bits at most that are not zero, so the divisor is
never zero. -/
def getBlockProof (nBits : BitVec 32) : ArithUint256 :=
  let bn := setCompact nBits
  if bn.fNegative ∨ bn.fOverflow ∨ bn.target = 0 then 0 else ~~~bn.target / (bn.target + 1) + 1

def CBlockIndex.nChainWork : CBlockIndex → ArithUint256
  | genesis header => getBlockProof header.nBits
  | next pprev header => pprev.nChainWork + getBlockProof header.nBits

/-- The loop of `LocatorEntries`, with the number of entries that are there already.
Every turn but the last goes down, so the height of the entry is fuel enough. -/
def locatorLoop (hashX16RV2 : Bytes → Uint256 → Uint256) :
    Nat → CBlockIndex → Nat → Nat → List Uint256
  | 0, index, _, _ => [index.getBlockHash hashX16RV2]
  | fuel + 1, index, step, size =>
    index.getBlockHash hashX16RV2 ::
      if index.nHeight = 0 then []
      else locatorLoop hashX16RV2 fuel (index.walk (max (index.nHeight - step : Int) 0))
        (if size + 1 > 10 then step * 2 else step) (size + 1)

def locatorEntries (hashX16RV2 : Bytes → Uint256 → Uint256) (index : CBlockIndex) : List Uint256 :=
  locatorLoop hashX16RV2 index.nHeight index 1 0

/-! ## Chains that follow the difficulty rule -/

/-- The chain starts with the genesis block and every later block has the
`nBits` that `GetNextWorkRequired` asks for. Timestamps are arbitrary. -/
inductive FollowsWork (params : Params) (genesis : CBlockHeader) : CBlockIndex → Prop
  | genesis : FollowsWork params genesis (.genesis genesis)
  | next {pindexLast : CBlockIndex} (pblock : CBlockHeader) :
      FollowsWork params genesis pindexLast →
      getNextWorkRequired pindexLast pblock params = some pblock.nBits →
      FollowsWork params genesis (.next pindexLast pblock)

end Bitcoboost
