import Bitcoboost.Pow.Chain
import Bitcoboost.Validation.ConnectBlock

/-!
# Block templates

`BlockAssembler::CreateNewBlock` of `node/miner.cpp`, with the witness commitment that
`validation.cpp` adds to the coinbase. The transactions of the template, the block version and
the clock are parameters. The final `TestBlockValidity` is left out: the results are about the
template that it is given. The miner and `ConnectBlock` agree on the founder reward on every
network but signet, where the founder address is no address.
-/

namespace Bitcoboost

open FounderLemmas Option List

/-! ## The witness commitment -/

def minimumWitnessCommitment : Nat := 38

def witnessCommitmentHeader : CScript := [OpcodeType.opReturn.toByte, 0x24, 0xaa, 0x21, 0xa9, 0xed]

/-- The loop of `GetWitnessCommitmentIndex` from the output `o` on: the last
commitment counts. -/
def witnessCommitmentIndexFrom : Nat → Option Nat → List CTxOut → Option Nat
  | _, commitpos, [] => commitpos
  | o, commitpos, out :: vout =>
    let isCommitment := out.scriptPubKey.length ≥ minimumWitnessCommitment
      ∧ out.scriptPubKey.take 6 = witnessCommitmentHeader
    witnessCommitmentIndexFrom (o + 1) (if isCommitment then some o else commitpos) vout

/-- `GetWitnessCommitmentIndex`, with `none` for `NO_WITNESS_COMMITMENT`. -/
def getWitnessCommitmentIndex (block : CBlock) : Option Nat :=
  block.vtx.head?.bind fun tx => witnessCommitmentIndexFrom 0 none tx.vout

def deploymentActiveAfter (pindexPrev : CBlockIndex) (deploymentHeight : Int) : Bool :=
  (pindexPrev.nHeight : Int) + 1 ≥ deploymentHeight

def setWitnessNonce : List CTxIn → List CTxIn
  | [] => []
  | txin :: vin => { txin with scriptWitness := [List.replicate 32 0] } :: vin

variable (man : ChainstateManager)

def updateUncommittedBlockStructures (block : CBlock) (pindexPrev : CBlockIndex) : CBlock :=
  match block.vtx with
  | [] => block
  | coinbase :: vtx =>
    if (getWitnessCommitmentIndex block).isSome &&
        deploymentActiveAfter pindexPrev man.params.consensus.segwitHeight
        && !coinbase.hasWitness then
      { block with vtx := { coinbase with vin := setWitnessNonce coinbase.vin } :: vtx }
    else block

def witnessCommitment (hash : Bytes → Uint256) (block : CBlock) : CScript :=
  witnessCommitmentHeader ++ (hash ((blockWitnessMerkleRoot hash block).data ++
    List.replicate 32 0)).data

/-- The transaction with the commitment as one more output. -/
def addCommitment (tx : CTransaction) (commitment : CScript) : CTransaction :=
  { tx with vout := tx.vout ++ [⟨0, commitment⟩] }

/-- `GenerateCoinbaseCommitment`: the block and the commitment, which is empty if
the coinbase had one. The block has a coinbase. -/
def generateCoinbaseCommitment (block : CBlock) (pindexPrev : CBlockIndex) :
    Option (CBlock × CScript) :=
  match block.vtx with
  | [] => none
  | coinbase :: vtx =>
    if (getWitnessCommitmentIndex block).isSome then
      some (updateUncommittedBlockStructures man block pindexPrev, [])
    else
      let commitment := witnessCommitment man.hash block
      let block := { block with vtx := addCommitment coinbase commitment :: vtx }
      some (updateUncommittedBlockStructures man block pindexPrev, commitment)

/-! ## The template -/

/-- What `AddToBlock` reads of a `CTxMemPoolEntry`. -/
structure CTxMemPoolEntry where
  tx : CTransaction
  nFee : CAmount
  sigOpCost : Int

structure CBlockTemplate where
  block : CBlock
  vTxFees : List CAmount
  vTxSigOpsCost : List Int
  vchCoinbaseCommitment : CScript

/-- `nFees` after `addPackageTxs` has added these transactions. -/
def selectedFees (selected : List CTxMemPoolEntry) : CAmount :=
  (selected.map CTxMemPoolEntry.nFee).sum

/-- The outputs that `CreateNewBlock` gives the coinbase. `none` is a failed
assertion in the decoding of the founder address. -/
def coinbaseOutputs (nHeight : Nat) (nFees : CAmount) (scriptPubKeyIn : CScript) :
    Option (List CTxOut) :=
  let blockReward := nFees + getBlockSubsidy nHeight man.params.consensus
  let founderReward := getFounderRewardForBlock nHeight man.params.consensus
  if founderReward > 0 then do
    let founderScript ← getFounderScript man.hash man.params
    some [⟨blockReward - founderReward, scriptPubKeyIn⟩, ⟨founderReward, founderScript⟩]
  else some [⟨blockReward, scriptPubKeyIn⟩]

/-- The coinbase of `CreateNewBlock`, before the commitment. -/
def createCoinbase (nHeight : Nat) (nFees : CAmount) (scriptPubKeyIn : CScript) :
    Option CTransaction := do
  let vout ← coinbaseOutputs man nHeight nFees scriptPubKeyIn
  let scriptSig := pushInt64 nHeight ++ [op0]
  some ⟨[⟨⟨nullUint256, COutPoint.nullIndex⟩, scriptSig, 0xffffffff#32, []⟩], vout, 2#32, 0#32⟩

/-- `CreateNewBlock` up to the header: the transactions, their fees and signature
operations. -/
def assembleTxs (pindexPrev : CBlockIndex) (selected : List CTxMemPoolEntry)
    (scriptPubKeyIn : CScript) : Option CBlockTemplate := do
  let nFees := selectedFees selected
  let coinbase ← createCoinbase man (pindexPrev.nHeight + 1) nFees scriptPubKeyIn
  let (block, commitment) ← generateCoinbaseCommitment man
      { vtx := coinbase :: selected.map CTxMemPoolEntry.tx }
    pindexPrev
  let coinbase ← block.vtx.head?
  some {
    block
    vTxFees := -nFees :: selected.map CTxMemPoolEntry.nFee
    vTxSigOpsCost :=
      witnessScaleFactor * getLegacySigOpCount coinbase :: selected.map CTxMemPoolEntry.sigOpCost
    vchCoinbaseCommitment := commitment }

/-- `UpdateTime`, at the time `now` of the clock. -/
def updateTime (params : Params) (pindexPrev : CBlockIndex) (now : Int) (header : CBlockHeader) :
    Option CBlockHeader :=
  let nNewTime := max (pindexPrev.getMedianTimePast + 1) now
  let header :=
    if header.nTime.toNat < nNewTime then { header with nTime := BitVec.ofInt 32 nNewTime }
    else header
  if params.fPowAllowMinDifficultyBlocks then do
    let nBits ← getNextWorkRequired pindexPrev header params
    some { header with nBits }
  else some header

/-- `CreateNewBlock` up to `TestBlockValidity`. `nVersion` is the block version,
computed or overridden. -/
def createNewBlock (pindexPrev : CBlockIndex) (selected : List CTxMemPoolEntry)
    (scriptPubKeyIn : CScript) (nVersion : BitVec 32) (now : Int) : Option CBlockTemplate := do
  let template ← assembleTxs man pindexPrev selected scriptPubKeyIn
  let header ← updateTime man.params.consensus pindexPrev now
    { nVersion, hashPrevBlock := pindexPrev.getBlockHash man.hashX16RV2,
      nTime := BitVec.ofInt 32 now }
  let nBits ← getNextWorkRequired pindexPrev header man.params.consensus
  some { template with block := { template.block with toCBlockHeader := { header with nBits } } }

/-! ## What the coinbase pays -/

namespace MinerLemmas

open ConnectBlockLemmas

variable (man : ChainstateManager) (pindexPrev : CBlockIndex) {coinbase : CTransaction}
  {vtx : List CTransaction} {block : CBlock}

theorem vtx_updateUncommittedBlockStructures (h : block.vtx = coinbase :: vtx) :
    ∃ coinbase', (updateUncommittedBlockStructures man block pindexPrev).vtx = coinbase' :: vtx ∧
      coinbase'.vout = coinbase.vout := by
  unfold updateUncommittedBlockStructures
  rw [h]
  dsimp only
  split
  · exact ⟨_, rfl, rfl⟩
  · exact ⟨coinbase, h, rfl⟩

/-- The commitment is one more output without value, if it is added at all. -/
theorem generateCoinbaseCommitment_spec (h : block.vtx = coinbase :: vtx) :
    ∃ block' commitment coinbase', generateCoinbaseCommitment man block pindexPrev =
      some (block', commitment) ∧
      block'.vtx = coinbase' :: vtx ∧
      (coinbase'.vout = coinbase.vout ∨ coinbase'.vout = coinbase.vout ++ [⟨0, commitment⟩]) := by
  unfold generateCoinbaseCommitment
  rw [h]
  dsimp only
  split
  · obtain ⟨coinbase', hvtx, hvout⟩ := vtx_updateUncommittedBlockStructures man pindexPrev h
    exact ⟨_, _, coinbase', rfl, hvtx, .inl hvout⟩
  · have hadded :
        ({ block with vtx := addCommitment coinbase (witnessCommitment man.hash block) :: vtx } :
        CBlock).vtx
        = addCommitment coinbase (witnessCommitment man.hash block) :: vtx := rfl
    obtain ⟨coinbase', hvtx, hvout⟩ := vtx_updateUncommittedBlockStructures man pindexPrev hadded
    exact ⟨_, _, coinbase', rfl, hvtx, .inr hvout⟩

theorem getFounderRewardForBlock_nonneg (nHeight : Int) (params : Params) :
    0 ≤ getFounderRewardForBlock nHeight params := by
  unfold getFounderRewardForBlock
  split
  · exact le_refl 0
  · split
    · exact le_refl 0
    · exact Int.tdiv_nonneg (by linarith [getBlockSubsidy_nonneg nHeight params]) (by decide)

theorem getFounderRewardForBlock_le (nHeight : Int) (params : Params) :
    getFounderRewardForBlock nHeight params ≤ getBlockSubsidy nHeight params := by
  have hsubsidy := getBlockSubsidy_nonneg nHeight params
  unfold getFounderRewardForBlock
  split
  · exact hsubsidy
  · split
    · exact hsubsidy
    · calc (getBlockSubsidy nHeight params * 5).tdiv 100
          ≤ (getBlockSubsidy nHeight params * 100).tdiv 100 :=
            Int.tdiv_le_tdiv (by decide) (by linarith)
        _ = getBlockSubsidy nHeight params := Int.mul_tdiv_cancel _ (by decide)

theorem getFounderRewardForBlock_pos {params : Params}
    (hint : params.nSubsidyHalvingInterval = 210000) (nHeight : Nat) :
    0 < getFounderRewardForBlock nHeight params ↔ 2001 ≤ nHeight ∧ nHeight < 210000 := by
  unfold getFounderRewardForBlock
  split
  · next hlow => exact ⟨fun h => absurd h (by decide), fun h => by omega⟩
  · split
    · next hhigh => exact ⟨fun h => absurd h (by decide), fun h => by omega⟩
    · next hlow hhigh =>
      have hhalvings : ((nHeight : Int) - 2001).tdiv 210000 = 0 := by
        rw [Int.tdiv_eq_ediv_of_nonneg (by omega)]
        omega
      have hsubsidy : getBlockSubsidy nHeight params = 50 * coin := by
        rw [getBlockSubsidy, if_neg (by omega), if_neg (by omega), hint, hhalvings]
        rfl
      rw [hsubsidy]
      exact ⟨fun _ => by omega, fun _ => by decide⟩

end MinerLemmas

open MinerLemmas

/-- Outputs that come to the fees and the subsidy. The first pays the miner, and
where there is a founder reward one of them pays it to `founderDest`. -/
structure PaysReward (params : CChainParams) (founderDest : CTxDestination) (nHeight : Nat)
    (nFees : CAmount) (scriptPubKeyIn : CScript) (vout : List CTxOut) : Prop where
  first : ∃ rest, vout = ⟨nFees + getBlockSubsidy nHeight params.consensus
    - getFounderRewardForBlock nHeight params.consensus, scriptPubKeyIn⟩ :: rest
  nonneg : ∀ output ∈ vout, 0 ≤ output.nValue
  total : outputValue vout = nFees + getBlockSubsidy nHeight params.consensus
  founder : 0 < getFounderRewardForBlock nHeight params.consensus → ∃ output ∈ vout,
    output.scriptPubKey = getScriptForDestination founderDest ∧
      getFounderRewardForBlock nHeight params.consensus ≤ output.nValue

variable {founderDest : CTxDestination} {scriptPubKeyIn : CScript} {man : ChainstateManager}
  {nFees : CAmount}
  {selected : List CTxMemPoolEntry} {nHeight : Nat} {params : CChainParams}

theorem PaysReward.append {vout : List CTxOut} (script : CScript)
    (h : PaysReward params founderDest nHeight nFees scriptPubKeyIn vout) :
    PaysReward params founderDest nHeight nFees scriptPubKeyIn (vout ++ [⟨0, script⟩]) where
  first := by
    obtain ⟨rest, hvout⟩ := h.first
    exact ⟨rest ++ [⟨0, script⟩], by rw [hvout, cons_append]⟩
  nonneg output hmem := by
    rcases List.mem_append.mp hmem with hmem | hmem
    · exact h.nonneg output hmem
    · rw [List.mem_singleton.mp hmem]
  total := by
    rw [← h.total]
    simp [outputValue]
  founder hpos := by
    obtain ⟨output, hmem, hpays⟩ := h.founder hpos
    exact ⟨output, mem_append_left _ hmem, hpays⟩

namespace MinerLemmas

theorem coinbaseOutputs_spec {man : ChainstateManager} {founderDest : CTxDestination}
    {nHeight : Nat}
    {scriptPubKeyIn : CScript} (hdest : founderDestination man.hash man.params = some founderDest)
    (hfees : 0 ≤ nFees) : ∃ vout, coinbaseOutputs man nHeight nFees scriptPubKeyIn = some vout ∧
      PaysReward man.params founderDest nHeight nFees scriptPubKeyIn vout := by
  have hnonneg := getFounderRewardForBlock_nonneg nHeight man.params.consensus
  have hle := getFounderRewardForBlock_le nHeight man.params.consensus
  unfold coinbaseOutputs
  dsimp only
  split
  · next hpos =>
    have hscript :
        getFounderScript man.hash man.params = some (getScriptForDestination founderDest) := by
      rw [getFounderScript, hdest, map_some]
    rw [hscript]
    refine ⟨_, rfl, ⟨_, rfl⟩, ?_, ?_, fun _ =>
      ⟨⟨getFounderRewardForBlock nHeight man.params.consensus, getScriptForDestination founderDest⟩,
      ?_, ?_⟩⟩
    · simp only [forall_mem_cons]
      exact ⟨by linarith, hnonneg, by simp⟩
    · simp [outputValue]
    · simp
    · simp
  · next hpos =>
    have hzero : getFounderRewardForBlock nHeight man.params.consensus = 0 :=
      le_antisymm (Int.not_lt.mp hpos) hnonneg
    refine ⟨_, rfl, ⟨[], by rw [hzero, Int.sub_zero]⟩, ?_, ?_, fun h => absurd h hpos⟩
    · simp only [forall_mem_cons]
      exact ⟨by linarith, by simp⟩
    · simp [outputValue]

end MinerLemmas

theorem assembleTxs_spec (pindexPrev : CBlockIndex) (scriptPubKeyIn : CScript)
    (hdest : founderDestination man.hash man.params = some founderDest)
    (hfees : 0 ≤ selectedFees selected) :
    ∃ template coinbase, assembleTxs man pindexPrev selected scriptPubKeyIn = some template ∧
      template.block.vtx = coinbase :: selected.map CTxMemPoolEntry.tx ∧
      PaysReward man.params founderDest (pindexPrev.nHeight + 1)
        (selectedFees selected) scriptPubKeyIn coinbase.vout := by
  obtain ⟨vout, hvout, hpays⟩ := coinbaseOutputs_spec hdest hfees
  have hcoinbase :
      ∃ tx, createCoinbase man (pindexPrev.nHeight + 1) (selectedFees selected) scriptPubKeyIn =
      some tx ∧ tx.vout = vout := ⟨_, by rw [createCoinbase, hvout]; rfl, rfl⟩
  obtain ⟨tx, htx, rfl⟩ := hcoinbase
  obtain ⟨block, commitment, coinbase, hblock, hvtx, hadded⟩ :=
      generateCoinbaseCommitment_spec man pindexPrev
    (show ({ vtx := tx :: selected.map CTxMemPoolEntry.tx } : CBlock).vtx = _ from rfl)
  have hassembled : ∃ template, assembleTxs man pindexPrev selected scriptPubKeyIn = some template ∧
      template.block = block := by
    rw [assembleTxs]
    simp only [htx, hblock, hvtx, bind_eq_bind, bind_some, List.head?_cons]
    exact ⟨_, rfl, rfl⟩
  obtain ⟨template, hassembled, rfl⟩ := hassembled
  refine ⟨template, coinbase, hassembled, hvtx, ?_⟩
  rcases hadded with hvout | hvout
  · rw [hvout]
    exact hpays
  · rw [hvout]
    exact hpays.append commitment

theorem vtx_createNewBlock {pindexPrev : CBlockIndex} {nVersion : BitVec 32} {now : Int}
    {template : CBlockTemplate}
    (h : createNewBlock man pindexPrev selected scriptPubKeyIn nVersion now = some template) :
    ∃ assembled, assembleTxs man pindexPrev selected scriptPubKeyIn = some assembled ∧
      template.block.vtx = assembled.block.vtx ∧
        template.vchCoinbaseCommitment = assembled.vchCoinbaseCommitment := by
  simp only [createNewBlock, bind_eq_bind, bind_eq_some_iff] at h
  obtain ⟨assembled, hassembled, header, _, nBits, _, h⟩ := h
  cases h
  exact ⟨assembled, hassembled, rfl, rfl⟩

/-! ## The miner and the validator -/

/-- What `ConnectBlock` asks of a coinbase, and that none of its outputs is negative. -/
structure CoinbaseAccepted (man : ChainstateManager) (nHeight : Nat) (nFees : CAmount)
    (coinbase : CTransaction) : Prop where
  nonneg : ∀ output ∈ coinbase.vout, 0 ≤ output.nValue
  amount : checkCoinbaseAmount man.params nHeight nFees coinbase = .ok ()
  founder : checkFounderReward man.hash man.params nHeight coinbase = .ok ()

namespace MinerLemmas

/-- Outputs that are not negative and come to at most the reward fail the amount
check only by an overflow of `MAX_MONEY`. -/
theorem checkCoinbaseAmount_of_le {coinbase : CTransaction}
    (hnonneg : ∀ output ∈ coinbase.vout, 0 ≤ output.nValue)
    (hle : outputValue coinbase.vout ≤ nFees + getBlockSubsidy nHeight params.consensus) :
    checkCoinbaseAmount params nHeight nFees coinbase = .ok () ↔
    outputValue coinbase.vout ≤ maxMoney := by
  rw [checkCoinbaseAmount_ok, getValueOut_of_nonneg hnonneg]
  constructor
  · rintro ⟨valueOut, hout, _⟩
    split at hout
    · next hmax => exact hmax
    · cases hout
  · intro hmax
    exact ⟨outputValue coinbase.vout, if_pos hmax, hle⟩

end MinerLemmas

/-- A coinbase that pays the reward is accepted unless it comes to more than
`MAX_MONEY` or the founder address is not valid. -/
theorem PaysReward.accepted_iff {coinbase : CTransaction}
    (hdest : founderDestination man.hash man.params = some founderDest)
    (h : PaysReward man.params founderDest nHeight nFees scriptPubKeyIn coinbase.vout) :
    CoinbaseAccepted man nHeight nFees coinbase ↔
      nFees + getBlockSubsidy nHeight man.params.consensus ≤ maxMoney ∧
      (0 < getFounderRewardForBlock nHeight man.params.consensus →
        isValidDestination founderDest = true) := by
  have hamount := checkCoinbaseAmount_of_le h.nonneg (le_of_eq h.total)
  rw [h.total] at hamount
  have hfounder : checkFounderReward man.hash man.params nHeight coinbase = .ok () ↔
      (0 < getFounderRewardForBlock nHeight man.params.consensus →
      isValidDestination founderDest = true) := by
    rw [checkFounderReward_ok]
    refine forall_congr' fun hpos => ?_
    constructor
    · rintro ⟨dest, hsome, hvalid, _⟩
      rw [hdest] at hsome
      cases hsome
      exact hvalid
    · exact fun hvalid => ⟨founderDest, hdest, hvalid, h.founder hpos⟩
  exact ⟨fun ha => ⟨hamount.mp ha.amount, hfounder.mp ha.founder⟩,
    fun ⟨hmax, hvalid⟩ => ⟨h.nonneg, hamount.mpr hmax, hfounder.mpr hvalid⟩⟩

/-- The coinbase of a template is accepted, on every network, at every height and
for every payout script, unless the fees take it over `MAX_MONEY` or it is a signet
block with a founder reward. -/
theorem assembleTxs_accepted_iff (man : ChainstateManager) (unset : Unset) (chain : ChainType)
    (hparams : man.params = createChainParams unset chain) (pindexPrev : CBlockIndex)
    (selected : List CTxMemPoolEntry)
    (hfees : moneyRange (selectedFees selected) = true) (scriptPubKeyIn : CScript) :
    ∃ template coinbase, assembleTxs man pindexPrev selected scriptPubKeyIn = some template ∧
      template.block.vtx = coinbase :: selected.map CTxMemPoolEntry.tx ∧
      (∀ {nVersion now template'},
        createNewBlock man pindexPrev selected scriptPubKeyIn nVersion now = some template' →
        template'.block.vtx = template.block.vtx) ∧
      (CoinbaseAccepted man (pindexPrev.nHeight + 1) (selectedFees selected) coinbase ↔
        selectedFees selected + getBlockSubsidy
          ((pindexPrev.nHeight + 1 : Nat) : Int) man.params.consensus ≤ maxMoney ∧
        ¬ (chain = .signet ∧ 2001 ≤ pindexPrev.nHeight + 1 ∧ pindexPrev.nHeight + 1 < 210000)) := by
  have hnonneg : 0 ≤ selectedFees selected := (of_decide_eq_true hfees).1
  have hdest := founderDestination_eq man.hash unset chain
  rw [← hparams] at hdest
  obtain ⟨template, coinbase, hassembled, hvtx, hpays⟩ :=
    assembleTxs_spec pindexPrev scriptPubKeyIn hdest hnonneg
  refine ⟨template, coinbase, hassembled, hvtx, ?_, ?_⟩
  · intro nVersion now template' hcreate
    obtain ⟨assembled, hassembled', hvtx', _⟩ := vtx_createNewBlock hcreate
    rw [hassembled] at hassembled'
    cases hassembled'
    exact hvtx'
  · rw [hpays.accepted_iff hdest]
    refine and_congr_right fun _ => ?_
    by_cases hsignet : chain = .signet
    · have hint :
        man.params.consensus.nSubsidyHalvingInterval = 210000 := by rw [hparams, hsignet]; rfl
      rw [getFounderRewardForBlock_pos hint, if_pos hsignet]
      simp [hsignet, isValidDestination]
    · simp [hsignet, isValidDestination]

theorem assembleTxs_accepted_first :
    ∃ template coinbase, assembleTxs constantManager (.genesis mainParams.genesis) [] [] =
      some template ∧
      template.block.vtx = [coinbase] ∧ CoinbaseAccepted constantManager 1 0 coinbase := by
  obtain ⟨template, coinbase, hassembled, hvtx, _, haccepted⟩ :=
      assembleTxs_accepted_iff constantManager
    closedUnset .main rfl (.genesis mainParams.genesis) [] (by decide) []
  exact ⟨template, coinbase, hassembled, hvtx, haccepted.mpr ⟨by decide, by simp⟩⟩

def signetManager : ChainstateManager := { constantManager with params := sigNetParams closedUnset }

/-- A chain of 2001 blocks. -/
def signetTip : CBlockIndex :=
  (CBlockIndex.genesis signetManager.params.genesis).extend (fun _ => 0#32) 2000

/-- The template for height 2001 of signet fails the founder check. -/
theorem signet_template_refused :
    ∃ template coinbase, assembleTxs signetManager signetTip [] [] = some template ∧
      template.block.vtx = [coinbase] ∧ signetTip.nHeight + 1 = 2001 ∧
      checkFounderReward signetManager.hash signetManager.params 2001 coinbase =
        .error (.invalid .consensus "bad-cb-founder-config") := by
  have hdest : founderDestination signetManager.hash signetManager.params =
    some (.noDestination []) := founderDestination_eq signetManager.hash closedUnset .signet
  obtain ⟨template, coinbase, hassembled, hvtx, _⟩ := assembleTxs_spec signetTip [] hdest
    (show 0 ≤ selectedFees [] by decide)
  refine ⟨template, coinbase, hassembled, hvtx, ?_, ?_⟩
  · rw [signetTip, ChainLemmas.nHeight_extend]
    rfl
  · rw [checkFounderReward, if_pos (by decide), hdest]
    rfl

end Bitcoboost
