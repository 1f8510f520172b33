import Bitcoboost.Node.Miner

/-!
# Mining over RPC

What `getblocktemplate` of `rpc/mining.cpp` says of the coinbase, and the coinbase that the client
`tools/bb_miner.py` builds from it. The result has no field for the founder reward:
`coinbasevalue` is the first output of the template, and the client pays the founder nothing.
-/

namespace Bitcoboost

open MinerLemmas

/-! ## The template request -/

/-- The fields of the result of `getblocktemplate` that a coinbase is built from,
and the transactions. Texts in hexadecimal are the bytes that they stand for. -/
structure BlockTemplateResult where
  height : Nat
  coinbasevalue : CAmount
  transactions : List CTransaction
  defaultWitnessCommitment : Option CScript

/-- The result of `getblocktemplate` for a template over `pindexPrev`. `none` is an
access to a transaction or output that is not there. -/
def getblocktemplate (pblocktemplate : CBlockTemplate) (pindexPrev : CBlockIndex) :
    Option BlockTemplateResult := do
  let coinbase ← pblocktemplate.block.vtx.head?
  let out ← coinbase.vout.head?
  some {
    height := pindexPrev.nHeight + 1
    coinbasevalue := out.nValue
    transactions := pblocktemplate.block.vtx.filter fun tx => !tx.isCoinBase
    defaultWitnessCommitment :=
      if pblocktemplate.vchCoinbaseCommitment.isEmpty then none
      else some pblocktemplate.vchCoinbaseCommitment }

/-- The script of the template that `getblocktemplate` asks for. -/
def scriptDummy : CScript := [OpcodeType.op1.toByte]

/-! ## The client -/

/-- The loop of `encode_bip34_height`. A number has fewer bytes than its value. -/
def bip34HeightBytes : Nat → Nat → Bytes
  | fuel + 1, v => if v > 0 then UInt8.ofNat v :: bip34HeightBytes fuel (v / 256) else []
  | 0, _ => []

def encodeBip34Height (h : Nat) : Bytes :=
  let res := bip34HeightBytes h h
  let res := if res.isEmpty then [0] else res
  if (res.getLastD 0) &&& 0x80 ≠ 0 then res ++ [0] else res

def buildCoinbaseTx (height : Nat) (coinbaseValueSats : CAmount) (minerSpk : CScript) :
    CTransaction :=
  let heightBytes := encodeBip34Height height
  let script := UInt8.ofNat heightBytes.length :: heightBytes ++ [0]
  ⟨[⟨⟨nullUint256, COutPoint.nullIndex⟩, script, 0xffffffff#32, []⟩],
    [⟨coinbaseValueSats, minerSpk⟩], 2#32, 0#32⟩

/-- The coinbase of a client: that of `mine_one`, and for a client that knows of
segwit the commitment if the template has one. -/
def clientCoinbase (gbt : BlockTemplateResult) (minerSpk : CScript) (segwit : Bool) :
    CTransaction :=
  let coinbaseTx := buildCoinbaseTx gbt.height gbt.coinbasevalue minerSpk
  match gbt.defaultWitnessCommitment with
  | some commitment => if segwit then addCommitment coinbaseTx commitment else coinbaseTx
  | none => coinbaseTx

namespace MiningLemmas

variable {gbt : BlockTemplateResult} {minerSpk : CScript} {segwit : Bool}

theorem vout_clientCoinbase :
    (clientCoinbase gbt minerSpk segwit).vout = [⟨gbt.coinbasevalue, minerSpk⟩] ∨
    ∃ commitment, (clientCoinbase gbt minerSpk segwit).vout =
      [⟨gbt.coinbasevalue, minerSpk⟩, ⟨0, commitment⟩] := by
  unfold clientCoinbase
  split
  · split
    · exact .inr ⟨_, rfl⟩
    · exact .inl rfl
  · exact .inl rfl

theorem outputs_clientCoinbase (h : 0 ≤ gbt.coinbasevalue) :
    (∀ output ∈ (clientCoinbase gbt minerSpk segwit).vout, 0 ≤ output.nValue) ∧
    outputValue (clientCoinbase gbt minerSpk segwit).vout = gbt.coinbasevalue := by
  rcases vout_clientCoinbase with hvout | ⟨commitment, hvout⟩
  · rw [hvout]
    simp [outputValue, h]
  · rw [hvout]
    simp [outputValue, h]

end MiningLemmas

open MiningLemmas

/-- The `coinbasevalue` of a template is the reward less the founder's share. -/
theorem getblocktemplate_spec {man : ChainstateManager} {founderDest : CTxDestination}
    {pindexPrev : CBlockIndex} {selected : List CTxMemPoolEntry}
    (hdest : founderDestination man.hash man.params = some founderDest)
    (hfees : 0 ≤ selectedFees selected) :
    ∃ template gbt, assembleTxs man pindexPrev selected scriptDummy = some template ∧
      getblocktemplate template pindexPrev = some gbt ∧ gbt.height = pindexPrev.nHeight + 1 ∧
      gbt.coinbasevalue = selectedFees selected
        + getBlockSubsidy ((pindexPrev.nHeight + 1 : Nat) : Int) man.params.consensus
        - getFounderRewardForBlock ((pindexPrev.nHeight + 1 : Nat) : Int) man.params.consensus := by
  obtain ⟨template, coinbase, hassembled, hvtx, hpays⟩ :=
    assembleTxs_spec pindexPrev scriptDummy hdest hfees
  obtain ⟨rest, hvout⟩ := hpays.first
  refine ⟨template, ?_⟩
  simp only [getblocktemplate, hvtx, hvout, List.head?_cons, Option.bind_eq_bind, Option.bind_some]
  exact ⟨_, hassembled, rfl, rfl, rfl⟩

/-- On mainnet, a coinbase that a client builds from the result of
`getblocktemplate` passes the checks of `ConnectBlock`, with a `coinbasevalue` as
the help text has it, exactly where there is no founder reward and the fees keep it
within `MAX_MONEY`. -/
theorem clientCoinbase_accepted_iff (man : ChainstateManager) (hparams : man.params = mainParams)
    (pindexPrev : CBlockIndex) (selected : List CTxMemPoolEntry)
    (hfees : moneyRange (selectedFees selected) = true) (minerSpk : CScript) (segwit : Bool) :
    ∃ template gbt, assembleTxs man pindexPrev selected scriptDummy = some template ∧
      getblocktemplate template pindexPrev = some gbt ∧
      (∀ {nVersion now template'}, createNewBlock man pindexPrev selected scriptDummy nVersion now =
        some template' → getblocktemplate template' pindexPrev = some gbt) ∧
      ((checkCoinbaseAmount man.params gbt.height (selectedFees selected)
        (clientCoinbase gbt minerSpk segwit) = .ok () ∧
        checkFounderReward man.hash man.params gbt.height
          (clientCoinbase gbt minerSpk segwit) = .ok () ∧
        gbt.coinbasevalue = getBlockSubsidy gbt.height man.params.consensus +
          selectedFees selected) ↔
        selectedFees selected + getBlockSubsidy
          ((pindexPrev.nHeight + 1 : Nat) : Int) man.params.consensus ≤ maxMoney ∧
        ¬ (2001 ≤ pindexPrev.nHeight + 1 ∧ pindexPrev.nHeight + 1 < 210000)) := by
  have hnonneg : 0 ≤ selectedFees selected := (of_decide_eq_true hfees).1
  have hdest :
      founderDestination man.hash man.params = some (.witnessV0KeyHash founderKeyHash) := by
    rw [hparams]
    exact founderDestination_eq man.hash FounderLemmas.closedUnset .main
  obtain ⟨template, gbt, hassembled, hgbt, hheight, hvalue⟩ := getblocktemplate_spec hdest hnonneg
  refine ⟨template, gbt, hassembled, hgbt, ?_, ?_⟩
  · intro nVersion now template' hcreate
    obtain ⟨assembled, hassembled', hvtx, hcommitment⟩ := vtx_createNewBlock hcreate
    rw [hassembled] at hassembled'
    cases hassembled'
    rw [← hgbt, getblocktemplate, getblocktemplate, hvtx, hcommitment]
  · rw [hheight]
    have hint : man.params.consensus.nSubsidyHalvingInterval = 210000 := by rw [hparams]; rfl
    have hpos := getFounderRewardForBlock_pos hint (pindexPrev.nHeight + 1)
    by_cases hrange : 2001 ≤ pindexPrev.nHeight + 1 ∧ pindexPrev.nHeight + 1 < 210000
    · -- the value of the first output leaves the founder reward out
      have hfounder := hpos.mpr hrange
      exact iff_of_false (fun h => by linarith [h.2.2]) fun h => h.2 hrange
    · have hnone := mt hpos.mp hrange
      have hzero :=
        le_antisymm (Int.not_lt.mp hnone) (getFounderRewardForBlock_nonneg _ man.params.consensus)
      rw [hzero, Int.sub_zero] at hvalue
      have hsubsidy :=
        getBlockSubsidy_nonneg ((pindexPrev.nHeight + 1 : Nat) : Int) man.params.consensus
      obtain ⟨houtputs, htotal⟩ := outputs_clientCoinbase
        (show 0 ≤ gbt.coinbasevalue by rw [hvalue]; linarith)
      have hamount := checkCoinbaseAmount_of_le houtputs (le_of_eq (htotal.trans hvalue))
      rw [htotal, hvalue] at hamount
      rw [hamount, checkFounderReward_ok]
      exact ⟨fun h => ⟨h.1, hrange⟩, fun h =>
        ⟨h.1, fun hf => absurd hf hnone, by rw [hvalue, Int.add_comm]⟩⟩

theorem clientCoinbase_accepted_first :
    ∃ template gbt, assembleTxs constantManager (.genesis mainParams.genesis) [] scriptDummy =
      some template ∧
      getblocktemplate template (.genesis mainParams.genesis) = some gbt ∧
      gbt.coinbasevalue = getBlockSubsidy gbt.height mainConsensus + 0 ∧
      checkCoinbaseAmount mainParams gbt.height 0 (clientCoinbase gbt [] true) = .ok () ∧
      checkFounderReward constantManager.hash mainParams gbt.height (clientCoinbase gbt [] true) =
        .ok () := by
  obtain ⟨template, gbt, hassembled, hgbt, _, haccepted⟩ :=
      clientCoinbase_accepted_iff constantManager rfl
    (.genesis mainParams.genesis) [] (by decide) [] true
  obtain ⟨hamount, hfounder, hvalue⟩ := haccepted.mpr ⟨by decide, by decide⟩
  exact ⟨template, gbt, hassembled, hgbt, hvalue, hamount, hfounder⟩

/-- A mainnet chain of 2001 blocks. -/
def mainTip : CBlockIndex := (CBlockIndex.genesis mainParams.genesis).extend (fun _ => 0#32) 2000

/-- At height 2001 the result lacks the founder's 2.5 coins, and the coinbase that a
client builds from it is refused. -/
theorem client_refused_at_2001 :
    ∃ template gbt, assembleTxs constantManager mainTip [] scriptDummy = some template ∧
      getblocktemplate template mainTip = some gbt ∧ gbt.height = 2001 ∧
      gbt.coinbasevalue = 4750000000 ∧ getBlockSubsidy 2001 mainConsensus = 5000000000 ∧
      checkFounderReward constantManager.hash mainParams 2001 (clientCoinbase gbt [] true) =
        .error (.invalid .consensus "bad-cb-founder-reward") := by
  have hdest :
    founderDestination constantManager.hash mainParams = some (.witnessV0KeyHash founderKeyHash) :=
    founderDestination_eq constantManager.hash FounderLemmas.closedUnset .main
  obtain ⟨template, gbt, hassembled, hgbt, hheight, hvalue⟩ := getblocktemplate_spec
    (show founderDestination constantManager.hash constantManager.params = _ from hdest)
    (show 0 ≤ selectedFees [] by decide)
  have htip : mainTip.nHeight + 1 = 2001 := by
    rw [mainTip, ChainLemmas.nHeight_extend]
    rfl
  rw [htip] at hheight hvalue
  refine ⟨template, gbt, hassembled, hgbt, hheight, hvalue.trans (by decide), by decide, ?_⟩
  have hreward : getFounderRewardForBlock 2001 mainParams.consensus = 250000000 := by decide
  have hunpaid : ((clientCoinbase gbt [] true).vout.any fun output =>
      output.scriptPubKey = getScriptForDestination (.witnessV0KeyHash founderKeyHash) &&
        output.nValue ≥ getFounderRewardForBlock 2001 mainParams.consensus) = false := by
    rcases vout_clientCoinbase with hvout | ⟨commitment, hvout⟩
    · rw [hvout]
      rfl
    · rw [hvout, hreward]
      simp [getScriptForDestination]
  rw [checkFounderReward, if_pos (by decide), hdest]
  change invalidIf (!((clientCoinbase gbt [] true).vout.any fun output =>
    output.scriptPubKey = getScriptForDestination (.witnessV0KeyHash founderKeyHash) &&
      output.nValue ≥ getFounderRewardForBlock 2001 mainParams.consensus)) _ _ = _
  rw [hunpaid]
  rfl

end Bitcoboost
