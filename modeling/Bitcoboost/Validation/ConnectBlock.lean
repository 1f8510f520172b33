import Bitcoboost.Consensus.TxVerify
import Bitcoboost.Validation.Founder

/-!
# Connecting a block

`CheckBlock` and `ConnectBlock` of `validation.cpp` with all they call, over the coins view. The
hash functions, the script checks with their cache, the signet solution, the assumed-valid rule
and the writing of the undo file are a structure of parameters.
-/

namespace Bitcoboost

/-- The values of `BlockValidationResult` that the checks below set. -/
inductive BlockValidationResult where
  | consensus
  | invalidHeader
  | mutated
deriving DecidableEq, Repr

/-- How connecting a block can fail: the state it sets, the fatal error or the
system error, or an assertion or exception that stops it. -/
inductive BlockFailure where
  | invalid (result : BlockValidationResult) (rejectReason : String)
  | fatalError (message : String)
  | aborted
deriving DecidableEq, Repr

/-- A transaction failure in a block is a consensus failure of the block. -/
def TxFailure.toBlock : TxFailure → BlockFailure
  | .invalid _ rejectReason => .invalid .consensus rejectReason
  | .aborted => .aborted

/-- What `ConnectBlock` reads from its chainstate. -/
structure ChainstateManager where
  params : CChainParams
  /-- `Hash`, the double SHA256. -/
  hash : Bytes → Uint256
  hashX16RV2 : Bytes → Uint256 → Uint256
  /-- `CScriptCheck` of an input of a transaction with the outputs that it spends:
  nothing if it passes, otherwise the text of the script error. -/
  scriptCheck : CTransaction → Nat → List CTxOut → ScriptFlags → Option String
  /-- Whether `g_scriptExecutionCache` has the transaction under these flags. -/
  scriptExecutionCached : CTransaction → ScriptFlags → Bool
  checkSignetBlockSolution : CBlock → Bool
  /-- `fScriptChecks`, false only under the assumed-valid block. -/
  fScriptChecks : CBlockIndex → Bool
  parallelScriptChecks : Bool
  /-- Whether `WriteUndoDataForBlock` succeeds. -/
  writeUndoDataForBlock : Bool

def invalidIf (cond : Bool) (result : BlockValidationResult) (rejectReason : String) :
    Except BlockFailure Unit :=
  if cond then .error (.invalid result rejectReason) else .ok ()

def assertThat (cond : Bool) : Except BlockFailure Unit := if cond then .ok () else .error .aborted

/-- A value that an assertion or exception can keep from being there. -/
def orAbort {α : Type} : Option α → Except BlockFailure α
  | some a => .ok a
  | none => .error .aborted

/-! ## Context free checks of a block -/

def maxBlockSigopsCost : Nat := 80000

variable (man : ChainstateManager) (block : CBlock)

def checkMerkleRoot : Except BlockFailure Unit :=
  if block.mCheckedMerkleRoot then .ok ()
  else do
    let (merkleRoot, mutated) := blockMerkleRoot man.hash block
    invalidIf (block.hashMerkleRoot ≠ merkleRoot) .mutated "bad-txnmrklroot"
    invalidIf mutated .mutated "bad-txns-duplicate"

/-- The loop of `CheckBlock` over the transactions. -/
def checkTransactions : List CTransaction → Except BlockFailure Unit
  | [] => .ok ()
  | tx :: vtx =>
    match checkTransaction tx with
    | .error e => .error e.toBlock
    | .ok () => checkTransactions vtx

def checkBlock (fCheckPOW fCheckMerkleRoot : Bool) : Except BlockFailure Unit :=
  if block.fChecked then .ok ()
  else do
    invalidIf (fCheckPOW && !checkProofOfWork
        (block.getHash man.hashX16RV2) block.nBits man.params.consensus)
      .invalidHeader "high-hash"
    invalidIf (man.params.consensus.signetBlocks && fCheckPOW &&
        !man.checkSignetBlockSolution block)
      .consensus "bad-signet-blksig"
    (if fCheckMerkleRoot then checkMerkleRoot man block else .ok ())
    invalidIf (block.vtx.isEmpty || block.vtx.length * witnessScaleFactor > maxBlockWeight
        || (block.serialize false).length * witnessScaleFactor > maxBlockWeight) .consensus
        "bad-blk-length"
    invalidIf (!(block.vtx.head?.any CTransaction.isCoinBase)) .consensus "bad-cb-missing"
    invalidIf (block.vtx.tail.any CTransaction.isCoinBase) .consensus "bad-cb-multiple"
    checkTransactions block.vtx
    invalidIf ((block.vtx.map getLegacySigOpCount).sum * witnessScaleFactor > maxBlockSigopsCost)
      .consensus "bad-blk-sigops"

/-! ## Flags of a block -/

variable (pindex : CBlockIndex)

def deploymentActiveAt (deploymentHeight : Int) : Bool := pindex.nHeight ≥ deploymentHeight

def getBlockScriptFlags : ScriptFlags :=
  let params := man.params.consensus
  let flags : ScriptFlags :=
    (params.scriptFlagExceptions.lookup (pindex.getBlockHash man.hashX16RV2)).getD
      {.p2sh, .witness, .taproot}
  let active (flag : ScriptFlag) (height : Int) : ScriptFlags :=
    if deploymentActiveAt pindex height then {flag} else ∅
  flags ∪ active .dersig params.bip66Height ∪ active .checklocktimeverify params.bip65Height
    ∪ active .checksequenceverify params.csvHeight ∪ active .nulldummy params.segwitHeight

def isBIP30Repeat : Bool :=
  let hash := pindex.getBlockHash man.hashX16RV2
  (pindex.nHeight = 91842 ∧ hash =
    uint256S 0x00000000000a4d0a398161ffc163c503763b1f4360639393e0e4c8e300e0caec) ∨
    (pindex.nHeight = 91880 ∧ hash = uint256S
      0x00000000000743f190a18c5577a3c2d2a1f610ae9601ac046a38084ccb7cd721)

/-! ## BIP30 -/

/-- The BIP30 loop over the outputs of one transaction, from the output `i` on. -/
def checkOverwriteTx (txid : Uint256) :
    Nat → List CTxOut → CCoinsViewCache → Except BlockFailure CCoinsViewCache
  | _, [], view => .ok view
  | i, _ :: vout, view =>
    match view.haveCoin (COutPoint.ofIndex txid i) with
    | (_, true) => .error (.invalid .consensus "bad-txns-BIP30")
    | (view, false) => checkOverwriteTx txid (i + 1) vout view

def checkOverwrite (hash : Bytes → Uint256) :
    List CTransaction → CCoinsViewCache → Except BlockFailure CCoinsViewCache
  | [], view => .ok view
  | tx :: vtx, view => do
    let view ← checkOverwriteTx (tx.getHash hash) 0 tx.vout view
    checkOverwrite hash vtx view

/-- Whether `ConnectBlock` runs the BIP30 loop. `pprev` is the parent entry. -/
def enforceBIP30 (pprev : CBlockIndex) : Bool :=
  let params := man.params.consensus
  let pindexBIP34height := pprev.getAncestor params.bip34Height
  (!isBIP30Repeat man pindex && !(pindexBIP34height.any fun p =>
      p.getBlockHash man.hashX16RV2 = params.bip34Hash))
    || pindex.nHeight ≥ 1983702

def checkBIP30 (pindex pprev : CBlockIndex) (view : CCoinsViewCache) :
    Except BlockFailure CCoinsViewCache :=
  if enforceBIP30 man pindex pprev then checkOverwrite man.hash block.vtx view else .ok view

/-! ## Transactions -/

def checkScriptsInline (man : ChainstateManager) (tx : CTransaction) (spentOutputs : List CTxOut)
    (flags : ScriptFlags) : List Nat → Except TxFailure Unit
  | [] => .ok ()
  | i :: inputs =>
    match man.scriptCheck tx i spentOutputs flags with
    | none => checkScriptsInline man tx spentOutputs flags inputs
    | some err =>
      if (flags ∩ standardNotMandatoryVerifyFlags).Nonempty ∧
          man.scriptCheck tx i spentOutputs (flags \ standardNotMandatoryVerifyFlags) = none then
        .error (.invalid .notStandard ("non-mandatory-script-verify-flag (" ++ err ++ ")"))
      else .error (.invalid .consensus ("mandatory-script-verify-flag-failed (" ++ err ++ ")"))

/-- `CheckInputScripts`. With parallel checks it only queues them: the flag says
whether the queue will pass them. -/
def checkInputScripts (tx : CTransaction) (view : CCoinsViewCache) (flags : ScriptFlags) :
    Except TxFailure (CCoinsViewCache × Bool) :=
  if tx.isCoinBase then .ok (view, true)
  else if man.scriptExecutionCached tx flags then .ok (view, true)
  else
    match accessCoins view tx.vin with
    | none => .error .aborted
    | some (view, coins) =>
      let spentOutputs := coins.map Coin.out
      let inputs := List.range tx.vin.length
      if man.parallelScriptChecks then
        .ok (view, inputs.all fun i => man.scriptCheck tx i spentOutputs flags = none)
      else
        match checkScriptsInline man tx spentOutputs flags inputs with
        | .error e => .error e
        | .ok () => .ok (view, true)

/-- The loop of `UpdateCoins` over the inputs, with the undo data. -/
def spendInputs : CCoinsViewCache → List CTxIn → Option (CCoinsViewCache × List Coin)
  | view, [] => some (view, [])
  | view, txin :: vin =>
    match view.spendCoin txin.prevout with
    | (_, none) => none
    | (view, some coin) => do
      let (view, txundo) ← spendInputs view vin
      some (view, coin :: txundo)

def updateCoins (hash : Bytes → Uint256) (tx : CTransaction) (view : CCoinsViewCache)
    (nHeight : Nat) : Option (CCoinsViewCache × List Coin) := do
  let (view, txundo) ← if tx.isCoinBase then some (view, []) else spendInputs view tx.vin
  let view ← view.addCoins hash tx nHeight false
  some (view, txundo)

/-- The variables of the loop of `ConnectBlock`. `checksPass` is whether the
script check queue will pass what it holds. -/
structure ConnectState where
  view : CCoinsViewCache
  nFees : CAmount
  nSigOpsCost : Nat
  vtxundo : List (List Coin)
  checksPass : Bool

/-- What `AccessCoin` says of the heights of the coins that are spent. -/
def prevHeights (view : CCoinsViewCache) : List CTxIn → CCoinsViewCache × List Int
  | [] => (view, [])
  | txin :: vin =>
    let (view, coin) := view.accessCoin txin.prevout
    let (view, heights) := prevHeights view vin
    (view, (coin.nHeight : Int) :: heights)

/-- The first part of the loop body of `ConnectBlock`: inputs, fees and relative
lock times, unless it is the coinbase. -/
def connectInputs (tx : CTransaction) (s : ConnectState) : Except BlockFailure ConnectState :=
  if tx.isCoinBase then .ok s
  else do
    let (view, txfee) ← (checkTxInputs tx s.view pindex.nHeight).mapError TxFailure.toBlock
    let nFees := s.nFees + txfee
    invalidIf (!moneyRange nFees) .consensus "bad-txns-accumulated-fee-outofrange"
    let (view, heights) := prevHeights view tx.vin
    let final ← orAbort (sequenceLocks tx (deploymentActiveAt pindex man.params.consensus.csvHeight)
      heights pindex)
    invalidIf (!final) .consensus "bad-txns-nonfinal"
    .ok { s with view := view, nFees := nFees }

def connectScripts (tx : CTransaction) (s : ConnectState) : Except BlockFailure ConnectState :=
  if !tx.isCoinBase && man.fScriptChecks pindex then do
    let (view, pass) ← (checkInputScripts man tx s.view (getBlockScriptFlags man pindex)).mapError
      TxFailure.toBlock
    .ok { s with view := view, checksPass := s.checksPass && pass }
  else .ok s

def connectTx (i : Nat) (tx : CTransaction) (s : ConnectState) :
    Except BlockFailure ConnectState := do
  let s ← connectInputs man pindex tx s
  let (view, cost) ← orAbort (getTransactionSigOpCost tx s.view (getBlockScriptFlags man pindex))
  let nSigOpsCost := s.nSigOpsCost + cost
  invalidIf (nSigOpsCost > maxBlockSigopsCost) .consensus "bad-blk-sigops"
  let s := { s with view := view, nSigOpsCost := nSigOpsCost }
  let s ← connectScripts man pindex tx s
  let (view, txundo) ← orAbort (updateCoins man.hash tx s.view pindex.nHeight)
  .ok { s with view := view, vtxundo := if i > 0 then s.vtxundo ++ [txundo] else s.vtxundo }

/-- The loop of `ConnectBlock` from the transaction `i` on. -/
def connectTxs (man : ChainstateManager) (pindex : CBlockIndex) :
    Nat → List CTransaction → ConnectState → Except BlockFailure ConnectState
  | _, [], s => .ok s
  | i, tx :: vtx, s => do
    let s ← connectTx man pindex i tx s
    connectTxs man pindex (i + 1) vtx s

/-! ## The coinbase -/

def checkCoinbaseAmount (params : CChainParams) (nHeight : Nat) (nFees : CAmount)
    (coinbase : CTransaction) : Except BlockFailure Unit := do
  let blockReward := nFees + getBlockSubsidy nHeight params.consensus
  let valueOut ← orAbort coinbase.getValueOut
  invalidIf (valueOut > blockReward) .consensus "bad-cb-amount"

def checkFounderReward (hash : Bytes → Uint256) (params : CChainParams) (nHeight : Nat)
    (coinbase : CTransaction) : Except BlockFailure Unit :=
  let expectedFounderReward := getFounderRewardForBlock nHeight params.consensus
  if expectedFounderReward > 0 then do
    let founderDest ← orAbort (founderDestination hash params)
    invalidIf (!isValidDestination founderDest) .consensus "bad-cb-founder-config"
    let founderScript := getScriptForDestination founderDest
    invalidIf (!(coinbase.vout.any fun output =>
      output.scriptPubKey = founderScript && output.nValue ≥ expectedFounderReward)) .consensus
      "bad-cb-founder-reward"
  else .ok ()

/-! ## The block -/

/-- `CheckBlock` as `ConnectBlock` calls it: a mutated block is a hardware problem. -/
def recheckBlock (fJustCheck : Bool) : Except BlockFailure Unit :=
  match checkBlock man block (!fJustCheck) (!fJustCheck) with
  | .error (.invalid .mutated _) =>
    .error (.fatalError "Corrupt block found indicating potential hardware failure; shutting down")
  | r => r

/-- `Chainstate::ConnectBlock`: the view and the undo data of the block. -/
def connectBlock (pindex : CBlockIndex) (view : CCoinsViewCache)
    (fJustCheck : Bool) : Except BlockFailure (CCoinsViewCache × List (List Coin)) := do
  let blockHash := block.getHash man.hashX16RV2
  assertThat (pindex.getBlockHash man.hashX16RV2 = blockHash)
  recheckBlock man block fJustCheck
  assertThat ((pindex.pprev.elim nullUint256 fun p => p.getBlockHash man.hashX16RV2) =
    view.getBestBlock)
  if blockHash = man.params.consensus.hashGenesisBlock then
    .ok (if fJustCheck then view else view.setBestBlock blockHash, [])
  else do
    let pprev ← orAbort pindex.pprev
    let view ← checkBIP30 man block pindex pprev view
    let s ← connectTxs man pindex 0 block.vtx ⟨view, 0, 0, [], true⟩
    let coinbase ← orAbort block.vtx.head?
    checkCoinbaseAmount man.params pindex.nHeight s.nFees coinbase
    checkFounderReward man.hash man.params pindex.nHeight coinbase
    invalidIf (!s.checksPass) .consensus "block-validation-failed"
    if fJustCheck then .ok (s.view, s.vtxundo)
    else if !man.writeUndoDataForBlock then .error (.fatalError "Failed to write undo data")
    else .ok (s.view.setBestBlock blockHash, s.vtxundo)

def constantManager : ChainstateManager where
  params := mainParams
  hash _ := nullUint256
  hashX16RV2 _ _ := nullUint256
  scriptCheck _ _ _ _ := none
  scriptExecutionCached _ _ := false
  checkSignetBlockSolution _ := true
  fScriptChecks _ := true
  parallelScriptChecks := false
  writeUndoDataForBlock := true

/-! ## What passing means -/

namespace ConnectBlockLemmas

theorem invalidIf_ok {cond : Bool} {result : BlockValidationResult} {reason : String} {u : Unit} :
    invalidIf cond result reason = .ok u ↔ cond = false := by
  cases cond with
  | true => exact ⟨fun h => (by cases h), fun h => (by cases h)⟩
  | false => exact ⟨fun _ => rfl, fun _ => rfl⟩

theorem orAbort_ok {α : Type} {o : Option α} {a : α} : orAbort o = .ok a ↔ o = some a := by
  cases o with
  | none => exact ⟨fun h => (by cases h), fun h => (by cases h)⟩
  | some a' => rw [orAbort, Except.ok.injEq, Option.some.injEq]

end ConnectBlockLemmas

open ExceptBind ConnectBlockLemmas

variable {coinbase : CTransaction} {params : CChainParams} {nHeight : Nat}

theorem checkCoinbaseAmount_ok {nFees : CAmount} :
    checkCoinbaseAmount params nHeight nFees coinbase = .ok () ↔
      ∃ valueOut, coinbase.getValueOut = some valueOut ∧
        valueOut ≤ nFees + getBlockSubsidy nHeight params.consensus := by
  simp [checkCoinbaseAmount, bind_ok, orAbort_ok, invalidIf_ok]

theorem checkFounderReward_ok {hash : Bytes → Uint256} :
    checkFounderReward hash params nHeight coinbase = .ok () ↔
      (0 < getFounderRewardForBlock nHeight params.consensus → ∃ founderDest,
        founderDestination hash params = some founderDest ∧ isValidDestination founderDest = true ∧
        ∃ output ∈ coinbase.vout, output.scriptPubKey = getScriptForDestination founderDest ∧
          getFounderRewardForBlock nHeight params.consensus ≤ output.nValue) := by
  unfold checkFounderReward
  dsimp only
  split
  · next hpos =>
    simp [bind_ok, orAbort_ok, invalidIf_ok, forall_prop_of_true hpos]
  · next hpos => exact ⟨fun _ h => absurd h hpos, fun _ => rfl⟩

end Bitcoboost
