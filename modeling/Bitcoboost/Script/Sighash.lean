import Bitcoboost.Crypto.PubKey
import Bitcoboost.Primitives.Transaction

/-!
# Signature hashes

`SignatureHash` and `SignatureHashSchnorr` of `script/interpreter.cpp` with the precomputed data
of a transaction. `none` is a failed assertion. A cache of the same transaction does not change
the hash of a witness script with `SIGHASH_ALL` (`signatureHash_bip143`).
-/

namespace Bitcoboost

open Option

inductive SigVersion where
  | base
  | witnessV0
  | taproot
  | tapscript
deriving DecidableEq, Repr

def sighashDefault : UInt8 := 0

def sighashAll : UInt8 := 1

def sighashNone : UInt8 := 2

def sighashSingle : UInt8 := 3

/-- `SIGHASH_ANYONECANPAY`, which is also `SIGHASH_INPUT_MASK`. -/
def sighashAnyonecanpay : UInt8 := 0x80

def sighashOutputMask : UInt8 := 3

def fAnyoneCanPay (nHashType : UInt8) : Bool := nHashType &&& sighashAnyonecanpay ≠ 0

/-- Whether the hash type is `SIGHASH_SINGLE`. -/
def fHashSingle (nHashType : UInt8) : Bool := nHashType &&& 0x1f = sighashSingle

/-- Whether the hash type is `SIGHASH_NONE`. -/
def fHashNone (nHashType : UInt8) : Bool := nHashType &&& 0x1f = sighashNone

/-! ## Legacy hashes -/

/-- Where a failed `GetScriptOp` leaves its position: after the opcode, or after the
size of an operand that is not there. -/
def failedScriptOp : Bytes → Bytes
  | [] => []
  | opcode :: pc =>
    match pushSize opcode pc with
    | some (_, pc) => pc
    | none => pc

/-- The two loops of `SerializeScriptCode`: what is written and how many
`OP_CODESEPARATOR` are left out. A script of `n` bytes has at most `n` operations. -/
def dropCodeSeparators : Nat → Bytes → Bytes × Nat
  | 0, _ => ([], 0)
  | fuel + 1, pc =>
    match getScriptOp pc with
    | none => (pc.take (pc.length - (failedScriptOp pc).length), 0)
    | some (opcode, _, rest) =>
      let (written, nCodeSeparators) := dropCodeSeparators fuel rest
      if opcode = OpcodeType.opCodeseparator.toByte then (written, nCodeSeparators + 1)
      else (pc.take (pc.length - rest.length) ++ written, nCodeSeparators)

def serializeScriptCode (scriptCode : CScript) : Bytes :=
  let (written, nCodeSeparators) := dropCodeSeparators (scriptCode.length + 1) scriptCode
  writeCompactSize (scriptCode.length - nCodeSeparators) ++ written

/-- `SerializeInput` of the input with the index `nInput`. -/
def serializeSignatureInput (scriptCode : CScript) (nIn : Nat) (nHashType : UInt8) (txin : CTxIn)
    (nInput : Nat) : Bytes :=
  txin.prevout.serialize
    ++ (if nInput ≠ nIn then serializeBytes [] else serializeScriptCode scriptCode)
    ++ serializeUint32 (if nInput ≠ nIn ∧ (fHashSingle nHashType ∨ fHashNone nHashType) then 0#32
      else txin.nSequence)

/-- The inputs that are serialized, with their indices. -/
def signatureInputs (tx : CTransaction) (nIn : Nat) (nHashType : UInt8) : List (CTxIn × Nat) :=
  if fAnyoneCanPay nHashType then tx.vin.zipIdx.filter fun (_, nInput) => nInput = nIn
  else tx.vin.zipIdx

def signatureOutputs (tx : CTransaction) (nIn : Nat) (nHashType : UInt8) : List CTxOut :=
  if fHashNone nHashType then []
  else if fHashSingle nHashType then List.replicate nIn CTxOut.null ++ (tx.vout.drop nIn).take 1
  else tx.vout

/-- `Serialize` of a `CTransactionSignatureSerializer`. -/
def serializeForSignature (tx : CTransaction) (scriptCode : CScript) (nIn : Nat)
    (nHashType : UInt8) : Bytes :=
  serializeUint32 tx.nVersion
    ++ serializeVector (fun (txin, nInput) =>
        serializeSignatureInput scriptCode nIn nHashType txin nInput)
        (signatureInputs tx nIn nHashType)
    ++ serializeVector CTxOut.serialize (signatureOutputs tx nIn nHashType)
    ++ serializeUint32 tx.nLockTime

/-! ## Precomputed data -/

section Precomputed

variable (crypto : Crypto)

def getPrevoutsSHA256 (tx : CTransaction) : Uint256 :=
  crypto.sha256 (tx.vin.flatMap fun txin => txin.prevout.serialize)

def getSequencesSHA256 (tx : CTransaction) : Uint256 :=
  crypto.sha256 (tx.vin.flatMap fun txin => serializeUint32 txin.nSequence)

def getOutputsSHA256 (tx : CTransaction) : Uint256 :=
  crypto.sha256 (tx.vout.flatMap CTxOut.serialize)

def getSpentAmountsSHA256 (outputsSpent : List CTxOut) : Uint256 :=
  crypto.sha256 (outputsSpent.flatMap fun out => serializeInt64 out.nValue)

def getSpentScriptsSHA256 (outputsSpent : List CTxOut) : Uint256 :=
  crypto.sha256 (outputsSpent.flatMap fun out => serializeBytes out.scriptPubKey)

def sha256Uint256 (input : Uint256) : Uint256 := crypto.sha256 input.data

structure PrecomputedTransactionData where
  prevoutsSingleHash : Uint256 := nullUint256
  sequencesSingleHash : Uint256 := nullUint256
  outputsSingleHash : Uint256 := nullUint256
  spentAmountsSingleHash : Uint256 := nullUint256
  spentScriptsSingleHash : Uint256 := nullUint256
  bip341TaprootReady : Bool := false
  hashPrevouts : Uint256 := nullUint256
  hashSequence : Uint256 := nullUint256
  hashOutputs : Uint256 := nullUint256
  bip143SegwitReady : Bool := false
  spentOutputs : List CTxOut := []
  spentOutputsReady : Bool := false

/-- Whether a spent output looks like Taproot to `Init`. -/
def spendsTaproot (spentOutput : Option CTxOut) : Bool :=
  spentOutput.any fun out =>
    out.scriptPubKey.length = 34 && out.scriptPubKey.head? = some OpcodeType.op1.toByte

/-- The loop of `Init` over the inputs: whether it needs the BIP143 and the BIP341
data. `spentOutputs` are `none` if they were not given. -/
def usesFeatures (spentOutputs : Option (List CTxOut)) (tx : CTransaction) (force : Bool) :
    Bool × Bool :=
  let withWitness := tx.vin.zipIdx.filter fun (txin, _) => !txin.scriptWitness.isEmpty
  let taproot := withWitness.map fun (_, inpos) =>
    spendsTaproot (spentOutputs.bind fun outs => outs[inpos]?)
  (force || taproot.any (!·), force || taproot.any id)

def PrecomputedTransactionData.init (tx : CTransaction) (spentOutputs : List CTxOut)
    (force : Bool) : Option PrecomputedTransactionData :=
  if !spentOutputs.isEmpty && spentOutputs.length ≠ tx.vin.length then none
  else
    let spentOutputsReady := !spentOutputs.isEmpty
    let (usesBip143Segwit, usesBip341Taproot) :=
      usesFeatures (if spentOutputsReady then some spentOutputs else none) tx force
    let either (h : Uint256) := if usesBip143Segwit || usesBip341Taproot then h else nullUint256
    let bip143 (h : Uint256) := if usesBip143Segwit then sha256Uint256 crypto h else nullUint256
    let taprootReady := usesBip341Taproot && spentOutputsReady
    some {
      prevoutsSingleHash := either (getPrevoutsSHA256 crypto tx)
      sequencesSingleHash := either (getSequencesSHA256 crypto tx)
      outputsSingleHash := either (getOutputsSHA256 crypto tx)
      hashPrevouts := bip143 (getPrevoutsSHA256 crypto tx)
      hashSequence := bip143 (getSequencesSHA256 crypto tx)
      hashOutputs := bip143 (getOutputsSHA256 crypto tx)
      bip143SegwitReady := usesBip143Segwit
      spentAmountsSingleHash :=
        if taprootReady then getSpentAmountsSHA256 crypto spentOutputs else nullUint256
      spentScriptsSingleHash :=
        if taprootReady then getSpentScriptsSHA256 crypto spentOutputs else nullUint256
      bip341TaprootReady := taprootReady
      spentOutputs
      spentOutputsReady }

end Precomputed

/-! ## Hashes for ECDSA -/

section SignatureHash

variable (crypto : Crypto)

def witnessSignatureHash (scriptCode : CScript) (tx : CTransaction) (nIn : Nat) (txin : CTxIn)
    (nHashType : UInt8) (amount : CAmount) (cache : Option PrecomputedTransactionData) : Uint256 :=
  let ready := cache.filter PrecomputedTransactionData.bip143SegwitReady
  let hashPrevouts :=
    if !fAnyoneCanPay nHashType then
      ready.elim (sha256Uint256 crypto (getPrevoutsSHA256 crypto tx))
        PrecomputedTransactionData.hashPrevouts
    else nullUint256
  let hashSequence :=
    if !fAnyoneCanPay nHashType && !fHashSingle nHashType && !fHashNone nHashType then
      ready.elim (sha256Uint256 crypto (getSequencesSHA256 crypto tx))
        PrecomputedTransactionData.hashSequence
    else nullUint256
  let hashOutputs :=
    if !fHashSingle nHashType && !fHashNone nHashType then
      ready.elim (sha256Uint256 crypto (getOutputsSHA256 crypto tx))
        PrecomputedTransactionData.hashOutputs
    else if fHashSingle nHashType then
      (tx.vout[nIn]?).elim nullUint256 fun out => crypto.hash256 out.serialize
    else nullUint256
  crypto.hash256 (serializeUint32 tx.nVersion ++ hashPrevouts.data ++ hashSequence.data
    ++ txin.prevout.serialize ++ serializeBytes scriptCode ++ serializeInt64 amount
    ++ serializeUint32 txin.nSequence ++ hashOutputs.data ++ serializeUint32 tx.nLockTime
    ++ leBytes 4 nHashType.toNat)

def signatureHash (scriptCode : CScript) (tx : CTransaction) (nIn : Nat) (nHashType : UInt8)
    (amount : CAmount) (sigversion : SigVersion) (cache : Option PrecomputedTransactionData) :
    Option Uint256 := do
  let txin ← tx.vin[nIn]?
  some (
    if sigversion = .witnessV0 then
      witnessSignatureHash crypto scriptCode tx nIn txin nHashType amount cache
    else if fHashSingle nHashType ∧ nIn ≥ tx.vout.length then uint256S 1
    else crypto.hash256
      (serializeForSignature tx scriptCode nIn nHashType ++ leBytes 4 nHashType.toNat))

/-- The BIP143 hash with `SIGHASH_ALL`, written out: the input `txin` of `tx` spends
`amount` under `scriptCode`. -/
def bip143SighashAll (scriptCode : CScript) (tx : CTransaction) (txin : CTxIn)
    (amount : CAmount) : Uint256 :=
  crypto.hash256 (serializeUint32 tx.nVersion
    ++ (crypto.hash256 (tx.vin.flatMap fun txin => txin.prevout.serialize)).data
    ++ (crypto.hash256 (tx.vin.flatMap fun txin => serializeUint32 txin.nSequence)).data
    ++ txin.prevout.serialize ++ serializeBytes scriptCode ++ serializeInt64 amount ++
    serializeUint32 txin.nSequence ++ (crypto.hash256 (tx.vout.flatMap CTxOut.serialize)).data
    ++ serializeUint32 tx.nLockTime ++ leBytes 4 1)

/-- A checker's data is about the transaction: there is none, or `Init` computed it. -/
def PrecomputedFor (tx : CTransaction) (txdata : Option PrecomputedTransactionData) : Prop :=
  ∀ data ∈ txdata, ∃ spentOutputs force,
    PrecomputedTransactionData.init crypto tx spentOutputs force = some data

variable {crypto} {tx : CTransaction} {spentOutputs : List CTxOut}

theorem PrecomputedTransactionData.init_of_length (hlength : spentOutputs.length = tx.vin.length)
    (force : Bool) :
    ∃ data, PrecomputedTransactionData.init crypto tx spentOutputs force = some data := by
  unfold PrecomputedTransactionData.init
  rw [if_neg (by simp [hlength])]
  exact ⟨_, rfl⟩

/-- The BIP143 fields of data that `Init` computed are there as soon as they are
marked as ready. -/
theorem PrecomputedTransactionData.init_bip143 {force : Bool} {data : PrecomputedTransactionData}
    (h : PrecomputedTransactionData.init crypto tx spentOutputs force = some data)
    (hready : data.bip143SegwitReady = true) :
    data.hashPrevouts = sha256Uint256 crypto (getPrevoutsSHA256 crypto tx) ∧
    data.hashSequence = sha256Uint256 crypto (getSequencesSHA256 crypto tx) ∧
    data.hashOutputs = sha256Uint256 crypto (getOutputsSHA256 crypto tx) := by
  unfold PrecomputedTransactionData.init at h
  split at h
  · cases h
  · cases h
    dsimp only at hready
    simp only [hready, if_true, and_self]

/-- With data of the same transaction, or none, the hash for a witness script and
`SIGHASH_ALL` is the one of BIP143. -/
theorem signatureHash_bip143 {scriptCode : CScript} {nIn : Nat} {txin : CTxIn} {amount : CAmount}
    {txdata : Option PrecomputedTransactionData} (htxin : tx.vin[nIn]? = some txin)
    (hdata : PrecomputedFor crypto tx txdata) :
    signatureHash crypto scriptCode tx nIn sighashAll amount .witnessV0 txdata =
      some (bip143SighashAll crypto scriptCode tx txin amount) := by
  have hanyone : fAnyoneCanPay sighashAll = false := by decide
  have hsingle : fHashSingle sighashAll = false := by decide
  have hnone : fHashNone sighashAll = false := by decide
  rw [signatureHash, htxin]
  simp only [bind_eq_bind, bind_some, if_true, witnessSignatureHash, hanyone, hsingle, hnone,
    Bool.not_false, Bool.and_self]
  cases hready : txdata.filter PrecomputedTransactionData.bip143SegwitReady with
  | none => rfl
  | some data =>
    obtain ⟨hmem, hsegwit⟩ := Option.filter_eq_some_iff.mp hready
    obtain ⟨spentOutputs, force, hinit⟩ := hdata data hmem
    obtain ⟨hprevouts, hsequence, houtputs⟩ := PrecomputedTransactionData.init_bip143 hinit hsegwit
    simp only [elim_some, hprevouts, hsequence, houtputs]
    rfl

end SignatureHash

/-! ## Hashes for Schnorr signatures -/

inductive MissingDataBehavior where
  | assertFail
  | fail
deriving DecidableEq, Repr

/-- `HandleMissingData`: it fails an assertion or returns false. -/
def handleMissingData : MissingDataBehavior → Option Bool
  | .assertFail => none
  | .fail => some false

/-- `ScriptExecutionData`. Each value is there once its `init` flag is set; of the
annex, that is whether there is one, with its hash. -/
structure ScriptExecutionData where
  tapleafHash : Option Uint256 := none
  codeseparatorPos : Option Nat := none
  annex : Option (Option Uint256) := none
  validationWeightLeft : Option Int := none
  outputHash : Option Uint256 := none

section Schnorr

variable (crypto : Crypto)

def schnorrTxData (tx : CTransaction) (cache : PrecomputedTransactionData)
    (hashType : UInt8) : Bytes :=
  let outputType := if hashType = sighashDefault then sighashAll else hashType &&& sighashOutputMask
  serializeUint32 tx.nVersion ++ serializeUint32 tx.nLockTime
    ++ (if hashType &&& sighashAnyonecanpay ≠ sighashAnyonecanpay then
          cache.prevoutsSingleHash.data ++ cache.spentAmountsSingleHash.data ++
          cache.spentScriptsSingleHash.data
            ++ cache.sequencesSingleHash.data
        else [])
    ++ (if outputType = sighashAll then cache.outputsSingleHash.data else [])

def schnorrInputData (tx : CTransaction) (inPos : Nat) (cache : PrecomputedTransactionData)
    (hashType : UInt8) (annex : Option Uint256) (extFlag : Nat) : Option Bytes := do
  let txin ← tx.vin[inPos]?
  let spent ← if hashType &&& sighashAnyonecanpay = sighashAnyonecanpay then
      (cache.spentOutputs[inPos]?).map fun out =>
        txin.prevout.serialize ++ out.serialize ++ serializeUint32 txin.nSequence
    else some (leBytes 4 inPos)
  let spendType := extFlag * 2 + if annex.isSome then 1 else 0
  some (leBytes 1 spendType ++ spent ++ annex.elim [] BaseBlob.data)

/-- The hash of the output with the index of the input, kept for the next signature.
`none` if there is no such output. -/
def schnorrOutputHash (tx : CTransaction) (inPos : Nat) (execdata : ScriptExecutionData) :
    Option Uint256 :=
  if inPos ≥ tx.vout.length then none
  else execdata.outputHash <|> (tx.vout[inPos]?).map fun out => crypto.sha256 out.serialize

def schnorrScriptData (sigversion : SigVersion) (execdata : ScriptExecutionData) : Option Bytes :=
  if sigversion = .tapscript then do
    let tapleafHash ← execdata.tapleafHash
    let codeseparatorPos ← execdata.codeseparatorPos
    -- the key version is zero
    some (tapleafHash.data ++ [0] ++ leBytes 4 codeseparatorPos)
  else some []

def schnorrHash (tx : CTransaction) (cache : PrecomputedTransactionData) (hashType : UInt8)
    (inputData : Bytes) (outputHash : Option Uint256) (scriptData : Bytes) : Uint256 :=
  -- the first byte is the epoch
  crypto.taggedHash "TapSighash" ([0, hashType] ++ schnorrTxData tx cache hashType ++ inputData
    ++ outputHash.elim [] BaseBlob.data ++ scriptData)

/-- `SignatureHashSchnorr`: the hash and the execution data, or `some none` where it
returns false. -/
def signatureHashSchnorr (execdata : ScriptExecutionData) (tx : CTransaction) (inPos : Nat)
    (hashType : UInt8)
    (sigversion : SigVersion) (cache : PrecomputedTransactionData) (mdb : MissingDataBehavior) :
    Option (Option (Uint256 × ScriptExecutionData)) :=
  if sigversion ≠ .taproot ∧ sigversion ≠ .tapscript then none
  else if inPos ≥ tx.vin.length then none
  else if !(cache.bip341TaprootReady && cache.spentOutputsReady) then (handleMissingData mdb).map
    fun _ => none
  else if !(hashType ≤ 3 || (hashType ≥ 0x81 && hashType ≤ 0x83)) then some none
  else do
    let annex ← execdata.annex
    let inputData ← schnorrInputData tx inPos cache hashType annex
      (if sigversion = .tapscript then 1 else 0)
    let fSingle := hashType ≠ sighashDefault ∧ hashType &&& sighashOutputMask = sighashSingle
    match if fSingle then (schnorrOutputHash crypto tx inPos execdata).map some else some none with
    | none => some none
    | some outputHash =>
      let scriptData ← schnorrScriptData sigversion execdata
      some (some (schnorrHash crypto tx cache hashType inputData outputHash scriptData,
        { execdata with outputHash := outputHash <|> execdata.outputHash }))

end Schnorr

end Bitcoboost
