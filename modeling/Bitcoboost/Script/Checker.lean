import Bitcoboost.Script.Interpreter

/-!
# Signature checkers of a transaction

`GenericTransactionSignatureChecker` of `script/interpreter.cpp`: the checks of ECDSA, Schnorr and
hybrid signatures and of lock times, for one input of a transaction.
-/

namespace Bitcoboost

structure TransactionSignatureChecker where
  crypto : Crypto
  txTo : CTransaction
  nIn : Nat
  amount : CAmount
  txdata : Option PrecomputedTransactionData
  mdb : MissingDataBehavior

namespace TransactionSignatureChecker

variable (checker : TransactionSignatureChecker)

def checkECDSASignature (vchSigIn vchPubKey : Bytes) (scriptCode : CScript)
    (sigversion : SigVersion) : ScriptResult Bool :=
  let pubkey := CPubKey.set vchPubKey
  if !pubkey.isValid then .ok false
  else
    match vchSigIn.getLast? with
    | none => .ok false
    | some nHashType =>
      if sigversion = .witnessV0 ∧ checker.amount < 0 then orAssert (handleMissingData checker.mdb)
      else do
        let sighash ← orAssert (signatureHash checker.crypto scriptCode checker.txTo checker.nIn
          nHashType checker.amount sigversion checker.txdata)
        .ok (pubkey.verify checker.crypto sighash vchSigIn.dropLast)

/-- The context of the ML-DSA signatures. -/
def hybridContext : Bytes := Bytes.ofString "BitcoBoost-bb1z-v2"

/-- The two signature checks of `CheckHybridSignature`. -/
def verifyHybridSignatures (crypto : Crypto) (sighash : Uint256)
    (ecdsaSig ecdsaPub mldsaSig mldsaPub : Bytes) : Bool :=
  let epk := CPubKey.set ecdsaPub
  if ecdsaSig.getLast? ≠ some sighashAll then false
  else if !epk.isValid then false
  else if !epk.verify crypto sighash ecdsaSig.dropLast then false
  else crypto.mldsa44VerifyCtx mldsaSig sighash.data hybridContext mldsaPub

def checkHybridSignature (ecdsaSig ecdsaPub mldsaSig mldsaPub program : Bytes) :
    ScriptResult Bool :=
  if ecdsaPub.length ≠ 33 then .ok false
  else if mldsaPub.length ≠ 1312 then .ok false
  else if program.length ≠ 32 then .ok false
  else if (checker.crypto.shake256 (ecdsaPub ++ mldsaPub)).data ≠ program then .ok false
  else if checker.amount < 0 then orAssert (handleMissingData checker.mdb)
  else do
    let scriptCode := [OpcodeType.op2.toByte] ++ pushData program
    let sighash ← orAssert (signatureHash checker.crypto scriptCode checker.txTo checker.nIn
      sighashAll checker.amount .witnessV0 checker.txdata)
    .ok (verifyHybridSignatures checker.crypto sighash ecdsaSig ecdsaPub mldsaSig mldsaPub)

/-- `CheckSchnorrSignature`. Where data is missing it returns false and leaves the
error as it was, which is unknown here. -/
def checkSchnorrSignature (sig pubkeyIn : Bytes) (sigversion : SigVersion)
    (execdata : ScriptExecutionData) : ScriptResult ScriptExecutionData :=
  if (sigversion ≠ .taproot ∧ sigversion ≠ .tapscript) ∨ pubkeyIn.length ≠ 32 then .error .aborted
  else if sig.length ≠ 64 ∧ sig.length ≠ 65 then setError .schnorrSigSize
  else
    let hashtype := if sig.length = 65 then sig.getLastD 0 else sighashDefault
    let sig64 := sig.take 64
    if sig.length = 65 ∧ hashtype = sighashDefault then setError .schnorrSigHashtype
    else
      match checker.txdata with
      | none => do
        let _ ← orAssert (handleMissingData checker.mdb)
        setError .unknownError
      | some txdata => do
        match ← orAssert (signatureHashSchnorr checker.crypto execdata checker.txTo checker.nIn
          hashtype sigversion txdata checker.mdb) with
        | none => setError .schnorrSigHashtype
        | some (sighash, execdata) =>
          if !XOnlyPubKey.verifySchnorr checker.crypto pubkeyIn sighash sig64 then
            setError .schnorrSig
          else .ok execdata

/-- The sequence number of the input. -/
def nSequence : BitVec 32 := (checker.txTo.vin[checker.nIn]?).elim 0#32 CTxIn.nSequence

def checkLockTime (nLockTime : Int) : Bool :=
  let txLockTime : Int := checker.txTo.nLockTime.toNat
  ((txLockTime < locktimeThreshold ∧ nLockTime < locktimeThreshold) ∨
    (txLockTime ≥ locktimeThreshold ∧ nLockTime ≥ locktimeThreshold)) ∧
  nLockTime ≤ txLockTime ∧ checker.nSequence ≠ 0xffffffff#32

/-- `CheckSequence` of an operand that is not negative. -/
def checkSequence (nSequence : Int) : Bool :=
  let typeFlag := 1 <<< 22
  let nLockTimeMask := typeFlag ||| 0xffff
  let txToSequenceMasked := checker.nSequence.toNat &&& nLockTimeMask
  let nSequenceMasked := nSequence.toNat &&& nLockTimeMask
  checker.txTo.nVersion.toNat ≥ 2 ∧ !checker.nSequence.getLsbD 31 ∧
  ((txToSequenceMasked < typeFlag ∧ nSequenceMasked < typeFlag) ∨
    (txToSequenceMasked ≥ typeFlag ∧ nSequenceMasked ≥ typeFlag)) ∧
  nSequenceMasked ≤ txToSequenceMasked

/-- The checker as the interpreter sees it. -/
def toChecker : SignatureChecker where
  checkECDSASignature := checker.checkECDSASignature
  checkSchnorrSignature := checker.checkSchnorrSignature
  checkHybridSignature := checker.checkHybridSignature
  checkLockTime := checker.checkLockTime
  checkSequence := checker.checkSequence

end TransactionSignatureChecker

/-! ## Hybrid signatures -/

/-- The signatures and keys of a quantum-safe spend are right for the message hash
and the program. -/
structure HybridSigned (crypto : Crypto) (sighash : Uint256)
    (program esig epk msig mpk : Bytes) : Prop where
  length_epk : epk.length = 33
  length_mpk : mpk.length = 1312
  commitment : (crypto.shake256 (epk ++ mpk)).data = program
  hashType : esig.getLast? = some sighashAll
  validKey : (CPubKey.set epk).isValid = true
  ecdsa : (CPubKey.set epk).verify crypto sighash esig.dropLast = true
  mldsa : crypto.mldsa44VerifyCtx msig sighash.data TransactionSignatureChecker.hybridContext mpk =
    true

namespace CheckerLemmas

theorem ite_ok_true {c : Prop} [Decidable c] {x : ScriptResult Bool} :
    (if c then .ok false else x) = .ok true ↔ ¬ c ∧ x = .ok true := by
  by_cases hc : c
  · rw [if_pos hc]
    exact ⟨fun h => (by cases h), fun h => absurd hc h.1⟩
  · rw [if_neg hc]
    exact ⟨fun h => ⟨hc, h⟩, fun h => h.2⟩

theorem verifyHybridSignatures_iff {crypto : Crypto} {sighash : Uint256}
    {esig epk msig mpk : Bytes} :
    TransactionSignatureChecker.verifyHybridSignatures crypto sighash esig epk msig mpk = true ↔
      esig.getLast? = some sighashAll ∧ (CPubKey.set epk).isValid = true ∧
      (CPubKey.set epk).verify crypto sighash esig.dropLast = true ∧
      crypto.mldsa44VerifyCtx msig sighash.data TransactionSignatureChecker.hybridContext mpk =
        true := by
  simp [TransactionSignatureChecker.verifyHybridSignatures]

end CheckerLemmas

open CheckerLemmas ExceptBind

variable {checker : TransactionSignatureChecker} {esig epk msig mpk program : Bytes}

/-- `CheckHybridSignature` accepts the signatures and keys that are right for the
message hash of its input. -/
theorem checkHybridSignature_iff :
    checker.checkHybridSignature esig epk msig mpk program = .ok true ↔
      program.length = 32 ∧ 0 ≤ checker.amount ∧ ∃ sighash,
        signatureHash checker.crypto ([OpcodeType.op2.toByte] ++ pushData program) checker.txTo
          checker.nIn sighashAll checker.amount .witnessV0 checker.txdata = some sighash ∧
        HybridSigned checker.crypto sighash program esig epk msig mpk := by
  unfold TransactionSignatureChecker.checkHybridSignature
  simp only [ite_ok_true, not_not]
  constructor
  · rintro ⟨hepk, hmpk, hprogram, hcommit, h⟩
    split at h
    · -- no message hash without an amount
      cases hmdb : checker.mdb with
      | assertFail => rw [hmdb] at h; cases h
      | fail => rw [hmdb] at h; cases h
    · next hamount =>
      obtain ⟨sighash, hsighash, hsigs⟩ := bind_ok.mp h
      obtain ⟨htype, hvalid, hecdsa, hmldsa⟩ := verifyHybridSignatures_iff.mp (Except.ok.inj hsigs)
      exact ⟨hprogram, Int.not_lt.mp hamount, sighash, orAssert_ok.mp hsighash,
        hepk, hmpk, hcommit, htype, hvalid, hecdsa, hmldsa⟩
  · rintro ⟨hprogram, hamount, sighash, hsighash, h⟩
    have hsigs := verifyHybridSignatures_iff.mpr ⟨h.hashType, h.validKey, h.ecdsa, h.mldsa⟩
    refine ⟨h.length_epk, h.length_mpk, hprogram, h.commitment, ?_⟩
    rw [if_neg (Int.not_lt.mpr hamount)]
    exact bind_ok.mpr ⟨sighash, orAssert_ok.mpr hsighash, congrArg Except.ok hsigs⟩

/-- The message hash is that of BIP143, whether or not it comes from precomputed data. -/
theorem checkHybridSignature_ok {txin : CTxIn} (htxin : checker.txTo.vin[checker.nIn]? = some txin)
    (hamount : 0 ≤ checker.amount)
    (hdata : PrecomputedFor checker.crypto checker.txTo checker.txdata)
    (hprogram : program.length = 32) :
    checker.checkHybridSignature esig epk msig mpk program = .ok true ↔
      HybridSigned checker.crypto
        (bip143SighashAll checker.crypto ([OpcodeType.op2.toByte] ++ pushData program) checker.txTo
          txin checker.amount)
        program esig epk msig mpk := by
  simp [checkHybridSignature_iff, signatureHash_bip143 htxin hdata, hprogram, hamount]

end Bitcoboost
