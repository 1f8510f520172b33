import Bitcoboost.Script.Checker

/-!
# Verifying a script

`VerifyScript` of `script/interpreter.cpp` with the witness programs of version 0,
Taproot and the quantum-safe version 2. The witness stack is in the order of the
source, its last element on top.
-/

namespace Bitcoboost

/-! ## Witness scripts -/

/-- The search of `ExecuteWitnessScript` for an `OP_SUCCESSx`: whether there is one. -/
def scanOpSuccess (ctx : EvalContext) : Nat → CScript → ScriptResult Bool
  | 0, _ => .ok false
  | fuel + 1, pc =>
    if pc.isEmpty then .ok false
    else
      match getScriptOp pc with
      | none => setError .badOpcode
      | some (opcode, _, rest) =>
        if isOpSuccess opcode then
          if ctx.has .discourageOpSuccess then setError .discourageOpSuccess else .ok true
        else scanOpSuccess ctx fuel rest

/-- `if (stack.empty() || !CastToBool(stack.back()))`, with the error for both. -/
def requireTrue : List Bytes → ScriptResult Unit
  | [] => setError .evalFalse
  | top :: _ => errorIf (!castToBool top) .evalFalse

variable (ctx : EvalContext)

/-- `ExecuteWitnessScript` after the search for `OP_SUCCESSx`. -/
def runWitnessScript (stack : List Bytes) (execScript : CScript) (execdata : ScriptExecutionData) :
    ScriptResult Unit := do
  errorIf (ctx.sigversion = .tapscript ∧ stack.length > maxStackSize) .stackSize
  errorIf (stack.any fun elem => elem.length > maxScriptElementSize) .pushSize
  let (stack, _) ← evalScript ctx stack.reverse execScript execdata
  errorIf (stack.length ≠ 1) .cleanstack
  requireTrue stack

def executeWitnessScript (stack : List Bytes) (execScript : CScript)
    (execdata : ScriptExecutionData) : ScriptResult Unit :=
  if ctx.sigversion = .tapscript then do
    let success ← scanOpSuccess ctx execScript.length execScript
    if success then .ok () else runWitnessScript ctx stack execScript execdata
  else runWitnessScript ctx stack execScript execdata

/-! ## Taproot -/

def taprootLeafMask : UInt8 := 0xfe

def taprootLeafTapscript : UInt8 := 0xc0

def taprootControlBaseSize : Nat := 33

def taprootControlNodeSize : Nat := 32

def taprootControlMaxSize : Nat := taprootControlBaseSize + taprootControlNodeSize * 128

def annexTag : UInt8 := 0x50

def validationWeightOffset : Nat := 50

variable (crypto : Crypto)

def computeTapleafHash (leafVersion : UInt8) (script : Bytes) : Uint256 :=
  crypto.taggedHash "TapLeaf" (leafVersion :: serializeBytes script)

def computeTapbranchHash (a b : Bytes) : Uint256 :=
  crypto.taggedHash "TapBranch" (if a < b then a ++ b else b ++ a)

def computeTaprootMerkleRoot (control : Bytes) (tapleafHash : Uint256) : Uint256 :=
  let pathLen := (control.length - taprootControlBaseSize) / taprootControlNodeSize
  (List.range pathLen).foldl (fun k i => computeTapbranchHash crypto k.data
    ((control.drop (taprootControlBaseSize + taprootControlNodeSize * i)).take
    taprootControlNodeSize)) tapleafHash

def verifyTaprootCommitment (control program : Bytes) (tapleafHash : Uint256) : Bool :=
  let p := (control.drop 1).take (taprootControlBaseSize - 1)
  XOnlyPubKey.checkTapTweak crypto program p (computeTaprootMerkleRoot crypto control tapleafHash)
    (control.headD 0 &&& 1 = 1)

variable (witness : CScriptWitness)

/-- The script path of Taproot. `stack` is the witness without annex, control block
and script. -/
def verifyTaprootScript (stack : List Bytes) (script control program : Bytes)
    (execdata : ScriptExecutionData) : ScriptResult Unit :=
  if control.length < taprootControlBaseSize ∨ control.length > taprootControlMaxSize ∨
      (control.length - taprootControlBaseSize) % taprootControlNodeSize ≠ 0 then
    setError .taprootWrongControlSize
  else
    let leafVersion := control.headD 0 &&& taprootLeafMask
    let tapleafHash := computeTapleafHash ctx.crypto leafVersion script
    if !verifyTaprootCommitment ctx.crypto control program tapleafHash then
      setError .witnessProgramMismatch
    else if leafVersion = taprootLeafTapscript then
      let weight := (serializeVector serializeBytes witness).length + validationWeightOffset
      executeWitnessScript { ctx with sigversion := .tapscript } stack script
        { execdata with tapleafHash := some tapleafHash, validationWeightLeft := some weight }
    else errorIf (ctx.has .discourageUpgradableTaprootVersion) .discourageUpgradableTaprootVersion

/-- The annex of a Taproot witness: the witness without it, and its hash. -/
def dropAnnex (stack : List Bytes) : List Bytes × Option Uint256 :=
  match stack.reverse with
  | annex :: x :: rest =>
    if annex.head? = some annexTag then
      ((x :: rest).reverse, some (crypto.sha256 (serializeBytes annex)))
    else (stack, none)
  | _ => (stack, none)

def verifyTaproot (program : Bytes) : ScriptResult Unit :=
  if !ctx.has .taproot then .ok ()
  else
    let (stack, annexHash) := dropAnnex ctx.crypto witness
    let execdata : ScriptExecutionData := { annex := some annexHash }
    match stack.reverse with
    | [] => setError .witnessProgramWitnessEmpty
    | [sig] => do
      let _ ← ctx.checker.checkSchnorrSignature sig program .taproot execdata
      .ok ()
    | control :: script :: rest =>
        verifyTaprootScript ctx witness rest.reverse script control program execdata

/-! ## Witness programs -/

/-- The version 0 part of `VerifyWitnessProgram`. -/
def verifyWitnessV0 (program : Bytes) : ScriptResult Unit :=
  let ctx := { ctx with sigversion := .witnessV0 }
  if program.length = 32 then
    match witness.reverse with
    | [] => setError .witnessProgramWitnessEmpty
    | execScript :: rest =>
      if (ctx.crypto.sha256 execScript).data ≠ program then setError .witnessProgramMismatch
      else executeWitnessScript ctx rest.reverse execScript {}
  else if program.length = 20 then
    if witness.length ≠ 2 then setError .witnessProgramMismatch
    else
      let execScript := [OpcodeType.opDup.toByte, OpcodeType.opHash160.toByte] ++ pushData program
        ++ [OpcodeType.opEqualverify.toByte, OpcodeType.opChecksig.toByte]
      executeWitnessScript ctx witness execScript {}
  else setError .witnessProgramWrongLength

/-- The quantum-safe part of `VerifyWitnessProgram`. -/
def verifyHybrid (program : Bytes) : ScriptResult Unit :=
  match witness with
  | [ecdsaSig, ecdsaPub, mldsaSig, mldsaPub] => do
    let success ← ctx.checker.checkHybridSignature ecdsaSig ecdsaPub mldsaSig mldsaPub program
    errorIf (!success) .witnessProgramMismatch
  | _ => setError .witnessProgramMismatch

def verifyWitnessProgram (witversion : Nat) (program : Bytes) (isP2SH : Bool) : ScriptResult Unit :=
  if witversion = 0 then verifyWitnessV0 ctx witness program
  else if witversion = 1 ∧ program.length = 32 ∧ !isP2SH then verifyTaproot ctx witness program
  else if witversion = 2 ∧ program.length = 32 ∧ !isP2SH then verifyHybrid ctx witness program
  else errorIf (ctx.has .discourageUpgradableWitnessProgram) .discourageUpgradableWitnessProgram

/-! ## Scripts -/

def resizeToOne (stack : List Bytes) : List Bytes := [stack.getLastD []]

/-- The witness program `script` of a spend, if it is one: whether there was one, and
the stack. `malleated` says that `scriptSig` is not as it has to be. -/
def verifyWitness (script : CScript) (witness : CScriptWitness) (malleated : Bool) (e : ScriptError)
    (isP2SH : Bool) (stack : List Bytes) : ScriptResult (Bool × List Bytes) :=
  if !ctx.has .witness then .ok (false, stack)
  else
    match CScript.isWitnessProgram script with
    | none => .ok (false, stack)
    | some (witnessversion, witnessprogram) => do
      errorIf malleated e
      verifyWitnessProgram ctx witness witnessversion witnessprogram isP2SH
      .ok (true, resizeToOne stack)

/-- The part of `VerifyScript` for pay-to-script-hash. `stackCopy` is the stack that
`scriptSig` left. -/
def verifyP2SH (scriptSig scriptPubKey : CScript) (witness : CScriptWitness)
    (stackCopy : List Bytes) (hadWitness : Bool) (stack : List Bytes) :
    ScriptResult (Bool × List Bytes) :=
  if ctx.has .p2sh && CScript.isPayToScriptHash scriptPubKey then do
    errorIf (!CScript.isPushOnly scriptSig) .sigPushonly
    match stackCopy with
    | [] => .error .aborted
    | pubKey2 :: stack => do
      let (stack, _) ← evalScript ctx stack pubKey2 {}
      requireTrue stack
      let (had, stack) ← verifyWitness ctx pubKey2 witness
        (scriptSig ≠ pushData pubKey2) .witnessMalleatedP2SH true stack
      .ok (hadWitness || had, stack)
  else .ok (hadWitness, stack)

/-- The end of `VerifyScript`: `CLEANSTACK` and unexpected witnesses. -/
def verifyEnd (hadWitness : Bool) (stack : List Bytes) : ScriptResult Unit := do
  (if ctx.has .cleanstack then
    if !ctx.has .p2sh || !ctx.has .witness then .error .aborted
    else errorIf (stack.length ≠ 1) .cleanstack
  else .ok ())
  if ctx.has .witness then
    if !ctx.has .p2sh then .error .aborted
    else errorIf (!hadWitness && !witness.isEmpty) .witnessUnexpected
  else .ok ()

def verifyScript (scriptSig scriptPubKey : CScript) (witness : CScriptWitness) (flags : ScriptFlags)
    (checker : SignatureChecker) : ScriptResult Unit := do
  let ctx : EvalContext := ⟨crypto, checker, flags, .base⟩
  errorIf (ctx.has .sigpushonly && !CScript.isPushOnly scriptSig) .sigPushonly
  let (stackCopy, _) ← evalScript ctx [] scriptSig {}
  let (stack, _) ← evalScript ctx stackCopy scriptPubKey {}
  requireTrue stack
  let (hadWitness, stack) ← verifyWitness ctx scriptPubKey witness
    (!scriptSig.isEmpty) .witnessMalleated false stack
  let (hadWitness, stack) ← verifyP2SH ctx scriptSig scriptPubKey witness stackCopy hadWitness stack
  verifyEnd ctx witness hadWitness stack

end Bitcoboost
