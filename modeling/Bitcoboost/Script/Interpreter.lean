import Bitcoboost.Lib.ExceptBind
import Bitcoboost.Script.Sighash

/-!
# The script interpreter

`EvalScript` of `script/interpreter.cpp` with all opcodes, and the encoding rules for signatures
and keys. The stacks are lists with the top first. The exceptions that `EvalScript` catches,
which are those of script numbers, are `SCRIPT_ERR_UNKNOWN_ERROR`. An assertion that fails is
not caught.
-/

namespace Bitcoboost

/-- The values of `ScriptError` that the interpreter sets. -/
inductive ScriptError where
  | unknownError | evalFalse | opReturn
  -- max sizes
  | scriptSize | pushSize | opCount | stackSize | sigCount | pubkeyCount
  -- failed verify operations
  | verify | equalverify | checkmultisigverify | checksigverify | numequalverify
  -- logical, format and canonical errors
  | badOpcode | disabledOpcode | invalidStackOperation | invalidAltstackOperation
  | unbalancedConditional
  -- lock times
  | negativeLocktime | unsatisfiedLocktime
  -- malleability
  | sigHashtype | sigDer | minimaldata | sigPushonly | sigHighS | sigNulldummy | pubkeytype
  | cleanstack | minimalif | sigNullfail
  -- softfork safeness
  | discourageUpgradableNops | discourageUpgradableWitnessProgram
  | discourageUpgradableTaprootVersion | discourageOpSuccess | discourageUpgradablePubkeytype
  -- segregated witness
  | witnessProgramWrongLength | witnessProgramWitnessEmpty | witnessProgramMismatch
  | witnessMalleated | witnessMalleatedP2SH | witnessUnexpected | witnessPubkeytype
  -- taproot
  | schnorrSigSize | schnorrSigHashtype | schnorrSig | taprootWrongControlSize
  | tapscriptValidationWeight | tapscriptCheckmultisig | tapscriptMinimalif
  -- constant scriptCode
  | opCodeseparator | sigFindanddelete
deriving DecidableEq, Repr

/-- How running a script can fail: it returns false with an error, or an assertion
fails. -/
inductive ScriptFailure where
  | error (serror : ScriptError)
  | aborted
deriving DecidableEq, Repr

abbrev ScriptResult (α : Type) := Except ScriptFailure α

def setError {α : Type} (e : ScriptError) : ScriptResult α := .error (.error e)

def errorIf (cond : Bool) (e : ScriptError) : ScriptResult Unit :=
  if cond then setError e else .ok ()

/-- A value that an assertion can keep from being there. -/
def orAssert {α : Type} : Option α → ScriptResult α
  | some a => .ok a
  | none => .error .aborted

@[simp] theorem errorIf_false (e : ScriptError) : errorIf false e = .ok () := rfl

theorem orAssert_ok {α : Type} {x : Option α} {a : α} : orAssert x = .ok a ↔ x = some a := by
  cases x with
  | none => exact ⟨fun h => (by cases h), fun h => (by cases h)⟩
  | some b => rw [orAssert, Except.ok.injEq, Option.some.injEq]

theorem errorIf_ok {cond : Bool} {e : ScriptError} {u : Unit} :
    errorIf cond e = .ok u ↔ cond = false := by
  cases cond with
  | true => exact ⟨fun h => (by cases h), fun h => (by cases h)⟩
  | false => exact ⟨fun _ => rfl, fun _ => rfl⟩

/-- `CastToBool`: false is any zero, also the negative one. -/
def castToBool : Bytes → Bool
  | [] => false
  | byte :: vch => if byte ≠ 0 then !(vch.isEmpty && byte = 0x80) else castToBool vch

/-! ## Encoding of signatures and keys -/

def isCompressedOrUncompressedPubKey (vchPubKey : Bytes) : Bool :=
  if vchPubKey.length < 33 then false
  else if vchPubKey.headD 0 = 0x04 then vchPubKey.length = 65
  else if vchPubKey.headD 0 = 0x02 ∨ vchPubKey.headD 0 = 0x03 then vchPubKey.length = 33
  else false

def isCompressedPubKey (vchPubKey : Bytes) : Bool :=
  vchPubKey.length = 33 ∧ (vchPubKey.headD 0 = 0x02 ∨ vchPubKey.headD 0 = 0x03)

def isValidSignatureEncoding (sig : Bytes) : Bool :=
  let at' (i : Nat) : UInt8 := sig.getD i 0
  let lenR := (at' 3).toNat
  let lenS := (at' (5 + lenR)).toNat
  if sig.length < 9 then false
  else if sig.length > 73 then false
  else if at' 0 ≠ 0x30 then false
  else if (at' 1).toNat ≠ sig.length - 3 then false
  else if 5 + lenR ≥ sig.length then false
  else if lenR + lenS + 7 ≠ sig.length then false
  else if at' 2 ≠ 0x02 then false
  else if lenR = 0 then false
  else if at' 4 &&& 0x80 ≠ 0 then false
  else if lenR > 1 ∧ at' 4 = 0 ∧ at' 5 &&& 0x80 = 0 then false
  else if at' (lenR + 4) ≠ 0x02 then false
  else if lenS = 0 then false
  else if at' (lenR + 6) &&& 0x80 ≠ 0 then false
  else if lenS > 1 ∧ at' (lenR + 6) = 0 ∧ at' (lenR + 7) &&& 0x80 = 0 then false
  else true

def isLowDERSignature (vchSig : Bytes) : ScriptResult Unit :=
  if !isValidSignatureEncoding vchSig then setError .sigDer
  else if !CPubKey.checkLowS vchSig.dropLast then setError .sigHighS
  else .ok ()

def isDefinedHashtypeSignature (vchSig : Bytes) : Bool :=
  match vchSig.getLast? with
  | none => false
  | some back => sighashAll ≤ back &&& ~~~sighashAnyonecanpay ∧
      back &&& ~~~sighashAnyonecanpay ≤ sighashSingle

def checkSignatureEncoding (vchSig : Bytes) (flags : ScriptFlags) : ScriptResult Unit :=
  if vchSig.isEmpty then .ok ()
  else if (.dersig ∈ flags ∨ .lowS ∈ flags ∨ .strictenc ∈ flags) ∧
      !isValidSignatureEncoding vchSig then
    setError .sigDer
  else do
    (if .lowS ∈ flags then isLowDERSignature vchSig else .ok ())
    errorIf (.strictenc ∈ flags ∧ !isDefinedHashtypeSignature vchSig) .sigHashtype

def checkPubKeyEncoding (vchPubKey : Bytes) (flags : ScriptFlags) (sigversion : SigVersion) :
    ScriptResult Unit := do
  errorIf (.strictenc ∈ flags ∧ !isCompressedOrUncompressedPubKey vchPubKey) .pubkeytype
  errorIf (.witnessPubkeytype ∈ flags ∧ sigversion = .witnessV0 ∧
    !isCompressedPubKey vchPubKey) .witnessPubkeytype

/-! ## `FindAndDelete` -/

/-- The inner loop of `FindAndDelete`: the position after the copies of `b` that
start at `pc`, and their number. -/
def skipCopies (b : Bytes) : Nat → Bytes → Bytes × Nat
  | 0, pc => (pc, 0)
  | fuel + 1, pc =>
    if pc.length ≥ b.length ∧ pc.take b.length = b then
      let (pc, nFound) := skipCopies b fuel (pc.drop b.length)
      (pc, nFound + 1)
    else (pc, 0)

/-- The outer loop of `FindAndDelete`: what is kept and how many copies of `b` are
left out. -/
def findAndDeleteLoop (b : Bytes) : Nat → Bytes → Bytes × Nat
  | 0, pc => (pc, 0)
  | fuel + 1, pc =>
    let (pc, nFound) := skipCopies b pc.length pc
    match getScriptOp pc with
    | none => (pc, nFound)
    | some (_, _, rest) =>
      let (result, nRest) := findAndDeleteLoop b fuel rest
      (pc.take (pc.length - rest.length) ++ result, nFound + nRest)

/-- `FindAndDelete`: the new script and the number of copies found. -/
def findAndDelete (script b : CScript) : CScript × Nat :=
  if b.isEmpty then (script, 0) else findAndDeleteLoop b (script.length + 1) script

/-! ## The condition stack -/

/-- `ConditionStack`: the size of the stack and the position of its first false
value, with `none` for `NO_FALSE`. -/
structure ConditionStack where
  stackSize : Nat := 0
  firstFalsePos : Option Nat := none
deriving DecidableEq, Repr

namespace ConditionStack

variable (vfExec : ConditionStack)

def empty : Bool := vfExec.stackSize = 0

def allTrue : Bool := vfExec.firstFalsePos = none

def pushBack (f : Bool) : ConditionStack where
  stackSize := vfExec.stackSize + 1
  firstFalsePos := if vfExec.firstFalsePos = none ∧ !f then some vfExec.stackSize
    else vfExec.firstFalsePos

def popBack : ConditionStack where
  stackSize := vfExec.stackSize - 1
  firstFalsePos := if vfExec.firstFalsePos = some (vfExec.stackSize - 1) then none
    else vfExec.firstFalsePos

def toggleTop : ConditionStack :=
  { vfExec with firstFalsePos :=
      if vfExec.firstFalsePos = none then some (vfExec.stackSize - 1)
      else if vfExec.firstFalsePos = some (vfExec.stackSize - 1) then none
      else vfExec.firstFalsePos }

end ConditionStack

/-! ## Signature checks -/

structure SignatureChecker where
  checkECDSASignature : Bytes → Bytes → CScript → SigVersion → ScriptResult Bool
  /-- Returns the execution data that it leaves. -/
  checkSchnorrSignature : Bytes → Bytes → SigVersion → ScriptExecutionData →
    ScriptResult ScriptExecutionData
  checkHybridSignature : Bytes → Bytes → Bytes → Bytes → Bytes → ScriptResult Bool
  checkLockTime : Int → Bool
  checkSequence : Int → Bool

/-- What a script runs with. -/
structure EvalContext where
  crypto : Crypto
  checker : SignatureChecker
  flags : ScriptFlags
  sigversion : SigVersion

variable (ctx : EvalContext)

/-- Whether a flag is set. -/
def EvalContext.has (flag : ScriptFlag) : Bool := flag ∈ ctx.flags

/-- `FindAndDelete` of a signature in the script code of a script before segwit. -/
def deleteSignature (scriptCode : CScript) (vchSig : Bytes) : ScriptResult CScript :=
  if ctx.sigversion = .base then
    let (scriptCode, found) := findAndDelete scriptCode (pushData vchSig)
    if found > 0 ∧ ctx.has .constScriptcode then setError .sigFindanddelete else .ok scriptCode
  else .ok scriptCode

def evalChecksigPreTapscript (vchSig vchPubKey : Bytes) (codeHash : CScript) :
    ScriptResult Bool := do
  let scriptCode ← deleteSignature ctx codeHash vchSig
  checkSignatureEncoding vchSig ctx.flags
  checkPubKeyEncoding vchPubKey ctx.flags ctx.sigversion
  let fSuccess ← ctx.checker.checkECDSASignature vchSig vchPubKey scriptCode ctx.sigversion
  errorIf (!fSuccess && ctx.has .nullfail && !vchSig.isEmpty) .sigNullfail
  .ok fSuccess

def validationWeightPerSigopPassed : Int := 50

/-- The ratio test of `EvalChecksigTapscript`. -/
def spendValidationWeight (sig : Bytes) (execdata : ScriptExecutionData) :
    ScriptResult ScriptExecutionData :=
  if sig.isEmpty then .ok execdata
  else do
    let weight ← orAssert execdata.validationWeightLeft
    let weight := weight - validationWeightPerSigopPassed
    errorIf (weight < 0) .tapscriptValidationWeight
    .ok { execdata with validationWeightLeft := some weight }

/-- `EvalChecksigTapscript`: whether the check succeeded, and the execution data. -/
def evalChecksigTapscript (sig pubkey : Bytes) (execdata : ScriptExecutionData) :
    ScriptResult (Bool × ScriptExecutionData) := do
  let execdata ← spendValidationWeight sig execdata
  let success := !sig.isEmpty
  if pubkey.isEmpty then setError .pubkeytype
  else if pubkey.length = 32 then
    if success then do
      let execdata ← ctx.checker.checkSchnorrSignature sig pubkey ctx.sigversion execdata
      .ok (success, execdata)
    else .ok (success, execdata)
  else if ctx.has .discourageUpgradablePubkeytype then setError .discourageUpgradablePubkeytype
  else .ok (success, execdata)

def evalChecksig (sig pubkey : Bytes) (codeHash : CScript) (execdata : ScriptExecutionData) :
    ScriptResult (Bool × ScriptExecutionData) :=
  match ctx.sigversion with
  | .base | .witnessV0 => do
    let success ← evalChecksigPreTapscript ctx sig pubkey codeHash
    .ok (success, execdata)
  | .tapscript => evalChecksigTapscript ctx sig pubkey execdata
  | .taproot => .error .aborted

/-! ## Opcodes -/

/-- The variables of `EvalScript`. `codeHash` is the script from `pbegincodehash` on. -/
structure EvalState where
  stack : List Bytes
  altstack : List Bytes
  vfExec : ConditionStack
  nOpCount : Nat
  codeHash : CScript
  opcodePos : Nat
  execdata : ScriptExecutionData

/-- `vchTrue` or `vchFalse`. -/
def vchBool (f : Bool) : Bytes := if f then [1] else []

/-- A `CScriptNum` from the stack, with the exception caught. -/
def EvalContext.scriptNum (vch : Bytes) (nMaxNumSize : Nat) : ScriptResult Int :=
  match Bitcoboost.scriptNum vch (ctx.has .minimaldata) nMaxNumSize with
  | some n => .ok n
  | none => setError .unknownError

def nDefaultMaxNumSize : Nat := 4

/-- The opcodes that only move stack elements, or push what is known of them. `none`
if there are too few. -/
def moveOp : OpcodeType → List Bytes → Option (List Bytes)
  | .op2Drop, _ :: _ :: stack => some stack
  | .op2Dup, x2 :: x1 :: stack => some (x2 :: x1 :: x2 :: x1 :: stack)
  | .op3Dup, x3 :: x2 :: x1 :: stack => some (x3 :: x2 :: x1 :: x3 :: x2 :: x1 :: stack)
  | .op2Over, x4 :: x3 :: x2 :: x1 :: stack => some (x2 :: x1 :: x4 :: x3 :: x2 :: x1 :: stack)
  | .op2Rot, x6 :: x5 :: x4 :: x3 :: x2 :: x1 :: stack =>
      some (x2 :: x1 :: x6 :: x5 :: x4 :: x3 :: stack)
  | .op2Swap, x4 :: x3 :: x2 :: x1 :: stack => some (x2 :: x1 :: x4 :: x3 :: stack)
  | .opIfdup, x :: stack => some (if castToBool x then x :: x :: stack else x :: stack)
  | .opDepth, stack => some (scriptNumSerialize stack.length :: stack)
  | .opDrop, _ :: stack => some stack
  | .opDup, x :: stack => some (x :: x :: stack)
  | .opNip, x2 :: _ :: stack => some (x2 :: stack)
  | .opOver, x2 :: x1 :: stack => some (x1 :: x2 :: x1 :: stack)
  | .opRot, x3 :: x2 :: x1 :: stack => some (x1 :: x3 :: x2 :: stack)
  | .opSwap, x2 :: x1 :: stack => some (x1 :: x2 :: stack)
  | .opTuck, x2 :: x1 :: stack => some (x2 :: x1 :: x2 :: stack)
  | .opSize, x :: stack => some (scriptNumSerialize x.length :: x :: stack)
  | _, _ => none

/-- The numeric opcodes on one operand. -/
def unaryOp (opcode : OpcodeType) (bn : Int) : Int :=
  match opcode with
  | .op1Add => bn + 1
  | .op1Sub => bn - 1
  | .opNegate => -bn
  | .opAbs => if bn < 0 then -bn else bn
  | .opNot => if bn = 0 then 1 else 0
  | _ => if bn ≠ 0 then 1 else 0

/-- The numeric opcodes on two operands. -/
def binaryOp (opcode : OpcodeType) (bn1 bn2 : Int) : Int :=
  let ofBool (f : Bool) : Int := if f then 1 else 0
  match opcode with
  | .opAdd => bn1 + bn2
  | .opSub => bn1 - bn2
  | .opBooland => ofBool (bn1 ≠ 0 ∧ bn2 ≠ 0)
  | .opBoolor => ofBool (bn1 ≠ 0 ∨ bn2 ≠ 0)
  | .opNumequal | .opNumequalverify => ofBool (bn1 = bn2)
  | .opNumnotequal => ofBool (bn1 ≠ bn2)
  | .opLessthan => ofBool (bn1 < bn2)
  | .opGreaterthan => ofBool (bn1 > bn2)
  | .opLessthanorequal => ofBool (bn1 ≤ bn2)
  | .opGreaterthanorequal => ofBool (bn1 ≥ bn2)
  | .opMin => if bn1 < bn2 then bn1 else bn2
  | _ => if bn1 > bn2 then bn1 else bn2

def hashOp (crypto : Crypto) (opcode : OpcodeType) (vch : Bytes) : Bytes :=
  match opcode with
  | .opRipemd160 => (crypto.ripemd160 vch).data
  | .opSha1 => (crypto.sha1 vch).data
  | .opSha256 => (crypto.sha256 vch).data
  | .opHash160 => (crypto.hash160 vch).data
  | _ => (crypto.hash256 vch).data

/-- The end of an opcode with a `VERIFY` form: it pushes the result, or takes it off
again if it is true. -/
def pushOrVerify (fVerify fSuccess : Bool) (e : ScriptError) (stack : List Bytes) :
    ScriptResult (List Bytes) :=
  if fVerify then if fSuccess then .ok stack else setError e
  else .ok (vchBool fSuccess :: stack)

def pickOp (fRoll : Bool) : List Bytes → ScriptResult (List Bytes)
  | top :: x :: stack => do
    let n := scriptNumGetint (← ctx.scriptNum top nDefaultMaxNumSize)
    match if n < 0 then none else (x :: stack)[n.toNat]? with
    | none => setError .invalidStackOperation
    | some vch => .ok (vch :: if fRoll then (x :: stack).eraseIdx n.toNat else x :: stack)
  | _ => setError .invalidStackOperation

def checkLockTimeOp (stack : List Bytes) : ScriptResult Unit :=
  if !ctx.has .checklocktimeverify then .ok ()
  else
    match stack with
    | [] => setError .invalidStackOperation
    | top :: _ => do
      let nLockTime ← ctx.scriptNum top 5
      errorIf (nLockTime < 0) .negativeLocktime
      errorIf (!ctx.checker.checkLockTime nLockTime) .unsatisfiedLocktime

def checkSequenceOp (stack : List Bytes) : ScriptResult Unit :=
  if !ctx.has .checksequenceverify then .ok ()
  else
    match stack with
    | [] => setError .invalidStackOperation
    | top :: _ => do
      let nSequence ← ctx.scriptNum top 5
      errorIf (nSequence < 0) .negativeLocktime
      -- the bit of `SEQUENCE_LOCKTIME_DISABLE_FLAG`
      errorIf (!nSequence.toNat.testBit 31 && !ctx.checker.checkSequence nSequence)
        .unsatisfiedLocktime

/-- The value that `OP_IF` or `OP_NOTIF` takes off the stack in an active branch. -/
def ifValue (fNot : Bool) : List Bytes → ScriptResult (Bool × List Bytes)
  | [] => setError .unbalancedConditional
  | vch :: stack => do
    let fMinimal := vch = [] ∨ vch = [1]
    errorIf (ctx.sigversion = .tapscript ∧ ¬ fMinimal) .tapscriptMinimalif
    errorIf (ctx.sigversion = .witnessV0 ∧ ctx.has .minimalif ∧ ¬ fMinimal) .minimalif
    .ok (castToBool vch != fNot, stack)

/-! ### Multisig -/

/-- The arguments of `OP_CHECKMULTISIG` on the stack. -/
structure MultisigArgs where
  keys : List Bytes
  sigs : List Bytes
  dummy : Bytes
  rest : List Bytes

/-- The part of `OP_CHECKMULTISIG` that finds its arguments, with the new opcode
count. -/
def readMultisig (stack : List Bytes) (nOpCount : Nat) : ScriptResult (MultisigArgs × Nat) :=
  match stack with
  | [] => setError .invalidStackOperation
  | keysCount :: stack => do
    let nKeysCount := scriptNumGetint (← ctx.scriptNum keysCount nDefaultMaxNumSize)
    errorIf (nKeysCount < 0 ∨ nKeysCount > maxPubkeysPerMultisig) .pubkeyCount
    let nKeys := nKeysCount.toNat
    errorIf (nOpCount + nKeys > maxOpsPerScript) .opCount
    match stack.drop nKeys with
    | [] => setError .invalidStackOperation
    | sigsCount :: below => do
      let nSigsCount := scriptNumGetint (← ctx.scriptNum sigsCount nDefaultMaxNumSize)
      errorIf (nSigsCount < 0 ∨ nSigsCount > nKeysCount) .sigCount
      let nSigs := nSigsCount.toNat
      match below.drop nSigs with
      | [] => setError .invalidStackOperation
      | dummy :: rest => .ok (⟨stack.take nKeys, below.take nSigs, dummy, rest⟩, nOpCount + nKeys)

/-- `FindAndDelete` of all signatures, in order. -/
def deleteSignatures (ctx : EvalContext) : CScript → List Bytes → ScriptResult CScript
  | scriptCode, [] => .ok scriptCode
  | scriptCode, vchSig :: sigs => do
    let scriptCode ← deleteSignature ctx scriptCode vchSig
    deleteSignatures ctx scriptCode sigs

/-- The loop of `OP_CHECKMULTISIG` over the keys. It gives up once there are more
signatures than keys left. -/
def multisigLoop (ctx : EvalContext) (scriptCode : CScript) :
    List Bytes → List Bytes → ScriptResult Bool
  | _, [] => .ok true
  | [], _ :: _ => .ok false
  | vchPubKey :: keys, vchSig :: sigs => do
    checkSignatureEncoding vchSig ctx.flags
    checkPubKeyEncoding vchPubKey ctx.flags ctx.sigversion
    let fOk ← ctx.checker.checkECDSASignature vchSig vchPubKey scriptCode ctx.sigversion
    let sigs := if fOk then sigs else vchSig :: sigs
    if sigs.length > keys.length then .ok false else multisigLoop ctx scriptCode keys sigs

def checkMultisigOp (fVerify : Bool) (s : EvalState) : ScriptResult EvalState := do
  errorIf (ctx.sigversion = .tapscript) .tapscriptCheckmultisig
  let (args, nOpCount) ← readMultisig ctx s.stack s.nOpCount
  let scriptCode ← deleteSignatures ctx s.codeHash args.sigs
  let fSuccess ← multisigLoop ctx scriptCode args.keys args.sigs
  errorIf (!fSuccess && ctx.has .nullfail && args.sigs.any fun vchSig =>
    !vchSig.isEmpty) .sigNullfail
  errorIf (ctx.has .nulldummy && !args.dummy.isEmpty) .sigNulldummy
  let stack ← pushOrVerify fVerify fSuccess .checkmultisigverify args.rest
  .ok { s with stack, nOpCount }

def checkSigOp (fVerify : Bool) (s : EvalState) : ScriptResult EvalState :=
  match s.stack with
  | vchPubKey :: vchSig :: stack => do
    let (fSuccess, execdata) ← evalChecksig ctx vchSig vchPubKey s.codeHash s.execdata
    let stack ← pushOrVerify fVerify fSuccess .checksigverify stack
    .ok { s with stack, execdata }
  | _ => setError .invalidStackOperation

def checkSigAddOp (s : EvalState) : ScriptResult EvalState :=
  if ctx.sigversion = .base ∨ ctx.sigversion = .witnessV0 then setError .badOpcode
  else
    match s.stack with
    | pubkey :: num :: sig :: stack => do
      let num ← ctx.scriptNum num nDefaultMaxNumSize
      let (success, execdata) ← evalChecksig ctx sig pubkey s.codeHash s.execdata
      .ok { s with stack := scriptNumSerialize (num + if success then 1 else 0) :: stack, execdata }
    | _ => setError .invalidStackOperation

/-! ### One opcode -/

/-- The `switch` of `EvalScript`. `pc` is the script after the opcode. -/
def evalOpcode (opcode : OpcodeType) (fExec : Bool) (pc : CScript) (s : EvalState) :
    ScriptResult EvalState :=
  match opcode with
  | .op1Negate | .op1 | .op2 | .op3 | .op4 | .op5 | .op6 | .op7 | .op8 | .op9 | .op10 | .op11
  | .op12 | .op13 | .op14 | .op15 | .op16 =>
    .ok { s with stack := scriptNumSerialize ((opcode.toByte.toNat : Int) - 0x50) :: s.stack }
  | .opNop => .ok s
  | .opChecklocktimeverify => do
    checkLockTimeOp ctx s.stack
    .ok s
  | .opChecksequenceverify => do
    checkSequenceOp ctx s.stack
    .ok s
  | .opNop1 | .opNop4 | .opNop5 | .opNop6 | .opNop7 | .opNop8 | .opNop9 | .opNop10 => do
    errorIf (ctx.has .discourageUpgradableNops) .discourageUpgradableNops
    .ok s
  | .opIf | .opNotif =>
    if fExec then do
      let (fValue, stack) ← ifValue ctx (opcode = .opNotif) s.stack
      .ok { s with stack, vfExec := s.vfExec.pushBack fValue }
    else .ok { s with vfExec := s.vfExec.pushBack false }
  | .opElse =>
    if s.vfExec.empty then setError .unbalancedConditional
    else .ok { s with vfExec := s.vfExec.toggleTop }
  | .opEndif =>
    if s.vfExec.empty then setError .unbalancedConditional
    else .ok { s with vfExec := s.vfExec.popBack }
  | .opVerify =>
    match s.stack with
    | [] => setError .invalidStackOperation
    | vch :: stack => if castToBool vch then .ok { s with stack } else setError .verify
  | .opReturn => setError .opReturn
  | .opToaltstack =>
    match s.stack with
    | [] => setError .invalidStackOperation
    | vch :: stack => .ok { s with stack, altstack := vch :: s.altstack }
  | .opFromaltstack =>
    match s.altstack with
    | [] => setError .invalidAltstackOperation
    | vch :: altstack => .ok { s with stack := vch :: s.stack, altstack }
  | .op2Drop | .op2Dup | .op3Dup | .op2Over | .op2Rot | .op2Swap | .opIfdup | .opDepth | .opDrop
  | .opDup | .opNip | .opOver | .opRot | .opSwap | .opTuck | .opSize =>
    match moveOp opcode s.stack with
    | none => setError .invalidStackOperation
    | some stack => .ok { s with stack }
  | .opPick | .opRoll => do
    let stack ← pickOp ctx (opcode = .opRoll) s.stack
    .ok { s with stack }
  | .opEqual | .opEqualverify =>
    match s.stack with
    | vch2 :: vch1 :: stack => do
      let stack ← pushOrVerify (opcode = .opEqualverify) (vch1 = vch2) .equalverify stack
      .ok { s with stack }
    | _ => setError .invalidStackOperation
  | .op1Add | .op1Sub | .opNegate | .opAbs | .opNot | .op0Notequal =>
    match s.stack with
    | [] => setError .invalidStackOperation
    | vch :: stack => do
      let bn ← ctx.scriptNum vch nDefaultMaxNumSize
      .ok { s with stack := scriptNumSerialize (unaryOp opcode bn) :: stack }
  | .opAdd | .opSub | .opBooland | .opBoolor | .opNumequal | .opNumequalverify | .opNumnotequal
  | .opLessthan | .opGreaterthan | .opLessthanorequal | .opGreaterthanorequal | .opMin | .opMax =>
    match s.stack with
    | vch2 :: vch1 :: stack => do
      let bn1 ← ctx.scriptNum vch1 nDefaultMaxNumSize
      let bn2 ← ctx.scriptNum vch2 nDefaultMaxNumSize
      let bn := binaryOp opcode bn1 bn2
      if opcode = .opNumequalverify then
        if bn ≠ 0 then .ok { s with stack } else setError .numequalverify
      else .ok { s with stack := scriptNumSerialize bn :: stack }
    | _ => setError .invalidStackOperation
  | .opWithin =>
    match s.stack with
    | vch3 :: vch2 :: vch1 :: stack => do
      let bn1 ← ctx.scriptNum vch1 nDefaultMaxNumSize
      let bn2 ← ctx.scriptNum vch2 nDefaultMaxNumSize
      let bn3 ← ctx.scriptNum vch3 nDefaultMaxNumSize
      .ok { s with stack := vchBool (bn2 ≤ bn1 ∧ bn1 < bn3) :: stack }
    | _ => setError .invalidStackOperation
  | .opRipemd160 | .opSha1 | .opSha256 | .opHash160 | .opHash256 =>
    match s.stack with
    | [] => setError .invalidStackOperation
    | vch :: stack => .ok { s with stack := hashOp ctx.crypto opcode vch :: stack }
  | .opCodeseparator =>
    .ok { s with
      codeHash := pc, execdata := { s.execdata with codeseparatorPos := some s.opcodePos } }
  | .opChecksig | .opChecksigverify => checkSigOp ctx (opcode = .opChecksigverify) s
  | .opChecksigadd => checkSigAddOp ctx s
  | .opCheckmultisig | .opCheckmultisigverify =>
      checkMultisigOp ctx (opcode = .opCheckmultisigverify) s
  | _ => setError .badOpcode

/-! ## The loop -/

/-- The opcodes that fail a script even where they are not executed. -/
def isDisabled (opcode : UInt8) : Bool :=
  (OpcodeType.ofByte? opcode).any fun opcode =>
    opcode ∈ [.opCat, .opSubstr, .opLeft, .opRight, .opInvert, .opAnd, .opOr,
    .opXor, .op2Mul, .op2Div, .opMul, .opDiv, .opMod, .opLshift, .opRshift]

/-- The opcode limit of scripts before Tapscript. -/
def countOpcode (opcode : UInt8) (s : EvalState) : ScriptResult EvalState :=
  if (ctx.sigversion = .base ∨ ctx.sigversion = .witnessV0) ∧ opcode > OpcodeType.op16.toByte then
    if s.nOpCount + 1 > maxOpsPerScript then setError .opCount
    else .ok { s with nOpCount := s.nOpCount + 1 }
  else .ok s

/-- What `EvalScript` does with an opcode that passed the checks before: pushes and
the `switch`. -/
def execOpcode (opcode : UInt8) (vchPushValue : Bytes) (pc : CScript) (s : EvalState) :
    ScriptResult EvalState :=
  let fExec := s.vfExec.allTrue
  if fExec ∧ opcode ≤ OpcodeType.opPushdata4.toByte then
    if ctx.has .minimaldata ∧ !checkMinimalPush vchPushValue opcode then setError .minimaldata
    else .ok { s with stack := vchPushValue :: s.stack }
  else if fExec ∨ (OpcodeType.opIf.toByte ≤ opcode ∧ opcode ≤ OpcodeType.opEndif.toByte) then
    match OpcodeType.ofByte? opcode with
    | none => setError .badOpcode
    | some opcode => evalOpcode ctx opcode fExec pc s
  else .ok s

/-- The loop body of `EvalScript`. -/
def evalStep (opcode : UInt8) (vchPushValue : Bytes) (pc : CScript) (s : EvalState) :
    ScriptResult EvalState := do
  errorIf (vchPushValue.length > maxScriptElementSize) .pushSize
  let s ← countOpcode ctx opcode s
  errorIf (isDisabled opcode) .disabledOpcode
  errorIf (opcode = OpcodeType.opCodeseparator.toByte ∧ ctx.sigversion = .base ∧
      ctx.has .constScriptcode)
    .opCodeseparator
  let s ← execOpcode ctx opcode vchPushValue pc s
  errorIf (s.stack.length + s.altstack.length > maxStackSize) .stackSize
  .ok { s with opcodePos := s.opcodePos + 1 }

/-- The loop of `EvalScript` over the script from `pc` on, which has at most as many
operations as bytes. -/
def evalLoop (ctx : EvalContext) : Nat → CScript → EvalState → ScriptResult EvalState
  | 0, _, s => .ok s
  | fuel + 1, pc, s =>
    if pc.isEmpty then .ok s
    else
      match getScriptOp pc with
      | none => setError .badOpcode
      | some (opcode, vchPushValue, rest) => do
        let s ← evalStep ctx opcode vchPushValue rest s
        evalLoop ctx fuel rest s

/-- `EvalScript`: the stack and the execution data that it leaves. -/
def evalScript (stack : List Bytes) (script : CScript) (execdata : ScriptExecutionData) :
    ScriptResult (List Bytes × ScriptExecutionData) :=
  if ctx.sigversion = .taproot then .error .aborted
  else if ctx.sigversion ≠ .tapscript ∧ script.length > maxScriptSize then setError .scriptSize
  else do
    let execdata := { execdata with codeseparatorPos := some 0xffffffff }
    let s ← evalLoop ctx script.length script ⟨stack, [], {}, 0, script, 0, execdata⟩
    errorIf (!s.vfExec.empty) .unbalancedConditional
    .ok (s.stack, s.execdata)

/-- The loop ends before its fuel does: with as much fuel as bytes, more fuel changes
nothing. -/
theorem evalLoop_fuel {fuel fuel' : Nat} {pc : CScript} (h : pc.length ≤ fuel)
    (h' : pc.length ≤ fuel') (s : EvalState) :
    evalLoop ctx fuel pc s = evalLoop ctx fuel' pc s := by
  induction fuel generalizing fuel' pc s with
  | zero =>
    obtain rfl := List.eq_nil_of_length_eq_zero (Nat.le_zero.mp h)
    cases fuel' with
    | zero => rfl
    | succ fuel' => rfl
  | succ fuel ih =>
    cases fuel' with
    | zero =>
      obtain rfl := List.eq_nil_of_length_eq_zero (Nat.le_zero.mp h')
      rfl
    | succ fuel' =>
      cases hop : getScriptOp pc with
      | none => simp only [evalLoop, hop]
      | some op =>
        have hrest := length_getScriptOp hop
        have hstep :=
          ih (Nat.lt_succ_iff.mp (hrest.trans_le h)) (Nat.lt_succ_iff.mp (hrest.trans_le h'))
        simp only [evalLoop, hop, hstep]

/-! ## Runs that succeed -/

namespace InterpreterLemmas

open ExceptBind

variable {ctx : EvalContext} {opcode : UInt8}

/-- An opcode that passes the checks of the loop body. -/
theorem evalStep_of_exec {data pc : Bytes} {s s' : EvalState}
    (hsize : data.length ≤ maxScriptElementSize)
    (hcount : countOpcode ctx opcode s = .ok s) (hdisabled : isDisabled opcode = false)
    (hseparator : opcode ≠ OpcodeType.opCodeseparator.toByte)
    (hexec : execOpcode ctx opcode data pc s = .ok s')
    (hstack : s'.stack.length + s'.altstack.length ≤ maxStackSize) :
    evalStep ctx opcode data pc s = .ok { s' with opcodePos := s'.opcodePos + 1 } := by
  unfold evalStep
  rw [decide_eq_false (Nat.not_lt.mpr hsize), hcount, hdisabled, decide_eq_false fun h =>
    hseparator h.1]
  simp only [errorIf_false, ok_bind, hexec]
  rw [decide_eq_false (Nat.not_lt.mpr hstack)]
  rfl

theorem evalLoop_of_step {fuel : Nat} {pc data rest : Bytes} {s s' : EvalState}
    (hop : getScriptOp pc = some (opcode, data, rest))
    (hstep : evalStep ctx opcode data rest s = .ok s') :
    evalLoop ctx (fuel + 1) pc s = evalLoop ctx fuel rest s' := by
  cases pc with
  | nil => cases hop
  | cons byte pc => simp [evalLoop, hop, hstep]

theorem toNat_toByte (opcode : OpcodeType) : 0x4c ≤ opcode.toByte.toNat := by
  cases opcode <;> decide

/-- A direct push of two bytes or more, which is the shortest one. -/
theorem evalStep_push {data pc : Bytes} {s : EvalState} (hexec : s.vfExec.allTrue = true)
    (hopcode : opcode.toNat < 0x4c) (hlength : data.length = opcode.toNat) (htwo : 2 ≤ data.length)
    (hstack : s.stack.length + s.altstack.length < maxStackSize) :
    evalStep ctx opcode data pc s =
      .ok { s with stack := data :: s.stack, opcodePos := s.opcodePos + 1 } := by
  have hminimal : checkMinimalPush data opcode = true := by
    match data with
    | byte₁ :: byte₂ :: data =>
      rw [checkMinimalPush]
      · rw [if_pos (by omega)]
        exact decide_eq_true hlength.symm
      · simp
      · simp
  have hlt (named : OpcodeType) : opcode < named.toByte :=
    UInt8.lt_iff_toNat_lt.mpr (hopcode.trans_le (toNat_toByte named))
  have hunnamed : OpcodeType.ofByte? opcode = none :=
    if_neg fun h => UInt8.not_le.mpr (hlt .opPushdata1) h.1
  have hexecuted : execOpcode ctx opcode data pc s = .ok { s with stack := data :: s.stack } := by
    unfold execOpcode
    rw [if_pos ⟨hexec, UInt8.le_of_lt (hlt _)⟩, if_neg (by simp [hminimal])]
  refine evalStep_of_exec ?_ (if_neg fun h => UInt8.lt_asymm h.2 (hlt _)) ?_
    (UInt8.ne_of_lt (hlt _)) hexecuted ?_
  · rw [maxScriptElementSize]
    omega
  · rw [isDisabled, hunnamed]
    rfl
  · exact Nat.succ_add _ _ ▸ hstack

end InterpreterLemmas

end Bitcoboost
