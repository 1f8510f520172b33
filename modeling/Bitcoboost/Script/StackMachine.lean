import Bitcoboost.Script.Interpreter

/-!
# Multisig on a stack machine

`Script.Interpreter` matches on the stack. Here the multisig opcodes of `EvalScript` are written
as in the source: they read `stacktop(-i)`, call `popstack` and compute with `CScriptNum` in 64
bits. An access outside a stack, an element of more than 520 bytes, a number of more than five
bytes, an overflow and a failed assertion of `CScriptNum` are faults.
-/

namespace Bitcoboost

/-- How `EvalScript` can end early. -/
inductive EvalFault where
  /-- It returns false, or a signature check breaks an assertion. -/
  | failure (f : ScriptFailure)
  | outOfRange
  | elementSize
  | numberRange
  | overflow
  | assertion
deriving DecidableEq

abbrev Checked (α : Type) := Except EvalFault α

namespace StackMachine

/-- A result without faults. -/
def report {α : Type} : ScriptResult α → Checked α
  | .ok a => .ok a
  | .error f => .error (.failure f)

/-! ## Stacks -/

def stacktop (stack : List Bytes) (i : Nat) : Checked Bytes :=
  if i = 0 then .error .outOfRange
  else
    match stack[i - 1]? with
    | none => .error .outOfRange
    | some vch => .ok vch

def popstack : List Bytes → Checked (List Bytes)
  | [] => .error .outOfRange
  | _ :: stack => .ok stack

def pushBack (stack : List Bytes) (vch : Bytes) : Checked (List Bytes) :=
  if vch.length > maxScriptElementSize then .error .elementSize else .ok (vch :: stack)

/-- `if (stack.size() < n) return set_error(serror, SCRIPT_ERR_INVALID_STACK_OPERATION)`. -/
def need (stack : List Bytes) (n : Nat) : Checked Unit :=
  report (errorIf (stack.length < n) .invalidStackOperation)

/-! ## `CScriptNum` -/

/-- The largest number of five bytes. -/
def numberLimit : Int := 2 ^ 39 - 1

/-- `CScriptNum(n)`. -/
def number (n : Int) : Checked Int :=
  if -numberLimit ≤ n ∧ n ≤ numberLimit then .ok n else .error .numberRange

/-- An arithmetic result of type `int64_t`. -/
def int64 (n : Int) : Checked Int :=
  if -2 ^ 63 ≤ n ∧ n ≤ 2 ^ 63 - 1 then .ok n else .error .overflow

variable (ctx : EvalContext)

/-- `CScriptNum(vch, fRequireMinimal, nMaxNumSize)`. -/
def readNumber (vch : Bytes) (nMaxNumSize : Nat) : Checked Int := do
  let n ← report (ctx.scriptNum vch nMaxNumSize)
  number (← int64 n)

/-! ## Opcodes -/

/-- The end of an opcode with a `VERIFY` form. -/
def pushOrVerify (fVerify fSuccess : Bool) (e : ScriptError) (stack : List Bytes) :
    Checked (List Bytes) := do
  let stack ← pushBack stack (vchBool fSuccess)
  if fVerify then if fSuccess then popstack stack else report (setError e) else .ok stack

/-! ### Multisig -/

/-- The numbers of keys and of signatures of `OP_CHECKMULTISIG`, whose places are on the stack. -/
def multisigCounts (stack : List Bytes) (nOpCount : Nat) : Checked (Nat × Nat) := do
  need stack 1
  let nKeysCount := scriptNumGetint (← readNumber ctx (← stacktop stack 1) nDefaultMaxNumSize)
  report (errorIf (nKeysCount < 0 ∨ nKeysCount > maxPubkeysPerMultisig) .pubkeyCount)
  report (errorIf (nOpCount + nKeysCount.toNat > maxOpsPerScript) .opCount)
  let i := 2 + nKeysCount.toNat
  need stack i
  let nSigsCount := scriptNumGetint (← readNumber ctx (← stacktop stack i) nDefaultMaxNumSize)
  report (errorIf (nSigsCount < 0 ∨ nSigsCount > nKeysCount) .sigCount)
  let i := i + 1 + nSigsCount.toNat
  need stack i
  .ok (nKeysCount.toNat, nSigsCount.toNat)

/-- `FindAndDelete` of the signatures `stacktop(-isig - k)`, with the number of those left. -/
def deleteSignatures (ctx : EvalContext) (stack : List Bytes) (isig : Nat) :
    Nat → Nat → CScript → Checked CScript
  | 0, _, scriptCode => .ok scriptCode
  | left + 1, k, scriptCode => do
    let vchSig ← stacktop stack (isig + k)
    let scriptCode ← report (deleteSignature ctx scriptCode vchSig)
    deleteSignatures ctx stack isig left (k + 1) scriptCode

/-- The loop of `OP_CHECKMULTISIG` over `nKeysCount` keys and `nSigsCount` signatures: whether it
succeeds, and the signature checks that it makes. -/
def checkKeys (ctx : EvalContext) (scriptCode : CScript) (stack : List Bytes) :
    Nat → Nat → Nat → Nat → Checked (Bool × List (Bytes × Bytes))
  | _, 0, _, _ => .ok (true, [])
  -- there never are more signatures than keys
  | 0, _ + 1, _, _ => .error .assertion
  | nKeysCount + 1, nSigsCount + 1, ikey, isig => do
    let vchSig ← stacktop stack isig
    let vchPubKey ← stacktop stack ikey
    report (checkSignatureEncoding vchSig ctx.flags)
    report (checkPubKeyEncoding vchPubKey ctx.flags ctx.sigversion)
    let fOk ← report (ctx.checker.checkECDSASignature vchSig vchPubKey scriptCode ctx.sigversion)
    let isig := if fOk then isig + 1 else isig
    let nSigsCount := if fOk then nSigsCount else nSigsCount + 1
    if nSigsCount > nKeysCount then .ok (false, [(vchSig, vchPubKey)])
    else do
      let (fSuccess, checks) ← checkKeys ctx scriptCode stack nKeysCount nSigsCount (ikey + 1) isig
      .ok (fSuccess, (vchSig, vchPubKey) :: checks)

/-- The test of the top element that `SCRIPT_VERIFY_NULLFAIL` and `SCRIPT_VERIFY_NULLDUMMY` ask
for. -/
def requireEmpty (cond : Bool) (e : ScriptError) (stack : List Bytes) : Checked Unit :=
  if cond then do
    let vch ← stacktop stack 1
    report (errorIf (!vch.isEmpty) e)
  else .ok ()

/-- The loop that takes the arguments off the stack. Once `ikey2` is 0 they are signatures. -/
def cleanUp (fNullfail : Bool) : Nat → Nat → List Bytes → Checked (List Bytes)
  | 0, _, stack => .ok stack
  | left + 1, ikey2, stack => do
    requireEmpty (fNullfail && ikey2 = 0) .sigNullfail stack
    let stack ← popstack stack
    cleanUp fNullfail left (ikey2 - 1) stack

/-- The end of `OP_CHECKMULTISIG`: the arguments and the extra element come off the stack, and the
result is pushed. -/
def finishMultisig (fVerify fSuccess : Bool) (nKeysCount nSigsCount : Nat) (stack : List Bytes) :
    Checked (List Bytes) := do
  let i := nKeysCount + 3 + nSigsCount
  let ikey2 := nKeysCount + 2
  let stack ← cleanUp (!fSuccess && ctx.has .nullfail) (i - 1) ikey2 stack
  need stack 1
  requireEmpty (ctx.has .nulldummy) .sigNulldummy stack
  let stack ← popstack stack
  pushOrVerify fVerify fSuccess .checkmultisigverify stack

/-- `OP_CHECKMULTISIG` and `OP_CHECKMULTISIGVERIFY`, with the signature checks made. -/
def checkMultisigOp (fVerify : Bool) (s : EvalState) :
    Checked (EvalState × List (Bytes × Bytes)) := do
  report (errorIf (ctx.sigversion = .tapscript) .tapscriptCheckmultisig)
  let (nKeysCount, nSigsCount) ← multisigCounts ctx s.stack s.nOpCount
  let ikey := 2
  let isig := nKeysCount + 3
  let scriptCode ← deleteSignatures ctx s.stack isig nSigsCount 0 s.codeHash
  let (fSuccess, checks) ← checkKeys ctx scriptCode s.stack nKeysCount nSigsCount ikey isig
  let stack ← finishMultisig ctx fVerify fSuccess nKeysCount nSigsCount s.stack
  .ok ({ s with stack, nOpCount := s.nOpCount + nKeysCount }, checks)

/-! ## The loop -/

/-- The checks of the loop body before an opcode is executed. -/
def beginStep (opcode : UInt8) (vchPushValue : Bytes) (s : EvalState) : ScriptResult EvalState := do
  errorIf (vchPushValue.length > maxScriptElementSize) .pushSize
  let s ← countOpcode ctx opcode s
  errorIf (isDisabled opcode) .disabledOpcode
  errorIf (opcode = OpcodeType.opCodeseparator.toByte ∧ ctx.sigversion = .base ∧
      ctx.has .constScriptcode)
    .opCodeseparator
  .ok s

/-- The variables of `EvalScript` before the loop. -/
def start (stack : List Bytes) (script : CScript) (execdata : ScriptExecutionData) : EvalState :=
  ⟨stack, [], {}, 0, script, 0, { execdata with codeseparatorPos := some 0xffffffff }⟩

end StackMachine

end Bitcoboost
