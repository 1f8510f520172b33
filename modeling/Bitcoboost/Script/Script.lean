import Bitcoboost.Util.Serialize
import Mathlib.Data.Finset.Basic

/-!
# Scripts

`CScript`, its opcodes, the reader of one operation and the predicates on whole
scripts, from `script/script.h` and `script.cpp`. A script is a byte string; a
position in it is the rest of the script from there on.
-/

namespace Bitcoboost

open List Option

/-- `CScript`: the serialized script. -/
abbrev CScript := Bytes

/-- `CScriptWitness`: the witness stack of an input. -/
abbrev CScriptWitness := List Bytes

/-- The script verification flags of `interpreter.h`. -/
inductive ScriptFlag where
  | p2sh
  | strictenc
  | dersig
  | lowS
  | nulldummy
  | sigpushonly
  | minimaldata
  | discourageUpgradableNops
  | cleanstack
  | checklocktimeverify
  | checksequenceverify
  | witness
  | discourageUpgradableWitnessProgram
  | minimalif
  | nullfail
  | witnessPubkeytype
  | constScriptcode
  | taproot
  | discourageUpgradableTaprootVersion
  | discourageOpSuccess
  | discourageUpgradablePubkeytype
deriving DecidableEq, Repr

/-- A set of verification flags, the `unsigned int flags` of the source. -/
abbrev ScriptFlags := Finset ScriptFlag

def mandatoryScriptVerifyFlags : ScriptFlags :=
  {.p2sh, .dersig, .nulldummy, .checklocktimeverify, .checksequenceverify, .witness, .taproot}

def standardScriptVerifyFlags : ScriptFlags :=
  mandatoryScriptVerifyFlags ∪ {.strictenc, .minimaldata, .discourageUpgradableNops,
    .cleanstack, .minimalif,
    .nullfail, .lowS, .discourageUpgradableWitnessProgram, .witnessPubkeytype, .constScriptcode,
    .discourageUpgradableTaprootVersion, .discourageOpSuccess, .discourageUpgradablePubkeytype}

def standardNotMandatoryVerifyFlags : ScriptFlags :=
  standardScriptVerifyFlags \ mandatoryScriptVerifyFlags

/-- The named opcodes of `opcodetype` from `OP_PUSHDATA1` on, in the order of
their codes. -/
inductive OpcodeType where
  -- push value
  | opPushdata1 | opPushdata2 | opPushdata4 | op1Negate | opReserved
  | op1 | op2 | op3 | op4 | op5 | op6 | op7 | op8
  | op9 | op10 | op11 | op12 | op13 | op14 | op15 | op16
  -- control
  | opNop | opVer | opIf | opNotif | opVerif | opVernotif | opElse | opEndif | opVerify | opReturn
  -- stack ops
  | opToaltstack | opFromaltstack | op2Drop | op2Dup | op3Dup | op2Over | op2Rot | op2Swap
  | opIfdup | opDepth | opDrop | opDup | opNip | opOver | opPick | opRoll | opRot | opSwap | opTuck
  -- splice ops
  | opCat | opSubstr | opLeft | opRight | opSize
  -- bit logic
  | opInvert | opAnd | opOr | opXor | opEqual | opEqualverify | opReserved1 | opReserved2
  -- numeric
  | op1Add | op1Sub | op2Mul | op2Div | opNegate | opAbs | opNot | op0Notequal
  | opAdd | opSub | opMul | opDiv | opMod | opLshift | opRshift
  | opBooland | opBoolor | opNumequal | opNumequalverify | opNumnotequal | opLessthan
  | opGreaterthan | opLessthanorequal | opGreaterthanorequal | opMin | opMax | opWithin
  -- crypto
  | opRipemd160 | opSha1 | opSha256 | opHash160 | opHash256 | opCodeseparator
  | opChecksig | opChecksigverify | opCheckmultisig | opCheckmultisigverify
  -- expansion
  | opNop1 | opChecklocktimeverify | opChecksequenceverify | opNop4 | opNop5 | opNop6 | opNop7
  | opNop8 | opNop9 | opNop10
  | opChecksigadd
deriving DecidableEq, Repr

namespace OpcodeType

/-- The code of a named opcode. -/
def toByte (opcode : OpcodeType) : UInt8 := UInt8.ofNat (0x4c + opcode.ctorIdx)

/-- The named opcode with a given code. -/
def ofByte? (opcode : UInt8) : Option OpcodeType :=
  if 0x4c ≤ opcode ∧ opcode ≤ 0xba then some (OpcodeType.ofNat (opcode.toNat - 0x4c)) else none

theorem ofByte?_toByte (opcode : OpcodeType) : ofByte? opcode.toByte = some opcode := by
  cases opcode <;> rfl

example : [op1.toByte, opNop.toByte, opDup.toByte, opChecksig.toByte, opChecksigadd.toByte]
    = [0x51, 0x61, 0x76, 0xac, 0xba] := by decide

end OpcodeType

def op0 : UInt8 := 0x00

def maxScriptElementSize : Nat := 520

def maxOpsPerScript : Nat := 201

def maxPubkeysPerMultisig : Nat := 20

def maxScriptSize : Nat := 10000

def maxStackSize : Nat := 1000

def locktimeThreshold : Nat := 500000000

/-! ## Reading one operation -/

/-- How many bytes after a push opcode hold the size of its operand. -/
def pushSizeWidth (opcode : UInt8) : Nat :=
  if opcode < OpcodeType.opPushdata1.toByte then 0
  else if opcode = OpcodeType.opPushdata1.toByte then 1
  else if opcode = OpcodeType.opPushdata2.toByte then 2
  else 4

/-- The operand size of a push opcode and the position after it. -/
def pushSize (opcode : UInt8) (pc : Bytes) : Option (Nat × Bytes) :=
  let width := pushSizeWidth opcode
  if width = 0 then some (opcode.toNat, pc)
  else if pc.length < width then none
  else some (Bytes.leValue (pc.take width), pc.drop width)

/-- `GetScriptOp`: the opcode, its operand and the position after it, in a script of less than
`2 ^ 31` bytes. -/
def getScriptOp : Bytes → Option (UInt8 × Bytes × Bytes)
  | [] => none
  | opcode :: pc =>
    if opcode ≤ OpcodeType.opPushdata4.toByte then do
      let (nSize, pc) ← pushSize opcode pc
      if pc.length < nSize then none else some (opcode, pc.take nSize, pc.drop nSize)
    else some (opcode, [], pc)

def decodeOpN (opcode : UInt8) : Option Nat :=
  if opcode = op0 then some 0
  else if OpcodeType.op1.toByte ≤ opcode ∧ opcode ≤ OpcodeType.op16.toByte then
    some (opcode.toNat - (OpcodeType.op1.toByte.toNat - 1))
  else none

namespace ScriptLemmas

theorem length_pushSize {opcode : UInt8} {pc rest : Bytes} {nSize : Nat}
    (h : pushSize opcode pc = some (nSize, rest)) : rest.length ≤ pc.length := by
  unfold pushSize at h
  dsimp only at h
  split at h
  · cases h
    exact le_refl _
  · split at h
    · cases h
    · cases h
      simp

end ScriptLemmas

open ScriptLemmas in
/-- Every operation is at least one byte long, so reading a script ends. -/
theorem length_getScriptOp {pc rest data : Bytes} {opcode : UInt8}
    (h : getScriptOp pc = some (opcode, data, rest)) : rest.length < pc.length := by
  cases pc with
  | nil => cases h
  | cons byte pc =>
    simp only [getScriptOp] at h
    split at h
    · simp only [bind_eq_bind, bind_eq_some_iff] at h
      obtain ⟨⟨nSize, rest'⟩, hsize, h⟩ := h
      have hle := length_pushSize hsize
      split at h
      · cases h
      · cases h
        simp only [length_drop, length_cons]
        omega
    · cases h
      exact Nat.lt_succ_self _

/-! ## Script numbers and pushes -/

/-- `CScriptNum(vch, fRequireMinimal, nMaxNumSize)`. `none` is the exception
`scriptnum_error`. -/
def scriptNum (vch : Bytes) (fRequireMinimal : Bool) (nMaxNumSize : Nat) : Option Int :=
  if vch.length > nMaxNumSize then none
  else
    match vch.getLast? with
    | none => some 0
    | some back =>
      if fRequireMinimal && back &&& 0x7f == 0 &&
          (vch.length ≤ 1 || vch.getD (vch.length - 2) 0 &&& 0x80 == 0) then none
      else
        let result := Bytes.leValue vch
        -- the sign bit is cleared before the number is negated
        if back &&& 0x80 ≠ 0 then some (-((result - (0x80 <<< (8 * (vch.length - 1))) : Nat) : Int))
        else some result

/-- The loop of `CScriptNum::serialize` over a 64-bit number. -/
def absBytes : Nat → Nat → Bytes
  | 0, _ => []
  | fuel + 1, absvalue => if absvalue = 0 then []
      else UInt8.ofNat absvalue :: absBytes fuel (absvalue >>> 8)

def scriptNumSerialize (value : Int) : Bytes :=
  let result := absBytes 8 value.natAbs
  match result.getLast? with
  | none => []
  | some back =>
    if back &&& 0x80 ≠ 0 then result ++ [if value < 0 then 0x80 else 0]
    else if value < 0 then result.dropLast ++ [back ||| 0x80]
    else result

def scriptNumGetint (value : Int) : Int :=
  if value > 2 ^ 31 - 1 then 2 ^ 31 - 1 else if value < -2 ^ 31 then -2 ^ 31 else value

/-- What `CScript::operator<<` appends for a byte vector. -/
def pushData (b : Bytes) : CScript :=
  (if b.length < 0x4c then leBytes 1 b.length
    else if b.length ≤ 0xff then OpcodeType.opPushdata1.toByte :: leBytes 1 b.length
    else if b.length ≤ 0xffff then OpcodeType.opPushdata2.toByte :: leBytes 2 b.length
    else OpcodeType.opPushdata4.toByte :: leBytes 4 b.length) ++ b

/-- What `CScript::push_int64` appends. -/
def pushInt64 (n : Int) : CScript :=
  if n = -1 ∨ (n ≥ 1 ∧ n ≤ 16) then [UInt8.ofNat (n + 0x50).toNat]
  else if n = 0 then [op0]
  else pushData (scriptNumSerialize n)

theorem pushData_short {b : Bytes} (h : b.length < 0x4c) :
    pushData b = UInt8.ofNat b.length :: b := by
  rw [pushData, if_pos h]
  rfl

theorem getScriptOp_pushData_short {b : Bytes} (h : b.length < 0x4c) (rest : Bytes) :
    getScriptOp (pushData b ++ rest) = some (UInt8.ofNat b.length, b, rest) := by
  have hnat : (UInt8.ofNat b.length).toNat = b.length :=
    UInt8.toNat_ofNat_of_lt (lt_trans h (by decide))
  have hlt : UInt8.ofNat b.length < OpcodeType.opPushdata1.toByte := by
    rw [UInt8.lt_iff_toNat_lt, hnat]
    exact h
  have hle : UInt8.ofNat b.length ≤ OpcodeType.opPushdata4.toByte := by
    rw [UInt8.le_iff_toNat_le, hnat]
    exact h.le.trans (by decide)
  have hsize : pushSize (UInt8.ofNat b.length) (b ++ rest) = some (b.length, b ++ rest) := by
    rw [pushSize, pushSizeWidth, if_pos hlt, if_pos rfl, hnat]
  rw [pushData_short h, cons_append, getScriptOp, if_pos hle, hsize]
  simp only [bind_eq_bind, bind_some, take_left, drop_left, length_append]
  rw [if_neg (by omega)]

/-- `CheckMinimalPush`. The assertion is that the opcode is a push. -/
def checkMinimalPush (data : Bytes) (opcode : UInt8) : Bool :=
  match data with
  | [] => opcode = op0
  | [byte] =>
    if byte ≥ 1 ∧ byte ≤ 16 then false
    else if byte = 0x81 then false
    else opcode = 1
  | _ =>
    if data.length ≤ 75 then opcode.toNat = data.length
    else if data.length ≤ 255 then opcode = OpcodeType.opPushdata1.toByte
    else if data.length ≤ 65535 then opcode = OpcodeType.opPushdata2.toByte
    else true

def isOpSuccess (opcode : UInt8) : Bool :=
  opcode = 80 ∨ opcode = 98 ∨ (opcode ≥ 126 ∧ opcode ≤ 129) ∨ (opcode ≥ 131 ∧ opcode ≤ 134) ∨
    (opcode ≥ 137 ∧ opcode ≤ 138) ∨ (opcode ≥ 141 ∧ opcode ≤ 142) ∨ (opcode ≥ 149 ∧ opcode ≤ 153) ∨
    (opcode ≥ 187 ∧ opcode ≤ 254)

/-! ## Predicates on whole scripts -/

namespace CScript

variable (script : CScript)

def isPayToScriptHash : Bool :=
  script.length = 23 ∧ script.getD 0 0 = OpcodeType.opHash160.toByte ∧ script.getD 1 0 = 0x14 ∧
    script.getD 22 0 = OpcodeType.opEqual.toByte

def isWitnessProgram : Option (Nat × Bytes) :=
  match script with
  | version :: size :: program =>
    if script.length < 4 ∨ script.length > 42 then none
    else if size.toNat + 2 = script.length then do
      let version ← decodeOpN version
      some (version, program)
    else none
  | _ => none

/-- The loop of `IsPushOnly`; a script of `n` bytes has at most `n` operations. -/
def isPushOnlyLoop : Nat → Bytes → Bool
  | 0, _ => true
  | fuel + 1, pc =>
    if pc.isEmpty then true
    else
      match getScriptOp pc with
      | none => false
      | some (opcode, _, rest) => if opcode > OpcodeType.op16.toByte then false
          else isPushOnlyLoop fuel rest

def isPushOnly : Bool := isPushOnlyLoop script.length script

def isUnspendable : Bool :=
  script.head? = some OpcodeType.opReturn.toByte ∨ script.length > maxScriptSize

def sigOpLoop (fAccurate : Bool) : Nat → Bytes → UInt8 → Nat → Nat
  | 0, _, _, n => n
  | fuel + 1, pc, lastOpcode, n =>
    match getScriptOp pc with
    | none => n
    | some (opcode, _, rest) =>
      let n :=
        if opcode = OpcodeType.opChecksig.toByte ∨ opcode = OpcodeType.opChecksigverify.toByte then
          n + 1
        else if opcode = OpcodeType.opCheckmultisig.toByte ∨
            opcode = OpcodeType.opCheckmultisigverify.toByte then
          if fAccurate ∧ OpcodeType.op1.toByte ≤ lastOpcode ∧
              lastOpcode ≤ OpcodeType.op16.toByte then
            n + (decodeOpN lastOpcode).getD 0
          else n + maxPubkeysPerMultisig
        else n
      sigOpLoop fAccurate fuel rest opcode n

/-- `GetSigOpCount(bool)`. -/
def getSigOpCount (fAccurate : Bool) : Nat :=
  -- `OP_INVALIDOPCODE` stands before the first operation
  sigOpLoop fAccurate script.length script 0xff 0

theorem sigOpLoop_nil (fAccurate : Bool) (fuel : Nat) (lastOpcode : UInt8) (n : Nat) :
    sigOpLoop fAccurate fuel [] lastOpcode n = n := by
  cases fuel <;> rfl

theorem sigOpLoop_of_lt {fAccurate : Bool} {fuel : Nat} {pc data rest : Bytes}
    {opcode lastOpcode : UInt8} {n : Nat} (hop : getScriptOp pc = some (opcode, data, rest))
    (hlt : opcode < OpcodeType.opChecksig.toByte) :
    sigOpLoop fAccurate (fuel + 1) pc lastOpcode n = sigOpLoop fAccurate fuel rest opcode n := by
  have hne {other : OpcodeType} (hle : OpcodeType.opChecksig.toByte ≤ other.toByte) :
      opcode ≠ other.toByte := by
    rintro rfl
    exact absurd hle (UInt8.not_le.mpr hlt)
  simp only [sigOpLoop, hop]
  rw [if_neg (not_or.mpr ⟨hne (by decide), hne (by decide)⟩),
    if_neg (not_or.mpr ⟨hne (by decide), hne (by decide)⟩)]

/-- The operand of the last operation of a script of pushes: the loop that
`GetSigOpCount(scriptSig)` and `CountWitnessSigOps` both run. `none` if an
operation is not a push. -/
def lastPush : Nat → Bytes → Bytes → Option Bytes
  | 0, _, vData => some vData
  | fuel + 1, pc, vData =>
    if pc.isEmpty then some vData
    else do
      let (opcode, data, rest) ← getScriptOp pc
      if opcode > OpcodeType.op16.toByte then none else lastPush fuel rest data

/-- `GetSigOpCount(scriptSig)`. -/
def getSigOpCountP2SH (scriptSig : CScript) : Nat :=
  if !script.isPayToScriptHash then script.getSigOpCount true
  else
    match lastPush scriptSig.length scriptSig [] with
    | none => 0
    | some subscript => getSigOpCount subscript true

def witnessSigOps (witversion : Nat) (witprogram : Bytes) (witness : CScriptWitness) : Nat :=
  if witversion = 0 then
    if witprogram.length = 20 then 1
    else if witprogram.length = 32 then
      match witness.getLast? with
      | some subscript => getSigOpCount subscript true
      | none => 0
    else 0
  else 0

/-- `CountWitnessSigOps`. `none` is the assertion that witness flags come with
the P2SH flag. -/
def countWitnessSigOps (scriptSig scriptPubKey : CScript) (witness : CScriptWitness)
    (flags : ScriptFlags) : Option Nat :=
  if .witness ∉ flags then some 0
  else if .p2sh ∉ flags then none
  else
    match scriptPubKey.isWitnessProgram with
    | some (version, program) => some (witnessSigOps version program witness)
    | none =>
      if scriptPubKey.isPayToScriptHash && scriptSig.isPushOnly then
        match isWitnessProgram ((lastPush scriptSig.length scriptSig []).getD []) with
        | some (version, program) => some (witnessSigOps version program witness)
        | none => some 0
      else some 0

end CScript

end Bitcoboost
