import Bitcoboost.Script.MachineRefinement
import Bitcoboost.Script.QuantumSafe

/-!
# Tapscript signature checks and the Taproot commitment

The only limit on signature checks in Tapscript is the validation weight. What is left of it is,
at every point of a run, the budget less 50 for each check that was executed
(`evalStep_weight`), also where the check fails or the kind of the key is not known.

The Merkle root of the script tree is recomputed from the leaf script and the control block. As
each branch hashes its two children in order, it does not matter which of them is left.
-/

namespace Bitcoboost

open QuantumSafeLemmas ExceptBind StackMachine EvalContext TransactionSignatureChecker
    OpcodeType List

/-! ## Counting signature checks -/

variable (ctx : EvalContext)

/-- The signature that an executed opcode of a Tapscript gives to `EvalChecksig`. -/
def EvalContext.signatureOf (opcode : OpcodeType) (stack : List Bytes) : Option Bytes :=
  match opcode, stack with
  | .opChecksig, _ :: vchSig :: _ => some vchSig
  | .opChecksigverify, _ :: vchSig :: _ => some vchSig
  | .opChecksigadd, _ :: num :: sig :: _ =>
    match ctx.scriptNum num nDefaultMaxNumSize with
    | .ok _ => some sig
    | .error _ => none
  | _, _ => none

def isChecked (sig : Bytes) (execdata : ScriptExecutionData) : Bool :=
  !sig.isEmpty && (spendValidationWeight sig execdata).toOption.isSome

/-- The signatures, other than empty ones, whose check an executed opcode reaches: one or none. The
check counts also if it then fails. -/
def EvalContext.opcodeSigChecks (opcode : OpcodeType) (s : EvalState) : Nat :=
  match ctx.signatureOf opcode s.stack with
  | none => 0
  | some sig => if isChecked sig s.execdata then 1 else 0

/-- The same of an opcode that passed the checks before the `switch`. It may be a push, or
skipped. -/
def EvalContext.execSigChecks (opcode : UInt8) (s : EvalState) : Nat :=
  if s.vfExec.allTrue then
    match OpcodeType.ofByte? opcode with
    | none => 0
    | some opcode => ctx.opcodeSigChecks opcode s
  else 0

/-- The same of the loop body of `EvalScript`. -/
def EvalContext.stepSigChecks (opcode : UInt8) (vchPushValue : Bytes) (s : EvalState) : Nat :=
  match beginStep ctx opcode vchPushValue s with
  | .error _ => 0
  | .ok s => ctx.execSigChecks opcode s

/-- The loop of `EvalScript`, with the number of checks that it executes before it stops. -/
def EvalContext.countedLoop (ctx : EvalContext) :
    Nat → CScript → EvalState → Nat × ScriptResult EvalState
  | 0, _, s => (0, .ok s)
  | fuel + 1, pc, s =>
    if pc.isEmpty then (0, .ok s)
    else
      match getScriptOp pc with
      | none => (0, setError .badOpcode)
      | some (opcode, vchPushValue, rest) =>
        let checks := ctx.stepSigChecks opcode vchPushValue s
        match Bitcoboost.evalStep ctx opcode vchPushValue rest s with
        | .error e => (checks, .error e)
        | .ok s' => (ctx.countedLoop fuel rest s').map (checks + ·) id

/-- The same interpreter with other answers to the checks of Schnorr signatures. -/
def EvalContext.answering
    (answer : Bytes → Bytes → SigVersion → ScriptExecutionData → ScriptResult ScriptExecutionData) :
    EvalContext :=
  { ctx with checker := { ctx.checker with checkSchnorrSignature := answer } }

def SignatureChecker.KeepsWeight (checker : SignatureChecker) : Prop :=
  ∀ sig pubkey sigversion execdata execdata',
    checker.checkSchnorrSignature sig pubkey sigversion execdata = .ok execdata' →
    execdata'.validationWeightLeft = execdata.validationWeightLeft

/-! ## Script trees -/

/-- The variables of `EvalScript` before the loop, in a script path spend of Taproot: `stack` is the
witness without annex, script and control block, its top first. -/
def tapscriptStart (crypto : Crypto) (witness : CScriptWitness) (control script : Bytes)
    (stack : List Bytes) : EvalState :=
  start stack script
    { annex := some (dropAnnex crypto witness).2
      tapleafHash := some (computeTapleafHash crypto (control.headD 0 &&& taprootLeafMask) script)
      validationWeightLeft :=
        some ((serializeVector serializeBytes witness).length + validationWeightOffset : Nat) }

/-- What `VerifyWitnessProgram` does with a script path spend of Taproot before it runs the
script, and whether it runs it: an `OP_SUCCESSx` or another leaf version is accepted as it is. -/
def tapscriptRuns (program control script : Bytes) (stack : List Bytes) : ScriptResult Bool :=
  if control.length < taprootControlBaseSize ∨ control.length > taprootControlMaxSize ∨
      (control.length - taprootControlBaseSize) % taprootControlNodeSize ≠ 0 then
    setError .taprootWrongControlSize
  else
    let leafVersion := control.headD 0 &&& taprootLeafMask
    if !verifyTaprootCommitment ctx.crypto control program
        (computeTapleafHash ctx.crypto leafVersion script) then
      setError .witnessProgramMismatch
    else if leafVersion = taprootLeafTapscript then do
      let success ← scanOpSuccess { ctx with sigversion := .tapscript } script.length script
      if success then .ok false
      else do
        errorIf (stack.length > maxStackSize) .stackSize
        errorIf (stack.any fun elem => elem.length > maxScriptElementSize) .pushSize
        .ok true
    else do
      errorIf (ctx.has .discourageUpgradableTaprootVersion) .discourageUpgradableTaprootVersion
      .ok false

/-- What `VerifyScript` does before it runs the script of such a spend. -/
def beforeTapscript (scriptSig scriptPubKey : CScript)
    (program control script : Bytes) (stack : List Bytes) : ScriptResult Bool := do
  errorIf (ctx.has .sigpushonly && !CScript.isPushOnly scriptSig) .sigPushonly
  let (stackCopy, _) ← evalScript ctx [] scriptSig {}
  let (result, _) ← evalScript ctx stackCopy scriptPubKey {}
  requireTrue result
  errorIf (!scriptSig.isEmpty) .witnessMalleated
  tapscriptRuns ctx program control script stack

/-- What it does after the loop of `EvalScript`. -/
def afterTapscript (s : EvalState) : ScriptResult Unit := do
  errorIf (!s.vfExec.empty) .unbalancedConditional
  errorIf (s.stack.length ≠ 1) .cleanstack
  requireTrue s.stack

/-- The root of `ComputeTaprootMerkleRoot` where at each level `swapped` puts the node of the
control block first. -/
def merkleRootInOrder (crypto : Crypto) (swapped : Nat → Bool) (control : Bytes)
    (tapleafHash : Uint256) : Uint256 :=
  let pathLen := (control.length - taprootControlBaseSize) / taprootControlNodeSize
  (List.range pathLen).foldl (fun k i =>
    let node :=
      (control.drop (taprootControlBaseSize + taprootControlNodeSize * i)).take
        taprootControlNodeSize
    if swapped i then computeTapbranchHash crypto node k.data
    else computeTapbranchHash crypto k.data node) tapleafHash

namespace TapscriptLemmas

variable {ctx : EvalContext} {execdata execdata' : ScriptExecutionData} {opcode : OpcodeType}
  {sig pubkey : Bytes}
  {s s' : EvalState} {w : Int} {stack : List Bytes} {fExec success : Bool} {e : ScriptError}
  {pc : CScript}

theorem spendValidationWeight_ok (hw : execdata.validationWeightLeft = some w)
    (h : spendValidationWeight sig execdata = .ok execdata') : (sig = [] ∧ execdata' = execdata) ∨
      (sig ≠ [] ∧ 50 ≤ w ∧ execdata' =
        { execdata with validationWeightLeft := some (w - 50) }) := by
  rw [spendValidationWeight] at h
  by_cases hsig : sig.isEmpty = true
  · rw [if_pos hsig] at h
    exact .inl ⟨List.isEmpty_iff.mp hsig, (Except.ok.inj h).symm⟩
  · rw [if_neg hsig] at h
    obtain ⟨weight, hweight, h⟩ := bind_ok.mp h
    obtain ⟨_, herror, h⟩ := bind_ok.mp h
    rw [orAssert_ok, hw, Option.some.injEq] at hweight
    subst hweight
    rw [errorIf_ok, decide_eq_false_iff_not] at herror
    refine .inr ⟨fun hnil => hsig (List.isEmpty_iff.mpr hnil), ?_, (Except.ok.inj h).symm⟩
    rw [validationWeightPerSigopPassed] at herror
    omega

/-- What a check of a signature costs. -/
theorem evalChecksigTapscript_weight (hkeeps : ctx.checker.KeepsWeight)
    (hw : execdata.validationWeightLeft = some w)
    (h : evalChecksigTapscript ctx sig pubkey execdata = .ok (success, execdata')) :
    execdata'.validationWeightLeft = some (w - 50 * if isChecked sig execdata then 1 else 0) := by
  obtain ⟨spent, hspend, h⟩ := bind_ok.mp h
  have hspent :
      spent.validationWeightLeft = some (w - 50 * if isChecked sig execdata then 1 else 0) := by
    rw [isChecked, hspend]
    rcases spendValidationWeight_ok hw hspend with ⟨rfl, rfl⟩ | ⟨hne, _, rfl⟩
    · simpa using hw
    · have hempty : sig.isEmpty = false := by
        cases sig with
        | nil => exact absurd rfl hne
        | cons => rfl
      rw [hempty]
      rfl
  dsimp only at h
  split at h
  · cases h
  · split at h
    · split at h
      · obtain ⟨kept, hcheck, h⟩ := bind_ok.mp h
        cases h
        rw [hkeeps _ _ _ _ _ hcheck, hspent]
      · cases h
        exact hspent
    · split at h
      · cases h
      · cases h
        exact hspent

/-- A computation that leaves the weight of a state as it is. -/
def Keeps (s : EvalState) (x : ScriptResult EvalState) : Prop :=
  ∀ s', x = .ok s' → s'.execdata.validationWeightLeft = s.execdata.validationWeightLeft

theorem keeps_ok (h : s'.execdata.validationWeightLeft = s.execdata.validationWeightLeft) :
    Keeps s (.ok s') := by
  rintro _ ⟨⟩
  exact h

theorem keeps_error {e : ScriptFailure} : Keeps s (.error e) := nofun

theorem keeps_bind {α : Type} {x : ScriptResult α} {f : α → ScriptResult EvalState}
    (h : ∀ a, Keeps s (f a)) : Keeps s (x >>= f) := by
  intro s' hs'
  obtain ⟨a, _, ha⟩ := bind_ok.mp hs'
  exact h a s' ha

theorem keeps_ite {p : Prop} [Decidable p] {x y : ScriptResult EvalState} (hx : Keeps s x)
    (hy : Keeps s y) : Keeps s (if p then x else y) := by
  split
  · exact hx
  · exact hy

theorem checkMultisigOp_keeps (fVerify : Bool) (s : EvalState) :
    Keeps s (Bitcoboost.checkMultisigOp ctx fVerify s) := by
  refine keeps_bind fun _ => keeps_bind fun _ => keeps_bind fun _ => keeps_bind fun _ =>
      keeps_bind fun _ => keeps_bind fun _ =>
    keeps_bind fun _ => keeps_ok rfl

theorem keeps_pop {f : Bytes → List Bytes → ScriptResult EvalState}
    (h : ∀ vch rest, Keeps s (f vch rest)) : Keeps s (match stack with
      | [] => setError e
      | vch :: rest => f vch rest) := by
  cases stack with
  | nil => exact keeps_error
  | cons vch rest => exact h vch rest

theorem keeps_pop_two {f : Bytes → Bytes → List Bytes → ScriptResult EvalState}
    (h : ∀ vch2 vch1 rest, Keeps s (f vch2 vch1 rest)) : Keeps s (match stack with
      | vch2 :: vch1 :: rest => f vch2 vch1 rest
      | _ => setError e) := by
  split
  · exact h _ _ _
  · exact keeps_error

/-- The opcodes of Tapscript that check a signature. -/
abbrev IsSigCheck (opcode : OpcodeType) : Prop :=
  opcode = .opChecksig ∨ opcode = .opChecksigverify ∨ opcode = .opChecksigadd

/-- An opcode that checks no signature leaves the weight as it is. -/
theorem evalOpcode_keeps (hother : ¬IsSigCheck opcode) :
    Keeps s (Bitcoboost.evalOpcode ctx opcode fExec pc s) := by
  cases opcode with
  | opChecksig | opChecksigverify | opChecksigadd => simp at hother
  | opCheckmultisig | opCheckmultisigverify => exact checkMultisigOp_keeps _ s
  | op1Negate | op1 | op2 | op3 | op4 | op5 | op6 | op7 | op8 | op9 | op10 | op11 | op12 | op13
  | op14 | op15 | op16 | opNop | opCodeseparator => exact keeps_ok rfl
  | opChecklocktimeverify | opChecksequenceverify | opNop1 | opNop4 | opNop5 | opNop6 | opNop7
  | opNop8 | opNop9 | opNop10 =>
    exact keeps_bind fun _ => keeps_ok rfl
  | opPick | opRoll => exact keeps_bind fun _ => keeps_ok rfl
  | opIf | opNotif => exact keeps_ite (keeps_bind fun _ => keeps_ok rfl) (keeps_ok rfl)
  | opElse | opEndif => exact keeps_ite keeps_error (keeps_ok rfl)
  | opVerify => exact keeps_pop fun _ _ => keeps_ite (keeps_ok rfl) keeps_error
  | opToaltstack | opFromaltstack => exact keeps_pop fun _ _ => keeps_ok rfl
  | op2Drop | op2Dup | op3Dup | op2Over | op2Rot | op2Swap | opIfdup | opDepth | opDrop | opDup
  | opNip | opOver | opRot | opSwap | opTuck | opSize =>
    unfold Bitcoboost.evalOpcode
    dsimp only
    split
    · exact keeps_error
    · exact keeps_ok rfl
  | opEqual | opEqualverify => exact keeps_pop_two fun _ _ _ => keeps_bind fun _ => keeps_ok rfl
  | op1Add | op1Sub | opNegate | opAbs | opNot | op0Notequal =>
    exact keeps_pop fun _ _ => keeps_bind fun _ => keeps_ok rfl
  | opAdd | opSub | opBooland | opBoolor | opNumequal | opNumequalverify | opNumnotequal
  | opLessthan | opGreaterthan | opLessthanorequal | opGreaterthanorequal | opMin | opMax =>
    exact keeps_pop_two fun _ _ _ => keeps_bind fun _ => keeps_bind fun _ =>
      keeps_ite (keeps_ite (keeps_ok rfl) keeps_error) (keeps_ok rfl)
  | opWithin =>
    unfold Bitcoboost.evalOpcode
    dsimp only
    split
    · exact keeps_bind fun _ => keeps_bind fun _ => keeps_bind fun _ => keeps_ok rfl
    · exact keeps_error
  | opRipemd160 | opSha1 | opSha256 | opHash160 | opHash256 =>
    exact keeps_pop fun _ _ => keeps_ok rfl
  | _ => exact keeps_error

/-! ### One opcode -/

theorem opcodeSigChecks_other (hother : ¬IsSigCheck opcode) : ctx.opcodeSigChecks opcode s = 0 := by
  simp only [IsSigCheck, not_or] at hother
  rw [opcodeSigChecks, signatureOf]
  · exact fun _ _ _ h _ => hother.1 h
  · exact fun _ _ _ h _ => hother.2.1 h
  · exact fun _ _ _ _ h _ => hother.2.2 h

section Weight

variable (hversion : ctx.sigversion = .tapscript) (hkeeps : ctx.checker.KeepsWeight)
include hversion hkeeps

theorem evalChecksig_weight {codeHash : CScript} (hw : execdata.validationWeightLeft = some w)
    (h : evalChecksig ctx sig pubkey codeHash execdata = .ok (success, execdata')) :
    execdata'.validationWeightLeft = some (w - 50 * if isChecked sig execdata then 1 else 0) := by
  unfold evalChecksig at h
  rw [hversion] at h
  exact evalChecksigTapscript_weight hkeeps hw h

variable (hw : s.execdata.validationWeightLeft = some w)
include hw

theorem checkSigOp_weight {fVerify : Bool} (hop : opcode = .opChecksig ∨ opcode = .opChecksigverify)
    (h : Bitcoboost.checkSigOp ctx fVerify s = .ok s') :
    s'.execdata.validationWeightLeft = some (w - 50 * ctx.opcodeSigChecks opcode s) := by
  unfold Bitcoboost.checkSigOp at h
  split at h
  · next vchPubKey vchSig stack hstack =>
    obtain ⟨⟨fSuccess, execdata⟩, hcheck, h⟩ := bind_ok.mp h
    obtain ⟨_, -, h⟩ := bind_ok.mp h
    cases h
    have hsignature : ctx.signatureOf opcode s.stack = some vchSig := by
      rw [hstack]
      rcases hop with rfl | rfl
      · rfl
      · rfl
    rw [opcodeSigChecks, hsignature]
    exact_mod_cast evalChecksig_weight hversion hkeeps hw hcheck
  · cases h

theorem checkSigAddOp_weight (h : Bitcoboost.checkSigAddOp ctx s = .ok s') :
    s'.execdata.validationWeightLeft = some (w - 50 * ctx.opcodeSigChecks .opChecksigadd s) := by
  unfold Bitcoboost.checkSigAddOp at h
  split at h
  · cases h
  · split at h
    · next pubkey num sig stack hstack =>
      obtain ⟨n, hnum, h⟩ := bind_ok.mp h
      obtain ⟨⟨success, execdata⟩, hcheck, h⟩ := bind_ok.mp h
      cases h
      have hsignature : ctx.signatureOf .opChecksigadd s.stack = some sig := by
        rw [hstack, signatureOf, hnum]
      rw [opcodeSigChecks, hsignature]
      exact_mod_cast evalChecksig_weight hversion hkeeps hw hcheck
    · cases h

theorem evalOpcode_weight (h : Bitcoboost.evalOpcode ctx opcode fExec pc s = .ok s') :
    s'.execdata.validationWeightLeft = some (w - 50 * ctx.opcodeSigChecks opcode s) := by
  by_cases hop : IsSigCheck opcode
  · rcases hop with rfl | rfl | rfl
    · exact checkSigOp_weight hversion hkeeps hw (.inl rfl) h
    · exact checkSigOp_weight hversion hkeeps hw (.inr rfl) h
    · exact checkSigAddOp_weight hversion hkeeps hw h
  · rw [opcodeSigChecks_other hop, evalOpcode_keeps hop s' h, hw]
    simp

end Weight

/-! ### One turn of the loop -/

variable {byte : UInt8} {vchPushValue : Bytes} {pc : CScript} {crypto : Crypto}

theorem opcodeSigChecks_of_le (hle : byte ≤ OpcodeType.opEndif.toByte)
    (hop : OpcodeType.ofByte? byte = some opcode) : ctx.opcodeSigChecks opcode s = 0 := by
  have hnot : ∀ byte : UInt8, byte ≤ opEndif.toByte → ∀ opcode ∈ ofByte? byte, ¬IsSigCheck opcode :=
    forall_uint8 (by decide +kernel)
  exact opcodeSigChecks_other (hnot byte hle opcode hop)

theorem execSigChecks_of_le (hle : byte ≤ OpcodeType.opEndif.toByte) :
    ctx.execSigChecks byte s = 0 := by
  unfold execSigChecks
  split
  · cases hop : ofByte? byte with
    | none => rfl
    | some opcode => exact opcodeSigChecks_of_le hle hop
  · rfl

/-- The checks before an opcode change nothing but the count. -/
theorem beginStep_ok (h : beginStep ctx byte vchPushValue s = .ok s') :
    ∃ nOpCount, s' = { s with nOpCount } := by
  obtain ⟨_, -, h⟩ := bind_ok.mp h
  obtain ⟨s₁, hcount, h⟩ := bind_ok.mp h
  obtain ⟨_, -, h⟩ := bind_ok.mp h
  obtain ⟨_, -, h⟩ := bind_ok.mp h
  cases h
  unfold countOpcode at hcount
  split at hcount
  · split at hcount
    · cases hcount
    · cases hcount
      exact ⟨_, rfl⟩
  · cases hcount
    exact ⟨s.nOpCount, rfl⟩

theorem evalStep_begin (byte : UInt8) (vchPushValue : Bytes) (pc : CScript) (s : EvalState) :
    Bitcoboost.evalStep ctx byte vchPushValue pc s =
      (beginStep ctx byte vchPushValue s >>= fun s => do
      let s ← Bitcoboost.execOpcode ctx byte vchPushValue pc s
      errorIf (s.stack.length + s.altstack.length > maxStackSize) .stackSize
      .ok { s with opcodePos := s.opcodePos + 1 }) := by
  simp [Bitcoboost.evalStep, beginStep]

section Weight

variable (hw : s.execdata.validationWeightLeft = some w)
include hw

section Le

variable (hpos : 0 ≤ w)
include hpos

/-- What is checked is paid for. -/
theorem opcodeSigChecks_le : 50 * (ctx.opcodeSigChecks opcode s : Int) ≤ w := by
  unfold opcodeSigChecks
  split
  · simpa using hpos
  · next sig _ =>
    by_cases hchecked : isChecked sig s.execdata = true
    · rw [if_pos hchecked]
      rw [isChecked, Bool.and_eq_true, Option.isSome_iff_exists] at hchecked
      obtain ⟨hne, execdata, hspend⟩ := hchecked
      rcases spendValidationWeight_ok hw (toOption_eq_some.mp hspend) with ⟨rfl, _⟩ | ⟨_, hle, _⟩
      · cases hne
      · simpa using hle
    · rw [if_neg hchecked]
      simpa using hpos

theorem execSigChecks_le : 50 * (ctx.execSigChecks byte s : Int) ≤ w := by
  unfold execSigChecks
  split
  · split
    · simpa using hpos
    · exact opcodeSigChecks_le hw hpos
  · simpa using hpos

theorem stepSigChecks_le : 50 * (ctx.stepSigChecks byte vchPushValue s : Int) ≤ w := by
  unfold stepSigChecks
  split
  · simpa using hpos
  · next s₁ hbegin =>
    obtain ⟨nOpCount, rfl⟩ := beginStep_ok hbegin
    exact execSigChecks_le hw hpos

end Le

variable (hversion : ctx.sigversion = .tapscript) (hkeeps : ctx.checker.KeepsWeight)
include hversion hkeeps

theorem execOpcode_weight (h : Bitcoboost.execOpcode ctx byte vchPushValue pc s = .ok s') :
    s'.execdata.validationWeightLeft = some (w - 50 * ctx.execSigChecks byte s) := by
  unfold Bitcoboost.execOpcode at h
  dsimp only at h
  split at h
  · next hpush =>
    rw [execSigChecks_of_le (UInt8.le_trans hpush.2 (by decide))]
    split at h
    · cases h
    · cases h
      simpa using hw
  · split at h
    · next hexec =>
      cases hop : ofByte? byte with
      | none =>
        rw [hop] at h
        cases h
      | some opcode =>
        rw [hop] at h
        rw [evalOpcode_weight hversion hkeeps hw h]
        by_cases hall : s.vfExec.allTrue = true
        · rw [execSigChecks, if_pos hall, hop]
        · have hle := (hexec.resolve_left hall).2
          rw [opcodeSigChecks_of_le hle hop, execSigChecks_of_le hle]
    · next hskip =>
      cases h
      rw [execSigChecks, if_neg fun hall => hskip (.inl hall)]
      simpa using hw

/-- A turn of the loop that succeeds has spent 50 for each check. -/
theorem evalStep_weight (h : Bitcoboost.evalStep ctx byte vchPushValue pc s = .ok s') :
    s'.execdata.validationWeightLeft = some (w - 50 * ctx.stepSigChecks byte vchPushValue s) := by
  rw [evalStep_begin] at h
  obtain ⟨s₁, hbegin, h⟩ := bind_ok.mp h
  obtain ⟨s₂, hexec, h⟩ := bind_ok.mp h
  obtain ⟨_, -, h⟩ := bind_ok.mp h
  cases h
  rw [stepSigChecks, hbegin]
  obtain ⟨nOpCount, rfl⟩ := beginStep_ok hbegin
  have hspent := execOpcode_weight (s := { s with nOpCount }) hw hversion hkeeps hexec
  exact hspent

end Weight

/-! ### What is not counted -/

section Uncounted

variable {answer : Bytes → Bytes → SigVersion → ScriptExecutionData →
  ScriptResult ScriptExecutionData} (hversion : ctx.sigversion = .tapscript)
include hversion

theorem evalChecksig_answering {codeHash : CScript} (hunchecked : isChecked sig execdata = false) :
    evalChecksig (ctx.answering answer) sig pubkey codeHash execdata =
      evalChecksig ctx sig pubkey codeHash execdata := by
  unfold evalChecksig evalChecksigTapscript answering
  dsimp only
  rw [hversion]
  cases hspend : spendValidationWeight sig execdata with
  | error e => rfl
  | ok execdata' =>
    rw [isChecked, hspend] at hunchecked
    have hempty : sig.isEmpty = true := by simpa [Except.toOption] using hunchecked
    rw [hempty]
    rfl

theorem checkSigOp_answering {fVerify : Bool}
    (hop : opcode = .opChecksig ∨ opcode = .opChecksigverify)
    (hzero : ctx.opcodeSigChecks opcode s = 0) :
    Bitcoboost.checkSigOp (ctx.answering answer) fVerify s =
      Bitcoboost.checkSigOp ctx fVerify s := by
  unfold Bitcoboost.checkSigOp
  split
  · next vchPubKey vchSig stack hstack =>
    have hunchecked : isChecked vchSig s.execdata = false := by
      rcases hop with rfl | rfl
      all_goals simpa [opcodeSigChecks, signatureOf, hstack] using hzero
    rw [evalChecksig_answering hversion hunchecked]
  · rfl

theorem checkSigAddOp_answering (hzero : ctx.opcodeSigChecks .opChecksigadd s = 0) :
    Bitcoboost.checkSigAddOp (ctx.answering answer) s = Bitcoboost.checkSigAddOp ctx s := by
  have hscriptNum : (ctx.answering answer).scriptNum = ctx.scriptNum := rfl
  have hversion' : (ctx.answering answer).sigversion = ctx.sigversion := rfl
  unfold Bitcoboost.checkSigAddOp
  rw [hscriptNum, hversion']
  congr 1
  split
  · next pubkey num sig stack hstack =>
    cases hnum : ctx.scriptNum num nDefaultMaxNumSize with
    | error e => rfl
    | ok n =>
      have hunchecked : isChecked sig s.execdata = false := by
        simpa [opcodeSigChecks, signatureOf, hstack, hnum] using hzero
      rw [evalChecksig_answering hversion hunchecked]
  · rfl

theorem checkMultisigOp_tapscript (fVerify : Bool) :
    Bitcoboost.checkMultisigOp ctx fVerify s = setError .tapscriptCheckmultisig := by
  rw [Bitcoboost.checkMultisigOp, hversion]
  rfl

theorem evalOpcode_answering (hzero : ctx.opcodeSigChecks opcode s = 0) :
    Bitcoboost.evalOpcode (ctx.answering answer) opcode fExec pc s =
      Bitcoboost.evalOpcode ctx opcode fExec pc s := by
  cases opcode with
  | opChecksig => exact checkSigOp_answering hversion (.inl rfl) hzero
  | opChecksigverify => exact checkSigOp_answering hversion (.inr rfl) hzero
  | opChecksigadd => exact checkSigAddOp_answering hversion hzero
  | opCheckmultisig | opCheckmultisigverify =>
    have hanswering : (ctx.answering answer).sigversion = .tapscript := hversion
    exact (checkMultisigOp_tapscript hanswering _).trans
      (checkMultisigOp_tapscript hversion _).symm
  | _ => rfl

/-- A turn of the loop that counts no check does not depend on what a check would answer. -/
theorem evalStep_answering (hzero : ctx.stepSigChecks byte vchPushValue s = 0) :
    Bitcoboost.evalStep (ctx.answering answer) byte vchPushValue pc s =
      Bitcoboost.evalStep ctx byte vchPushValue pc s := by
  have hbegin : beginStep (ctx.answering answer) byte vchPushValue s =
      beginStep ctx byte vchPushValue s := rfl
  rw [evalStep_begin, evalStep_begin, hbegin]
  rw [stepSigChecks] at hzero
  cases hs : beginStep ctx byte vchPushValue s with
  | error e => rfl
  | ok s' =>
    rw [hs] at hzero
    have hexec : Bitcoboost.execOpcode (ctx.answering answer) byte vchPushValue pc s' =
        Bitcoboost.execOpcode ctx byte vchPushValue pc s' := by
      unfold Bitcoboost.execOpcode
      cases hop : ofByte? byte with
      | none => rfl
      | some opcode =>
        dsimp only
        by_cases hall : s'.vfExec.allTrue = true
        · simp only [execSigChecks, if_pos hall, hop] at hzero
          rw [evalOpcode_answering hversion hzero]
          rfl
        · split
          · rfl
          split
          · next hle =>
            exact evalOpcode_answering hversion
              (opcodeSigChecks_of_le (hle.resolve_left hall).2 hop)
          · rfl
    rw [ok_bind, ok_bind, hexec]

end Uncounted

/-! ### Whole runs -/

/-- Without the count it is the loop of `EvalScript`. -/
theorem countedLoop_snd (fuel : Nat) (pc : CScript) (s : EvalState) :
    (ctx.countedLoop fuel pc s).2 = Bitcoboost.evalLoop ctx fuel pc s := by
  induction fuel generalizing pc s with
  | zero => rfl
  | succ fuel ih =>
    unfold countedLoop Bitcoboost.evalLoop
    split
    · rfl
    · cases getScriptOp pc with
      | none => rfl
      | some op =>
        obtain ⟨byte, vchPushValue, rest⟩ := op
        dsimp only
        cases Bitcoboost.evalStep ctx byte vchPushValue rest s with
        | error e => rfl
        | ok s' => exact ih rest s'

/-- The checks of a run are paid for by the weight it starts with. -/
theorem countedLoop_le (hversion : ctx.sigversion = .tapscript) (hkeeps : ctx.checker.KeepsWeight)
    (hw : s.execdata.validationWeightLeft = some w) (hpos : 0 ≤ w) (fuel : Nat) (pc : CScript) :
    50 * ((ctx.countedLoop fuel pc s).1 : Int) ≤ w := by
  induction fuel generalizing pc s w with
  | zero => simpa [countedLoop] using hpos
  | succ fuel ih =>
    unfold countedLoop
    split
    · simpa using hpos
    split
    · simpa using hpos
    · next byte vchPushValue rest _ =>
      have hstep : 50 * (ctx.stepSigChecks byte vchPushValue s : Int) ≤ w :=
        stepSigChecks_le hw hpos
      dsimp only
      split
      · exact hstep
      · next s' hs' =>
        have hrest := ih (evalStep_weight hw hversion hkeeps hs') (by linarith) rest
        rw [Prod.map_fst]
        push_cast
        linarith

theorem countedLoop_tapscriptStart (hversion : ctx.sigversion = .tapscript)
    (hkeeps : ctx.checker.KeepsWeight) {witness : CScriptWitness} {fuel : Nat}
    {control script : Bytes} :
    (ctx.countedLoop fuel script (tapscriptStart crypto witness control script stack)).1 ≤
      ((serializeVector serializeBytes witness).length + 50) / 50 := by
  have hle := countedLoop_le (s := tapscriptStart crypto witness control script stack) hversion
    hkeeps rfl (Int.natCast_nonneg _) fuel script
  rw [validationWeightOffset] at hle
  omega

/-! ### The checker -/

theorem signatureHashSchnorr_weight {tx : CTransaction} {inPos : Nat}
    {hashType : UInt8} {sigversion : SigVersion} {cache : PrecomputedTransactionData}
    {mdb : MissingDataBehavior} {sighash : Uint256}
    (h : signatureHashSchnorr crypto execdata tx inPos hashType sigversion cache mdb =
      some (some (sighash, execdata'))) :
    execdata'.validationWeightLeft = execdata.validationWeightLeft := by
  unfold signatureHashSchnorr at h
  split at h
  · cases h
  split at h
  · cases h
  split at h
  · cases mdb with
    | assertFail => cases h
    | fail => cases h
  split at h
  · cases h
  obtain ⟨annex, -, h⟩ := Option.bind_eq_some_iff.mp h
  obtain ⟨inputData, -, h⟩ := Option.bind_eq_some_iff.mp h
  dsimp only at h
  split at h
  · cases h
  · obtain ⟨scriptData, -, h⟩ := Option.bind_eq_some_iff.mp h
    cases h
    rfl

/-- The checker of a transaction leaves the weight as it is. -/
theorem keepsWeight_toChecker {checker : TransactionSignatureChecker} :
    checker.toChecker.KeepsWeight := by
  intro sig pubkey sigversion execdata execdata' h
  simp only [toChecker, checkSchnorrSignature] at h
  split at h
  · cases h
  split at h
  · cases h
  generalize (if sig.length = 65 then sig.getLastD 0 else sighashDefault) = hashtype at h
  split at h
  · cases h
  split at h
  · obtain ⟨_, -, h⟩ := bind_ok.mp h
    cases h
  · obtain ⟨hash, hhash, h⟩ := bind_ok.mp h
    rw [orAssert_ok] at hhash
    cases hash with
    | none => cases h
    | some pair =>
      dsimp only at h
      split at h
      · cases h
      · cases h
        exact signatureHashSchnorr_weight hhash

/-! ### The commitment -/

variable {crypto : Crypto}

theorem computeTapbranchHash_comm (a b : Bytes) :
    computeTapbranchHash crypto a b = computeTapbranchHash crypto b a := by
  unfold computeTapbranchHash
  rcases Std.lt_trichotomy a b with hlt | rfl | hlt
  · rw [if_pos hlt, if_neg (List.lt_asymm hlt)]
  · rfl
  · rw [if_neg (List.lt_asymm hlt), if_pos hlt]

theorem merkleRootInOrder_eq (swapped : Nat → Bool) (control : Bytes) (tapleafHash : Uint256) :
    merkleRootInOrder crypto swapped control tapleafHash =
      computeTaprootMerkleRoot crypto control tapleafHash := by
  unfold merkleRootInOrder computeTaprootMerkleRoot
  dsimp only
  congr 1
  funext k i
  split
  · exact computeTapbranchHash_comm _ _
  · rfl

/-! ### The run of `VerifyScript` -/

variable {scriptSig scriptPubKey : CScript} {witness : CScriptWitness}
  {program control script : Bytes} {stack : List Bytes} {fuel : Nat}

theorem isPayToScriptHash_of_program (hlength : program.length = 32)
    (hprogram : CScript.isWitnessProgram scriptPubKey = some (1, program)) :
    CScript.isPayToScriptHash scriptPubKey = false := by
  have hsize : scriptPubKey.length = 34 := by
    unfold CScript.isWitnessProgram at hprogram
    split at hprogram
    · next version size rest =>
      split at hprogram
      · cases hprogram
      split at hprogram
      · obtain ⟨_, -, h⟩ := Option.bind_eq_some_iff.mp hprogram
        cases h
        simp [hlength]
      · cases hprogram
    · cases hprogram
  simp [CScript.isPayToScriptHash, hsize]

/-- `ExecuteWitnessScript` of a Tapscript, from the state before the loop. -/
theorem runWitnessScript_eq (execdata : ScriptExecutionData) (hfuel : script.length ≤ fuel)
    (hversion : ctx.sigversion = .tapscript) :
    runWitnessScript ctx stack.reverse script execdata = (do
      errorIf (stack.length > maxStackSize) .stackSize
      errorIf (stack.any fun elem => elem.length > maxScriptElementSize) .pushSize
      let s ← (ctx.countedLoop fuel script (start stack script execdata)).2
      afterTapscript s) := by
  have heval : evalScript ctx stack script execdata = (do
      let s ← evalLoop ctx script.length script (start stack script execdata)
      errorIf (!s.vfExec.empty) .unbalancedConditional
      .ok (s.stack, s.execdata)) := by
    rw [evalScript, if_neg (by rw [hversion]; decide), if_neg (fun h => h.1 hversion)]
    rfl
  rw [runWitnessScript, reverse_reverse, heval, countedLoop_snd, evalLoop_fuel ctx hfuel le_rfl]
  simp only [hversion, true_and, length_reverse, any_reverse, afterTapscript, bind_assoc, ok_bind]

/-- The script path of Taproot: the checks before the script, then the script. -/
theorem verifyTaproot_eq (htaproot : ctx.has .taproot = true) (hfuel : script.length ≤ fuel)
    (hpath : (dropAnnex ctx.crypto witness).1.reverse = control :: script :: stack) :
    verifyTaproot ctx witness program = (do
      if ← tapscriptRuns ctx program control script stack then
        let s ← (EvalContext.countedLoop { ctx with sigversion := .tapscript } fuel script
          (tapscriptStart ctx.crypto witness control script stack)).2
        afterTapscript s
      else .ok ()) := by
  unfold verifyTaproot tapscriptRuns
  rw [htaproot]
  simp only [Bool.not_true, Bool.false_eq_true, if_false, hpath, verifyTaprootScript]
  split
  · rfl
  split
  · rfl
  split
  · rw [executeWitnessScript, if_pos rfl, runWitnessScript_eq _ hfuel rfl]
    simp only [bind_assoc]
    refine bind_congr fun success => ?_
    cases success with
    | true => rfl
    | false =>
      simp only [Bool.false_eq_true, if_false, bind_assoc, ok_bind, if_true]
      rfl
  · rw [bind_assoc]
    exact (bind_pure _).symm

theorem verifyScript_eq {checker : SignatureChecker} {flags : ScriptFlags}
    (hflags : .p2sh ∈ flags ∧ .witness ∈ flags ∧ .taproot ∈ flags)
    (hprogram : CScript.isWitnessProgram scriptPubKey = some (1, program))
    (hlength : program.length = 32)
    (hpath : (dropAnnex crypto witness).1.reverse = control :: script :: stack)
    (hfuel : script.length ≤ fuel) :
    verifyScript crypto scriptSig scriptPubKey witness flags checker = (do
      if ← beforeTapscript ⟨crypto, checker, flags, .base⟩ scriptSig scriptPubKey program control
          script stack then
        let s ← (EvalContext.countedLoop ⟨crypto, checker, flags, .tapscript⟩ fuel script
          (tapscriptStart crypto witness control script stack)).2
        afterTapscript s
      else .ok ()) := by
  obtain ⟨hp2sh, hwitness, htaproot⟩ := hflags
  unfold verifyScript beforeTapscript
  simp only [bind_assoc]
  refine bind_congr fun _ => bind_congr fun stackCopy => bind_congr fun result =>
    bind_congr fun _ => ?_
  have hhas : has ⟨crypto, checker, flags, .base⟩ .witness = true := decide_eq_true hwitness
  rw [verifyWitness, hhas, hprogram]
  simp only [Bool.not_true, Bool.false_eq_true, if_false, bind_assoc, ok_bind, verifyP2SH,
    isPayToScriptHash_of_program hlength hprogram, Bool.and_false]
  refine bind_congr fun _ => ?_
  have hprogram1 : verifyWitnessProgram ⟨crypto, checker, flags, .base⟩ witness 1 program false =
      verifyTaproot ⟨crypto, checker, flags, .base⟩ witness program := by
    rw [verifyWitnessProgram, if_neg (by decide), if_pos ⟨rfl, hlength, rfl⟩]
  have hend : verifyEnd ⟨crypto, checker, flags, .base⟩ witness true [result.1.getLastD []]
      = .ok () := verifyEnd_ok (decide_eq_true hp2sh) hhas
  rw [hprogram1, verifyTaproot_eq (decide_eq_true htaproot) hfuel hpath]
  simp only [resizeToOne, hend]
  exact bind_pure _

theorem tapscriptRuns_commits {runs : Bool}
    (h : tapscriptRuns ctx program control script stack = .ok runs) :
    verifyTaprootCommitment ctx.crypto control program
      (computeTapleafHash ctx.crypto (control.headD 0 &&& taprootLeafMask) script) = true := by
  unfold tapscriptRuns at h
  split at h
  · cases h
  · dsimp only at h
    split at h
    · cases h
    · next hcommitted => simpa using hcommitted

end TapscriptLemmas

open TapscriptLemmas in
/-- A script path spend of Taproot. `VerifyScript` runs the script from `tapscriptStart`, and the
checks of signatures that are not empty are bounded in that run; a turn of it that counts none asks
the checker for none. What is accepted is committed to, and the order of siblings does not
matter. -/
theorem tapscript_bounded (crypto : Crypto) (checker : TransactionSignatureChecker)
    (flags : ScriptFlags) (hflags : .p2sh ∈ flags ∧ .witness ∈ flags ∧ .taproot ∈ flags)
    (scriptSig scriptPubKey : CScript) (witness : CScriptWitness) (program control script : Bytes)
    (rest : List Bytes) (hprogram : CScript.isWitnessProgram scriptPubKey = some (1, program))
    (hlength : program.length = 32)
    (hpath : (dropAnnex crypto witness).1.reverse = control :: script :: rest) (fuel : Nat)
    (hfuel : script.length ≤ fuel) :
    let ctx : EvalContext := ⟨crypto, checker.toChecker, flags, .tapscript⟩
    let run := ctx.countedLoop fuel script (tapscriptStart crypto witness control script rest)
    verifyScript crypto scriptSig scriptPubKey witness flags checker.toChecker = (do
        if ← beforeTapscript { ctx with sigversion := .base } scriptSig scriptPubKey program control
            script rest then
          let s ← run.2
          afterTapscript s
        else .ok ()) ∧
      run.1 ≤ ((serializeVector serializeBytes witness).length + 50) / 50 ∧
      (∀ opcode vchPushValue pc s answer, ctx.stepSigChecks opcode vchPushValue s = 0 →
        Bitcoboost.evalStep (ctx.answering answer) opcode vchPushValue pc s =
          Bitcoboost.evalStep ctx opcode vchPushValue pc s) ∧
      (verifyScript crypto scriptSig scriptPubKey witness flags checker.toChecker = .ok () →
        XOnlyPubKey.checkTapTweak crypto program ((control.drop 1).take 32)
          (computeTaprootMerkleRoot crypto control
            (computeTapleafHash crypto (control.headD 0 &&& taprootLeafMask) script))
          (control.headD 0 &&& 1 = 1) = true) ∧
      ∀ swapped tapleafHash, merkleRootInOrder crypto swapped control tapleafHash =
        computeTaprootMerkleRoot crypto control tapleafHash := by
  intro ctx run
  have hrun : verifyScript crypto scriptSig scriptPubKey witness flags checker.toChecker = _ :=
    verifyScript_eq hflags hprogram hlength hpath hfuel
  refine ⟨hrun, countedLoop_tapscriptStart rfl keepsWeight_toChecker,
    fun _ _ _ _ _ => evalStep_answering rfl, fun haccepted => ?_,
    fun swapped => merkleRootInOrder_eq swapped control⟩
  rw [hrun] at haccepted
  obtain ⟨runs, hbefore, -⟩ := bind_ok.mp haccepted
  obtain ⟨_, -, hbefore⟩ := bind_ok.mp hbefore
  obtain ⟨_, -, hbefore⟩ := bind_ok.mp hbefore
  obtain ⟨_, -, hbefore⟩ := bind_ok.mp hbefore
  obtain ⟨_, -, hbefore⟩ := bind_ok.mp hbefore
  obtain ⟨_, -, hbefore⟩ := bind_ok.mp hbefore
  exact tapscriptRuns_commits hbefore

/-- `OP_CHECKSIGADD` twice, with keys of a kind that is not known, in a tree of two leaves. -/
theorem tapscript_bounded_checksigadd : let flags : ScriptFlags := {.p2sh, .witness, .taproot}
    let control := taprootLeafTapscript :: List.replicate 64 3
    let script := [1, 7, OpcodeType.opChecksigadd.toByte, 1, 8, OpcodeType.opChecksigadd.toByte]
    let witness := [[6], [5], [], script, control]
    let program := List.replicate 32 1
    let run := EvalContext.countedLoop
      ⟨acceptingCrypto, acceptingChecker.toChecker, flags, .tapscript⟩ script.length script
      (tapscriptStart acceptingCrypto witness control script [[], [5], [6]])
    run.1 = 2 ∧ run.1 ≤ ((serializeVector serializeBytes witness).length + 50) / 50 ∧
      verifyScript acceptingCrypto [] (OpcodeType.op1.toByte :: 32 :: program) witness flags
        acceptingChecker.toChecker = .ok () ∧
      XOnlyPubKey.checkTapTweak acceptingCrypto program (List.replicate 32 3)
        (computeTaprootMerkleRoot acceptingCrypto control
          (computeTapleafHash acceptingCrypto taprootLeafTapscript script)) false = true := by
  intro flags control script witness program run
  have haccepted : verifyScript acceptingCrypto [] (op1.toByte :: 32 :: program) witness flags
      acceptingChecker.toChecker = .ok () := by
    decide +kernel
  obtain ⟨-, hchecks, -, hcommits, -⟩ := tapscript_bounded acceptingCrypto acceptingChecker flags
    (by decide) [] (op1.toByte :: 32 :: program) witness program control script [[], [5], [6]]
    (by decide +kernel) (by decide) (by decide +kernel) script.length le_rfl
  exact ⟨by decide +kernel, hchecks, haccepted, hcommits haccepted⟩

end Bitcoboost
