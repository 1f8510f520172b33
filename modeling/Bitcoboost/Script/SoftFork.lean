import Bitcoboost.Lib.SuccessOrder
import Bitcoboost.Script.QuantumSafe
import Bitcoboost.Script.ScriptNum

/-!
# More script flags only restrict

What verification with more flags accepts is accepted without the extra flags too. Each function
of the interpreter succeeds with the fewer flags wherever it does with the more, and with the
same value, up to the end of `VerifyScript`, where the flags decide what the stack and the
witness have to be.
-/

namespace Bitcoboost

open ExceptBind Bool

/-- `IsValidFlagCombination` of `test/util/script.cpp`: `CLEANSTACK` comes with `P2SH`
and `WITNESS`, and `WITNESS` with `P2SH`. -/
def isValidFlagCombination (flags : ScriptFlags) : Bool :=
  if .cleanstack ∈ flags ∧ (.p2sh ∉ flags ∨ .witness ∉ flags) then false
  else if .witness ∈ flags ∧ .p2sh ∉ flags then false
  else true

def EvalContext.withFlags (ctx : EvalContext) (flags : ScriptFlags) : EvalContext :=
  { ctx with flags }

namespace SoftForkLemmas

open Implied

/-- What succeeds with more flags succeeds with those of the context, alike. -/
abbrev Restricts {α : Type} (ctx : EvalContext) (flags : ScriptFlags)
    (f : EvalContext → ScriptResult α) : Prop :=
  Implied (f (ctx.withFlags flags)) (f ctx)

variable {ctx : EvalContext} {flags : ScriptFlags} {s : EvalState}
  {pc scriptCode codeHash : CScript}
  {stack stackCopy : List Bytes} {witness : CScriptWitness} {execdata : ScriptExecutionData}
  {vchSig vchPubKey sig pubkey program vch : Bytes} {fVerify fExec isP2SH hadWitness : Bool}
  {nMaxNumSize : Nat}

theorem errorIf_mono {c d : Bool} {e : ScriptError} (h : d = true → c = true) :
    Implied (errorIf c e) (errorIf d e) :=
  ite_error h (refl _)

theorem has_p2sh_of_valid (hvalid : isValidFlagCombination ctx.flags = true)
    (h : ctx.has .witness = true) : ctx.has .p2sh = true := by
  unfold isValidFlagCombination at hvalid
  simp only [EvalContext.has, decide_eq_true_eq] at h ⊢
  by_contra hp2sh
  simp [h, hp2sh] at hvalid

theorem no_cleanstack_of_valid (hvalid : isValidFlagCombination ctx.flags = true)
    (h : ctx.has .witness = false) : ctx.has .cleanstack = false := by
  unfold isValidFlagCombination at hvalid
  simp only [EvalContext.has, decide_eq_false_iff_not] at h ⊢
  intro hclean
  simp [h, hclean] at hvalid

/-- A number is read alike where its encoding need not be minimal. -/
theorem scriptNum_of_minimal {fRequireMinimal : Bool} {n : Int}
    (h : Bitcoboost.scriptNum vch fRequireMinimal nMaxNumSize = some n) :
    Bitcoboost.scriptNum vch false nMaxNumSize = some n := by
  have hlength := ScriptNum.length_le_of_scriptNum h
  obtain ⟨-, rfl⟩ := (ScriptNum.scriptNum_eq fRequireMinimal hlength n).mp h
  exact (ScriptNum.scriptNum_eq false hlength _).mpr ⟨fun hfalse => (by cases hfalse), rfl⟩

variable (hflags : ctx.flags ⊆ flags) {vchPushValue : Bytes} {opcode : UInt8}
include hflags

theorem has_mono {flag : ScriptFlag} (h : ctx.has flag = true) :
    (ctx.withFlags flags).has flag = true :=
  decide_eq_true (hflags (of_decide_eq_true h))

/-! ## Encodings and numbers -/

theorem checkSignatureEncoding_mono :
    Implied (checkSignatureEncoding vchSig flags) (checkSignatureEncoding vchSig ctx.flags) := by
  unfold checkSignatureEncoding
  split
  · exact refl _
  · refine ite_error (And.imp_left (Or.imp (hflags ·) (Or.imp (hflags ·) (hflags ·))))
      (bind ?_ fun _ => ?_)
    · split
      · split
        · exact refl _
        · exact fun _ _ => rfl
      · next hlow => rw [if_neg fun h => hlow (hflags h)]; exact refl _
    · refine errorIf_mono ?_
      simp only [decide_eq_true_eq]
      exact And.imp_left (hflags ·)

theorem checkPubKeyEncoding_mono {sigversion : SigVersion} :
    Implied (checkPubKeyEncoding vchPubKey flags sigversion)
    (checkPubKeyEncoding vchPubKey ctx.flags sigversion) := by
  refine bind (errorIf_mono ?_) fun _ => errorIf_mono ?_
  · simp only [decide_eq_true_eq]
    exact And.imp_left (hflags ·)
  · simp only [decide_eq_true_eq]
    exact And.imp_left (hflags ·)

theorem scriptNum_mono : Restricts ctx flags (·.scriptNum vch nMaxNumSize) := by
  dsimp only [Restricts, EvalContext.scriptNum]
  cases hctx : ctx.has .minimaldata with
  | true =>
    rw [has_mono hflags hctx]
    exact refl _
  | false =>
    split
    · next hread =>
      rw [scriptNum_of_minimal hread]
      exact refl _
    · exact error _ _

/-! ## Signature checks -/

theorem deleteSignature_mono : Restricts ctx flags (deleteSignature · scriptCode vchSig) :=
  ite_same (ite_error (And.imp_right (has_mono hflags)) (refl _)) (refl _)

theorem deleteSignatures_mono {sigs : List Bytes} :
    Restricts ctx flags (deleteSignatures · scriptCode sigs) := by
  induction sigs generalizing scriptCode with
  | nil => exact refl _
  | cons vchSig sigs ih => exact bind (deleteSignature_mono hflags) fun _ => ih

theorem nullfail_mono {failed nonempty : Bool} :
    Restricts ctx flags fun ctx =>
    errorIf (failed && ctx.has .nullfail && nonempty) .sigNullfail := by
  refine errorIf_mono ?_
  simp only [and_eq_true]
  exact And.imp_left (And.imp_right (has_mono hflags))

theorem evalChecksigPreTapscript_mono :
    Restricts ctx flags (evalChecksigPreTapscript · vchSig vchPubKey codeHash) :=
  bind (deleteSignature_mono hflags) fun _ =>
    bind (checkSignatureEncoding_mono hflags) fun _ =>
      bind (checkPubKeyEncoding_mono hflags) fun _ =>
        bind (refl _) fun _ => bind_left (nullfail_mono hflags)

theorem evalChecksigTapscript_mono :
    Restricts ctx flags (evalChecksigTapscript · sig pubkey execdata) :=
  bind (refl _) fun _ => ite_same (refl _) (ite_same (refl _)
    (ite_error (has_mono hflags) (refl _)))

theorem evalChecksig_mono : Restricts ctx flags (evalChecksig · sig pubkey codeHash execdata) := by
  have hpre : Restricts ctx flags (evalChecksigPreTapscript · sig pubkey codeHash) :=
    evalChecksigPreTapscript_mono hflags
  have htap : Restricts ctx flags (evalChecksigTapscript · sig pubkey execdata) :=
    evalChecksigTapscript_mono hflags
  obtain ⟨crypto, checker, ctxFlags, sigversion⟩ := ctx
  cases sigversion with
  | base => exact bind_left hpre
  | witnessV0 => exact bind_left hpre
  | tapscript => exact htap
  | taproot => exact refl _

/-! ## Opcodes -/

theorem pickOp_mono {fRoll : Bool} : Restricts ctx flags (pickOp · fRoll stack) := by
  match stack with
  | [] => exact refl _
  | [_] => exact refl _
  | top :: _ :: _ => exact bind_left (scriptNum_mono hflags)

theorem checkLockTimeOp_mono : Restricts ctx flags (checkLockTimeOp · stack) := by
  dsimp only [Restricts, checkLockTimeOp]
  cases hctx : ctx.has .checklocktimeverify with
  | false =>
    -- a `NOP` without the flag
    exact fun _ _ => rfl
  | true =>
    rw [has_mono hflags hctx]
    cases stack with
    | nil => exact refl _
    | cons top _ => exact bind_left (scriptNum_mono hflags)

theorem checkSequenceOp_mono : Restricts ctx flags (checkSequenceOp · stack) := by
  dsimp only [Restricts, checkSequenceOp]
  cases hctx : ctx.has .checksequenceverify with
  | false => exact fun _ _ => rfl
  | true =>
    rw [has_mono hflags hctx]
    cases stack with
    | nil => exact refl _
    | cons top _ => exact bind_left (scriptNum_mono hflags)

theorem ifValue_mono {fNot : Bool} : Restricts ctx flags (ifValue · fNot stack) := by
  cases stack with
  | nil => exact refl _
  | cons vch stack =>
    refine bind (refl _) fun _ => bind_left (errorIf_mono ?_)
    simp only [decide_eq_true_eq]
    exact And.imp_right (And.imp_left (has_mono hflags))

theorem readMultisig_mono {nOpCount : Nat} :
    Restricts ctx flags (readMultisig · stack nOpCount) := by
  cases stack with
  | nil => exact refl _
  | cons keysCount stack =>
    refine bind (scriptNum_mono hflags) fun nKeysCount =>
      bind (refl _) fun _ => bind (refl _) fun _ => ?_
    cases stack.drop (scriptNumGetint nKeysCount).toNat with
    | nil => exact refl _
    | cons sigsCount _ => exact bind_left (scriptNum_mono hflags)

theorem multisigLoop_mono {keys sigs : List Bytes} :
    Restricts ctx flags (multisigLoop · scriptCode keys sigs) := by
  induction keys generalizing sigs with
  | nil =>
    cases sigs with
    | nil => exact refl _
    | cons _ _ => exact refl _
  | cons vchPubKey keys ih =>
    cases sigs with
    | nil => exact refl _
    | cons vchSig sigs =>
      exact bind (checkSignatureEncoding_mono hflags) fun _ =>
        bind (checkPubKeyEncoding_mono hflags) fun _ =>
          bind (refl _) fun _ => ite_same (refl _) ih

theorem checkMultisigOp_mono : Restricts ctx flags (checkMultisigOp · fVerify s) := by
  refine bind (refl _) fun _ => bind (readMultisig_mono hflags) fun (args, _) =>
    bind (deleteSignatures_mono hflags) fun _ =>
      bind (multisigLoop_mono hflags) fun _ =>
        bind (nullfail_mono hflags) fun _ => bind_left (errorIf_mono ?_)
  simp only [and_eq_true]
  exact And.imp_left (has_mono hflags)

theorem checkSigOp_mono : Restricts ctx flags (checkSigOp · fVerify s) := by
  dsimp only [Restricts, checkSigOp]
  match s.stack with
  | [] => exact refl _
  | [_] => exact refl _
  | vchPubKey :: vchSig :: _ => exact bind_left (evalChecksig_mono hflags)

theorem checkSigAddOp_mono : Restricts ctx flags (checkSigAddOp · s) := by
  refine ite_same (refl _) ?_
  match s.stack with
  | [] => exact refl _
  | [_] => exact refl _
  | [_, _] => exact refl _
  | pubkey :: num :: sig :: _ =>
    exact bind (scriptNum_mono hflags) fun _ =>
      bind_left (evalChecksig_mono hflags)

/-- The numeric opcodes on one operand. -/
theorem unary_mono (stack : List Bytes) (f : Int → List Bytes → ScriptResult EvalState) :
    Restricts ctx flags (fun ctx =>
      match stack with
      | [] => setError .invalidStackOperation
      | vch :: stack => ctx.scriptNum vch nDefaultMaxNumSize >>= fun bn => f bn stack) := by
  cases stack with
  | nil => exact refl _
  | cons vch _ => exact bind_left (scriptNum_mono hflags)

/-- The numeric opcodes on two operands. -/
theorem binary_mono (stack : List Bytes) (f : Int → Int → List Bytes → ScriptResult EvalState) :
    Restricts ctx flags (fun ctx =>
      match stack with
      | vch2 :: vch1 :: stack =>
        ctx.scriptNum vch1 nDefaultMaxNumSize >>= fun bn1 =>
          ctx.scriptNum vch2 nDefaultMaxNumSize >>= fun bn2 => f bn1 bn2 stack
      | _ => setError .invalidStackOperation) := by
  match stack with
  | [] => exact refl _
  | [_] => exact refl _
  | vch2 :: vch1 :: _ =>
    exact bind (scriptNum_mono hflags) fun _ =>
      bind_left (scriptNum_mono hflags)

theorem within_mono : Restricts ctx flags (evalOpcode · .opWithin fExec pc s) := by
  dsimp only [Restricts, evalOpcode]
  match s.stack with
  | [] => exact refl _
  | [_] => exact refl _
  | [_, _] => exact refl _
  | vch3 :: vch2 :: vch1 :: _ =>
    exact bind (scriptNum_mono hflags) fun _ =>
      bind (scriptNum_mono hflags) fun _ =>
        bind_left (scriptNum_mono hflags)

/-- One opcode. Those that read no flag run alike. -/
theorem evalOpcode_mono {opcode : OpcodeType} :
    Restricts ctx flags (evalOpcode · opcode fExec pc s) := by
  have hunary (op) := unary_mono hflags s.stack fun bn stack =>
    .ok { s with stack := scriptNumSerialize (unaryOp op bn) :: stack }
  have hbinary (op) := binary_mono hflags s.stack fun bn1 bn2 stack =>
    .ok { s with stack := scriptNumSerialize (binaryOp op bn1 bn2) :: stack }
  cases opcode with
  | opNop1 | opNop4 | opNop5 | opNop6 | opNop7 | opNop8 | opNop9 | opNop10 =>
    exact bind_left (errorIf_mono (has_mono hflags))
  | opChecklocktimeverify => exact bind_left (checkLockTimeOp_mono hflags)
  | opChecksequenceverify => exact bind_left (checkSequenceOp_mono hflags)
  | opIf | opNotif => exact ite_same (bind_left (ifValue_mono hflags)) (refl _)
  | opPick | opRoll => exact bind_left (pickOp_mono hflags)
  | op1Add | op1Sub | opNegate | opAbs | opNot | op0Notequal => exact hunary _
  | opAdd | opSub | opBooland | opBoolor | opNumequal | opNumnotequal | opLessthan | opGreaterthan
  | opLessthanorequal | opGreaterthanorequal | opMin | opMax => exact hbinary _
  | opNumequalverify =>
    exact binary_mono hflags s.stack fun bn1 bn2 stack =>
      if binaryOp .opNumequalverify bn1 bn2 ≠ 0 then .ok { s with stack }
      else setError .numequalverify
  | opWithin => exact within_mono hflags
  | opChecksig | opChecksigverify => exact checkSigOp_mono hflags
  | opChecksigadd => exact checkSigAddOp_mono hflags
  | opCheckmultisig | opCheckmultisigverify => exact checkMultisigOp_mono hflags
  | _ => exact refl _

/-! ## Scripts -/

theorem execOpcode_mono : Restricts ctx flags (execOpcode · opcode vchPushValue pc s) := by
  refine ite_same (ite_error (And.imp_left (has_mono hflags)) (refl _)) (ite_same ?_ (refl _))
  cases OpcodeType.ofByte? opcode with
  | none => exact refl _
  | some opcode => exact evalOpcode_mono hflags

theorem evalStep_mono : Restricts ctx flags (evalStep · opcode vchPushValue pc s) := by
  refine bind (refl _) fun _ => bind (refl _) fun s => bind (refl _) fun _ =>
      bind (errorIf_mono ?_) fun _ =>
    bind_left (execOpcode_mono hflags)
  simp only [decide_eq_true_eq]
  exact And.imp_right (And.imp_right (has_mono hflags))

theorem evalLoop_mono {fuel : Nat} : Restricts ctx flags (evalLoop · fuel pc s) := by
  induction fuel generalizing pc s with
  | zero => exact refl _
  | succ fuel ih =>
    refine ite_same (refl _) ?_
    cases getScriptOp pc with
    | none => exact refl _
    | some op => exact bind (evalStep_mono hflags) fun _ => ih

end SoftForkLemmas

open SoftForkLemmas Implied

variable {script : CScript}

/-- A script that runs to its end with more flags does so with fewer, and leaves the
same stack. -/
theorem evalScript_mono {ctx : EvalContext} {flags : ScriptFlags} (hflags : ctx.flags ⊆ flags)
    {stack : List Bytes} {execdata : ScriptExecutionData} :
    Implied (evalScript (ctx.withFlags flags) stack script execdata)
    (evalScript ctx stack script execdata) :=
  ite_same (refl _) (ite_same (refl _) (bind_left (evalLoop_mono hflags)))

namespace SoftForkLemmas

variable {ctx : EvalContext} {flags : ScriptFlags} (hflags : ctx.flags ⊆ flags) {pc : CScript}
  {stack stackCopy : List Bytes} {witness : CScriptWitness} {execdata : ScriptExecutionData}
  {program : Bytes} {isP2SH hadWitness : Bool}
include hflags

/-! ## Witness programs -/

theorem scanOpSuccess_mono {fuel : Nat} : Restricts ctx flags (scanOpSuccess · fuel pc) := by
  induction fuel generalizing pc with
  | zero => exact refl _
  | succ fuel ih =>
    refine ite_same (refl _) ?_
    cases getScriptOp pc with
    | none => exact refl _
    | some op => exact ite_same (ite_error (has_mono hflags) (refl _)) ih

theorem executeWitnessScript_mono {execScript : CScript} :
    Restricts ctx flags (executeWitnessScript · stack execScript execdata) := by
  have hrun : Restricts ctx flags (runWitnessScript · stack execScript execdata) :=
    bind (refl _) fun _ => bind (refl _) fun _ => bind_left (evalScript_mono hflags)
  exact ite_same (bind (scanOpSuccess_mono hflags) fun _ => ite_same (refl _) hrun) hrun

theorem verifyTaprootScript_mono {script control : Bytes} :
    Restricts ctx flags (verifyTaprootScript · witness stack script control program execdata) := by
  refine ite_same (refl _) (ite_same (refl _) (ite_same ?_ (errorIf_mono (has_mono hflags))))
  have htapscript : EvalContext.flags { ctx with sigversion := .tapscript } ⊆ flags := hflags
  exact executeWitnessScript_mono htapscript

theorem verifyTaproot_mono : Restricts ctx flags (verifyTaproot · witness program) := by
  cases hctx : ctx.has .taproot with
  | false =>
    -- anyone can spend without the flag
    dsimp only [Restricts, verifyTaproot]
    rw [hctx]
    exact fun _ _ => rfl
  | true =>
    dsimp only [Restricts, verifyTaproot]
    rw [hctx, has_mono hflags hctx]
    refine ite_same (refl _) ?_
    rw [show (ctx.withFlags flags).crypto = ctx.crypto from rfl]
    obtain ⟨stack, annexHash⟩ := dropAnnex ctx.crypto witness
    match stack.reverse with
    | [] => exact refl _
    | [_] => exact refl _
    | control :: script :: rest => exact verifyTaprootScript_mono hflags

theorem verifyWitnessV0_mono : Restricts ctx flags (verifyWitnessV0 · witness program) := by
  have hwitnessV0 : EvalContext.flags { ctx with sigversion := .witnessV0 } ⊆ flags := hflags
  refine ite_same ?_ (ite_same (ite_same (refl _) (executeWitnessScript_mono hwitnessV0)) (refl _))
  cases witness.reverse with
  | nil => exact refl _
  | cons execScript rest => exact ite_same (refl _) (executeWitnessScript_mono hwitnessV0)

-- a quantum-safe program is verified alike with all flags
theorem verifyWitnessProgram_mono {witversion : Nat} :
    Restricts ctx flags (verifyWitnessProgram · witness witversion program isP2SH) :=
  ite_same (verifyWitnessV0_mono hflags) <|
    ite_same (verifyTaproot_mono hflags) <|
      ite_same (refl (verifyHybrid ctx witness program)) (errorIf_mono (has_mono hflags))

/-! ## The end of `VerifyScript` -/

section

variable (hwitness : ctx.has .witness = true)
include hwitness

theorem verifyWitness_mono {malleated : Bool} {e : ScriptError} :
    Restricts ctx flags (verifyWitness · script witness malleated e isP2SH stack) := by
  dsimp only [Restricts, verifyWitness]
  rw [hwitness, has_mono hflags hwitness]
  refine ite_same (refl _) ?_
  cases CScript.isWitnessProgram script with
  | none => exact refl _
  | some program =>
    exact bind (refl _) fun _ => bind_left (verifyWitnessProgram_mono hflags)

theorem verifyP2SH_mono (hp2sh : ctx.has .p2sh = true) {scriptSig scriptPubKey : CScript} :
    Restricts ctx flags (verifyP2SH · scriptSig scriptPubKey witness stackCopy hadWitness
      stack) := by
  dsimp only [Restricts, verifyP2SH]
  rw [hp2sh, has_mono hflags hp2sh]
  refine ite_same (bind (refl _) fun _ => ?_) (refl _)
  cases stackCopy with
  | nil => exact refl _
  | cons pubKey2 stack =>
    exact bind (evalScript_mono hflags) fun _ => bind (refl _) fun _ =>
      bind_left (verifyWitness_mono hflags hwitness)

theorem verifyEnd_mono (hp2sh : ctx.has .p2sh = true) :
    Restricts ctx flags (verifyEnd · witness hadWitness stack) := by
  dsimp only [Restricts, verifyEnd]
  rw [hwitness, hp2sh, has_mono hflags hwitness, has_mono hflags hp2sh]
  refine bind_left ?_
  cases hclean : ctx.has .cleanstack with
  | false => exact fun _ _ => rfl
  | true =>
    rw [has_mono hflags hclean]
    exact refl _

end

section

variable (hwitness : ctx.has .witness = false)
include hwitness

omit hflags in
/-- Without `WITNESS` the scripts alone decide. -/
theorem verifyEnd_of_no_witness (hclean : ctx.has .cleanstack = false) :
    verifyEnd ctx witness hadWitness stack = .ok () := by
  unfold verifyEnd
  rw [hwitness, hclean]
  rfl

omit hflags in
theorem verifyWitness_of_no_witness {malleated : Bool} {e : ScriptError} :
    verifyWitness ctx script witness malleated e isP2SH stack = .ok (false, stack) := by
  unfold verifyWitness
  rw [hwitness]
  rfl

/-- Without `WITNESS` the redeem script is run as with more flags. -/
theorem verifyP2SH_of_no_witness {scriptSig scriptPubKey : CScript} {result : Bool × List Bytes}
    (h : verifyP2SH (ctx.withFlags flags) scriptSig scriptPubKey witness stackCopy hadWitness
    stack = .ok result) (hadWitness' : Bool) (stack' : List Bytes) :
    ∃ result', verifyP2SH ctx scriptSig scriptPubKey witness stackCopy hadWitness' stack' =
      .ok result' := by
  unfold verifyP2SH at h ⊢
  cases hp2sh : ctx.has .p2sh with
  | false => exact ⟨_, rfl⟩
  | true =>
    rw [has_mono hflags hp2sh] at h
    cases hscript : CScript.isPayToScriptHash scriptPubKey with
    | false => exact ⟨_, rfl⟩
    | true =>
      rw [hscript] at h
      obtain ⟨_, hpush, h⟩ := bind_ok.mp h
      rw [Bool.true_and, if_pos rfl, hpush, ok_bind]
      cases stackCopy with
      | nil => cases h
      | cons pubKey2 stack =>
        obtain ⟨⟨stack, execdata⟩, heval, h⟩ := bind_ok.mp h
        obtain ⟨_, htrue, _⟩ := bind_ok.mp h
        simp only [evalScript_mono hflags heval, htrue, ok_bind,
          verifyWitness_of_no_witness hwitness]
        exact ⟨_, rfl⟩

end

end SoftForkLemmas

/-- Verification that succeeds with some flags succeeds with fewer, for all scripts,
witnesses and checkers. That the flags of the first run fit together is not needed:
`VerifyScript` asserts it where it matters. -/
theorem verifyScript_mono (crypto : Crypto) (scriptSig scriptPubKey : CScript)
    (witness : CScriptWitness)
    (checker : SignatureChecker) {fewer more : ScriptFlags} (hflags : fewer ⊆ more)
    (hvalid : isValidFlagCombination fewer = true)
    (h : verifyScript crypto scriptSig scriptPubKey witness more checker = .ok ()) :
    verifyScript crypto scriptSig scriptPubKey witness fewer checker = .ok () := by
  let ctx : EvalContext := ⟨crypto, checker, fewer, .base⟩
  have hctx : ctx.flags ⊆ more := hflags
  have hpush :
      Implied (errorIf ((ctx.withFlags more).has .sigpushonly && !CScript.isPushOnly scriptSig)
      .sigPushonly)
      (errorIf (ctx.has .sigpushonly && !CScript.isPushOnly scriptSig) .sigPushonly) := by
    refine errorIf_mono ?_
    simp only [and_eq_true]
    exact And.imp_left (has_mono hctx)
  cases hwitness : ctx.has .witness with
  | true =>
    -- the two runs go through the same steps
    have hp2sh : ctx.has .p2sh = true := has_p2sh_of_valid hvalid hwitness
    refine bind hpush (fun _ => bind (evalScript_mono hctx) fun stackCopy =>
      bind (evalScript_mono hctx) fun stack => bind (refl _) fun _ =>
        bind (verifyWitness_mono hctx hwitness) fun had =>
          bind (verifyP2SH_mono hctx hwitness hp2sh) fun had =>
            verifyEnd_mono hctx hwitness hp2sh) h
  | false =>
    -- the run with fewer flags ends with the scripts
    have hclean : ctx.has .cleanstack = false := no_cleanstack_of_valid hvalid hwitness
    obtain ⟨_, hfirst, h⟩ := bind_ok.mp h
    obtain ⟨⟨stackCopy, _⟩, hsig, h⟩ := bind_ok.mp h
    obtain ⟨⟨stack, _⟩, hpubkey, h⟩ := bind_ok.mp h
    obtain ⟨_, htrue, h⟩ := bind_ok.mp h
    obtain ⟨_, _, h⟩ := bind_ok.mp h
    obtain ⟨_, hp2sh, _⟩ := bind_ok.mp h
    obtain ⟨result, hresult⟩ := verifyP2SH_of_no_witness hctx hwitness hp2sh false stack
    exact bind_ok.mpr ⟨_, hpush hfirst, bind_ok.mpr ⟨_, evalScript_mono hctx hsig,
      bind_ok.mpr ⟨_, evalScript_mono hctx hpubkey, bind_ok.mpr ⟨_, htrue,
        bind_ok.mpr ⟨_, verifyWitness_of_no_witness hwitness,
          bind_ok.mpr ⟨result, hresult, verifyEnd_of_no_witness hwitness hclean⟩⟩⟩⟩⟩⟩

/-- The encoding of a signature with both numbers one, and its hash type. -/
def sampleEsig : Bytes := [0x30, 0x06, 0x02, 0x01, 0x01, 0x02, 0x01, 0x01, sighashAll]

/-- A quantum-safe spend that is accepted with `CLEANSTACK` and `NULLFAIL` is accepted
without them. -/
theorem verifyScript_mono_quantumSafe :
    verifyScript acceptingCrypto [] (quantumSafeScript acceptedProgram) [sampleEsig, sampleEpk,
      [], sampleMpk] {.p2sh, .witness} acceptingChecker.toChecker = .ok () := by
  have hsigned : HybridSigned acceptingCrypto
      (bip143SighashAll acceptingCrypto (quantumSafeScript acceptedProgram) acceptingChecker.txTo
        ⟨⟨nullUint256, 0#32⟩, [], 0xffffffff#32, []⟩ coin)
      acceptedProgram sampleEsig sampleEpk [] sampleMpk :=
    ⟨rfl, List.length_replicate, rfl, rfl, rfl, by decide +kernel, rfl⟩
  have hstrict : verifyScript acceptingCrypto [] (quantumSafeScript acceptedProgram)
      [sampleEsig, sampleEpk, [], sampleMpk] {.p2sh, .witness, .cleanstack,
        .nullfail} acceptingChecker.toChecker
      = .ok () :=
    verifyScript_of_hybridSigned acceptingChecker rfl (by decide) (fun _ h => (by cases h))
        (by decide) (by decide)
      rfl (by decide) hsigned
  exact verifyScript_mono _ _ _ _ _ (by decide) (by decide) hstrict

end Bitcoboost
