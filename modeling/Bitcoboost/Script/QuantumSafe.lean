import Bitcoboost.Script.VerifyScript

/-!
# Spending a quantum-safe output

An output of witness version 2 with a 32-byte program is spent by an ECDSA and an ML-DSA
signature. `VerifyScript` reaches that check through the evaluation of both scripts, the
witness rules and the stack rules. They do not depend on the flags, but `CastToBool` of the
program has to be true: a program that counts as false can never be spent.
-/

namespace Bitcoboost

open List Bool

/-- The script of a quantum-safe output: `OP_2` and the program. -/
def quantumSafeScript (program : Bytes) : CScript := [OpcodeType.op2.toByte] ++ pushData program

/-- The programs that `CastToBool` takes for false. -/
def FalseProgram (program : Bytes) : Prop :=
  program = List.replicate 32 0 ∨ program = List.replicate 31 0 ++ [0x80]

namespace QuantumSafeLemmas

open ExceptBind InterpreterLemmas

theorem castToBool_eq_false {vch : Bytes} :
    castToBool vch = false ↔ ∃ k, vch = List.replicate k 0 ∨
    vch = List.replicate k 0 ++ [0x80] := by
  induction vch with
  | nil => exact ⟨fun _ => ⟨0, .inl rfl⟩, fun _ => rfl⟩
  | cons byte vch ih =>
    unfold castToBool
    by_cases hbyte : byte = 0
    · subst hbyte
      rw [if_neg (by simp), ih]
      constructor
      · rintro ⟨k, rfl | rfl⟩
        · exact ⟨k + 1, .inl rfl⟩
        · exact ⟨k + 1, .inr rfl⟩
      · rintro ⟨k, h⟩
        cases k with
        | zero => simp at h
        | succ k => exact ⟨k, by simpa [replicate_succ] using h⟩
    · rw [if_pos hbyte]
      constructor
      · intro h
        obtain ⟨hnil, rfl⟩ : vch = [] ∧ byte = 0x80 := by simpa using h
        subst hnil
        exact ⟨0, .inr rfl⟩
      · rintro ⟨k, h⟩
        cases k with
        | zero =>
          obtain ⟨rfl, rfl⟩ : byte = 0x80 ∧ vch = [] := by simpa using h
          rfl
        | succ k => simp [replicate_succ, hbyte] at h

theorem castToBool_program {program : Bytes} (h : program.length = 32) :
    castToBool program = false ↔ FalseProgram program := by
  rw [castToBool_eq_false]
  constructor
  · rintro ⟨k, rfl | rfl⟩
    · rw [length_replicate] at h
      exact .inl (by rw [h])
    · rw [length_append, length_replicate, length_singleton] at h
      exact .inr (by rw [show k = 31 by omega])
  · rintro (h | h)
    · exact ⟨32, .inl h⟩
    · exact ⟨31, .inr h⟩

variable {program : Bytes}

theorem quantumSafeScript_eq (h : program.length = 32) :
    quantumSafeScript program = 0x52 :: 0x20 :: program := by
  have hpush : pushData program = 0x20 :: program := by
    rw [pushData, if_pos (by rw [h]; decide), h]
    rfl
  rw [quantumSafeScript, hpush]
  rfl

theorem isWitnessProgram_quantumSafe (h : program.length = 32) :
    CScript.isWitnessProgram (quantumSafeScript program) = some (2, program) := by
  rw [quantumSafeScript_eq h, CScript.isWitnessProgram]
  simp only [length_cons, h]
  rfl

theorem isPayToScriptHash_quantumSafe (h : program.length = 32) :
    CScript.isPayToScriptHash (quantumSafeScript program) = false := by
  rw [quantumSafeScript_eq h, CScript.isPayToScriptHash]
  simp [h]

variable {ctx : EvalContext}

theorem evalScript_nil (ctx : EvalContext) (hbase : ctx.sigversion = .base) (stack : List Bytes) :
    ∃ execdata, evalScript ctx stack [] {} = .ok (stack, execdata) := by
  unfold evalScript
  rw [hbase]
  exact ⟨_, rfl⟩

theorem evalStep_op2 {pc : CScript} {s : EvalState} (hexec : s.vfExec.allTrue = true)
    (hstack : s.stack.length + s.altstack.length < maxStackSize) :
    evalStep ctx 0x52 [] pc s =
      .ok { s with stack := [2] :: s.stack, opcodePos := s.opcodePos + 1 } := by
  have hexecuted : execOpcode ctx 0x52 [] pc s = .ok { s with stack := [2] :: s.stack } := by
    unfold execOpcode
    rw [if_neg fun h => absurd h.2 (by decide), if_pos (.inl hexec)]
    rfl
  exact evalStep_of_exec (Nat.zero_le _) (if_neg fun h => absurd h.2 (by decide)) (by decide)
      (by decide) hexecuted
    (Nat.succ_add _ _ ▸ hstack)

/-- The script pushes the number two and the program, under any flags. -/
theorem evalScript_quantumSafe (ctx : EvalContext) (hbase : ctx.sigversion = .base)
    (h : program.length = 32) :
    ∃ execdata, evalScript ctx [] (quantumSafeScript program) {} =
      .ok ([program, [2]], execdata) := by
  have hlength : (quantumSafeScript program).length = 34 := by rw [quantumSafeScript_eq h]; simp [h]
  have hop2 : getScriptOp (quantumSafeScript program) = some (0x52, [], 0x20 :: program) := by
    rw [quantumSafeScript_eq h]
    rfl
  have hpush : getScriptOp (0x20 :: program) = some (0x20, program, []) := by
    have htake : program.take 32 = program := take_of_length_le h.le
    have hdrop : program.drop 32 = [] := drop_of_length_le h.le
    have hsize : pushSize 0x20 program = some (32, program) := rfl
    simp only [getScriptOp, hsize, Option.bind_eq_bind, Option.bind_some, h, htake, hdrop]
    rfl
  unfold evalScript
  rw [hbase, if_neg (by decide), if_neg fun hsize =>
    absurd hsize.2 (by rw [hlength]; decide), hlength]
  dsimp only
  rw [evalLoop_of_step hop2 (evalStep_op2 rfl (by simp [maxStackSize])),
    evalLoop_of_step hpush (evalStep_push rfl (by decide) h (by rw [h]; decide)
    (by simp [maxStackSize]))]
  exact ⟨_, rfl⟩

variable {witness : CScriptWitness}

theorem verifyHybrid_ok :
    verifyHybrid ctx witness program = .ok () ↔ ∃ esig epk msig mpk,
    witness = [esig, epk, msig, mpk] ∧
      ctx.checker.checkHybridSignature esig epk msig mpk program = .ok true := by
  constructor
  · intro h
    unfold verifyHybrid at h
    split at h
    · next esig epk msig mpk =>
      obtain ⟨success, hcheck, h⟩ := bind_ok.mp h
      cases success with
      | false => cases h
      | true => exact ⟨esig, epk, msig, mpk, rfl, hcheck⟩
    · cases h
  · rintro ⟨esig, epk, msig, mpk, rfl, hcheck⟩
    rw [verifyHybrid, hcheck]
    rfl

theorem verifyWitness_quantumSafe {malleated : Bool} {e : ScriptError} {stack : List Bytes}
    {r : Bool × List Bytes} (hwitness : ctx.has .witness = true) (h : program.length = 32) :
    verifyWitness ctx (quantumSafeScript program) witness malleated e false stack = .ok r ↔
      malleated = false ∧ verifyHybrid ctx witness program = .ok () ∧
        (true, resizeToOne stack) = r := by
  have hprogram :
      verifyWitnessProgram ctx witness 2 program false = verifyHybrid ctx witness program := by
    rw [verifyWitnessProgram, if_neg (by decide), if_neg (by simp), if_pos (by simp [h])]
  unfold verifyWitness
  rw [hwitness, isWitnessProgram_quantumSafe h]
  simp only [Bool.not_true, false_eq_true, if_false, bind_ok, errorIf_ok, hprogram, Except.ok.injEq,
    exists_const]
  exact and_congr_right fun _ => ⟨fun ⟨_, hr⟩ => hr, fun hr => ⟨(), hr⟩⟩

/-- The rules at the end hold for one element that a witness left. -/
theorem verifyEnd_ok {elem : Bytes} (hp2sh : ctx.has .p2sh = true)
    (hwitness : ctx.has .witness = true) : verifyEnd ctx witness true [elem] = .ok () := by
  unfold verifyEnd
  rw [hp2sh, hwitness]
  cases ctx.has .cleanstack with
  | true => rfl
  | false => rfl

end QuantumSafeLemmas

open ExceptBind QuantumSafeLemmas

variable {flags : ScriptFlags}

/-- `VerifyScript` of a quantum-safe output, under any flags with `P2SH` and `WITNESS`:
the scriptSig is empty, the program is not false, and the hybrid check passes. -/
theorem verifyScript_quantumSafe {crypto : Crypto} {scriptSig : CScript} {program : Bytes}
    {witness : CScriptWitness}
    {checker : SignatureChecker} (hp2sh : .p2sh ∈ flags) (hwitness : .witness ∈ flags)
    (hprogram : program.length = 32) :
    verifyScript crypto scriptSig (quantumSafeScript program) witness flags checker = .ok () ↔
      scriptSig = [] ∧ castToBool program = true ∧ ∃ esig epk msig mpk,
        witness = [esig, epk, msig, mpk] ∧
        checker.checkHybridSignature esig epk msig mpk program = .ok true := by
  let ctx : EvalContext := ⟨crypto, checker, flags, .base⟩
  have hp2sh : ctx.has .p2sh = true := decide_eq_true hp2sh
  have hwitness : ctx.has .witness = true := decide_eq_true hwitness
  obtain ⟨_, hscriptSig⟩ := evalScript_nil ctx rfl []
  obtain ⟨_, hscriptPubKey⟩ := evalScript_quantumSafe ctx rfl hprogram
  constructor
  · intro h
    obtain ⟨_, _, h⟩ := bind_ok.mp h
    obtain ⟨⟨stackCopy, _⟩, hsig, h⟩ := bind_ok.mp h
    obtain ⟨⟨stack, _⟩, hpub, h⟩ := bind_ok.mp h
    obtain ⟨_, htrue, h⟩ := bind_ok.mp h
    obtain ⟨_, hwit, _⟩ := bind_ok.mp h
    obtain ⟨hempty, hhybrid, _⟩ := (verifyWitness_quantumSafe hwitness hprogram).mp hwit
    obtain rfl : scriptSig = [] := by simpa using hempty
    cases hscriptSig.symm.trans hsig
    cases hscriptPubKey.symm.trans hpub
    have htop := errorIf_ok.mp htrue
    exact ⟨rfl, by simpa using htop, verifyHybrid_ok.mp hhybrid⟩
  · rintro ⟨rfl, htop, hhybrid⟩
    have hwit :
        verifyWitness ctx (quantumSafeScript program) witness false .witnessMalleated false
        [program, [2]]
        = .ok (true, [[2]]) :=
      (verifyWitness_quantumSafe hwitness hprogram).mpr ⟨rfl, verifyHybrid_ok.mpr hhybrid, rfl⟩
    have hnoP2SH : verifyP2SH ctx [] (quantumSafeScript program) witness [] true [[2]] =
        .ok (true, [[2]]) := by
      rw [verifyP2SH, isPayToScriptHash_quantumSafe hprogram, Bool.and_false]
      rfl
    have hpushOnly : (ctx.has .sigpushonly && !CScript.isPushOnly []) = false := and_false _
    have htrue : requireTrue [program, [2]] = .ok () := errorIf_ok.mpr (by rw [htop, Bool.not_true])
    exact bind_ok.mpr ⟨(), errorIf_ok.mpr hpushOnly,
      bind_ok.mpr ⟨_, hscriptSig, bind_ok.mpr ⟨_, hscriptPubKey,
      bind_ok.mpr ⟨(), htrue, bind_ok.mpr ⟨_, hwit,
      bind_ok.mpr ⟨_, hnoP2SH, verifyEnd_ok hp2sh hwitness⟩⟩⟩⟩⟩⟩

/-- Signatures that are right for the BIP143 hash spend an output whose program is not
false. -/
theorem verifyScript_of_hybridSigned (checker : TransactionSignatureChecker) {txin : CTxIn}
    (htxin : checker.txTo.vin[checker.nIn]? = some txin) (hamount : 0 ≤ checker.amount)
    (hdata : PrecomputedFor checker.crypto checker.txTo checker.txdata) (hp2sh : .p2sh ∈ flags)
    (hwitness : .witness ∈ flags) {program : Bytes} (hprogram : program.length = 32)
    (htrue : castToBool program = true) {esig epk msig mpk : Bytes}
    (hsigned : HybridSigned checker.crypto
      (bip143SighashAll checker.crypto (quantumSafeScript program) checker.txTo txin checker.amount)
      program esig epk msig mpk) :
    verifyScript checker.crypto [] (quantumSafeScript program) [esig, epk, msig,
      mpk] flags checker.toChecker = .ok () :=
  (verifyScript_quantumSafe hp2sh hwitness hprogram).mpr
    ⟨rfl, htrue, esig, epk, msig, mpk, rfl,
      (checkHybridSignature_ok htxin hamount hdata hprogram).mpr hsigned⟩

/-- The spending condition of a quantum-safe output: an empty scriptSig and a witness
of four elements with both signatures right for the BIP143 hash of the output's
script. A false program is never spent. -/
theorem verifyScript_quantumSafe_iff (checker : TransactionSignatureChecker) {txin : CTxIn}
    (htxin : checker.txTo.vin[checker.nIn]? = some txin) (hamount : 0 ≤ checker.amount)
    (hdata : PrecomputedFor checker.crypto checker.txTo checker.txdata) {flags : ScriptFlags}
    (hp2sh : .p2sh ∈ flags)
    (hwitness : .witness ∈ flags) {program : Bytes} (hprogram : program.length = 32)
    (scriptSig : CScript) (witness : CScriptWitness) :
    (¬ FalseProgram program →
      (verifyScript checker.crypto scriptSig (quantumSafeScript program) witness flags
        checker.toChecker = .ok () ↔
        scriptSig = [] ∧ ∃ esig epk msig mpk, witness = [esig, epk, msig, mpk] ∧
          HybridSigned checker.crypto
            (bip143SighashAll checker.crypto (quantumSafeScript program) checker.txTo txin
              checker.amount) program esig epk msig mpk)) ∧
    (FalseProgram program →
      verifyScript checker.crypto scriptSig (quantumSafeScript program) witness flags
        checker.toChecker ≠ .ok ()) := by
  have hverify : verifyScript checker.crypto scriptSig _ witness flags checker.toChecker =
    .ok () ↔ _ := verifyScript_quantumSafe hp2sh hwitness hprogram
  constructor
  · intro hfalse
    have htrue : castToBool program = true := by
      rw [← not_eq_false, castToBool_program hprogram]
      exact hfalse
    refine hverify.trans (and_congr_right fun _ => ⟨?_, ?_⟩)
    · rintro ⟨_, esig, epk, msig, mpk, hstack, hcheck⟩
      exact ⟨esig, epk, msig, mpk, hstack,
        (checkHybridSignature_ok htxin hamount hdata hprogram).mp hcheck⟩
    · rintro ⟨esig, epk, msig, mpk, hstack, hsigned⟩
      exact ⟨htrue, esig, epk, msig, mpk, hstack,
        (checkHybridSignature_ok htxin hamount hdata hprogram).mpr hsigned⟩
  · intro hfalse hok
    have htrue := (hverify.mp hok).2.1
    rw [(castToBool_program hprogram).mpr hfalse] at htrue
    cases htrue

/-- The checker of a transaction with one input, under functions that accept every
signature. -/
def acceptingChecker : TransactionSignatureChecker where
  crypto := acceptingCrypto
  txTo := ⟨[⟨⟨nullUint256, 0#32⟩, [], 0xffffffff#32, []⟩], [⟨0, []⟩], 2#32, 0#32⟩
  nIn := 0
  amount := coin
  txdata := none
  mdb := .assertFail

/-- The program that the keys have under these functions. -/
def acceptedProgram : Bytes := (uint256S 1).data

/-- A key of each kind. -/
def sampleEpk : Bytes := 0x02 :: List.replicate 32 0

def sampleMpk : Bytes := List.replicate 1312 0

theorem verifyScript_quantumSafe_sample :
    verifyScript acceptingCrypto [] (quantumSafeScript acceptedProgram)
      [[0x30, 0x06, 0x02, 0x01, 0x01, 0x02, 0x01, 0x01, 0x01], sampleEpk, [], sampleMpk]
        {.p2sh, .witness}
      acceptingChecker.toChecker = .ok () := by
  have hfalse : ¬ FalseProgram acceptedProgram := by
    unfold FalseProgram
    decide
  refine ((verifyScript_quantumSafe_iff acceptingChecker rfl (by decide) ?_ (by decide)
    (by decide) rfl [] _).1
    hfalse).mpr ⟨rfl, _, _, _, _, rfl, rfl, length_replicate, rfl, rfl, rfl, ?_, rfl⟩
  · intro data hdata
    cases hdata
  · decide +kernel

end Bitcoboost
