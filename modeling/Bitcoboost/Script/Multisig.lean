import Bitcoboost.Lib.GreedyMatching
import Bitcoboost.Script.MachineRefinement

/-!
# `OP_CHECKMULTISIG` matches signatures to keys in order

The loop of `OP_CHECKMULTISIG` tries the topmost signature that is left with one key after the
other. It succeeds if and only if the signatures can be assigned to keys in stack order.
-/

namespace Bitcoboost

open ExceptBind GreedyMatching StackMachine StackMachine.MachineLemmas List Bool

/-- The arguments of `OP_CHECKMULTISIG` are on the stack, within the limits and with acceptable
encodings. `scriptCode` is what is left of the script without the signatures. -/
structure MultisigArgs.Acceptable (ctx : EvalContext) (s : EvalState) (args : MultisigArgs)
    (scriptCode : CScript) : Prop where
  sigversion : ctx.sigversion = .base ∨ ctx.sigversion = .witnessV0
  stack : ∃ keysCount sigsCount, s.stack = keysCount ::
    (args.keys ++ sigsCount :: (args.sigs ++ args.dummy :: args.rest)) ∧
    ctx.scriptNum keysCount nDefaultMaxNumSize = .ok args.keys.length ∧
      ctx.scriptNum sigsCount nDefaultMaxNumSize = .ok args.sigs.length
  keysCount : args.keys.length ≤ maxPubkeysPerMultisig
  sigsCount : args.sigs.length ≤ args.keys.length
  opCount : s.nOpCount + args.keys.length ≤ maxOpsPerScript
  scriptCode : Bitcoboost.deleteSignatures ctx s.codeHash args.sigs = .ok scriptCode
  signatures : ∀ vchSig ∈ args.sigs, checkSignatureEncoding vchSig ctx.flags = .ok ()
  pubkeys : ∀ vchPubKey ∈ args.keys, checkPubKeyEncoding vchPubKey ctx.flags ctx.sigversion = .ok ()
  dummy : ctx.has .nulldummy = true → args.dummy = []

/-- A strictly increasing assignment of signatures to keys under which all of them verify. -/
def MultisigArgs.Matching (args : MultisigArgs) (verify : Bytes → Bytes → Bool) : Prop :=
  ∃ assign : Fin args.sigs.length → Fin args.keys.length,
    StrictMono assign ∧ ∀ i, verify (args.sigs.get i) (args.keys.get (assign i)) = true

namespace MultisigLemmas

variable {ctx : EvalContext} {s : EvalState} {args : MultisigArgs} {scriptCode : CScript}
  {verify : Bytes → Bytes → Bool}

theorem getint_natCast {n : Nat} (h : n ≤ maxPubkeysPerMultisig) : scriptNumGetint n = n := by
  rw [maxPubkeysPerMultisig] at h
  rw [scriptNumGetint, if_neg (by omega), if_neg (by omega)]

theorem readMultisig_of_acceptable (h : args.Acceptable ctx s scriptCode) :
    readMultisig ctx s.stack s.nOpCount = .ok (args, s.nOpCount + args.keys.length) := by
  obtain ⟨keysCount, sigsCount, hstack, hkeys, hsigs⟩ := h.stack
  have hkeysCount := h.keysCount
  have hsigsCount := h.sigsCount
  rw [hstack]
  simp only [readMultisig, hkeys, ok_bind, getint_natCast hkeysCount, Int.toNat_natCast, drop_left,
    take_left, hsigs, getint_natCast (hsigsCount.trans hkeysCount)]
  rw [decide_eq_false (by omega), decide_eq_false (Nat.not_lt.mpr h.opCount),
    decide_eq_false (by omega)]
  rfl

variable (hverify : ∀ vchSig vchPubKey, ctx.checker.checkECDSASignature vchSig vchPubKey scriptCode
  ctx.sigversion = .ok (verify vchSig vchPubKey))
include hverify

/-- The greedy loop is complete. -/
theorem multisigLoop_spec {keys sigs : List Bytes} (hle : sigs.length ≤ keys.length)
    (hsigs : ∀ vchSig ∈ sigs, checkSignatureEncoding vchSig ctx.flags = .ok ())
    (hkeys : ∀ vchPubKey ∈ keys, checkPubKeyEncoding vchPubKey ctx.flags ctx.sigversion = .ok ()) :
    ∃ fSuccess, multisigLoop ctx scriptCode keys sigs = .ok fSuccess ∧
      (fSuccess = true ↔ List.SublistForall₂ (fun vchSig vchPubKey =>
        verify vchSig vchPubKey = true) sigs keys) := by
  induction keys generalizing sigs with
  | nil =>
    obtain rfl := eq_nil_of_length_eq_zero (Nat.le_zero.mp hle)
    exact ⟨true, rfl, iff_of_true rfl .nil⟩
  | cons vchPubKey keys ih =>
    cases sigs with
    | nil => exact ⟨true, rfl, iff_of_true rfl .nil⟩
    | cons vchSig sigs =>
      obtain ⟨hsig, hrest⟩ := List.forall_mem_cons.mp hsigs
      obtain ⟨hkey, hkeys⟩ := List.forall_mem_cons.mp hkeys
      simp only [multisigLoop, hsig, hkey, hverify, ok_bind]
      cases hok : verify vchSig vchPubKey with
      | true =>
        rw [if_pos rfl, sublistForall₂_cons_of_rel (R := fun vchSig vchPubKey =>
           verify vchSig vchPubKey = true) hok,
           if_neg (Nat.not_lt.mpr (Nat.le_of_succ_le_succ hle))]
        exact ih (Nat.le_of_succ_le_succ hle) hrest hkeys
      | false =>
        rw [if_neg Bool.false_ne_true, sublistForall₂_cons_of_not_rel (R := fun vchSig vchPubKey =>
          verify vchSig vchPubKey = true) (by rw [hok]; exact false_ne_true)]
        split
        · next hmore => exact ⟨false, rfl, iff_of_false false_ne_true fun hmatch =>
            Nat.not_le.mpr hmore (length_le hmatch)⟩
        · next hmore => exact ih (Nat.not_lt.mp hmore) hsigs hkeys

theorem checkKeys_spec (h : args.Acceptable ctx s scriptCode) :
    ∃ fSuccess checks, checkKeys ctx scriptCode s.stack args.keys.length args.sigs.length 2
    (args.keys.length + 3) = .ok (fSuccess, checks) ∧
      checks.length ≤ args.keys.length ∧ (fSuccess = true ↔ args.Matching verify) := by
  obtain ⟨keysCount, sigsCount, hstack, -, -⟩ := h.stack
  obtain ⟨fSuccess, hloop, hiff⟩ := multisigLoop_spec hverify h.sigsCount h.signatures h.pubkeys
  have hcheck := @checkKeys_eq ctx s.stack scriptCode (args.keys.length + 3) 2 args.keys args.sigs
    (at_keys hstack) (at_sigs hstack) h.sigsCount
  rw [hloop, report_ok] at hcheck
  cases hkeys : checkKeys ctx scriptCode s.stack args.keys.length args.sigs.length 2
    (args.keys.length + 3) with
  | error e =>
    rw [hkeys] at hcheck
    cases hcheck
  | ok r =>
    rw [hkeys] at hcheck
    obtain ⟨fSuccess', checks⟩ := r
    cases hcheck
    exact ⟨fSuccess', checks, rfl, length_checks hkeys, hiff.trans sublistForall₂_iff_strictMono⟩

end MultisigLemmas

open MultisigLemmas in
/-- `OP_CHECKMULTISIG` pushes whether the signatures can be assigned to keys in order. It makes at
most as many signature checks as there are keys, takes keys, signatures, their counts and the extra
element off the stack, and reads nothing else. -/
theorem checkMultisig_matching (ctx : EvalContext) (s : EvalState) (args : MultisigArgs)
    (scriptCode : CScript) (verify : Bytes → Bytes → Bool) (h : args.Acceptable ctx s scriptCode)
    (hverify : ∀ vchSig vchPubKey, ctx.checker.checkECDSASignature vchSig vchPubKey scriptCode
      ctx.sigversion = .ok (verify vchSig vchPubKey)) :
    ∃ fSuccess checks, checkKeys ctx scriptCode s.stack args.keys.length args.sigs.length 2
    (args.keys.length + 3) = .ok (fSuccess, checks) ∧
      checks.length ≤ args.keys.length ∧ (fSuccess = true ↔ args.Matching verify) ∧
      StackMachine.checkMultisigOp ctx false s =
        if !fSuccess && ctx.has .nullfail && args.sigs.any fun vchSig => !vchSig.isEmpty then
          .error (.failure (.error .sigNullfail))
        else .ok ({ s with
          stack := vchBool fSuccess :: s.stack.drop (args.keys.length + args.sigs.length + 3)
          nOpCount := s.nOpCount + args.keys.length }, checks) := by
  obtain ⟨fSuccess, checks, hcheck, hlength, hiff⟩ := checkKeys_spec hverify h
  refine ⟨fSuccess, checks, hcheck, hlength, hiff, ?_⟩
  obtain ⟨keysCount, sigsCount, hstack, -, -⟩ := h.stack
  have hversion : decide (ctx.sigversion = .tapscript) = false := by
    rcases h.sigversion with hversion | hversion <;> rw [hversion] <;> rfl
  have hdelete :=
    @deleteSignatures_eq ctx s.stack (args.keys.length + 3) 0 args.sigs (at_sigs hstack) s.codeHash
  have hdrop : s.stack.drop (args.keys.length + args.sigs.length + 3) = args.rest := by
    have hsplit : s.stack = (keysCount :: args.keys ++ sigsCount :: args.sigs ++ [args.dummy]) ++
        args.rest := by
      rw [hstack]
      simp
    rw [hsplit]
    refine drop_left' ?_
    simp only [length_append, length_cons, length_nil]
    omega
  have hdummy : (ctx.has .nulldummy && !args.dummy.isEmpty) = false := by
    cases hnulldummy : ctx.has .nulldummy with
    | false => rfl
    | true =>
      rw [h.dummy hnulldummy]
      rfl
  simp only [StackMachine.checkMultisigOp, hversion, errorIf_false, report_ok, ok_bind,
    multisigCounts_eq, readMultisig_of_acceptable h, hdelete, h.scriptCode, hcheck, hdrop]
  rw [hstack, finishMultisig_eq, hdummy]
  split
  · next hfail =>
    rw [hfail]
    rfl
  · next hpass =>
    rw [Bool.eq_false_iff.mpr hpass]
    rfl

def mirrorChecker : SignatureChecker where
  checkECDSASignature vchSig vchPubKey _ _ := .ok (vchSig = vchPubKey)
  checkSchnorrSignature _ _ _ execdata := .ok execdata
  checkHybridSignature _ _ _ _ _ := .ok false
  checkLockTime _ := true
  checkSequence _ := true

def mirrorContext : EvalContext := ⟨acceptingCrypto, mirrorChecker, ∅, .base⟩

def twoOfThree : MultisigArgs := ⟨[[1], [2], [3]], [[1], [3]], [], []⟩

def twoOfThreeState : EvalState :=
  ⟨[3] :: twoOfThree.keys ++ [2] :: twoOfThree.sigs ++ [[]], [], {}, 0, [], 0, {}⟩

/-- The first and the third key sign. -/
theorem checkMultisig_twoOfThree : ∃ fSuccess checks,
    StackMachine.checkMultisigOp mirrorContext false twoOfThreeState =
      .ok ({ twoOfThreeState with stack := [vchBool fSuccess], nOpCount := 3 }, checks) ∧
        (fSuccess = true ↔
        twoOfThree.Matching fun vchSig vchPubKey => vchSig = vchPubKey) := by
  have hacceptable : twoOfThree.Acceptable mirrorContext twoOfThreeState [] :=
    ⟨.inl rfl, ⟨[3], [2], rfl, by decide, by decide⟩, by decide, by decide, by decide, by decide,
      by decide, by decide, nofun⟩
  obtain ⟨fSuccess, checks, -, -, hiff, hop⟩ :=
      checkMultisig_matching mirrorContext twoOfThreeState twoOfThree []
    (fun vchSig vchPubKey => vchSig = vchPubKey) hacceptable fun _ _ => rfl
  refine ⟨fSuccess, checks, hop.trans ?_, hiff⟩
  rw [show mirrorContext.has .nullfail = false by decide, Bool.and_false, Bool.false_and]
  rfl

end Bitcoboost
