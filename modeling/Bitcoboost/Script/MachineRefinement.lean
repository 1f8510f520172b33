import Bitcoboost.Script.ScriptNum
import Bitcoboost.Script.StackMachine

/-!
# The stack machine does what matching on the stack does

The multisig opcodes of the machine give what those of `Script.Interpreter` give, on every stack
(`checkMultisig_eq`). The interpreter has no faults, so the machine runs into none.
-/

namespace Bitcoboost

namespace StackMachine

namespace MachineLemmas

open ExceptBind List

variable {ctx : EvalContext} {stack : List Bytes} {n : Nat}

@[simp] theorem report_ok {α : Type} (a : α) : report (.ok a) = .ok a := rfl

theorem report_bind {α β : Type} (x : ScriptResult α) (f : α → ScriptResult β) :
    report (x >>= f) = report x >>= fun a => report (f a) := by
  cases x with
  | error _ => rfl
  | ok _ => rfl

theorem need_of_le (h : n ≤ stack.length) : need stack n = .ok () := by
  rw [need, decide_eq_false (Nat.not_lt.mpr h)]
  rfl

theorem need_of_lt (h : stack.length < n) :
    need stack n = report (setError .invalidStackOperation) := by
  rw [need, decide_eq_true h]
  rfl

theorem need_cons (vch : Bytes) : need (vch :: stack) 1 = .ok () :=
  need_of_le (Nat.le_add_left 1 stack.length)

variable {vch : Bytes} {n : Int}

theorem pushBack_eq (h : vch.length ≤ maxScriptElementSize) :
    pushBack stack vch = .ok (vch :: stack) :=
  if_neg (Nat.not_lt.mpr h)

@[simp] theorem popstack_cons (vch : Bytes) : popstack (vch :: stack) = .ok stack := rfl

theorem length_vchBool (f : Bool) : (vchBool f).length ≤ maxScriptElementSize := by
  cases f with
  | true => decide
  | false => decide

theorem number_eq (hlow : -numberLimit ≤ n) (hhigh : n ≤ numberLimit) : number n = .ok n :=
  if_pos ⟨hlow, hhigh⟩

/-! ### Numbers -/

theorem scriptNum_range {fRequireMinimal : Bool} {nMaxNumSize : Nat}
    (h : scriptNum vch fRequireMinimal nMaxNumSize = some n) :
    vch.length ≤ nMaxNumSize ∧ n.natAbs < 2 ^ (8 * vch.length - 1) := by
  have hlength := ScriptNum.length_le_of_scriptNum h
  obtain ⟨-, rfl⟩ := (ScriptNum.scriptNum_eq fRequireMinimal hlength n).mp h
  exact ⟨hlength, ScriptNum.natAbs_signMagnitude_lt vch⟩

theorem scriptNum_lt {k : Nat} (h : ctx.scriptNum vch k = .ok n) : n.natAbs < 2 ^ (8 * k - 1) := by
  unfold EvalContext.scriptNum at h
  split at h
  · next hread =>
    cases h
    obtain ⟨hlength, hlt⟩ := scriptNum_range hread
    exact hlt.trans_le (Nat.pow_le_pow_right (by decide) (by omega))
  · cases h

/-- Numbers of five bytes are well within 64 bits. -/
theorem number_int64 (h : n.natAbs < 2 ^ 39) : (int64 n >>= number) = .ok n := by
  rw [int64, if_pos (by omega), ok_bind, number_eq]
  · rw [numberLimit]
    omega
  · rw [numberLimit]
    omega

theorem readNumber_eq {k : Nat} (hk : k ≤ 5) :
    readNumber ctx vch k = report (ctx.scriptNum vch k) := by
  unfold readNumber
  cases hread : ctx.scriptNum vch k with
  | error e => rfl
  | ok n =>
    have hlt : n.natAbs < 2 ^ 39 :=
      (scriptNum_lt hread).trans_le (Nat.pow_le_pow_right (by decide) (by omega))
    exact number_int64 hlt

/-! ### Pushing the result -/

variable {s : EvalState} {args : MultisigArgs} {scriptCode : CScript} {l : List Bytes}
  {i isig ikey : Nat}

theorem stacktop_one (vch : Bytes) : stacktop (vch :: stack) 1 = .ok vch := rfl

theorem pushOrVerify_eq (fVerify fSuccess : Bool) (e : ScriptError) (stack : List Bytes) :
    pushOrVerify fVerify fSuccess e stack = report
    (Bitcoboost.pushOrVerify fVerify fSuccess e stack) := by
  rw [pushOrVerify, pushBack_eq (length_vchBool fSuccess), ok_bind]
  cases fVerify with
  | true =>
    cases fSuccess with
    | true => rfl
    | false => rfl
  | false => rfl

/-! ### Multisig -/

theorem stacktop_append {front rest : List Bytes} {vch : Bytes} :
    stacktop (front ++ vch :: rest) (front.length + 1) = .ok vch := by
  rw [stacktop, if_neg (Nat.succ_ne_zero _), Nat.add_sub_cancel,
    List.getElem?_append_right (Nat.le_refl _), Nat.sub_self]
  rfl

/-- The elements `stacktop(-i)`, `stacktop(-i-1)`, ... are the given ones. -/
def At (stack : List Bytes) (i : Nat) (l : List Bytes) : Prop :=
  ∃ front rest, stack = front ++ l ++ rest ∧ i = front.length + 1

theorem At.head (h : At stack i (vch :: l)) : stacktop stack i = .ok vch := by
  obtain ⟨front, rest, rfl, rfl⟩ := h
  rw [append_assoc, cons_append]
  exact stacktop_append

theorem At.tail (h : At stack i (vch :: l)) : At stack (i + 1) l := by
  obtain ⟨front, rest, rfl, rfl⟩ := h
  refine ⟨front ++ [vch], rest, ?_, ?_⟩
  · simp
  · rw [length_append, length_singleton]

/-- The counts are those of the arguments. -/
theorem multisigCounts_eq (stack : List Bytes) (nOpCount : Nat) :
    multisigCounts ctx stack nOpCount = report (do
      let (args, _) ← readMultisig ctx stack nOpCount
      .ok (args.keys.length, args.sigs.length)) := by
  match stack with
  | [] => rfl
  | keysCount :: stack =>
    simp only [multisigCounts, readMultisig, need_cons, ok_bind, stacktop_one,
      readNumber_eq (by decide : nDefaultMaxNumSize ≤ 5), bind_assoc, report_bind]
    refine bind_congr fun n => bind_congr fun _ => bind_congr fun _ => ?_
    generalize scriptNumGetint n = nKeysCount
    cases hdrop : stack.drop nKeysCount.toNat with
    | nil =>
      rw [need_of_lt]
      · rfl
      · have := List.drop_eq_nil_iff.mp hdrop
        rw [length_cons]
        omega
    | cons sigsCount below =>
      have hkeys : (stack.take nKeysCount.toNat).length = nKeysCount.toNat := by
        have := congrArg List.length hdrop
        rw [length_drop, length_cons] at this
        rw [length_take]
        omega
      have hstack : keysCount :: stack = (keysCount :: stack.take nKeysCount.toNat) ++
          sigsCount :: below := by
        rw [← hdrop, cons_append, take_append_drop]
      have hlength : (keysCount :: stack).length = 2 + nKeysCount.toNat + below.length := by
        rw [hstack, length_append, length_cons, length_cons, hkeys]
        omega
      have htop : stacktop (keysCount :: stack) (2 + nKeysCount.toNat) = .ok sigsCount := by
        rw [hstack, show 2 + nKeysCount.toNat =
          (keysCount :: stack.take nKeysCount.toNat).length + 1 by rw [length_cons, hkeys]; omega]
        exact stacktop_append
      simp only [need_of_le (hlength ▸ Nat.le_add_right _ _), htop, ok_bind, bind_assoc,
        report_bind]
      refine bind_congr fun n => bind_congr fun _ => ?_
      generalize scriptNumGetint n = nSigsCount
      cases hsigs : below.drop nSigsCount.toNat with
      | nil =>
        rw [need_of_lt]
        · rfl
        · have := List.drop_eq_nil_iff.mp hsigs
          omega
      | cons dummy rest =>
        have hlt := congrArg List.length hsigs
        rw [length_drop, length_cons] at hlt
        rw [need_of_le (by omega), report_ok, ok_bind, ok_bind, report_ok, hkeys, length_take,
          Nat.min_eq_left (by omega)]

theorem deleteSignatures_eq {k : Nat} {sigs : List Bytes} (h : At stack (isig + k) sigs)
    (scriptCode : CScript) :
    deleteSignatures ctx stack isig sigs.length k scriptCode =
      report (Bitcoboost.deleteSignatures ctx scriptCode sigs) := by
  induction sigs generalizing k scriptCode with
  | nil => rfl
  | cons vchSig sigs ih =>
    rw [length_cons, deleteSignatures, h.head, ok_bind, Bitcoboost.deleteSignatures, report_bind]
    exact bind_congr fun scriptCode => ih h.tail scriptCode

theorem checkKeys_eq {keys sigs : List Bytes} (hkeys : At stack ikey keys)
    (hsigs : At stack isig sigs) (hle : sigs.length ≤ keys.length) :
    Prod.fst <$> checkKeys ctx scriptCode stack keys.length sigs.length ikey isig =
      report (multisigLoop ctx scriptCode keys sigs) := by
  induction keys generalizing ikey isig sigs with
  | nil =>
    obtain rfl := eq_nil_of_length_eq_zero (Nat.le_zero.mp hle)
    rfl
  | cons vchPubKey keys ih =>
    cases sigs with
    | nil => rfl
    | cons vchSig sigs =>
      simp only [length_cons, checkKeys, multisigLoop, hsigs.head, hkeys.head, ok_bind,
        report_bind, map_bind]
      refine bind_congr fun _ => bind_congr fun _ => bind_congr fun fOk => ?_
      have hnext :
          At stack (if fOk then isig + 1 else isig) (if fOk then sigs else vchSig :: sigs) := by
        cases fOk with
        | true => exact hsigs.tail
        | false => exact hsigs
      have hlength : (if fOk then sigs.length else sigs.length + 1) =
          (if fOk then sigs else vchSig :: sigs).length := by
        cases fOk with
        | true => rfl
        | false => rfl
      rw [hlength]
      generalize (if fOk then sigs else vchSig :: sigs) = sigs at hnext ⊢
      split
      · rfl
      · next hmore =>
        rw [← ih hkeys.tail hnext (Nat.not_lt.mp hmore)]
        simp only [map_eq_pure_bind, bind_assoc]
        rfl

theorem length_checks {nKeys nSigs : Nat} {r : Bool × List (Bytes × Bytes)}
    (h : checkKeys ctx scriptCode stack nKeys nSigs ikey isig = .ok r) : r.2.length ≤ nKeys := by
  induction nKeys generalizing nSigs ikey isig r with
  | zero =>
    cases nSigs with
    | zero =>
      cases h
      exact Nat.le_refl 0
    | succ nSigs => cases h
  | succ nKeys ih =>
    cases nSigs with
    | zero =>
      cases h
      exact Nat.zero_le _
    | succ nSigs =>
      simp only [checkKeys, bind_ok] at h
      obtain ⟨_, _, _, _, _, _, _, _, fOk, _, h⟩ := h
      generalize (if fOk then nSigs else nSigs + 1) = nSigs at h
      split at h
      · cases h
        exact Nat.le_add_left 1 nKeys
      · obtain ⟨r', hr', h⟩ := bind_ok.mp h
        cases h
        exact Nat.succ_le_succ (ih hr')

theorem cleanUp_eq (fNullfail : Bool) (front rest : List Bytes) (ikey2 : Nat) :
    cleanUp fNullfail front.length ikey2 (front ++ rest) =
      report (errorIf (fNullfail && (front.drop ikey2).any fun vchSig =>
        !vchSig.isEmpty) .sigNullfail) >>= fun _ => .ok rest := by
  induction front generalizing ikey2 with
  | nil =>
    rw [drop_nil, any_nil, Bool.and_false]
    rfl
  | cons vch front ih =>
    rw [length_cons, cons_append, cleanUp, popstack_cons, ok_bind, ih]
    cases ikey2 with
    | zero =>
      rw [decide_eq_true rfl, Bool.and_true, drop_zero, drop_zero, any_cons]
      cases fNullfail with
      | false => rfl
      | true =>
        have hrequire : requireEmpty true .sigNullfail (vch :: (front ++ rest)) =
          report (errorIf (!vch.isEmpty) .sigNullfail) := rfl
        rw [hrequire]
        cases vch.isEmpty with
        | true => rfl
        | false => rfl
    | succ ikey2 =>
      rw [decide_eq_false (Nat.succ_ne_zero _), Bool.and_false]
      rfl

theorem requireEmpty_eq (cond : Bool) (e : ScriptError) (vch : Bytes) (stack : List Bytes) :
    requireEmpty cond e (vch :: stack) = report (errorIf (cond && !vch.isEmpty) e) := by
  cases cond with
  | true => rfl
  | false => rfl

/-- The stack below the arguments, once they are taken off and the opcode has decided. -/
theorem finishMultisig_eq (fVerify fSuccess : Bool) (args : MultisigArgs)
    (keysCount sigsCount : Bytes) :
    finishMultisig ctx fVerify fSuccess args.keys.length args.sigs.length
      (keysCount :: (args.keys ++ sigsCount :: (args.sigs ++ args.dummy :: args.rest))) = report (do
      errorIf (!fSuccess && ctx.has .nullfail && args.sigs.any fun vchSig =>
        !vchSig.isEmpty) .sigNullfail
      errorIf (ctx.has .nulldummy && !args.dummy.isEmpty) .sigNulldummy
      Bitcoboost.pushOrVerify fVerify fSuccess .checkmultisigverify args.rest) := by
  have hstack : keysCount :: (args.keys ++ sigsCount :: (args.sigs ++ args.dummy :: args.rest)) =
      (keysCount :: args.keys ++ [sigsCount] ++ args.sigs) ++ args.dummy :: args.rest := by
    simp [cons_append, append_assoc]
  have hfront : (keysCount :: args.keys ++ [sigsCount]).length = args.keys.length + 2 := by
    rw [length_append, length_cons, length_singleton]
  have hlength : args.keys.length + 3 + args.sigs.length - 1 =
      (keysCount :: args.keys ++ [sigsCount] ++ args.sigs).length := by
    rw [length_append, hfront]
    omega
  rw [finishMultisig, hstack, hlength, cleanUp_eq, ← hfront, drop_left]
  simp [need_cons, requireEmpty_eq, pushOrVerify_eq, report_bind]

theorem at_keys {keysCount sigsCount : Bytes}
    (h : stack = keysCount :: (args.keys ++ sigsCount :: (args.sigs ++ args.dummy :: args.rest))) :
    At stack 2 args.keys :=
  ⟨[keysCount], sigsCount :: (args.sigs ++ args.dummy :: args.rest), h, rfl⟩

theorem at_sigs {keysCount sigsCount : Bytes}
    (h : stack = keysCount :: (args.keys ++ sigsCount :: (args.sigs ++ args.dummy :: args.rest))) :
    At stack (args.keys.length + 3) args.sigs := by
  refine ⟨keysCount :: args.keys ++ [sigsCount], args.dummy :: args.rest, ?_, ?_⟩
  · rw [h]
    simp
  · rw [length_append, length_cons, length_singleton]

/-- The arguments that are found make up the stack. -/
theorem readMultisig_stack {nOpCount nOpCount' : Nat}
    (h : readMultisig ctx stack nOpCount = .ok (args, nOpCount')) :
    (∃ keysCount sigsCount,
      stack = keysCount :: (args.keys ++ sigsCount :: (args.sigs ++ args.dummy :: args.rest))) ∧
    args.sigs.length ≤ args.keys.length ∧ nOpCount' = nOpCount + args.keys.length := by
  cases stack with
  | nil => cases h
  | cons keysCount stack =>
    obtain ⟨nKeys, -, h⟩ := bind_ok.mp h
    obtain ⟨-, -, h⟩ := bind_ok.mp h
    obtain ⟨-, -, h⟩ := bind_ok.mp h
    generalize scriptNumGetint nKeys = nKeysCount at h
    split at h
    · cases h
    · next sigsCount below hbelow =>
      obtain ⟨nSigs, -, h⟩ := bind_ok.mp h
      obtain ⟨_, hcount, h⟩ := bind_ok.mp h
      generalize scriptNumGetint nSigs = nSigsCount at h hcount
      dsimp only at h
      split at h
      · cases h
      · next dummy rest hrest =>
        cases h
        have hle : ¬(nSigsCount < 0 ∨ nSigsCount > nKeysCount) := by
          intro hbad
          rw [decide_eq_true hbad] at hcount
          cases hcount
        have hkeys := congrArg List.length hbelow
        have hsigs := congrArg List.length hrest
        rw [length_drop, length_cons] at hkeys hsigs
        refine ⟨⟨keysCount, sigsCount, ?_⟩, ?_, ?_⟩
        · rw [← hrest, take_append_drop, ← hbelow, take_append_drop]
        · rw [length_take, length_take]
          omega
        · rw [length_take]
          omega

end MachineLemmas

open ExceptBind MachineLemmas in
/-- The machine gives what the interpreter gives: it never leaves the stack, and no assertion
fails. -/
theorem checkMultisig_eq (ctx : EvalContext) (fVerify : Bool) (s : EvalState) :
    Prod.fst <$> checkMultisigOp ctx fVerify s
      = report (Bitcoboost.checkMultisigOp ctx fVerify s) := by
  simp only [checkMultisigOp, Bitcoboost.checkMultisigOp, multisigCounts_eq, report_bind, map_bind,
    bind_assoc]
  refine bind_congr fun _ => ?_
  cases hread : readMultisig ctx s.stack s.nOpCount with
  | error e => rfl
  | ok found =>
    obtain ⟨args, nOpCount⟩ := found
    obtain ⟨⟨keysCount, sigsCount, hstack⟩, hle, rfl⟩ := readMultisig_stack hread
    simp only [report_ok, ok_bind, @deleteSignatures_eq ctx _ _ 0 _ (at_sigs hstack)]
    refine bind_congr fun scriptCode => ?_
    rw [← checkKeys_eq (at_keys hstack) (at_sigs hstack) hle, map_eq_pure_bind, bind_assoc]
    refine bind_congr fun result => ?_
    rw [hstack, finishMultisig_eq, report_bind, report_bind, bind_assoc, bind_assoc]
    rfl

end StackMachine

end Bitcoboost
