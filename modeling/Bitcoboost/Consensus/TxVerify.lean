import Bitcoboost.Coins.Coins
import Bitcoboost.Lib.ExceptBind
import Bitcoboost.Pow.Pow
import Mathlib.Algebra.Order.BigOperators.Group.List
import Mathlib.Tactic.Linarith

/-!
# Checks of a transaction

`CheckTransaction` of `tx_check.cpp`, and from `tx_verify.cpp` the lock times, the signature
operation counts and `CheckTxInputs`. The debug messages of the failures are left out, the reject
reasons are there.
-/

namespace Bitcoboost

open ExceptBind FiniteMap CTransaction List Option

/-- The values of `TxValidationResult` that the checks below set. -/
inductive TxValidationResult where
  | consensus
  | notStandard
  | missingInputs
  | prematureSpend
deriving DecidableEq, Repr

/-- How a check of a transaction can fail: the state it sets, or an assertion or
exception that stops it. -/
inductive TxFailure where
  | invalid (result : TxValidationResult) (rejectReason : String)
  | aborted
deriving DecidableEq, Repr

def maxBlockWeight : Nat := 4000000

def witnessScaleFactor : Nat := 4

def coinbaseMaturity : Int := 100

/-! ## Context free checks -/

/-- The loop of `CheckTransaction` over the outputs. -/
def checkOutputs (nValueOut : CAmount) : List CTxOut → Except TxFailure Unit
  | [] => .ok ()
  | txout :: vout =>
    if txout.nValue < 0 then .error (.invalid .consensus "bad-txns-vout-negative")
    else if txout.nValue > maxMoney then .error (.invalid .consensus "bad-txns-vout-toolarge")
    else if !moneyRange (nValueOut + txout.nValue) then
      .error (.invalid .consensus "bad-txns-txouttotal-toolarge")
    else checkOutputs (nValueOut + txout.nValue) vout

variable (tx : CTransaction)

/-- The part of `CheckTransaction` that depends on whether it is a coinbase. -/
def checkPrevouts : Except TxFailure Unit :=
  if tx.isCoinBase then
    if (tx.vin.head?.elim 0 fun txin => txin.scriptSig.length) < 2 ∨
        (tx.vin.head?.elim 0 fun txin => txin.scriptSig.length) > 100 then
      .error (.invalid .consensus "bad-cb-length")
    else .ok ()
  else if tx.vin.any fun txin => txin.prevout.isNull then
    .error (.invalid .consensus "bad-txns-prevout-null")
  else .ok ()

def checkTransaction : Except TxFailure Unit :=
  if tx.vin.isEmpty then .error (.invalid .consensus "bad-txns-vin-empty")
  else if tx.vout.isEmpty then .error (.invalid .consensus "bad-txns-vout-empty")
  else if (tx.serialize false).length * witnessScaleFactor > maxBlockWeight then
    .error (.invalid .consensus "bad-txns-oversize")
  else
    match checkOutputs 0 tx.vout with
    | .error e => .error e
    | .ok () =>
      if !(tx.vin.map CTxIn.prevout).Nodup then
        .error (.invalid .consensus "bad-txns-inputs-duplicate")
      else checkPrevouts tx

/-! ## Absolute lock times -/

def sequenceFinal : BitVec 32 := 0xffffffff#32

def isFinalTx (nBlockHeight : Nat) (nBlockTime : Int) : Bool :=
  tx.nLockTime = 0#32
    || tx.nLockTime.toNat < (if tx.nLockTime.toNat < locktimeThreshold then (nBlockHeight : Int)
      else nBlockTime)
    || tx.vin.all fun txin => txin.nSequence = sequenceFinal

/-! ## Relative lock times -/

def sequenceLocktimeDisableFlag : BitVec 32 := 0x80000000#32

def sequenceLocktimeTypeFlag : BitVec 32 := 0x00400000#32

def sequenceLocktimeMask : BitVec 32 := 0x0000ffff#32

/-- The loop of `CalculateSequenceLocks`, over the inputs with the heights of
their coins. -/
def sequenceLocksLoop (block : CBlockIndex) : Int × Int → List (CTxIn × Int) → Option (Int × Int)
  | locks, [] => some locks
  | (nMinHeight, nMinTime), (txin, nCoinHeight) :: vin =>
    if txin.nSequence &&& sequenceLocktimeDisableFlag ≠ 0#32 then
      sequenceLocksLoop block (nMinHeight, nMinTime) vin
    else
      let value : Int := (txin.nSequence &&& sequenceLocktimeMask).toNat
      if txin.nSequence &&& sequenceLocktimeTypeFlag ≠ 0#32 then do
        let ancestor ← block.getAncestor (max (nCoinHeight - 1) 0)
        let nCoinTime := ancestor.getMedianTimePast
        sequenceLocksLoop block (nMinHeight, max nMinTime (nCoinTime + value * 2 ^ 9 - 1)) vin
      else sequenceLocksLoop block (max nMinHeight (nCoinHeight + value - 1), nMinTime) vin

/-- `CalculateSequenceLocks`. `verifySequence` is the flag `LOCKTIME_VERIFY_SEQUENCE`. What is
written to `prevHeights` for inputs without a lock is left out, and the heights of type `int` are
integers, which they may be for coins below the height `2 ^ 31 - 65535`. -/
def calculateSequenceLocks (verifySequence : Bool) (prevHeights : List Int) (block : CBlockIndex) :
    Option (Int × Int) :=
  if prevHeights.length ≠ tx.vin.length then none
  else if !(tx.nVersion.toNat ≥ 2 && verifySequence) then some (-1, -1)
  else sequenceLocksLoop block (-1, -1) (tx.vin.zip prevHeights)

def evaluateSequenceLocks (block : CBlockIndex) (lockPair : Int × Int) : Option Bool := do
  let pprev ← block.pprev
  some !(lockPair.1 ≥ block.nHeight || lockPair.2 ≥ pprev.getMedianTimePast)

def sequenceLocks (verifySequence : Bool) (prevHeights : List Int) (block : CBlockIndex) :
    Option Bool := do
  evaluateSequenceLocks block (← calculateSequenceLocks tx verifySequence prevHeights block)

/-! ## Signature operations -/

def getLegacySigOpCount : Nat :=
  (tx.vin.map fun txin => CScript.getSigOpCount txin.scriptSig false).sum
    + (tx.vout.map fun txout => CScript.getSigOpCount txout.scriptPubKey false).sum

/-- The coins that the inputs spend, which a caller asserts to be there: the
loops over `AccessCoin` in `GetP2SHSigOpCount`, `GetTransactionSigOpCost` and
`CheckInputScripts`. -/
def accessCoins (view : CCoinsViewCache) : List CTxIn → Option (CCoinsViewCache × List Coin)
  | [] => some (view, [])
  | txin :: vin =>
    match view.accessCoin txin.prevout with
    | (view, coin) =>
      if coin.isSpent then none
      else do
        let (view, coins) ← accessCoins view vin
        some (view, coin :: coins)

/-- `GetP2SHSigOpCount` of inputs with the coins that they spend. -/
def getP2SHSigOpCount (vin : List (CTxIn × Coin)) : Nat :=
  (vin.map fun (txin, coin) =>
    if CScript.isPayToScriptHash coin.out.scriptPubKey then
      CScript.getSigOpCountP2SH coin.out.scriptPubKey txin.scriptSig
    else 0).sum

/-- The witness part of `GetTransactionSigOpCost`. -/
def witnessSigOpCost (flags : ScriptFlags) : List (CTxIn × Coin) → Option Nat
  | [] => some 0
  | (txin, coin) :: vin => do
    let n ← CScript.countWitnessSigOps txin.scriptSig coin.out.scriptPubKey txin.scriptWitness flags
    let rest ← witnessSigOpCost flags vin
    some (n + rest)

def getTransactionSigOpCost (view : CCoinsViewCache) (flags : ScriptFlags) :
    Option (CCoinsViewCache × Nat) :=
  let nSigOps := getLegacySigOpCount tx * witnessScaleFactor
  if tx.isCoinBase then some (view, nSigOps)
  else do
    let (view, coins) ← accessCoins view tx.vin
    let p2sh :=
      if .p2sh ∈ flags then getP2SHSigOpCount (tx.vin.zip coins) * witnessScaleFactor else 0
    let witness ← witnessSigOpCost flags (tx.vin.zip coins)
    some (view, nSigOps + p2sh + witness)

/-! ## Inputs -/

/-- The loop of `CheckTxInputs`. -/
def valueInLoop (nSpendHeight : Int) :
    CCoinsViewCache → CAmount → List CTxIn → Except TxFailure (CCoinsViewCache × CAmount)
  | view, nValueIn, [] => .ok (view, nValueIn)
  | view, nValueIn, txin :: vin =>
    match view.accessCoin txin.prevout with
    | (view, coin) =>
      if coin.isSpent then .error .aborted
      else if coin.fCoinBase && decide (nSpendHeight - coin.nHeight < coinbaseMaturity) then
        .error (.invalid .prematureSpend "bad-txns-premature-spend-of-coinbase")
      else if !moneyRange coin.out.nValue || !moneyRange (nValueIn + coin.out.nValue) then
        .error (.invalid .consensus "bad-txns-inputvalues-outofrange")
      else valueInLoop nSpendHeight view (nValueIn + coin.out.nValue) vin

/-- `Consensus::CheckTxInputs`: the view after its reads and the fee. -/
def checkTxInputs (view : CCoinsViewCache) (nSpendHeight : Int) :
    Except TxFailure (CCoinsViewCache × CAmount) :=
  match view.haveInputs tx with
  | (_, false) => .error (.invalid .missingInputs "bad-txns-inputs-missingorspent")
  | (view, true) =>
    match valueInLoop nSpendHeight view 0 tx.vin with
    | .error e => .error e
    | .ok (view, nValueIn) =>
      match tx.getValueOut with
      | none => .error .aborted
      | some valueOut =>
        if nValueIn < valueOut then .error (.invalid .consensus "bad-txns-in-belowout")
        else if !moneyRange (nValueIn - valueOut) then
          .error (.invalid .consensus "bad-txns-fee-outofrange")
        else .ok (view, nValueIn - valueOut)

/-! ## What passing means -/

/-- The value of a looked-up coin, zero if there is none. -/
def coinValue (coin : Option UnspentCoin) : CAmount := coin.elim 0 fun coin => coin.val.out.nValue

def spentValue (coins : UtxoSet) (vin : List CTxIn) : CAmount :=
  (vin.map fun txin => coinValue (coins.lookup txin.prevout)).sum

def outputValue (vout : List CTxOut) : CAmount := (vout.map CTxOut.nValue).sum

namespace TxVerifyLemmas

open CoinsLemmas

variable {vout : List CTxOut} {nValueOut v : CAmount} {view view' : CCoinsViewCache}
  {vin : List CTxIn}

theorem checkOutputs_ok (h : checkOutputs nValueOut vout = .ok ()) :
    ∀ txout ∈ vout, 0 ≤ txout.nValue := by
  induction vout generalizing nValueOut with
  | nil => simp
  | cons txout vout ih =>
    simp only [checkOutputs, ite_error_ok] at h
    obtain ⟨hneg, -, -, h⟩ := h
    exact List.forall_mem_cons.mpr ⟨Int.not_lt.mp hneg, ih h⟩

theorem valueOutFrom_eq
    (h : CTransaction.valueOutFrom nValueOut vout = some v) : v = nValueOut + outputValue vout := by
  induction vout generalizing nValueOut with
  | nil =>
    cases h
    simp [outputValue]
  | cons txout vout ih =>
    unfold valueOutFrom at h
    split at h
    · cases h
    · rw [ih h, outputValue, outputValue, map_cons, sum_cons, Int.add_assoc]

theorem valueOutFrom_of_nonneg (hpos : 0 ≤ nValueOut)
    (hmax : nValueOut ≤ maxMoney) (h : ∀ txout ∈ vout, 0 ≤ txout.nValue) :
    CTransaction.valueOutFrom nValueOut vout =
      if nValueOut + outputValue vout ≤ maxMoney then some (nValueOut + outputValue vout)
        else none := by
  induction vout generalizing nValueOut with
  | nil => simp [valueOutFrom, outputValue, hmax]
  | cons txout vout ih =>
    obtain ⟨hout, hrest⟩ := List.forall_mem_cons.mp h
    have hnonneg : 0 ≤ outputValue vout := sum_nonneg (by simpa using hrest)
    have hsum : outputValue (txout :: vout) = txout.nValue + outputValue vout := sum_cons
    have hrange : (!moneyRange txout.nValue || !moneyRange (nValueOut + txout.nValue)) = true ↔
        maxMoney < nValueOut + txout.nValue := by
      simp only [moneyRange, Bool.or_eq_true, Bool.not_eq_true', decide_eq_false_iff_not,
        not_and, not_le]
      constructor
      · rintro (h | h)
        · linarith [h hout]
        · exact h (by linarith)
      · exact fun h => .inr fun _ => h
    unfold valueOutFrom
    split
    · next hover =>
      have hover := hrange.mp hover
      rw [if_neg (by rw [hsum]; linarith)]
    · next hover =>
      have hover := Int.not_lt.mp (mt hrange.mpr hover)
      rw [ih (by linarith) hover hrest, hsum, Int.add_assoc]

theorem lookup_accessCoin {outpoint : COutPoint}
    (h : (view.accessCoin outpoint).2.isSpent = false) :
    view.coins.lookup outpoint = some ⟨(view.accessCoin outpoint).2, h⟩ := by
  rw [← (view.accessCoin_spec outpoint).2, unspent?_of_unspent h]

def SpendInRange (coins : UtxoSet) (vin : List CTxIn) : Prop :=
  ∀ txin ∈ vin, ∃ coin, coins.lookup txin.prevout = some coin ∧
    moneyRange coin.val.out.nValue = true

theorem valueInLoop_ok {nSpendHeight : Int} {nValueIn : CAmount}
    (h : valueInLoop nSpendHeight view nValueIn vin = .ok (view', v)) :
    view.SameCoins view' ∧ v = nValueIn + spentValue view.coins vin ∧
    SpendInRange view.coins vin := by
  induction vin generalizing view nValueIn with
  | nil =>
    cases h
    exact ⟨.refl _, by simp [spentValue], forall_mem_nil _⟩
  | cons txin vin ih =>
    have hsame := (view.accessCoin_spec txin.prevout).1
    simp only [valueInLoop, ite_error_ok] at h
    obtain ⟨hspent, -, hrange, h⟩ := h
    have hlookup := lookup_accessCoin (Bool.eq_false_iff.mpr hspent)
    obtain ⟨hsame', hv, hcoins⟩ := ih h
    rw [hsame.coins] at hv hcoins
    refine ⟨hsame.trans hsame', ?_, List.forall_mem_cons.mpr ⟨⟨_, hlookup, ?_⟩, hcoins⟩⟩
    · rw [hv, spentValue, spentValue, map_cons, sum_cons, hlookup, Int.add_assoc]
      rfl
    · simp only [Bool.or_eq_true, not_or, Bool.not_eq_true', Bool.not_eq_false] at hrange
      exact hrange.1

theorem accessCoins_some {coins : List Coin}
    (h : accessCoins view vin = some (view', coins)) : view.SameCoins view' := by
  induction vin generalizing view coins with
  | nil =>
    cases h
    exact .refl _
  | cons txin vin ih =>
    simp only [accessCoins] at h
    split at h
    · cases h
    · simp only [bind_eq_bind, bind_eq_some_iff] at h
      obtain ⟨⟨view'', coins'⟩, hrest, h⟩ := h
      cases h
      exact (view.accessCoin_spec txin.prevout).1.trans (ih hrest)

theorem haveInputs_sameCoins (view : CCoinsViewCache) (tx : CTransaction) :
    view.SameCoins (view.haveInputs tx).1 := by
  unfold CCoinsViewCache.haveInputs
  split
  · exact .refl view
  · exact (view.haveInputsLoop_spec tx.vin).1

end TxVerifyLemmas

open TxVerifyLemmas

variable {tx : CTransaction} {view view' : CCoinsViewCache}

/-- A transaction that passes `CheckTransaction` has no negative output and spends
no outpoint twice. -/
theorem checkTransaction_ok (h : checkTransaction tx = .ok ()) :
    (∀ txout ∈ tx.vout, 0 ≤ txout.nValue) ∧ (tx.vin.map CTxIn.prevout).Nodup := by
  simp only [checkTransaction, ite_error_ok] at h
  obtain ⟨-, -, -, h⟩ := h
  split at h
  · cases h
  · next hout => exact ⟨checkOutputs_ok hout, by simpa using (ite_error_ok.mp h).1⟩

theorem getValueOut_eq {v : CAmount} (h : tx.getValueOut = some v) : v = outputValue tx.vout := by
  simp only [getValueOut, bind_eq_bind, bind_eq_some_iff] at h
  obtain ⟨v', hv', h⟩ := h
  split at h
  · cases h
    rw [valueOutFrom_eq hv', Int.zero_add]
  · cases h

theorem getValueOut_of_nonneg (h : ∀ txout ∈ tx.vout, 0 ≤ txout.nValue) :
    tx.getValueOut = if outputValue tx.vout ≤ maxMoney then some (outputValue tx.vout)
    else none := by
  have hnonneg : 0 ≤ outputValue tx.vout := sum_nonneg (by simpa using h)
  rw [getValueOut, valueOutFrom_of_nonneg (le_refl 0) (by decide) h, Int.zero_add]
  split
  · next hmax => simp [moneyRange, hnonneg, hmax]
  · rfl

/-- `CheckTxInputs` only reads the view, and the fee is what the inputs have over
the outputs. -/
theorem checkTxInputs_ok {nSpendHeight : Int} {txfee : CAmount}
    (h : checkTxInputs tx view nSpendHeight = .ok (view', txfee)) :
    view.SameCoins view' ∧ txfee = spentValue view.coins tx.vin - outputValue tx.vout ∧
    SpendInRange view.coins tx.vin := by
  have hsame := haveInputs_sameCoins view tx
  unfold checkTxInputs at h
  split at h
  · cases h
  · next view₁ hhave =>
    rw [hhave] at hsame
    split at h
    · cases h
    · next view₂ nValueIn hloop =>
      obtain ⟨hsame', hin, hcoins⟩ := valueInLoop_ok hloop
      rw [hsame.coins] at hin hcoins
      split at h
      · cases h
      · next valueOut hout =>
        simp only [ite_error_ok] at h
        obtain ⟨-, -, ⟨⟩⟩ := h
        exact ⟨hsame.trans hsame', by rw [hin, getValueOut_eq hout, Int.zero_add], hcoins⟩

theorem getTransactionSigOpCost_some {flags : ScriptFlags} {cost : Nat}
    (h : getTransactionSigOpCost tx view flags = some (view', cost)) : view.SameCoins view' := by
  unfold getTransactionSigOpCost at h
  split at h
  · cases h
    exact .refl view
  · simp only [bind_eq_bind, bind_eq_some_iff] at h
    obtain ⟨⟨view₁, coins⟩, hcoins, _, _, h⟩ := h
    cases h
    exact accessCoins_some hcoins

end Bitcoboost
