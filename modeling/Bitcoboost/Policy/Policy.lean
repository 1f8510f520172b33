import Bitcoboost.Consensus.TxVerify

/-!
# Relay policy

The fee rates of `policy/feerate.cpp` and, of `policy/policy.cpp`, the virtual size of a
transaction and the dust threshold of an output. `GetFee` rounds a quotient of doubles up, which
is the exact quotient rounded up while the product of rate and size is below `2 ^ 53`: no size has
more than 32 bits, and the rates used here have 12.
-/

namespace Bitcoboost

/-- `CFeeRate`: satoshis for a thousand virtual bytes. -/
structure CFeeRate where
  nSatoshisPerK : CAmount
deriving DecidableEq, Repr

def CFeeRate.getFee (rate : CFeeRate) (numBytes : BitVec 32) : CAmount :=
  let nSize : Int := numBytes.toNat
  let nFee := -(-(rate.nSatoshisPerK * nSize) / 1000)
  if nFee = 0 ∧ nSize ≠ 0 then
    if rate.nSatoshisPerK > 0 then 1 else if rate.nSatoshisPerK < 0 then -1 else nFee
  else nFee

def defaultMinRelayTxFee : CFeeRate := ⟨1000⟩

def dustRelayTxFee : CFeeRate := ⟨3000⟩

def defaultBytesPerSigop : Nat := 20

/-- `GetTransactionWeight`, an `int32_t`. -/
def getTransactionWeight (tx : CTransaction) : Int :=
  (BitVec.ofNat 32 ((tx.serialize false).length * (witnessScaleFactor - 1) +
    (tx.serialize true).length)).toInt

/-- `GetVirtualTransactionSize` of a weight. -/
def getVirtualTransactionSize (nWeight nSigOpCost : Int) (bytesPerSigop : Nat) : Int :=
  (max nWeight (nSigOpCost * bytesPerSigop) + witnessScaleFactor - 1) / witnessScaleFactor

/-- The relay fee that a node asks for a transaction of a size, which reaches `GetFee`
as a `uint32_t`. -/
def minRelayFee (vsize : Int) : CAmount := defaultMinRelayTxFee.getFee (BitVec.ofInt 32 vsize)

def getDustThreshold (txout : CTxOut) (dustRelayFeeIn : CFeeRate) : CAmount :=
  if CScript.isUnspendable txout.scriptPubKey then 0
  else
    let nSize := txout.serialize.length
    dustRelayFeeIn.getFee (BitVec.ofNat 32 (
      if (CScript.isWitnessProgram txout.scriptPubKey).isSome then
        nSize + (32 + 4 + 1 + 107 / witnessScaleFactor + 4)
      else nSize + (32 + 4 + 1 + 107 + 4)))

def isDust (txout : CTxOut) (dustRelayFeeIn : CFeeRate) : Bool :=
  txout.nValue < getDustThreshold txout dustRelayFeeIn

/-! ## Bounds -/

/-- At the default rate a virtual byte costs one satoshi. -/
theorem getFee_defaultMinRelayTxFee (numBytes : BitVec 32) :
    defaultMinRelayTxFee.getFee numBytes = numBytes.toNat := by
  have hceil : -(-(1000 * (numBytes.toNat : Int)) / 1000) = numBytes.toNat := by
    rw [← mul_neg, Int.mul_ediv_cancel_left _ (by decide), neg_neg]
  simp only [CFeeRate.getFee, defaultMinRelayTxFee, hceil]
  exact if_neg fun h => h.2 h.1

theorem minRelayFee_eq_emod (vsize : Int) : minRelayFee vsize = vsize % 2 ^ 32 := by
  rw [minRelayFee, getFee_defaultMinRelayTxFee, BitVec.toNat_ofInt]
  exact Int.toNat_of_nonneg (Int.emod_nonneg _ (by decide))

theorem minRelayFee_le {vsize : Int} (h : 0 ≤ vsize) : minRelayFee vsize ≤ vsize := by
  rw [minRelayFee_eq_emod]
  obtain ⟨n, rfl⟩ := Int.eq_ofNat_of_zero_le h
  exact_mod_cast Nat.mod_le n (2 ^ 32)

theorem minRelayFee_eq {vsize : Int} (h : 0 ≤ vsize) (hlt : vsize < 2 ^ 32) :
    minRelayFee vsize = vsize := by
  rw [minRelayFee_eq_emod]
  exact Int.emod_eq_of_lt h hlt

/-- Where the sizes are small the weight is the number that they give. -/
theorem getTransactionWeight_eq {tx : CTransaction}
    (h : (tx.serialize false).length * 3 + (tx.serialize true).length < 2 ^ 31) :
    getTransactionWeight tx = ((tx.serialize false).length * 3 +
      (tx.serialize true).length : Nat) := by
  have hlt : (tx.serialize false).length * 3 + (tx.serialize true).length < 2 ^ 32 :=
    lt_trans h (by decide)
  have hnat :
      (BitVec.ofNat 32 ((tx.serialize false).length * 3 + (tx.serialize true).length)).toNat =
      (tx.serialize false).length * 3 + (tx.serialize true).length := by
    rw [BitVec.toNat_ofNat, Nat.mod_eq_of_lt hlt]
  have hint := BitVec.toInt_eq_toNat_of_lt (x := BitVec.ofNat 32 ((tx.serialize false).length * 3 +
    (tx.serialize true).length)) (by rw [hnat]; omega)
  rw [hnat] at hint
  exact hint

/-- Elsewhere it is less. -/
theorem getTransactionWeight_le (tx : CTransaction) :
    getTransactionWeight tx ≤ ((tx.serialize false).length * 3 +
      (tx.serialize true).length : Nat) := by
  rcases Nat.lt_or_ge ((tx.serialize false).length * 3 + (tx.serialize true).length)
    (2 ^ 31) with h | h
  · exact (getTransactionWeight_eq h).le
  · have hlt : getTransactionWeight tx < 2 ^ 31 := BitVec.toInt_lt
    omega

/-- A virtual size covers the weight, and is covered by what covers the weight and the
signature operations. -/
theorem getVirtualTransactionSize_le {nWeight nSigOpCost : Int} {bytesPerSigop : Nat} {v : Int}
    (hweight : nWeight ≤ 4 * v) (hsigops : nSigOpCost * bytesPerSigop ≤ 4 * v) :
    getVirtualTransactionSize nWeight nSigOpCost bytesPerSigop ≤ v := by
  unfold getVirtualTransactionSize witnessScaleFactor
  omega

end Bitcoboost
