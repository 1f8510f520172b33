import Bitcoboost.Arith.BaseUint
import Bitcoboost.Pow.Pow

/-!
# Work

`GetBlockProof` is the number of hashes that a block takes on average, `2 ^ 256 / (T + 1)`
rounded down for a target `T`, though the dividend has one bit more than `arith_uint256`. The
computation is that of the limbs: `blockProofLimbs`.
-/

namespace Bitcoboost

open ArithUint256 BaseUint BitVec

/-- What `GetBlockProof` returns for a valid target, in limbs. -/
def blockProofLimbs (bnTarget : BaseUint 8) : Option (BaseUint 8) :=
  (bnTarget.complement.divAssign (bnTarget.addAssign (.ofUint64 1#64))).map fun quotient =>
    quotient.addAssign (.ofUint64 1#64)

/-- The work of a block as a number. -/
def exactProof (nBits : BitVec 32) : Nat :=
  let bn := setCompact nBits
  if bn.fNegative ∨ bn.fOverflow ∨ bn.target = 0 then 0 else 2 ^ 256 / (bn.target.toNat + 1)

/-- The work of a chain as a number. -/
def exactWork : CBlockIndex → Nat
  | .genesis header => exactProof header.nBits
  | .next pprev header => exactWork pprev + exactProof header.nBits

namespace ChainWorkLemmas

/-- A target is not all ones: it has zeros behind its mantissa. -/
theorem target_succ_lt (nBits : BitVec 32) : (setCompact nBits).target.toNat + 1 < 2 ^ 256 := by
  obtain ⟨m, k, hm, htarget⟩ := target_setCompact nBits
  rw [htarget]
  cases k with
  | zero =>
    omega
  | succ k =>
    have heven : 2 ∣ m * 2 ^ (8 * (k + 1)) % 2 ^ 256 := by
      refine (Nat.dvd_mod_iff (by decide)).mpr (Dvd.dvd.mul_left ?_ m)
      exact Dvd.dvd.trans (by decide) (Nat.pow_dvd_pow 2 (show 1 ≤ 8 * (k + 1) by omega))
    omega

/-- The division that avoids the dividend of 257 bits. -/
theorem proof_eq {T : Nat} (hT : T + 1 < 2 ^ 256) :
    (2 ^ 256 - 1 - T) / (T + 1) + 1 = 2 ^ 256 / (T + 1) := by
  have hsplit : 2 ^ 256 = 2 ^ 256 - 1 - T + (T + 1) := by omega
  conv_rhs => rw [hsplit, Nat.add_div_right _ (Nat.succ_pos T)]

theorem proof_lt {T : Nat} (hT : T ≠ 0) : 2 ^ 256 / (T + 1) < 2 ^ 256 :=
  Nat.div_lt_self (by decide) (by omega)

theorem getBlockProof_toNat (nBits : BitVec 32) :
    (getBlockProof nBits).toNat = exactProof nBits := by
  unfold getBlockProof exactProof
  dsimp only
  split
  · rfl
  · next hvalid =>
    have hne : (setCompact nBits).target.toNat ≠ 0 :=
      fun hz => hvalid (.inr (.inr (eq_of_toNat_eq hz)))
    have hlt := target_succ_lt nBits
    have hproof := proof_lt hne
    have hsucc : ((setCompact nBits).target + 1).toNat = (setCompact nBits).target.toNat + 1 := by
      exact Nat.mod_eq_of_lt hlt
    rw [← proof_eq hlt] at hproof ⊢
    rw [toNat_add, toNat_udiv, hsucc, toNat_not]
    exact Nat.mod_eq_of_lt hproof

theorem blockProofLimbs_value {bnTarget : BaseUint 8} (hlt : bnTarget.value + 1 < 2 ^ 256)
    (hne : bnTarget.value ≠ 0) :
    ∃ r, blockProofLimbs bnTarget = some r ∧ r.value = 2 ^ 256 / (bnTarget.value + 1) := by
  have hone : (ofUint64 1#64 : BaseUint 8).value = 1 := ofUint64_value 1#64
  have hsucc : (bnTarget.addAssign (.ofUint64 1#64)).value = bnTarget.value + 1 := by
    rw [addAssign_value, hone]
    exact Nat.mod_eq_of_lt hlt
  have hproof := proof_lt hne
  obtain ⟨quotient, hdiv, hquotient⟩ := divAssign_value (a := bnTarget.complement)
    (b := bnTarget.addAssign (.ofUint64 1#64)) (by omega)
  refine ⟨quotient.addAssign (.ofUint64 1#64), by rw [blockProofLimbs, hdiv]; rfl, ?_⟩
  rw [addAssign_value, hquotient, hsucc, complement_value, hone]
  rw [← proof_eq hlt] at hproof ⊢
  exact Nat.mod_eq_of_lt hproof

theorem nChainWork_toNat (pindex : CBlockIndex) :
    pindex.nChainWork.toNat = exactWork pindex % 2 ^ 256 := by
  induction pindex with
  | genesis header =>
    rw [CBlockIndex.nChainWork, exactWork, ← getBlockProof_toNat, Nat.mod_eq_of_lt (BitVec.isLt _)]
  | next pprev header ih =>
    rw [CBlockIndex.nChainWork, exactWork, toNat_add, ih, getBlockProof_toNat, Nat.mod_add_mod]

end ChainWorkLemmas

open ChainWorkLemmas

/-- Division, multiplication and the work of blocks and chains are exact. -/
theorem arith_uint256_exact :
    (∀ a b : BaseUint 8, b.value ≠ 0 →
      (b.bits ≤ a.bits → (b.shiftLeft (a.bits - b.bits)).value = b.value * 2 ^ (a.bits - b.bits))
        ∧ ∃ quotient, a.divAssign b = some quotient ∧ quotient.value = a.value / b.value)
      ∧ (∀ a b : BaseUint 8, (a.mulAssign b).value = a.value * b.value % 2 ^ 256)
      ∧ (∀ nBits : BitVec 32, (setCompact nBits).fNegative = false →
        (setCompact nBits).fOverflow = false →
        (setCompact nBits).target ≠ 0 → (getBlockProof nBits).toNat =
          2 ^ 256 / ((setCompact nBits).target.toNat + 1)
          ∧ ∃ r, blockProofLimbs (.ofArith (setCompact nBits).target) = some r ∧
            r.value = (getBlockProof nBits).toNat)
      ∧ ∀ a b : CBlockIndex, exactWork a < 2 ^ 256 → exactWork b < 2 ^ 256 →
        (a.nChainWork < b.nChainWork ↔ exactWork a < exactWork b) := by
  refine ⟨fun a b hb => ⟨shiftLeft_value_of_bits, divAssign_value hb⟩, mulAssign_value,
    fun nBits hnegative hoverflow hne => ?_, fun a b ha hb => ?_⟩
  · have hproof :
        (getBlockProof nBits).toNat = 2 ^ 256 / ((setCompact nBits).target.toNat + 1) := by
      have hvalid :
          ¬((setCompact nBits).fNegative = true ∨ (setCompact nBits).fOverflow = true ∨
          (setCompact nBits).target = 0) := by
        rw [hnegative, hoverflow]
        rintro (h | h | h)
        · cases h
        · cases h
        · exact hne h
      rw [getBlockProof_toNat, exactProof, if_neg hvalid]
    have hvalue := ofArith_value (setCompact nBits).target
    have hne' : (ofArith (setCompact nBits).target).value ≠ 0 :=
      fun hz => hne (eq_of_toNat_eq (hvalue ▸ hz))
    obtain ⟨r, hr, hrvalue⟩ := blockProofLimbs_value (hvalue ▸ target_succ_lt nBits) hne'
    exact ⟨hproof, r, hr, by rw [hrvalue, hvalue, hproof]⟩
  · rw [lt_def, nChainWork_toNat, nChainWork_toNat, Nat.mod_eq_of_lt ha, Nat.mod_eq_of_lt hb]

theorem arith_uint256_exact_small :
    (∃ quotient, (BaseUint.ofUint64 100#64 : BaseUint 8).divAssign (.ofUint64 7#64) =
      some quotient ∧ quotient.value = 14)
      ∧ (getBlockProof 0x1d00ffff#32).toNat = 4295032833
      ∧ (CBlockIndex.genesis { nBits := 0x1d00ffff#32 }).nChainWork <
        (CBlockIndex.genesis { nBits := 0x1c00ffff#32 }).nChainWork := by
  obtain ⟨hdiv, _, hproof, hwork⟩ := arith_uint256_exact
  refine ⟨?_, ?_, ?_⟩
  · have h := (hdiv (.ofUint64 100#64) (.ofUint64 7#64) (by decide +kernel)).2
    exact h
  · have h := (hproof 0x1d00ffff#32 (by decide) (by decide) (by decide)).1
    decide +kernel
  · exact (hwork (.genesis { nBits := 0x1d00ffff#32 }) (.genesis { nBits := 0x1c00ffff#32 })
      (by decide +kernel) (by decide +kernel)).mpr (by decide +kernel)

end Bitcoboost
