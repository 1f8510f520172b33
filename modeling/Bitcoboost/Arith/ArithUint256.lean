import Bitcoboost.Lib.RoundDown
import Bitcoboost.Util.Bytes
import Mathlib.Data.Nat.Bitwise

/-!
# `arith_uint256` and the compact target format

`arith_uint256` holds a 256-bit number in eight limbs. The model is the number itself, so `*=`
and `/=` are those of `BitVec 256`.

The compact format keeps the leading bytes of a number: one of `l` bits loses
`8 * (l / 8 - 2)` of them (`compactSchedule`), and decoding what `getCompact` encodes is
rounding down along that schedule.
-/

namespace Bitcoboost

open BitVec

abbrev ArithUint256 := BitVec 256

/-- `UintToArith256` reads the 32 bytes as a little-endian number. -/
def uintToArith256 (a : Uint256) : ArithUint256 := BitVec.ofNat 256 (Bytes.leValue a.data)

namespace ArithUint256

variable (a : ArithUint256)

/-- `bits()`: the position of the highest bit set plus one, or zero. -/
def bits : Nat := RoundDown.bitLen a.toNat

def getLow64 : BitVec 64 := a.setWidth 64

/-- `operator*=(uint32_t)`: the carry out of the highest limb is dropped. -/
def mulAssign (b32 : BitVec 32) : ArithUint256 := a * b32.setWidth 256

/-- `operator/=`: throws `uint_error("Division by zero")` on a zero divisor. -/
def divAssign (b : ArithUint256) : Option ArithUint256 :=
  if b = 0 then none else some (a / b)

/-- What `SetCompact` stores in `*this`, `*pfNegative` and `*pfOverflow`. -/
structure SetCompact where
  target : ArithUint256
  fNegative : Bool
  fOverflow : Bool
deriving DecidableEq, Repr

def setCompact (nCompact : BitVec 32) : SetCompact :=
  let nSize := (nCompact >>> 24).toNat
  let nMantissa := nCompact &&& 0x007fffff#32
  -- the source shifts `nWord` itself, so the flags below see the shifted word
  let nWord := if nSize ≤ 3 then nMantissa >>> (8 * (3 - nSize)) else nMantissa
  { target :=
      if nSize ≤ 3 then nWord.setWidth 256 else nWord.setWidth 256 <<< (8 * (nSize - 3))
    fNegative := nWord ≠ 0#32 ∧ nCompact &&& 0x00800000#32 ≠ 0#32
    fOverflow := nWord ≠ 0#32 ∧
      (nSize > 34 ∨ (nWord > 0xff#32 ∧ nSize > 33) ∨ (nWord > 0xffff#32 ∧ nSize > 32)) }

/-- The mantissa and the size that `GetCompact` has before it looks at the sign bit. -/
def compactWord : BitVec 32 × Nat :=
  let nSize := (a.bits + 7) / 8
  if nSize ≤ 3 then ((a.getLow64 <<< (8 * (3 - nSize))).setWidth 32, nSize)
  else ((getLow64 (a >>> (8 * (nSize - 3)))).setWidth 32, nSize)

/-- `GetCompact`. The two assertions of the source hold for every number
(`getCompact_toNat`, `compactSize_lt`). -/
def getCompact (fNegative : Bool) : BitVec 32 :=
  let (nCompact, nSize) := a.compactWord
  let (nCompact, nSize) :=
    if nCompact &&& 0x00800000#32 ≠ 0#32 then (nCompact >>> 8, nSize + 1) else (nCompact, nSize)
  let nCompact := nCompact ||| (BitVec.ofNat 32 nSize <<< 24)
  nCompact ||| (if fNegative ∧ nCompact &&& 0x007fffff#32 ≠ 0#32 then 0x00800000#32 else 0#32)

end ArithUint256

/-- The bits that the compact form of a number of `l` bits drops. -/
def compactSchedule : RoundDown.Schedule where
  drop l := 8 * (l / 8 - 2)
  mono h := by omega
  keep h := by omega

/-! ## The compact form in integers -/

namespace ArithLemmas
open RoundDown ArithUint256

/-- Bit 23 of a 24-bit word tells whether the word is at least `2 ^ 23`. -/
theorem signBit_iff {n : BitVec 32} (h : n.toNat < 2 ^ 24) :
    n &&& 0x00800000#32 ≠ 0#32 ↔ 2 ^ 23 ≤ n.toNat := by
  have hand : (n &&& 0x00800000#32).toNat = (n.toNat.testBit 23).toNat * 2 ^ 23 :=
    Nat.and_two_pow n.toNat 23
  rw [Nat.testBit_eq_decide_div_mod_eq] at hand
  rcases Nat.lt_or_ge n.toNat (2 ^ 23) with hlt | hge
  · have hz : n.toNat / 2 ^ 23 = 0 := Nat.div_eq_of_lt hlt
    have heq : n &&& 0x00800000#32 = 0#32 := eq_of_toNat_eq (by rw [hand, hz]; rfl)
    exact ⟨fun hne => absurd heq hne, fun hge => absurd hge (Nat.not_le.mpr hlt)⟩
  · have hq : n.toNat / 2 ^ 23 = 1 := by omega
    refine ⟨fun _ => hge, fun _ heq => ?_⟩
    rw [heq, hq] at hand
    exact absurd hand (by decide)

theorem orSize_toNat {n : BitVec 32} {s : Nat} (hn : n.toNat < 2 ^ 24) (hs : s < 256) :
    (n ||| (BitVec.ofNat 32 s <<< 24)).toNat = s * 2 ^ 24 + n.toNat := by
  rw [toNat_or, toNat_shiftLeft, toNat_ofNat, Nat.mod_eq_of_lt (by omega),
    Nat.shiftLeft_eq, Nat.mod_eq_of_lt (by omega), Nat.or_comm, Nat.mul_comm]
  exact (Nat.two_pow_add_eq_or_of_lt hn s).symm

/-- The mantissa of `x` for an exponent of `e` bytes: `x * 256 ^ (3 - e)`, rounded down. -/
def mantissa (x e : Nat) : Nat := x * 2 ^ 24 / 2 ^ (8 * e)

theorem mantissa_succ (x e : Nat) : mantissa x e / 2 ^ 8 = mantissa x (e + 1) := by
  unfold mantissa
  rw [Nat.div_div_eq_div_mul, ← Nat.pow_add]
  congr 2

theorem mantissa_of_le {x e : Nat} (h : e ≤ 3) : mantissa x e = x * 2 ^ (8 * (3 - e)) := by
  have hsplit : 2 ^ 24 = 2 ^ (8 * (3 - e)) * 2 ^ (8 * e) := by
    rw [← Nat.pow_add]
    congr 1
    omega
  unfold mantissa
  rw [hsplit, ← Nat.mul_assoc, Nat.mul_div_cancel _ (Nat.two_pow_pos _)]

theorem mantissa_of_ge {x e : Nat} (h : 3 ≤ e) : mantissa x e = x / 2 ^ (8 * (e - 3)) := by
  have hsplit : 2 ^ (8 * e) = 2 ^ (8 * (e - 3)) * 2 ^ 24 := by
    rw [← Nat.pow_add]
    congr 1
    omega
  unfold mantissa
  rw [hsplit, Nat.mul_div_mul_right _ _ (Nat.two_pow_pos _)]

theorem mantissa_lt {x e : Nat} (h : bitLen x ≤ 8 * e) : mantissa x e < 2 ^ 24 := by
  refine Nat.div_lt_of_lt_mul ?_
  exact Nat.mul_lt_mul_of_pos_right (bitLen_le_iff.mp h) (by decide)

theorem le_mantissa_iff {x e : Nat} : 2 ^ 23 ≤ mantissa x (e + 1) ↔ 8 * (e + 1) ≤ bitLen x := by
  have hpow : 2 ^ (8 * (e + 1)) = 2 ^ (8 * e + 7) * 2 := by rw [← Nat.pow_succ]; rfl
  have hbit : bitLen x ≤ 8 * e + 7 ↔ x < 2 ^ (8 * e + 7) := bitLen_le_iff
  rw [mantissa, Nat.le_div_iff_mul_le (Nat.two_pow_pos _), hpow]
  constructor <;> intro h <;> omega

/-- The size byte that `GetCompact` writes for a nonzero number. -/
def compactSize (a : ArithUint256) : Nat := a.bits / 8 + 1

variable (a : ArithUint256)

theorem bits_le : a.bits ≤ 256 := bitLen_le_iff.mpr a.isLt

theorem compactSize_lt : compactSize a < 256 := by
  have := bits_le a
  unfold compactSize
  omega

theorem compactWord_toNat : a.compactWord.1.toNat = mantissa a.toNat ((a.bits + 7) / 8) := by
  have hlt : mantissa a.toNat ((a.bits + 7) / 8) < 2 ^ 24 :=
    mantissa_lt (show a.bits ≤ _ by omega)
  unfold compactWord
  dsimp only
  split
  · next h =>
    rw [mantissa_of_le h] at hlt ⊢
    have hself : a.toNat * 1 ≤ a.toNat * 2 ^ (8 * (3 - (a.bits + 7) / 8)) :=
      Nat.mul_le_mul_left _ (Nat.two_pow_pos _)
    rw [toNat_setWidth, toNat_shiftLeft, getLow64, toNat_setWidth,
      Nat.shiftLeft_eq, Nat.mod_eq_of_lt (a := a.toNat) (by omega),
      Nat.mod_mod_of_dvd _ (by decide), Nat.mod_eq_of_lt (by omega)]
  · next h =>
    rw [mantissa_of_ge (by omega)] at hlt ⊢
    rw [toNat_setWidth, getLow64, toNat_setWidth, toNat_ushiftRight,
      Nat.shiftRight_eq_div_pow, Nat.mod_mod_of_dvd _ (by decide), Nat.mod_eq_of_lt (by omega)]

theorem compactWord_size : a.compactWord.2 = (a.bits + 7) / 8 := by
  unfold compactWord
  dsimp only
  split <;> rfl

/-- The first assertion of `GetCompact`: after the sign bit is moved out of the
way the mantissa has 23 bits. -/
theorem getCompact_toNat {a : ArithUint256} (h : a ≠ 0) :
    (a.getCompact false).toNat = compactSize a * 2 ^ 24 + mantissa a.toNat (compactSize a) ∧
    mantissa a.toNat (compactSize a) < 2 ^ 23 := by
  have ha : a.toNat ≠ 0 := fun hz => h (eq_of_toNat_eq hz)
  have hpos : 0 < a.bits := bitLen_pos ha
  have hword := compactWord_toNat a
  have hword_lt : a.compactWord.1.toNat < 2 ^ 24 := by
    rw [hword]
    exact mantissa_lt (show a.bits ≤ _ by omega)
  have hsz := compactSize_lt a
  obtain ⟨k, hk⟩ : ∃ k, (a.bits + 7) / 8 = k + 1 := ⟨(a.bits + 7) / 8 - 1, by omega⟩
  have hsign := signBit_iff hword_lt
  rw [hword, hk, le_mantissa_iff] at hsign
  simp only [getCompact, compactWord_size, hk, Bool.false_eq_true, false_and, if_false, or_zero]
  by_cases hbits : 8 * (k + 1) ≤ a.bits
  · -- the number fills its highest byte: the mantissa gives up its low byte
    have hsize : compactSize a = k + 1 + 1 := by unfold compactSize; omega
    have hshift : (a.compactWord.1 >>> 8).toNat = mantissa a.toNat (compactSize a) := by
      rw [toNat_ushiftRight, Nat.shiftRight_eq_div_pow, hword, hk, mantissa_succ, hsize]
    have hlt : mantissa a.toNat (compactSize a) < 2 ^ 23 := by
      rw [hsize, ← mantissa_succ, ← hk, ← hword]
      omega
    rw [if_pos (hsign.mpr hbits)]
    dsimp only
    rw [← hsize, orSize_toNat (by omega) hsz, hshift]
    exact ⟨rfl, hlt⟩
  · have hsize : compactSize a = k + 1 := by unfold compactSize; omega
    have hlt : mantissa a.toNat (compactSize a) < 2 ^ 23 := by
      rw [hsize]
      exact Nat.lt_of_not_le fun hle => hbits (le_mantissa_iff.mp hle)
    rw [if_neg (fun hne => hbits (hsign.mp hne))]
    rw [← hsize, orSize_toNat hword_lt hsz, hword, hk, hsize]
    exact ⟨rfl, hsize ▸ hlt⟩

theorem mask_toNat (c : BitVec 32) : (c &&& 0x007fffff#32).toNat = c.toNat % 2 ^ 23 := by
  exact Nat.and_two_pow_sub_one_eq_mod c.toNat 23

theorem setCompact_of_fields {c : BitVec 32} {e m : Nat} (hc : c.toNat = e * 2 ^ 24 + m)
    (hm : m < 2 ^ 23) :
    (c >>> 24).toNat = e ∧ (c &&& 0x007fffff#32).toNat = m ∧ c &&& 0x00800000#32 = 0#32 := by
  refine ⟨?_, ?_, ?_⟩
  · rw [toNat_ushiftRight, Nat.shiftRight_eq_div_pow, hc]
    omega
  · rw [mask_toNat, hc]
    omega
  · have hand : (c &&& 0x00800000#32).toNat = (c.toNat.testBit 23).toNat * 2 ^ 23 :=
      Nat.and_two_pow c.toNat 23
    rw [Nat.testBit_eq_decide_div_mod_eq, hc] at hand
    have hz : ¬ (e * 2 ^ 24 + m) / 2 ^ 23 % 2 = 1 := by omega
    rw [decide_eq_false hz] at hand
    exact eq_of_toNat_eq hand

theorem round_lt : compactSchedule.round a.toNat < 2 ^ 256 :=
  (round_le _ _).trans_lt a.isLt

theorem round_eq_mantissa (h : 3 ≤ compactSize a) :
    compactSchedule.round a.toNat = mantissa a.toNat (compactSize a) *
      2 ^ (8 * (compactSize a - 3)) := by
  have hdrop : compactSchedule.drop (bitLen a.toNat) = 8 * (compactSize a - 3) := by
    unfold compactSize bits at *
    simp only [compactSchedule]
    omega
  rw [Schedule.round, hdrop, mantissa_of_ge h]

theorem round_of_short {a : ArithUint256} (h : compactSize a ≤ 3) :
    compactSchedule.round a.toNat = a.toNat := by
  have hdrop : compactSchedule.drop (bitLen a.toNat) = 0 := by
    unfold compactSize bits at *
    simp only [compactSchedule]
    omega
  simp [Schedule.round, hdrop]

theorem mantissa_lt_of_large {a : ArithUint256} (h : compactSize a > 32) :
    mantissa a.toNat (compactSize a) < 2 ^ 16 := by
  rw [mantissa_of_ge (by omega)]
  refine Nat.div_lt_of_lt_mul (a.isLt.trans_le ?_)
  rw [← Nat.pow_add]
  exact Nat.pow_le_pow_right (by decide) (by omega)

end ArithLemmas

open RoundDown ArithUint256 ArithLemmas

/-! ## The compact form rounds down -/

variable (a : ArithUint256)

/-- Decoding a compact form gives the number rounded down, never negative and
never overflowing. -/
theorem setCompact_getCompact : setCompact (a.getCompact false) =
      ⟨BitVec.ofNat 256 (compactSchedule.round a.toNat), false, false⟩ := by
  by_cases h : a = 0
  · subst h
    decide
  obtain ⟨hc, hm⟩ := getCompact_toNat h
  obtain ⟨hsize, hmask, hsign⟩ := setCompact_of_fields hc hm
  have hbits := bits_le a
  by_cases he : compactSize a ≤ 3
  · have hword :
        ((a.getCompact false &&& 0x007fffff#32) >>> (8 * (3 - compactSize a))).toNat = a.toNat := by
      rw [toNat_ushiftRight, Nat.shiftRight_eq_div_pow, hmask, mantissa_of_le he,
        Nat.mul_div_cancel _ (Nat.two_pow_pos _)]
    simp only [setCompact, hsize, if_pos he, hsign, SetCompact.mk.injEq]
    refine ⟨?_, by simp, ?_⟩
    · apply eq_of_toNat_eq
      rw [toNat_setWidth, hword, round_of_short he, toNat_ofNat]
    · have h32 : ¬ compactSize a > 32 := by omega
      have h33 : ¬ compactSize a > 33 := by omega
      have h34 : ¬ compactSize a > 34 := by omega
      simp [h32, h33, h34]
  · simp only [setCompact, hsize, if_neg he, hsign, SetCompact.mk.injEq]
    refine ⟨?_, by simp, ?_⟩
    · apply eq_of_toNat_eq
      rw [toNat_shiftLeft, toNat_setWidth, hmask, Nat.shiftLeft_eq,
        Nat.mod_eq_of_lt (a := mantissa _ _) (by omega), ← round_eq_mantissa a (by omega),
        toNat_ofNat]
    · have h33 : ¬ compactSize a > 33 := by unfold compactSize; omega
      have h34 : ¬ compactSize a > 34 := by unfold compactSize; omega
      have hlast : ¬ (a.getCompact false &&& 0x007fffff#32 > 0xffff#32 ∧ compactSize a > 32) := by
        rintro ⟨hgt, h32⟩
        have hmant := mantissa_lt_of_large h32
        have hgt' : (0xffff#32).toNat < (a.getCompact false &&& 0x007fffff#32).toNat := hgt
        have : (0xffff#32).toNat = 65535 := rfl
        omega
      simp [h33, h34, hlast]

theorem target_getCompact :
    (setCompact (a.getCompact false)).target.toNat = compactSchedule.round a.toNat := by
  rw [setCompact_getCompact, toNat_ofNat, Nat.mod_eq_of_lt (round_lt a)]

theorem target_setCompact (nCompact : BitVec 32) :
    ∃ m k, m < 2 ^ 23 ∧ (setCompact nCompact).target.toNat = m * 2 ^ (8 * k) % 2 ^ 256 := by
  have hmask := mask_toNat nCompact
  have hlt : nCompact.toNat % 2 ^ 23 < 2 ^ 23 := Nat.mod_lt _ (by decide)
  unfold setCompact
  dsimp only
  split
  · refine ⟨_, 0, ?_, (Nat.mod_eq_of_lt ?_).symm.trans
      (by rw [Nat.mul_zero, Nat.pow_zero, Nat.mul_one])⟩
    · rw [toNat_setWidth, toNat_ushiftRight, Nat.shiftRight_eq_div_pow, hmask]
      exact (Nat.mod_le _ _).trans_lt ((Nat.div_le_self _ _).trans_lt hlt)
    · exact BitVec.isLt _
  · refine ⟨_, (nCompact >>> 24).toNat - 3, hlt, ?_⟩
    rw [toNat_shiftLeft, toNat_setWidth, hmask, Nat.shiftLeft_eq,
      Nat.mod_eq_of_lt (a := nCompact.toNat % 2 ^ 23) (by omega)]

/-- A decoded target is its own rounding: the format holds it exactly. -/
theorem round_target (nCompact : BitVec 32) :
    compactSchedule.round (setCompact nCompact).target.toNat =
      (setCompact nCompact).target.toNat := by
  obtain ⟨m, k, hm, htarget⟩ := target_setCompact nCompact
  have hshort : m * 2 ^ (8 * k) % 2 ^ 256 < 2 ^ (23 + 8 * k) := by
    refine (Nat.mod_le _ _).trans_lt ?_
    rw [Nat.pow_add]
    exact Nat.mul_lt_mul_of_pos_right hm (Nat.two_pow_pos _)
  rw [htarget]
  rcases Nat.le_total (8 * k) 256 with hk | hk
  · refine round_eq_self _ ((Nat.dvd_mod_iff (Nat.pow_dvd_pow 2 hk)).mpr (Nat.dvd_mul_left _ m)) ?_
    have hlen := bitLen_le_iff.mpr hshort
    simp only [compactSchedule]
    omega
  · rw [Nat.mod_eq_zero_of_dvd ((Nat.pow_dvd_pow 2 hk).mul_left m)]
    exact round_zero _

/-! ## Multiplication and division -/

theorem mulAssign_toNat (b32 : BitVec 32) :
    (mulAssign a b32).toNat = a.toNat * b32.toNat % 2 ^ 256 := by
  rw [mulAssign, toNat_mul, toNat_setWidth, Nat.mod_eq_of_lt (a := b32.toNat)]
  exact b32.isLt.trans (by decide)

theorem divAssign_of_ne_zero {a b : ArithUint256} (h : b ≠ 0) : divAssign a b = some (a / b) :=
  if_neg h

end Bitcoboost
