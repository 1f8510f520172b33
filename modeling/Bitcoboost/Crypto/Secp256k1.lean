import Bitcoboost.Crypto.PubKey
import Bitcoboost.Lib.ModularPower
import Mathlib.FieldTheory.Finite.Basic
import Mathlib.Tactic.NormNum.Prime

/-!
# Points of secp256k1

The parser and the serializer of public keys in `secp256k1/src/eckey_impl.h`. Field elements are
numbers below the field size, and the arithmetic is modulo it.
-/

namespace Bitcoboost.Secp256k1

open ModularPower List

/-- The number of elements of the field. -/
def fieldSize : Nat := 2 ^ 256 - 2 ^ 32 - 977

/-- `secp256k1_ge`, a point other than the one at infinity. -/
structure Ge where
  x : Nat
  y : Nat
deriving DecidableEq, Repr

def feSetB32Limit (b : Bytes) : Option Nat :=
  let n := Bytes.beValue b
  if n < fieldSize then some n else none

def feGetB32 (n : Nat) : Bytes := (leBytes 32 n).reverse

/-- `secp256k1_fe_is_odd`. -/
def feIsOdd (n : Nat) : Bool := n % 2 = 1

/-- `secp256k1_fe_negate`. -/
def feNegate (n : Nat) : Nat := (fieldSize - n) % fieldSize

/-- The right side of the equation of the curve. -/
def curve (x : Nat) : Nat := (x ^ 3 + 7) % fieldSize

/-- `secp256k1_fe_sqrt`: the candidate and whether it is a root. -/
def feSqrt (a : Nat) : Nat × Bool :=
  let r := powMod fieldSize 256 a ((fieldSize + 1) / 4)
  (r, r * r % fieldSize = a)

def geSetXoVar (x : Nat) (odd : Bool) : Option Ge :=
  let (y, ret) := feSqrt (curve x)
  let y := if feIsOdd y ≠ odd then feNegate y else y
  if ret then some ⟨x, y⟩ else none

def geIsValidVar (elem : Ge) : Bool := elem.y * elem.y % fieldSize = curve elem.x

/-- `secp256k1_eckey_pubkey_parse`. -/
def pubkeyParse (pub : Bytes) : Option Ge :=
  match pub with
  | [] => none
  | tag :: body =>
    if pub.length = 33 ∧ (tag = 0x02 ∨ tag = 0x03) then do
      let x ← feSetB32Limit body
      geSetXoVar x (tag = 0x03)
    else if pub.length = 65 ∧ (tag = 0x04 ∨ tag = 0x06 ∨ tag = 0x07) then do
      let x ← feSetB32Limit (body.take 32)
      let y ← feSetB32Limit (body.drop 32)
      if (tag = 0x06 ∨ tag = 0x07) ∧ feIsOdd y ≠ (tag = 0x07) then none
      else if geIsValidVar ⟨x, y⟩ then some ⟨x, y⟩
      else none
    else none

/-- `secp256k1_eckey_pubkey_serialize`, uncompressed. -/
def pubkeySerialize (elem : Ge) : Bytes := 0x04 :: (feGetB32 elem.x ++ feGetB32 elem.y)

/-! ## The field -/

namespace FieldLemmas

def smallPrimes : List Nat :=
  [2, 3, 5, 7, 11, 29, 31, 53, 971, 1373, 1627, 2621, 2657, 4423, 5323, 7723, 13441, 24809, 41201,
    96557, 1206781]

/-- The large prime factors of one less than the field size, of one less than these, and so on. -/
def fieldCertificates : List LucasCertificate :=
  [⟨fieldSize, 3, 1, [2, 3, 7, 13441,
    205115282021455665897114700593932402728804164701536103180137503955397371]⟩,
    ⟨205115282021455665897114700593932402728804164701536103180137503955397371, 10, 2,
      [2, 3, 5, 29, 31, 7723, 132896956044521568488119, 255515944373312847190720520512484175977]⟩,
    ⟨255515944373312847190720520512484175977, 3, 3,
    [2, 7, 11, 1627, 2657, 4423, 41201, 96557, 7240687, 107590001]⟩,
    ⟨132896956044521568488119, 6, 1, [2, 3, 22149492674086928081353]⟩,
    ⟨22149492674086928081353, 5, 3, [2, 3, 5323, 173378833005251801]⟩,
    ⟨173378833005251801, 6, 3, [2, 5, 2621, 24809, 13331831]⟩,
    ⟨107590001, 3, 4, [2, 5, 7, 29, 53]⟩, ⟨7240687, 3, 1, [2, 3, 1206781]⟩,
    ⟨13331831, 13, 1, [2, 5, 971, 1373]⟩]

theorem prime_of_mem_smallPrimes : ∀ q ∈ smallPrimes, q.Prime := by
  simp only [smallPrimes, forall_mem_cons]
  norm_num

end FieldLemmas

open FieldLemmas

theorem fieldSize_prime : fieldSize.Prime :=
  LucasCertificate.prime_of_allChecked 256 prime_of_mem_smallPrimes
    (show LucasCertificate.AllChecked 256 smallPrimes fieldCertificates.reverse by decide +kernel) _
    (List.mem_reverse.mpr mem_cons_self)

/-! ## Square roots -/

instance : Fact fieldSize.Prime := ⟨fieldSize_prime⟩

namespace FieldLemmas

theorem fieldSize_eq :
    fieldSize = 115792089237316195423570985008687907853269984665640564039457584007908834671663 :=
  rfl

/-- Numbers below the field size are equal if their residues are. -/
theorem eq_of_cast_eq {a b : Nat} (ha : a < fieldSize) (hb : b < fieldSize)
    (h : (a : ZMod fieldSize) = b) : a = b := by
  rw [ZMod.natCast_eq_natCast_iff', Nat.mod_eq_of_lt ha, Nat.mod_eq_of_lt hb] at h
  exact h

theorem cast_mod (n : Nat) : ((n % fieldSize : Nat) : ZMod fieldSize) = n :=
  ZMod.natCast_mod n fieldSize

theorem fieldSize_pos : 0 < fieldSize := fieldSize_prime.pos

/-- The candidate for the root of a square is a root. -/
theorem cast_sqrt_sq (y : ZMod fieldSize) :
    ((y * y) ^ ((fieldSize + 1) / 4)) * ((y * y) ^ ((fieldSize + 1) / 4)) = y * y := by
  have hexp : 2 * (2 * ((fieldSize + 1) / 4)) = fieldSize + 1 := by
    rw [fieldSize_eq]
  calc ((y * y) ^ ((fieldSize + 1) / 4)) * ((y * y) ^ ((fieldSize + 1) / 4))
      = y ^ (2 * (2 * ((fieldSize + 1) / 4))) := by rw [← sq, ← sq, ← pow_mul, ← pow_mul,
        Nat.mul_comm _ 2]
    _ = y ^ fieldSize * y := by rw [hexp, pow_succ]
    _ = y * y := by rw [ZMod.pow_card]

variable {y n : Nat} {b : Bytes}

theorem feSqrt_square (hy : y < fieldSize) :
    feSqrt (y * y % fieldSize) = (y, true) ∨ feSqrt (y * y % fieldSize) = (feNegate y, true) := by
  obtain ⟨r, hr⟩ : ∃ r, r = powMod fieldSize 256 (y * y % fieldSize) ((fieldSize + 1) / 4) :=
    ⟨_, rfl⟩
  have hpow : r = (y * y % fieldSize) ^ ((fieldSize + 1) / 4) % fieldSize := by
    rw [hr, powMod_eq]
    decide +kernel
  have hlt : r < fieldSize := hpow ▸ Nat.mod_lt _ fieldSize_pos
  have hcast : (r : ZMod fieldSize) = ((y : ZMod fieldSize) * y) ^ ((fieldSize + 1) / 4) := by
    rw [hpow, cast_mod, Nat.cast_pow, cast_mod, Nat.cast_mul]
  have hsq : (r : ZMod fieldSize) * r = y * y := by rw [hcast, cast_sqrt_sq]
  have hroot : r * r % fieldSize = y * y % fieldSize := by
    refine eq_of_cast_eq (Nat.mod_lt _ fieldSize_pos) (Nat.mod_lt _ fieldSize_pos) ?_
    rw [cast_mod, cast_mod, Nat.cast_mul, Nat.cast_mul, hsq]
  have hsqrt : feSqrt (y * y % fieldSize) = (r, true) := by
    rw [feSqrt, ← hr, hroot, decide_eq_true rfl]
  rw [hsqrt]
  rcases mul_self_eq_mul_self_iff.mp hsq with heq | heq
  · exact .inl (by rw [eq_of_cast_eq hlt hy heq])
  · right
    have hneg : (feNegate y : ZMod fieldSize) = -y := by
      rw [feNegate, cast_mod, Nat.cast_sub hy.le, ZMod.natCast_self, zero_sub]
    have hr : r = feNegate y := eq_of_cast_eq hlt (Nat.mod_lt _ fieldSize_pos) (heq.trans hneg.symm)
    rw [hr]

theorem feNegate_of_pos (hpos : 0 < y) : feNegate y = fieldSize - y :=
  Nat.mod_eq_of_lt (Nat.sub_lt fieldSize_pos hpos)

theorem feNegate_feNegate (hy : y < fieldSize) : feNegate (feNegate y) = y := by
  rcases Nat.eq_zero_or_pos y with rfl | hpos
  · decide +kernel
  · rw [feNegate_of_pos hpos, feNegate_of_pos (Nat.sub_pos_of_lt hy), Nat.sub_sub_self hy.le]

theorem feIsOdd_feNegate (hpos : 0 < y) (hy : y < fieldSize) :
    feIsOdd (feNegate y) = !feIsOdd y := by
  rw [feNegate_of_pos hpos, feIsOdd, feIsOdd]
  have hodd : fieldSize % 2 = 1 := by decide +kernel
  rcases Nat.mod_two_eq_zero_or_one y with heven | hone
  · have : (fieldSize - y) % 2 = 1 := by omega
    rw [this, heven]
    rfl
  · have : (fieldSize - y) % 2 = 0 := by omega
    rw [this, hone]
    rfl

theorem geSetXoVar_of_valid {x : Nat} (hy : y < fieldSize) (hvalid : geIsValidVar ⟨x, y⟩ = true) :
    geSetXoVar x (feIsOdd y) = some ⟨x, y⟩ := by
  have hcurve : curve x = y * y % fieldSize := (of_decide_eq_true hvalid).symm
  rw [geSetXoVar, hcurve]
  rcases feSqrt_square hy with hsqrt | hsqrt
  · simp [hsqrt]
  · rw [hsqrt]
    rcases Nat.eq_zero_or_pos y with rfl | hpos
    · have hzero : feNegate 0 = 0 := by decide +kernel
      simp [hzero]
    · have hodd := feIsOdd_feNegate hpos hy
      simp [hodd, feNegate_feNegate hy]

/-! ## Bytes -/

theorem feGetB32_of_set (hlen : b.length = 32) (h : feSetB32Limit b = some n) :
    feGetB32 n = b ∧ n < fieldSize := by
  rw [feSetB32Limit] at h
  split at h
  next hlt =>
    cases h
    refine ⟨?_, hlt⟩
    rw [feGetB32, Bytes.beValue_eq_leValue, ← hlen, ← length_reverse, leBytes_leValue,
      reverse_reverse]
  next => cases h

/-- The last byte tells the parity. -/
theorem feIsOdd_of_set {c : UInt8} (h : feSetB32Limit (b ++ [c]) = some n) :
    feIsOdd n = decide (c &&& 1 = 1) := by
  rw [feSetB32Limit] at h
  split at h
  · cases h
    have hvalue : Bytes.leValue (c :: b.reverse) = c.toNat + 256 * Bytes.leValue b.reverse := rfl
    have hparity : (c.toNat + 256 * Bytes.leValue b.reverse) % 2 = c.toNat % 2 := by omega
    rw [feIsOdd, Bytes.beValue_eq_leValue, reverse_append, reverse_singleton, singleton_append,
      hvalue, hparity]
    refine forall_uint8 (p := fun c => decide (c.toNat % 2 = 1) = decide (c &&& 1 = 1)) ?_ c
    decide +kernel
  · cases h

end FieldLemmas

theorem FieldLemmas.pubkeyParse_uncompressed {x y : Bytes} {elem : Ge} (hx : x.length = 32)
    (hy : y.length = 32) (h : pubkeyParse (0x04 :: (x ++ y)) = some elem) :
    feSetB32Limit x = some elem.x ∧ feSetB32Limit y = some elem.y ∧ geIsValidVar elem = true := by
  have hlen : (0x04 :: (x ++ y)).length = 65 := by rw [length_cons, length_append, hx, hy]
  simp only [pubkeyParse, hlen, take_left' hx, drop_left' hx, Option.bind_eq_bind] at h
  obtain ⟨nx, hnx, h⟩ := Option.bind_eq_some_iff.mp h
  obtain ⟨ny, hny, h⟩ := Option.bind_eq_some_iff.mp h
  rw [if_neg (fun hhybrid => absurd hhybrid.1 (by decide))] at h
  split at h
  next hvalid =>
    cases h
    exact ⟨hnx, hny, hvalid⟩
  next => cases h

/-- A valid point is told by its first coordinate and the parity of the last byte. -/
theorem pubkeyParse_compressed {x y : Bytes} {c : UInt8} {elem : Ge} (hx : x.length = 32)
    (hy : y.length = 31) (h : pubkeyParse (0x04 :: (x ++ (y ++ [c]))) = some elem) :
    pubkeyParse ((if c &&& 1 = 1 then 0x03 else 0x02) :: x) = some elem ∧
      pubkeySerialize elem = 0x04 :: (x ++ (y ++ [c])) := by
  have hy' : (y ++ [c]).length = 32 := by rw [length_append, hy]; rfl
  obtain ⟨hnx, hny, hvalid⟩ := pubkeyParse_uncompressed hx hy' h
  obtain ⟨hbx, _⟩ := feGetB32_of_set hx hnx
  obtain ⟨hby, hlt⟩ := feGetB32_of_set hy' hny
  have hroot : geSetXoVar elem.x (decide (c &&& 1 = 1)) = some elem := by
    rw [← feIsOdd_of_set hny]
    exact geSetXoVar_of_valid hlt hvalid
  refine ⟨?_, by rw [pubkeySerialize, hbx, hby]⟩
  by_cases hodd : c &&& 1 = 1
  · rw [if_pos hodd]
    rw [decide_eq_true hodd] at hroot
    simp [pubkeyParse, hx, hnx, hroot]
  · rw [if_neg hodd]
    rw [decide_eq_false hodd] at hroot
    simp [pubkeyParse, hx, hnx, hroot]

end Bitcoboost.Secp256k1
