import Bitcoboost.Arith.ArithUint256
import Bitcoboost.Lib.Limbs

/-!
# `base_uint`

The loops of `arith_uint256.cpp` and `arith_uint256.h` over the 32-bit limbs, the lowest limb
first. `value` is the number that the limbs denote, and each operation has one lemma that says
what it does to it.
-/

namespace Bitcoboost

open Limbs RoundDown List BitVec Nat Bool

/-- `base_uint<BITS>`, where `width` is `BITS / 32`. -/
structure BaseUint (width : Nat) where
  pn : List (BitVec 32)
  length_pn : pn.length = width
deriving DecidableEq

namespace BaseUint

variable {width : Nat}

/-- The number that the limbs denote. -/
def value (a : BaseUint width) : Nat := Limbs.value a.pn

/-- The default constructor. -/
def zero : BaseUint width := ⟨List.replicate width 0#32, length_replicate⟩

/-- The constructor from a `uint64_t`. -/
def ofUint64 (b : BitVec 64) : BaseUint (width + 2) :=
  ⟨b.setWidth 32 :: (b >>> 32).setWidth 32 :: List.replicate width 0#32, by simp⟩

/-! ## Sums -/

/-- The loop of `operator+=`. -/
def addLoop (carry : BitVec 64) : List (BitVec 32) → List (BitVec 32) → List (BitVec 32)
  | x :: xs, y :: ys =>
    let n := carry + x.setWidth 64 + y.setWidth 64
    n.setWidth 32 :: addLoop (n >>> 32) xs ys
  | _, _ => []

theorem length_addLoop {xs ys : List (BitVec 32)} (carry : BitVec 64) (h : xs.length = ys.length) :
    (addLoop carry xs ys).length = xs.length := by
  induction xs generalizing ys carry with
  | nil => rfl
  | cons x xs ih =>
    cases ys with
    | nil => cases h
    | cons y ys => exact congrArg (· + 1) (ih _ (Nat.succ.inj h))

/-- `operator+=`. -/
def addAssign (a b : BaseUint width) : BaseUint width :=
  ⟨addLoop 0#64 a.pn b.pn, (length_addLoop _ (a.length_pn.trans b.length_pn.symm)).trans
    a.length_pn⟩

/-- `operator~`. -/
def complement (a : BaseUint width) : BaseUint width :=
  ⟨a.pn.map (~~~ ·), (length_map _).trans a.length_pn⟩

/-- The loop of `operator++`. -/
def incrementLoop : List (BitVec 32) → List (BitVec 32)
  | [] => []
  | x :: xs => if x + 1 = 0 then (x + 1) :: incrementLoop xs else (x + 1) :: xs

variable (xs : List (BitVec 32)) (b32 : BitVec 32)

theorem length_incrementLoop : (incrementLoop xs).length = xs.length := by
  induction xs with
  | nil => rfl
  | cons x xs ih =>
    unfold incrementLoop
    split
    · exact congrArg (· + 1) ih
    · rfl

/-- `operator++`. -/
def increment (a : BaseUint width) : BaseUint width :=
  ⟨incrementLoop a.pn, (length_incrementLoop a.pn).trans a.length_pn⟩

/-- `operator-` of one argument. -/
def neg (a : BaseUint width) : BaseUint width := a.complement.increment

/-- `operator-=`. -/
def subAssign (a b : BaseUint width) : BaseUint width := a.addAssign b.neg

/-! ## Products -/

/-- The loop of `operator*=(uint32_t)`. -/
def mulLoop32 (b32 : BitVec 32) (carry : BitVec 64) : List (BitVec 32) → List (BitVec 32)
  | [] => []
  | x :: xs =>
    let n := carry + b32.setWidth 64 * x.setWidth 64
    n.setWidth 32 :: mulLoop32 b32 (n >>> 32) xs

theorem length_mulLoop32 (carry : BitVec 64) (xs : List (BitVec 32)) :
    (mulLoop32 b32 carry xs).length = xs.length := by
  induction xs generalizing carry with
  | nil => rfl
  | cons x xs ih => exact congrArg (· + 1) (ih _)

/-- `operator*=(uint32_t)`. -/
def mulAssign32 (a : BaseUint width) (b32 : BitVec 32) : BaseUint width :=
  ⟨mulLoop32 b32 0#64 a.pn, (length_mulLoop32 b32 _ a.pn).trans a.length_pn⟩

/-- The inner loop of `operator*=`, from the limb that the factor has on. -/
def mulRow (factor : BitVec 32) (carry : BitVec 64) :
    List (BitVec 32) → List (BitVec 32) → List (BitVec 32)
  | a :: acc, b :: bs =>
    let n := carry + a.setWidth 64 + factor.setWidth 64 * b.setWidth 64
    n.setWidth 32 :: mulRow factor (n >>> 32) acc bs
  | _, _ => []

variable {acc bs : List (BitVec 32)} {a b : BaseUint width} {shift n : Nat}

theorem length_mulRow (factor : BitVec 32) (carry : BitVec 64) (h : acc.length ≤ bs.length) :
    (mulRow factor carry acc bs).length = acc.length := by
  induction acc generalizing bs carry with
  | nil => rfl
  | cons a acc ih =>
    cases bs with
    | nil => cases h
    | cons b bs => exact congrArg (· + 1) (ih _ (le_of_succ_le_succ h))

/-- The outer loop of `operator*=`, with the limbs of the result from `j` on. -/
def mulLoop (bs : List (BitVec 32)) : List (BitVec 32) → List (BitVec 32) → List (BitVec 32)
  | [], acc => acc
  | factor :: factors, acc =>
    match mulRow factor 0#64 acc bs with
    | [] => []
    | a :: acc => a :: mulLoop bs factors acc

theorem length_mulLoop {factors : List (BitVec 32)} (h : factors.length = acc.length)
    (hle : acc.length ≤ bs.length) : (mulLoop bs factors acc).length = acc.length := by
  induction factors generalizing acc with
  | nil => rfl
  | cons factor factors ih =>
    have hrow := length_mulRow factor 0#64 hle
    unfold mulLoop
    split
    · next heq => rw [← hrow, heq]
    · next a rest heq =>
      rw [heq, length_cons] at hrow
      rw [length_cons, ih (Nat.succ.inj (h.trans hrow.symm)) (by omega), hrow]

/-- `operator*=`. -/
def mulAssign (a b : BaseUint width) : BaseUint width :=
  ⟨mulLoop b.pn a.pn (List.replicate width 0#32), by
    rw [length_mulLoop (by rw [a.length_pn, length_replicate])
      (by rw [b.length_pn, length_replicate]), length_replicate]⟩

/-! ## Shifts -/

/-- The loop of `operator<<=` for a shift within a limb: the low part of a limb goes to its
place, the high part to the next one. -/
def shiftLeftLoop (shift : Nat) (high : BitVec 32) : List (BitVec 32) → List (BitVec 32)
  | [] => []
  | x :: xs => ((x <<< shift) ||| high) :: shiftLeftLoop shift (if shift ≠ 0 then x >>> (32 - shift)
      else 0#32) xs

theorem length_shiftLeftLoop (shift : Nat) (high : BitVec 32) (xs : List (BitVec 32)) :
    (shiftLeftLoop shift high xs).length = xs.length := by
  induction xs generalizing high with
  | nil => rfl
  | cons x xs ih => exact congrArg (· + 1) (ih _)

/-- `operator<<=`. What would go beyond the last limb is dropped. -/
def shiftLeft (a : BaseUint width) (shift : Nat) : BaseUint width :=
  ⟨(List.replicate (shift / 32) 0#32 ++ shiftLeftLoop (shift % 32) 0#32 a.pn).take width, by
    rw [length_take, length_append, length_replicate, length_shiftLeftLoop, a.length_pn]
    omega⟩

/-- The loop of `operator>>=` for a shift within a limb: the low part of the next limb comes
into the high part of a limb. -/
def shiftRightLoop (shift : Nat) : List (BitVec 32) → List (BitVec 32)
  | [] => []
  | [x] => [x >>> shift]
  | x :: y :: ys => ((x >>> shift) ||| (if shift ≠ 0 then y <<< (32 - shift) else 0#32)) ::
      shiftRightLoop shift (y :: ys)

theorem length_shiftRightLoop (shift : Nat) (xs : List (BitVec 32)) :
    (shiftRightLoop shift xs).length = xs.length := by
  induction xs with
  | nil => rfl
  | cons x xs ih =>
    cases xs with
    | nil => rfl
    | cons y ys => exact congrArg (· + 1) ih

/-- `operator>>=`. -/
def shiftRight (a : BaseUint width) (shift : Nat) : BaseUint width :=
  ⟨shiftRightLoop (shift % 32) (a.pn.drop (shift / 32)) ++
    List.replicate (min (shift / 32) width) 0#32, by
    rw [length_append, length_shiftRightLoop, length_drop, length_replicate, a.length_pn]
    omega⟩

/-! ## Comparisons -/

/-- The loop of `CompareTo`, from the highest limb on. -/
def compareLoop : List (BitVec 32) → List (BitVec 32) → Int
  | x :: xs, y :: ys => if x < y then -1 else if x > y then 1 else compareLoop xs ys
  | _, _ => 0

def compareTo (a b : BaseUint width) : Int := compareLoop a.pn.reverse b.pn.reverse

def wordBits (x : BitVec 32) : Nat → Nat
  | 0 => 1
  | nbits + 1 => if x &&& (1#32 <<< (nbits + 1)) ≠ 0#32 then nbits + 2 else wordBits x nbits

/-- The outer loop of `bits`, from the highest limb on. -/
def bitsLoop : List (BitVec 32) → Nat
  | [] => 0
  | x :: xs => if x ≠ 0#32 then 32 * xs.length + wordBits x 31 else bitsLoop xs

def bits (a : BaseUint width) : Nat := bitsLoop a.pn.reverse

/-! ## Division -/

def setBit (a : BaseUint width) (shift : Nat) : BaseUint width :=
  ⟨a.pn.modify (shift / 32) (· ||| (1#32 <<< (shift % 32))), (length_modify ..).trans a.length_pn⟩

/-- The loop of `operator/=`, which is left for a `shift` below zero. -/
def divLoop : Nat → BaseUint width → BaseUint width → BaseUint width → BaseUint width
  | 0, _, _, quotient => quotient
  | shift + 1, num, div, quotient =>
    if num.compareTo div ≥ 0 then divLoop shift (num.subAssign div) (div.shiftRight 1)
      (quotient.setBit shift)
    else divLoop shift num (div.shiftRight 1) quotient

/-- `operator/=`. `none` is the `uint_error`. -/
def divAssign (a b : BaseUint width) : Option (BaseUint width) :=
  if b.bits = 0 then none
  else if b.bits > a.bits then some zero
  else some (divLoop (a.bits - b.bits + 1) a (b.shiftLeft (a.bits - b.bits)) zero)

/-! ## Values -/

theorem value_lt (a : BaseUint width) : a.value < (2 ^ 32) ^ width := by
  have h := Limbs.value_lt a.pn
  rwa [a.length_pn] at h

@[simp] theorem zero_value : (zero : BaseUint width).value = 0 := Limbs.value_replicate_zero width

theorem ofUint64_value (b : BitVec 64) : (ofUint64 b : BaseUint (width + 2)).value = b.toNat := by
  have hcons : (ofUint64 b : BaseUint (width + 2)).value = _ := value_cons ..
  rw [hcons, value_cons, value_replicate_zero, Nat.mul_zero, Nat.add_zero, toNat_setWidth,
    toNat_setWidth,
    toNat_ushiftRight, shiftRight_eq_div_pow, mod_eq_of_lt (a := b.toNat / 2 ^ 32) (by omega),
    mod_add_div]

theorem word_carry {n : BitVec 64} :
    (n.setWidth 32).toNat = n.toNat % 2 ^ 32 ∧ (n >>> 32).toNat = n.toNat / 2 ^ 32 := by
  refine ⟨toNat_setWidth .., ?_⟩
  rw [toNat_ushiftRight, shiftRight_eq_div_pow]

theorem addLoop_value {xs ys : List (BitVec 32)} (carry : BitVec 64) (h : xs.length = ys.length)
    (hcarry : carry.toNat < 2 ^ 32) :
    Limbs.value (addLoop carry xs ys) = (Limbs.value xs + Limbs.value ys + carry.toNat) %
      (2 ^ 32) ^ xs.length := by
  induction xs generalizing ys carry with
  | nil => simp [addLoop, mod_one]
  | cons x xs ih =>
    cases ys with
    | nil => cases h
    | cons y ys =>
      have hn :
          (carry + x.setWidth 64 + y.setWidth 64).toNat = carry.toNat + x.toNat + y.toNat := by
        simp only [toNat_add, toNat_setWidth]
        omega
      obtain ⟨hword, hnext⟩ := word_carry
      rw [hn] at hword hnext
      have hrest :=
        ih ((carry + x.setWidth 64 + y.setWidth 64) >>> 32) (Nat.succ.inj h) (by rw [hnext]; omega)
      have hsum : Limbs.value (x :: xs) + Limbs.value (y :: ys) + carry.toNat
          = carry.toNat + x.toNat + y.toNat + 2 ^ 32 * (Limbs.value xs + Limbs.value ys) := by
        rw [value_cons, value_cons]
        ring
      rw [hsum, length_cons, carry_step, addLoop, value_cons, hrest, hword, hnext]

theorem addAssign_value (a b : BaseUint width) :
    (a.addAssign b).value = (a.value + b.value) % (2 ^ 32) ^ width := by
  have h := addLoop_value 0#64 (a.length_pn.trans b.length_pn.symm) (by decide)
  rw [a.length_pn] at h
  exact h

theorem complement_value (a : BaseUint width) :
    a.complement.value = (2 ^ 32) ^ width - 1 - a.value := by
  have h := value_complement a.pn
  rw [a.length_pn] at h
  unfold value complement
  dsimp only
  omega

theorem incrementLoop_value :
    Limbs.value (incrementLoop xs) = (Limbs.value xs + 1) % (2 ^ 32) ^ xs.length := by
  induction xs with
  | nil => simp [incrementLoop]
  | cons x xs ih =>
    have hsum : (x + 1).toNat = (x.toNat + 1) % 2 ^ 32 := toNat_add x 1
    rw [incrementLoop, value_cons, length_cons, add_right_comm, carry_step]
    split
    · next h =>
      have hzero : (x + 1).toNat = 0 := congrArg BitVec.toNat h
      rw [value_cons, ih, ← hsum, show (x.toNat + 1) / 2 ^ 32 = 1 by omega]
    · next h =>
      have hne : (x + 1).toNat ≠ 0 := fun hz => h (eq_of_toNat_eq hz)
      have hlt := Limbs.value_lt xs
      rw [value_cons, ← hsum, show (x.toNat + 1) / 2 ^ 32 = 0 by omega, add_zero, mod_eq_of_lt hlt]

theorem neg_value (b : BaseUint width) :
    b.neg.value = ((2 ^ 32) ^ width - b.value) % (2 ^ 32) ^ width := by
  have hcomplement := Limbs.value_complement b.pn
  have h := incrementLoop_value (b.pn.map (~~~ ·))
  rw [length_map] at h
  rw [b.length_pn] at h hcomplement
  have hsum : Limbs.value (b.pn.map (~~~ ·)) + 1 = (2 ^ 32) ^ width - b.value := by
    unfold value
    omega
  exact h.trans (by rw [hsum])

/-- `operator-=` where nothing is borrowed. -/
theorem subAssign_value (h : b.value ≤ a.value) : (a.subAssign b).value = a.value - b.value := by
  have ha := a.value_lt
  rw [subAssign, addAssign_value, neg_value, add_mod_mod]
  have hsum : a.value + ((2 ^ 32) ^ width - b.value) = a.value - b.value + (2 ^ 32) ^ width := by
    omega
  rw [hsum, add_mod_right, mod_eq_of_lt (by omega)]

/-- A product of limbs with a limb and a carry fits 64 bits. -/
theorem product_toNat (factor b a : BitVec 32) {carry : BitVec 64} (hcarry : carry.toNat < 2 ^ 32) :
    (carry + a.setWidth 64 + factor.setWidth 64 * b.setWidth 64).toNat =
      carry.toNat + a.toNat + factor.toNat * b.toNat
      ∧ carry.toNat + a.toNat + factor.toNat * b.toNat < 2 ^ 64 := by
  have hprod : factor.toNat * b.toNat ≤ (2 ^ 32 - 1) * (2 ^ 32 - 1) :=
    Nat.mul_le_mul (Nat.le_sub_one_of_lt factor.isLt) (Nat.le_sub_one_of_lt b.isLt)
  have hlt : carry.toNat + a.toNat + factor.toNat * b.toNat < 2 ^ 64 := by omega
  refine ⟨?_, hlt⟩
  have hwide : ∀ x : BitVec 32, (x.setWidth 64).toNat = x.toNat := fun x => by
    rw [toNat_setWidth, mod_eq_of_lt (x.isLt.trans (by decide))]
  rw [toNat_add, toNat_add, toNat_mul, hwide, hwide, hwide, mod_add_mod, add_mod_mod,
    mod_eq_of_lt hlt]

theorem mulRow_value (factor : BitVec 32) (carry : BitVec 64) (h : acc.length ≤ bs.length)
    (hcarry : carry.toNat < 2 ^ 32) : Limbs.value (mulRow factor carry acc bs)
      = (Limbs.value acc + factor.toNat * Limbs.value bs + carry.toNat) %
        (2 ^ 32) ^ acc.length := by
  induction acc generalizing bs carry with
  | nil => simp [mulRow, mod_one]
  | cons a acc ih =>
    cases bs with
    | nil => cases h
    | cons b bs =>
      obtain ⟨hn, hlt⟩ := product_toNat factor b a hcarry
      obtain ⟨hword, hnext⟩ := word_carry
      rw [hn] at hword hnext
      have hrest :=
          ih ((carry + a.setWidth 64 + factor.setWidth 64 * b.setWidth 64) >>> 32)
            (le_of_succ_le_succ h)
        (by rw [hnext]; omega)
      have hsum : Limbs.value (a :: acc) + factor.toNat * Limbs.value (b :: bs) + carry.toNat
          = carry.toNat + a.toNat + factor.toNat * b.toNat + 2 ^ 32 *
            (Limbs.value acc + factor.toNat * Limbs.value bs) := by
        rw [value_cons, value_cons]
        ring
      rw [hsum, length_cons, carry_step, mulRow, value_cons, hrest, hword, hnext]

theorem mulLoop_value (factors acc : List (BitVec 32)) (h : factors.length = acc.length)
    (hle : acc.length ≤ bs.length) :
    Limbs.value (mulLoop bs factors acc) =
    (Limbs.value acc + Limbs.value factors * Limbs.value bs) % (2 ^ 32) ^ acc.length := by
  induction factors generalizing acc with
  | nil =>
    rw [mulLoop, value_nil, Nat.zero_mul, Nat.add_zero, Nat.mod_eq_of_lt (Limbs.value_lt acc)]
  | cons factor factors ih =>
    have hlength := length_mulRow factor 0#64 hle
    have hrow : Limbs.value (mulRow factor 0#64 acc bs)
        = (Limbs.value acc + factor.toNat * Limbs.value bs) % (2 ^ 32) ^ acc.length :=
          mulRow_value factor 0#64 hle (by decide)
    unfold mulLoop
    cases hresult : mulRow factor 0#64 acc bs with
    | nil =>
      rw [hresult] at hlength
      rw [← hlength] at h
      cases h
    | cons a rest =>
      -- the lowest limb of the row is final, and the others go into the next row
      rw [hresult, value_cons] at hrow
      rw [hresult, length_cons] at hlength
      have hrest := ih rest (Nat.succ.inj (h.trans hlength.symm)) (by omega)
      have hstep :=
        word_step a (Limbs.value rest + Limbs.value factors * Limbs.value bs) rest.length
      have hsum : a.toNat + 2 ^ 32 * (Limbs.value rest + Limbs.value factors * Limbs.value bs)
          = a.toNat + 2 ^ 32 * Limbs.value rest + 2 ^ 32 *
            (Limbs.value factors * Limbs.value bs) := by ring
      rw [value_cons, hrest, ← hstep, hsum, hlength, hrow, mod_add_mod, value_cons]
      ring_nf

/-- `operator*=` multiplies modulo the width. -/
theorem mulAssign_value (a b : BaseUint width) :
    (a.mulAssign b).value = a.value * b.value % (2 ^ 32) ^ width := by
  have hle :
    (List.replicate width 0#32).length ≤ b.pn.length := by rw [b.length_pn, length_replicate]
  have h :=
    mulLoop_value a.pn (List.replicate width 0#32) (by rw [a.length_pn, length_replicate]) hle
  rw [value_replicate_zero, zero_add, length_replicate] at h
  exact h

theorem mulLoop32_value (carry : BitVec 64) (xs : List (BitVec 32))
    (hcarry : carry.toNat < 2 ^ 32) :
    Limbs.value (mulLoop32 b32 carry xs) = (b32.toNat * Limbs.value xs + carry.toNat) %
      (2 ^ 32) ^ xs.length := by
  induction xs generalizing carry with
  | nil => simp [mulLoop32, mod_one]
  | cons x xs ih =>
    obtain ⟨hn, hlt⟩ := product_toNat b32 x 0#32 hcarry
    rw [show carry + (0#32).setWidth 64 = carry from BitVec.add_zero carry] at hn
    rw [show (0#32).toNat = 0 from rfl, add_zero] at hn hlt
    obtain ⟨hword, hnext⟩ := word_carry
    rw [hn] at hword hnext
    have hrest := ih ((carry + b32.setWidth 64 * x.setWidth 64) >>> 32) (by rw [hnext]; omega)
    have hsum : b32.toNat * Limbs.value (x :: xs) + carry.toNat
        = carry.toNat + b32.toNat * x.toNat + 2 ^ 32 * (b32.toNat * Limbs.value xs) := by
      rw [value_cons]
      ring
    rw [hsum, length_cons, carry_step, mulLoop32, value_cons, hrest, hword, hnext]

/-- `operator*=(uint32_t)` multiplies modulo the width. -/
theorem mulAssign32_value (a : BaseUint width) :
    (a.mulAssign32 b32).value = a.value * b32.toNat % (2 ^ 32) ^ width := by
  have h := mulLoop32_value b32 0#64 a.pn (by decide)
  rw [a.length_pn, mul_comm] at h
  exact h

theorem shiftLeftLoop_value (hshift : shift < 32) (high : BitVec 32)
    (hhigh : high.toNat < 2 ^ shift)
    (xs : List (BitVec 32)) : Limbs.value (shiftLeftLoop shift high xs)
      = (Limbs.value xs * 2 ^ shift + high.toNat) % (2 ^ 32) ^ xs.length := by
  induction xs generalizing high with
  | nil => simp [shiftLeftLoop, mod_one]
  | cons x xs ih =>
    have hnext :
        (if shift ≠ 0 then x >>> (32 - shift) else 0#32).toNat = x.toNat / 2 ^ (32 - shift) := by
      by_cases hzero : shift = 0
      · rw [if_neg (not_not.mpr hzero), hzero]
        exact (div_eq_of_lt x.isLt).symm
      · rw [if_pos hzero, toNat_ushiftRight, shiftRight_eq_div_pow]
    have hlt : x.toNat / 2 ^ (32 - shift) < 2 ^ shift := by
      refine Nat.div_lt_of_lt_mul (x.isLt.trans_eq ?_)
      rw [← Nat.pow_add, Nat.sub_add_cancel hshift.le]
    have hsum : Limbs.value (x :: xs) * 2 ^ shift + high.toNat
        = ((x <<< shift) ||| high).toNat + 2 ^ 32 *
          (Limbs.value xs * 2 ^ shift + x.toNat / 2 ^ (32 - shift)) := by
      have hsplit := shiftLeft_split x hshift.le
      rw [value_cons, shiftLeft_or x high hshift.le hhigh, Nat.add_mul, hsplit]
      ring
    rw [hsum, length_cons, word_step, shiftLeftLoop, value_cons, ih _ (hnext ▸ hlt), hnext]

/-- `operator<<=` drops what does not fit the width. -/
theorem shiftLeft_value (a : BaseUint width) (shift : Nat) :
    (a.shiftLeft shift).value = a.value * 2 ^ shift % (2 ^ 32) ^ width := by
  have hloop := shiftLeftLoop_value (Nat.mod_lt shift (by decide)) 0#32 (Nat.two_pow_pos _) a.pn
  have hlength :
      width ≤ (List.replicate (shift / 32) 0#32 ++
      shiftLeftLoop (shift % 32) 0#32 a.pn).length := by
    rw [length_append, length_shiftLeftLoop, a.length_pn]
    exact le_add_left _ _
  have hpow : (2 ^ 32) ^ (shift / 32) * 2 ^ (shift % 32) = 2 ^ shift := by
    rw [← pow_mul, ← pow_add, div_add_mod]
  rw [a.length_pn, toNat_zero, add_zero] at hloop
  have htake : (a.shiftLeft shift).value = _ := (value_take_drop _ hlength).1
  rw [htake, value_append, length_replicate, value_replicate_zero, hloop, zero_add, mul_mod_mod,
    mul_left_comm, hpow]
  rfl

theorem shiftRightLoop_value (hshift : shift < 32) (xs : List (BitVec 32)) :
    Limbs.value (shiftRightLoop shift xs) = Limbs.value xs / 2 ^ shift := by
  have hpow :
    2 ^ 32 = 2 ^ shift * 2 ^ (32 - shift) := by rw [← Nat.pow_add, Nat.add_sub_cancel' hshift.le]
  have hpos := Nat.two_pow_pos shift
  induction xs with
  | nil => simp [shiftRightLoop]
  | cons x xs ih =>
    cases xs with
    | nil => simp [shiftRightLoop, Nat.shiftRight_eq_div_pow]
    | cons y ys =>
      have hword : ((x >>> shift) ||| (if shift ≠ 0 then y <<< (32 - shift) else 0#32)).toNat
          = x.toNat / 2 ^ shift + y.toNat % 2 ^ shift * 2 ^ (32 - shift) := by
        by_cases hzero : shift = 0
        · subst hzero
          simp [Nat.mod_one]
        · rw [if_pos hzero, shiftRight_or x y hshift.le]
      have hmod : Limbs.value (y :: ys) % 2 ^ shift = y.toNat % 2 ^ shift := by
        rw [value_cons, hpow, Nat.mul_assoc, Nat.add_mul_mod_self_left]
      have hdiv : Limbs.value (x :: y :: ys) / 2 ^ shift =
          x.toNat / 2 ^ shift + 2 ^ (32 - shift) * Limbs.value (y :: ys) := by
        rw [value_cons, hpow, Nat.mul_assoc, Nat.add_mul_div_left _ _ hpos]
      rw [hdiv, shiftRightLoop, value_cons, ih, hword, ← hmod]
      conv_rhs => rw [← Nat.mod_add_div (Limbs.value (y :: ys)) (2 ^ shift)]
      rw [hpow]
      ring

/-- `operator>>=` divides by a power of two. -/
theorem shiftRight_value (a : BaseUint width) (shift : Nat) :
    (a.shiftRight shift).value = a.value / 2 ^ shift := by
  have hloop := shiftRightLoop_value (mod_lt shift (by decide)) (a.pn.drop (shift / 32))
  have hpow : (2 ^ 32) ^ (shift / 32) * 2 ^ (shift % 32) = 2 ^ shift := by
    rw [← pow_mul, ← pow_add, div_add_mod]
  have happend : (a.shiftRight shift).value = _ := value_append _ _
  rw [happend, hloop, value_replicate_zero, Nat.mul_zero, Nat.add_zero]
  by_cases hle : shift / 32 ≤ a.pn.length
  · rw [(value_take_drop a.pn hle).2, Nat.div_div_eq_div_mul, hpow]
    rfl
  · -- nothing is left
    have hlt : a.value < 2 ^ shift := by
      refine a.value_lt.trans_le ?_
      rw [← pow_mul, ← a.length_pn]
      exact Nat.pow_le_pow_right (by decide) (by omega)
    rw [drop_of_length_le (Nat.le_of_not_le hle), value_nil, Nat.zero_div, Nat.div_eq_of_lt hlt]

theorem value_reverse_cons (x : BitVec 32) (xs : List (BitVec 32)) :
    Limbs.value (x :: xs).reverse = Limbs.value xs.reverse + (2 ^ 32) ^ xs.length * x.toNat := by
  rw [reverse_cons, value_append, length_reverse, value_cons, value_nil, Nat.mul_zero, Nat.add_zero]

theorem compareLoop_cases (xs ys : List (BitVec 32)) (h : xs.length = ys.length) :
    (compareLoop xs ys = -1 ∧ Limbs.value xs.reverse < Limbs.value ys.reverse)
      ∨ (compareLoop xs ys = 0 ∧ Limbs.value xs.reverse = Limbs.value ys.reverse)
      ∨ (compareLoop xs ys = 1 ∧ Limbs.value ys.reverse < Limbs.value xs.reverse) := by
  induction xs generalizing ys with
  | nil =>
    rw [eq_nil_of_length_eq_zero h.symm]
    exact .inr (.inl ⟨rfl, rfl⟩)
  | cons x xs ih =>
    cases ys with
    | nil => cases h
    | cons y ys =>
      have hlength : xs.length = ys.length := Nat.succ.inj h
      have hx := Limbs.value_lt xs.reverse
      have hy := Limbs.value_lt ys.reverse
      rw [length_reverse] at hx hy
      rw [hlength] at hx
      rw [value_reverse_cons, value_reverse_cons, compareLoop, hlength]
      have hless : ∀ {a b p q M : Nat}, p < M → a < b → p + M * a < q + M * b := by
        intro a b p q M hp hab
        have := mul_le_mul_left M hab
        rw [Nat.mul_succ] at this
        omega
      split
      · next hlt => exact .inl ⟨rfl, hless hx hlt⟩
      · split
        · next hgt => exact .inr (.inr ⟨rfl, hless hy hgt⟩)
        · next hlt hgt =>
          have heq : x = y :=
            eq_of_toNat_eq (Nat.le_antisymm (Nat.le_of_not_lt hgt) (Nat.le_of_not_lt hlt))
          rw [heq]
          rcases ih ys hlength with ⟨hc, hv⟩ | ⟨hc, hv⟩ | ⟨hc, hv⟩
          · exact .inl ⟨hc, Nat.add_lt_add_right hv _⟩
          · exact .inr (.inl ⟨hc, by rw [hv]⟩)
          · exact .inr (.inr ⟨hc, Nat.add_lt_add_right hv _⟩)

theorem compareTo_cases (a b : BaseUint width) :
    (a.compareTo b = -1 ∧ a.value < b.value) ∨ (a.compareTo b = 0 ∧ a.value = b.value) ∨
    (a.compareTo b = 1 ∧ b.value < a.value) := by
  have h := compareLoop_cases a.pn.reverse b.pn.reverse
    (by rw [length_reverse, length_reverse, a.length_pn, b.length_pn])
  rw [reverse_reverse, reverse_reverse] at h
  exact h

theorem compareTo_nonneg (a b : BaseUint width) : a.compareTo b ≥ 0 ↔ b.value ≤ a.value := by
  rcases compareTo_cases a b with ⟨hc, hv⟩ | ⟨hc, hv⟩ | ⟨hc, hv⟩ <;> rw [hc] <;> omega

theorem and_bit_iff (x : BitVec 32) (hn : n < 32) :
    x &&& (1#32 <<< n) ≠ 0#32 ↔ x.toNat.testBit n := by
  have hone : (1#32 <<< n).toNat = 2 ^ n := by
    rw [toNat_shiftLeft, Nat.shiftLeft_eq, toNat_one (by decide), Nat.one_mul,
      Nat.mod_eq_of_lt (Nat.pow_lt_pow_right (by decide) hn)]
  have hand : (x &&& (1#32 <<< n)).toNat = (x.toNat.testBit n).toNat * 2 ^ n := by
    rw [toNat_and, hone, and_two_pow]
  constructor
  · intro hne
    by_contra hbit
    rw [not_eq_true] at hbit
    rw [hbit, toNat_false, Nat.zero_mul] at hand
    exact hne (eq_of_toNat_eq hand)
  · intro hbit heq
    rw [heq, hbit, toNat_true, one_mul] at hand
    exact absurd hand.symm (Nat.two_pow_pos n).ne'

theorem wordBits_eq {x : BitVec 32} (hx : x.toNat ≠ 0) (hn : n < 32) (hlt : x.toNat < 2 ^ (n + 1)) :
    wordBits x n = bitLen x.toNat := by
  induction n with
  | zero =>
    have hone : x.toNat = 1 := by omega
    rw [hone]
    rfl
  | succ n ih =>
    unfold wordBits
    split
    · next hbit =>
      have hge := ge_two_pow_of_testBit ((and_bit_iff x hn).mp hbit)
      exact (bitLen_eq hge hlt).symm
    · next hbit =>
      refine ih (Nat.lt_of_succ_lt hn) (Nat.lt_of_not_le fun hge => hbit ?_)
      rw [and_bit_iff x hn, Nat.testBit_eq_decide_div_mod_eq, decide_eq_true_iff]
      have hquot : x.toNat / 2 ^ (n + 1) = 1 :=
        Nat.div_eq_of_lt_le (by omega) (by rw [Nat.pow_succ] at hlt; omega)
      rw [hquot]

theorem bitsLoop_eq : bitsLoop xs = bitLen (Limbs.value xs.reverse) := by
  induction xs with
  | nil => rfl
  | cons x xs ih =>
    rw [value_reverse_cons]
    unfold bitsLoop
    split
    · next hx =>
      have hne : x.toNat ≠ 0 := fun hz => hx (eq_of_toNat_eq hz)
      have hlow := Limbs.value_lt xs.reverse
      rw [length_reverse, ← pow_mul] at hlow
      rw [wordBits_eq hne (by decide) x.isLt, ← pow_mul, bitLen_add_mul hlow hne]
    · next hx =>
      rw [not_not.mp hx, toNat_zero, Nat.mul_zero, Nat.add_zero, ih]

theorem bits_eq (a : BaseUint width) : a.bits = bitLen a.value := by
  rw [bits, bitsLoop_eq, reverse_reverse, value]

theorem bits_le (a : BaseUint width) : a.bits ≤ 32 * width := by
  rw [bits_eq, bitLen_le_iff, pow_mul]
  exact a.value_lt

/-- A bit is set above which all bits that are set already are. -/
theorem setBit_value (hshift : shift < 32 * width) (hdvd : 2 ^ (shift + 1) ∣ a.value) :
    (a.setBit shift).value = a.value + 2 ^ shift := by
  have hi : shift / 32 < a.pn.length := by
    rw [a.length_pn]
    omega
  have hmod : shift % 32 < 32 := Nat.mod_lt _ (by decide)
  have hpow : 2 ^ (shift % 32) * (2 ^ 32) ^ (shift / 32) = 2 ^ shift := by
    rw [← Nat.pow_mul, ← Nat.pow_add, Nat.mod_add_div]
  have hone : (1#32 <<< (shift % 32)).toNat = 2 ^ (shift % 32) := by
    rw [toNat_shiftLeft, Nat.shiftLeft_eq, toNat_one (by decide), Nat.one_mul,
      Nat.mod_eq_of_lt (Nat.pow_lt_pow_right (by decide) hmod)]
  have hword : 2 ^ (shift % 32 + 1) ∣ a.pn[shift / 32].toNat := by
    rw [getElem_eq hi, Nat.dvd_mod_iff (Nat.pow_dvd_pow 2 hmod)]
    refine Nat.dvd_div_of_mul_dvd ?_
    rw [Nat.mul_comm, Nat.pow_succ, Nat.mul_right_comm, hpow, ← Nat.pow_succ]
    exact hdvd
  obtain ⟨k, hk⟩ := hword
  have hor : (a.pn[shift / 32] ||| (1#32 <<< (shift % 32))).toNat =
      a.pn[shift / 32].toNat + 2 ^ (shift % 32) := by
    rw [toNat_or, hone, hk, Nat.two_pow_add_eq_or_of_lt
      (Nat.pow_lt_pow_right (by decide) (Nat.lt_succ_self _))]
  have h := value_modify (· ||| (1#32 <<< (shift % 32))) hi
  rw [hor, Nat.add_mul, hpow] at h
  refine Nat.add_right_cancel (h.trans ?_)
  rw [Nat.add_right_comm, Nat.add_assoc]
  rfl

/-- The loop of `operator/=` adds the quotient of what is left. The divisor has been shifted so
that it is aligned with what is left of the dividend, and it is shifted back. -/
theorem divLoop_value {D : Nat} (hD : 0 < D) (hn : n ≤ 32 * width)
    {num div quotient : BaseUint width}
    (hdiv : ∀ m, n = m + 1 → div.value = D * 2 ^ m) (hnum : num.value < D * 2 ^ n)
    (hquotient : 2 ^ n ∣ quotient.value) :
    (divLoop n num div quotient).value = quotient.value + num.value / D := by
  induction n generalizing num div quotient with
  | zero =>
    rw [pow_zero, mul_one] at hnum
    rw [divLoop, div_eq_of_lt hnum, add_zero]
  | succ n ih =>
    have hvalue : div.value = D * 2 ^ n := hdiv n rfl
    have hdvd : 2 ^ n ∣ quotient.value := (pow_dvd_pow 2 (le_succ n)).trans hquotient
    have hnext : ∀ m, n = m + 1 → (div.shiftRight 1).value = D * 2 ^ m := by
      rintro m rfl
      rw [shiftRight_value, hvalue, Nat.pow_succ, ← Nat.mul_assoc, Nat.pow_one,
        Nat.mul_div_cancel _ (by decide)]
    unfold divLoop
    split
    · next hge =>
      rw [compareTo_nonneg] at hge
      have hsub := subAssign_value hge
      have hset := setBit_value (by omega) hquotient
      have hless : (num.subAssign div).value < D * 2 ^ n := by
        rw [pow_succ] at hnum
        have htwice : D * (2 ^ n * 2) = D * 2 ^ n + D * 2 ^ n := by ring
        omega
      have hdvd' : 2 ^ n ∣ (quotient.setBit n).value := hset ▸ dvd_add hdvd (dvd_refl _)
      have hquot : num.value / D = 2 ^ n + (num.value - div.value) / D := by
        conv_lhs => rw [← Nat.sub_add_cancel hge, hvalue, Nat.add_mul_div_left _ _ hD]
        rw [hvalue, add_comm]
      rw [ih (le_of_succ_le hn) hnext hless hdvd', hset, hsub, hquot, add_assoc]
    · next hlt =>
      rw [compareTo_nonneg, hvalue] at hlt
      exact ih (Nat.le_of_succ_le hn) hnext (Nat.lt_of_not_le hlt) hdvd

/-- The divisor is aligned with the dividend, and no bit of it is lost. -/
theorem shiftLeft_value_of_bits (h : b.bits ≤ a.bits) :
    (b.shiftLeft (a.bits - b.bits)).value = b.value * 2 ^ (a.bits - b.bits) := by
  rw [shiftLeft_value]
  refine mod_eq_of_lt ?_
  have hb : b.value < 2 ^ b.bits := b.bits_eq ▸ lt_pow_bitLen b.value
  calc b.value * 2 ^ (a.bits - b.bits) < 2 ^ b.bits * 2 ^ (a.bits - b.bits) :=
      Nat.mul_lt_mul_of_pos_right hb (Nat.two_pow_pos _)
    _ = 2 ^ a.bits := by rw [← Nat.pow_add, Nat.add_sub_cancel' h]
    _ ≤ 2 ^ (32 * width) := Nat.pow_le_pow_right (by decide) a.bits_le
    _ = (2 ^ 32) ^ width := pow_mul ..

theorem bits_eq_zero_iff (a : BaseUint width) : a.bits = 0 ↔ a.value = 0 := by
  rw [bits_eq]
  constructor
  · intro h
    by_contra hne
    exact absurd h (bitLen_pos hne).ne'
  · intro h
    rw [h, bitLen_zero]

/-- `operator/=` is the division of numbers, rounded down. -/
theorem divAssign_value (hb : b.value ≠ 0) :
    ∃ quotient, a.divAssign b = some quotient ∧ quotient.value = a.value / b.value := by
  have hbits : b.bits ≠ 0 := (bits_eq_zero_iff b).not.mpr hb
  have ha : a.value < 2 ^ a.bits := a.bits_eq ▸ lt_pow_bitLen a.value
  have hlow : 2 ^ (b.bits - 1) ≤ b.value := by
    rw [bits_eq]
    exact pow_le_of_ne_zero hb
  unfold divAssign
  rw [if_neg hbits]
  split
  · next hgt =>
    have hlt : a.value < b.value :=
      (ha.trans_le (Nat.pow_le_pow_right (by decide) (by omega))).trans_le hlow
    exact ⟨zero, rfl, by rw [zero_value, div_eq_of_lt hlt]⟩
  · next hle =>
    have hshift : b.bits ≤ a.bits := Nat.le_of_not_lt hle
    have hwidth := a.bits_le
    have hnum : a.value < b.value * 2 ^ (a.bits - b.bits + 1) := by
      calc a.value < 2 ^ a.bits := ha
        _ = 2 ^ (b.bits - 1) * 2 ^ (a.bits - b.bits + 1) := by rw [← pow_add]; congr 1; omega
        _ ≤ b.value * 2 ^ (a.bits - b.bits + 1) := mul_le_mul_right _ hlow
    have haligned : ∀ m, a.bits - b.bits + 1 = m + 1 →
        (b.shiftLeft (a.bits - b.bits)).value = b.value * 2 ^ m := by
      intro m hm
      rw [shiftLeft_value_of_bits hshift, Nat.succ.inj hm]
    refine ⟨_, rfl, ?_⟩
    rw [divLoop_value (pos_of_ne_zero hb) (by omega) haligned hnum
      (by rw [zero_value]; exact dvd_zero _), zero_value, zero_add]

/-! ## The model in numbers -/

def ofArith (a : ArithUint256) : BaseUint 8 :=
  ⟨(List.range 8).map fun i => a.extractLsb' (32 * i) 32, rfl⟩

theorem ofArith_value (a : ArithUint256) : (ofArith a).value = a.toNat :=
  (value_extract a 8).trans (mod_eq_of_lt (a.isLt.trans_eq (by decide)))

/-- The product with a word is that of the numbers. -/
theorem mulAssign32_ofArith (a : ArithUint256) :
    ((ofArith a).mulAssign32 b32).value = (a.mulAssign b32).toNat := by
  rw [mulAssign32_value, ofArith_value, mulAssign_toNat]
  rfl

/-- The quotient is that of the numbers. -/
theorem divAssign_ofArith {x : BaseUint 8} {a : ArithUint256} (hx : x.value = a.toNat)
    (b : ArithUint256) :
    (x.divAssign (ofArith b)).map value = (ArithUint256.divAssign a b).map BitVec.toNat := by
  by_cases hb : b = 0
  · have hzero : (ofArith b).value = 0 := by rw [ofArith_value, hb]; rfl
    rw [divAssign, if_pos ((bits_eq_zero_iff _).mpr hzero), ArithUint256.divAssign, if_pos hb]
    rfl
  · have hne : (ofArith b).value ≠ 0 := by
      rw [ofArith_value]
      exact fun hz => hb (eq_of_toNat_eq hz)
    obtain ⟨quotient, hdiv, hvalue⟩ := divAssign_value (a := x) hne
    rw [hdiv, divAssign_of_ne_zero hb, Option.map_some, Option.map_some, hvalue, hx,
      ofArith_value, toNat_udiv]

/-- The step of the retarget on limbs is that on numbers, wrapping included. -/
theorem retarget_ofArith (bnNew span : ArithUint256) (nActualTimespan : BitVec 32) :
    (((ofArith bnNew).mulAssign32 nActualTimespan).divAssign (ofArith span)).map value =
      (ArithUint256.divAssign (bnNew.mulAssign nActualTimespan) span).map BitVec.toNat :=
  divAssign_ofArith (mulAssign32_ofArith _ bnNew) span

end BaseUint

end Bitcoboost
