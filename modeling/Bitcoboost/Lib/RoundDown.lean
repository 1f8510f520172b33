import Mathlib.Algebra.Group.Nat.Defs
import Mathlib.Data.Nat.Log

/-!
# Rounding down to the leading bits

A floating format without a sign keeps the leading bits of a number. How many bits a number of
`l` bits loses is its *schedule*. Rounding down along a monotone schedule is below its argument,
monotone, and loses less than one unit of the last kept bit.
-/

namespace RoundDown

/-- The number of bits of `x`: the position of the highest bit set plus one, or
zero if `x` is zero. -/
def bitLen (x : Nat) : Nat := if x = 0 then 0 else x.log2 + 1

/-- `drop l` is the number of low bits that a number of `l` bits loses. A longer
number loses at least as many, and the highest bit is always kept. -/
structure Schedule where
  drop : Nat → Nat
  mono : ∀ {a b : Nat}, a ≤ b → drop a ≤ drop b
  keep : ∀ {l : Nat}, 0 < l → drop l < l

/-- `x` with its low bits cleared, as many as the schedule says. -/
def Schedule.round (S : Schedule) (x : Nat) : Nat :=
  x / 2 ^ S.drop (bitLen x) * 2 ^ S.drop (bitLen x)

/-! ## Bit lengths -/

theorem bitLen_zero : bitLen 0 = 0 := rfl

variable {x y n k : Nat}

theorem bitLen_pos (h : x ≠ 0) : 0 < bitLen x := by
  simp [bitLen, h]

theorem pow_le_of_ne_zero (h : x ≠ 0) : 2 ^ (bitLen x - 1) ≤ x := by
  simp only [bitLen, if_neg h, Nat.add_sub_cancel]
  exact Nat.log2_self_le h

theorem lt_pow_bitLen (x : Nat) : x < 2 ^ bitLen x := by
  by_cases h : x = 0
  · subst h
    decide
  · simp only [bitLen, if_neg h]
    exact Nat.lt_log2_self

theorem bitLen_le_iff : bitLen x ≤ n ↔ x < 2 ^ n := by
  constructor
  · intro h
    exact (lt_pow_bitLen x).trans_le (Nat.pow_le_pow_right (by decide) h)
  · intro h
    by_contra hn
    have hx : x ≠ 0 := by
      rintro rfl
      simp [bitLen_zero] at hn
    have hle : 2 ^ n ≤ 2 ^ (bitLen x - 1) := Nat.pow_le_pow_right (by decide) (by omega)
    exact absurd h (Nat.not_lt.mpr (hle.trans (pow_le_of_ne_zero hx)))

theorem bitLen_eq (hle : 2 ^ n ≤ x) (hlt : x < 2 ^ (n + 1)) : bitLen x = n + 1 := by
  refine Nat.le_antisymm (bitLen_le_iff.mpr hlt) (Nat.lt_of_not_le fun h => ?_)
  exact absurd (bitLen_le_iff.mp h) (Nat.not_lt.mpr hle)

/-- The low bits do not count where there are higher ones. -/
theorem bitLen_add_mul {a : Nat} (ha : a < 2 ^ k) (hx : x ≠ 0) :
    bitLen (a + 2 ^ k * x) = k + bitLen x := by
  have hpos := bitLen_pos hx
  have hlow := pow_le_of_ne_zero hx
  have hhigh := lt_pow_bitLen x
  have hle : 2 ^ k * 2 ^ (bitLen x - 1) ≤ 2 ^ k * x := Nat.mul_le_mul_left _ hlow
  have hlt : 2 ^ k * (x + 1) ≤ 2 ^ k * 2 ^ bitLen x := Nat.mul_le_mul_left _ hhigh
  rw [← Nat.pow_add] at hle hlt
  rw [Nat.mul_succ] at hlt
  have heq := bitLen_eq (x := a + 2 ^ k * x) (n := k + (bitLen x - 1)) (by omega)
    (by rw [show k + (bitLen x - 1) + 1 = k + bitLen x by omega]; omega)
  omega

theorem bitLen_mono (h : x ≤ y) : bitLen x ≤ bitLen y :=
  bitLen_le_iff.mpr (h.trans_lt (lt_pow_bitLen y))

/-! ## The rounding projection -/

variable (S : Schedule)

theorem round_zero : S.round 0 = 0 := by
  simp [Schedule.round]

theorem round_le (x : Nat) : S.round x ≤ x :=
  Nat.div_mul_le_self x _

theorem lt_round_add (x : Nat) : x < S.round x + 2 ^ S.drop (bitLen x) := by
  have hdiv := Nat.div_add_mod x (2 ^ S.drop (bitLen x))
  rw [Nat.mul_comm] at hdiv
  unfold Schedule.round
  omega

/-- The highest bit survives the rounding. -/
theorem pow_le_round (h : x ≠ 0) : 2 ^ (bitLen x - 1) ≤ S.round x := by
  have hk := S.keep (bitLen_pos h)
  have hsplit :
      2 ^ (bitLen x - 1) = 2 ^ (bitLen x - 1 - S.drop (bitLen x)) * 2 ^ S.drop (bitLen x) := by
    rw [← Nat.pow_add]
    congr 1
    omega
  have hx := pow_le_of_ne_zero h
  rw [hsplit] at hx ⊢
  exact Nat.mul_le_mul_right _ ((Nat.le_div_iff_mul_le (Nat.two_pow_pos _)).mpr hx)

theorem bitLen_round (x : Nat) : bitLen (S.round x) = bitLen x := by
  by_cases h : x = 0
  · rw [h, round_zero]
  · have hpos := bitLen_pos h
    have hlt : S.round x < 2 ^ (bitLen x - 1 + 1) := by
      rw [Nat.sub_add_cancel hpos]
      exact (round_le S x).trans_lt (lt_pow_bitLen x)
    rw [bitLen_eq (pow_le_round S h) hlt, Nat.sub_add_cancel hpos]

theorem round_eq_zero_iff : S.round x = 0 ↔ x = 0 := by
  constructor
  · intro h
    by_contra hx
    have hle := pow_le_round S hx
    have hpos := Nat.two_pow_pos (bitLen x - 1)
    omega
  · rintro rfl
    exact round_zero S

theorem round_mono (h : x ≤ y) : S.round x ≤ S.round y := by
  rcases Nat.lt_or_ge (bitLen x) (bitLen y) with hlt | hge
  · -- a longer number keeps its highest bit, which alone exceeds the shorter one
    have hy : y ≠ 0 := by
      rintro rfl
      simp [bitLen_zero] at hlt
    have hxlt : x < 2 ^ (bitLen y - 1) := bitLen_le_iff.mp (by omega)
    exact (round_le S x).trans (hxlt.le.trans (pow_le_round S hy))
  · have heq : bitLen x = bitLen y := le_antisymm (bitLen_mono h) hge
    unfold Schedule.round
    rw [heq]
    exact Nat.mul_le_mul_right _ (Nat.div_le_div_right h)

theorem round_eq_self (hdvd : 2 ^ k ∣ x) (h : S.drop (bitLen x) ≤ k) : S.round x = x :=
  Nat.div_mul_cancel (Nat.dvd_trans (Nat.pow_dvd_pow 2 h) hdvd)

/-- Numbers of at most `l` bits that round to the same value differ by less than
the unit that `l` bits lose. -/
theorem close_of_round_eq {l : Nat} (hl : bitLen x ≤ l) (h : S.round x = S.round y) :
    x < y + 2 ^ S.drop l := by
  calc x < S.round x + 2 ^ S.drop (bitLen x) := lt_round_add S x
    _ ≤ y + 2 ^ S.drop l := by
      rw [h]
      exact Nat.add_le_add (round_le S y) (Nat.pow_le_pow_right (by decide) (S.mono hl))

end RoundDown
