import Mathlib.Data.Nat.Digits.Lemmas

/-!
# Numbers in limbs

A number as a list of machine words, the lowest first. What a loop with a carry writes is
the sum modulo the length of the list (`carry_step`); the high and the low part of a shifted
word do not overlap (`shiftLeft_split`, `shiftRight_or`).
-/

namespace Limbs

open List BitVec

variable {w : Nat}

/-- The number that the words denote. -/
def value (xs : List (BitVec w)) : Nat := Nat.ofDigits (2 ^ w) (xs.map BitVec.toNat)

@[simp] theorem value_nil : value ([] : List (BitVec w)) = 0 := rfl

@[simp] theorem value_cons (x : BitVec w) (xs : List (BitVec w)) :
    value (x :: xs) = x.toNat + 2 ^ w * value xs :=
  Nat.ofDigits_cons

theorem value_append (xs ys : List (BitVec w)) :
    value (xs ++ ys) = value xs + (2 ^ w) ^ xs.length * value ys := by
  simp [value, Nat.ofDigits_append]

theorem value_replicate_zero (n : Nat) : value (List.replicate n (0#w)) = 0 := by
  simp [value]

variable (xs : List (BitVec w)) {s i : Nat}

theorem value_lt : value xs < (2 ^ w) ^ xs.length := by
  induction xs with
  | nil => simp
  | cons x xs ih =>
    rw [value_cons, length_cons, pow_succ']
    have hx := x.isLt
    calc x.toNat + 2 ^ w * value xs < 2 ^ w + 2 ^ w * value xs := Nat.add_lt_add_right hx _
      _ = 2 ^ w * (value xs + 1) := by ring
      _ ≤ 2 ^ w * (2 ^ w) ^ xs.length := Nat.mul_le_mul_left _ ih

/-- The low words of a number. -/
theorem value_extract {m : Nat} (a : BitVec m) (n : Nat) :
    value ((List.range n).map fun i => a.extractLsb' (w * i) w) = a.toNat % (2 ^ w) ^ n := by
  induction n with
  | zero => rw [pow_zero, Nat.mod_one]; rfl
  | succ n ih =>
    rw [range_succ, map_append, value_append, ih, length_map, length_range,
      map_singleton, value_cons,
      value_nil, Nat.mul_zero, Nat.add_zero, BitVec.extractLsb'_toNat, Nat.shiftRight_eq_div_pow,
      pow_mul, Nat.mod_pow_succ]

theorem value_take_drop {n : Nat} (h : n ≤ xs.length) :
    value (xs.take n) = value xs % (2 ^ w) ^ n ∧ value (xs.drop n) = value xs / (2 ^ w) ^ n := by
  have hlength : (xs.take n).length = n := length_take_of_le h
  have hsplit := value_append (xs.take n) (xs.drop n)
  have hlt := value_lt (xs.take n)
  have hpos : 0 < (2 ^ w) ^ n := Nat.pow_pos (Nat.two_pow_pos w)
  rw [take_append_drop, hlength] at hsplit
  rw [hlength] at hlt
  rw [hsplit, Nat.add_mul_mod_self_left, Nat.add_mul_div_left _ _ hpos, Nat.mod_eq_of_lt hlt,
    Nat.div_eq_of_lt hlt]
  exact ⟨rfl, (Nat.zero_add _).symm⟩

/-- The lowest word and the carry of a sum. -/
theorem carry_step (n m k : Nat) :
    (n + 2 ^ w * m) % (2 ^ w) ^ (k + 1) = n % 2 ^ w + 2 ^ w * ((m + n / 2 ^ w) % (2 ^ w) ^ k) := by
  rw [pow_succ', Nat.mod_mul, Nat.add_mul_mod_self_left,
    Nat.add_mul_div_left _ _ (Nat.two_pow_pos w), Nat.add_comm m]

/-- A word is what it is modulo any number of words. -/
theorem word_step (x : BitVec w) (m k : Nat) :
    (x.toNat + 2 ^ w * m) % (2 ^ w) ^ (k + 1) = x.toNat + 2 ^ w * (m % (2 ^ w) ^ k) := by
  have h := carry_step (w := w) x.toNat m k
  rw [Nat.mod_eq_of_lt x.isLt, Nat.div_eq_of_lt x.isLt] at h
  exact h

/-- The words with all bits inverted. -/
theorem value_complement : value (xs.map (~~~ ·)) + value xs + 1 = (2 ^ w) ^ xs.length := by
  induction xs with
  | nil => simp
  | cons x xs ih =>
    have hx : (~~~x).toNat + x.toNat + 1 = 2 ^ w := by
      have := x.isLt
      rw [toNat_not]
      omega
    rw [map_cons, value_cons, value_cons, length_cons, pow_succ', ← ih]
    calc (~~~x).toNat + 2 ^ w * value (xs.map (~~~ ·)) + (x.toNat + 2 ^ w * value xs) + 1
        = ((~~~x).toNat + x.toNat + 1) + 2 ^ w * (value (xs.map (~~~ ·)) + value xs) := by ring
      _ = 2 ^ w * (value (xs.map (~~~ ·)) + value xs + 1) := by rw [hx]; ring

/-- One word is replaced. -/
theorem value_modify (f : BitVec w → BitVec w) {xs : List (BitVec w)} (hi : i < xs.length) :
    value (xs.modify i f) + xs[i].toNat * (2 ^ w) ^ i =
      value xs + (f xs[i]).toNat * (2 ^ w) ^ i := by
  induction xs generalizing i with
  | nil => cases hi
  | cons x xs ih =>
    cases i with
    | zero =>
      rw [modify_zero_cons, value_cons, value_cons]
      simp only [getElem_cons_zero, pow_zero, Nat.mul_one]
      omega
    | succ i =>
      have hi' : i < xs.length := Nat.lt_of_succ_lt_succ hi
      have h := ih hi'
      rw [modify_succ_cons, value_cons, value_cons]
      simp only [getElem_cons_succ, pow_succ']
      calc _ = x.toNat + 2 ^ w * (value (xs.modify i f) + xs[i].toNat * (2 ^ w) ^ i) := by ring
        _ = _ := by rw [h]; ring

/-- A word is a digit of the number. -/
theorem getElem_eq {xs : List (BitVec w)} (hi : i < xs.length) :
    xs[i].toNat = value xs / (2 ^ w) ^ i % 2 ^ w := by
  induction xs generalizing i with
  | nil => cases hi
  | cons x xs ih =>
    have hdiv : (x.toNat + 2 ^ w * value xs) / 2 ^ w = value xs := by
      rw [Nat.add_mul_div_left _ _ (Nat.two_pow_pos w), Nat.div_eq_of_lt x.isLt, Nat.zero_add]
    cases i with
    | zero =>
      rw [value_cons, pow_zero, Nat.div_one, Nat.add_mul_mod_self_left, Nat.mod_eq_of_lt x.isLt]
      rfl
    | succ i =>
      rw [getElem_cons_succ, ih, value_cons, pow_succ', ← Nat.div_div_eq_div_mul, hdiv]

/-! ## Shifted words -/

theorem shiftLeft_split (x : BitVec w) (hs : s ≤ w) :
    x.toNat * 2 ^ s = (x <<< s).toNat + 2 ^ w * (x.toNat / 2 ^ (w - s)) := by
  have hpow : 2 ^ w = 2 ^ (w - s) * 2 ^ s := by rw [← Nat.pow_add, Nat.sub_add_cancel hs]
  have hdiv : x.toNat * 2 ^ s / 2 ^ w = x.toNat / 2 ^ (w - s) := by
    rw [hpow, Nat.mul_div_mul_right _ _ (Nat.two_pow_pos s)]
  rw [toNat_shiftLeft, Nat.shiftLeft_eq, ← hdiv, Nat.mod_add_div]

/-- The low bits of a word that was shifted to the left are free. -/
theorem shiftLeft_or (x c : BitVec w) (hs : s ≤ w) (hc : c.toNat < 2 ^ s) :
    ((x <<< s) ||| c).toNat = (x <<< s).toNat + c.toNat := by
  have hpow : 2 ^ w = 2 ^ s * 2 ^ (w - s) := by rw [← Nat.pow_add, Nat.add_sub_cancel' hs]
  have hmul : (x <<< s).toNat = 2 ^ s * (x.toNat % 2 ^ (w - s)) := by
    rw [toNat_shiftLeft, Nat.shiftLeft_eq, hpow, Nat.mul_comm, Nat.mul_mod_mul_left]
  rw [toNat_or, hmul, Nat.two_pow_add_eq_or_of_lt hc]

/-- The high bits of a word that was shifted to the right are free. -/
theorem shiftRight_or (x y : BitVec w) (hs : s ≤ w) :
    ((x >>> s) ||| (y <<< (w - s))).toNat = x.toNat / 2 ^ s + y.toNat % 2 ^ s * 2 ^ (w - s) := by
  have hpow : 2 ^ w = 2 ^ (w - s) * 2 ^ s := by rw [← Nat.pow_add, Nat.sub_add_cancel hs]
  have hlt : x.toNat / 2 ^ s < 2 ^ (w - s) :=
    Nat.div_lt_of_lt_mul (by rw [Nat.mul_comm, ← hpow]; exact x.isLt)
  have hmul : (y <<< (w - s)).toNat = 2 ^ (w - s) * (y.toNat % 2 ^ s) := by
    rw [toNat_shiftLeft, Nat.shiftLeft_eq, hpow, Nat.mul_comm, Nat.mul_mod_mul_left]
  rw [toNat_or, hmul, toNat_ushiftRight, Nat.shiftRight_eq_div_pow, Nat.or_comm,
    ← Nat.two_pow_add_eq_or_of_lt hlt, Nat.add_comm, Nat.mul_comm (y.toNat % 2 ^ s)]

end Limbs
