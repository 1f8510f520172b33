import Mathlib.Algebra.Group.Nat.Defs

/-!
# Numbers as strings of bits

`msb n x` are the `n` low bits of `x`, the highest first. Bits can be cut off at the top
(`msb_add`), and a string determines its bits (`msb_eq_iff`) and its number (`mod_eq_of_msb`,
`mod_two_pow_split`). -/

/-- The `n` low bits of `x`, the highest first. -/
def msb : Nat → Nat → List Bool
  | 0, _ => []
  | n + 1, x => x.testBit n :: msb n x

@[simp]
theorem length_msb (n x : Nat) : (msb n x).length = n := by
  induction n with
  | zero => rfl
  | succ n ih => rw [msb, List.length_cons, ih]

theorem msb_eq_iff {n x y : Nat} : msb n x = msb n y ↔ ∀ i < n, x.testBit i = y.testBit i := by
  induction n with
  | zero => exact ⟨fun _ _ hi => absurd hi (Nat.not_lt_zero _), fun _ => rfl⟩
  | succ n ih =>
    rw [msb, msb, List.cons.injEq, ih]
    constructor
    · rintro ⟨htop, hlow⟩ i hi
      cases Nat.lt_succ_iff_lt_or_eq.mp hi with
      | inl hi => exact hlow i hi
      | inr hi => rw [hi, htop]
    · exact fun h => ⟨h n n.lt_succ_self, fun i hi => h i (Nat.lt_succ_of_lt hi)⟩

theorem mod_eq_of_msb {n x y : Nat} (h : msb n x = msb n y) : x % 2 ^ n = y % 2 ^ n := by
  refine Nat.eq_of_testBit_eq fun i => ?_
  rw [Nat.testBit_mod_two_pow, Nat.testBit_mod_two_pow]
  by_cases hi : i < n
  · rw [msb_eq_iff.mp h i hi]
  · simp [hi]

theorem msb_add (m n x : Nat) : msb (m + n) x = msb m (x >>> n) ++ msb n x := by
  induction m with
  | zero => rw [Nat.zero_add, msb, List.nil_append]
  | succ m ih => rw [Nat.add_right_comm, msb, msb, ih, Nat.testBit_shiftRight, Nat.add_comm m n,
      List.cons_append]

theorem msb_split {k n : Nat} (h : k ≤ n) (x : Nat) :
    msb n x = msb k (x >>> (n - k)) ++ msb (n - k) x := by
  rw [← msb_add, Nat.add_sub_cancel' h]

/-- Strings that agree at the start have the same high bits. -/
theorem msb_append_inj {n x y : Nat} {s t : List Bool} (h : msb n x ++ s = msb n y ++ t) :
    x % 2 ^ n = y % 2 ^ n ∧ s = t := by
  obtain ⟨hxy, hst⟩ := List.append_inj h (by rw [length_msb, length_msb])
  exact ⟨mod_eq_of_msb hxy, hst⟩

theorem msb_ones {n k : Nat} (h : n ≤ k) : msb n (2 ^ k - 1) = List.replicate n true := by
  induction n with
  | zero => rfl
  | succ n ih => rw [msb, ih (Nat.le_of_succ_le h), Nat.testBit_two_pow_sub_one,
      decide_eq_true (Nat.lt_of_succ_le h), List.replicate_succ]

/-- The number of the `n` low bits from its `k` highest bits and the others. -/
theorem mod_two_pow_split {k n : Nat} (h : k ≤ n) (x : Nat) :
    x % 2 ^ n = (x >>> (n - k)) % 2 ^ k * 2 ^ (n - k) + x % 2 ^ (n - k) := by
  have hpow : 2 ^ n = 2 ^ (n - k) * 2 ^ k := by rw [← Nat.pow_add, Nat.sub_add_cancel h]
  rw [hpow, Nat.mod_mul, Nat.shiftRight_eq_div_pow, Nat.add_comm, Nat.mul_comm]
