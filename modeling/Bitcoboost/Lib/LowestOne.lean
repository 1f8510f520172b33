import Mathlib.Data.Nat.Bitwise
import Mathlib.Data.Nat.Digits.Lemmas

/-!
# Clearing the lowest one

`n &&& (n - 1)` is `n` without its lowest binary digit that is one. It is described along
the binary digits: by what it does to `2 * n` and `2 * n + 1`. Clearing counts the ones down.
-/

namespace LowestOne

open Nat

/-- The number without its lowest one. -/
def clear (n : Nat) : Nat := n &&& (n - 1)

def ones (n : Nat) : Nat := (Nat.digits 2 n).sum

theorem clear_two_mul_add_one (n : Nat) : clear (2 * n + 1) = 2 * n := by
  unfold clear
  rw [Nat.add_sub_cancel]
  apply eq_of_testBit_eq
  intro i
  cases i with
  | zero => simp
  | succ i =>
    rw [Nat.testBit_and, Nat.testBit_succ, Nat.testBit_succ, Nat.mul_add_div (by decide),
      Nat.mul_div_cancel_left _ (by decide)]
    exact Bool.and_self _

variable {n j : Nat}

theorem clear_two_mul (h : n ≠ 0) : clear (2 * n) = 2 * clear n := by
  obtain ⟨m, rfl⟩ := exists_eq_succ_of_ne_zero h
  have hpred : 2 * (m + 1) - 1 = 2 * m + 1 := by omega
  unfold clear
  rw [Nat.succ_eq_add_one, hpred, Nat.add_sub_cancel]
  apply eq_of_testBit_eq
  intro i
  cases i with
  | zero => simp
  | succ i =>
    rw [testBit_and, testBit_succ, testBit_succ, testBit_succ, mul_add_div (by decide),
      Nat.mul_div_cancel_left _ (by decide), Nat.mul_div_cancel_left _ (by decide), Nat.testBit_and]
    rfl

/-- Every number is zero, even or odd, and the last two have a smaller number to go on with. -/
theorem induction {P : Nat → Prop} (zero : P 0) (even : ∀ n, n ≠ 0 → P n → P (2 * n))
    (odd : ∀ n, P n → P (2 * n + 1)) (n : Nat) : P n := by
  induction n using Nat.strongRecOn with
  | ind n ih =>
    rcases even_or_odd' n with ⟨m, rfl | rfl⟩
    · by_cases hm : m = 0
      · rw [hm]
        exact zero
      · exact even m hm (ih m (by omega))
    · exact odd m (ih m (by omega))

theorem clear_lt (h : n ≠ 0) : clear n < n := by
  have hle : clear n ≤ n - 1 := and_le_right
  omega

/-- Higher digits stay. -/
theorem clear_add {x : Nat} (c : Nat) (hx : x ≠ 0) (hlt : x < 2 ^ j) :
    clear (c * 2 ^ j + x) = c * 2 ^ j + clear x := by
  induction j generalizing x with
  | zero => omega
  | succ j ih =>
    rw [pow_succ] at hlt ⊢
    have hsplit : ∀ y, c * (2 ^ j * 2) + 2 * y = 2 * (c * 2 ^ j + y) := fun y => by
      rw [← mul_assoc]
      omega
    rcases even_or_odd' x with ⟨y, rfl | rfl⟩
    · have hy : y ≠ 0 := by omega
      rw [hsplit, clear_two_mul (by omega), clear_two_mul hy, ih hy (by omega), hsplit]
    · rw [← add_assoc, hsplit, clear_two_mul_add_one, clear_two_mul_add_one, hsplit]

theorem clear_mul_two_pow (c j : Nat) : clear ((2 * c + 1) * 2 ^ j) = 2 * c * 2 ^ j := by
  induction j with
  | zero => rw [pow_zero, mul_one, mul_one, clear_two_mul_add_one]
  | succ j ih =>
    have hpos : (2 * c + 1) * 2 ^ j ≠ 0 :=
      Nat.mul_ne_zero (Nat.succ_ne_zero _) (Nat.two_pow_pos j).ne'
    rw [Nat.pow_succ', Nat.mul_left_comm, clear_two_mul hpos, ih, Nat.mul_left_comm]

/-! ## Counting -/

@[simp] theorem ones_zero : ones 0 = 0 := by simp [ones]

theorem ones_two_mul (n : Nat) : ones (2 * n) = ones n := by
  by_cases h : n = 0
  · rw [h]
  · have hdigits := digits_add 2 (by decide) 0 n (by decide) (.inr h)
    rw [zero_add] at hdigits
    rw [ones, hdigits, List.sum_cons, zero_add, ones]

theorem ones_two_mul_add_one (n : Nat) : ones (2 * n + 1) = ones n + 1 := by
  have hdigits := digits_add 2 (by decide) 1 n (by decide) (.inl (by decide))
  rw [add_comm, ones, hdigits, List.sum_cons, add_comm, ones]

theorem ones_clear (h : n ≠ 0) : ones (clear n) + 1 = ones n := by
  induction n using induction with
  | zero => exact absurd rfl h
  | even n hn ih => rw [clear_two_mul hn, ones_two_mul, ones_two_mul, ih hn]
  | odd n _ => rw [clear_two_mul_add_one, ones_two_mul, ones_two_mul_add_one]

theorem ones_le (h : n < 2 ^ j) : ones n ≤ j := by
  induction j generalizing n with
  | zero =>
    rw [Nat.lt_one_iff.mp h, ones_zero]
  | succ j ih =>
    rcases even_or_odd' n with ⟨m, rfl | rfl⟩
    · rw [ones_two_mul]
      exact (ih (by omega)).trans (le_succ j)
    · rw [ones_two_mul_add_one]
      exact succ_le_succ (ih (by omega))

end LowestOne
