import Bitcoboost.Chain.SkipList

/-!
# The number of entries that `GetAncestor` goes to

The heights below `2 ^ k` are halved again and again. In the upper half of a block of
`2 ^ (j + 1)` heights the loop clears ones of the height, with two steps for one of them at
most, and then it goes on in the lower half. So a block costs at most `2 * j + 1` steps more
than its half, which adds up to the square of the number of digits.
-/

namespace Bitcoboost.BlockTree

open LowestOne Nat

/-! ## Heights by their last digit -/

theorem getSkipHeight_even (m : Nat) : getSkipHeight (2 * m) = clear (2 * m) := by
  unfold getSkipHeight
  by_cases hm : m = 0
  · rw [hm]
    rfl
  · rw [if_neg (by omega), if_neg (by omega)]
    rfl

theorem getSkipHeight_odd {m : Nat} (hm : m ≠ 0) :
    getSkipHeight (2 * m + 1) = clear (clear (2 * m)) + 1 := by
  unfold getSkipHeight
  rw [if_neg (by omega), if_pos (by omega)]
  rfl

theorem clear_le (n : Nat) : clear n ≤ n := and_le_left

/-- From an odd height the loop follows the pointer whenever it is not too far. -/
theorem nextHeight_of_odd {t m : Nat} (hm : m ≠ 0) :
    nextHeight t (2 * m + 1) = if t ≤ getSkipHeight (2 * m + 1) then getSkipHeight (2 * m + 1)
    else 2 * m := by
  have hprev : ¬getSkipHeight (2 * m) + 2 < getSkipHeight (2 * m + 1) := by
    rw [getSkipHeight_even, getSkipHeight_odd hm]
    have := clear_le (clear (2 * m))
    omega
  have hiff : FollowsSkip t (2 * m + 1) ↔ t ≤ getSkipHeight (2 * m + 1) := by
    simp only [FollowsSkip, Nat.add_sub_cancel, hprev, false_and, not_false_eq_true, and_true]
    omega
  unfold nextHeight
  simp only [hiff, Nat.add_sub_cancel]

/-- From an even height, where the pointer is not too far, the loop only steps to the height
before if the pointer from there is much better. -/
theorem nextHeight_of_even {t m : Nat} (h : t < getSkipHeight (2 * m)) :
    nextHeight t (2 * m) = clear (2 * m) ∨
      (nextHeight t (2 * m) = 2 * m - 1 ∧ getSkipHeight (2 * m - 1) + 2 < clear (2 * m) ∧
        t ≤ getSkipHeight (2 * m - 1)) := by
  unfold nextHeight
  split
  · exact .inl (getSkipHeight_even m)
  · next hnot =>
    simp only [FollowsSkip, getSkipHeight_even] at hnot h
    exact .inr ⟨rfl, by omega, by omega⟩

/-! ## The upper half of a block -/

section Block

variable {c j x t y : Nat}

theorem even_middle (c : Nat) (hj : 1 ≤ j) : ∃ n, n ≠ 0 ∧ (2 * c + 1) * 2 ^ j = 2 * n := by
  obtain ⟨i, rfl⟩ := Nat.exists_eq_add_of_le' hj
  exact ⟨(2 * c + 1) * 2 ^ i, Nat.mul_ne_zero (Nat.succ_ne_zero _) (Nat.two_pow_pos i).ne',
    by rw [Nat.pow_succ']; ring⟩

theorem ones_pred_le (h : y % 4 ≠ 0) : ones (y - 1) ≤ ones y := by
  rcases even_or_odd' y with ⟨n, rfl | rfl⟩
  · rcases even_or_odd' n with ⟨k, rfl | rfl⟩
    · omega
    · rw [show 2 * (2 * k + 1) - 1 = 2 * (2 * k) + 1 by omega, ones_two_mul_add_one, ones_two_mul,
        ones_two_mul, ones_two_mul_add_one]
  · rw [Nat.add_sub_cancel, ones_two_mul, ones_two_mul_add_one]
    exact le_succ _

/-- From a multiple of eight the pointer leads further than the one from the height before. -/
theorem clear_le_of_eight {k : Nat} (hlt : 8 * (k + 1) < 2 ^ j) :
    clear (c * 2 ^ j + 8 * (k + 1)) ≤ clear (clear (c * 2 ^ j + (8 * k + 6))) := by
  have hsix : clear (8 * k + 6) = 8 * k + 4 := by
    rw [show 8 * k + 6 = 2 * (2 * (2 * k + 1) + 1) by omega, clear_two_mul (by omega),
      clear_two_mul_add_one]
    omega
  have hfour : clear (8 * k + 4) = 8 * k := by
    rw [show 8 * k + 4 = 2 * (2 * (2 * k + 1)) by omega, clear_two_mul (by omega),
      clear_two_mul (by omega), clear_two_mul_add_one]
    omega
  have height : clear (8 * (k + 1)) = 8 * clear (k + 1) := by
    rw [show 8 * (k + 1) = 2 * (2 * (2 * (k + 1))) by omega, clear_two_mul (by omega),
      clear_two_mul (by omega), clear_two_mul (by omega)]
    omega
  have hclear : clear (k + 1) < k + 1 := clear_lt (succ_ne_zero k)
  rw [clear_add c (by omega) hlt, clear_add c (by omega) (by omega), hsix,
    clear_add c (by omega) (by omega), hfour, height]
  omega

theorem nextHeight_upper_even (hj : 1 ≤ j) (hy : y ≠ 0) (hlt : 2 * y < 2 ^ j)
    (ht : t < (2 * c + 1) * 2 ^ j) :
    nextHeight t ((2 * c + 1) * 2 ^ j + 2 * y) = (2 * c + 1) * 2 ^ j + clear (2 * y) ∨
      (nextHeight t ((2 * c + 1) * 2 ^ j + 2 * y) = (2 * c + 1) * 2 ^ j + (2 * (y - 1) + 1) ∧
        t ≤ getSkipHeight ((2 * c + 1) * 2 ^ j + (2 * (y - 1) + 1)) ∧ ones (y - 1) ≤ ones y) := by
  obtain ⟨n, hn, hM⟩ := even_middle c hj
  have hh : (2 * c + 1) * 2 ^ j + 2 * y = 2 * (n + y) := by omega
  have hpred : 2 * (n + y) - 1 = (2 * c + 1) * 2 ^ j + (2 * (y - 1) + 1) := by omega
  have hodd : (2 * c + 1) * 2 ^ j + (2 * (y - 1) + 1) = 2 * (n + (y - 1)) + 1 := by omega
  have hclear : clear (2 * (n + y)) = (2 * c + 1) * 2 ^ j + clear (2 * y) := by
    rw [← hh]
    exact clear_add _ (by omega) hlt
  have hskip : t < getSkipHeight (2 * (n + y)) := by
    rw [getSkipHeight_even, hclear]
    omega
  rw [hh]
  rcases nextHeight_of_even hskip with heq | ⟨heq, hfar, hnear⟩
  · exact .inl (heq.trans hclear)
  · rw [hpred] at heq hfar hnear
    refine .inr ⟨heq, hnear, ones_pred_le fun hfour => ?_⟩
    obtain ⟨k, rfl⟩ : ∃ k, y = 4 * (k + 1) := ⟨y / 4 - 1, by omega⟩
    have height := clear_le_of_eight (c := 2 * c + 1) (k := k) (j := j) (by omega)
    rw [hodd, getSkipHeight_odd (by omega), show 2 * (n + (4 * (k + 1) - 1)) = (2 * c + 1) * 2 ^ j +
      (8 * k + 6) by omega, ← hh, show 2 * (4 * (k + 1)) = 8 * (k + 1) by omega] at hfar
    omega

theorem nextHeight_upper_odd {z : Nat} (hj : 1 ≤ j) (hlt : 2 * z + 1 < 2 ^ j)
    (hlow : 2 * c * 2 ^ j ≤ t) :
    (nextHeight t ((2 * c + 1) * 2 ^ j + (2 * z + 1)) = (2 * c + 1) * 2 ^ j + 2 * z ∧
        ¬t ≤ getSkipHeight ((2 * c + 1) * 2 ^ j + (2 * z + 1))) ∨
      (nextHeight t ((2 * c + 1) * 2 ^ j + (2 * z + 1)) =
        (2 * c + 1) * 2 ^ j + (clear (clear (2 * z)) + 1) ∧ clear (2 * z) ≠ 0) ∨
      nextHeight t ((2 * c + 1) * 2 ^ j + (2 * z + 1)) = 2 * c * 2 ^ j + 1 := by
  obtain ⟨n, hn, hM⟩ := even_middle c hj
  have hh : (2 * c + 1) * 2 ^ j + (2 * z + 1) = 2 * (n + z) + 1 := by omega
  have hskip := getSkipHeight_odd (m := n + z) (by omega)
  have hmiddle : clear ((2 * c + 1) * 2 ^ j + 0) = 2 * c * 2 ^ j := clear_mul_two_pow c j
  rw [hh, nextHeight_of_odd (by omega), hskip,
    show 2 * (n + z) = (2 * c + 1) * 2 ^ j + 2 * z by omega]
  split
  · next hle =>
    right
    by_cases hz : z = 0
    · -- The pointer is from the lowest height of the block, which is no higher than `t`.
      rw [hz, mul_zero, hmiddle] at hle ⊢
      right
      by_cases hzero : 2 * c * 2 ^ j = 0
      · rw [hzero]
        rfl
      · obtain ⟨i, rfl⟩ := Nat.exists_eq_add_of_le' hj
        have heven : clear (2 * c * 2 ^ (i + 1)) = 2 * clear (2 * c * 2 ^ i) := by
          rw [pow_succ', mul_left_comm, clear_two_mul
            (by rw [pow_succ', mul_left_comm] at hzero; omega)]
        have heven' : 2 * c * 2 ^ (i + 1) = 2 * (2 * c * 2 ^ i) := by rw [pow_succ', mul_left_comm]
        have := clear_lt hzero
        omega
    · rw [clear_add _ (by omega) (by omega)] at hle ⊢
      by_cases hone : clear (2 * z) = 0
      · right
        rw [hone, hmiddle]
      · left
        rw [clear_add _ hone ((clear_le _).trans_lt (by omega))]
        exact ⟨by omega, hone⟩
  · next hle => exact .inl ⟨rfl, hle⟩

theorem steps_of_lt (h : t < x) : steps t x = steps t (nextHeight t x) + 1 := by
  rw [steps, if_pos h]

theorem steps_of_le (h : x ≤ t) : steps t x = 0 := by
  rw [steps, if_neg (Nat.not_lt_of_le h)]

theorem steps_succ_le (h : x ≤ t + 1) : steps t x ≤ 1 := by
  rcases lt_or_ge t x with hlt | hle
  · have hnext := nextHeight_lt hlt
    rw [steps_of_lt hlt, steps_of_le (by omega)]
  · rw [steps_of_le hle]
    exact zero_le 1

/-- The loop from the upper half to the lower half, where `cost` is what the lower half costs at
most. -/
theorem steps_upper_le {cost : Nat} (hj : 1 ≤ j) (hlow : 2 * c * 2 ^ j ≤ t)
    (hhigh : t < (2 * c + 1) * 2 ^ j) (hcost : steps t ((2 * c + 1) * 2 ^ j - 1) ≤ cost) (y : Nat) :
    (2 * y < 2 ^ j → steps t ((2 * c + 1) * 2 ^ j + 2 * y) ≤ cost + 1 + 2 * ones y) ∧
      (2 * y + 1 < 2 ^ j → steps t ((2 * c + 1) * 2 ^ j + (2 * y + 1)) ≤ cost + 2 + 2 * ones y ∧
        (t ≤ getSkipHeight ((2 * c + 1) * 2 ^ j + (2 * y + 1)) →
          steps t ((2 * c + 1) * 2 ^ j + (2 * y + 1)) ≤ cost + 1 + max (2 * ones y - 2) 1)) := by
  induction y using Nat.strongRecOn with
  | ind y ih =>
    have heven : 2 * y < 2 ^ j → steps t ((2 * c + 1) * 2 ^ j + 2 * y) ≤ cost + 1 + 2 * ones y := by
      intro hlt
      rw [steps_of_lt (by omega)]
      by_cases hy : y = 0
      · obtain ⟨n, hn, hM⟩ := even_middle c hj
        have hskip : getSkipHeight ((2 * c + 1) * 2 ^ j) = 2 * c * 2 ^ j := by
          rw [← clear_mul_two_pow c j, hM, getSkipHeight_even]
        rw [hy, mul_zero, ones_zero]
        unfold nextHeight
        split
        · rw [add_zero, hskip, steps_of_le hlow]
          omega
        · rw [add_zero]
          omega
      · have hones := ones_clear hy
        rcases nextHeight_upper_even hj hy hlt hhigh with hnext | ⟨hnext, hnear, hle⟩
        · have hlt' := clear_lt hy
          have := (ih (clear y) hlt').1 (by omega)
          rw [hnext, clear_two_mul hy]
          omega
        · have := ((ih (y - 1) (by omega)).2 (by omega)).2 hnear
          rw [hnext]
          omega
    refine ⟨heven, fun hlt => ?_⟩
    rw [steps_of_lt (by omega)]
    rcases nextHeight_upper_odd hj hlt hlow with ⟨hnext, hfar⟩ | ⟨hnext, hne⟩ | hnext
    · have := heven (by omega)
      rw [hnext]
      exact ⟨by omega, fun hnear => absurd hnear hfar⟩
    · have hy : y ≠ 0 := by
        rintro rfl
        exact hne rfl
      rw [clear_two_mul hy] at hne hnext
      have hclear : clear y ≠ 0 := by omega
      have hlt' : clear (clear y) < y := (clear_lt hclear).trans (clear_lt hy)
      have hbound := ((ih _ hlt').2 (by omega)).1
      have hones := ones_clear hy
      have hones' := ones_clear hclear
      rw [hnext, clear_two_mul hclear]
      exact ⟨by omega, fun _ => by omega⟩
    · have hbound := steps_succ_le (show 2 * c * 2 ^ j + 1 ≤ t + 1 by omega)
      rw [hnext]
      exact ⟨by omega, fun _ => by omega⟩

theorem steps_block_le (c j : Nat) {t h : Nat} (hlow : c * 2 ^ j ≤ t) (hle : t ≤ h)
    (hhigh : h < (c + 1) * 2 ^ j) : steps t h ≤ j * j := by
  induction j generalizing c h with
  | zero =>
    exact (steps_of_le (by omega)).le
  | succ j ih =>
    have hB : c * 2 ^ (j + 1) = 2 * c * 2 ^ j := by rw [pow_succ']; ring
    have hE : (c + 1) * 2 ^ (j + 1) = (2 * c + 1 + 1) * 2 ^ j := by rw [pow_succ']; ring
    have hsq : (j + 1) * (j + 1) = j * j + 2 * j + 1 := by ring
    rw [hB] at hlow
    rw [hE] at hhigh
    rcases lt_or_ge h ((2 * c + 1) * 2 ^ j) with hlt | hge
    · exact (ih (2 * c) hlow hle hlt).trans (by omega)
    rcases lt_or_ge t ((2 * c + 1) * 2 ^ j) with htlt | htge
    · have hE' : (2 * c + 1 + 1) * 2 ^ j = (2 * c + 1) * 2 ^ j + 2 ^ j := succ_mul _ _
      obtain ⟨x, rfl⟩ := Nat.exists_eq_add_of_le hge
      have hx : x < 2 ^ j := by omega
      cases j with
      | zero =>
        exact steps_succ_le (by omega)
      | succ i =>
        have hcost := ih (2 * c) (h := (2 * c + 1) * 2 ^ (i + 1) - 1) hlow (by omega) (by omega)
        have hbound := steps_upper_le (show 1 ≤ i + 1 by omega) hlow htlt hcost
        rcases even_or_odd' x with ⟨y, rfl | rfl⟩
        · have := (hbound y).1 hx
          have := ones_le (show y < 2 ^ i by rw [pow_succ] at hx; omega)
          omega
        · have := ((hbound y).2 hx).1
          have := ones_le (show y < 2 ^ i by rw [pow_succ] at hx; omega)
          omega
    · exact (ih (2 * c + 1) htge hle hhigh).trans (by omega)

end Block

theorem log2_lt {h : Nat} (hint : h < 2 ^ 31) : Nat.log2 h < 31 := by
  rcases Nat.eq_zero_or_pos h with rfl | hpos
  · decide
  · exact (Nat.log2_lt hpos.ne').mpr hint

/-- The bound for `GetAncestor`. -/
theorem steps_le (t h : Nat) : steps t h ≤ (Nat.log2 h + 1) * (Nat.log2 h + 1) := by
  rcases lt_or_ge h t with hlt | hle
  · rw [steps_of_le hlt.le]
    exact zero_le _
  · exact steps_block_le 0 _ (by omega) hle (by rw [zero_add, one_mul]; exact lt_log2_self)

/-! ## `GetAncestor` -/

/-- A chain without forks, of all heights that an `int` can hold. -/
def line : BlockTree (Fin (2 ^ 31)) where
  pprev
    | ⟨0, _⟩ => none
    | ⟨n + 1, h⟩ => some ⟨n, lt_of_succ_lt h⟩
  pskip
    | ⟨0, _⟩ => none
    | ⟨n + 1, h⟩ => some ⟨getSkipHeight (n + 1), (getSkipHeight_lt n.succ_pos).trans h⟩
  nHeight := Fin.val

theorem line_back {n p : Nat} (h : n ≤ p) (hp : p < 2 ^ 31) :
    line.back n ⟨p, hp⟩ = some ⟨p - n, (sub_le p n).trans_lt hp⟩ := by
  induction n generalizing p with
  | zero => rfl
  | succ n ih =>
    cases p with
    | zero => omega
    | succ p =>
      refine (ih (le_of_succ_le_succ h) (lt_of_succ_lt hp)).trans ?_
      simp only [succ_sub_succ]

theorem line_wellFormed : line.WellFormed := by
  have hh : line.Heights := by
    refine ⟨fun ⟨p, _⟩ hp => ?_, fun ⟨p, _⟩ q hq => ?_⟩ <;> cases p
    · rfl
    · cases hp
    · cases hq
    · cases hq
      rfl
  refine ⟨hh.skips fun ⟨p, hp⟩ => ?_, fun ⟨p, _⟩ ⟨q, _⟩ hp hq => ?_, Fin.isLt⟩
  · cases p with
    | zero => rfl
    | succ n =>
      have hlt : getSkipHeight (n + 1) < n + 1 := getSkipHeight_lt n.succ_pos
      have hback := line_back (show n - getSkipHeight (n + 1) ≤ n by omega) (lt_of_succ_lt hp)
      simp only [show n - (n - getSkipHeight (n + 1)) = getSkipHeight (n + 1) by omega] at hback
      exact hback.symm
  · cases p
    · cases q
      · rfl
      · cases hq
    · cases hp

/-- `GetAncestor` returns the entry that `pprev` leads to and null outside the range, it goes to
at most 31 entries for each binary digit of the height, and `LastCommonAncestor` returns the
highest common ancestor. -/
theorem skipList_exact {ι : Type} [DecidableEq ι] (tree : BlockTree ι) (hwf : tree.WellFormed) :
    (∀ p (height : Nat), height ≤ tree.nHeight p → ∃ a visited,
        tree.back (tree.nHeight p - height) p = some a ∧ tree.getAncestor p height = some a ∧
        tree.walk p height = some (a, visited) ∧ visited ≤ 31 * (Nat.log2 (tree.nHeight p) + 1)) ∧
      (∀ p (height : Int), height < 0 ∨ height > tree.nHeight p →
        tree.getAncestor p height = none) ∧
      ∀ pa pb, ∃ c, tree.lastCommonAncestor pa pb = some c ∧ tree.LastCommon pa pb c := by
  refine ⟨fun p height hle => ?_, fun p height hout => if_pos hout.symm,
    hwf.lastCommonAncestor_lastCommon⟩
  obtain ⟨a, hback, hwalk⟩ := walk_eq_of_skips hwf.toHeights (hwf.skipsExact _) hle
  have hdigits : Nat.log2 (tree.nHeight p) + 1 ≤ 31 := log2_lt (hwf.int p)
  exact ⟨a, _, hback, (hwf.getAncestor_eq hle).trans hback, hwalk,
    (steps_le _ _).trans (mul_le_mul_right _ hdigits)⟩

theorem skipList_exact_line : line.WellFormed ∧ ∃ a visited, line.getAncestor 1000 7 = some a ∧
    line.walk 1000 7 = some (a, visited) ∧ visited ≤ 31 * (Nat.log2 1000 + 1) := by
  obtain ⟨a, visited, -, hget, hwalk, hle⟩ :=
    (skipList_exact line line_wellFormed).1 1000 7 (by decide)
  exact ⟨line_wellFormed, a, visited, hget, hwalk, hle⟩

end Bitcoboost.BlockTree
