import Mathlib.Data.Nat.Digits.Lemmas

/-!
# Positional numerals

A numeral is a list of digits, the highest first, read by Horner's rule. Over `Nat.digits` and
`Nat.ofDigits` it adds what is needed for numerals of a fixed length, where leading zeros count.
-/

namespace Positional

open List

/-- The number that `ds` continue `N` to, in base `b`. -/
def horner (b N : Nat) (ds : List Nat) : Nat := ds.foldl (fun n d => b * n + d) N

@[simp] theorem horner_nil (b N : Nat) : horner b N [] = N := rfl

@[simp] theorem horner_cons (b N d : Nat) (ds : List Nat) :
    horner b N (d :: ds) = horner b (b * N + d) ds := rfl

theorem horner_append (b N : Nat) (ds es : List Nat) :
    horner b N (ds ++ es) = horner b (horner b N ds) es :=
  foldl_append

theorem horner_eq (b N : Nat) (ds : List Nat) :
    horner b N ds = N * b ^ ds.length + Nat.ofDigits b ds.reverse := by
  induction ds generalizing N with
  | nil => simp
  | cons d ds ih =>
    rw [horner_cons, ih, reverse_cons, Nat.ofDigits_append, Nat.ofDigits_singleton,
      length_reverse, length_cons]
    ring

theorem horner_zero_eq (b : Nat) (ds : List Nat) : horner b 0 ds = Nat.ofDigits b ds.reverse := by
  rw [horner_eq, Nat.zero_mul, Nat.zero_add]

variable {b : Nat}

theorem le_horner (hb : 0 < b) (N : Nat) (ds : List Nat) : N ≤ horner b N ds := by
  rw [horner_eq]
  exact (Nat.le_mul_of_pos_right N (Nat.pow_pos hb)).trans (Nat.le_add_right _ _)

variable {ds : List Nat}

theorem horner_lt (hb : 1 < b) (hds : ∀ d ∈ ds, d < b) : horner b 0 ds < b ^ ds.length := by
  rw [horner_zero_eq, ← length_reverse]
  exact Nat.ofDigits_lt_base_pow_length hb (by simpa using hds)

/-- Numerals of one length that encode the same number are equal. -/
theorem horner_injective (hb : 1 < b) {es : List Nat} (hlen : ds.length = es.length)
    (hds : ∀ d ∈ ds, d < b) (hes : ∀ d ∈ es, d < b) (h : horner b 0 ds = horner b 0 es) :
    ds = es := by
  rw [horner_zero_eq, horner_zero_eq] at h
  refine reverse_injective (Nat.ofDigits_inj_of_len_eq hb (by simpa using hlen) ?_ ?_ h)
  · simpa using hds
  · simpa using hes

theorem horner_dropWhile (b : Nat) (ds : List Nat) :
    horner b 0 (ds.dropWhile (· = 0)) = horner b 0 ds := by
  induction ds with
  | nil => rfl
  | cons d ds ih =>
    by_cases hd : d = 0
    · rw [dropWhile_cons_of_pos (by simpa using hd), ih, horner_cons, hd]
      rfl
    · rw [dropWhile_cons_of_neg (by simpa using hd)]

/-- The digits of a numeral are those after its leading zeros. -/
theorem digits_horner (hb : 1 < b) (hds : ∀ d ∈ ds, d < b) :
    Nat.digits b (horner b 0 ds) = (ds.dropWhile (· = 0)).reverse := by
  rw [← horner_dropWhile, horner_zero_eq]
  refine Nat.digits_ofDigits b hb _ ?_ fun hne => ?_
  · intro d hd
    exact hds d ((dropWhile_sublist _).mem (List.mem_reverse.mp hd))
  · rw [getLast_reverse]
    simpa using head_dropWhile_not (fun d : Nat => decide (d = 0))
      (List.reverse_eq_nil_iff.not.mp hne)

/-- A number below `b ^ k` has at most `k` digits after its leading zeros. -/
theorem length_dropWhile_le_iff {k : Nat} (hb : 1 < b) (hds : ∀ d ∈ ds, d < b) :
    (ds.dropWhile (· = 0)).length ≤ k ↔ horner b 0 ds < b ^ k := by
  rw [← length_reverse, ← digits_horner hb hds]
  exact Nat.digits_length_le_iff hb _

end Positional
