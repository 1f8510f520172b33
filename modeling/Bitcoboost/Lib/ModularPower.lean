import Mathlib.NumberTheory.LucasPrimality

/-!
# Powers modulo a number

Square and multiply, and Lucas's test with it: a number is prime if the multiplicative order of
some base is one less, which the prime factors of that decide. The base and the factors are a
certificate that can be checked by evaluation.
-/

namespace ModularPower

/-- `a ^ n % m` for an exponent of the given number of bits. -/
def powMod (m : Nat) : Nat → Nat → Nat → Nat
  | 0, _, _ => 1 % m
  | bits + 1, a, n => (if n % 2 = 1 then a else 1) * powMod m bits (a * a % m) (n / 2) % m

theorem powMod_eq (m : Nat) {bits n : Nat} (h : n < 2 ^ bits) (a : Nat) :
    powMod m bits a n = a ^ n % m := by
  induction bits generalizing n a with
  | zero =>
    cases Nat.lt_one_iff.mp h
    rw [powMod, pow_zero]
  | succ bits ih =>
    have hhalf : n / 2 < 2 ^ bits := Nat.div_lt_of_lt_mul (by rwa [← pow_succ'])
    have hsplit : a ^ n = (if n % 2 = 1 then a else 1) * (a * a) ^ (n / 2) := by
      conv_lhs => rw [← Nat.mod_add_div n 2, pow_add, pow_mul, sq]
      rcases Nat.mod_two_eq_zero_or_one n with hmod | hmod
      · rw [hmod, pow_zero, if_neg Nat.zero_ne_one]
      · rw [hmod, pow_one, if_pos rfl]
    rw [powMod, ih hhalf, hsplit, ← Nat.pow_mod, Nat.mul_mod_mod]

theorem pow_eq_one_iff {p : Nat} (hp : 1 < p) (a n : Nat) :
    (a : ZMod p) ^ n = 1 ↔ a ^ n % p = 1 := by
  rw [← Nat.cast_pow, ← Nat.cast_one, ZMod.natCast_eq_natCast_iff', Nat.mod_eq_of_lt hp]

/-- What Lucas's test of `p` needs: a base and the prime factors of `p - 1`, each of a
multiplicity up to `k`. -/
structure LucasCertificate where
  p : Nat
  a : Nat
  k : Nat
  factors : List Nat

namespace LucasCertificate

variable {bits : Nat} {c : LucasCertificate}

/-- The test, apart from the factors being prime. -/
def Checked (bits : Nat) (c : LucasCertificate) : Prop :=
  1 < c.p ∧ c.p ≤ 2 ^ bits ∧ c.p - 1 ∣ c.factors.prod ^ c.k ∧ powMod c.p bits c.a (c.p - 1) = 1 ∧
    ∀ q ∈ c.factors, powMod c.p bits c.a ((c.p - 1) / q) ≠ 1

instance : Decidable (c.Checked bits) := inferInstanceAs (Decidable (_ ∧ _))

theorem Checked.prime (h : c.Checked bits) (hprime : ∀ q ∈ c.factors, q.Prime) : c.p.Prime := by
  obtain ⟨hp, hbits, hprod, hone, hne⟩ := h
  have hlt : ∀ n ≤ c.p - 1, n < 2 ^ bits := fun n hn =>
    Nat.lt_of_lt_of_le (Nat.lt_of_le_of_lt hn (Nat.sub_lt (Nat.zero_lt_of_lt hp) Nat.one_pos)) hbits
  refine lucas_primality c.p c.a ?_ fun q hq hdvd => ?_
  · rw [pow_eq_one_iff hp, ← powMod_eq c.p (hlt _ (Nat.le_refl _)), hone]
  · have hmem : q ∈ c.factors :=
        mem_list_primes_of_dvd_prod hq.prime (fun r hr => (hprime r hr).prime)
      (hq.dvd_of_dvd_pow (hdvd.trans hprod))
    rw [Ne, pow_eq_one_iff hp, ← powMod_eq c.p (hlt _ (Nat.div_le_self _ _))]
    exact hne q hmem

/-- Tests in a row: the factors are among the primes that are known, or tested before. -/
def AllChecked (bits : Nat) (known : List Nat) : List LucasCertificate → Prop
  | [] => True
  | c :: cs => c.Checked bits ∧ (∀ q ∈ c.factors, q ∈ known) ∧ AllChecked bits (c.p :: known) cs

instance AllChecked.decidable (bits : Nat) : ∀ known cs, Decidable (AllChecked bits known cs)
  | _, [] => .isTrue trivial
  | known, c :: cs =>
    have := AllChecked.decidable bits (c.p :: known) cs
    inferInstanceAs (Decidable (_ ∧ _ ∧ _))

theorem prime_of_allChecked (bits : Nat) {known : List Nat} {cs : List LucasCertificate}
    (hknown : ∀ q ∈ known, q.Prime) (h : AllChecked bits known cs) : ∀ c ∈ cs, c.p.Prime := by
  induction cs generalizing known with
  | nil => exact fun _ hc => nomatch hc
  | cons c cs ih =>
    obtain ⟨hc, hfactors, hcs⟩ := h
    have hprime := hc.prime fun q hq => hknown q (hfactors q hq)
    exact List.forall_mem_cons.mpr ⟨hprime, ih (List.forall_mem_cons.mpr ⟨hprime, hknown⟩) hcs⟩

end LucasCertificate

end ModularPower
