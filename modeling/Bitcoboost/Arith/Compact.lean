import Bitcoboost.Arith.ArithUint256

/-!
# The compact format as a rounding

What `GetCompact` encodes is decoded to the largest number of the format that is not above it,
and what was decoded is encoded as it was. The order of the encodings is that of the numbers.
`SetCompact` reports an overflow exactly if the number that is denoted has more than 256 bits.
-/

namespace Bitcoboost

open RoundDown ArithUint256 ArithLemmas BitVec

/-- The number that a compact form denotes, apart from its sign. -/
def compactInteger (nCompact : BitVec 32) : Nat :=
  let exponent := nCompact.toNat / 2 ^ 24
  let mantissa := nCompact.toNat % 2 ^ 23
  if exponent ≤ 3 then mantissa / 256 ^ (3 - exponent) else mantissa * 256 ^ (exponent - 3)

namespace CompactLemmas

variable (a : ArithUint256) (c : BitVec 32)

theorem round_toNat :
    (BitVec.ofNat 256 (compactSchedule.round a.toNat)).toNat = compactSchedule.round a.toNat := by
  rw [toNat_ofNat, Nat.mod_eq_of_lt (round_lt a)]

theorem compactSize_round :
    compactSize (BitVec.ofNat 256 (compactSchedule.round a.toNat)) = compactSize a := by
  unfold compactSize bits
  rw [round_toNat, bitLen_round]

theorem mantissa_round :
    mantissa (compactSchedule.round a.toNat) (compactSize a) =
      mantissa a.toNat (compactSize a) := by
  rcases Nat.le_total (compactSize a) 3 with h | h
  · rw [round_of_short h]
  · rw [round_eq_mantissa a h, mantissa_of_ge h, mantissa_of_ge h,
      Nat.mul_div_cancel _ (Nat.two_pow_pos _)]

theorem getCompact_round :
    getCompact (BitVec.ofNat 256 (compactSchedule.round a.toNat)) false = a.getCompact false := by
  by_cases h : a = 0
  · subst h
    rfl
  · have hne : BitVec.ofNat 256 (compactSchedule.round a.toNat) ≠ 0 := by
      intro hz
      have hzero := congrArg BitVec.toNat hz
      rw [round_toNat] at hzero
      exact h (eq_of_toNat_eq ((round_eq_zero_iff _).mp hzero))
    apply eq_of_toNat_eq
    rw [(getCompact_toNat h).1, (getCompact_toNat hne).1, compactSize_round, round_toNat,
      mantissa_round]

/-! ## Signs -/

/-- The sign bit is set if the mantissa is not zero. -/
theorem getCompact_true : a.getCompact true
    = a.getCompact false ||| (if a.getCompact false &&& 0x007fffff#32 ≠ 0#32 then 0x00800000#32
      else 0#32) := by
  simp [getCompact]

theorem size_sign : (c ||| 0x00800000#32) >>> 24 = c >>> 24 := by
  rw [ushiftRight_or_distrib]
  exact or_zero

theorem mask_sign : (c ||| 0x00800000#32) &&& 0x007fffff#32 = c &&& 0x007fffff#32 := by
  rw [BitVec.and_comm, and_or_distrib_left, BitVec.and_comm]
  exact or_zero

theorem sign_sign : (c ||| 0x00800000#32) &&& 0x00800000#32 = 0x00800000#32 := by
  ext i hi
  rw [getElem_and, getElem_or]
  have habsorb : ∀ a b : Bool, ((a || b) && b) = b := by decide
  exact habsorb _ _

/-- The sign bit is reported and changes nothing else. -/
theorem setCompact_sign {c : BitVec 32} (h : (setCompact c).target ≠ 0) :
    setCompact (c ||| 0x00800000#32) = ⟨(setCompact c).target, true, (setCompact c).fOverflow⟩ := by
  have hword : (if (c >>> 24).toNat ≤ 3 then (c &&& 0x007fffff#32) >>> (8 * (3 - (c >>> 24).toNat))
      else c &&& 0x007fffff#32) ≠ 0#32 := by
    intro hz
    refine h ?_
    simp only [setCompact, hz]
    split
    · rfl
    · exact zero_shiftLeft _
  simp only [setCompact, size_sign, mask_sign, sign_sign, SetCompact.mk.injEq, true_and, and_true]
  simpa using hword

/-! ## Overflow -/

theorem overflow_iff {m e : Nat} (hm : m < 2 ^ 23) (he : 3 < e) :
    (m ≠ 0 ∧ (e > 34 ∨ (m > 0xff ∧ e > 33) ∨ (m > 0xffff ∧ e > 32))) ↔
    2 ^ 256 ≤ m * 256 ^ (e - 3) := by
  have hpow : (256 : Nat) ^ (e - 3) = 2 ^ (8 * (e - 3)) := by rw [Nat.pow_mul]
  rw [hpow]
  rcases Nat.lt_or_ge e 33 with h32 | h33
  · have hle : m * 2 ^ (8 * (e - 3)) < 2 ^ 256 := by
      calc m * 2 ^ (8 * (e - 3)) < 2 ^ 23 * 2 ^ (8 * (e - 3)) :=
          Nat.mul_lt_mul_of_pos_right hm (Nat.two_pow_pos _)
        _ = 2 ^ (23 + 8 * (e - 3)) := (Nat.pow_add ..).symm
        _ ≤ 2 ^ 256 := Nat.pow_le_pow_right (by decide) (by omega)
    omega
  · rcases Nat.lt_or_ge e 35 with h34 | h35
    · obtain rfl | rfl : e = 33 ∨ e = 34 := by omega
      · omega
      · omega
    · have hge : m ≠ 0 → 2 ^ 256 ≤ m * 2 ^ (8 * (e - 3)) := by
        intro hne
        calc 2 ^ 256 ≤ 2 ^ (8 * (e - 3)) := Nat.pow_le_pow_right (by decide) (by omega)
          _ ≤ m * 2 ^ (8 * (e - 3)) := Nat.le_mul_of_pos_left _ (Nat.pos_of_ne_zero hne)
      constructor
      · exact fun h => hge h.1
      · intro h
        refine ⟨?_, .inl h35⟩
        rintro rfl
        rw [Nat.zero_mul] at h
        exact absurd h (by decide)

theorem fOverflow_iff : (setCompact c).fOverflow = true ↔ 2 ^ 256 ≤ compactInteger c := by
  have hsize :
    (c >>> 24).toNat = c.toNat / 2 ^ 24 := by rw [toNat_ushiftRight, Nat.shiftRight_eq_div_pow]
  have hmask := mask_toNat c
  have hlt : c.toNat % 2 ^ 23 < 2 ^ 23 := Nat.mod_lt _ (by decide)
  unfold compactInteger setCompact
  dsimp only
  rw [hsize]
  by_cases he : c.toNat / 2 ^ 24 ≤ 3
  · have hsmall : c.toNat % 2 ^ 23 / 256 ^ (3 - c.toNat / 2 ^ 24) < 2 ^ 256 :=
      ((Nat.div_le_self _ _).trans_lt hlt).trans (by decide)
    rw [if_pos he, if_pos he, decide_eq_true_iff]
    constructor
    · rintro ⟨_, h | ⟨_, h⟩ | ⟨_, h⟩⟩ <;> omega
    · exact fun h => absurd hsmall (Nat.not_lt.mpr h)
  · rw [if_neg he, if_neg he, decide_eq_true_iff, ← overflow_iff hlt (Nat.lt_of_not_le he), ← hmask]
    have hne : c &&& 0x007fffff#32 ≠ 0#32 ↔ (c &&& 0x007fffff#32).toNat ≠ 0 := by
      rw [not_iff_not]
      exact ⟨fun h => by rw [h]; rfl, fun h => eq_of_toNat_eq h⟩
    rw [hne]
    rfl

/-! ## Order -/

theorem getCompact_mono {a b : ArithUint256} (h : a ≤ b) :
    a.getCompact false ≤ b.getCompact false := by
  by_cases ha : a = 0
  · subst ha
    exact Nat.zero_le _
  · have hb : b ≠ 0 := by
      rintro rfl
      exact ha (eq_of_toNat_eq (Nat.le_zero.mp h))
    obtain ⟨hca, hma⟩ := getCompact_toNat ha
    obtain ⟨hcb, _⟩ := getCompact_toNat hb
    have hsize : compactSize a ≤ compactSize b :=
      Nat.succ_le_succ (Nat.div_le_div_right (bitLen_mono h))
    rw [le_def, hca, hcb]
    rcases Nat.lt_or_eq_of_le hsize with hlt | heq
    · have := Nat.mul_le_mul_right (2 ^ 24) hlt
      omega
    · rw [heq]
      exact Nat.add_le_add_left (Nat.div_le_div_right (Nat.mul_le_mul_right _ h)) _

end CompactLemmas

open CompactLemmas

/-- The compact format is a rounding projection. -/
theorem compact_rounding :
    (∀ a : ArithUint256, (setCompact (a.getCompact false)).fNegative = false ∧
      (setCompact (a.getCompact false)).fOverflow = false
        ∧ (setCompact (a.getCompact false)).target ≤ a
        ∧ ∀ c, (setCompact c).target ≤ a → (setCompact c).target ≤
          (setCompact (a.getCompact false)).target)
      ∧ (∀ (a : ArithUint256) (fNegative : Bool),
        getCompact (setCompact (a.getCompact fNegative)).target
          (setCompact (a.getCompact fNegative)).fNegative = a.getCompact fNegative)
      ∧ (∀ a b : ArithUint256, a ≤ b → a.getCompact false ≤ b.getCompact false
        ∧ (setCompact (a.getCompact false)).target ≤ (setCompact (b.getCompact false)).target)
      ∧ ∀ c, (setCompact c).fOverflow = true ↔ 2 ^ 256 ≤ compactInteger c := by
  refine ⟨fun a => ?_, fun a fNegative => ?_, fun a b hab => ⟨getCompact_mono hab, ?_⟩,
    fOverflow_iff⟩
  · refine ⟨by rw [setCompact_getCompact], by rw [setCompact_getCompact], ?_, fun c hc => ?_⟩
    · rw [le_def, target_getCompact]
      exact round_le _ _
    · rw [le_def, target_getCompact, ← round_target c]
      exact round_mono _ hc
  · cases fNegative with
    | false => rw [setCompact_getCompact, getCompact_round]
    | true =>
      rw [getCompact_true]
      split
      · next hmask =>
        have hne : (setCompact (a.getCompact false)).target ≠ 0 := by
          rw [setCompact_getCompact]
          intro hz
          have hzero := congrArg BitVec.toNat hz
          rw [round_toNat] at hzero
          have ha : a = 0 := eq_of_toNat_eq ((round_eq_zero_iff _).mp hzero)
          subst ha
          exact hmask rfl
        rw [setCompact_sign hne, getCompact_true, setCompact_getCompact, getCompact_round,
          if_pos hmask]
      · rw [or_zero, setCompact_getCompact, getCompact_round]
  · rw [le_def, target_getCompact, target_getCompact]
    exact round_mono _ hab

theorem compact_rounding_example :
    (setCompact (getCompact 0x123456789#256 false)).target = 0x123450000#256
      ∧ getCompact 0x123450000#256 false ≤ getCompact 0x123456789#256 false := by
  obtain ⟨_, _, hmono, _⟩ := compact_rounding
  exact ⟨by decide +kernel, (hmono 0x123450000#256 0x123456789#256 (by decide)).1⟩

end Bitcoboost
