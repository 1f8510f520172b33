import Bitcoboost.Primitives.Transaction
import Bitcoboost.Util.FixedPoint

/-!
# Amounts as text

`FormatMoney` and `ParseMoney` of `util/moneystr.cpp`, with the helpers that they use.
-/

namespace Bitcoboost.MoneyStr

open Bitcoboost.FixedPoint List

/-! ## The code -/

/-- `IsSpace`: space, `\f`, `\n`, `\r`, `\t` and `\v`. -/
def isSpace (c : Char) : Bool := c.toNat ∈ [32, 12, 10, 13, 9, 11]

def trimString (str : List Char) : List Char :=
  ((str.dropWhile isSpace).reverse.dropWhile isSpace).reverse

/-- `LocaleIndependentAtoi<int64_t>`: the number that `std::from_chars` reads, saturated. -/
def localeIndependentAtoi (str : List Char) : Int :=
  let s := trimString str
  if s.head? = some '+' ∧ s.tail.head? = some '-' then 0
  else
    let s := if s.head? = some '+' then s.tail else s
    let negative : Bool := s.head? = some '-'
    let digits := (if negative then s.tail else s).takeWhile Char.isDigit
    let value : Int := Nat.ofDigitChars 10 digits 0
    max (-0x8000000000000000) (min 0x7fffffffffffffff (if negative then -value else value))

/-- The loop of `FormatMoney` that trims zeros, on the characters from the last to the
first. Two digits stay after the point. -/
def trimZeros : List Char → List Char
  | ch :: ch' :: ch'' :: str =>
    if ch = '0' ∧ ch''.isDigit then trimZeros (ch' :: ch'' :: str) else ch :: ch' :: ch'' :: str
  | str => str

/-- `FormatMoney`. The quotient and the remainder are negated for a negative amount. -/
def formatMoney (n : CAmount) : List Char :=
  let quotient := (n.tdiv coin).natAbs
  let remainder := (n.tmod coin).natAbs
  let str := Nat.toDigits 10 quotient ++ '.' :: (Nat.toDigits 10 remainder).leftpad 8 '0'
  let str := (trimZeros str.reverse).reverse
  if n < 0 then '-' :: str else str

/-- The loop of `ParseMoney` over the digits after the point: `nUnits` and the rest. -/
def parseUnits : List Char → Nat → Nat × List Char
  | [], _ => (0, [])
  | ch :: p, nMult =>
    if ch.isDigit ∧ nMult > 0 then
      (nMult * (ch.toNat - '0'.toNat) + (parseUnits p (nMult / 10)).1,
        (parseUnits p (nMult / 10)).2)
    else (0, ch :: p)

def parseMoney (moneyString : List Char) : Option CAmount :=
  let str := trimString moneyString
  let strWhole := str.takeWhile (· ≠ '.')
  let (nUnits, p) := parseUnits (str.dropWhile (· ≠ '.')).tail (coin / 10).toNat
  let value : CAmount := localeIndependentAtoi strWhole * coin + nUnits
  if moneyString.any fun ch => ch.toNat = 0 then none
  else if str = [] then none
  else if !strWhole.all Char.isDigit then none
  else if p ≠ [] then none
  else if strWhole.length > 10 then none
  else if (nUnits : Int) > coin then none
  else if !moneyRange value then none
  else some value

/-! ## Digits -/

theorem ofDigitChars_eq (digits : List Char) (n : Nat) :
    Nat.ofDigitChars 10 digits n = n * 10 ^ digits.length + Nat.ofDigitChars 10 digits 0 := by
  induction digits generalizing n with
  | nil => simp
  | cons ch digits ih =>
    rw [Nat.ofDigitChars_cons, Nat.ofDigitChars_cons, ih, ih (10 * 0 + _), length_cons, pow_succ]
    ring

variable {digits str : List Char} {ch : Char}

theorem ofDigitChars_lt (hdigits : ∀ ch ∈ digits, ch.isDigit) :
    Nat.ofDigitChars 10 digits 0 < 10 ^ digits.length := by
  induction digits with
  | nil => decide
  | cons ch digits ih =>
    obtain ⟨hch, hrest⟩ := List.forall_mem_cons.mp hdigits
    have hdigit := toNat_of_isDigit hch
    have hle : 10 * 0 + (ch.toNat - '0'.toNat) ≤ 9 := by
      have hzero : '0'.toNat = 48 := rfl
      omega
    have hmul := Nat.mul_le_mul_right (10 ^ digits.length) hle
    have hlast := ih hrest
    rw [Nat.ofDigitChars_cons, ofDigitChars_eq, length_cons, pow_succ]
    omega

theorem ofDigitChars_replicate (k n : Nat) :
    Nat.ofDigitChars 10 (List.replicate k '0') n = n * 10 ^ k := by
  induction k generalizing n with
  | zero => simp
  | succ k ih =>
    rw [replicate_succ, Nat.ofDigitChars_cons, ih, pow_succ]
    simp only [Nat.sub_self, Nat.add_zero]
    ring

theorem trimZeros_append {digits rest : List Char} :
    ∃ k kept, trimZeros (digits ++ '.' :: rest) = kept ++ '.' :: rest ∧
    digits = List.replicate k '0' ++ kept := by
  induction digits with
  | nil =>
    refine ⟨0, [], ?_, rfl⟩
    unfold trimZeros
    split
    · next heq =>
      cases heq
      exact if_neg fun hzero => absurd hzero.1 (by decide)
    · rfl
  | cons ch digits ih =>
    obtain ⟨k, kept, htrim, hdigits⟩ := ih
    have hsame : ∃ k kept, ch :: (digits ++ '.' :: rest) = kept ++ '.' :: rest ∧
        ch :: digits = List.replicate k '0' ++ kept := ⟨0, ch :: digits, rfl, rfl⟩
    unfold trimZeros
    split
    · next ch' ch'' ch''' str heq =>
      obtain ⟨rfl, htail⟩ := List.cons.inj heq
      split
      · next hzero =>
        refine ⟨k + 1, kept, htail ▸ htrim, ?_⟩
        rw [hzero.1, hdigits]
        rfl
      · rw [← htail]
        exact hsame
    · exact hsame

theorem parseUnits_eq (hdigits : ∀ ch ∈ digits, ch.isDigit) {room : Nat}
    (hroom : digits.length ≤ room) : parseUnits digits (10 ^ room / 10) =
    (Nat.ofDigitChars 10 digits 0 * 10 ^ (room - digits.length), []) := by
  induction digits generalizing room with
  | nil => simp [parseUnits]
  | cons ch digits ih =>
    obtain ⟨hch, hrest⟩ := List.forall_mem_cons.mp hdigits
    obtain ⟨room, rfl⟩ : ∃ room', room = room' + 1 :=
      ⟨room - 1, by rw [length_cons] at hroom; omega⟩
    have hle : digits.length ≤ room := Nat.le_of_succ_le_succ hroom
    have hdiv :
      10 ^ (room + 1) / 10 = 10 ^ room := by rw [pow_succ, Nat.mul_div_cancel _ (by decide)]
    have hpow : 10 ^ room = 10 ^ digits.length * 10 ^ (room - digits.length) := by
      rw [← pow_add, Nat.add_sub_cancel' hle]
    rw [parseUnits, hdiv, if_pos ⟨hch, Nat.pow_pos (by decide)⟩, ih hrest hle,
      Nat.ofDigitChars_cons, ofDigitChars_eq digits (10 * 0 + _), length_cons, Nat.succ_sub_succ]
    refine Prod.ext ?_ rfl
    rw [hpow]
    ring

/-! ## The round trip -/

theorem dropWhile_isSpace (h : ∀ ch ∈ str, isSpace ch = false) : str.dropWhile isSpace = str := by
  cases str with
  | nil => rfl
  | cons ch str => rw [dropWhile_cons, h ch (mem_cons_self ..), if_neg Bool.false_ne_true]

theorem trimString_eq (h : ∀ ch ∈ str, isSpace ch = false) : trimString str = str := by
  rw [trimString, dropWhile_isSpace h, dropWhile_isSpace fun ch hch =>
    h ch (List.mem_reverse.mp hch), reverse_reverse]

theorem isSpace_of_isDigit (h : ch.isDigit) : isSpace ch = false := by
  have hdigit := toNat_of_isDigit h
  simp only [isSpace, mem_cons, not_mem_nil, or_false, decide_eq_false_iff_not]
  omega

/-- Text of digits is read as a number, as long as it fits. -/
theorem localeIndependentAtoi_digits (hdigits : ∀ ch ∈ digits, ch.isDigit)
    (hbound : Nat.ofDigitChars 10 digits 0 ≤ 0x7fffffffffffffff) :
    localeIndependentAtoi digits = Nat.ofDigitChars 10 digits 0 := by
  have hhead : ∀ ch : Char, ch.isDigit = false → digits.head? ≠ some ch := by
    intro ch hch heq
    have hdigit := hdigits ch (mem_of_head? heq)
    rw [hch] at hdigit
    cases hdigit
  have htake : digits.takeWhile Char.isDigit = digits := by
    simpa using takeWhile_digits hdigits noDigit_nil
  rw [localeIndependentAtoi, trimString_eq fun ch hch => isSpace_of_isDigit (hdigits ch hch)]
  simp only [hhead '+' rfl, hhead '-' rfl, false_and, if_false, decide_false,
    Bool.false_eq_true, htake]
  omega

/-- What `ParseMoney` makes of digits, a point and up to 8 digits. -/
theorem parseMoney_eq {whole fraction : List Char} (hwhole : ∀ ch ∈ whole, ch.isDigit)
    (hfraction : ∀ ch ∈ fraction, ch.isDigit) (hlength : whole.length ≤ 10)
    (hroom : fraction.length ≤ 8) {value : CAmount} (hvalue : Nat.ofDigitChars 10 whole 0 * coin
      + (Nat.ofDigitChars 10 fraction 0 * 10 ^ (8 - fraction.length) : Nat) = value)
    (hmoney : moneyRange value = true) : parseMoney (whole ++ '.' :: fraction) = some value := by
  have hchars : ∀ ch ∈ whole ++ '.' :: fraction, ch.isDigit ∨ ch = '.' := by
    intro ch hch
    rcases List.mem_append.mp hch with hch | hch
    · exact .inl (hwhole ch hch)
    · rcases List.mem_cons.mp hch with rfl | hch
      · exact .inr rfl
      · exact .inl (hfraction ch hch)
  have hspace : ∀ ch ∈ whole ++ '.' :: fraction, isSpace ch = false := by
    intro ch hch
    rcases hchars ch hch with hdigit | rfl
    · exact isSpace_of_isDigit hdigit
    · rfl
  have hnul : (whole ++ '.' :: fraction).any (fun ch => decide (ch.toNat = 0)) = false := by
    refine List.any_eq_false.mpr fun ch hch => ?_
    rcases hchars ch hch with hdigit | rfl
    · have hrange := toNat_of_isDigit hdigit
      simp only [decide_eq_true_eq]
      omega
    · decide
  have hpoint : ∀ ch ∈ whole, decide (ch ≠ '.') = true := by
    intro ch hch
    refine decide_eq_true ?_
    rintro rfl
    cases hwhole _ hch
  have htake : (whole ++ '.' :: fraction).takeWhile (fun ch => decide (ch ≠ '.')) = whole := by
    rw [takeWhile_append_of_pos hpoint]
    simp
  have hdrop :
      (whole ++ '.' :: fraction).dropWhile (fun ch => decide (ch ≠ '.')) = '.' :: fraction := by
    rw [dropWhile_append_of_pos hpoint]
    simp
  have hunits := parseUnits_eq hfraction hroom
  have hunitsLe : Nat.ofDigitChars 10 fraction 0 * 10 ^ (8 - fraction.length) ≤ 10 ^ 8 := by
    have hmul := Nat.mul_le_mul_right (10 ^ (8 - fraction.length)) (ofDigitChars_lt hfraction).le
    rwa [← pow_add, Nat.add_sub_cancel' hroom] at hmul
  have hwholeLe : Nat.ofDigitChars 10 whole 0 ≤ 0x7fffffffffffffff :=
    Nat.le_trans (Nat.le_trans (ofDigitChars_lt hwhole).le
      (Nat.pow_le_pow_right (by decide) hlength)) (by decide)
  have hmult : (coin / 10).toNat = 10 ^ 8 / 10 := rfl
  rw [parseMoney]
  simp only [trimString_eq hspace, htake, hdrop, tail_cons, hmult, hunits,
    localeIndependentAtoi_digits hwhole hwholeLe, hnul, hvalue, hmoney, List.all_eq_true.mpr hwhole]
  rw [if_neg Bool.false_ne_true, if_neg (by simp), if_neg (by simp), if_neg (by simp),
    if_neg (Nat.not_lt.mpr hlength), if_neg (by simp only [coin]; omega), if_neg (by simp)]

/-- The text of an amount: the digits of the quotient and those of the remainder without
zeros at the end. -/
theorem formatMoney_eq (k : Nat) : ∃ fraction zeros,
    formatMoney k = Nat.toDigits 10 (k / 100000000) ++ '.' :: fraction ∧
    (Nat.toDigits 10 (k % 100000000)).leftpad 8 '0' = fraction ++ List.replicate zeros '0' := by
  have hquotient : ((k : Int).tdiv coin).natAbs = k / 100000000 := Int.natAbs_tdiv k coin
  have hremainder : ((k : Int).tmod coin).natAbs = k % 100000000 := Int.natAbs_tmod k coin
  obtain ⟨zeros, kept, htrim, hdigits⟩ := trimZeros_append
  refine ⟨kept.reverse, zeros, ?_, ?_⟩
  · rw [formatMoney, hquotient, hremainder, if_neg (Int.not_lt.mpr (Int.natCast_nonneg k)),
      reverse_append,
      reverse_cons, append_assoc, singleton_append, htrim, reverse_append, reverse_cons,
      reverse_reverse, append_assoc, singleton_append]
  · rw [← reverse_reverse (List.leftpad _ _ _), hdigits, reverse_append, reverse_replicate]

theorem parseMoney_formatMoney {n : CAmount} (h : 0 ≤ n ∧ n ≤ maxMoney) :
    parseMoney (formatMoney n) = some n := by
  obtain ⟨k, rfl⟩ := Int.eq_ofNat_of_zero_le h.1
  have hmax : (k : Int) ≤ 2100000000000000 := h.2
  obtain ⟨fraction, zeros, hformat, hpadded⟩ := formatMoney_eq k
  have hpad : (Nat.toDigits 10 (k % 100000000)).leftpad 8 '0'
      = List.replicate (8 - (Nat.toDigits 10 (k % 100000000)).length) '0' ++
        Nat.toDigits 10 (k % 100000000) := rfl
  have hshort : (Nat.toDigits 10 (k % 100000000)).length ≤ 8 :=
    (Nat.length_toDigits_le_iff (by decide) (by decide)).mpr (Nat.mod_lt _ (by decide))
  have hlength : fraction.length + zeros = 8 := by
    have hlengths := congrArg List.length (hpadded.symm.trans hpad)
    simp only [length_append, length_replicate] at hlengths
    omega
  have hvalue : Nat.ofDigitChars 10 fraction 0 * 10 ^ zeros = k % 100000000 := by
    have hvalues := congrArg (Nat.ofDigitChars 10 · 0) (hpadded.symm.trans hpad)
    simp only [Nat.ofDigitChars_append, ofDigitChars_replicate, Nat.zero_mul,
      Nat.ofDigitChars_toDigits (b := 10) (by decide) (by decide)] at hvalues
    exact hvalues
  have hdigits : ∀ ch ∈ fraction, ch.isDigit := by
    intro ch hch
    have hmem : ch ∈ (Nat.toDigits 10 (k % 100000000)).leftpad 8 '0' :=
      hpadded ▸ mem_append_left _ hch
    rcases List.mem_append.mp (hpad ▸ hmem) with hzero | hdigit
    · rw [eq_of_mem_replicate hzero]
      rfl
    · exact Nat.isDigit_of_mem_toDigits (by decide) (by decide) hdigit
  rw [hformat]
  refine parseMoney_eq (fun ch => Nat.isDigit_of_mem_toDigits (by decide) (by decide)) hdigits
    ((Nat.length_toDigits_le_iff (by decide) (by decide)).mpr (by omega)) (by omega) ?_
      (decide_eq_true h)
  have hzeros : 8 - fraction.length = zeros := by omega
  rw [hzeros, hvalue, Nat.ofDigitChars_toDigits (by decide) (by decide), coin]
  exact_mod_cast Nat.div_add_mod' k 100000000

/-- `ParseFixedPoint` accepts only JSON numbers, with their exact value, and all of them
that are not zero and fit. No `int64_t` operation of it overflows. `ParseMoney` undoes
`FormatMoney`. -/
theorem amounts_exact :
    (∀ (val : List Char) (decimals : Nat), val.length < 2 ^ 31 → decimals ≤ 17 → ∀ amount,
      parseFixedPoint val decimals = .ok amount →
        ∃ n : JsonNumber, n.text = val ∧ (amount : ℚ) = n.value * 10 ^ decimals) ∧
    (∀ (n : JsonNumber) (decimals : Nat), n.text.length < 2 ^ 31 → decimals ≤ 17 →
      n.value ≠ 0 → ∀ k : Int,
      n.value * 10 ^ decimals = k → |k| ≤ 10 ^ 18 - 1 → parseFixedPoint n.text decimals = .ok k) ∧
    (∀ (val : List Char) (decimals : Nat), decimals ≤ 17 →
      parseFixedPoint val decimals ≠ .error .overflow) ∧
    ∀ n : CAmount, 0 ≤ n ∧ n ≤ maxMoney → parseMoney (formatMoney n) = some n := by
  refine ⟨fun val decimals hlength hdecimals amount h => parseFixedPoint_sound hlength hdecimals h,
    fun n decimals hlength hdecimals hne k hk hbound =>
    parseFixedPoint_complete n hlength hdecimals hne hk ?_,
    fun val decimals hdecimals => parseFixedPoint_ne_overflow val hdecimals, fun n h =>
    parseMoney_formatMoney h⟩
  rw [Int.abs_eq_natAbs] at hbound
  simp only [upperBound]
  omega

theorem amounts_exact_one :
    (∃ n : JsonNumber, n.text = "1.50".toList ∧ ((15 : Int) : ℚ) = n.value * 10 ^ 1) ∧
    parseMoney (formatMoney 150000000) = some 150000000 :=
  ⟨amounts_exact.1 _ 1 (by decide) (by decide) 15 (by decide), amounts_exact.2.2.2 _ (by decide)⟩

theorem mem_text {n : JsonNumber} (h : ch ∈ n.text) :
    ch.isDigit ∨ ch ∈ ['-', '.', 'e', 'E', '+'] := by
  rcases List.mem_append.mp h with hsign | h
  · cases hnegative : n.negative <;> simp_all
  rcases List.mem_append.mp h with hwhole | h
  · exact .inl (n.isDigit_whole ch hwhole)
  rcases List.mem_append.mp h with hfraction | hexponent
  · rw [JsonNumber.fractionText] at hfraction
    split at hfraction
    · cases hfraction
    · rcases List.mem_cons.mp hfraction with rfl | hfraction
      · simp
      · exact .inl (n.isDigit_fraction ch hfraction)
  · cases he : n.exponent with
    | none => simp [JsonNumber.exponentText, he] at hexponent
    | some exponent =>
      simp only [JsonNumber.exponentText, he, Option.map_some, Option.getD_some,
        JsonExponent.text, mem_cons, mem_append] at hexponent
      rcases hexponent with rfl | hsign | hdigit
      · rcases exponent.mark_eq with hmark | hmark <;> simp [hmark]
      · rcases exponent.sign_eq with hnone | hplus | hminus <;> simp_all
      · exact .inl (exponent.isDigit_digits ch hdigit)

/-- Of a string of 2^32 + 1 characters only the first is read. -/
theorem parseFixedPoint_long :
    parseFixedPoint ('1' :: List.replicate (2 ^ 32) 'x') 0 = .ok 1 ∧
      ¬ ∃ n : JsonNumber, n.text = '1' :: List.replicate (2 ^ 32) 'x' := by
  constructor
  · have hlength : ('1' :: List.replicate (2 ^ 32) 'x').length = 2 ^ 32 + 1 := by
      rw [length_cons, length_replicate]
    rw [parseFixedPoint, hlength]
    rfl
  · rintro ⟨n, htext⟩
    have hmem : 'x' ∈ n.text := htext ▸ mem_cons_of_mem _ (List.mem_replicate.mpr ⟨by decide, rfl⟩)
    rcases mem_text hmem with hdigit | hother
    · cases hdigit
    · exact absurd hother (by decide)

end Bitcoboost.MoneyStr
