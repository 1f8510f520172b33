import Bitcoboost.Lib.ExceptBind
import Mathlib.Tactic.FieldSimp
import Mathlib.Tactic.Ring
import Mathlib.Tactic.Linarith

/-!
# Decimal numbers as fixed-point integers

`ParseFixedPoint` of `util/strencodings.cpp`. An operation on `int64_t` whose result does not
fit is an error of its own, so that it can be shown not to happen. `int end = val.size()` keeps
the low 32 bits of the size.

`JsonNumber.parseNumber_text` says what is returned for a JSON number and
`exists_text_of_parseNumber` that everything else is rejected.
-/

namespace Bitcoboost.FixedPoint

open ExceptBind List Nat

/-! ## The code -/

/-- The function returns false, or an operation has undefined behaviour. -/
inductive Failure where
  | rejected
  | overflow
deriving DecidableEq, Repr

def upperBound : Nat := 999999999999999999

/-- The result of an operation on `int64_t`. -/
def int64 (x : Int) : Except Failure Int :=
  if -0x8000000000000000 ≤ x ∧ x < 0x8000000000000000 then .ok x else .error .overflow

/-- A loop that multiplies by 10, `tooLarge` is its check. -/
def timesTen (tooLarge : Int → Bool) : Nat → Int → Except Failure Int
  | 0, mantissa => .ok mantissa
  | n + 1, mantissa => do
    if tooLarge mantissa then .error .rejected
    else
      let mantissa ← int64 (mantissa * 10)
      timesTen tooLarge n mantissa

abbrev Mantissa := Int × Nat

def processMantissaDigit (m : Mantissa) (ch : Char) : Except Failure Mantissa := do
  if ch = '0' then .ok (m.1, m.2 + 1)
  else
    let mantissa ← timesTen (fun mantissa => mantissa > upperBound / 10) (m.2 + 1) m.1
    let mantissa ← int64 (mantissa + (ch.toNat - '0'.toNat : Int))
    .ok (mantissa, 0)

/-- The digits before the point. -/
def parseWhole : List Char → Except Failure (Mantissa × List Char)
  | [] => .error .rejected
  | ch :: val => do
    if ch = '0' then .ok ((0, 0), val)
    else if '1' ≤ ch ∧ ch ≤ '9' then
      let m ← ((ch :: val).takeWhile Char.isDigit).foldlM processMantissaDigit (0, 0)
      .ok (m, (ch :: val).dropWhile Char.isDigit)
    else .error .rejected

/-- The point with digits after it: the mantissa, `point_ofs` and the rest. -/
def parseFraction (m : Mantissa) (val : List Char) :
    Except Failure (Mantissa × Nat × List Char) := do
  if val.head? = some '.' then
    let digits := val.tail.takeWhile Char.isDigit
    if digits = [] then .error .rejected
    else
      let m ← digits.foldlM processMantissaDigit m
      .ok (m, digits.length, val.tail.dropWhile Char.isDigit)
  else .ok (m, 0, val)

def processExponentDigit (exponent : Int) (ch : Char) : Except Failure Int := do
  if exponent > upperBound / 10 then .error .rejected
  else
    let exponent ← int64 (exponent * 10)
    let exponent ← int64 (exponent + ch.toNat)
    int64 (exponent - '0'.toNat)

variable (val : List Char)

def parseSign : Bool × List Char :=
  if val.head? = some '+' then (false, val.tail)
  else if val.head? = some '-' then (true, val.tail)
  else (false, val)

/-- The exponent: `exponent_sign`, `exponent` and the rest. -/
def parseExponent : Except Failure (Bool × Int × List Char) := do
  if val.head? = some 'e' ∨ val.head? = some 'E' then
    let (sign, val) := parseSign val.tail
    let digits := val.takeWhile Char.isDigit
    if digits = [] then .error .rejected
    else
      let exponent ← digits.foldlM processExponentDigit 0
      .ok (sign, exponent, val.dropWhile Char.isDigit)
  else .ok (false, 0, val)

/-- `if (sign) x = -x`. -/
def negateIf (sign : Bool) (x : Int) : Except Failure Int := if sign then int64 (-x) else .ok x

/-- The end of `ParseFixedPoint`, after the text was read. -/
def finalize (decimals : Nat) (mantissaSign : Bool) (m : Mantissa) (pointOfs : Nat)
    (exponentSign : Bool) (exponent : Int) : Except Failure Int := do
  let exponent ← negateIf exponentSign exponent
  let exponent ← int64 (exponent - pointOfs)
  let exponent ← int64 (exponent + m.2)
  let mantissa ← negateIf mantissaSign m.1
  let exponent ← int64 (exponent + decimals)
  if exponent < 0 then .error .rejected
  else if exponent ≥ 18 then .error .rejected
  else
    let mantissa ← timesTen (fun mantissa => mantissa > upperBound / 10 ∨
        mantissa < -(upperBound / 10 : Int))
      exponent.toNat mantissa
    if mantissa > upperBound ∨ mantissa < -(upperBound : Int) then .error .rejected
    else .ok mantissa

/-- `ParseFixedPoint` without the conversion of the size. -/
def parseNumber (decimals : Nat) : Except Failure Int := do
  let mantissaSign : Bool := val.head? = some '-'
  let (m, val) ← parseWhole (if mantissaSign then val.tail else val)
  let (m, pointOfs, val) ← parseFraction m val
  let (exponentSign, exponent, val) ← parseExponent val
  if val ≠ [] then .error .rejected
  else finalize decimals mantissaSign m pointOfs exponentSign exponent

/-- `ParseFixedPoint`. Nothing is read from `end` on. -/
def parseFixedPoint (decimals : Nat) : Except Failure Int :=
  parseNumber (val.take (BitVec.ofNat 32 val.length).toInt.toNat) decimals

/-! ## The loops -/

theorem int64_eq {x : Int} (h : x.natAbs ≤ 9000000000000000000) : int64 x = .ok x :=
  if_pos (by omega)

/-- The check of a loop, for the numbers that it sees. -/
def Checks (tooLarge : Int → Bool) (m : Int) : Prop :=
  ∀ k : Nat, tooLarge (m * 10 ^ k) = decide (upperBound / 10 < (m * 10 ^ k).natAbs)

variable {tooLarge : Int → Bool} {m : Int}

theorem Checks.next (h : Checks tooLarge m) : Checks tooLarge (m * 10) := fun k => by
  have hpow : m * 10 * 10 ^ k = m * 10 ^ (k + 1) := by rw [pow_succ]; ring
  rw [hpow]
  exact h (k + 1)

/-- What the loop gives where a multiplication without a check gives `x`. -/
def bounded (x : Int) : Except Failure Int :=
  if x.natAbs ≤ upperBound then .ok x else .error .rejected

theorem timesTen_eq (hchecks : Checks tooLarge m) (hm : m.natAbs ≤ upperBound)
    (n : Nat) : timesTen tooLarge n m = bounded (m * 10 ^ n) := by
  induction n generalizing m with
  | zero => rw [timesTen, pow_zero, mul_one, bounded, if_pos hm]
  | succ n ih =>
    have hcheck := hchecks 0
    rw [pow_zero, mul_one] at hcheck
    have hpow : m * 10 ^ (n + 1) = m * 10 * 10 ^ n := by rw [pow_succ]; ring
    rcases lt_or_ge (upperBound / 10) m.natAbs with hlarge | hsmall
    · rw [timesTen, hcheck, decide_eq_true hlarge, if_pos rfl, bounded, if_neg]
      have hone : 1 ≤ ((10 : Int) ^ n).natAbs := by simp [one_le_pow]
      have hle := mul_le_mul_left (m * 10).natAbs hone
      rw [hpow, Int.natAbs_mul]
      omega
    · have hle : (m * 10).natAbs ≤ upperBound := by
        omega
      rw [timesTen, hcheck, decide_eq_false (Nat.not_lt.mpr hsmall), if_neg Bool.false_ne_true,
        int64_eq (le_trans hle (by decide)), ok_bind, ih hchecks.next hle, hpow]

theorem negateIf_eq {k : Nat} (hk : k ≤ upperBound) (sign : Bool) :
    negateIf sign k = .ok (if sign then -(k : Int) else k) := by
  cases sign with
  | false => rfl
  | true => exact int64_eq (by simp only [upperBound] at hk; omega)

variable {ch : Char}

theorem toNat_of_isDigit (h : ch.isDigit) : 48 ≤ ch.toNat ∧ ch.toNat ≤ 57 := by
  simp only [Char.isDigit, Bool.and_eq_true, decide_eq_true_eq] at h
  exact ⟨UInt32.le_iff_toNat_le.mp h.1, UInt32.le_iff_toNat_le.mp h.2⟩

/-- A digit after the mantissa `p.1` with `p.2` zeros, without the bound. -/
def push (p : Nat × Nat) (ch : Char) : Nat × Nat :=
  if ch = '0' then (p.1, p.2 + 1) else (p.1 * 10 ^ (p.2 + 1) + (ch.toNat - 48), 0)

theorem le_push (p : Nat × Nat) (ch : Char) : p.1 ≤ (push p ch).1 := by
  unfold push
  split
  · exact le_refl _
  · exact Nat.le_trans (Nat.le_mul_of_pos_right _ (Nat.pow_pos (by decide))) (Nat.le_add_right _ _)

theorem le_foldl_push (p : Nat × Nat) (digits : List Char) : p.1 ≤ (digits.foldl push p).1 := by
  induction digits generalizing p with
  | nil => exact le_refl _
  | cons ch digits ih => exact le_trans (le_push p ch) (ih (push p ch))

/-- The mantissa, if it is not too large. -/
def boundedMantissa (p : Nat × Nat) : Except Failure Mantissa :=
  if p.1 ≤ upperBound then .ok (p.1, p.2) else .error .rejected

variable {p p : Nat × Nat} {digits rest : List Char} {decimals : Nat}

theorem processMantissaDigit_eq (hp : p.1 ≤ upperBound) (hch : ch.isDigit) :
    processMantissaDigit (p.1, p.2) ch = boundedMantissa (push p ch) := by
  rcases eq_or_ne ch '0' with rfl | hne
  · rw [processMantissaDigit, push, if_pos rfl, if_pos rfl, boundedMantissa, if_pos hp]
  · have hchecks : Checks (fun mantissa => mantissa > upperBound / 10) (p.1 : Int) := by
      intro k
      have hcast : ((p.1 : Int) * 10 ^ k) = ((p.1 * 10 ^ k : Nat) : Int) := by push_cast; rfl
      exact decide_eq_decide.mpr (by simp only [upperBound]; omega)
    have hdigit := toNat_of_isDigit hch
    have hcast :
      ((p.1 : Int) * 10 ^ (p.2 + 1)) = ((p.1 * 10 ^ (p.2 + 1) : Nat) : Int) := by push_cast; rfl
    have hten : p.1 * 10 ^ (p.2 + 1) % 10 = 0 := by rw [pow_succ, ← mul_assoc, mul_mod_left]
    rw [processMantissaDigit, push, if_neg hne, if_neg hne, timesTen_eq hchecks hp, boundedMantissa,
      bounded, hcast, Int.natAbs_natCast]
    rcases lt_or_ge upperBound (p.1 * 10 ^ (p.2 + 1)) with hlarge | hsmall
    · rw [if_neg (Nat.not_le.mpr hlarge), if_neg (by omega)]
      rfl
    · have hle : p.1 * 10 ^ (p.2 + 1) + (ch.toNat - 48) ≤ upperBound := by
        simp only [upperBound] at hsmall ⊢
        omega
      have hsub : ((p.1 * 10 ^ (p.2 + 1) : Nat) : Int) + ((ch.toNat : Int) - ('0'.toNat : Int))
          = ((p.1 * 10 ^ (p.2 + 1) + (ch.toNat - 48) : Nat) : Int) := by
        have hzero : '0'.toNat = 48 := rfl
        omega
      rw [if_pos hsmall, if_pos hle, ok_bind, hsub, int64_eq]
      · rfl
      · rw [Int.natAbs_natCast]
        exact le_trans hle (by decide)

theorem foldlM_processMantissaDigit (hp : p.1 ≤ upperBound) (hdigits : ∀ ch ∈ digits, ch.isDigit) :
    digits.foldlM processMantissaDigit ((p.1 : Int), p.2) =
      boundedMantissa (digits.foldl push p) := by
  induction digits generalizing p with
  | nil => exact (if_pos hp).symm
  | cons ch digits ih =>
    obtain ⟨hch, hrest⟩ := List.forall_mem_cons.mp hdigits
    rw [foldlM_cons, processMantissaDigit_eq hp hch, foldl_cons]
    rcases lt_or_ge upperBound (push p ch).1 with hlarge | hsmall
    · have hmore := lt_of_lt_of_le hlarge (le_foldl_push (push p ch) digits)
      rw [boundedMantissa, boundedMantissa, if_neg (Nat.not_le.mpr hlarge),
        if_neg (Nat.not_le.mpr hmore)]
      rfl
    · rw [boundedMantissa, if_pos hsmall, ok_bind, ih hsmall hrest]

theorem foldlM_mantissa (hdigits : ∀ ch ∈ digits, ch.isDigit) :
    digits.foldlM processMantissaDigit (0, 0) = boundedMantissa (digits.foldl push (0, 0)) :=
  foldlM_processMantissaDigit (p := (0, 0)) (zero_le _) hdigits

/-- The exponent, if it is not too large. -/
def boundedExponent (n : Nat) : Except Failure Int :=
  if n ≤ upperBound then .ok n else .error .rejected

theorem le_ofDigitChars (digits : List Char) (n : Nat) : n ≤ Nat.ofDigitChars 10 digits n := by
  induction digits generalizing n with
  | nil => exact le_refl _
  | cons ch digits ih =>
    rw [ofDigitChars_cons]
    exact le_trans (by omega) (ih _)

theorem foldlM_processExponentDigit {n : Nat} (hn : n ≤ upperBound)
    (hdigits : ∀ ch ∈ digits, ch.isDigit) :
    digits.foldlM processExponentDigit (n : Int) =
      boundedExponent (Nat.ofDigitChars 10 digits n) := by
  induction digits generalizing n with
  | nil => exact (if_pos hn).symm
  | cons ch digits ih =>
    obtain ⟨hch, hrest⟩ := List.forall_mem_cons.mp hdigits
    have hdigit := toNat_of_isDigit hch
    have hzero : '0'.toNat = 48 := rfl
    rw [foldlM_cons, ofDigitChars_cons]
    rcases lt_or_ge (upperBound / 10) n with hlarge | hsmall
    · have hmore := le_ofDigitChars digits (10 * n + (ch.toNat - '0'.toNat))
      have hstep : processExponentDigit n ch = .error .rejected :=
        if_pos (by simp only [upperBound] at hlarge ⊢; omega)
      rw [hstep, boundedExponent, if_neg (by simp only [upperBound] at hlarge ⊢; omega)]
      rfl
    · have hle : 10 * n + (ch.toNat - '0'.toNat) ≤ upperBound := by
        simp only [upperBound] at hsmall ⊢
        omega
      have hsub : ((n : Int) * 10 + ch.toNat) - ('0'.toNat : Int) =
          ((10 * n + (ch.toNat - '0'.toNat) : Nat) : Int) := by
        omega
      have hstep :
          processExponentDigit n ch = .ok ((10 * n + (ch.toNat - '0'.toNat) : Nat) : Int) := by
        simp only [upperBound] at hsmall
        rw [processExponentDigit, if_neg (by simp only [upperBound]; omega),
          int64_eq (by omega), ok_bind, int64_eq (by omega), ok_bind, hsub, int64_eq (by omega)]
      rw [hstep, ok_bind, ih hle hrest]

/-! ## JSON numbers -/

structure JsonExponent where
  mark : Char
  sign : List Char
  digits : List Char
  mark_eq : mark = 'e' ∨ mark = 'E'
  sign_eq : sign = [] ∨ sign = ['+'] ∨ sign = ['-']
  digits_ne : digits ≠ []
  isDigit_digits : ∀ ch ∈ digits, ch.isDigit

/-- A JSON number: an optional minus, digits without superfluous leading zeros, and an
optional fraction, which is empty if there is none, and exponent. -/
structure JsonNumber where
  negative : Bool
  whole : List Char
  fraction : List Char
  exponent : Option JsonExponent
  isDigit_whole : ∀ ch ∈ whole, ch.isDigit
  whole_eq : whole = ['0'] ∨ ∃ ch digits, whole = ch :: digits ∧ ch ≠ '0'
  isDigit_fraction : ∀ ch ∈ fraction, ch.isDigit

def JsonExponent.text (exponent : JsonExponent) : List Char :=
  exponent.mark :: (exponent.sign ++ exponent.digits)

def JsonExponent.value (exponent : JsonExponent) : Int :=
  if exponent.sign = ['-'] then -Nat.ofDigitChars 10 exponent.digits 0
  else Nat.ofDigitChars 10 exponent.digits 0

namespace JsonNumber

variable (n : JsonNumber)

def exponentText : List Char := (n.exponent.map JsonExponent.text).getD []

def fractionText : List Char := if n.fraction = [] then [] else '.' :: n.fraction

def text : List Char :=
  (if n.negative then ['-'] else []) ++ (n.whole ++ (n.fractionText ++ n.exponentText))

def exponentValue : Int := (n.exponent.map JsonExponent.value).getD 0

/-- The number that the text denotes. -/
def value : ℚ :=
  (if n.negative then -1 else 1) * Nat.ofDigitChars 10 (n.whole ++ n.fraction) 0
    * 10 ^ (n.exponentValue - n.fraction.length)

/-- The mantissa after the digits before the point: a single `0` is passed over. -/
def wholeSignificand : Nat × Nat := if n.whole = ['0'] then (0, 0) else n.whole.foldl push (0, 0)

/-- The mantissa and the zeros after it. -/
def significand : Nat × Nat := n.fraction.foldl push n.wholeSignificand

/-- The exponent after it was finalized. -/
def shift (decimals : Nat) : Int := n.exponentValue - n.fraction.length + n.significand.2 + decimals

/-- What is returned if the number fits. -/
def scaled (decimals : Nat) : Int :=
  (if n.negative then -(n.significand.1 : Int) else n.significand.1) * 10 ^ (n.shift decimals).toNat

def Fits (decimals : Nat) : Prop :=
  n.significand.1 ≤ upperBound ∧ n.exponentValue.natAbs ≤ upperBound ∧ 0 ≤ n.shift decimals ∧
    n.shift decimals < 18 ∧ (n.scaled decimals).natAbs ≤ upperBound

instance (decimals : Nat) : Decidable (n.Fits decimals) := inferInstanceAs (Decidable (_ ∧ _))

/-- What `ParseFixedPoint` returns for the number. -/
def result (decimals : Nat) : Except Failure Int :=
  if n.Fits decimals then .ok (n.scaled decimals) else .error .rejected

end JsonNumber

/-! ## Reading a number -/

/-- A text that does not go on with a digit. -/
def NoDigit : Prop := ∀ ch ∈ val.head?, ch.isDigit = false

theorem noDigit_nil : NoDigit [] := by simp [NoDigit]

theorem takeWhile_digits (hdigits : ∀ ch ∈ digits, ch.isDigit) (hrest : NoDigit rest) :
    (digits ++ rest).takeWhile Char.isDigit = digits := by
  rw [takeWhile_append_of_pos hdigits]
  cases rest with
  | nil => simp
  | cons ch rest => simp [hrest ch rfl]

theorem dropWhile_digits (hdigits : ∀ ch ∈ digits, ch.isDigit) (hrest : NoDigit rest) :
    (digits ++ rest).dropWhile Char.isDigit = rest := by
  rw [dropWhile_append_of_pos hdigits]
  cases rest with
  | nil => rfl
  | cons ch rest => simp [hrest ch rfl]

namespace JsonNumber

variable (n : JsonNumber) {decimals : Nat}

theorem noDigit_exponentText : NoDigit n.exponentText := by
  cases hexponent : n.exponent with
  | none => simp [NoDigit, exponentText, hexponent]
  | some exponent =>
    rcases exponent.mark_eq with hmark | hmark <;>
      simp [NoDigit, exponentText, hexponent, JsonExponent.text, hmark]

theorem noDigit_fractionText : NoDigit (n.fractionText ++ n.exponentText) := by
  rcases eq_or_ne n.fraction [] with hnone | hsome
  · simpa [fractionText, hnone] using n.noDigit_exponentText
  · simp [NoDigit, fractionText, hsome]

theorem parseWhole_text (rest : List Char) (hrest : NoDigit rest) :
    parseWhole (n.whole ++ rest) = boundedMantissa n.wholeSignificand >>= fun m =>
    .ok (m, rest) := by
  rcases n.whole_eq with hzero | ⟨ch, digits, hwhole, hne⟩
  · rw [hzero, wholeSignificand, if_pos hzero]
    rfl
  · have hch : ch.isDigit := n.isDigit_whole ch (by simp [hwhole])
    have hrange : '1' ≤ ch ∧ ch ≤ '9' := by
      have hdigit := toNat_of_isDigit hch
      have hnat : ch.toNat ≠ 48 := fun heq => hne (Char.toNat_inj.mp heq)
      exact ⟨UInt32.le_iff_toNat_le.mpr (show 49 ≤ ch.toNat by omega),
        UInt32.le_iff_toNat_le.mpr (show ch.toNat ≤ 57 by omega)⟩
    have hnot : n.whole ≠ ['0'] := by
      rw [hwhole]
      rintro ⟨⟩
      exact hne rfl
    have htake := takeWhile_digits n.isDigit_whole hrest
    have hdrop := dropWhile_digits n.isDigit_whole hrest
    rw [wholeSignificand, if_neg hnot, ← foldlM_mantissa n.isDigit_whole]
    rw [hwhole] at htake hdrop ⊢
    rw [cons_append, parseWhole, if_neg hne, if_pos hrange]
    rw [cons_append] at htake hdrop
    rw [htake, hdrop]

theorem parseFraction_text (hwhole : n.wholeSignificand.1 ≤ upperBound) :
    parseFraction ((n.wholeSignificand.1 : Int), n.wholeSignificand.2)
    (n.fractionText ++ n.exponentText)
      = boundedMantissa n.significand >>= fun m => .ok (m, n.fraction.length, n.exponentText) := by
  rcases eq_or_ne n.fraction [] with hnone | hsome
  · have hhead : n.exponentText.head? ≠ some '.' := by
      cases hexponent : n.exponent with
      | none => simp [exponentText, hexponent]
      | some exponent =>
        rcases exponent.mark_eq with hmark | hmark <;>
          simp [exponentText, hexponent, JsonExponent.text, hmark]
    rw [fractionText, if_pos hnone, nil_append, parseFraction, if_neg hhead, significand,
      hnone, foldl_nil, boundedMantissa, if_pos hwhole]
    rfl
  · have htake := takeWhile_digits n.isDigit_fraction n.noDigit_exponentText
    have hdrop := dropWhile_digits n.isDigit_fraction n.noDigit_exponentText
    have hhead : ('.' :: (n.fraction ++ n.exponentText)).head? = some '.' := rfl
    rw [fractionText, if_neg hsome, cons_append, parseFraction, if_pos hhead, tail_cons,
      htake, hdrop]
    rw [if_neg hsome, foldlM_processMantissaDigit hwhole n.isDigit_fraction]
    rfl

theorem parseExponent_text :
    ∃ sign N, parseExponent n.exponentText = boundedExponent N >>= (fun e => .ok (sign, e, []))
    ∧ n.exponentValue = if sign then -(N : Int) else N := by
  cases hexponent : n.exponent with
  | none =>
    refine ⟨false, 0, ?_, by simp [exponentValue, hexponent]⟩
    rw [exponentText, hexponent]
    rfl
  | some exponent =>
    have htake := takeWhile_digits exponent.isDigit_digits noDigit_nil
    have hdrop := dropWhile_digits exponent.isDigit_digits noDigit_nil
    rw [append_nil] at htake hdrop
    have hmark : (exponent.mark :: (exponent.sign ++ exponent.digits)).head? = some 'e' ∨
        (exponent.mark :: (exponent.sign ++ exponent.digits)).head? = some 'E' := by
      rcases exponent.mark_eq with hmark | hmark <;> simp [hmark]
    have hsign : parseSign (exponent.sign ++ exponent.digits) =
        (decide (exponent.sign = ['-']), exponent.digits) := by
      rcases exponent.sign_eq with hsign | hsign | hsign
      · have hhead : ∀ ch, ch.isDigit = false → exponent.digits.head? ≠ some ch := by
          intro ch hch heq
          have hdigit := exponent.isDigit_digits ch (mem_of_head? heq)
          rw [hch] at hdigit
          cases hdigit
        rw [hsign, nil_append, parseSign, if_neg (hhead '+' rfl), if_neg (hhead '-' rfl)]
        rfl
      · rw [hsign]
        rfl
      · rw [hsign]
        rfl
    refine ⟨decide (exponent.sign = ['-']), Nat.ofDigitChars 10 exponent.digits 0, ?_, ?_⟩
    · have hloop := foldlM_processExponentDigit (n := 0) (zero_le _) exponent.isDigit_digits
      rw [exponentText, hexponent, Option.map_some, Option.getD_some, JsonExponent.text,
        parseExponent, if_pos hmark, tail_cons, hsign]
      dsimp only
      rw [htake, hdrop, if_neg exponent.digits_ne, ← hloop]
      rfl
    · simp [exponentValue, hexponent, JsonExponent.value]

theorem foldl_push_snd_le (p : Nat × Nat) (digits : List Char) :
    (digits.foldl push p).2 ≤ p.2 + digits.length := by
  induction digits generalizing p with
  | nil => exact le_refl _
  | cons ch digits ih =>
    have hstep : (push p ch).2 ≤ p.2 + 1 := by
      unfold push
      split <;> omega
    have hrest := ih (push p ch)
    rw [foldl_cons, length_cons]
    omega

theorem length_text : n.fraction.length ≤ n.text.length ∧ n.significand.2 ≤ n.text.length := by
  have hwhole : n.wholeSignificand.2 ≤ n.whole.length := by
    unfold wholeSignificand
    split
    · exact zero_le _
    · exact le_trans (foldl_push_snd_le (0, 0) n.whole) (by omega)
  have hfraction := foldl_push_snd_le n.wholeSignificand n.fraction
  have hlength : n.fraction.length ≤ n.fractionText.length := by
    unfold fractionText
    split
    · next hnone => simp [hnone]
    · exact le_succ _
  simp only [text, significand, length_append]
  omega

theorem finalize_eq {N : Nat} {sign : Bool} (hdecimals : decimals ≤ 17)
    (hlength : n.text.length < 0x80000000)
    (hmantissa : n.significand.1 ≤ upperBound) (hN : N ≤ upperBound)
    (hexponent : n.exponentValue = if sign then -(N : Int) else N) :
    finalize decimals n.negative (n.significand.1, n.significand.2) n.fraction.length sign N =
      n.result decimals := by
  have hlengths := n.length_text
  have hsign : negateIf sign N = .ok n.exponentValue := hexponent ▸ negateIf_eq hN sign
  have habs : n.exponentValue.natAbs ≤ upperBound := by
    rw [hexponent]
    split <;> omega
  have habs' := habs
  simp only [upperBound] at habs'
  have hchecks :
      ∀ m : Int, Checks (fun m => m > upperBound / 10 ∨ m < -(upperBound / 10 : Int)) m :=
      fun m k =>
    decide_eq_decide.mpr (by simp only [upperBound]; omega)
  have hsigned :
      (if n.negative then -(n.significand.1 : Int) else n.significand.1).natAbs ≤ upperBound := by
    split <;> omega
  rw [finalize, hsign, ok_bind, int64_eq (by omega), ok_bind, int64_eq (by dsimp only; omega),
    ok_bind, negateIf_eq hmantissa, ok_bind, int64_eq (by dsimp only; omega), ok_bind]
  have hshift :
    n.exponentValue - n.fraction.length + n.significand.2 + decimals = n.shift decimals := rfl
  rw [hshift, result]
  split
  · next hlow => rw [if_neg fun hfits => by have := hfits.2.2.1; omega]
  · split
    · next hhigh => rw [if_neg fun hfits => by have := hfits.2.2.2.1; omega]
    · next hlow hhigh =>
      rw [timesTen_eq (hchecks _) hsigned, bounded]
      have hscaled : (if n.negative then -(n.significand.1 : Int) else n.significand.1) *
          10 ^ (n.shift decimals).toNat
          = n.scaled decimals := rfl
      rw [hscaled]
      rcases lt_or_ge upperBound (n.scaled decimals).natAbs with hlarge | hsmall
      · rw [if_neg (Nat.not_le.mpr hlarge), if_neg fun hfits => Nat.not_le.mpr hlarge hfits.2.2.2.2]
        rfl
      · rw [if_pos hsmall, if_pos ⟨hmantissa, habs, Int.not_lt.mp hlow, Int.not_le.mp hhigh,
          hsmall⟩, ok_bind, if_neg (by omega)]

/-- What is returned for a JSON number. -/
theorem parseNumber_text (hdecimals : decimals ≤ 17) (hlength : n.text.length < 0x80000000) :
    parseNumber n.text decimals = n.result decimals := by
  have hsign : decide (n.text.head? = some '-') = n.negative := by
    cases hnegative : n.negative with
    | true => simp [text, hnegative]
    | false =>
      rcases n.whole_eq with hwhole | ⟨ch, digits, hwhole, -⟩
      · simp [text, hnegative, hwhole]
      · have hdigit := n.isDigit_whole ch (by simp [hwhole])
        have hne : ch ≠ '-' := by
          rintro rfl
          cases hdigit
        simp [text, hnegative, hwhole, hne]
  have htail : (if n.negative then n.text.tail else n.text) =
      n.whole ++ (n.fractionText ++ n.exponentText) := by
    cases hnegative : n.negative <;> simp [text, hnegative]
  have hrejected : upperBound < n.significand.1 → n.result decimals = .error .rejected :=
      fun hlarge =>
    if_neg fun hfits => Nat.not_le.mpr hlarge hfits.1
  rw [parseNumber, hsign, htail, n.parseWhole_text _ n.noDigit_fractionText, boundedMantissa]
  rcases lt_or_ge upperBound n.wholeSignificand.1 with hlarge | hwhole
  · rw [if_neg (Nat.not_le.mpr hlarge), hrejected (lt_of_lt_of_le hlarge (le_foldl_push _ _))]
    rfl
  · rw [if_pos hwhole]
    simp only [ok_bind]
    rw [n.parseFraction_text hwhole, boundedMantissa]
    rcases lt_or_ge upperBound n.significand.1 with hlarge | hmantissa
    · rw [if_neg (Nat.not_le.mpr hlarge), hrejected hlarge]
      rfl
    · rw [if_pos hmantissa]
      simp only [ok_bind]
      obtain ⟨sign, N, hparse, hvalue⟩ := n.parseExponent_text
      rw [hparse, boundedExponent]
      rcases lt_or_ge upperBound N with hlarge | hN
      · have hnot : ¬ n.Fits decimals := fun hfits => by
          have habs := hfits.2.1
          rw [hvalue] at habs
          split at habs <;> omega
        rw [if_neg (Nat.not_le.mpr hlarge), result, if_neg hnot]
        rfl
      · rw [if_pos hN]
        simp only [ok_bind]
        rw [if_neg (not_not_intro rfl), n.finalize_eq hdecimals hlength hmantissa hN hvalue]

end JsonNumber

/-! ## What is accepted -/

theorem isDigit_of_range (h : '1' ≤ ch ∧ ch ≤ '9') : ch.isDigit := by
  have hlow : 49 ≤ ch.toNat := UInt32.le_iff_toNat_le.mp h.1
  simp only [Char.isDigit, Bool.and_eq_true, decide_eq_true_eq]
  exact ⟨UInt32.le_iff_toNat_le.mpr (show 48 ≤ ch.toNat by omega), h.2⟩

theorem boundedMantissa_cases :
    boundedMantissa p = .error .rejected ∨ p.1 ≤ upperBound ∧
    boundedMantissa p = .ok ((p.1 : Int), p.2) := by
  rcases lt_or_ge upperBound p.1 with hlarge | hsmall
  · exact .inl (if_neg (Nat.not_le.mpr hlarge))
  · exact .inr ⟨hsmall, if_pos hsmall⟩

variable (val : List Char)

theorem isDigit_takeWhile : ∀ ch ∈ val.takeWhile Char.isDigit, ch.isDigit :=
  List.all_eq_true.mp all_takeWhile

abbrev ofNat (p : Nat × Nat) : Mantissa := ((p.1 : Int), p.2)

theorem parseWhole_cases : parseWhole val = .error .rejected ∨
    ∃ p whole rest, p.1 ≤ upperBound ∧ parseWhole val = .ok (ofNat p, rest) ∧ val = whole ++ rest ∧
      (∀ ch ∈ whole, ch.isDigit) ∧ (whole = ['0'] ∨ ∃ ch digits, whole = ch :: digits ∧
        ch ≠ '0') := by
  cases val with
  | nil => exact .inl rfl
  | cons ch val =>
    rcases eq_or_ne ch '0' with rfl | hne
    · exact .inr ⟨(0, 0), ['0'], val, zero_le _, rfl, rfl, by simp, .inl rfl⟩
    · by_cases hrange : '1' ≤ ch ∧ ch ≤ '9'
      · rw [parseWhole, if_neg hne, if_pos hrange, foldlM_mantissa (isDigit_takeWhile (ch :: val))]
        rcases boundedMantissa_cases with hbad | ⟨hp, hgood⟩
        · exact .inl (by rw [hbad]; rfl)
        · refine .inr ⟨_, _, _, hp, by rw [hgood]; rfl, List.takeWhile_append_dropWhile.symm,
            isDigit_takeWhile _, .inr ⟨ch, val.takeWhile Char.isDigit, ?_, hne⟩⟩
          rw [takeWhile_cons, if_pos (isDigit_of_range hrange)]
      · exact .inl (by rw [parseWhole, if_neg hne, if_neg hrange])

theorem parseFraction_cases (hp : p.1 ≤ upperBound) (val : List Char) :
    parseFraction (ofNat p) val = .error .rejected ∨
    ∃ q fraction rest, parseFraction (ofNat p) val = .ok (q, fraction.length, rest) ∧
      val = (if fraction = [] then [] else '.' :: fraction) ++ rest ∧ ∀ ch ∈ fraction,
        ch.isDigit := by
  rw [parseFraction]
  split
  · next hpoint =>
    obtain ⟨val, rfl⟩ : ∃ val', val = '.' :: val' := ⟨val.tail, (cons_head?_tail hpoint).symm⟩
    dsimp only [tail_cons]
    split
    · exact .inl rfl
    · next hne =>
      rw [foldlM_processMantissaDigit hp (isDigit_takeWhile val)]
      rcases boundedMantissa_cases with hbad | ⟨_, hgood⟩
      · exact .inl (by rw [hbad]; rfl)
      · refine .inr ⟨_, val.takeWhile Char.isDigit, _, by rw [hgood]; rfl, ?_,
          isDigit_takeWhile val⟩
        rw [if_neg hne, cons_append, takeWhile_append_dropWhile]
  · exact .inr ⟨_, [], val, rfl, rfl, by simp⟩

theorem parseSign_cases :
    ∃ sign, val = sign ++ (parseSign val).2 ∧ (sign = [] ∨ sign = ['+'] ∨ sign = ['-']) := by
  unfold parseSign
  split
  · next hplus => exact ⟨['+'], (cons_head?_tail hplus).symm, .inr (.inl rfl)⟩
  · split
    · next hminus => exact ⟨['-'], (cons_head?_tail hminus).symm, .inr (.inr rfl)⟩
    · exact ⟨[], rfl, .inl rfl⟩

theorem parseExponent_cases : parseExponent val = .error .rejected ∨
    ∃ sign e rest, ∃ exponent : Option JsonExponent, parseExponent val = .ok (sign, e, rest) ∧
      val = (exponent.map JsonExponent.text).getD [] ++ rest := by
  rw [parseExponent]
  split
  · next hmark =>
    obtain ⟨mark, hhead, hmark'⟩ : ∃ mark, val.head? = some mark ∧ (mark = 'e' ∨ mark = 'E') := by
      rcases hmark with hmark | hmark
      · exact ⟨'e', hmark, .inl rfl⟩
      · exact ⟨'E', hmark, .inr rfl⟩
    obtain ⟨val, rfl⟩ : ∃ val', val = mark :: val' := ⟨val.tail, (cons_head?_tail hhead).symm⟩
    dsimp only [tail_cons]
    obtain ⟨sign, hval, hsign⟩ := parseSign_cases val
    split
    · exact .inl rfl
    · next hne =>
      have hloop :=
        foldlM_processExponentDigit (n := 0) (zero_le _) (isDigit_takeWhile (parseSign val).2)
      rw [cast_zero] at hloop
      rw [hloop, boundedExponent]
      split
      · refine .inr ⟨_, _, _, some ⟨mark, sign, _, hmark', hsign, hne, isDigit_takeWhile _⟩, rfl,
          ?_⟩
        simp [JsonExponent.text, ← hval]
      · exact .inl rfl
  · exact .inr ⟨false, 0, val, none, rfl, rfl⟩

theorem exists_text_of_parseNumber {val : List Char}
    (h : parseNumber val decimals ≠ .error .rejected) : ∃ n : JsonNumber, n.text = val := by
  rw [parseNumber] at h
  rcases parseWhole_cases (if (decide (val.head? = some '-')) = true then val.tail else val) with
    hbad | ⟨p, whole, rest, hp, hwhole, heq, hdigits, hzero⟩
  · exact absurd (by rw [hbad]; rfl) h
  rw [hwhole] at h
  simp only [ok_bind] at h
  rcases parseFraction_cases hp rest with hbad | ⟨q, fraction, rest', hfraction, rfl, hfdigits⟩
  · exact absurd (by rw [hbad]; rfl) h
  rw [hfraction] at h
  simp only [ok_bind] at h
  rcases parseExponent_cases rest' with hbad | ⟨sign, e, rest'', exponent, hexponent, rfl⟩
  · exact absurd (by rw [hbad]; rfl) h
  rw [hexponent] at h
  have hend : rest'' = [] := by
    by_contra hne
    exact h (if_pos hne)
  refine ⟨⟨decide (val.head? = some '-'), whole, fraction, exponent, hdigits, hzero, hfdigits⟩, ?_⟩
  rw [hend, append_nil] at heq
  simp only [JsonNumber.text, JsonNumber.fractionText, JsonNumber.exponentText, ← heq]
  split
  · next hminus => exact cons_head?_tail (of_decide_eq_true hminus)
  · rfl

/-! ## The value -/

theorem push_value (p : Nat × Nat) (ch : Char) :
    (push p ch).1 * 10 ^ (push p ch).2 = 10 * (p.1 * 10 ^ p.2) + (ch.toNat - '0'.toNat) := by
  unfold push
  split
  · next hzero =>
    rw [hzero, pow_succ]
    simp only [Nat.sub_self, Nat.add_zero]
    ring
  · rw [pow_zero, mul_one, pow_succ]
    exact congrArg (· + (ch.toNat - 48)) (by ring)

theorem foldl_push_value {digits : List Char} :
    (digits.foldl push p).1 * 10 ^ (digits.foldl push p).2 =
      Nat.ofDigitChars 10 digits (p.1 * 10 ^ p.2) := by
  induction digits generalizing p with
  | nil => rfl
  | cons ch digits ih => rw [foldl_cons, ih, push_value, ofDigitChars_cons]

/-- No zero is at the end of the mantissa. -/
def Primitive (p : Nat × Nat) : Prop := p.1 = 0 ∨ ¬ 10 ∣ p.1

theorem primitive_push (hp : Primitive p) (hch : ch.isDigit) : Primitive (push p ch) := by
  rcases eq_or_ne ch '0' with hzero | hne
  · rw [push, if_pos hzero]
    exact hp
  · refine .inr ?_
    have hdigit := toNat_of_isDigit hch
    have hnat : ch.toNat ≠ 48 := fun heq => hne (Char.toNat_inj.mp heq)
    have hten : p.1 * 10 ^ (p.2 + 1) % 10 = 0 := by rw [pow_succ, ← mul_assoc, mul_mod_left]
    rw [push, if_neg hne]
    omega

theorem primitive_foldl_push (hp : Primitive p) (hdigits : ∀ ch ∈ digits, ch.isDigit) :
    Primitive (digits.foldl push p) := by
  induction digits generalizing p with
  | nil => exact hp
  | cons ch digits ih =>
    obtain ⟨hch, hrest⟩ := List.forall_mem_cons.mp hdigits
    exact ih (primitive_push hp hch) hrest

namespace JsonNumber

variable (n : JsonNumber) {k : Int} {decimals : Nat}

theorem significand_value :
    n.significand.1 * 10 ^ n.significand.2 = Nat.ofDigitChars 10 (n.whole ++ n.fraction) 0 := by
  have hwhole :
      n.wholeSignificand.1 * 10 ^ n.wholeSignificand.2 = Nat.ofDigitChars 10 n.whole 0 := by
    unfold wholeSignificand
    split
    · next hzero =>
      rw [hzero]
      rfl
    · exact foldl_push_value
  rw [significand, foldl_push_value, hwhole, ofDigitChars_append]

theorem primitive_significand : Primitive n.significand := by
  refine primitive_foldl_push ?_ n.isDigit_fraction
  unfold wholeSignificand
  split
  · exact .inl rfl
  · exact primitive_foldl_push (.inl rfl) n.isDigit_whole

/-- The value in terms of the mantissa and the exponent that were found. -/
theorem value_mul (decimals : Nat) :
    n.value * 10 ^ decimals = (if n.negative then -1 else 1) * n.significand.1 *
      10 ^ n.shift decimals := by
  have hten : (10 : ℚ) ≠ 0 := by decide
  rw [value, ← n.significand_value, shift, zpow_add₀ hten, zpow_add₀ hten, zpow_natCast,
    zpow_natCast]
  push_cast
  ring

theorem scaled_eq (decimals : Nat) (h : 0 ≤ n.shift decimals) :
    (n.scaled decimals : ℚ) = n.value * 10 ^ decimals := by
  have hpow : (10 : ℚ) ^ n.shift decimals = 10 ^ (n.shift decimals).toNat := by
    rw [← zpow_natCast, Int.toNat_of_nonneg h]
  rw [value_mul, hpow, scaled]
  split <;> push_cast <;> ring

theorem natAbs_eq (hk : n.value * 10 ^ decimals = k) :
    (k.natAbs : ℚ) = n.significand.1 * 10 ^ n.shift decimals := by
  have hpos : (0 : ℚ) ≤ n.significand.1 * 10 ^ n.shift decimals :=
    mul_nonneg (cast_nonneg _) (zpow_nonneg (by decide) _)
  have habs : ((k.natAbs : Int) : ℚ) = |(k : ℚ)| := by rw [Int.natCast_natAbs, Int.cast_abs]
  rw [← Int.cast_natCast, habs, ← hk, value_mul]
  split
  · rw [neg_one_mul, neg_mul, abs_neg, abs_of_nonneg hpos]
  · rw [one_mul, abs_of_nonneg hpos]

/-- A nonzero number that is a multiple of the unit has a mantissa that ends before it. -/
theorem shift_nonneg (hne : n.significand.1 ≠ 0) (hk : n.value * 10 ^ decimals = k) :
    0 ≤ n.shift decimals := by
  by_contra hneg
  obtain ⟨j, hj⟩ : ∃ j : Nat, n.shift decimals = -(j + 1 : Nat) :=
    ⟨(-n.shift decimals).toNat - 1, by omega⟩
  have hten : ((10 : ℚ) ^ (j + 1)) ≠ 0 := pow_ne_zero _ (by decide)
  have hcast : ((k.natAbs * 10 ^ (j + 1) : Nat) : ℚ) = n.significand.1 := by
    have hnat := n.natAbs_eq hk
    rw [hj, zpow_neg, zpow_natCast] at hnat
    push_cast
    rw [hnat, mul_assoc, inv_mul_cancel₀ hten, mul_one]
  have hnat : k.natAbs * 10 ^ (j + 1) = n.significand.1 := cast_injective hcast
  rcases n.primitive_significand with hzero | hnot
  · exact hne hzero
  · exact hnot ⟨k.natAbs * 10 ^ j, by rw [← hnat, pow_succ]; ring⟩

/-- A number that is a multiple of the unit and within the bound fits. -/
theorem fits_of_value (hdecimals : decimals ≤ 17) (hlength : n.text.length < 0x80000000)
    (hne : n.value ≠ 0) (hk : n.value * 10 ^ decimals = k) (hbound : k.natAbs ≤ upperBound) :
    n.Fits decimals := by
  have hmantissa : n.significand.1 ≠ 0 := by
    intro hzero
    have hvalue := n.value_mul 0
    rw [hzero, cast_zero, mul_zero, zero_mul, pow_zero, mul_one] at hvalue
    exact hne hvalue
  have hshift := n.shift_nonneg hmantissa hk
  have hscaled : n.scaled decimals = k :=
    Int.cast_injective ((n.scaled_eq decimals hshift).trans hk)
  have hnat : k.natAbs = n.significand.1 * 10 ^ (n.shift decimals).toNat := by
    have hcast := n.natAbs_eq hk
    rw [← Int.toNat_of_nonneg hshift, zpow_natCast] at hcast
    exact_mod_cast hcast
  have hle : n.significand.1 ≤ k.natAbs :=
    hnat ▸ Nat.le_mul_of_pos_right _ (Nat.pow_pos (by decide))
  have hpow : 10 ^ (n.shift decimals).toNat ≤ k.natAbs :=
    hnat ▸ Nat.le_mul_of_pos_left _ (Nat.pos_of_ne_zero hmantissa)
  have hlt : (n.shift decimals).toNat < 18 := by
    have hpow' : 10 ^ (n.shift decimals).toNat < 10 ^ 18 :=
      lt_of_le_of_lt (le_trans hpow hbound) (by decide)
    exact (Nat.pow_lt_pow_iff_right (by decide)).mp hpow'
  have hlengths := n.length_text
  refine ⟨le_trans hle hbound, ?_, hshift, by omega, hscaled ▸ hbound⟩
  have hvalue :
      n.exponentValue = n.shift decimals - decimals - n.significand.2 + n.fraction.length := by
    rw [shift]
    ring
  simp only [upperBound]
  omega

end JsonNumber

/-- `end` is the size of a string of fewer than 2^31 characters. -/
theorem parseFixedPoint_eq {val : List Char} (hlength : val.length < 0x80000000) (decimals : Nat) :
    parseFixedPoint val decimals = parseNumber val decimals := by
  have hend : (BitVec.ofNat 32 val.length).toInt.toNat = val.length := by
    rw [BitVec.toInt_eq_toNat_of_lt (by rw [BitVec.toNat_ofNat]; omega), BitVec.toNat_ofNat]
    omega
  rw [parseFixedPoint, hend, take_length]

theorem parseFixedPoint_sound {val : List Char} (hlength : val.length < 0x80000000)
    (hdecimals : decimals ≤ 17) {amount : Int} (h : parseFixedPoint val decimals = .ok amount) :
    ∃ n : JsonNumber, n.text = val ∧ (amount : ℚ) = n.value * 10 ^ decimals := by
  rw [parseFixedPoint_eq hlength] at h
  obtain ⟨n, rfl⟩ := exists_text_of_parseNumber (fun heq => by cases heq.symm.trans h)
  refine ⟨n, rfl, ?_⟩
  rw [n.parseNumber_text hdecimals hlength, JsonNumber.result] at h
  split at h
  · next hfits =>
    cases h
    exact n.scaled_eq decimals hfits.2.2.1
  · cases h

theorem parseFixedPoint_complete (n : JsonNumber) (hlength : n.text.length < 0x80000000)
    (hdecimals : decimals ≤ 17) (hne : n.value ≠ 0) {k : Int} (hk : n.value * 10 ^ decimals = k)
    (hbound : k.natAbs ≤ upperBound) : parseFixedPoint n.text decimals = .ok k := by
  have hfits := n.fits_of_value hdecimals hlength hne hk hbound
  have hscaled : n.scaled decimals = k :=
    Int.cast_injective ((n.scaled_eq decimals hfits.2.2.1).trans hk)
  rw [parseFixedPoint_eq hlength, n.parseNumber_text hdecimals hlength, JsonNumber.result,
    if_pos hfits, hscaled]

/-- No operation overflows, whatever the string. -/
theorem parseFixedPoint_ne_overflow (hdecimals : decimals ≤ 17) :
    parseFixedPoint val decimals ≠ .error .overflow := by
  intro h
  obtain ⟨n, htext⟩ := exists_text_of_parseNumber (fun heq => by cases heq.symm.trans h)
  have hlength : n.text.length < 0x80000000 := by
    rw [htext, length_take]
    have hlt := BitVec.toInt_lt (x := BitVec.ofNat 32 val.length)
    omega
  rw [parseFixedPoint, ← htext, n.parseNumber_text hdecimals hlength, JsonNumber.result] at h
  split at h <;> cases h

end Bitcoboost.FixedPoint
