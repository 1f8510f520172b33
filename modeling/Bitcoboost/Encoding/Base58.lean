import Bitcoboost.Lib.Positional
import Bitcoboost.Util.Bytes
import Mathlib.Data.List.TakeWhile

/-!
# Base58 and Base58Check

`EncodeBase58` and `DecodeBase58` convert between base 256 and base 58 by Horner's rule on an
array of digits of fixed size. `none` is a failed assertion, or an array that is too long. The
arrays are lists with the lowest digit first, the order of the loops of the source.

The array always holds the digits of the number read so far, followed by zeros
(`carryLoop_digits`), so the assertions hold.
-/

namespace Bitcoboost

open List Option Nat

/-- `pszBase58`: all alphanumeric characters except "0", "I", "O" and "l". -/
def pszBase58 : Bytes := Bytes.ofString "123456789ABCDEFGHJKLMNPQRSTUVWXYZabcdefghijkmnopqrstuvwxyz"

def mapBase58 : List Int :=
  [-1, -1, -1, -1, -1, -1, -1, -1, -1, -1, -1, -1, -1, -1, -1, -1,
   -1, -1, -1, -1, -1, -1, -1, -1, -1, -1, -1, -1, -1, -1, -1, -1,
   -1, -1, -1, -1, -1, -1, -1, -1, -1, -1, -1, -1, -1, -1, -1, -1,
   -1, 0, 1, 2, 3, 4, 5, 6, 7, 8, -1, -1, -1, -1, -1, -1,
   -1, 9, 10, 11, 12, 13, 14, 15, 16, -1, 17, 18, 19, 20, 21, -1,
   22, 23, 24, 25, 26, 27, 28, 29, 30, 31, 32, -1, -1, -1, -1, -1,
   -1, 33, 34, 35, 36, 37, 38, 39, 40, 41, 42, 43, -1, 44, 45, 46,
   47, 48, 49, 50, 51, 52, 53, 54, 55, 56, 57, -1, -1, -1, -1, -1,
   -1, -1, -1, -1, -1, -1, -1, -1, -1, -1, -1, -1, -1, -1, -1, -1,
   -1, -1, -1, -1, -1, -1, -1, -1, -1, -1, -1, -1, -1, -1, -1, -1,
   -1, -1, -1, -1, -1, -1, -1, -1, -1, -1, -1, -1, -1, -1, -1, -1,
   -1, -1, -1, -1, -1, -1, -1, -1, -1, -1, -1, -1, -1, -1, -1, -1,
   -1, -1, -1, -1, -1, -1, -1, -1, -1, -1, -1, -1, -1, -1, -1, -1,
   -1, -1, -1, -1, -1, -1, -1, -1, -1, -1, -1, -1, -1, -1, -1, -1,
   -1, -1, -1, -1, -1, -1, -1, -1, -1, -1, -1, -1, -1, -1, -1, -1,
   -1, -1, -1, -1, -1, -1, -1, -1, -1, -1, -1, -1, -1, -1, -1, -1]

def isSpace (c : UInt8) : Bool :=
  c = 0x20 || c = 0x0c || c = 0x0a || c = 0x0d || c = 0x09 || c = 0x0b

/-- An `int` as the size of a vector: beyond its range it is negative, and the vector is too
long (`std::length_error`), or it is too small. -/
def intSize (n : Nat) : Option Nat :=
  let size := (BitVec.ofNat 32 n).toInt
  if size < 0 then none else some size.toNat

/-- The inner loop of both conversions, on the digits from `it` on. It returns the
new digits, the carry that is left and `i`. -/
def carryLoop (mult base length : Nat) : (carry i : Nat) → List Nat → List Nat × Nat × Nat
  | carry, i, [] => ([], carry, i)
  | carry, i, d :: ds =>
    if carry ≠ 0 ∨ i < length then
      let carry := carry + mult * d
      let (ds, rest, i) := carryLoop mult base length (carry / base) (i + 1) ds
      (carry % base :: ds, rest, i)
    else (d :: ds, carry, i)

/-- The loop of `EncodeBase58` over the bytes: the digits and `length` at its end. -/
def encodeLoop : Bytes → List Nat → Nat → Option (List Nat × Nat)
  | [], b58, length => some (b58, length)
  | c :: input, b58, length =>
    let (b58, carry, i) := carryLoop 256 58 length c.toNat 0 b58
    if carry ≠ 0 then none else encodeLoop input b58 i

def encodeBase58 (input : Bytes) : Option Bytes := do
  let zeroes := (input.takeWhile (· = 0)).length
  let input := input.dropWhile (· = 0)
  let size ← intSize (input.length * 138 / 100 + 1)
  let (b58, length) ← encodeLoop input (List.replicate size 0) 0
  let digits := (b58.take length).reverse.dropWhile (· = 0)
  some (List.replicate zeroes 0x31 ++ digits.map fun d => pszBase58.getD d 0)

/-- The loop of `DecodeBase58` over leading "1" characters: their number and the
rest of the string, or `none` when there are too many. -/
def skipOnes (maxRetLen : Int) : Nat → Bytes → Option (Nat × Bytes)
  | zeroes, [] => some (zeroes, [])
  | zeroes, c :: psz =>
    if c = 0x31 then
      if (zeroes + 1 : Int) > maxRetLen then none else skipOnes maxRetLen (zeroes + 1) psz
    else some (zeroes, c :: psz)

/-- The loop of `DecodeBase58` over the digits: the bytes, `length` and the rest of
the string. The outer `none` is the assertion, the inner one `return false`. -/
def decodeLoop (maxRetLen : Int) (zeroes : Nat) :
    Bytes → List Nat → Nat → Option (Option (List Nat × Nat × Bytes))
  | [], b256, length => some (some (b256, length, []))
  | c :: psz, b256, length =>
    if isSpace c then some (some (b256, length, c :: psz))
    else
      let carry := mapBase58.getD c.toNat (-1)
      if carry = -1 then some none
      else
        let (b256, carry, i) := carryLoop 58 256 length carry.toNat 0 b256
        if carry ≠ 0 then none
        else if (i + zeroes : Int) > maxRetLen then some none
        else decodeLoop maxRetLen zeroes psz b256 i

/-- `DecodeBase58`: the bytes, or the inner `none` for `false`. -/
def decodeBase58 (str : Bytes) (maxRetLen : Int) : Option (Option Bytes) :=
  if 0 ∈ str then some none
  else
    match skipOnes maxRetLen 0 (str.dropWhile isSpace) with
    | none => some none
    | some (zeroes, psz) => do
      let size ← intSize (psz.length * 733 / 1000 + 1)
      match ← decodeLoop maxRetLen zeroes psz (List.replicate size 0) 0 with
      | none => some none
      | some (b256, length, psz) =>
        if psz.dropWhile isSpace ≠ [] then some none
        else some (some (List.replicate zeroes 0 ++ ((b256.take length).reverse.map UInt8.ofNat)))

section Check

-- `Hash`: SHA-256 applied twice
variable (hash : Bytes → Uint256)

def encodeBase58Check (input : Bytes) : Option Bytes :=
  encodeBase58 (input ++ (hash input).data.take 4)

def decodeBase58Check (str : Bytes) (maxRetLen : Int) : Option (Option Bytes) := do
  let intMax : Int := 2 ^ 31 - 1
  match ← decodeBase58 str (if maxRetLen > intMax - 4 then intMax else maxRetLen + 4) with
  | none => some none
  | some vchRet =>
    if vchRet.length < 4 then some none
    else
      let payload := vchRet.take (vchRet.length - 4)
      if (hash payload).data.take 4 ≠ vchRet.drop (vchRet.length - 4) then some none
      else some (some payload)

end Check

/-! ## The digit arrays -/

namespace Base58Lemmas
open Positional

theorem carryLoop_zeros {mult base length : Nat} (hbase : 1 < base) :
    ∀ (carry i k : Nat), length ≤ i → (Nat.digits base carry).length ≤ k →
      carryLoop mult base length carry i (List.replicate k 0) =
        (Nat.digits base carry ++ List.replicate (k - (Nat.digits base carry).length) 0, 0,
          i + (Nat.digits base carry).length) := by
  intro carry
  induction carry using Nat.strong_induction_on with
  | _ carry ih =>
    intro i k hi hk
    rcases Nat.eq_zero_or_pos carry with rfl | hpos
    · cases k with
      | zero => simp [carryLoop]
      | succ k => simp [replicate_succ, carryLoop, Nat.not_lt.mpr hi]
    · rw [Nat.digits_def' hbase hpos, length_cons] at hk ⊢
      obtain ⟨k, rfl⟩ : ∃ n, k = n + 1 := ⟨k - 1, by omega⟩
      have hstep := ih (carry / base) (Nat.div_lt_self hpos hbase) (i + 1) k (by omega) (by omega)
      rw [replicate_succ, carryLoop, if_pos (.inl hpos.ne')]
      simp only [Nat.mul_zero, Nat.add_zero, hstep, cons_append, Nat.add_sub_add_right,
        Prod.mk.injEq, true_and]
      omega

/-- The loop on the digits of `N`: it multiplies and adds. -/
theorem carryLoop_digits {mult base length : Nat} (hbase : 1 < base) (hmult : 0 < mult) :
    ∀ (N carry i k : Nat), length = i + (Nat.digits base N).length →
      (Nat.digits base (mult * N + carry)).length ≤ (Nat.digits base N).length + k →
      carryLoop mult base length carry i (Nat.digits base N ++ List.replicate k 0) =
        (Nat.digits base (mult * N + carry) ++ List.replicate ((Nat.digits base N).length + k -
            (Nat.digits base (mult * N + carry)).length) 0, 0,
          i + (Nat.digits base (mult * N + carry)).length) := by
  intro N
  induction N using Nat.strong_induction_on with
  | _ N ih =>
    intro carry i k hlen hk
    rcases Nat.eq_zero_or_pos N with rfl | hpos
    · simpa using carryLoop_zeros hbase carry i k (by simp [hlen]) (by simpa using hk)
    · have hsum : 0 < mult * N + carry := Nat.add_pos_left (Nat.mul_pos hmult hpos) _
      have hsplit :
          mult * N + carry = (carry + mult * (N % base)) + base * (mult * (N / base)) := by
        conv_lhs => rw [← mod_add_div N base]
        ring
      have hmod : (mult * N + carry) % base = (carry + mult * (N % base)) % base := by
        rw [hsplit, add_mul_mod_self_left]
      have hdiv :
          (mult * N + carry) / base = mult * (N / base) + (carry + mult * (N % base)) / base := by
        rw [hsplit, add_mul_div_left _ _ (by omega), add_comm]
      rw [digits_def' hbase hsum, hmod, hdiv] at hk ⊢
      rw [digits_def' hbase hpos] at hlen hk ⊢
      simp only [length_cons] at hlen hk ⊢
      have hstep := ih (N / base) (div_lt_self hpos hbase)
        ((carry + mult * (N % base)) / base) (i + 1) k (by omega) (by omega)
      rw [cons_append, carryLoop, if_pos (.inr (by omega))]
      simp only [hstep, cons_append, Prod.mk.injEq, true_and]
      refine ⟨?_, by omega⟩
      congr 3
      omega

/-- The array of `size` digits that holds `N`. -/
def digitArray (base size N : Nat) : List Nat :=
  Nat.digits base N ++ List.replicate (size - (Nat.digits base N).length) 0

theorem digitArray_zero (base size : Nat) : digitArray base size 0 = List.replicate size 0 := by
  simp [digitArray]

theorem take_digitArray (base size N : Nat) :
    (digitArray base size N).take (Nat.digits base N).length = Nat.digits base N := by
  simp [digitArray]

theorem carryLoop_digitArray {mult base size : Nat} {N carry : Nat} (hbase : 1 < base)
    (hmult : 0 < mult) (hfit : mult * N + carry < base ^ size) :
    carryLoop mult base (Nat.digits base N).length carry 0 (digitArray base size N) =
      (digitArray base size (mult * N + carry), 0,
        (Nat.digits base (mult * N + carry)).length) := by
  have hle : N ≤ mult * N + carry := (Nat.le_mul_of_pos_left N hmult).trans (Nat.le_add_right _ _)
  have hN := (digits_length_le_iff hbase N).mpr (hle.trans_lt hfit)
  have hsum := (digits_length_le_iff hbase (mult * N + carry)).mpr hfit
  rw [digitArray, carryLoop_digits hbase hmult N carry 0 _ (by omega) (by omega),
    digitArray, zero_add]
  congr 4
  omega

/-- The loop of `EncodeBase58` reads a number and never fails its assertion. -/
theorem encodeLoop_digitArray {size : Nat} : ∀ (input : Bytes) (N : Nat),
    horner 256 N (input.map UInt8.toNat) < 58 ^ size →
    encodeLoop input (digitArray 58 size N) (Nat.digits 58 N).length =
      some (digitArray 58 size (horner 256 N (input.map UInt8.toNat)),
        (Nat.digits 58 (horner 256 N (input.map UInt8.toNat))).length) := by
  intro input
  induction input with
  | nil =>
    intro N _
    rfl
  | cons c input ih =>
    intro N hfit
    have hstep := carryLoop_digitArray (by decide : 1 < 58) (by decide : 0 < 256)
      ((le_horner (by decide) _ _).trans_lt hfit)
    rw [encodeLoop, hstep]
    exact ih _ hfit

/-- The array sizes of the source, `n * p / q + 1`, are large enough when
`p / q` is at least the ratio of the logarithms. -/
theorem pow_le_capacity {a b p q : Nat} (hb : 0 < b) (hq : 0 < q) (h : a ^ q ≤ b ^ p) (n : Nat) :
    a ^ n ≤ b ^ (n * p / q + 1) := by
  have hexp : n * p ≤ q * (n * p / q + 1) := (lt_mul_div_succ (n * p) hq).le
  refine (Nat.pow_le_pow_iff_left hq.ne').mp ?_
  calc (a ^ n) ^ q = (a ^ q) ^ n := Nat.pow_right_comm a n q
    _ ≤ (b ^ p) ^ n := Nat.pow_le_pow_left h n
    _ = b ^ (n * p) := by rw [← pow_mul, mul_comm]
    _ ≤ b ^ (q * (n * p / q + 1)) := Nat.pow_le_pow_right hb hexp
    _ = (b ^ (n * p / q + 1)) ^ q := by rw [← pow_mul, mul_comm]

theorem pow_le_decodeCapacity (n : Nat) : 58 ^ n ≤ 256 ^ (n * 733 / 1000 + 1) :=
  pow_le_capacity (by decide) (by decide) (by decide +kernel) n

theorem dropWhile_reverse_digits (base N : Nat) :
    (Nat.digits base N).reverse.dropWhile (fun d => decide (d = 0)) =
      (Nat.digits base N).reverse := by
  rcases Nat.eq_zero_or_pos N with rfl | hpos
  · simp
  · have hne : Nat.digits base N ≠ [] := Nat.digits_ne_nil_iff_ne_zero.mpr hpos.ne'
    have hlast := getLast_digit_ne_zero base hpos.ne'
    rw [dropWhile_eq_self_iff]
    intro hl
    simpa [getLast_eq_getElem] using hlast

/-- The facts about the alphabet that decoding uses. -/
theorem pszBase58_digit : ∀ d < 58, mapBase58.getD (pszBase58.getD d 0).toNat (-1) = d ∧
    isSpace (pszBase58.getD d 0) = false ∧ pszBase58.getD d 0 ≠ 0 ∧
    (pszBase58.getD d 0 = 0x31 → d = 0) := by
  decide

theorem skipOnes_replicate (maxRetLen : Int) {rest : Bytes} (hrest : ∀ c ∈ rest.head?, c ≠ 0x31) :
    ∀ (k zeroes : Nat), zeroes + k ≤ maxRetLen →
      skipOnes maxRetLen zeroes (List.replicate k 0x31 ++ rest) = some (zeroes + k, rest) := by
  intro k
  induction k with
  | zero =>
    intro zeroes _
    cases rest with
    | nil => rfl
    | cons c rest => exact if_neg (hrest c rfl)
  | succ k ih =>
    intro zeroes hk
    rw [replicate_succ, cons_append, skipOnes, if_pos rfl, if_neg (by omega), ih _ (by omega)]
    congr 2
    omega

theorem decodeLoop_digitArray (size zeroes : Nat) (maxRetLen : Int) : ∀ (ds : List Nat) (N : Nat),
    (∀ d ∈ ds, d < 58) → horner 58 N ds < 256 ^ size →
    (Nat.digits 256 (horner 58 N ds)).length + zeroes ≤ maxRetLen →
    decodeLoop maxRetLen zeroes (ds.map fun d => pszBase58.getD d 0) (digitArray 256 size N)
        (Nat.digits 256 N).length =
      some (some (digitArray 256 size (horner 58 N ds),
        (Nat.digits 256 (horner 58 N ds)).length, [])) := by
  intro ds
  induction ds with
  | nil =>
    intro N _ _ _
    rfl
  | cons d ds ih =>
    intro N hds hfit hmax
    obtain ⟨hmap, hspace, _, _⟩ := pszBase58_digit d (hds d (by simp))
    have hle : 58 * N + d ≤ horner 58 N (d :: ds) := le_horner (by decide) _ _
    have hstep := carryLoop_digitArray (by decide : 1 < 256) (by decide : 0 < 58)
      (hle.trans_lt hfit)
    have hlen := le_length_digits_le 256 _ _ hle
    rw [map_cons, decodeLoop, hspace, hmap]
    simp only [Bool.false_eq_true, if_false, Int.toNat_natCast, hstep, ne_eq, not_true_eq_false]
    rw [if_neg (by omega), if_neg (by omega)]
    exact ih _ (fun e he => hds e (by simp [he])) hfit hmax

end Base58Lemmas

open Positional Base58Lemmas

/-! ## Round trips -/

/-- The number that `EncodeBase58` writes: the bytes without leading zeros. -/
def base58Number (input : Bytes) : Nat := horner 256 0 ((input.dropWhile (· = 0)).map UInt8.toNat)

/-- The array of `EncodeBase58` has a size in the range of `int`. -/
def EncodeFits (input : Bytes) : Prop := (input.dropWhile (· = 0)).length * 138 / 100 + 1 < 2 ^ 31

variable {input : Bytes} {maxRetLen : Int} {hash : Bytes → Uint256}

theorem EncodeFits.of_length (h : input.length ≤ 1000) : EncodeFits input := by
  have hdrop := length_dropWhile_le (fun c : UInt8 => decide (c = 0)) input
  unfold EncodeFits
  omega

theorem Base58Lemmas.intSize_of_lt {n : Nat} (h : n < 2 ^ 31) : intSize n = some n := by
  have hsize : (BitVec.ofNat 32 n).toInt = n := by
    rw [BitVec.toInt_eq_toNat_of_lt (by rw [BitVec.toNat_ofNat]; omega), BitVec.toNat_ofNat,
      mod_eq_of_lt (by omega)]
  rw [intSize, hsize, if_neg (by omega), Int.toNat_natCast]

theorem Base58Lemmas.base58Number_lt (input : Bytes) :
    base58Number input < 58 ^ ((input.dropWhile (· = 0)).length * 138 / 100 + 1) := by
  refine (horner_lt (by decide) (toNat_lt_256 _)).trans_le ?_
  rw [length_map]
  exact pow_le_capacity (by decide) (by decide) (by decide) _

/-- `EncodeBase58` writes a "1" for each leading zero byte and then the digits of
the number. -/
theorem encodeBase58_eq (hfits : EncodeFits input) :
    encodeBase58 input = some (List.replicate (input.takeWhile (· = 0)).length 0x31 ++
      (Nat.digits 58 (base58Number input)).reverse.map fun d => pszBase58.getD d 0) := by
  have hloop := encodeLoop_digitArray (input.dropWhile (· = 0)) 0 (base58Number_lt input)
  rw [digitArray_zero, digits_zero, length_nil] at hloop
  simp only [encodeBase58, intSize_of_lt hfits, hloop, bind_eq_bind, bind_some]
  rw [take_digitArray, dropWhile_reverse_digits]
  rfl

namespace Base58Lemmas

theorem digits_lt_58 (N : Nat) : ∀ d ∈ (Nat.digits 58 N).reverse, d < 58 := fun _ hd =>
  digits_lt_base (by decide) (List.mem_reverse.mp hd)

theorem head_digits_ne_one (N : Nat) :
    ∀ c ∈ ((Nat.digits 58 N).reverse.map fun d => pszBase58.getD d 0).head?, c ≠ 0x31 := by
  intro c hc hone
  rw [List.head?_map, mem_def, map_eq_some_iff] at hc
  obtain ⟨d, hd, rfl⟩ := hc
  have hmem : d ∈ (Nat.digits 58 N).reverse := mem_of_mem_head? hd
  have hzero := (pszBase58_digit d (digits_lt_58 N d hmem)).2.2.2 hone
  rw [List.head?_reverse, List.getLast?_eq_some_iff] at hd
  have hpos : N ≠ 0 := by
    rintro rfl
    simp at hmem
  obtain ⟨ys, hys⟩ := hd
  have hlast := getLast_digit_ne_zero 58 hpos
  simp only [hys, getLast_append_singleton] at hlast
  exact hlast hzero

/-- The characters of an encoded string. -/
theorem isSpace_and_zero_notMem (k N : Nat) : ∀ c ∈ List.replicate k 0x31 ++
    ((Nat.digits 58 N).reverse.map fun d => pszBase58.getD d 0), isSpace c = false ∧ c ≠ 0 := by
  intro c hc
  rcases List.mem_append.mp hc with hc | hc
  · rw [eq_of_mem_replicate hc]
    decide
  · obtain ⟨d, hd, rfl⟩ := List.mem_map.mp hc
    obtain ⟨_, hspace, hzero, _⟩ := pszBase58_digit d (digits_lt_58 N d hd)
    exact ⟨hspace, hzero⟩

theorem dropWhile_isSpace {str : Bytes} (h : ∀ c ∈ str, isSpace c = false) :
    str.dropWhile isSpace = str := by
  rw [dropWhile_eq_self_iff]
  intro hl
  rw [h _ (getElem_mem hl)]
  exact Bool.false_ne_true

theorem reverse_digits_base58Number (input : Bytes) :
    (Nat.digits 256 (base58Number input)).reverse.map UInt8.ofNat = input.dropWhile (· = 0) := by
  rw [base58Number, map_toNat_dropWhile, horner_dropWhile,
    digits_horner (by decide) (toNat_lt_256 input),
    List.reverse_reverse, ← map_toNat_dropWhile, List.map_map]
  exact (List.map_congr_left fun b _ => UInt8.ofNat_toNat).trans (List.map_id _)

theorem length_digits_base58Number (input : Bytes) :
    (Nat.digits 256 (base58Number input)).length = (input.dropWhile (· = 0)).length := by
  rw [← reverse_digits_base58Number, length_map, length_reverse]

end Base58Lemmas

theorem decodeBase58_encodeBase58 {str : Bytes} (hfits : EncodeFits input)
    (h : encodeBase58 input = some str)
    (hlen : input.length ≤ maxRetLen) : decodeBase58 str maxRetLen = some (some input) := by
  have hsplit :
      (input.takeWhile (· = 0)).length + (input.dropWhile (· = 0)).length = input.length := by
    rw [← length_append, takeWhile_append_dropWhile]
  have hzeros : List.replicate (input.takeWhile (· = 0)).length 0 = input.takeWhile (· = 0) := by
    refine (eq_replicate_of_mem fun c hc => ?_).symm
    simpa using mem_takeWhile_imp hc
  rw [encodeBase58_eq hfits, Option.some.injEq] at h
  have hchars := isSpace_and_zero_notMem (input.takeWhile (· = 0)).length (base58Number input)
  have hnul : 0 ∉ str := fun hmem => (hchars 0 (h ▸ hmem)).2 rfl
  have hspaces : str.dropWhile isSpace = str := dropWhile_isSpace fun c hc => (hchars c (h ▸ hc)).1
  have hones := skipOnes_replicate maxRetLen (head_digits_ne_one (base58Number input))
    (input.takeWhile (· = 0)).length 0 (by omega)
  have hhorner : horner 58 0 (Nat.digits 58 (base58Number input)).reverse = base58Number input := by
    rw [horner_zero_eq, reverse_reverse, ofDigits_digits]
  have hloop := decodeLoop_digitArray
    (((Nat.digits 58 (base58Number input)).reverse.map fun d => pszBase58.getD d 0).length *
      733 / 1000 + 1)
    (input.takeWhile (· = 0)).length maxRetLen _ 0 (digits_lt_58 (base58Number input)) ?_ ?_
  · rw [hhorner, digitArray_zero, digits_zero, length_nil] at hloop
    rw [h, zero_add] at hones
    have hdigits := (digits_length_le_iff (by decide) _).mpr (base58Number_lt input)
    unfold EncodeFits at hfits
    rw [decodeBase58, if_neg hnul, hspaces, hones]
    dsimp only
    rw [intSize_of_lt (by rw [length_map, length_reverse]; omega)]
    simp only [hloop, bind_eq_bind, bind_some, dropWhile_nil, ne_eq, not_true_eq_false, if_false]
    rw [take_digitArray, reverse_digits_base58Number, hzeros, takeWhile_append_dropWhile]
  · refine (horner_lt (by decide) (digits_lt_58 _)).trans_le ?_
    rw [length_map]
    exact pow_le_decodeCapacity _
  · rw [hhorner, length_digits_base58Number]
    omega

theorem Base58Lemmas.length_checksum (hash : Bytes → Uint256) (input : Bytes) :
    ((hash input).data.take 4).length = 4 := by
  rw [length_take, (hash input).length_data]
  rfl

theorem decodeBase58Check_iff {str payload : Bytes} :
    decodeBase58Check hash str maxRetLen = some (some payload) ↔
      decodeBase58 str (min (maxRetLen + 4) (2 ^ 31 - 1)) =
        some (some (payload ++ (hash payload).data.take 4)) := by
  have hmin : (if maxRetLen > 2 ^ 31 - 1 - 4 then 2 ^ 31 - 1 else maxRetLen + 4) =
      min (maxRetLen + 4) (2 ^ 31 - 1) := by
    split <;> omega
  have hcheck := length_checksum hash
  unfold decodeBase58Check
  dsimp only
  rw [hmin]
  rcases decodeBase58 str (min (maxRetLen + 4) (2 ^ 31 - 1)) with _ | _ | vchRet
  · simp
  · simp
  · simp only [bind_eq_bind, bind_some, Option.some.injEq]
    constructor
    · intro h
      split at h
      · cases h
      · split at h
        · cases h
        · next hsum =>
          cases h
          rw [Decidable.not_not.mp hsum, take_append_drop]
    · rintro rfl
      have hlength : (payload ++ (hash payload).data.take 4).length - 4 = payload.length := by
        rw [length_append, hcheck, Nat.add_sub_cancel]
      rw [if_neg (by rw [length_append, hcheck]; omega), hlength, take_left, drop_left,
        if_neg (not_not.mpr rfl)]

theorem decodeBase58Check_encodeBase58Check {str : Bytes}
    (h : encodeBase58Check hash input = some str) (hlen : input.length ≤ maxRetLen)
    (hmax : maxRetLen ≤ 100) : decodeBase58Check hash str maxRetLen = some (some input) := by
  have hlength : (input ++ (hash input).data.take 4).length = input.length + 4 := by
    rw [length_append, length_checksum]
  exact decodeBase58Check_iff.mpr (decodeBase58_encodeBase58 (.of_length (by omega)) h (by omega))

/-! ## What is accepted -/

/-- The array of `DecodeBase58` has a size in the range of `int`. -/
def DecodeFits (str : Bytes) : Prop := str.length * 733 / 1000 + 1 < 2 ^ 31

namespace Base58Lemmas

theorem digit_of_mapBase58 (c : UInt8) (h : mapBase58.getD c.toNat (-1) ≠ -1) :
    ∃ d < 58, mapBase58.getD c.toNat (-1) = (d : Nat) ∧ pszBase58.getD d 0 = c := by
  revert h
  refine forall_uint8 (p := fun c => mapBase58.getD c.toNat (-1) ≠ -1 → ∃ d < 58,
    mapBase58.getD c.toNat (-1) = (d : Nat) ∧ pszBase58.getD d 0 = c) ?_ c
  decide +kernel

theorem skipOnes_eq_some {psz rest : Bytes} {zeroes zeroes' : Nat}
    (h : skipOnes maxRetLen zeroes psz = some (zeroes', rest)) :
    psz = List.replicate (zeroes' - zeroes) 0x31 ++ rest ∧ zeroes ≤ zeroes' ∧ ∀ c ∈ rest.head?,
    c ≠ 0x31 := by
  induction psz generalizing zeroes with
  | nil =>
    cases h
    simp
  | cons c psz ih =>
    rw [skipOnes] at h
    split at h
    · next hc =>
      split at h
      · cases h
      · obtain ⟨rfl, hle, hhead⟩ := ih h
        refine ⟨?_, by omega, hhead⟩
        rw [hc, show zeroes' - zeroes = zeroes' - (zeroes + 1) + 1 by omega, replicate_succ,
          cons_append]
    · next hc =>
      cases h
      refine ⟨by simp, le_refl _, ?_⟩
      rintro _ ⟨⟩
      exact hc

/-- The loop of `DecodeBase58` reads digits up to a space, and never fails its assertion: `N`
and the characters after it fit the array. -/
theorem decodeLoop_eq_some (size zeroes : Nat) (maxRetLen : Int) (psz : Bytes) (N : Nat)
    (hfit : (N + 1) * 58 ^ psz.length ≤ 256 ^ size) :
    ∃ r, decodeLoop maxRetLen zeroes psz (digitArray 256 size N)
    (Nat.digits 256 N).length = some r ∧
      ∀ out ∈ r, ∃ ds rest, psz = (ds.map fun d => pszBase58.getD d 0) ++ rest ∧
        (∀ d ∈ ds, d < 58) ∧ (∀ c ∈ rest.head?, isSpace c = true) ∧
        out = (digitArray 256 size (horner 58 N ds),
          (Nat.digits 256 (horner 58 N ds)).length, rest) := by
  induction psz generalizing N with
  | nil =>
    refine ⟨_, rfl, ?_⟩
    rintro _ ⟨⟩
    exact ⟨[], [], rfl, by simp, by simp, rfl⟩
  | cons c psz ih =>
    rw [decodeLoop]
    by_cases hspace : isSpace c = true
    · rw [if_pos hspace]
      refine ⟨_, rfl, ?_⟩
      rintro _ ⟨⟩
      exact ⟨[], c :: psz, rfl, by simp, by simpa using hspace, rfl⟩
    · rw [if_neg hspace]
      by_cases hmap : mapBase58.getD c.toNat (-1) = -1
      · rw [if_pos hmap]
        exact ⟨none, rfl, by simp⟩
      · obtain ⟨d, hd, hval, rfl⟩ := digit_of_mapBase58 c hmap
        have hnext : (58 * N + d + 1) * 58 ^ psz.length ≤ 256 ^ size := by
          refine le_trans (mul_le_mul_right _ (by omega : 58 * N + d + 1 ≤ (N + 1) * 58)) ?_
          rwa [mul_assoc, ← pow_succ']
        have hlt : 58 * N + d < 256 ^ size :=
          (Nat.le_mul_of_pos_right _ (by positivity)).trans hnext
        rw [if_neg hmap, hval, Int.toNat_natCast, carryLoop_digitArray (by decide) (by decide) hlt]
        dsimp only
        rw [if_neg (not_not.mpr rfl)]
        split
        · exact ⟨none, rfl, by simp⟩
        · obtain ⟨r, hr, hout⟩ := ih (58 * N + d) hnext
          refine ⟨r, hr, fun out ho => ?_⟩
          obtain ⟨ds, rest, rfl, hds, hrest, rfl⟩ := hout out ho
          exact ⟨d :: ds, rest, rfl, by simpa using ⟨hd, hds⟩, hrest, rfl⟩

/-- Zeros before bytes that do not start with one. -/
theorem dropWhile_replicate_append {w : Bytes} (hw : ∀ c ∈ w.head?, c ≠ 0) (k : Nat) :
    (List.replicate k 0 ++ w).dropWhile (· = 0) = w ∧
    ((List.replicate k 0 ++ w).takeWhile (· = 0)).length = k := by
  induction k with
  | zero =>
    cases w with
    | nil => simp
    | cons c w =>
      have hc := hw c rfl
      simp [hc]
  | succ k ih => simpa using ih

theorem head_reverse_digits {N : Nat} :
    ∀ c ∈ ((Nat.digits 256 N).reverse.map UInt8.ofNat).head?, c ≠ 0 := by
  intro c hc hzero
  rw [List.head?_map, List.head?_reverse, mem_def, map_eq_some_iff] at hc
  obtain ⟨d, hd, rfl⟩ := hc
  have hmem := mem_of_mem_getLast? hd
  have hN : N ≠ 0 := by
    rintro rfl
    simp at hmem
  have hlt : d < 256 := digits_lt_base (by decide) hmem
  have hlast := getLast_digit_ne_zero 256 hN
  rw [List.getLast?_eq_some_getLast (ne_nil_of_mem hmem)] at hd
  rw [Option.some.inj hd] at hlast
  exact hlast (by simpa [← UInt8.toNat_inj, mod_eq_of_lt hlt] using hzero)

end Base58Lemmas

/-- `DecodeBase58` never fails its assertion, and a string without spaces that it accepts is the
encoding of what it returns. -/
theorem decodeBase58_total {str : Bytes} (hfits : DecodeFits str) {maxRetLen : Int} :
    ∃ r, decodeBase58 str maxRetLen = some r ∧
      ∀ v ∈ r, (∀ c ∈ str, isSpace c = false) → EncodeFits v → encodeBase58 v = some str := by
  unfold decodeBase58
  by_cases hnul : 0 ∈ str
  · rw [if_pos hnul]
    exact ⟨none, rfl, by simp⟩
  rw [if_neg hnul]
  cases hones : skipOnes maxRetLen 0 (str.dropWhile isSpace) with
  | none => exact ⟨none, rfl, by simp⟩
  | some zp =>
    obtain ⟨zeroes, psz⟩ := zp
    obtain ⟨hstr, _, hhead⟩ := skipOnes_eq_some hones
    have hlength : psz.length ≤ str.length := by
      have hdrop := length_dropWhile_le isSpace str
      rw [hstr, length_append] at hdrop
      omega
    have hsize : psz.length * 733 / 1000 + 1 < 2 ^ 31 := lt_of_le_of_lt (by gcongr) hfits
    obtain ⟨r, hr, hout⟩ := decodeLoop_eq_some _ zeroes maxRetLen psz 0
      (by rw [zero_add, one_mul]; exact pow_le_decodeCapacity _)
    rw [digitArray_zero, digits_zero, length_nil] at hr
    dsimp only
    rw [intSize_of_lt hsize]
    simp only [bind_eq_bind, bind_some, hr]
    cases r with
    | none => exact ⟨none, rfl, by simp⟩
    | some out =>
      obtain ⟨ds, rest, hpsz, hds, hrest, rfl⟩ := hout out rfl
      dsimp only
      split
      · exact ⟨none, rfl, by simp⟩
      · refine ⟨_, rfl, ?_⟩
        rintro _ ⟨⟩ hspaces hv
        -- nothing follows the digits, and the first one is not zero
        rw [dropWhile_isSpace hspaces, Nat.sub_zero] at hstr
        obtain rfl : rest = [] := by
          cases rest with
          | nil => rfl
          | cons c rest => exact absurd (hspaces c (by simp [hstr, hpsz])) (by simp [hrest c rfl])
        rw [append_nil] at hpsz
        have hfirst : ds.dropWhile (· = 0) = ds := by
          cases ds with
          | nil => rfl
          | cons d ds =>
            refine dropWhile_cons_of_neg fun hzero => hhead (pszBase58.getD d 0) (by simp [hpsz]) ?_
            rw [of_decide_eq_true hzero]
            rfl
        rw [take_digitArray] at hv ⊢
        obtain ⟨hdrop, htake⟩ := dropWhile_replicate_append head_reverse_digits zeroes
        have hnumber :
            base58Number (List.replicate zeroes 0 ++
            (Nat.digits 256 (horner 58 0 ds)).reverse.map UInt8.ofNat) = horner 58 0 ds := by
          rw [base58Number, hdrop, List.map_map, List.map_congr_left fun d hd => ?_, List.map_id,
            horner_zero_eq, reverse_reverse, ofDigits_digits]
          exact UInt8.toNat_ofNat_of_lt' (digits_lt_base (by decide) (List.mem_reverse.mp hd))
        rw [encodeBase58_eq hv, htake, hnumber, digits_horner (by decide) hds, hfirst,
          reverse_reverse, hstr, hpsz]

/-- The codecs are inverse to each other, as far as the sizes of the arrays are in the range of
`int`; and a checked string is a payload with its checksum. -/
theorem base58_inverse (hash : Bytes → Uint256) :
    (∀ v, EncodeFits v → ∃ str, encodeBase58 v = some str ∧
      ∀ maxRetLen : Int, v.length ≤ maxRetLen → decodeBase58 str maxRetLen = some (some v)) ∧
    (∀ str maxRetLen, DecodeFits str → ∃ r, decodeBase58 str maxRetLen = some r ∧
      ∀ v ∈ r, (∀ c ∈ str, isSpace c = false) → EncodeFits v → encodeBase58 v = some str) ∧
    ∀ str maxRetLen payload, decodeBase58Check hash str maxRetLen = some (some payload) ↔
      decodeBase58 str (min (maxRetLen + 4) (2 ^ 31 - 1)) =
        some (some (payload ++ (hash payload).data.take 4)) :=
  ⟨fun _ hfits => ⟨_, encodeBase58_eq hfits, fun _ =>
    decodeBase58_encodeBase58 hfits (encodeBase58_eq hfits)⟩,
    fun _ _ hfits => decodeBase58_total hfits, fun _ _ _ => decodeBase58Check_iff⟩

/-- A zero byte and 58: "1" for the zero, and the digits "21". -/
theorem base58_inverse_zero : encodeBase58 [0, 58] = some (Bytes.ofString "121") ∧
    decodeBase58 (Bytes.ofString "121") 2 = some (some [0, 58]) ∧
    ∃ v, decodeBase58 (Bytes.ofString "121") 2 = some (some v) ∧
    encodeBase58 v = some (Bytes.ofString "121") := by
  obtain ⟨hencode, hdecode, _⟩ := base58_inverse fun _ => nullUint256
  have hstr : encodeBase58 [0, 58] = some (Bytes.ofString "121") := by decide
  obtain ⟨str, heq, hback⟩ := hencode [0, 58] (by unfold EncodeFits; decide)
  cases hstr.symm.trans heq
  have hv := hback 2 (by decide)
  obtain ⟨r, hr, hsound⟩ := hdecode (Bytes.ofString "121") 2 (by unfold DecodeFits; decide)
  cases hv.symm.trans hr
  exact ⟨hstr, hv, _, hv, hsound _ rfl (by decide +kernel) (by unfold EncodeFits; decide)⟩

/-- The size of the array for 1600000000 bytes is not in the range of `int`, though their number
is. -/
theorem encodeBase58_too_long : (List.replicate 1600000000 (1 : UInt8)).length < 2 ^ 31 ∧
    encodeBase58 (List.replicate 1600000000 1) = none := by
  have hdrop :
      (List.replicate 1600000000 (1 : UInt8)).dropWhile (· = 0) = List.replicate 1600000000 1 := by
    rfl
  have hsize : intSize ((List.replicate 1600000000 (1 : UInt8)).length * 138 / 100 + 1) = none := by
    rw [length_replicate]
    decide
  refine ⟨by rw [length_replicate]; decide, ?_⟩
  unfold encodeBase58
  simp only [hdrop, hsize, bind_eq_bind, bind_none]

end Bitcoboost
