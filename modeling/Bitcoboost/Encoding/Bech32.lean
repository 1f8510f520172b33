import Bitcoboost.Lib.LinearChecksum
import Bitcoboost.Util.StrEncodings

/-!
# Bech32 and Bech32m

`bech32::Encode` and `bech32::Decode`. The checksum is a linear code: `PolyMod` without its input
bits is linear (`feedback_xor`), so the six checksum symbols can be read off the register after
six zeros.
-/

namespace Bitcoboost.Bech32

open List BitVec

inductive Encoding where
  | invalid
  | bech32
  | bech32m
deriving DecidableEq, Repr

def charset : Bytes := Bytes.ofString "qpzry9x8gf2tvdw0s3jn54khce6mua7l"

def charsetRev : List Int :=
  [-1, -1, -1, -1, -1, -1, -1, -1, -1, -1, -1, -1, -1, -1, -1, -1,
   -1, -1, -1, -1, -1, -1, -1, -1, -1, -1, -1, -1, -1, -1, -1, -1,
   -1, -1, -1, -1, -1, -1, -1, -1, -1, -1, -1, -1, -1, -1, -1, -1,
   15, -1, 10, 17, 21, 20, 26, 30, 7, 5, -1, -1, -1, -1, -1, -1,
   -1, 29, -1, 24, 13, 25, 9, 8, 23, -1, 18, 22, 31, 27, 19, -1,
   1, 0, 3, 16, 11, 28, 12, 14, 6, 4, 2, -1, -1, -1, -1, -1,
   -1, 29, -1, 24, 13, 25, 9, 8, 23, -1, 18, 22, 31, 27, 19, -1,
   1, 0, 3, 16, 11, 28, 12, 14, 6, 4, 2, -1, -1, -1, -1, -1]

/-- `EncodingConstant`; the assertion fails for `INVALID`. -/
def encodingConstant : Encoding → Option (BitVec 32)
  | .bech32 => some 1#32
  | .bech32m => some 0x2bc830a3#32
  | .invalid => none

/-- The body of the loop of `PolyMod`. -/
def polyModStep (c : BitVec 32) (v : UInt8) : BitVec 32 :=
  let c0 := c >>> 25
  let c := ((c &&& 0x1ffffff#32) <<< 5) ^^^ v.toBitVec.setWidth 32
  let c := if c0 &&& 1#32 ≠ 0#32 then c ^^^ 0x3b6a57b2#32 else c
  let c := if c0 &&& 2#32 ≠ 0#32 then c ^^^ 0x26508e6d#32 else c
  let c := if c0 &&& 4#32 ≠ 0#32 then c ^^^ 0x1ea119fa#32 else c
  let c := if c0 &&& 8#32 ≠ 0#32 then c ^^^ 0x3d4233dd#32 else c
  if c0 &&& 16#32 ≠ 0#32 then c ^^^ 0x2a1462b3#32 else c

def polyMod (v : Bytes) : BitVec 32 := v.foldl polyModStep 1#32

/-- `LowerCase`: the same function as `ToLower` of a character. -/
def lowerCase (c : UInt8) : UInt8 := toLower c

/-- The loop of `CheckCharacters` from index `i` on: the indices it reports. -/
def checkCharactersLoop : (i : Nat) → (lower upper : Bool) → Bytes → List Nat
  | _, _, _, [] => []
  | i, lower, upper, c :: str =>
    if 0x61 ≤ c ∧ c ≤ 0x7a then
      if upper then i :: checkCharactersLoop (i + 1) lower upper str
      else checkCharactersLoop (i + 1) true upper str
    else if 0x41 ≤ c ∧ c ≤ 0x5a then
      if lower then i :: checkCharactersLoop (i + 1) lower upper str
      else checkCharactersLoop (i + 1) lower true str
    else if c < 33 ∨ c > 126 then i :: checkCharactersLoop (i + 1) lower upper str
    else checkCharactersLoop (i + 1) lower upper str

/-- `CheckCharacters`: the indices of invalid characters, none of them if it
returns true. -/
def checkCharacters (str : Bytes) : List Nat := checkCharactersLoop 0 false false str

def expandHRP (hrp : Bytes) : Bytes :=
  hrp.map (fun c : UInt8 => c >>> 5) ++ 0 :: hrp.map fun c : UInt8 => c &&& 0x1f

def verifyChecksum (hrp values : Bytes) : Encoding :=
  let check := polyMod (expandHRP hrp ++ values)
  if some check = encodingConstant .bech32 then .bech32
  else if some check = encodingConstant .bech32m then .bech32m
  else .invalid

def checksumGroups (mod : BitVec 32) : Bytes :=
  (List.range 6).map fun i => UInt8.ofNat ((mod >>> (5 * (5 - i))) &&& 31#32).toNat

def createChecksum (encoding : Encoding) (hrp values : Bytes) : Option Bytes := do
  let enc := expandHRP hrp ++ values
  some (checksumGroups (polyMod (enc ++ List.replicate 6 0) ^^^ (← encodingConstant encoding)))

/-- `Encode`. The values are 5-bit groups. -/
def encode (encoding : Encoding) (hrp values : Bytes) : Option Bytes := do
  if hrp.any fun c => ¬ (c < 0x41 ∨ c > 0x5a) then none
  else
    let checksum ← createChecksum encoding hrp values
    some (hrp ++ 0x31 :: (values ++ checksum).map fun c => charset.getD c.toNat 0)

structure DecodeResult where
  encoding : Encoding
  hrp : Bytes
  data : Bytes
deriving DecidableEq, Repr

def DecodeResult.failed : DecodeResult := ⟨.invalid, [], []⟩

/-- `str.rfind(c)`; `none` is `npos`. -/
def rfind (c : UInt8) (str : Bytes) : Option Nat :=
  (str.reverse.findIdx? (· = c)).map fun i => str.length - 1 - i

/-- `CHARSET_REV[c]`; `none` is -1. -/
def rev (c : UInt8) : Option UInt8 :=
  let r := charsetRev.getD c.toNat (-1)
  if r = -1 then none else some (UInt8.ofNat r.toNat)

def decode (str : Bytes) : DecodeResult :=
  if checkCharacters str ≠ [] then .failed
  else
    match rfind 0x31 str with
    | none => .failed
    | some pos =>
      if str.length > 90 ∨ pos = 0 ∨ pos + 7 > str.length then .failed
      else
        match (str.drop (pos + 1)).mapM rev with
        | none => .failed
        | some values =>
          let hrp := (str.take pos).map lowerCase
          let result := verifyChecksum hrp values
          if result = .invalid then .failed
          else ⟨result, hrp, values.take (values.length - 6)⟩

/-! ## The checksum -/

namespace ChecksumLemmas
open LinearChecksum

/-- The generator word that a set bit of the register adds. -/
def select (bit : Bool) (g : BitVec 32) : BitVec 32 := if bit then g else 0#32

theorem select_xor (a b : Bool) (g : BitVec 32) :
    select (a ^^ b) g = select a g ^^^ select b g := by
  cases a <;> cases b <;> simp [select]

/-- The linear part of the loop of `PolyMod`. -/
def feedback (c : BitVec 32) : BitVec 32 :=
  ((c &&& 0x1ffffff#32) <<< 5) ^^^ select (c.getLsbD 25) 0x3b6a57b2#32 ^^^
      select (c.getLsbD 26) 0x26508e6d#32 ^^^
    select (c.getLsbD 27) 0x1ea119fa#32 ^^^ select (c.getLsbD 28) 0x3d4233dd#32 ^^^
    select (c.getLsbD 29) 0x2a1462b3#32

theorem and_mask_ne_zero (c mask : BitVec 32) (i : Nat) (hi : i < 32)
    (hmask : mask = BitVec.twoPow 32 i) :
    (c >>> 25 &&& mask ≠ 0#32) ↔ c.getLsbD (25 + i) = true := by
  rw [hmask, and_twoPow, getLsbD_ushiftRight]
  split
  · next h =>
    refine ⟨fun _ => h, fun _ hz => ?_⟩
    have := congrArg (BitVec.getLsbD · i) hz
    simp at this
    omega
  · next h => simp [h]

theorem ite_xor_eq_select {p : Prop} [Decidable p] {b : Bool} (h : p ↔ b = true) (x g : BitVec 32) :
    (if p then x ^^^ g else x) = x ^^^ select b g := by
  by_cases hp : p
  · rw [if_pos hp, select, if_pos (h.mp hp)]
  · rw [if_neg hp, select, if_neg fun hb => hp (h.mpr hb), xor_zero]

theorem polyModStep_eq (c : BitVec 32) (v : UInt8) :
    polyModStep c v = feedback c ^^^ v.toBitVec.setWidth 32 := by
  unfold polyModStep feedback
  dsimp only
  rw [ite_xor_eq_select (and_mask_ne_zero c 1#32 0 (by decide) rfl),
    ite_xor_eq_select (and_mask_ne_zero c 2#32 1 (by decide) rfl),
    ite_xor_eq_select (and_mask_ne_zero c 4#32 2 (by decide) rfl),
    ite_xor_eq_select (and_mask_ne_zero c 8#32 3 (by decide) rfl),
    ite_xor_eq_select (and_mask_ne_zero c 16#32 4 (by decide) rfl)]
  ac_rfl

theorem feedback_xor (a b : BitVec 32) : feedback (a ^^^ b) = feedback a ^^^ feedback b := by
  have hshift : ((a ^^^ b) &&& 0x1ffffff#32) <<< 5 =
      ((a &&& 0x1ffffff#32) <<< 5) ^^^ ((b &&& 0x1ffffff#32) <<< 5) := by
    rw [← shiftLeft_xor_distrib]
    congr 1
    ext i
    simp [Bool.and_xor_distrib_right]
  simp only [feedback, hshift, getLsbD_xor, select_xor]
  ac_rfl

theorem polyMod_eq_run (v : Bytes) :
    polyMod v = run feedback 1#32 (v.map fun b => b.toBitVec.setWidth 32) := by
  unfold polyMod
  generalize 1#32 = c
  induction v generalizing c with
  | nil => rfl
  | cons b v ih => rw [foldl_cons, polyModStep_eq, ih, map_cons, run_cons]

theorem select_ushiftRight {b : Bool} {g : BitVec 32} {k : Nat} (h : g >>> k = 0#32) :
    select b g >>> k = 0#32 := by
  cases b
  · simp [select]
  · exact h

theorem feedback_ushiftRight (c : BitVec 32) : feedback c >>> 30 = 0#32 := by
  have hshift : ((c &&& 0x1ffffff#32) <<< 5) >>> 30 = 0#32 := by
    apply eq_of_toNat_eq
    have hlt : (c &&& 0x1ffffff#32).toNat < 2 ^ 25 := by
      exact (Nat.and_two_pow_sub_one_eq_mod c.toNat 25).trans_lt (Nat.mod_lt _ (by decide))
    rw [toNat_ushiftRight, toNat_shiftLeft, Nat.shiftLeft_eq, Nat.shiftRight_eq_div_pow,
      Nat.mod_eq_of_lt (by omega)]
    exact Nat.div_eq_of_lt (by omega)
  simp only [feedback, ushiftRight_xor_distrib, hshift]
  rw [select_ushiftRight (by decide), select_ushiftRight (by decide),
    select_ushiftRight (by decide), select_ushiftRight (by decide), select_ushiftRight (by decide)]
  rfl

/-- A register of at most 25 bits is only shifted. -/
theorem feedback_of_short {x : BitVec 32} (h : x >>> 25 = 0#32) : feedback x = x <<< 5 := by
  have hbit : ∀ i, x.getLsbD (25 + i) = false := by
    intro i
    rw [← getLsbD_ushiftRight, h, getLsbD_zero]
  have hmask : x &&& 0x1ffffff#32 = x := by
    apply eq_of_toNat_eq
    have hdiv := congrArg BitVec.toNat h
    rw [toNat_ushiftRight, Nat.shiftRight_eq_div_pow] at hdiv
    refine (Nat.and_two_pow_sub_one_eq_mod x.toNat 25).trans (Nat.mod_eq_of_lt ?_)
    have hz : (0#32 : BitVec 32).toNat = 0 := rfl
    omega
  rw [feedback, hmask, hbit 0, hbit 1, hbit 2, hbit 3, hbit 4]
  simp [select]

theorem mul_div_xor_mod (n k : Nat) : 2 ^ k * (n / 2 ^ k) ^^^ n % 2 ^ k = n := by
  apply Nat.eq_of_testBit_eq
  intro i
  rw [Nat.testBit_xor, Nat.testBit_two_pow_mul, Nat.testBit_div_two_pow, Nat.testBit_mod_two_pow]
  by_cases h : k ≤ i
  · simp [h, Nat.not_lt.mpr h]
  · simp [h, Nat.lt_of_not_le h]

/-- One group appended to the higher groups of a word. -/
theorem feedback_group {m : BitVec 32} {k : Nat} (h : (m >>> (5 * (k + 1))) >>> 25 = 0#32) :
    feedback (m >>> (5 * (k + 1))) ^^^ ((m >>> (5 * k)) &&& 31#32) = m >>> (5 * k) := by
  rw [feedback_of_short h]
  apply eq_of_toNat_eq
  have hlow : ((m >>> (5 * k)) &&& 31#32).toNat = (m >>> (5 * k)).toNat % 2 ^ 5 := by
    exact Nat.and_two_pow_sub_one_eq_mod _ 5
  have hhigh : (m >>> (5 * (k + 1)) <<< 5).toNat = 2 ^ 5 * ((m >>> (5 * k)).toNat / 2 ^ 5) := by
    rw [toNat_shiftLeft, toNat_ushiftRight, toNat_ushiftRight, Nat.mul_succ, Nat.shiftRight_add,
      Nat.shiftRight_eq_div_pow _ 5, Nat.shiftLeft_eq, Nat.mod_eq_of_lt, Nat.mul_comm]
    have hlt := (m >>> (5 * k)).isLt
    rw [toNat_ushiftRight] at hlt
    omega
  rw [toNat_xor, hlow, hhigh]
  exact mul_div_xor_mod _ 5

theorem setWidth_group (x : BitVec 32) :
    (UInt8.ofNat (x &&& 31#32).toNat).toBitVec.setWidth 32 = x &&& 31#32 := by
  apply eq_of_toNat_eq
  have hlt : (x &&& 31#32).toNat < 2 ^ 5 := by
    exact (Nat.and_two_pow_sub_one_eq_mod x.toNat 5).trans_lt (Nat.mod_lt _ (by decide))
  rw [toNat_setWidth, UInt8.toNat_toBitVec, UInt8.toNat_ofNat']
  omega

/-- The groups of a 30-bit word put the word back together. -/
theorem run_checksumGroups {m : BitVec 32} (h : m >>> 30 = 0#32) :
    run feedback 0#32 ((checksumGroups m).map fun b => b.toBitVec.setWidth 32) = m := by
  have hshort : ∀ k, 1 ≤ k → (m >>> (5 * k)) >>> 25 = 0#32 := by
    intro k hk
    rw [← shiftRight_add, show 5 * k + 25 = 30 + (5 * k - 5) by omega, shiftRight_add, h]
    exact zero_ushiftRight
  have hstart : 0#32 = m >>> (5 * (5 + 1)) := h.symm
  have hgroups : (checksumGroups m).map (fun b => b.toBitVec.setWidth 32) =
      (List.range 6).map fun i => (m >>> (5 * (5 - i))) &&& 31#32 := by
    rw [checksumGroups, map_map]
    exact map_congr_left fun i _ => setWidth_group _
  rw [hgroups, show List.range 6 = [0, 1, 2, 3, 4, 5] from rfl, hstart]
  simp only [map_cons, map_nil, run_cons, run_nil, Nat.reduceSub]
  rw [feedback_group (hshort 6 (by decide)), feedback_group (hshort 5 (by decide)),
    feedback_group (hshort 4 (by decide)), feedback_group (hshort 3 (by decide)),
    feedback_group (hshort 2 (by decide)), feedback_group (hshort 1 (by decide))]
  exact ushiftRight_zero m

theorem polyMod_append_zeros (v : Bytes) : polyMod (v ++ List.replicate 6 0) >>> 30 = 0#32 := by
  rw [polyMod_eq_run, map_append, run_append]
  change (feedback _ ^^^ 0#32) >>> 30 = 0#32
  rw [xor_zero, feedback_ushiftRight]

end ChecksumLemmas

variable {const : BitVec 32}

open ChecksumLemmas LinearChecksum in
/-- The checksum symbols bring the register to the constant of the encoding. -/
theorem polyMod_checksum (v : Bytes) (h : const >>> 30 = 0#32) :
    polyMod (v ++ checksumGroups (polyMod (v ++ List.replicate 6 0) ^^^ const)) = const := by
  have hmod : (polyMod (v ++ List.replicate 6 0) ^^^ const) >>> 30 = 0#32 := by
    rw [BitVec.ushiftRight_xor_distrib, polyMod_append_zeros, h]
    rfl
  have hzeros : run feedback (run feedback 1#32 (v.map fun b => b.toBitVec.setWidth 32))
      (List.replicate 6 0#32) = polyMod (v ++ List.replicate 6 0) := by
    rw [polyMod_eq_run, map_append, run_append]
    rfl
  rw [polyMod_eq_run, map_append, run_append, run_eq_xor feedback_xor, run_checksumGroups hmod,
    length_map, show (checksumGroups _).length = 6 from rfl, hzeros, ← BitVec.xor_assoc,
    BitVec.xor_self, BitVec.zero_xor]

/-! ## Decoding an encoded string -/

/-- The characters of a human readable part that `Encode` accepts and `Decode`
gives back: printable and not upper case. -/
def ValidHrp (hrp : Bytes) : Prop :=
  hrp ≠ [] ∧ ∀ c ∈ hrp, 33 ≤ c ∧ c ≤ 126 ∧ ¬ (0x41 ≤ c ∧ c ≤ 0x5a)

instance (hrp : Bytes) : Decidable (ValidHrp hrp) :=
  decidable_of_iff (hrp ≠ [] ∧ hrp.all fun c => 33 ≤ c ∧ c ≤ 126 ∧ ¬ (0x41 ≤ c ∧ c ≤ 0x5a))
    (and_congr_right fun _ => by simp only [all_eq_true, decide_eq_true_iff])

namespace DecodeLemmas

/-- The facts about the alphabet that decoding uses. -/
theorem charset_digit : ∀ d < 32, rev (charset.getD d 0) = some (UInt8.ofNat d) ∧
    charset.getD d 0 ≠ 0x31 ∧
    33 ≤ charset.getD d 0 ∧ charset.getD d 0 ≤ 126 ∧
    ¬ (0x41 ≤ charset.getD d 0 ∧ charset.getD d 0 ≤ 0x5a) := by
  decide

theorem checkCharactersLoop_lower {str : Bytes}
    (h : ∀ c ∈ str, 33 ≤ c ∧ c ≤ 126 ∧ ¬ (0x41 ≤ c ∧ c ≤ 0x5a)) :
    ∀ (i : Nat) (lower : Bool), checkCharactersLoop i lower false str = [] := by
  induction str with
  | nil => exact fun _ _ => rfl
  | cons c str ih =>
    intro i lower
    obtain ⟨hlo, hhi, hupper⟩ := h c (by simp)
    have hrange : ¬ (c < 33 ∨ c > 126) := by
      rintro (hlt | hgt)
      · exact absurd hlo (UInt8.not_le.mpr hlt)
      · exact absurd hhi (UInt8.not_le.mpr hgt)
    have ih := ih fun d hd => h d (by simp [hd])
    rw [checkCharactersLoop]
    split
    · exact ih _ _
    · exact ih _ _

theorem rfind_append {c : UInt8} {pre post : Bytes} (h : c ∉ post) :
    rfind c (pre ++ c :: post) = some pre.length := by
  have hrev : (pre ++ c :: post).reverse = post.reverse ++ c :: pre.reverse := by simp
  have hidx : (post.reverse ++ c :: pre.reverse).findIdx? (· = c) = some post.length := by
    rw [List.findIdx?_append, List.findIdx?_eq_none_iff.mpr
      (by simpa using fun x hx => ne_of_mem_of_not_mem hx h)]
    simp [List.findIdx?_cons]
  rw [rfind, hrev, hidx, Option.map_some]
  simp

theorem lowerCase_map {hrp : Bytes} (h : ∀ c ∈ hrp, ¬ (0x41 ≤ c ∧ c ≤ 0x5a)) :
    hrp.map lowerCase = hrp := by
  refine (map_congr_left fun c hc => ?_).trans (map_id _)
  exact if_neg (h c hc)

theorem mapM_rev {values : Bytes} (h : ∀ v ∈ values.map UInt8.toNat, v < 32) :
    (values.map fun v => charset.getD v.toNat 0).mapM rev = some values := by
  induction values with
  | nil => rfl
  | cons v values ih =>
    have hv := (charset_digit v.toNat (h _ (by simp))).1
    rw [UInt8.ofNat_toNat] at hv
    have ih := ih fun w hw => h w (by
      exact mem_cons_of_mem _ hw)
    rw [map_cons, mapM_cons, hv, ih]
    rfl

theorem checksumGroups_lt (m : BitVec 32) : ∀ v ∈ (checksumGroups m).map UInt8.toNat, v < 32 := by
  intro v hv
  simp only [checksumGroups, map_map, mem_map] at hv
  obtain ⟨i, _, rfl⟩ := hv
  have hlt : ((m >>> (5 * (5 - i))) &&& 31#32).toNat < 32 := by
    exact (Nat.and_two_pow_sub_one_eq_mod _ 5).trans_lt (Nat.mod_lt _ (by decide))
  exact (Nat.mod_le _ _).trans_lt hlt

variable {encoding : Encoding}

theorem encodingConstant_ushiftRight (h : encodingConstant encoding = some const) : const >>> 30 =
    0#32 := by
  cases encoding <;> cases h <;> decide

theorem verifyChecksum_eq {hrp values : Bytes} (h : encodingConstant encoding = some const)
    (hcheck : polyMod (expandHRP hrp ++ values) = const) :
    verifyChecksum hrp values = encoding := by
  unfold verifyChecksum
  rw [hcheck]
  cases encoding <;> cases h <;> rfl

end DecodeLemmas

variable {encoding : Encoding}

/-- What `Encode` makes of a valid human readable part. -/
theorem encode_eq {hrp : Bytes} (hhrp : ValidHrp hrp)
    (hconst : encodingConstant encoding = some const) {values : Bytes} :
    encode encoding hrp values = some (hrp ++ 0x31 :: (values ++ checksumGroups
        (polyMod (expandHRP hrp ++ values ++ List.replicate 6 0) ^^^ const)).map
        fun v => charset.getD v.toNat 0) := by
  have hlower : ¬ (hrp.any fun c => ¬ (c < 0x41 ∨ c > 0x5a)) = true := by
    rw [any_eq_true]
    rintro ⟨c, hc, hupper⟩
    refine (hhrp.2 c hc).2.2 ?_
    simpa using hupper
  rw [encode, if_neg hlower, createChecksum, hconst]
  rfl

theorem exists_encode {hrp : Bytes} (hhrp : ValidHrp hrp) (henc : encoding ≠ .invalid)
    (values : Bytes) : ∃ tail, encode encoding hrp values = some (hrp ++ 0x31 :: tail) := by
  cases encoding with
  | invalid => exact absurd rfl henc
  | bech32 => exact ⟨_, encode_eq hhrp rfl⟩
  | bech32m => exact ⟨_, encode_eq hhrp rfl⟩

open DecodeLemmas

/-- What `Decode` makes of the symbols of five-bit groups after a prefix and the
separator. Only the checksum is left to look at. -/
theorem decode_symbols {hrp groups : Bytes} (hhrp : ValidHrp hrp)
    (hgroups : ∀ v ∈ groups.map UInt8.toNat, v < 32)
    (hsix : 6 ≤ groups.length) (hlen : hrp.length + groups.length + 1 ≤ 90) :
    decode (hrp ++ 0x31 :: groups.map fun v => charset.getD v.toNat 0) =
      if verifyChecksum hrp groups = .invalid then .failed
      else ⟨verifyChecksum hrp groups, hrp, groups.take (groups.length - 6)⟩ := by
  obtain ⟨hne, hchars⟩ := hhrp
  have hsymbols : ∀ c ∈ groups.map (fun v => charset.getD v.toNat 0),
      c ≠ 0x31 ∧ 33 ≤ c ∧ c ≤ 126 ∧ ¬ (0x41 ≤ c ∧ c ≤ 0x5a) := by
    intro c hc
    obtain ⟨v, hv, rfl⟩ := List.mem_map.mp hc
    exact (charset_digit v.toNat (hgroups _ (mem_map_of_mem hv))).2
  generalize hstr : (hrp ++ 0x31 :: groups.map fun v => charset.getD v.toNat 0) = str
  have hcheck : checkCharacters str = [] := by
    refine checkCharactersLoop_lower (fun c hc => ?_) 0 false
    rw [← hstr, mem_append, mem_cons] at hc
    rcases hc with hc | rfl | hc
    · exact hchars c hc
    · decide
    · exact (hsymbols c hc).2
  have hpos : rfind 0x31 str = some hrp.length := by
    rw [← hstr]
    exact rfind_append fun hc => (hsymbols _ hc).1 rfl
  have hlength : str.length = hrp.length + groups.length + 1 := by
    rw [← hstr, length_append, length_cons, length_map, Nat.add_assoc]
  have hbounds : ¬ (str.length > 90 ∨ hrp.length = 0 ∨ hrp.length + 7 > str.length) := by
    have := List.length_pos_iff.mpr hne
    omega
  have hdata : (str.drop (hrp.length + 1)).mapM rev = some groups := by
    rw [← hstr, drop_append, drop_of_length_le (Nat.le_succ _), Nat.add_sub_cancel_left, nil_append,
      drop_succ_cons, drop_zero, mapM_rev hgroups]
  have hprefix : (str.take hrp.length).map lowerCase = hrp := by
    rw [← hstr, take_left, lowerCase_map fun c hc => (hchars c hc).2.2]
  simp only [decode, hcheck, ne_eq, not_true_eq_false, if_false, hpos, if_neg hbounds,
    hdata, hprefix]

theorem decode_encode {hrp values str : Bytes} (hhrp : ValidHrp hrp)
    (hvalues : ∀ v ∈ values.map UInt8.toNat, v < 32) (hlen : hrp.length + values.length + 7 ≤ 90)
    (h : encode encoding hrp values = some str) : decode str = ⟨encoding, hrp, values⟩ := by
  simp only [encode, createChecksum, Option.bind_eq_bind, Option.ite_none_left_eq_some,
    Option.bind_eq_some_iff, Option.some.injEq] at h
  obtain ⟨_, checksum, ⟨const, hconst, hchecksum⟩, rfl⟩ := h
  have hgroups : ∀ v ∈ (values ++ checksum).map UInt8.toNat, v < 32 := by
    intro v hv
    rw [map_append, mem_append] at hv
    rcases hv with hv | hv
    · exact hvalues v hv
    · exact checksumGroups_lt _ v (hchecksum ▸ hv)
  have hsix : checksum.length = 6 := by rw [← hchecksum]; rfl
  have hlength : (values ++ checksum).length = values.length + 6 := by rw [length_append, hsix]
  have hverify : verifyChecksum hrp (values ++ checksum) = encoding := by
    refine verifyChecksum_eq hconst ?_
    rw [← List.append_assoc, ← hchecksum]
    exact polyMod_checksum _ (encodingConstant_ushiftRight hconst)
  have hvalid : encoding ≠ .invalid := by
    rintro rfl
    cases hconst
  rw [decode_symbols hhrp hgroups (hlength ▸ Nat.le_add_left _ _) (hlength ▸ hlen), hverify,
    if_neg hvalid, hlength, Nat.add_sub_cancel, take_left]

end Bitcoboost.Bech32
