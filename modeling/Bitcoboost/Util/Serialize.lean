import Mathlib.Algebra.Group.Int.Defs
import Mathlib.Algebra.Group.Nat.Defs
import Bitcoboost.Lib.Codec
import Bitcoboost.Lib.SelfDelimiting
import Bitcoboost.Util.Bytes

/-!
# Serialization of numbers and vectors

The formats of `serialize.h`: integers with the lowest byte first, the count that precedes a
vector (`CompactSize`) and vectors. A reader gives the value and the rest of the stream, and
`none` for the exception that it throws. What was written is read back, and except for variable
length integers nothing else is read.
-/

namespace Bitcoboost

open List Nat

/-- The `k` lowest bytes of `n`, the lowest first: `ser_writedata16`, `32` and
`64`, `WriteLE16` and `WriteLE32`. -/
def leBytes (k n : Nat) : Bytes := (List.range k).map fun i => UInt8.ofNat (n >>> (8 * i))

theorem leBytes_succ (k n : Nat) : leBytes (k + 1) n = UInt8.ofNat n :: leBytes k (n / 256) := by
  rw [leBytes, range_succ_eq_map, map_cons, map_map]
  refine congrArg _ (map_congr_left fun i _ => ?_)
  rw [Function.comp, mul_succ, add_comm, shiftRight_add, shiftRight_eq_div_pow n 8]

/-- Bytes are those of the number they encode. -/
theorem leBytes_leValue (b : Bytes) : leBytes b.length b.leValue = b := by
  induction b with
  | nil => rfl
  | cons byte b ih =>
    have hvalue : Bytes.leValue (byte :: b) = byte.toNat + 256 * Bytes.leValue b := rfl
    have hlt := byte.toNat_lt
    rw [length_cons, leBytes_succ, hvalue, add_mul_div_left _ _ (by decide),
      div_eq_of_lt hlt, zero_add, ih]
    congr 1
    rw [← UInt8.toNat_inj, UInt8.toNat_ofNat', add_mul_mod_self_left, mod_eq_of_lt hlt]

def serializeInt64 (a : Int) : Bytes := leBytes 8 (BitVec.ofInt 64 a).toNat

def writeCompactSize (nSize : Nat) : Bytes :=
  if nSize < 253 then leBytes 1 nSize
  else if nSize ≤ 0xffff then 253 :: leBytes 2 nSize
  else if nSize ≤ 0xffffffff then 254 :: leBytes 4 nSize
  else 255 :: leBytes 8 nSize

def serializeVector {α : Type} (serialize : α → Bytes) (v : List α) : Bytes :=
  writeCompactSize v.length ++ v.flatMap serialize

/-- `Serialize` of a byte vector, and of a `CScript`. -/
def serializeBytes (v : Bytes) : Bytes := writeCompactSize v.length ++ v

def maxSize : Nat := 0x02000000

/-- `ser_readdata8`, `16`, `32` and `64`: a number of `k` bytes. -/
def readLE (k : Nat) (s : Bytes) : Option (Nat × Bytes) :=
  if s.length < k then none else some (Bytes.leValue (s.take k), s.drop k)

def readCompactSize (rangeCheck : Bool) (s : Bytes) : Option (Nat × Bytes) := do
  let (chSize, s) ← readLE 1 s
  let (nSizeRet, s) ←
    if chSize < 253 then some (chSize, s)
    else if chSize = 253 then do
      let (n, s) ← readLE 2 s
      if n < 253 then none else some (n, s)
    else if chSize = 254 then do
      let (n, s) ← readLE 4 s
      if n < 0x10000 then none else some (n, s)
    else do
      let (n, s) ← readLE 8 s
      if n < 0x100000000 then none else some (n, s)
  if rangeCheck && nSizeRet > maxSize then none else some (nSizeRet, s)

/-- `read` of `n` bytes. -/
def readBytes (n : Nat) (s : Bytes) : Option (Bytes × Bytes) :=
  if s.length < n then none else some (s.take n, s.drop n)

/-- `Unserialize` of a byte vector, and of a `CScript`. -/
def unserializeBytes (s : Bytes) : Option (Bytes × Bytes) := do
  let (n, s) ← readCompactSize true s
  readBytes n s

/-- The loop of `Unserialize` of a vector over its `n` elements. -/
def readMany {α : Type} (unserialize : Bytes → Option (α × Bytes)) :
    Nat → Bytes → Option (List α × Bytes)
  | 0, s => some ([], s)
  | n + 1, s => do
    let (a, s) ← unserialize s
    let (v, s) ← readMany unserialize n s
    some (a :: v, s)

def unserializeVector {α : Type} (unserialize : Bytes → Option (α × Bytes)) (s : Bytes) :
    Option (List α × Bytes) := do
  let (n, s) ← readCompactSize true s
  readMany unserialize n s

/-- The loop of `WriteVarInt` that fills `tmp`, of the given size. All but the first
entry, which is written last, have the high bit. -/
def varIntTmp : Nat → Nat → Nat → Bytes
  | 0, _, _ => []
  | size + 1, flag, n =>
    UInt8.ofNat (n % 128 + flag) :: if n ≤ 0x7f then [] else varIntTmp size 128 (n / 128 - 1)

/-- `WriteVarInt` of a type of the given number of bits. -/
def writeVarInt (bits n : Nat) : Bytes := (varIntTmp ((bits + 6) / 7) 0 n).reverse

/-- The loop of `ReadVarInt` with the largest value of the type. -/
def readVarIntLoop (max : Nat) : Nat → Bytes → Option (Nat × Bytes)
  | _, [] => none
  | n, chData :: s =>
    if n > max / 128 then none
    else
      let n := n * 128 + chData.toNat % 128
      if chData.toNat ≥ 128 then if n = max then none else readVarIntLoop max (n + 1) s
      else some (n, s)

/-- `ReadVarInt` of a type of the given number of bits. -/
def readVarInt (bits : Nat) (s : Bytes) : Option (Nat × Bytes) := readVarIntLoop (2 ^ bits - 1) 0 s

/-! ## Reading back -/

theorem length_leBytes (k n : Nat) : (leBytes k n).length = k := by
  rw [leBytes, length_map, length_range]

variable {α : Type} {n flag k max : Nat} {serialize : α → Bytes}
  {unserialize : Bytes → Option (α × Bytes)} {P : α → Prop}
  {rangeCheck : Bool} {v : List α}

theorem length_serializeVector (h : ∀ a ∈ v, (serialize a).length = k) :
    (serializeVector serialize v).length = (writeCompactSize v.length).length + k * v.length := by
  have hflat : (v.flatMap serialize).length = k * v.length := by
    induction v with
    | nil => rfl
    | cons a v ih =>
      rw [flatMap_cons, length_append, h a mem_cons_self,
        ih fun b hb => h b (mem_cons_of_mem a hb), length_cons, mul_succ, add_comm]
  rw [serializeVector, length_append, hflat]

theorem leValue_leBytes (k n : Nat) : Bytes.leValue (leBytes k n) = n % 256 ^ k := by
  induction k generalizing n with
  | zero => exact (mod_one n).symm
  | succ k ih =>
    have hvalue : Bytes.leValue (leBytes (k + 1) n) =
        n % 256 + 256 * Bytes.leValue (leBytes k (n / 256)) := by
      rw [leBytes_succ]
      exact congrArg (· + _) UInt8.toNat_ofNat'
    rw [hvalue, ih, pow_succ', mod_mul]

theorem selfDelimiting_leBytes (k : Nat) : SelfDelimiting (· < 256 ^ k) (leBytes k) := by
  refine .of_length (fun n _ => length_leBytes k n) fun m hm n hn h => ?_
  have hvalue := congrArg Bytes.leValue h
  rwa [leValue_leBytes, leValue_leBytes, mod_eq_of_lt hm, mod_eq_of_lt hn] at hvalue

theorem readLE_leBytes (h : n < 256 ^ k) (s : Bytes) :
    readLE k (leBytes k n ++ s) = some (n, s) := by
  have hlen := length_leBytes k n
  have hlong : ¬ (leBytes k n ++ s).length < k := by
    rw [length_append, hlen]
    exact Nat.not_lt.mpr (Nat.le_add_right ..)
  rw [readLE, if_neg hlong, take_left' hlen, drop_left' hlen, leValue_leBytes, mod_eq_of_lt h]

theorem readLE_one (byte : UInt8) (s : Bytes) : readLE 1 (byte :: s) = some (byte.toNat, s) := by
  simp [readLE, Bytes.leValue]

theorem readCompactSize_write (h : n < 2 ^ 64) (hmax : rangeCheck = true → n ≤ maxSize)
    (s : Bytes) : readCompactSize rangeCheck (writeCompactSize n ++ s) = some (n, s) := by
  unfold readCompactSize writeCompactSize
  split
  · next h₁ =>
    rw [readLE_leBytes (by omega)]
    simpa [h₁] using hmax
  · next h₁ =>
    split
    · next h₂ =>
      rw [cons_append, readLE_one]
      simpa [readLE_leBytes (show n < 256 ^ 2 by omega), h₁] using hmax
    · next h₂ =>
      split
      · next h₃ =>
        rw [cons_append, readLE_one]
        simpa [readLE_leBytes (show n < 256 ^ 4 by omega), show ¬ n < 65536 by omega] using hmax
      · next h₃ =>
        rw [cons_append, readLE_one]
        simpa [readLE_leBytes (show n < 256 ^ 8 by omega),
          show ¬ n < 4294967296 by omega] using hmax

theorem selfDelimiting_writeCompactSize : SelfDelimiting (· < 2 ^ 64) writeCompactSize :=
  .of_read fun _ hn s => readCompactSize_write hn (fun h => absurd h Bool.false_ne_true) s

theorem selfDelimiting_serializeBytes :
    SelfDelimiting (fun v : Bytes => v.length < 2 ^ 64) serializeBytes := by
  intro v hv w hw x y h
  rw [serializeBytes, serializeBytes, append_assoc, append_assoc] at h
  obtain ⟨hlen, h⟩ := selfDelimiting_writeCompactSize hv hw h
  exact append_inj h hlen

/-- Vectors that fit a `size_t`, of elements with a self-delimiting code. -/
theorem selfDelimiting_serializeVector (h : SelfDelimiting P serialize) :
    SelfDelimiting (fun v : List α => v.length < 2 ^ 64 ∧ ∀ a ∈ v, P a)
    (serializeVector serialize) := by
  intro v hv w hw x y heq
  rw [serializeVector, serializeVector, append_assoc, append_assoc] at heq
  obtain ⟨hlen, heq⟩ := selfDelimiting_writeCompactSize hv.1 hw.1 heq
  exact h.flatMap hv.2 hw.2 hlen heq

theorem readBytes_append {b : Bytes} (h : b.length = n) (s : Bytes) :
    readBytes n (b ++ s) = some (b, s) := by
  have hlong :
    ¬ (b ++ s).length < n := by rw [length_append, h]; exact Nat.not_lt.mpr (Nat.le_add_right ..)
  rw [readBytes, if_neg hlong, take_left' h, drop_left' h]

theorem unserializeVector_serialize (h : ∀ a ∈ v, ∀ s, unserialize (serialize a ++ s) = some (a, s))
    (hlen : v.length ≤ maxSize) (s : Bytes) :
    unserializeVector unserialize (serializeVector serialize v ++ s) = some (v, s) := by
  have hmany : readMany unserialize v.length (v.flatMap serialize ++ s) = some (v, s) := by
    induction v with
    | nil => rfl
    | cons a v ih =>
      rw [flatMap_cons, append_assoc, length_cons, readMany, h a mem_cons_self]
      have hrest := ih (fun b hb => h b (mem_cons_of_mem a hb)) (le_of_succ_le hlen)
      simp [hrest]
  have hsize : v.length < 2 ^ 64 := Nat.lt_of_le_of_lt hlen (by decide)
  rw [serializeVector, append_assoc, unserializeVector, readCompactSize_write hsize (fun _ => hlen)]
  exact hmany

/-! ### Variable length integers -/

theorem toNat_varIntByte (hflag : flag = 0 ∨ flag = 128) :
    (UInt8.ofNat (n % 128 + flag)).toNat = n % 128 + flag := by
  rw [UInt8.toNat_ofNat']
  omega

/-- Reading the last byte of a number that has more, after these were read. -/
theorem readVarIntLoop_last (hflag : flag = 0 ∨ flag = 128) (hmax : n ≤ max) (s : Bytes) :
    readVarIntLoop max (n / 128) (UInt8.ofNat (n % 128 + flag) :: s) =
      if flag = 128 then if n = max then none else readVarIntLoop max (n + 1) s
        else some (n, s) := by
  have hfits : ¬ n / 128 > max / 128 := Nat.not_lt.mpr (Nat.div_le_div_right hmax)
  have hdigit : (n % 128 + flag) % 128 = n % 128 := by omega
  have hvalue : n / 128 * 128 + n % 128 = n := div_add_mod' n 128
  rw [readVarIntLoop, if_neg hfits, toNat_varIntByte hflag, hdigit, hvalue]
  rcases hflag with rfl | rfl
  · rw [if_neg (by omega), if_neg (by decide)]
  · rw [if_pos (by omega), if_pos rfl]

/-- The bytes with the high bit count up to one more than the number they are for. -/
theorem readVarIntLoop_tmp (size : Nat) (hflag : flag = 0 ∨ flag = 128)
    (hsize : n < 128 ^ (size + 1)) (hmax : n ≤ max) (s : Bytes) :
    readVarIntLoop max 0 ((varIntTmp (size + 1) flag n).reverse ++ s) =
      if flag = 128 then if n = max then none else readVarIntLoop max (n + 1) s
        else some (n, s) := by
  induction size generalizing n flag s with
  | zero =>
    have hsmall : n ≤ 0x7f := le_of_lt_succ hsize
    have hzero : n / 128 = 0 := div_eq_of_lt hsize
    rw [varIntTmp, if_pos hsmall, ← readVarIntLoop_last hflag hmax, hzero]
    rfl
  | succ size ih =>
    rw [varIntTmp]
    split
    next hsmall =>
      have hzero : n / 128 = 0 := div_eq_of_lt (lt_succ_of_le hsmall)
      rw [← readVarIntLoop_last hflag hmax, hzero]
      rfl
    next hlarge =>
      -- the higher bytes are those of one less than the quotient
      have hpos : n / 128 - 1 + 1 = n / 128 := by omega
      have hhigh : n / 128 - 1 < 128 ^ (size + 1) := by
        omega
      rw [reverse_cons, append_assoc, ih (.inr rfl) hhigh (by omega), if_pos rfl,
        if_neg (by omega), hpos, ← readVarIntLoop_last hflag hmax]
      rfl

theorem readVarInt_write {bits : Nat} (hbits : 0 < bits) (h : n < 2 ^ bits) (s : Bytes) :
    readVarInt bits (writeVarInt bits n ++ s) = some (n, s) := by
  obtain ⟨size, hsize⟩ : ∃ size, (bits + 6) / 7 = size + 1 := ⟨(bits + 6) / 7 - 1, by omega⟩
  have hle : bits ≤ 7 * (size + 1) := by omega
  have hfits : n < 128 ^ (size + 1) := by
    have hpow : (2 : Nat) ^ bits ≤ 2 ^ (7 * (size + 1)) := Nat.pow_le_pow_right (by decide) hle
    rw [pow_mul] at hpow
    exact Nat.lt_of_lt_of_le h hpow
  rw [readVarInt, writeVarInt, hsize, readVarIntLoop_tmp size (.inl rfl) hfits (le_sub_one_of_lt h)]
  rfl

/-- The values of an `int64_t`. -/
def IsInt64 (a : Int) : Prop := -2 ^ 63 ≤ a ∧ a < 2 ^ 63

theorem selfDelimiting_serializeInt64 : SelfDelimiting IsInt64 serializeInt64 := by
  refine .of_length (fun a _ => length_leBytes 8 _) fun a ha b hb h => ?_
  have hbits := (selfDelimiting_leBytes 8).injective (BitVec.isLt _) (BitVec.isLt _) h
  have hint := congrArg BitVec.toInt (BitVec.eq_of_toNat_eq hbits)
  rw [BitVec.toInt_ofInt, BitVec.toInt_ofInt] at hint
  obtain ⟨ha, ha'⟩ := ha
  obtain ⟨hb, hb'⟩ := hb
  rwa [Int.bmod_eq_of_le (by omega) (by omega), Int.bmod_eq_of_le (by omega) (by omega)] at hint

/-! ### Readers that accept one form only -/

theorem leValue_lt (b : Bytes) : b.leValue < 256 ^ b.length := by
  have hmod := leValue_leBytes b.length b.leValue
  rw [leBytes_leValue] at hmod
  rw [hmod]
  exact Nat.mod_lt _ (Nat.pow_pos (by decide))

theorem codec_readLE (k : Nat) : Codec (· < 256 ^ k) (leBytes k) (readLE k) := by
  intro s n rest
  constructor
  · intro h
    unfold readLE at h
    split at h
    · cases h
    · next hlong =>
      cases h
      have hlength : (s.take k).length = k := length_take_of_le (Nat.not_lt.mp hlong)
      have hlt := leValue_lt (s.take k)
      have hbytes := leBytes_leValue (s.take k)
      rw [hlength] at hlt hbytes
      exact ⟨hlt, by rw [hbytes, take_append_drop]⟩
  · rintro ⟨hn, rfl⟩
    exact readLE_leBytes hn rest

theorem codec_readBytes (n : Nat) : Codec (fun b : Bytes => b.length = n) id (readBytes n) := by
  intro s b rest
  constructor
  · intro h
    unfold readBytes at h
    split at h
    · cases h
    · next hlong =>
      cases h
      exact ⟨length_take_of_le (Nat.not_lt.mp hlong), (take_append_drop n s).symm⟩
  · rintro ⟨hb, rfl⟩
    exact readBytes_append hb rest

/-- The numbers that a reader of a count returns. -/
def IsCompactSize (rangeCheck : Bool) (n : Nat) : Prop :=
  n < 2 ^ 64 ∧ (rangeCheck = true → n ≤ maxSize)

/-- The last check of `readCompactSize`. -/
theorem isCompactSize_of_check {n' : Nat} {rest rest' : Bytes} (hn : n' < 2 ^ 64)
    (h : (if rangeCheck && n' > maxSize then none else some (n', rest')) = some (n, rest)) :
    IsCompactSize rangeCheck n ∧ n' = n ∧ rest' = rest := by
  split at h
  · cases h
  · next hrange =>
    cases h
    exact ⟨⟨hn, fun hcheck => by simpa [hcheck] using hrange⟩, rfl, rfl⟩

theorem codec_readCompactSize (rangeCheck : Bool) :
    Codec (IsCompactSize rangeCheck) writeCompactSize (readCompactSize rangeCheck) := by
  intro s n rest
  refine ⟨fun hread => ?_, fun ⟨⟨hn, hmax⟩, hs⟩ => by rw [hs, readCompactSize_write hn hmax]⟩
  obtain ⟨chSize, s₁, hch, rfl, h⟩ := (codec_readLE 1).bind_some.mp hread
  dsimp only at h
  -- the first byte tells the form, and each form has a least number
  split at h
  · next hsmall =>
    obtain ⟨hn, rfl, rfl⟩ := isCompactSize_of_check (Nat.lt_trans hsmall (by decide)) h
    rw [writeCompactSize, if_pos hsmall]
    exact ⟨hn, rfl⟩
  · next hlarge =>
    split at h
    · next h253 =>
      obtain ⟨m, s₂, hm, rfl, hform⟩ := (codec_readLE 2).bind_some.mp h
      split at hform
      · cases hform
      · next hleast =>
        obtain ⟨hn, rfl, rfl⟩ := isCompactSize_of_check (Nat.lt_trans hm (by decide)) hform
        rw [writeCompactSize, if_neg hleast, if_pos (by omega), h253]
        exact ⟨hn, rfl⟩
    · next h253 =>
      split at h
      · next h254 =>
        obtain ⟨m, s₂, hm, rfl, hform⟩ := (codec_readLE 4).bind_some.mp h
        split at hform
        · cases hform
        · next hleast =>
          obtain ⟨hn, rfl, rfl⟩ := isCompactSize_of_check (Nat.lt_trans hm (by decide)) hform
          rw [writeCompactSize, if_neg (by omega), if_neg (by omega), if_pos (by omega), h254]
          exact ⟨hn, rfl⟩
      · next h254 =>
        obtain ⟨m, s₂, hm, rfl, hform⟩ := (codec_readLE 8).bind_some.mp h
        dsimp only at hform
        split at hform
        · cases hform
        · next hleast =>
          obtain ⟨hn, rfl, rfl⟩ := isCompactSize_of_check (show m < 2 ^ 64 from hm) hform
          rw [writeCompactSize, if_neg (by omega), if_neg (by omega), if_neg (by omega),
            show chSize = 255 by omega]
          exact ⟨hn, rfl⟩

theorem codec_unserializeBytes :
    Codec (fun b : Bytes => b.length ≤ maxSize) serializeBytes unserializeBytes := by
  intro s b rest
  rw [unserializeBytes, (codec_readCompactSize true).bind_some]
  constructor
  · rintro ⟨n, s₁, hn, rfl, h⟩
    obtain ⟨hlength, rfl⟩ := (codec_readBytes n _ _ _).mp h
    refine ⟨?_, by rw [serializeBytes, hlength, append_assoc]; rfl⟩
    dsimp only
    rw [hlength]
    exact hn.2 rfl
  · rintro ⟨hlength, rfl⟩
    refine ⟨b.length, b ++ rest, ⟨Nat.lt_of_le_of_lt hlength (by decide), fun _ => hlength⟩, ?_, ?_⟩
    · rw [serializeBytes, append_assoc]
    · exact readBytes_append rfl rest

theorem codec_readMany (h : Codec P serialize unserialize) {n : Nat} :
    Codec (fun v : List α => v.length = n ∧ ∀ a ∈ v, P a) (fun v => v.flatMap serialize)
    (readMany unserialize n) := by
  induction n with
  | zero =>
    intro s v rest
    constructor
    · intro hread
      cases hread
      exact ⟨⟨rfl, nofun⟩, rfl⟩
    · rintro ⟨⟨hlength, _⟩, rfl⟩
      obtain rfl := eq_nil_of_length_eq_zero hlength
      rfl
  | succ n ih =>
    intro s v rest
    rw [readMany, h.bind_some]
    constructor
    · rintro ⟨a, s₁, ha, rfl, hread⟩
      obtain ⟨v, rest, ⟨hlength, hv⟩, hs, heq⟩ := ih.bind_some.mp hread
      cases heq
      refine ⟨⟨by rw [length_cons, hlength], ?_⟩, by rw [hs]; exact (append_assoc ..).symm⟩
      intro b hb
      rcases List.mem_cons.mp hb with rfl | hb
      · exact ha
      · exact hv b hb
    · rintro ⟨⟨hlength, hv⟩, rfl⟩
      cases v with
      | nil => cases hlength
      | cons a v =>
        refine ⟨a, v.flatMap serialize ++ rest, hv a mem_cons_self, append_assoc .., ?_⟩
        exact ih.bind_some.mpr ⟨v, rest, ⟨Nat.succ.inj hlength, fun b hb =>
          hv b (mem_cons_of_mem a hb)⟩, rfl, rfl⟩

theorem codec_unserializeVector (h : Codec P serialize unserialize) :
    Codec (fun v : List α => v.length ≤ maxSize ∧ ∀ a ∈ v, P a) (serializeVector serialize)
      (unserializeVector unserialize) := by
  intro s v rest
  rw [unserializeVector, (codec_readCompactSize true).bind_some]
  constructor
  · rintro ⟨n, s₁, hn, rfl, hread⟩
    obtain ⟨⟨hlength, hv⟩, rfl⟩ := (codec_readMany h _ _ _).mp hread
    exact ⟨⟨hlength ▸ hn.2 rfl, hv⟩, by rw [serializeVector, hlength, append_assoc]⟩
  · rintro ⟨⟨hlength, hv⟩, rfl⟩
    refine ⟨v.length, v.flatMap serialize ++ rest,
      ⟨Nat.lt_of_le_of_lt hlength (by decide), fun _ => hlength⟩, ?_, ?_⟩
    · rw [serializeVector, append_assoc]
    · exact (codec_readMany h _ _ _).mpr ⟨⟨rfl, hv⟩, rfl⟩

end Bitcoboost
