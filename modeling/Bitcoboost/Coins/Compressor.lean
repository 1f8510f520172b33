import Bitcoboost.Coins.Coins
import Bitcoboost.Crypto.Secp256k1

/-!
# Compressed outputs

The format of `compressor.h` and `compressor.cpp` for the outputs in the undo files: an amount
drops its trailing zeros, and the usual scripts are a tag and a hash or a key.
-/

namespace Bitcoboost

open OpcodeType List Nat

/-! ## Amounts -/

/-- The loop of `CompressAmount`: the number without up to `k` trailing zeros, and how many
there were. -/
def stripZeros : Nat → Nat → Nat × Nat
  | 0, n => (n, 0)
  | k + 1, n =>
    if n % 10 = 0 then
      let (n, e) := stripZeros k (n / 10)
      (n, e + 1)
    else (n, 0)

def compressAmount (n : Nat) : Nat :=
  if n = 0 then 0
  else
    let (n, e) := stripZeros 9 n
    if e < 9 then (1 + (n / 10 * 9 + n % 10 - 1) * 10 + e) % 2 ^ 64
    else (1 + (n - 1) * 10 + 9) % 2 ^ 64

def decompressAmount (x : Nat) : Nat :=
  if x = 0 then 0
  else
    let e := (x - 1) % 10
    let x := (x - 1) / 10
    let n := if e < 9 then x / 9 * 10 + (x % 9 + 1) else x + 1
    n * 10 ^ e % 2 ^ 64

/-- `AmountCompression::Ser`. -/
def serializeAmount (nValue : CAmount) : Bytes :=
  writeVarInt 64 (compressAmount (BitVec.ofInt 64 nValue).toNat)

def unserializeAmount (s : Bytes) : Option (CAmount × Bytes) := do
  let (v, s) ← readVarInt 64 s
  some ((BitVec.ofNat 64 (decompressAmount v)).toInt, s)

/-! ## Scripts -/

variable (script : CScript)

def isToKeyID : Option Bytes :=
  if script.length = 25 ∧ script.take 3 = [OpcodeType.opDup.toByte, OpcodeType.opHash160.toByte, 20]
      ∧ script.drop 23 = [OpcodeType.opEqualverify.toByte, OpcodeType.opChecksig.toByte] then
    some ((script.drop 3).take 20)
  else none

def isToScriptID : Option Bytes :=
  if script.length = 23 ∧ script.take 2 = [OpcodeType.opHash160.toByte, 20]
      ∧ script.drop 22 = [OpcodeType.opEqual.toByte] then
    some ((script.drop 2).take 20)
  else none

/-- `CPubKey::IsFullyValid`, of the bytes of a key. -/
def isFullyValid (pubkey : Bytes) : Bool := (Secp256k1.pubkeyParse pubkey).isSome

def decompress (pubkey : Bytes) : Option Bytes :=
  (Secp256k1.pubkeyParse pubkey).map Secp256k1.pubkeySerialize

def isToPubKey : Option Bytes :=
  if script.length = 35 ∧ (script.take 2 = [33, 0x02] ∨ script.take 2 = [33, 0x03])
      ∧ script.drop 34 = [OpcodeType.opChecksig.toByte] then
    some ((script.drop 1).take 33)
  else if script.length = 67 ∧ script.take 2 = [65, 0x04] ∧
      script.drop 66 = [OpcodeType.opChecksig.toByte] then
    let pubkey := (script.drop 1).take 65
    if isFullyValid pubkey then some pubkey else none
  else none

def compressPubKey (pubkey : Bytes) : Option Bytes :=
  match pubkey with
  | [] => none
  | tag :: body =>
    if tag = 0x02 ∨ tag = 0x03 then some (tag :: body.take 32)
    else if tag = 0x04 then some ((0x04 ||| (body.getD 63 0 &&& 0x01)) :: body.take 32)
    else none

def compressScript : Option Bytes :=
  match isToKeyID script with
  | some keyID => some (0x00 :: keyID)
  | none =>
    match isToScriptID script with
    | some scriptID => some (0x01 :: scriptID)
    | none => (isToPubKey script).bind compressPubKey

def getSpecialScriptSize (nSize : Nat) : Nat :=
  if nSize = 0 ∨ nSize = 1 then 20
  else if nSize = 2 ∨ nSize = 3 ∨ nSize = 4 ∨ nSize = 5 then 32
  else 0

/-- `DecompressScript`, which leaves the script empty if it returns false. -/
def decompressScript (nSize : Nat) (vch : Bytes) : CScript :=
  match nSize with
  | 0 => [OpcodeType.opDup.toByte, OpcodeType.opHash160.toByte, 20] ++ vch.take 20
      ++ [OpcodeType.opEqualverify.toByte, OpcodeType.opChecksig.toByte]
  | 1 => [OpcodeType.opHash160.toByte, 20] ++ vch.take 20 ++ [OpcodeType.opEqual.toByte]
  | 2 => [33, 0x02] ++ vch.take 32 ++ [OpcodeType.opChecksig.toByte]
  | 3 => [33, 0x03] ++ vch.take 32 ++ [OpcodeType.opChecksig.toByte]
  | 4 => (decompress (0x02 :: vch.take 32)).elim [] fun pubkey =>
      65 :: pubkey ++ [OpcodeType.opChecksig.toByte]
  | 5 => (decompress (0x03 :: vch.take 32)).elim [] fun pubkey =>
      65 :: pubkey ++ [OpcodeType.opChecksig.toByte]
  | _ => []

def nSpecialScripts : Nat := 6

/-- `ScriptCompression::Ser`. -/
def serializeScript : Bytes :=
  match compressScript script with
  | some compr => compr
  | none => writeVarInt 32 ((script.length + nSpecialScripts) % 2 ^ 32) ++ script

def unserializeScript (s : Bytes) : Option (CScript × Bytes) := do
  let (nSize, s) ← readVarInt 32 s
  if nSize < nSpecialScripts then do
    let (vch, s) ← readBytes (getSpecialScriptSize nSize) s
    some (decompressScript nSize vch, s)
  else do
    let nSize := nSize - nSpecialScripts
    let (script, s) ← readBytes nSize s
    -- an overly long script is skipped and replaced with a short invalid one
    if nSize > maxScriptSize then some ([OpcodeType.opReturn.toByte], s) else some (script, s)

/-- `TxOutCompression`. -/
def serializeTxOut (out : CTxOut) : Bytes :=
  serializeAmount out.nValue ++ serializeScript out.scriptPubKey

def unserializeTxOut (s : Bytes) : Option (CTxOut × Bytes) := do
  let (nValue, s) ← unserializeAmount s
  let (scriptPubKey, s) ← unserializeScript s
  some (⟨nValue, scriptPubKey⟩, s)

namespace CompressorLemmas

/-! ## Reading amounts back -/

theorem stripZeros_spec (k n : Nat) :
    n = (stripZeros k n).1 * 10 ^ (stripZeros k n).2 ∧ (stripZeros k n).2 ≤ k ∧
      ((stripZeros k n).2 < k → (stripZeros k n).1 % 10 ≠ 0) := by
  induction k generalizing n with
  | zero => exact ⟨(mul_one n).symm, le_refl 0, fun h => absurd h (lt_irrefl 0)⟩
  | succ k ih =>
    rw [stripZeros]
    split
    next hzero =>
      obtain ⟨hvalue, hle, hdigit⟩ := ih (n / 10)
      refine ⟨?_, succ_le_succ hle, fun h => hdigit (lt_of_succ_lt_succ h)⟩
      calc n = n / 10 * 10 := (Nat.div_mul_cancel (Nat.dvd_of_mod_eq_zero hzero)).symm
        _ = (stripZeros k (n / 10)).1 * 10 ^ (stripZeros k (n / 10)).2 * 10 := by rw [← hvalue]
        _ = (stripZeros k (n / 10)).1 * 10 ^ ((stripZeros k (n / 10)).2 + 1) := by rw [pow_succ,
          mul_assoc]
    next hdigit => exact ⟨(mul_one n).symm, zero_le _, fun _ => hdigit⟩

theorem decompressAmount_of_digits {x n e : Nat} (he : e < 9) (hdigit : n % 10 ≠ 0)
    (hx : x = 1 + (n / 10 * 9 + n % 10 - 1) * 10 + e) :
    decompressAmount x = n * 10 ^ e % 2 ^ 64 := by
  have hexp : (x - 1) % 10 = e := by omega
  have hrest : (x - 1) / 10 = n / 10 * 9 + (n % 10 - 1) := by omega
  have hvalue :
    (n / 10 * 9 + (n % 10 - 1)) / 9 * 10 + ((n / 10 * 9 + (n % 10 - 1)) % 9 + 1) = n := by omega
  rw [decompressAmount, if_neg (by omega)]
  simp only [hexp, hrest, if_pos he, hvalue]

theorem decompressAmount_of_nine {x n : Nat} (hn : 0 < n) (hx : x = 1 + (n - 1) * 10 + 9) :
    decompressAmount x = n * 10 ^ 9 % 2 ^ 64 := by
  have hexp : (x - 1) % 10 = 9 := by omega
  have hrest : (x - 1) / 10 + 1 = n := by omega
  rw [decompressAmount, if_neg (by omega)]
  simp [hexp, hrest]

end CompressorLemmas

open CompressorLemmas

/-- Amounts with room for a digit are read back. -/
theorem decompressAmount_compressAmount {n : Nat} (h : n < 2 ^ 60) :
    decompressAmount (compressAmount n) = n ∧ compressAmount n < 2 ^ 64 := by
  by_cases hzero : n = 0
  · subst hzero
    exact ⟨rfl, by decide⟩
  obtain ⟨hvalue, hle, hdigit⟩ := stripZeros_spec 9 n
  rw [compressAmount, if_neg hzero]
  rcases hstrip : stripZeros 9 n with ⟨m, e⟩
  rw [hstrip] at hvalue hle hdigit
  dsimp only at hvalue hle hdigit ⊢
  have hmle : m ≤ n := by
    rw [hvalue]
    exact Nat.le_mul_of_pos_right m (Nat.pow_pos (by decide))
  have hmpos : 0 < m := by
    rcases Nat.eq_zero_or_pos m with rfl | hpos
    · rw [zero_mul] at hvalue
      exact absurd hvalue hzero
    · exact hpos
  split
  next he =>
    have hsmall : 1 + (m / 10 * 9 + m % 10 - 1) * 10 + e < 2 ^ 64 := by omega
    rw [mod_eq_of_lt hsmall]
    refine ⟨?_, hsmall⟩
    rw [decompressAmount_of_digits he (hdigit he) rfl, ← hvalue, mod_eq_of_lt (by omega)]
  next he =>
    obtain rfl : e = 9 := by omega
    have hsmall : 1 + (m - 1) * 10 + 9 < 2 ^ 64 := by omega
    rw [mod_eq_of_lt hsmall]
    refine ⟨?_, hsmall⟩
    rw [decompressAmount_of_nine hmpos rfl, ← hvalue, mod_eq_of_lt (by omega)]

theorem unserializeAmount_serialize {nValue : CAmount} (h : moneyRange nValue = true) (s : Bytes) :
    unserializeAmount (serializeAmount nValue ++ s) = some (nValue, s) := by
  obtain ⟨hnonneg, hmax⟩ : 0 ≤ nValue ∧ nValue ≤ maxMoney := of_decide_eq_true h
  obtain ⟨n, rfl⟩ := Int.eq_ofNat_of_zero_le hnonneg
  have hsmall : n ≤ 2100000000000000 := Int.ofNat_le.mp hmax
  have hbits : (BitVec.ofInt 64 (n : Int)).toNat = n := by
    rw [BitVec.toNat_ofInt]
    omega
  obtain ⟨hread, hlt⟩ := decompressAmount_compressAmount (show n < 2 ^ 60 by omega)
  have hint : (BitVec.ofNat 64 n).toInt = n := by
    rw [BitVec.toInt_eq_toNat_bmod, BitVec.toNat_ofNat, mod_eq_of_lt (by omega),
      Int.bmod_eq_of_le (by omega) (by omega)]
  rw [unserializeAmount, serializeAmount, hbits, readVarInt_write (by decide) hlt]
  simp [hread, hint]

namespace CompressorLemmas

/-! ## Reading scripts back -/

def Compressed (compr : Bytes) : Prop :=
  ∃ tag vch, compr = tag :: vch ∧ tag.toNat < nSpecialScripts ∧
    vch.length = getSpecialScriptSize tag.toNat ∧ decompressScript tag.toNat vch = script

theorem take_drop_parts (l : Bytes) (m n : Nat) :
    l.take m ++ (l.drop m).take n ++ l.drop (m + n) = l := by
  rw [← drop_drop, append_assoc, take_append_drop, take_append_drop]

variable {script : CScript} {tag : UInt8}

theorem compressed_keyID {keyID : Bytes} (h : isToKeyID script = some keyID) :
    Compressed script (0x00 :: keyID) := by
  rw [isToKeyID] at h
  split at h
  next hscript =>
    cases h
    obtain ⟨hlen, hstart, hend⟩ := hscript
    have hsize : ((script.drop 3).take 20).length = 20 := by simp [hlen]
    refine ⟨0x00, _, rfl, by decide, hsize, ?_⟩
    have hparts := take_drop_parts script 3 20
    rw [hstart, hend] at hparts
    change [opDup.toByte, opHash160.toByte, 20] ++ ((script.drop 3).take 20).take 20 ++ _ = script
    rw [take_take, min_self, hparts]
  next => cases h

theorem compressed_scriptID {scriptID : Bytes} (h : isToScriptID script = some scriptID) :
    Compressed script (0x01 :: scriptID) := by
  rw [isToScriptID] at h
  split at h
  next hscript =>
    cases h
    obtain ⟨hlen, hstart, hend⟩ := hscript
    have hsize : ((script.drop 2).take 20).length = 20 := by simp [hlen]
    refine ⟨0x01, _, rfl, by decide, hsize, ?_⟩
    have hparts := take_drop_parts script 2 20
    rw [hstart, hend] at hparts
    change [opHash160.toByte, 20] ++ ((script.drop 2).take 20).take 20 ++ _ = script
    rw [take_take, min_self, hparts]
  next => cases h

/-- A script that starts with two given bytes. -/
theorem exists_rest {a b : UInt8} (h : script.take 2 = [a, b]) :
    ∃ rest, script = a :: b :: rest := by
  refine ⟨script.drop 2, ?_⟩
  conv_lhs => rw [← take_append_drop 2 script, h]
  rfl

/-- A key that is compressed already. -/
theorem compressed_short {rest : Bytes} (htag : tag = 0x02 ∨ tag = 0x03) (hlen : rest.length = 33)
    (hend : rest.drop 32 = [OpcodeType.opChecksig.toByte]) :
    Compressed (33 :: tag :: rest) (tag :: rest.take 32) := by
  have hsize : (rest.take 32).length = 32 := by simp [hlen]
  have hparts : rest.take 32 ++ [opChecksig.toByte] = rest := by rw [← hend, take_append_drop]
  rcases htag with rfl | rfl
  · refine ⟨0x02, _, rfl, by decide, hsize, ?_⟩
    change 33 :: 0x02 :: ((rest.take 32).take 32 ++ [opChecksig.toByte]) = _
    rw [take_take, min_self, hparts]
  · refine ⟨0x03, _, rfl, by decide, hsize, ?_⟩
    change 33 :: 0x03 :: ((rest.take 32).take 32 ++ [opChecksig.toByte]) = _
    rw [take_take, min_self, hparts]

theorem parityTag (c : UInt8) :
    (0x04 ||| (c &&& 0x01) : UInt8) = if c &&& 1 = 1 then 0x05 else 0x04 := by
  refine forall_uint8 (p := fun c => (0x04 ||| (c &&& 0x01) : UInt8) = if c &&& 1 = 1 then 0x05
    else 0x04) ?_ c
  decide +kernel

/-- A key with both coordinates: only its first one is kept, and the parity of the other. -/
theorem compressed_long {x y : Bytes} {c : UInt8} (hx : x.length = 32) (hy : y.length = 31)
    (hvalid : isFullyValid (0x04 :: (x ++ (y ++ [c]))) = true) :
    Compressed (65 :: 0x04 :: (x ++ (y ++ [c]) ++ [OpcodeType.opChecksig.toByte]))
    ((0x04 ||| (c &&& 0x01)) :: x) := by
  obtain ⟨elem, helem⟩ := Option.isSome_iff_exists.mp hvalid
  obtain ⟨hparse, hserialize⟩ := Secp256k1.pubkeyParse_compressed hx hy helem
  have htake : x.take 32 = x := by rw [← hx, take_length]
  rw [parityTag]
  by_cases hodd : c &&& 1 = 1
  · rw [if_pos hodd] at hparse ⊢
    refine ⟨0x05, x, rfl, by decide, hx, ?_⟩
    change (decompress (0x03 :: x.take 32)).elim [] _ = _
    rw [htake, decompress, hparse, Option.map_some, hserialize]
    rfl
  · rw [if_neg hodd] at hparse ⊢
    refine ⟨0x04, x, rfl, by decide, hx, ?_⟩
    change (decompress (0x02 :: x.take 32)).elim [] _ = _
    rw [htake, decompress, hparse, Option.map_some, hserialize]
    rfl

theorem exists_coordinates {body : Bytes} (hlen : body.length = 64) :
    ∃ x y c, body = x ++ (y ++ [c]) ∧ x.length = 32 ∧ y.length = 31 := by
  have htail : (body.drop 32).length = 31 + 1 := by simp [hlen]
  have hne : body.drop 32 ≠ [] := ne_nil_of_length_eq_add_one htail
  refine ⟨body.take 32, (body.drop 32).dropLast, (body.drop 32).getLast hne, ?_, by simp [hlen],
    by simp [hlen]⟩
  rw [dropLast_concat_getLast, take_append_drop]

theorem compressed_pubKey {pubkey compr : Bytes} (h : isToPubKey script = some pubkey)
    (hcompr : compressPubKey pubkey = some compr) : Compressed script compr := by
  rw [isToPubKey] at h
  split at h
  next hscript =>
    cases h
    obtain ⟨hlen, hstart, hend⟩ := hscript
    obtain ⟨tag, htag, rest, rfl⟩ :
        ∃ tag, (tag = 0x02 ∨ tag = 0x03) ∧ ∃ rest, script = 33 :: tag :: rest := by
      rcases hstart with hstart | hstart
      · exact ⟨0x02, .inl rfl, exists_rest hstart⟩
      · exact ⟨0x03, .inr rfl, exists_rest hstart⟩
    have hkey : compressPubKey (tag :: rest.take 32) = some compr := hcompr
    rw [compressPubKey, if_pos htag, take_take, min_self] at hkey
    cases hkey
    exact compressed_short htag (by simpa using hlen) hend
  next =>
    split at h
    next hscript =>
      dsimp only at h
      split at h
      next hvalid =>
        cases h
        obtain ⟨hlen, hstart, hend⟩ := hscript
        obtain ⟨rest, rfl⟩ := exists_rest hstart
        have hlen : rest.length = 65 := by simpa using hlen
        have hbodyLen : (rest.take 64).length = 64 := by simp [hlen]
        obtain ⟨x, y, c, hbody, hx, hy⟩ := exists_coordinates hbodyLen
        have hparts : rest = x ++ (y ++ [c]) ++ [opChecksig.toByte] := by
          rw [← hbody, ← hend]
          exact (take_append_drop 64 rest).symm
        have hvalid :
          isFullyValid (0x04 :: (x ++ (y ++ [c]))) = true := by rw [← hbody]; exact hvalid
        have hkey :
          compressPubKey (0x04 :: (x ++ (y ++ [c]))) = some compr := by rw [← hbody]; exact hcompr
        have hlast : (x ++ (y ++ [c])).getD 63 0 = c := by simp [hx, hy]
        rw [compressPubKey, if_neg (by decide), if_pos rfl, hlast, take_left' hx] at hkey
        cases hkey
        rw [hparts]
        exact compressed_long hx hy hvalid
      next => cases h
    next => cases h

theorem compressScript_compressed {compr : Bytes} (h : compressScript script = some compr) :
    Compressed script compr := by
  rw [compressScript] at h
  split at h
  next keyID hkeyID =>
    cases h
    exact compressed_keyID hkeyID
  next =>
    split at h
    next scriptID hscriptID =>
      cases h
      exact compressed_scriptID hscriptID
    next =>
      obtain ⟨pubkey, hpubkey, hcompr⟩ := Option.bind_eq_some_iff.mp h
      exact compressed_pubKey hpubkey hcompr

/-- A byte without the high bit is a number of its own. -/
theorem readVarInt_tag (h : tag.toNat < 128) (s : Bytes) :
    readVarInt 32 (tag :: s) = some (tag.toNat, s) := by
  rw [readVarInt, readVarIntLoop, if_neg (not_lt_zero _), if_neg (Nat.not_le.mpr h),
    zero_mul, zero_add, mod_eq_of_lt h]

end CompressorLemmas

theorem unserializeScript_serialize {script : CScript} (h : script.length ≤ maxScriptSize)
    (s : Bytes) : unserializeScript (serializeScript script ++ s) = some (script, s) := by
  rw [serializeScript]
  split
  next compr hcompr =>
    obtain ⟨tag, vch, rfl, htag, hlen, hscript⟩ := compressScript_compressed hcompr
    rw [unserializeScript, cons_append, readVarInt_tag (lt_trans htag (by decide))]
    simp [htag, readBytes_append hlen, hscript]
  next =>
    have hsmall : script.length + nSpecialScripts < 2 ^ 32 :=
      Nat.lt_of_le_of_lt (Nat.add_le_add_right h nSpecialScripts) (by decide)
    rw [mod_eq_of_lt hsmall, append_assoc, unserializeScript, readVarInt_write (by decide) hsmall]
    simp [readBytes_append, Nat.not_lt.mpr h]

theorem unserializeTxOut_serialize {out : CTxOut} (hvalue : moneyRange out.nValue = true)
    (hscript : out.scriptPubKey.length ≤ maxScriptSize) (s : Bytes) :
    unserializeTxOut (serializeTxOut out ++ s) = some (out, s) := by
  rw [unserializeTxOut, serializeTxOut, append_assoc, unserializeAmount_serialize hvalue]
  simp [unserializeScript_serialize hscript]

end Bitcoboost
