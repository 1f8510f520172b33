import Bitcoboost.Util.Bytes
import Mathlib.Data.List.GetD
import Mathlib.Logic.Equiv.Defs

/-!
# Cipher block chaining

`CBCEncrypt` and `CBCDecrypt` of `crypto/aes.cpp` over any block cipher, with buffers that do not
overlap. An `int` that overflows and a read before the output buffer are `none`. What is written
so far decrypts to what was read, whatever follows it (`encryptLoop_spec`).
-/

namespace Bitcoboost.Aes

open List

/-! ## The code -/

/-- `unsigned char[AES_BLOCKSIZE]`. -/
abbrev Block := Fin 16 → UInt8

/-- The block that starts here. -/
def blockAt (data : Bytes) : Block := fun i => data.getD i 0

/-- `^=`, byte by byte. -/
def xor (a b : Block) : Block := fun i => a i ^^^ b i

/-- The loop over the whole blocks: `written`, `mixed`, the rest of the data and the output. -/
def encryptLoop (enc : Block → Block) (size written : Nat) (mixed : Block) (data out : Bytes) :
    Option (Nat × Block × Bytes × Bytes) :=
  if written + 16 > 0x7fffffff then none
  else if written + 16 ≤ size then
    let mixed := enc (xor mixed (blockAt data))
    encryptLoop enc size (written + 16) mixed (data.drop 16) (out ++ List.ofFn mixed)
  else some (written, mixed, data, out)
termination_by size - written

/-- What is xored to `mixed` in the end: the rest of the data, and each byte after it is the size of
the remaining space. -/
def padBlock (data : Bytes) (padsize : Nat) : Block := fun i =>
  if i < padsize then data.getD i 0 else UInt8.ofNat (16 - padsize)

/-- What is returned, and the output. -/
def cbcEncrypt (enc : Block → Block) (iv : Block) (data : Bytes) (pad : Bool) :
    Option (Nat × Bytes) :=
  let padsize := data.length % 16
  if data.length = 0 then some (0, [])
  else if !pad ∧ padsize ≠ 0 then some (0, [])
  else
    (encryptLoop enc data.length 0 iv data []).map fun (written, mixed, data, out) =>
      -- the test that ended the loop has computed the same sum
      if pad then (written + 16, out ++ List.ofFn (enc (xor mixed (padBlock data padsize))))
      else (written, out)

def decryptLoop (dec : Block → Block) (prev : Block) (data : Bytes) : Bytes :=
  if data = [] then []
  else List.ofFn (xor (dec (blockAt data)) prev) ++ decryptLoop dec (blockAt data) (data.drop 16)
termination_by data.length
decreasing_by
  next hdata =>
  have hpos := length_pos_of_ne_nil hdata
  simp only [length_drop]
  omega

/-- The loop over the padding. `back` are the bytes of the output from `out` on backwards. -/
def padLoop (padsize : UInt8) : (i : Nat) → (back : Bytes) → Bool → Option Bool
  | 0, _, fail => some fail
  | _ + 1, [], _ => none
  | i + 1, b :: back, fail => padLoop padsize i back
      (fail || (i + 1 > 16 - padsize.toNat && b != padsize))

/-- What is returned, and the output. -/
def cbcDecrypt (dec : Block → Block) (iv : Block) (data : Bytes) (pad : Bool) :
    Option (Nat × Bytes) :=
  if data.length = 0 then some (0, [])
  else if data.length % 16 ≠ 0 then some (0, [])
  else
    let out := decryptLoop dec iv data
    if pad then
      match out.reverse with
      | [] => none
      | last :: _ =>
        let fail := last == 0 || last > 16
        let padsize := if fail then 0 else last
        (padLoop padsize 16 out.reverse fail).map fun fail =>
          (if fail then 0 else data.length - padsize.toNat, out)
    else some (data.length, out)

/-! ## Blocks -/

variable {data out : Bytes}

theorem blockAt_ofFn_append (b : Block) (rest : Bytes) : blockAt (List.ofFn b ++ rest) = b := by
  funext i
  have hi : i < (List.ofFn b).length := by rw [length_ofFn]; exact i.isLt
  rw [blockAt, getD_append _ _ _ _ hi, getD_eq_getElem _ _ hi, List.getElem_ofFn]

theorem ofFn_blockAt (h : 16 ≤ data.length) : List.ofFn (blockAt data) = data.take 16 := by
  refine ext_getElem (by rw [length_ofFn, length_take_of_le h]) fun i _ hi => ?_
  rw [List.getElem_ofFn, blockAt, getElem_take]
  exact getD_eq_getElem _ _ (Nat.lt_of_lt_of_le hi (length_take_le' ..))

theorem xor_xor_self (a b : Block) : xor (xor a b) a = b := by
  funext i
  rw [xor, xor, UInt8.xor_comm, ← UInt8.xor_assoc, UInt8.xor_self, UInt8.zero_xor]

theorem ofFn_padBlock (h : data.length < 16) : List.ofFn (padBlock data data.length) =
    data ++ List.replicate (16 - data.length) (UInt8.ofNat (16 - data.length)) := by
  refine ext_getElem (by simp; omega) fun i hi _ => ?_
  rw [List.getElem_ofFn, padBlock]
  split
  · next hlt => simp [getElem_append_left hlt, hlt]
  · next hge => simp [getElem_append_right (Nat.not_lt.mp hge)]

theorem decryptLoop_append (dec : Block → Block) (prev b : Block) (rest : Bytes) :
    decryptLoop dec prev (List.ofFn b ++ rest) =
      List.ofFn (xor (dec b) prev) ++ decryptLoop dec b rest := by
  have hdrop : (List.ofFn b ++ rest).drop 16 = rest := drop_left' length_ofFn
  rw [decryptLoop, if_neg (by simp), blockAt_ofFn_append, hdrop]

/-! ## The padding -/

/-- The last `p` bytes are all `p`, and there are 1 to 16 of them. -/
def Padded (p : Nat) (out : Bytes) : Prop :=
  1 ≤ p ∧ p ≤ 16 ∧ List.replicate p (UInt8.ofNat p) <:+ out

section

variable {last padsize : UInt8} {back : Bytes} {p : Nat} {fail : Bool}

theorem padLoop_eq {i : Nat} (h : i ≤ back.length) (fail : Bool) : padLoop padsize i back fail =
    some (fail || (back.take (i - (16 - padsize.toNat))).any (· != padsize)) := by
  fun_induction padLoop padsize i back fail with
  | case1 => simp
  | case2 => simp at h
  | case3 i b back fail ih =>
    rw [ih (Nat.le_of_succ_le_succ h), Bool.or_assoc]
    by_cases hi : i + 1 > 16 - padsize.toNat
    · rw [Nat.succ_sub (Nat.le_of_lt_succ hi)]
      simp [hi]
    · rw [Nat.sub_eq_zero_of_le (by omega : i ≤ _), Nat.sub_eq_zero_of_le (by omega : i + 1 ≤ _)]
      simp [hi]

/-- The last byte says how much padding there is. -/
theorem padded_iff (hback : out.reverse = last :: back) : Padded p out ↔
    p = last.toNat ∧ 1 ≤ p ∧ p ≤ 16 ∧ (last :: back).take p = List.replicate p last := by
  have hsuffix (b : UInt8) :
      List.replicate p b <:+ out ↔ (last :: back).take p = List.replicate p b := by
    rw [← reverse_prefix, reverse_replicate, hback, prefix_iff_eq_take, length_replicate, eq_comm]
  rw [Padded, hsuffix]
  constructor
  · rintro ⟨hpos, hle, htake⟩
    obtain ⟨p, rfl⟩ := Nat.exists_eq_add_of_le' hpos
    have hlast : last = UInt8.ofNat (p + 1) := by
      rw [replicate_succ, take_succ_cons, List.cons.injEq] at htake
      exact htake.1
    refine ⟨?_, hpos, hle, htake.trans (by rw [hlast])⟩
    rw [hlast, UInt8.toNat_ofNat', Nat.mod_eq_of_lt (by omega)]
  · rintro ⟨rfl, hpos, hle, htake⟩
    exact ⟨hpos, hle, by rwa [UInt8.ofNat_toNat]⟩

theorem padLoop_spec (hback : out.reverse = last :: back) (h16 : 16 ≤ (last :: back).length)
    (hfail : fail = (last == 0 || decide (last > 16)))
    (hpadsize : padsize = if fail then 0 else last) :
    ∃ failed, padLoop padsize 16 (last :: back) fail = some failed ∧
      (failed = false ↔ Padded padsize.toNat out) ∧ ∀ p, Padded p out → p = padsize.toNat := by
  refine ⟨_, padLoop_eq h16 fail, ?_⟩
  simp only [padded_iff hback]
  cases fail with
  | true =>
    have hlast : last.toNat = 0 ∨ 16 < last.toNat := by
      simpa [← UInt8.toNat_inj, UInt8.lt_iff_toNat_lt] using hfail.symm
    refine ⟨⟨by simp, fun ⟨hp, hpos, hle, _⟩ => ?_⟩, fun p ⟨hp, hpos, hle, _⟩ => ?_⟩ <;> omega
  | false =>
    have hlast : last.toNat ≠ 0 ∧ last.toNat ≤ 16 := by
      simpa [← UInt8.toNat_inj, UInt8.lt_iff_toNat_lt] using hfail.symm
    obtain rfl : padsize = last := hpadsize
    have hle : padsize.toNat ≤ (padsize :: back).length := Nat.le_trans hlast.2 h16
    refine ⟨?_, fun p hp => hp.1⟩
    rw [Nat.sub_sub_self hlast.2, Bool.false_or, any_eq_false, eq_replicate_iff,
      length_take_of_le hle]
    simp only [bne_iff_ne, ne_eq, not_not, true_and, hlast.2, Nat.one_le_iff_ne_zero, hlast.1,
      not_false_eq_true]

end

theorem cbcDecrypt_spec (dec : Block → Block) (iv : Block) (hdata : data ≠ [])
    (hmod : data.length % 16 = 0) :
    ∃ n, cbcDecrypt dec iv data true = some (n, decryptLoop dec iv data) ∧
      (n ≠ 0 → ∃ p, Padded p (decryptLoop dec iv data)) ∧
      ∀ p, Padded p (decryptLoop dec iv data) → n = data.length - p := by
  have h16 : 16 ≤ (decryptLoop dec iv data).reverse.length := by
    rw [length_reverse, decryptLoop, if_neg hdata, length_append, length_ofFn]
    exact Nat.le_add_right ..
  rw [cbcDecrypt, if_neg (mt List.length_eq_zero_iff.mp hdata), if_neg (not_not.mpr hmod)]
  generalize decryptLoop dec iv data = out at *
  cases hback : out.reverse with
  | nil => simp [hback] at h16
  | cons last back =>
    rw [hback] at h16
    obtain ⟨failed, hloop, hfailed, hunique⟩ := padLoop_spec hback h16 rfl rfl
    simp only [hback, if_true, hloop, Option.map_some]
    refine ⟨_, rfl, fun hn => ⟨_, hfailed.mp ?_⟩, fun p hp => ?_⟩
    · exact Bool.eq_false_iff.mpr fun htrue => hn (if_pos htrue)
    · obtain rfl := hunique p hp
      rw [hfailed.mpr hp]
      rfl

/-! ## What was written decrypts to what was read -/

section

variable {size written : Nat}

theorem encryptLoop_spec (enc : Equiv.Perm Block) (mixed : Block) (out : Bytes)
    (hsize : size = written + data.length) (hint : size < 0x7ffffff0) :
    ∃ mixed' full rest cipher, data = full ++ rest ∧ rest.length = data.length % 16 ∧
    cipher.length = full.length ∧
      encryptLoop enc size written mixed data out =
        some (written + cipher.length, mixed', rest, out ++ cipher) ∧
      ∀ tail, decryptLoop enc.symm mixed (cipher ++ tail) =
        full ++ decryptLoop enc.symm mixed' tail := by
  fun_induction encryptLoop enc size written mixed data out with
  | case1 => omega
  | case2 written mixed data out _ hle mixed₁ ih =>
    have hdata : 16 ≤ data.length := by omega
    obtain ⟨mixed', full, rest, cipher, hdrop, hrest, hlength, hloop, hdec⟩ :=
      ih (by rw [length_drop]; omega)
    refine ⟨mixed', data.take 16 ++ full, rest, List.ofFn mixed₁ ++ cipher, ?_, ?_, ?_, ?_,
      fun tail => ?_⟩
    · rw [append_assoc, ← hdrop, take_append_drop]
    · rw [hrest, length_drop]
      omega
    · rw [length_append, length_append, length_ofFn, length_take_of_le hdata, hlength]
    · rw [hloop, length_append, length_ofFn, append_assoc, Nat.add_assoc]
    · rw [append_assoc, decryptLoop_append, hdec, append_assoc, ← ofFn_blockAt hdata,
        enc.symm_apply_apply, xor_xor_self]
  | case3 written mixed data out =>
    refine ⟨mixed, [], data, [], rfl, (Nat.mod_eq_of_lt (by omega)).symm, rfl, ?_, fun _ => rfl⟩
    rw [append_nil, length_nil, Nat.add_zero]

/-- The last whole block of a text this long leaves no room for the next test. -/
theorem encryptLoop_eq_none {enc : Block → Block} {mixed : Block} (hint : 0x7ffffff0 ≤ size)
    (hmod : written % 16 = 0) : encryptLoop enc size written mixed data out = none := by
  fun_induction encryptLoop enc size written mixed data out with
  | case1 => rfl
  | case2 written mixed data out _ _ _ ih => exact ih (by omega)
  | case3 => omega

theorem cbcEncrypt_spec (enc : Equiv.Perm Block) (iv : Block) (hdata : data ≠ [])
    (hint : data.length < 0x7ffffff0) :
    ∃ ciphertext, cbcEncrypt enc iv data true = some (ciphertext.length, ciphertext) ∧
      ciphertext.length = data.length + (16 - data.length % 16) ∧
        decryptLoop enc.symm iv ciphertext =
        data ++ List.replicate (16 - data.length % 16) (UInt8.ofNat (16 - data.length % 16)) := by
  obtain ⟨mixed, full, rest, cipher, hfull, hrest, hlength, hloop, hdec⟩ :=
    encryptLoop_spec enc iv [] (Nat.zero_add data.length).symm hint
  have hdatalength : data.length = full.length + rest.length := by rw [hfull, length_append]
  have hmod := Nat.mod_lt data.length (by decide : 16 > 0)
  refine ⟨cipher ++ List.ofFn (enc (xor mixed (padBlock rest rest.length))), ?_, ?_, ?_⟩
  · rw [cbcEncrypt, if_neg (by simpa using hdata), if_neg (by simp), hloop, ← hrest]
    simp
  · rw [length_append, length_ofFn]
    omega
  · have hpad := decryptLoop_append enc.symm mixed (enc (xor mixed (padBlock rest rest.length))) []
    rw [append_nil] at hpad
    rw [hdec, hpad, enc.symm_apply_apply, xor_xor_self, ofFn_padBlock (hrest ▸ hmod),
      decryptLoop, if_pos rfl, append_nil, ← append_assoc, ← hfull, hrest]

/-- Without padding, whole blocks decrypt to themselves. -/
theorem cbc_unpadded (enc : Equiv.Perm Block) (iv : Block) (hdata : data ≠ [])
    (hmod : data.length % 16 = 0) (hint : data.length < 0x7ffffff0) :
    ∃ ciphertext, cbcEncrypt enc iv data false = some (data.length, ciphertext) ∧
      cbcDecrypt enc.symm iv ciphertext false = some (data.length, data) := by
  obtain ⟨mixed, full, rest, cipher, hfull, hrest, hlength, hloop, hdec⟩ :=
    encryptLoop_spec enc iv [] (Nat.zero_add data.length).symm hint
  obtain rfl := eq_nil_of_length_eq_zero (hrest.trans hmod)
  obtain rfl : data = full := by rw [hfull, append_nil]
  have hdec := hdec []
  rw [append_nil, decryptLoop.eq_def _ mixed, if_pos rfl, append_nil] at hdec
  refine ⟨cipher, ?_, ?_⟩
  · simp [cbcEncrypt, hmod, hdata, hloop, hlength]
  · simp [cbcDecrypt, hlength, hmod, hdata, hdec]

/-- The bytes of a block in reverse, as a cipher. -/
def reverseCipher : Equiv.Perm Block where
  toFun block i := block i.rev
  invFun block i := block i.rev
  left_inv block := by simp
  right_inv block := by simp

theorem cbc_unpadded_twoBlocks : ∃ ciphertext,
    cbcEncrypt reverseCipher (blockAt [1, 2]) ((List.range 32).map UInt8.ofNat) false
      = some (32, ciphertext) ∧
    cbcDecrypt reverseCipher.symm (blockAt [1, 2]) ciphertext false
      = some (32, (List.range 32).map UInt8.ofNat) :=
  cbc_unpadded reverseCipher (blockAt [1, 2]) (by decide) rfl (by decide)

end

/-- With padding, what was encrypted decrypts to the text and its length. For whole blocks of any
data the padding is read within the output, and what is returned is the length without it, or 0. -/
theorem cbc_padding {κ : Type} (cipher : κ → Equiv.Perm Block) (key : κ) (iv : Block) :
    (∀ data : Bytes, data ≠ [] → data.length < 0x7ffffff0 → ∃ ciphertext out,
      cbcEncrypt (cipher key) iv data true = some (ciphertext.length, ciphertext) ∧
      cbcDecrypt (cipher key).symm iv ciphertext true = some (data.length, out) ∧
        out.take data.length = data) ∧
    ∀ data : Bytes, data ≠ [] → data.length % 16 = 0 → ∃ n,
      cbcDecrypt (cipher key).symm iv data true = some (n, decryptLoop (cipher key).symm iv data) ∧
      (n ≠ 0 → ∃ p, Padded p (decryptLoop (cipher key).symm iv data)) ∧
      ∀ p, Padded p (decryptLoop (cipher key).symm iv data) → n = data.length - p := by
  refine ⟨fun data hdata hint => ?_, fun data hdata hmod => cbcDecrypt_spec _ iv hdata hmod⟩
  obtain ⟨ciphertext, henc, hlength, hdec⟩ := cbcEncrypt_spec (cipher key) iv hdata hint
  have hne : ciphertext ≠ [] := ne_nil_of_length_pos (by omega)
  obtain ⟨n, hn, -, hpad⟩ := cbcDecrypt_spec (cipher key).symm iv hne (by omega)
  rw [hdec] at hn hpad
  have hpadded := hpad (16 - data.length % 16) ⟨by omega, by omega, suffix_append ..⟩
  obtain rfl : n = data.length := by omega
  exact ⟨ciphertext, _, henc, hn, take_left⟩

/-- A text of two bytes, and a block of zeroes. -/
theorem cbc_padding_identity : (∃ ciphertext out,
      cbcEncrypt (Equiv.refl Block) (fun _ => 0) [97, 98] true =
        some (ciphertext.length, ciphertext) ∧
      cbcDecrypt (Equiv.refl Block).symm (fun _ => 0) ciphertext true = some (2, out) ∧
        out.take 2 = [97, 98]) ∧
    ∃ r, cbcDecrypt (Equiv.refl Block).symm (fun _ => 0) (List.replicate 16 0) true = some r := by
  obtain ⟨htext, hblocks⟩ := cbc_padding (fun _ : Unit => Equiv.refl Block) () (fun _ => 0)
  obtain ⟨n, hn, -⟩ := hblocks (List.replicate 16 0) (by decide) (by decide)
  exact ⟨htext [97, 98] (by decide) (by decide), _, hn⟩

/-- A text of `2^31 - 16` bytes: the test after its last block overflows. -/
theorem cbcEncrypt_overflow : (List.replicate 0x7ffffff0 (0 : UInt8)).length < 0x80000000 ∧
    cbcEncrypt (Equiv.refl Block) (fun _ => 0) (List.replicate 0x7ffffff0 0) true = none := by
  have hlength := length_replicate (n := 0x7ffffff0) (a := (0 : UInt8))
  generalize List.replicate 0x7ffffff0 (0 : UInt8) = data at *
  refine ⟨by omega, ?_⟩
  rw [cbcEncrypt, if_neg (by omega), if_neg (by simp), encryptLoop_eq_none (by omega) rfl]
  rfl

end Bitcoboost.Aes
