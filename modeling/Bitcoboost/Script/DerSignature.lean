import Bitcoboost.Script.Interpreter
import Mathlib.Data.Nat.Bitwise

/-!
# Encodings of ECDSA signatures

A grammar for the bytes of an ECDSA signature: `LaxDer` is what `ecdsa_signature_parse_der_lax`
reads. Lengths may be long or padded, integers may have leading zeros, and anything may follow.
-/

namespace Bitcoboost

open EcdsaSignature Option

/-! ## The lax grammar -/

inductive LaxSequenceLength : Bytes → Prop
  | short {lenbyte : UInt8} (h : lenbyte.toNat < 0x80) : LaxSequenceLength [lenbyte]
  | long {lenbyte : UInt8} {skipped : Bytes} (h : lenbyte.toNat = 0x80 + skipped.length) :
    LaxSequenceLength (lenbyte :: skipped)

/-- The length bytes of an integer of `n` bytes. A long length may have leading zeros. -/
inductive LaxIntegerLength : Bytes → Nat → Prop
  | short {lenbyte : UInt8} (h : lenbyte.toNat < 0x80) : LaxIntegerLength [lenbyte] lenbyte.toNat
  | long {lenbyte : UInt8} {digits : Bytes} (h : lenbyte.toNat = 0x80 + digits.length)
    (hsmall : Bytes.beValue digits < 256 ^ 3) :
      LaxIntegerLength (lenbyte :: digits) (Bytes.beValue digits)

/-- An integer with its tag and length. Its bytes are an unsigned number. -/
inductive LaxInteger : Bytes → Nat → Prop
  | mk {len body : Bytes} (hlen : LaxIntegerLength len body.length) :
    LaxInteger (0x02 :: (len ++ body)) (Bytes.beValue body)

/-- An encoding of the integers `r` and `s`. What follows them is `garbage`. -/
inductive LaxDer : Bytes → Nat → Nat → Prop
  | mk {len rbytes sbytes : Bytes} {r s : Nat} (hlen : LaxSequenceLength len)
      (hr : LaxInteger rbytes r) (hs : LaxInteger sbytes s) (garbage : Bytes) :
      LaxDer (0x30 :: (len ++ (rbytes ++ (sbytes ++ garbage)))) r s

namespace DerSignatureLemmas

theorem highBit_iff {byte : UInt8} : byte &&& 0x80 ≠ 0 ↔ 0x80 ≤ byte.toNat := by
  have hbyte := byte.toNat_lt
  have hbit : byte.toNat.testBit 7 = true ↔ 0x80 ≤ byte.toNat := by
    rw [Nat.testBit_eq_decide_div_mod_eq, decide_eq_true_iff]
    omega
  have hand : (byte &&& 0x80).toNat = (byte.toNat.testBit 7).toNat * 2 ^ 7 := by
    exact Nat.and_two_pow _ 7
  rw [ne_eq, ← UInt8.toNat_inj, hand, ← hbit]
  cases byte.toNat.testBit 7 with
  | false => simp
  | true => simp

variable {input pos : Bytes} {lenbyte : UInt8} {n : Nat}

theorem readTag_iff {tag : UInt8} : readTag tag input = some pos ↔ input = tag :: pos := by
  cases input with
  | nil => simp [readTag]
  | cons byte input =>
    by_cases h : byte = tag
    · simp [readTag, h]
    · simp [readTag, h]

theorem length_take_long (hhigh : lenbyte &&& 0x80 ≠ 0)
    (hfits : ¬ lenbyte.toNat - 0x80 > pos.length) :
    lenbyte.toNat = 0x80 + (pos.take (lenbyte.toNat - 0x80)).length := by
  rw [List.length_take_of_le (Nat.not_lt.mp hfits)]
  exact (Nat.add_sub_of_le (highBit_iff.mp hhigh)).symm

theorem highBit_long (h : lenbyte.toNat = 0x80 + n) : lenbyte &&& 0x80 ≠ 0 :=
  highBit_iff.mpr (h ▸ Nat.le_add_right _ _)

theorem skipSequenceLength_iff :
    skipSequenceLength input = some pos ↔ ∃ len, LaxSequenceLength len ∧ input = len ++ pos := by
  constructor
  · intro h
    cases input with
    | nil => cases h
    | cons lenbyte input =>
      dsimp only [skipSequenceLength] at h
      split at h
      · next hhigh =>
        split at h
        · cases h
        · next hfits =>
          obtain rfl := Option.some.inj h
          exact ⟨_, .long (length_take_long hhigh hfits), by simp⟩
      · next hlow =>
        obtain rfl := Option.some.inj h
        exact ⟨_, .short (Nat.not_le.mp (mt highBit_iff.mpr hlow)), rfl⟩
  · rintro ⟨len, hlen, rfl⟩
    cases hlen with
    | short hlow => exact if_neg (mt highBit_iff.mp (Nat.not_le.mpr hlow))
    | long hlong =>
      rw [List.cons_append, skipSequenceLength, if_pos (highBit_long hlong), hlong,
        Nat.add_sub_cancel_left]
      simp

theorem beValue_dropWhile (digits : Bytes) :
    Bytes.beValue (digits.dropWhile (· = 0)) = Bytes.beValue digits := by
  rw [Bytes.beValue, map_toNat_dropWhile, Positional.horner_dropWhile, Bytes.beValue]

theorem length_dropWhile_le {digits : Bytes} {k : Nat} :
    (digits.dropWhile (· = 0)).length ≤ k ↔ Bytes.beValue digits < 256 ^ k := by
  rw [← List.length_map UInt8.toNat, map_toNat_dropWhile]
  exact Positional.length_dropWhile_le_iff (by decide) (toNat_lt_256 digits)

theorem readIntegerLength_iff :
    readIntegerLength input = some (n, pos) ↔ ∃ len, LaxIntegerLength len n ∧
    input = len ++ pos := by
  constructor
  · intro h
    cases input with
    | nil => cases h
    | cons lenbyte input =>
      dsimp only [readIntegerLength] at h
      split at h
      · next hhigh =>
        split at h
        · cases h
        · next hfits =>
          split at h
          · cases h
          · next hsmall =>
            rw [beValue_dropWhile] at h
            obtain ⟨rfl, rfl⟩ := Prod.mk.inj (Option.some.inj h)
            have hsmall := length_dropWhile_le.mp (Nat.lt_succ_iff.mp (Nat.not_le.mp hsmall))
            exact ⟨_, .long (length_take_long hhigh hfits) hsmall, by simp⟩
      · next hlow =>
        obtain ⟨rfl, rfl⟩ := Prod.mk.inj (Option.some.inj h)
        exact ⟨_, .short (Nat.not_le.mp (mt highBit_iff.mpr hlow)), rfl⟩
  · rintro ⟨len, hlen, rfl⟩
    cases hlen with
    | short hlow => exact if_neg (mt highBit_iff.mp (Nat.not_le.mpr hlow))
    | long hlong hsmall =>
      have hdigits := length_dropWhile_le.mpr hsmall
      rw [List.cons_append, readIntegerLength, if_pos (highBit_long hlong), hlong,
        Nat.add_sub_cancel_left]
      simp [beValue_dropWhile, Nat.lt_succ_iff.mpr hdigits]

theorem readInteger_iff {body : Bytes} : readInteger input = some (body, pos) ↔
      ∃ len, LaxIntegerLength len body.length ∧ input = 0x02 :: (len ++ body) ++ pos := by
  simp only [readInteger, bind_eq_bind, bind_eq_some_iff, readTag_iff, Prod.exists,
    readIntegerLength_iff]
  constructor
  · rintro ⟨_, rfl, n, rest, ⟨len, hlen, rfl⟩, h⟩
    split at h
    · cases h
    · next hfits =>
      obtain ⟨rfl, rfl⟩ := Prod.mk.inj (Option.some.inj h)
      have hn := List.length_take_of_le (Nat.not_lt.mp hfits)
      exact ⟨len, hn.symm ▸ hlen, by simp⟩
  · rintro ⟨len, hlen, rfl⟩
    exact ⟨_, rfl, body.length, body ++ pos, ⟨len, hlen, by simp⟩, by simp⟩

theorem secp256k1Order_lt : secp256k1Order < 256 ^ 32 := by decide

/-- The scalars depend only on the two numbers: one of more than 32 bytes is not below
the order of the group. -/
theorem parseScalars_eq (r s : Bytes) :
    parseScalars r s = (EcdsaSignature.parseCompact (Bytes.beValue r)
      (Bytes.beValue s)).getD .zero := by
  simp only [parseScalars, beValue_dropWhile]
  split
  · next hlong =>
    have hlarge : ¬ (Bytes.beValue r < secp256k1Order ∧ Bytes.beValue s < secp256k1Order) := by
      rintro ⟨hr, hs⟩
      have hr := length_dropWhile_le.mpr (hr.trans secp256k1Order_lt)
      have hs := length_dropWhile_le.mpr (hs.trans secp256k1Order_lt)
      exact hlong.elim (Nat.not_lt.mpr hr) (Nat.not_lt.mpr hs)
    rw [parseCompact, dif_neg hlarge]
    rfl
  · rfl

end DerSignatureLemmas

open DerSignatureLemmas

variable {sig : EcdsaSignature}

/-- `ecdsa_signature_parse_der_lax` reads exactly the lax grammar. Numbers that are
not below the order of the group count as zero. -/
theorem ecdsaSignatureParseDerLax_iff {input : Bytes} : ecdsaSignatureParseDerLax input = some sig ↔
      ∃ r s, LaxDer input r s ∧ (EcdsaSignature.parseCompact r s).getD .zero = sig := by
  simp only [ecdsaSignatureParseDerLax, bind_eq_bind, bind_eq_some_iff, readTag_iff, Prod.exists,
    skipSequenceLength_iff, readInteger_iff, parseScalars_eq, Option.some.injEq]
  constructor
  · rintro ⟨_, rfl, _, ⟨len, hlen, rfl⟩, r, _, ⟨rlen, hr, rfl⟩, s, garbage, ⟨slen, hs, rfl⟩, hsig⟩
    exact ⟨_, _, .mk hlen (.mk hr) (.mk hs) garbage, hsig⟩
  · rintro ⟨_, _, ⟨hlen, ⟨hr⟩, ⟨hs⟩, garbage⟩, hsig⟩
    exact ⟨_, rfl, _, ⟨_, hlen, rfl⟩, _, _, ⟨_, hr, rfl⟩, _, garbage, ⟨_, hs, rfl⟩, hsig⟩

/-! ## What `CPubKey::Verify` accepts -/

def ValidScalars (r s : Nat) : Prop := (0 < r ∧ r < secp256k1Order) ∧ 0 < s ∧ s < secp256k1Order

/-- The low one of `s` and its negation. -/
def lowS (s : Nat) : Nat := if s > secp256k1Order / 2 then secp256k1Order - s else s

namespace DerSignatureLemmas

theorem parse_of_laxDer {e : Bytes} {r s : Nat} (hvalid : ValidScalars r s) (h : LaxDer e r s) :
    ecdsaSignatureParseDerLax e = some ⟨r, s, hvalid.1.2, hvalid.2.2⟩ := by
  refine ecdsaSignatureParseDerLax_iff.mpr ⟨r, s, h, ?_⟩
  rw [parseCompact, dif_pos ⟨hvalid.1.2, hvalid.2.2⟩]
  rfl

theorem laxDer_of_parse {e : Bytes} (hparse : ecdsaSignatureParseDerLax e = some sig)
    (hr : sig.r ≠ 0) : LaxDer e sig.r sig.s := by
  obtain ⟨r, s, hlax, hsig⟩ := ecdsaSignatureParseDerLax_iff.mp hparse
  unfold parseCompact at hsig
  split at hsig
  · subst hsig
    exact hlax
  · subst hsig
    exact absurd rfl hr

theorem lowS_le {s : Nat} (h : s < secp256k1Order) : lowS s ≤ secp256k1Order / 2 := by
  unfold lowS secp256k1Order at *
  split
  · omega
  · omega

theorem lowS_eq_zero {s : Nat} (h : s < secp256k1Order) : lowS s = 0 ↔ s = 0 := by
  unfold lowS
  split
  · omega
  · rfl

theorem normalize_r (sig : EcdsaSignature) : sig.normalize.r = sig.r := by
  unfold EcdsaSignature.normalize
  split
  · rfl
  · rfl

theorem normalize_s (sig : EcdsaSignature) : sig.normalize.s = lowS sig.s := by
  have hlt := sig.s_lt
  unfold EcdsaSignature.normalize lowS isHigh
  split
  · next hhigh =>
    have hhigh := of_decide_eq_true hhigh
    rw [if_pos hhigh]
    exact Nat.mod_eq_of_lt (by omega)
  · next hlow => rw [if_neg (mt decide_eq_true hlow)]

theorem normalize_verify {crypto : Crypto} {hash : Uint256} {pubkey : Bytes} :
    sig.normalize.verify crypto hash pubkey = true ↔
      ValidScalars sig.r sig.s ∧ crypto.ecdsaSigVerify sig.r (lowS sig.s) pubkey hash = true := by
  have hlow : sig.normalize.isHigh = false := by
    rw [isHigh, normalize_s]
    exact decide_eq_false (Nat.not_lt.mpr (lowS_le sig.s_lt))
  simp only [verify, hlow, normalize_r, normalize_s, lowS_eq_zero sig.s_lt, ValidScalars, sig.r_lt,
    sig.s_lt, Nat.pos_iff_ne_zero]
  simp

end DerSignatureLemmas

/-- `CPubKey::Verify` accepts every lax encoding of valid scalars whose low form is
right. -/
theorem CPubKey.verify_iff {crypto : Crypto} {pubkey : CPubKey} {hash : Uint256} {e : Bytes} :
    pubkey.verify crypto hash e = true ↔ pubkey.isValid = true ∧
    crypto.ecPubkeyParse pubkey.data = true ∧
      ∃ r s, LaxDer e r s ∧ ValidScalars r s ∧
        crypto.ecdsaSigVerify r (lowS s) pubkey.data hash = true := by
  rw [verify, Bool.and_eq_true, Bool.and_eq_true, and_assoc, any_eq_true]
  refine and_congr_right fun _ => and_congr_right fun _ => ?_
  constructor
  · rintro ⟨sig, hparse, hverify⟩
    obtain ⟨hvalid, hverify⟩ := normalize_verify.mp hverify
    exact ⟨sig.r, sig.s, laxDer_of_parse hparse hvalid.1.1.ne', hvalid, hverify⟩
  · rintro ⟨r, s, hlax, hvalid, hverify⟩
    exact ⟨_, parse_of_laxDer hvalid hlax, normalize_verify.mpr ⟨hvalid, hverify⟩⟩

end Bitcoboost
