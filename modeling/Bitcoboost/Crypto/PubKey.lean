import Bitcoboost.Lib.Positional
import Bitcoboost.Util.Serialize

/-!
# Public keys and signatures

`CPubKey` and `XOnlyPubKey` of `pubkey.cpp` with the lax parser of DER signatures.
The hash functions, the group operations of libsecp256k1 and ML-DSA are a structure
of parameters. What libsecp256k1 does on the two scalars of a signature, the range
checks and the normalization of `s`, is modelled.
-/

namespace Bitcoboost

/-- The number that bytes encode, the first byte highest. -/
def Bytes.beValue (b : Bytes) : Nat := Positional.horner 256 0 (b.map UInt8.toNat)

theorem Bytes.beValue_eq_leValue (b : Bytes) : b.beValue = Bytes.leValue b.reverse := by
  rw [beValue, Positional.horner, List.foldl_map, leValue, List.foldr_reverse]
  simp only [Nat.add_comm]

/-- The cryptographic functions that the node calls. -/
structure Crypto where
  sha256 : Bytes → Uint256
  sha1 : Bytes → Uint160
  ripemd160 : Bytes → Uint160
  /-- `shake256` with 32 bytes of output. -/
  shake256 : Bytes → Uint256
  /-- Whether `secp256k1_ec_pubkey_parse` takes the bytes for a point. -/
  ecPubkeyParse : Bytes → Bool
  /-- `secp256k1_ecdsa_sig_verify` for scalars that are not zero: `r`, `s`, the bytes
  of the key and the message hash. -/
  ecdsaSigVerify : Nat → Nat → Bytes → Uint256 → Bool
  /-- Whether `secp256k1_xonly_pubkey_parse` takes the bytes for a point. -/
  xonlyPubkeyParse : Bytes → Bool
  /-- `secp256k1_schnorrsig_verify`: the signature, the message hash and the key. -/
  schnorrsigVerify : Bytes → Uint256 → Bytes → Bool
  /-- `secp256k1_xonly_pubkey_tweak_add_check`: the tweaked key, its parity, the
  internal key and the tweak. -/
  xonlyPubkeyTweakAddCheck : Bytes → Bool → Bytes → Uint256 → Bool
  /-- `PQCLEAN_MLDSA44_CLEAN_crypto_sign_verify_ctx`: the signature, the message, the
  context and the key. -/
  mldsa44VerifyCtx : Bytes → Bytes → Bytes → Bytes → Bool

namespace Crypto

variable (crypto : Crypto)

def hash256 (b : Bytes) : Uint256 := crypto.sha256 (crypto.sha256 b).data

def hash160 (b : Bytes) : Uint160 := crypto.ripemd160 (crypto.sha256 b).data

/-- The hash of `TaggedHash(tag)` over what is written to it. -/
def taggedHash (tag : String) (b : Bytes) : Uint256 :=
  let taghash := crypto.sha256 (Bytes.ofString tag)
  crypto.sha256 (taghash.data ++ taghash.data ++ b)

end Crypto

/-- Functions that accept every signature. -/
def acceptingCrypto : Crypto where
  sha256 _ := nullUint256
  sha1 _ := ⟨List.replicate 20 0, by simp⟩
  ripemd160 _ := ⟨List.replicate 20 0, by simp⟩
  shake256 _ := uint256S 1
  ecPubkeyParse _ := true
  ecdsaSigVerify _ _ _ _ := true
  xonlyPubkeyParse _ := true
  schnorrsigVerify _ _ _ := true
  xonlyPubkeyTweakAddCheck _ _ _ _ := true
  mldsa44VerifyCtx _ _ _ _ := true

/-! ## Signatures -/

def secp256k1Order : Nat := 0xfffffffffffffffffffffffffffffffebaaedce6af48a03bbfd25e8cd0364141

/-- `secp256k1_ecdsa_signature`: two scalars. -/
structure EcdsaSignature where
  r : Nat
  s : Nat
  r_lt : r < secp256k1Order
  s_lt : s < secp256k1Order
deriving DecidableEq

namespace EcdsaSignature

/-- The correctly parsed but invalid signature. -/
def zero : EcdsaSignature := ⟨0, 0, by decide, by decide⟩

/-- `secp256k1_ecdsa_signature_parse_compact`, on the numbers in the two halves. -/
def parseCompact (r s : Nat) : Option EcdsaSignature :=
  if h : r < secp256k1Order ∧ s < secp256k1Order then some ⟨r, s, h.1, h.2⟩ else none

/-- `secp256k1_scalar_is_high` of `s`, which `secp256k1_ecdsa_signature_normalize`
returns. -/
def isHigh (sig : EcdsaSignature) : Bool := sig.s > secp256k1Order / 2

/-- `secp256k1_ecdsa_signature_normalize`. -/
def normalize (sig : EcdsaSignature) : EcdsaSignature :=
  if sig.isHigh then
    ⟨sig.r, (secp256k1Order - sig.s) % secp256k1Order, sig.r_lt, Nat.mod_lt _ (by decide)⟩
  else sig

/-- `secp256k1_ecdsa_verify`. -/
def verify (crypto : Crypto) (sig : EcdsaSignature) (hash : Uint256) (pubkey : Bytes) : Bool :=
  !sig.isHigh && !(sig.r = 0 || sig.s = 0) && crypto.ecdsaSigVerify sig.r sig.s pubkey hash

end EcdsaSignature

/-! ## The lax parser -/

def readTag (tag : UInt8) : Bytes → Option Bytes
  | [] => none
  | byte :: pos => if byte = tag then some pos else none

def skipSequenceLength : Bytes → Option Bytes
  | [] => none
  | lenbyte :: pos =>
    if lenbyte &&& 0x80 ≠ 0 then
      let lenbyte := lenbyte.toNat - 0x80
      if lenbyte > pos.length then none else some (pos.drop lenbyte)
    else some pos

/-- The length of an integer. Leading zeros of a long length do not count, and at
most three bytes may be left. -/
def readIntegerLength : Bytes → Option (Nat × Bytes)
  | [] => none
  | lenbyte :: pos =>
    if lenbyte &&& 0x80 ≠ 0 then
      let lenbyte := lenbyte.toNat - 0x80
      if lenbyte > pos.length then none
      else
        let digits := (pos.take lenbyte).dropWhile (· = 0)
        if digits.length ≥ 4 then none else some (Bytes.beValue digits, pos.drop lenbyte)
    else some (lenbyte.toNat, pos)

/-- One integer of the input with its tag and length: the code for `R` and for `S`. -/
def readInteger (input : Bytes) : Option (Bytes × Bytes) := do
  let pos ← readTag 0x02 input
  let (len, pos) ← readIntegerLength pos
  if len > pos.length then none else some (pos.take len, pos.drop len)

/-- The scalars of the two integers, both zero if one of them is too large. -/
def parseScalars (r s : Bytes) : EcdsaSignature :=
  let r := r.dropWhile (· = 0)
  let s := s.dropWhile (· = 0)
  if r.length > 32 ∨ s.length > 32 then .zero
  else (EcdsaSignature.parseCompact (Bytes.beValue r) (Bytes.beValue s)).getD .zero

/-- `ecdsa_signature_parse_der_lax`. What follows the second integer is ignored. -/
def ecdsaSignatureParseDerLax (input : Bytes) : Option EcdsaSignature := do
  let pos ← readTag 0x30 input
  let pos ← skipSequenceLength pos
  let (r, pos) ← readInteger pos
  let (s, _) ← readInteger pos
  some (parseScalars r s)

/-! ## Keys -/

/-- `CPubKey::GetLen`. -/
def pubKeyLen (chHeader : UInt8) : Nat :=
  if chHeader = 2 ∨ chHeader = 3 then 33
  else if chHeader = 4 ∨ chHeader = 6 ∨ chHeader = 7 then 65
  else 0

/-- `CPubKey`: the serialized key, of the length that its header byte gives. An
invalid key has no bytes. -/
structure CPubKey where
  data : Bytes
  length_data : data = [] ∨ data.length = pubKeyLen (data.headD 0)
deriving DecidableEq

namespace CPubKey

def set (vch : Bytes) : CPubKey :=
  if h : vch.length = pubKeyLen (vch.headD 0) then ⟨vch, .inr h⟩ else ⟨[], .inl rfl⟩

def isValid (pubkey : CPubKey) : Bool := !pubkey.data.isEmpty

def verify (crypto : Crypto) (pubkey : CPubKey) (hash : Uint256) (vchSig : Bytes) : Bool :=
  pubkey.isValid && crypto.ecPubkeyParse pubkey.data &&
    (ecdsaSignatureParseDerLax vchSig).any fun sig => sig.normalize.verify crypto hash pubkey.data

def checkLowS (vchSig : Bytes) : Bool :=
  (ecdsaSignatureParseDerLax vchSig).any fun sig => !sig.isHigh

end CPubKey

namespace XOnlyPubKey

def verifySchnorr (crypto : Crypto) (pubkey : Bytes) (msg : Uint256) (sigbytes : Bytes) : Bool :=
  crypto.xonlyPubkeyParse pubkey && crypto.schnorrsigVerify sigbytes msg pubkey

/-- `XOnlyPubKey::CheckTapTweak` of the output key `pubkey`. -/
def checkTapTweak (crypto : Crypto) (pubkey internal : Bytes) (merkleRoot : Uint256)
    (parity : Bool) : Bool :=
  crypto.xonlyPubkeyParse internal &&
    crypto.xonlyPubkeyTweakAddCheck pubkey parity internal
      (crypto.taggedHash "TapTweak" (internal ++ merkleRoot.data))

end XOnlyPubKey

end Bitcoboost
