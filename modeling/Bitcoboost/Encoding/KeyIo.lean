import Bitcoboost.Consensus.Params
import Bitcoboost.Encoding.Base58
import Bitcoboost.Encoding.Bech32Errors

/-!
# Addresses

`EncodeDestination` and `DecodeDestination`. The decoder picks Base58Check or Bech32 by comparing
the first characters of the string with the human readable part of the network. On mainnet that
part is "bb", and some Base58 addresses start with "BB" or "bb".
-/

namespace Bitcoboost

open Bech32 (Encoding)

inductive CTxDestination where
  | noDestination (script : Bytes)
  | pubKeyDestination (pubkey : Bytes)
  | pkHash (id : Uint160)
  | scriptHash (id : Uint160)
  | witnessV0ScriptHash (id : Uint256)
  | witnessV0KeyHash (id : Uint160)
  | witnessV1Taproot (tap : BaseBlob 32)
  | witnessUnknown (version : Nat) (program : Bytes)
deriving DecidableEq, Repr

def isValidDestination : CTxDestination → Bool
  | .noDestination _ => false
  | .pubKeyDestination _ => false
  | _ => true

def witnessV1TaprootSize : Nat := 32

def bech32WitnessProgMaxLen : Nat := 40

section
-- `Hash`, the double SHA-256 of the Base58 checksum
variable (hash : Bytes → Uint256) (params : CChainParams)

def base58Payload (type : Base58Type) (id : Uint160) : Bytes :=
  params.base58Prefix type ++ id.data

/-- The address of a witness program, as the overloads of `DestinationEncoder` make it. -/
def encodeWitness (encoding : Encoding) (version : UInt8) (program : Bytes) : Option Bytes :=
  Bech32.encode encoding params.bech32Hrp (version :: (convertBits 8 5 true program).1)

def encodeDestination : CTxDestination → Option Bytes
  | .pkHash id => encodeBase58Check hash (base58Payload params .pubkeyAddress id)
  | .scriptHash id => encodeBase58Check hash (base58Payload params .scriptAddress id)
  | .witnessV0KeyHash id => encodeWitness params .bech32 0 id.data
  | .witnessV0ScriptHash id => encodeWitness params .bech32 0 id.data
  | .witnessV1Taproot tap => encodeWitness params .bech32m 1 tap.data
  | .witnessUnknown version program =>
    if version < 1 ∨ version > 16 ∨ program.length < 2 ∨ program.length > 40 then some []
    else encodeWitness params .bech32m (UInt8.ofNat version) program
  | .noDestination _ => some []
  | .pubKeyDestination _ => some []

/-- What `DecodeDestination` returns, with `error_str` and `error_locations`. -/
structure DecodedDestination where
  dest : CTxDestination
  errorStr : Bytes
  errorLocations : List Nat
deriving DecidableEq, Repr

/-- `DecodeDestination` with an error message. -/
def DecodedDestination.error (message : Bytes) : DecodedDestination :=
  ⟨.noDestination [], message, []⟩

/-- `DecodeDestination` without an error. -/
def DecodedDestination.ok (dest : CTxDestination) : DecodedDestination := ⟨dest, [], []⟩

def base58Hash? (pre data : Bytes) : Option Uint160 :=
  if data.length = 20 + pre.length ∧ data.take pre.length = pre then
    BaseBlob.ofBytes? 20 (data.drop pre.length)
  else none

/-- The Base58 branch of `DecodeDestination`, once the checksum is right. -/
def decodeBase58Payload (data : Bytes) : DecodedDestination :=
  let pubkeyPrefix := params.base58Prefix .pubkeyAddress
  let scriptPrefix := params.base58Prefix .scriptAddress
  match base58Hash? pubkeyPrefix data with
  | some id => .ok (.pkHash id)
  | none =>
    match base58Hash? scriptPrefix data with
    | some id => .ok (.scriptHash id)
    | none =>
      -- if the prefix matches, the length must have been wrong
      if scriptPrefix <+: data ∨ pubkeyPrefix <+: data then
        .error (Bytes.ofString "Invalid length for Base58 address (P2PKH or P2SH)")
      else .error (Bytes.ofString "Invalid or unsupported Base58-encoded address.")

/-- `strprintf(" (%d %s)", size, byte_str)` of the program size messages. -/
def sizeText (size : Nat) : String :=
  "(" ++ toString size ++ (if size = 1 then " byte" else " bytes") ++ ")"

def decodeWitnessProgram (version : Nat) (data : Bytes) : DecodedDestination :=
  if version = 0 then
    match BaseBlob.ofBytes? 20 data with
    | some keyid => .ok (.witnessV0KeyHash keyid)
    | none =>
      match BaseBlob.ofBytes? 32 data with
      | some scriptid => .ok (.witnessV0ScriptHash scriptid)
      | none => .error (Bytes.ofString
          ("Invalid Bech32 v0 address program size " ++ sizeText data.length ++ ", per BIP141"))
  else
    match (if version = 1 then BaseBlob.ofBytes? witnessV1TaprootSize data else none) with
    | some tap => .ok (.witnessV1Taproot tap)
    | none =>
      if version > 16 then .error (Bytes.ofString "Invalid Bech32 address witness version")
      else if data.length < 2 ∨ data.length > bech32WitnessProgMaxLen then
        .error (Bytes.ofString ("Invalid Bech32 address program size " ++ sizeText data.length))
      else .ok (.witnessUnknown version data)

/-- The Bech32 branch of `DecodeDestination`, once the checksum is right. -/
def decodeBech32Data (dec : Bech32.DecodeResult) : DecodedDestination :=
  match dec.data with
  | [] => .error (Bytes.ofString "Empty Bech32 data section")
  | first :: rest =>
    if dec.hrp ≠ params.bech32Hrp then
      .error (Bytes.ofString
        "Invalid or unsupported prefix for Segwit (Bech32) address (expected " ++
        params.bech32Hrp ++ Bytes.ofString ", got " ++ dec.hrp ++ Bytes.ofString ").")
    else
      let version := first.toNat
      if version = 0 ∧ dec.encoding ≠ .bech32 then
        .error (Bytes.ofString "Version 0 witness address must use Bech32 checksum")
      else if version ≠ 0 ∧ dec.encoding ≠ .bech32m then
        .error (Bytes.ofString "Version 1+ witness address must use Bech32m checksum")
      else
        match convertBits 5 8 false rest with
        | (data, true) => decodeWitnessProgram version data
        | (_, false) => .error (Bytes.ofString "Invalid padding in Bech32 data section")

/-- Whether `DecodeDestination` takes a string for a Bech32 address. -/
def isBech32 (str : Bytes) : Bool :=
  (str.take params.bech32Hrp.length).map toLower = params.bech32Hrp

def decodeDestination (str : Bytes) : Option DecodedDestination :=
  if isBech32 params str then
    let dec := Bech32.decode str
    if dec.encoding = .bech32 ∨ dec.encoding = .bech32m then some (decodeBech32Data params dec)
    else
      let (message, locations) := Bech32.locateErrors str
      some ⟨.noDestination [], message, locations⟩
  else do
    match ← decodeBase58Check hash str 21 with
    | some data => some (decodeBase58Payload params data)
    | none =>
      match ← decodeBase58 str 100 with
      | none =>
          some (.error (Bytes.ofString
            "Invalid or unsupported Segwit (Bech32) or Base58 encoding."))
      | some _ => some (.error (Bytes.ofString
          "Invalid checksum or length of Base58 address (P2PKH or P2SH)"))

end

/-! ## Witness addresses -/

def HasAddress : CTxDestination → Prop
  | .noDestination _ => False
  | .pubKeyDestination _ => False
  | .witnessUnknown version program =>
    1 ≤ version ∧ version ≤ 16 ∧ 2 ≤ program.length ∧ program.length ≤ 40 ∧
      ¬ (version = 1 ∧ program.length = 32)
  | _ => True

namespace KeyIoLemmas

theorem ofBytes?_val {n : Nat} (b : BaseBlob n) : BaseBlob.ofBytes? n b.data = some b :=
  dif_pos b.length_data

theorem ofBytes?_of_length_ne {n : Nat} {data : Bytes} (h : data.length ≠ n) :
    BaseBlob.ofBytes? n data = none :=
  dif_neg h

theorem validHrp (unset : Unset) (chain : ChainType) :
    Bech32.ValidHrp (createChainParams unset chain).bech32Hrp := by
  cases chain with
  | main => exact (by decide : Bech32.ValidHrp (Bytes.ofString "bb"))
  | testnet => exact (by decide : Bech32.ValidHrp (Bytes.ofString "tb"))
  | signet => exact (by decide : Bech32.ValidHrp (Bytes.ofString "tb"))
  | regtest => exact (by decide : Bech32.ValidHrp (Bytes.ofString "bcrt"))

theorem length_hrp_le (unset : Unset) (chain : ChainType) :
    (createChainParams unset chain).bech32Hrp.length ≤ 4 := by
  cases chain with
  | main => exact (by decide : (Bytes.ofString "bb").length ≤ 4)
  | testnet => exact (by decide : (Bytes.ofString "tb").length ≤ 4)
  | signet => exact (by decide : (Bytes.ofString "tb").length ≤ 4)
  | regtest => exact (by decide : (Bytes.ofString "bcrt").length ≤ 4)

theorem isBech32_append {params : CChainParams} (hhrp : Bech32.ValidHrp params.bech32Hrp)
    (tail : Bytes) : isBech32 params (params.bech32Hrp ++ tail) = true := by
  rw [isBech32, List.take_left, decide_eq_true_eq]
  exact Bech32.DecodeLemmas.lowerCase_map fun c hc => (hhrp.2 c hc).2.2

theorem decodeDestination_encodeWitness {hash : Bytes → Uint256} {unset : Unset} {chain : ChainType}
    {encoding : Encoding} (version : UInt8) {program : Bytes} (hversion : version.toNat < 32)
    (hlen : program.length ≤ 40) (henc : encoding = if version.toNat = 0 then .bech32
      else .bech32m) :
    ∃ str, encodeWitness (createChainParams unset chain) encoding version program = some str ∧
      decodeDestination hash (createChainParams unset chain) str =
        some (decodeWitnessProgram version.toNat program) := by
  have hhrp := validHrp unset chain
  have hhrpLen := length_hrp_le unset chain
  have hin : ∀ v ∈ program.map UInt8.toNat, v < 2 ^ 8 := toNat_lt_256 program
  obtain ⟨groups, padding, hpad, hpadding, hglen, hgroups, -⟩ :=
    convertBits_pad (by decide : 0 < 5) (by decide) hin
  have hback := convertBits_roundTrip (by decide : 0 < 5) (by decide) (by decide) hin
  rw [hpad] at hback
  have hvalues : ∀ v ∈ (version :: groups).map UInt8.toNat, v < 32 := by
    intro v hv
    rw [List.map_cons, List.mem_cons] at hv
    rcases hv with rfl | hv
    · exact hversion
    · exact hgroups v hv
  have hne : encoding ≠ .invalid := by
    rw [henc]
    split <;> decide
  obtain ⟨tail, hstr⟩ := Bech32.exists_encode hhrp hne (version :: groups)
  have hdecode := Bech32.decode_encode hhrp hvalues (by rw [List.length_cons]; omega) hstr
  refine ⟨_, by rw [encodeWitness, hpad, hstr], ?_⟩
  have hvariant : encoding = .bech32 ∨ encoding = .bech32m := by
    rw [henc]
    split <;> simp
  rw [decodeDestination, if_pos (isBech32_append hhrp _), hdecode]
  simp only [hvariant, if_true, decodeBech32Data, ne_eq, not_true_eq_false, if_false, hback]
  rw [if_neg, if_neg]
  · rintro ⟨hv, hm⟩
    rw [henc, if_neg hv] at hm
    exact hm rfl
  · rintro ⟨hv, hm⟩
    rw [henc, if_pos hv] at hm
    exact hm rfl

theorem witness_roundTrip (hash : Bytes → Uint256) (unset : Unset) (chain : ChainType)
    {d : CTxDestination}
    (hd : HasAddress d) (hpk : ∀ id, d ≠ .pkHash id) (hsh : ∀ id, d ≠ .scriptHash id) :
    ∃ str, encodeDestination hash (createChainParams unset chain) d = some str ∧
      decodeDestination hash (createChainParams unset chain) str = some (.ok d) := by
  cases d with
  | noDestination => exact hd.elim
  | pubKeyDestination => exact hd.elim
  | pkHash id => exact absurd rfl (hpk id)
  | scriptHash id => exact absurd rfl (hsh id)
  | witnessV0KeyHash id =>
    obtain ⟨str, hstr, hdec⟩ := decodeDestination_encodeWitness 0
      (by decide) (by rw [id.length_data]; decide) rfl
    refine ⟨str, hstr, hdec.trans ?_⟩
    simp [decodeWitnessProgram, ofBytes?_val]
  | witnessV0ScriptHash id =>
    obtain ⟨str, hstr, hdec⟩ := decodeDestination_encodeWitness 0
      (by decide) (by rw [id.length_data]; decide) rfl
    refine ⟨str, hstr, hdec.trans ?_⟩
    have hne : id.data.length ≠ 20 := by rw [id.length_data]; decide
    simp [decodeWitnessProgram, ofBytes?_val, ofBytes?_of_length_ne hne]
  | witnessV1Taproot tap =>
    obtain ⟨str, hstr, hdec⟩ := decodeDestination_encodeWitness 1
      (by decide) (by rw [tap.length_data]; decide) rfl
    refine ⟨str, hstr, hdec.trans ?_⟩
    simp [decodeWitnessProgram, witnessV1TaprootSize, ofBytes?_val]
  | witnessUnknown version program =>
    obtain ⟨hlo, hhi, hmin, hmax, htap⟩ := hd
    have hnat : (UInt8.ofNat version).toNat = version := by
      rw [UInt8.toNat_ofNat']
      omega
    obtain ⟨str, hstr, hdec⟩ :=
      decodeDestination_encodeWitness (UInt8.ofNat version) (by omega) hmax
        (by rw [hnat, if_neg (by omega)])
    refine ⟨str, ?_, hdec.trans ?_⟩
    · rw [encodeDestination, if_neg (by omega), hstr]
    · rw [hnat, decodeWitnessProgram, if_neg (by omega)]
      have hnone : (if version = 1 then BaseBlob.ofBytes? witnessV1TaprootSize program
          else none) = none := by
        split
        · next hone => exact ofBytes?_of_length_ne fun h => htap ⟨hone, h⟩
        · rfl
      rw [hnone]
      rw [if_neg (by omega), if_neg (by simp only [bech32WitnessProgMaxLen]; omega)]

end KeyIoLemmas

/-! ## Base58 addresses -/

/-- The number that the Base58 address with the given payload encodes: the payload
and its checksum. -/
def addressNumber (hash : Bytes → Uint256) (payload : Bytes) : Nat :=
  base58Number (payload ++ (hash payload).data.take 4)

/-- A mainnet Base58 address whose first two digits are "BB" (a key hash) or "bb" (a
script hash). -/
def TakenForBech32 (hash : Bytes → Uint256) (chain : ChainType) : CTxDestination → Prop
  | .pkHash id => chain = .main ∧ addressNumber hash (base58Payload mainParams .pubkeyAddress id) /
      58 ^ 32 = 590
  | .scriptHash id => chain = .main ∧ addressNumber hash
      (base58Payload mainParams .scriptAddress id) / 58 ^ 32 = 2006
  | _ => False

namespace KeyIoLemmas
open Positional

/-- The digits of a number from the highest on. -/
theorem reverse_digits_getElem? {b N k j : Nat} (hb : 1 < b) (hlo : b ^ k ≤ N)
    (hhi : N < b ^ (k + 1)) (hj : j ≤ k) :
    (Nat.digits b N).reverse[j]? = some (N / b ^ (k - j) % b) := by
  have hle := (Nat.digits_length_le_iff hb N).mpr hhi
  have hge : k < (Nat.digits b N).length := (Nat.lt_digits_length_iff hb N).mpr hlo
  have hlen : (Nat.digits b N).length = k + 1 := by omega
  rw [List.getElem?_reverse (by omega), hlen, show k + 1 - 1 - j = k - j by omega,
    List.getElem?_eq_getElem (by omega), Option.some.injEq, ← Nat.getD_digits _ _ hb,
    List.getD_eq_getElem]

variable {version other c : UInt8} {hash : Bytes → Uint256} {params : CChainParams} {id : Uint160}
  {str hrp : Bytes}

/-- The address number is the payload followed by 32 bits of checksum. -/
theorem addressNumber_eq (hash : Bytes → Uint256) (data : Bytes) (hversion : version ≠ 0) :
    ∃ checksum < 256 ^ 4, addressNumber hash ([version] ++ data) =
      horner 256 0 (([version] ++ data).map UInt8.toNat) * 256 ^ 4 + checksum := by
  have hlen : ((hash ([version] ++ data)).data.take 4).length = 4 := by
    rw [List.length_take, (hash _).length_data]
    rfl
  have hlt :=
    horner_lt (by decide : 1 < 256) (toNat_lt_256 ((hash ([version] ++ data)).data.take 4))
  rw [List.length_map, hlen] at hlt
  refine ⟨_, hlt, ?_⟩
  rw [addressNumber, base58Number, List.append_assoc, List.singleton_append,
    List.dropWhile_cons_of_neg (by simpa using hversion), ← List.cons_append, List.map_append,
    horner_append, horner_eq 256 (horner 256 0 _), horner_zero_eq 256 (List.map _ (List.take 4 _)),
    List.length_map, hlen]
  rfl

theorem addressNumber_bounds (hash : Bytes → Uint256) (id : Uint160) (hversion : version ≠ 0) :
    version.toNat * 256 ^ 24 ≤ addressNumber hash ([version] ++ id.data) ∧
    addressNumber hash ([version] ++ id.data) < (version.toNat + 1) * 256 ^ 24 := by
  obtain ⟨checksum, hchecksum, hnumber⟩ := addressNumber_eq hash id.data hversion
  have hlt := horner_lt (by decide : 1 < 256) (toNat_lt_256 id.data)
  rw [List.length_map, id.length_data] at hlt
  have hpayload : horner 256 0 (([version] ++ id.data).map UInt8.toNat) =
      version.toNat * 256 ^ 20 + horner 256 0 (id.data.map UInt8.toNat) := by
    rw [List.singleton_append, List.map_cons, horner_cons, horner_eq, horner_zero_eq,
      List.length_map, id.length_data, Nat.mul_zero, Nat.zero_add]
  omega

theorem encodeBase58Check_eq {hash : Bytes → Uint256} {id : Uint160} (hversion : version ≠ 0) :
    encodeBase58Check hash ([version] ++ id.data) =
      some ((Nat.digits 58 (addressNumber hash ([version] ++ id.data))).reverse.map fun d =>
        pszBase58.getD d 0) := by
  have hfits : EncodeFits ([version] ++ id.data ++ (hash ([version] ++ id.data)).data.take 4) :=
    .of_length (by simp [id.length_data, (hash _).length_data])
  rw [encodeBase58Check, encodeBase58_eq hfits, List.append_assoc, List.singleton_append,
    List.takeWhile_cons_of_neg (by simpa using hversion)]
  rfl

/-- The Bech32 branch never gives a key hash or a script hash. -/
theorem decodeWitnessProgram_dest (version : Nat) (data : Bytes) :
    (decodeWitnessProgram version data).dest ≠ .pkHash id ∧
    (decodeWitnessProgram version data).dest ≠ .scriptHash id := by
  unfold decodeWitnessProgram
  repeat' split
  all_goals exact ⟨CTxDestination.noConfusion, CTxDestination.noConfusion⟩

theorem decodeBech32Data_dest (dec : Bech32.DecodeResult) :
    (decodeBech32Data params dec).dest ≠ .pkHash id ∧
    (decodeBech32Data params dec).dest ≠ .scriptHash id := by
  unfold decodeBech32Data
  dsimp only
  repeat' split
  all_goals first
    | exact decodeWitnessProgram_dest _ _
    | exact ⟨CTxDestination.noConfusion, CTxDestination.noConfusion⟩

theorem dest_of_isBech32 {r : DecodedDestination}
    (hb : isBech32 params str = true) (h : decodeDestination hash params str = some r)
    (id : Uint160) : r.dest ≠ .pkHash id ∧ r.dest ≠ .scriptHash id := by
  rw [decodeDestination, if_pos hb] at h
  dsimp only at h
  split at h
  · cases h
    exact decodeBech32Data_dest _
  · cases h
    exact ⟨CTxDestination.noConfusion, CTxDestination.noConfusion⟩

theorem base58Hash?_self : base58Hash? [version] ([version] ++ id.data) = some id := by
  have hlen : ([version] ++ id.data).length = 20 + [version].length := by
    rw [List.length_append, id.length_data]
    rfl
  rw [base58Hash?, if_pos ⟨hlen, List.take_left⟩, List.drop_left, ofBytes?_val]

theorem base58Hash?_other (h : other ≠ version) :
    base58Hash? [other] ([version] ++ id.data) = none := by
  refine if_neg fun hand => h ?_
  simpa using hand.2.symm

/-- The address of a hash decodes to its payload when it does not look like Bech32. -/
theorem decodeDestination_base58 (hstr : encodeBase58Check hash ([version] ++ id.data) = some str)
    (hb : isBech32 params str = false) :
    decodeDestination hash params str =
      some (decodeBase58Payload params ([version] ++ id.data)) := by
  have hlen : (([version] ++ id.data).length : Int) ≤ 21 := by
    rw [List.length_append, id.length_data]
    exact le_rfl
  have hcheck := decodeBase58Check_encodeBase58Check hstr hlen (by decide)
  simp [decodeDestination, hb, hcheck]

theorem toLower_pszBase58 : ∀ d < 58, toLower (pszBase58.getD d 0) = 0x62 ↔ d = 10 ∨ d = 34 := by
  decide

theorem getElem?_map_digits {N k j : Nat} (hlo : 58 ^ k ≤ N) (hhi : N < 58 ^ (k + 1)) (hj : j ≤ k) :
    ((Nat.digits 58 N).reverse.map fun d => pszBase58.getD d 0)[j]? =
      some (pszBase58.getD (N / 58 ^ (k - j) % 58) 0) := by
  rw [List.getElem?_map, reverse_digits_getElem? (by decide) hlo hhi hj, Option.map_some]

/-- A string of 34 digits looks like a mainnet Bech32 address if its first two
digits are letters "B" or "b". -/
theorem isBech32_main_iff {N : Nat} (hlo : 58 ^ 33 ≤ N) (hhi : N < 58 ^ 34) :
    isBech32 mainParams ((Nat.digits 58 N).reverse.map fun d => pszBase58.getD d 0) = true ↔
      (N / 58 ^ 33 % 58 = 10 ∨ N / 58 ^ 33 % 58 = 34) ∧
        (N / 58 ^ 32 % 58 = 10 ∨ N / 58 ^ 32 % 58 = 34) := by
  have hfirst := getElem?_map_digits hlo hhi (by decide : 0 ≤ 33)
  have hsecond := getElem?_map_digits hlo hhi (by decide : 1 ≤ 33)
  generalize ((Nat.digits 58 N).reverse.map fun d => pszBase58.getD d 0) = str at hfirst hsecond ⊢
  match str, hfirst, hsecond with
  | a :: b :: rest, hfirst, hsecond =>
    rw [List.getElem?_cons_zero, Option.some.injEq] at hfirst
    rw [List.getElem?_cons_succ, List.getElem?_cons_zero, Option.some.injEq] at hsecond
    have htake :
      isBech32 mainParams (a :: b :: rest) = decide ([toLower a, toLower b] = [0x62, 0x62]) := rfl
    rw [htake, decide_eq_true_eq, hfirst, hsecond, List.cons.injEq, List.cons.injEq,
      toLower_pszBase58 _ (Nat.mod_lt _ (by decide)),
      toLower_pszBase58 _ (Nat.mod_lt _ (by decide))]
    simp

/-- On a test network an address that starts with another letter than the human
readable part does not look like Bech32. -/
theorem isBech32_eq_false {x : UInt8}
    (hhrp : params.bech32Hrp = c :: hrp) (hx : str[0]? = some x) (hne : toLower x ≠ c) :
    isBech32 params str = false := by
  cases str with
  | nil => cases hx
  | cons y str =>
    rw [List.getElem?_cons_zero, Option.some.injEq] at hx
    rw [isBech32, decide_eq_false_iff_not, hhrp, List.length_cons, List.take_succ_cons,
      List.map_cons, hx]
    exact fun h => hne (List.cons.inj h).1

/-- A mainnet address looks like a Bech32 one exactly if its first two digits are those
of "BB" (key hashes) or "bb" (script hashes). -/
theorem isBech32_main {first : Nat}
    (hversion : version = 25 ∧ first = 590 ∨ version = 85 ∧ first = 2006) :
    isBech32 mainParams ((Nat.digits 58 (addressNumber hash ([version] ++ id.data))).reverse.map
      fun d => pszBase58.getD d 0) = true ↔ addressNumber hash ([version] ++ id.data) /
        58 ^ 32 = first := by
  have hne : version ≠ 0 := by
    rcases hversion with ⟨rfl, _⟩ | ⟨rfl, _⟩
    · decide
    · decide
  obtain ⟨hlo, hhi⟩ := addressNumber_bounds hash id hne
  rcases hversion with ⟨rfl, rfl⟩ | ⟨rfl, rfl⟩
  all_goals
    simp only [UInt8.reduceToNat] at hlo hhi
    rw [isBech32_main_iff (by omega) (by omega)]
    omega

theorem pszBase58_test : ∀ d < 58, d = 44 ∨ d = 45 ∨ d = 1 →
    toLower (pszBase58.getD d 0) ≠ 0x74 ∧ toLower (pszBase58.getD d 0) ≠ 0x62 := by
  decide

/-- Addresses of the test networks start with "m", "n" or "2". -/
theorem isBech32_test (hhrp : params.bech32Hrp = c :: hrp) (hc : c = 0x74 ∨ c = 0x62)
    (hversion : version = 111 ∨ version = 196) :
    isBech32 params ((Nat.digits 58 (addressNumber hash ([version] ++ id.data))).reverse.map
      fun d => pszBase58.getD d 0) = false := by
  have hne (d : Nat) (hd : d < 58) (h : d = 44 ∨ d = 45 ∨ d = 1) :
      toLower (pszBase58.getD d 0) ≠ c := by
    rcases hc with rfl | rfl
    · exact (pszBase58_test d hd h).1
    · exact (pszBase58_test d hd h).2
  rcases hversion with rfl | rfl
  · obtain ⟨hlo, hhi⟩ := addressNumber_bounds hash id (by decide : (111 : UInt8) ≠ 0)
    simp only [UInt8.reduceToNat] at hlo hhi
    refine isBech32_eq_false hhrp (getElem?_map_digits (k := 33) (by omega) (by omega) (by decide))
      (hne _ (Nat.mod_lt _ (by decide)) ?_)
    omega
  · obtain ⟨hlo, hhi⟩ := addressNumber_bounds hash id (by decide : (196 : UInt8) ≠ 0)
    simp only [UInt8.reduceToNat] at hlo hhi
    refine isBech32_eq_false hhrp (getElem?_map_digits (k := 34) (by omega) (by omega) (by decide))
      (hne _ (Nat.mod_lt _ (by decide)) ?_)
    omega

/-- The networks other than mainnet share their Base58 prefixes, and their human
readable parts start with "t" or "b". -/
theorem createChainParams_test (unset : Unset) {chain : ChainType} (h : chain ≠ .main) :
    ∃ c hrp, (createChainParams unset chain).bech32Hrp = c :: hrp ∧ (c = 0x74 ∨ c = 0x62) ∧
      (createChainParams unset chain).base58Prefix = testBase58Prefix := by
  cases chain with
  | main => exact absurd rfl h
  | testnet => exact ⟨_, _, rfl, .inl rfl, rfl⟩
  | signet => exact ⟨_, _, rfl, .inl rfl, rfl⟩
  | regtest => exact ⟨_, _, rfl, .inr rfl, rfl⟩

theorem base58_roundTrip_iff {d : CTxDestination} (hd : d = .pkHash id ∨ d = .scriptHash id)
    (henc : encodeDestination hash params d = encodeBase58Check hash ([version] ++ id.data))
    (hstr : encodeBase58Check hash ([version] ++ id.data) = some str)
    (hpayload : decodeBase58Payload params ([version] ++ id.data) = .ok d) :
    (∃ addr dec, encodeDestination hash params d = some addr ∧
      decodeDestination hash params addr = some dec ∧
      dec.dest = d) ↔ isBech32 params str = false := by
  constructor
  · rintro ⟨addr, dec, haddr, hdec, hdest⟩
    rw [henc, hstr, Option.some.injEq] at haddr
    subst haddr
    refine Bool.eq_false_iff.mpr fun hb => ?_
    obtain ⟨hpk, hsh⟩ := dest_of_isBech32 hb hdec id
    rcases hd with rfl | rfl
    · exact hpk hdest
    · exact hsh hdest
  · intro hb
    exact ⟨str, _, henc.trans hstr, decodeDestination_base58 hstr hb, by rw [hpayload]; rfl⟩

theorem decodeBase58Payload_pubkey (h : params.base58Prefix .pubkeyAddress = [version])
    (id : Uint160) : decodeBase58Payload params ([version] ++ id.data) = .ok (.pkHash id) := by
  simp only [decodeBase58Payload, h, base58Hash?_self]

theorem decodeBase58Payload_script (h : params.base58Prefix .scriptAddress = [version])
    (hother : params.base58Prefix .pubkeyAddress = [other]) (hne : other ≠ version) (id : Uint160) :
    decodeBase58Payload params ([version] ++ id.data) = .ok (.scriptHash id) := by
  simp only [decodeBase58Payload, h, hother, base58Hash?_other hne, base58Hash?_self]

end KeyIoLemmas

open Positional KeyIoLemmas

/-- On every network an address decodes to the destination it was made from, unless
it is a mainnet Base58 address that looks like a Bech32 one. -/
theorem decodeDestination_encodeDestination_iff (hash : Bytes → Uint256) (unset : Unset)
    (chain : ChainType) {d : CTxDestination} (hd : HasAddress d) :
    (∃ addr dec, encodeDestination hash (createChainParams unset chain) d = some addr ∧
      decodeDestination hash (createChainParams unset chain) addr = some dec ∧ dec.dest = d) ↔
    ¬ TakenForBech32 hash chain d := by
  by_cases hbase58 : (∃ id, d = .pkHash id) ∨ ∃ id, d = .scriptHash id
  · by_cases hmain : chain = .main
    · subst hmain
      have hpub : (createChainParams unset .main).base58Prefix .pubkeyAddress = [25] := rfl
      have hscript : (createChainParams unset .main).base58Prefix .scriptAddress = [85] := rfl
      rcases hbase58 with ⟨id, rfl⟩ | ⟨id, rfl⟩
      · rw [base58_roundTrip_iff (.inl rfl) (by rw [encodeDestination, base58Payload, hpub])
          (encodeBase58Check_eq (by decide : (25 : UInt8) ≠ 0))
          (decodeBase58Payload_pubkey hpub id), ← Bool.not_eq_true]
        exact not_congr ((isBech32_main (.inl ⟨rfl, rfl⟩)).trans ⟨fun h => ⟨rfl, h⟩, fun h => h.2⟩)
      · rw [base58_roundTrip_iff (.inr rfl) (by rw [encodeDestination, base58Payload, hscript])
          (encodeBase58Check_eq (by decide : (85 : UInt8) ≠ 0))
          (decodeBase58Payload_script hscript hpub (by decide) id), ← Bool.not_eq_true]
        exact not_congr ((isBech32_main (.inr ⟨rfl, rfl⟩)).trans ⟨fun h => ⟨rfl, h⟩, fun h => h.2⟩)
    · obtain ⟨c, hrp, hhrp, hc, hpre⟩ := createChainParams_test unset hmain
      have hpub :
        (createChainParams unset chain).base58Prefix .pubkeyAddress = [111] := by rw [hpre]; rfl
      have hscript :
        (createChainParams unset chain).base58Prefix .scriptAddress = [196] := by rw [hpre]; rfl
      rcases hbase58 with ⟨id, rfl⟩ | ⟨id, rfl⟩
      · rw [base58_roundTrip_iff (.inl rfl) (by rw [encodeDestination, base58Payload, hpub])
          (encodeBase58Check_eq (by decide : (111 : UInt8) ≠ 0))
          (decodeBase58Payload_pubkey hpub id)]
        exact ⟨fun _ h => hmain h.1, fun _ => isBech32_test hhrp hc (.inl rfl)⟩
      · rw [base58_roundTrip_iff (.inr rfl) (by rw [encodeDestination, base58Payload, hscript])
          (encodeBase58Check_eq (by decide : (196 : UInt8) ≠ 0))
          (decodeBase58Payload_script hscript hpub (by decide) id)]
        exact ⟨fun _ h => hmain h.1, fun _ => isBech32_test hhrp hc (.inr rfl)⟩
  · obtain ⟨addr, henc, hdec⟩ :=
        witness_roundTrip hash unset chain hd (fun id h => hbase58 (.inl ⟨id, h⟩))
      (fun id h => hbase58 (.inr ⟨id, h⟩))
    refine ⟨fun _ htaken => ?_, fun _ => ⟨addr, _, henc, hdec, rfl⟩⟩
    cases d with
    | pkHash id => exact hbase58 (.inl ⟨id, rfl⟩)
    | scriptHash id => exact hbase58 (.inr ⟨id, rfl⟩)
    | _ => exact htaken

/-- The key hash of twenty zero bytes, with a checksum of zeros. -/
theorem decodeDestination_encodeDestination_zero :
    HasAddress (.pkHash ⟨List.replicate 20 0, rfl⟩) ∧
    ∃ addr dec, encodeDestination (fun _ => uint256S 0) mainParams
    (.pkHash ⟨List.replicate 20 0, rfl⟩) = some addr ∧
      decodeDestination (fun _ => uint256S 0) mainParams addr = some dec ∧
      dec.dest = .pkHash ⟨List.replicate 20 0, rfl⟩ := by
  refine ⟨trivial, (decodeDestination_encodeDestination_iff _ ⟨0, 0, nullUint256, nullUint256⟩ .main
    (show HasAddress (.pkHash _) from trivial)).mpr ?_⟩
  rintro ⟨-, h⟩
  exact absurd h (by decide)

namespace KeyIoLemmas

/-- Whatever the checksum of the key hash `4d00…00` is, its mainnet address starts with
"BB" and does not decode to it. -/
theorem main_pubkey_taken (hash : Bytes → Uint256) : ¬ ∃ addr dec,
    encodeDestination hash mainParams (.pkHash ⟨0x4d :: List.replicate 19 0, rfl⟩) = some addr ∧
    decodeDestination hash mainParams addr = some dec ∧
    dec.dest = .pkHash ⟨0x4d :: List.replicate 19 0, rfl⟩ := by
  have hpub : mainParams.base58Prefix .pubkeyAddress = [25] := rfl
  rw [base58_roundTrip_iff (.inl rfl) (by rw [encodeDestination, base58Payload, hpub])
    (encodeBase58Check_eq (by decide : (25 : UInt8) ≠ 0)) (decodeBase58Payload_pubkey hpub _),
    Bool.not_eq_false, isBech32_main (.inl ⟨rfl, rfl⟩)]
  obtain ⟨checksum, hlt, hnumber⟩ :=
    addressNumber_eq hash (0x4d :: List.replicate 19 0) (by decide : (25 : UInt8) ≠ 0)
  have hpayload : horner 256 0 (([25] ++ 0x4d :: List.replicate 19 0 : Bytes).map UInt8.toNat) =
      0x194d * 256 ^ 19 := by
    decide
  rw [hnumber]
  omega

end KeyIoLemmas

/-- The key hash `4d00…00`, with a checksum of zeros. -/
theorem address_taken_for_bech32 : ¬ ∃ addr dec,
    encodeDestination (fun _ => nullUint256) mainParams
    (.pkHash ⟨0x4d :: List.replicate 19 0, rfl⟩) = some addr ∧
    decodeDestination (fun _ => nullUint256) mainParams addr = some dec ∧
    dec.dest = .pkHash ⟨0x4d :: List.replicate 19 0, rfl⟩ :=
  main_pubkey_taken _

end Bitcoboost
