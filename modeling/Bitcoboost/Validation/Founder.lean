import Bitcoboost.Consensus.Subsidy
import Bitcoboost.Encoding.KeyIo

/-!
# The founder reward

The functions of `validation.cpp` on the founder reward, and the script of an address. The
mainnet founder address is used on every network but the test network and regtest, so also on
signet, whose addresses start with "tb".
-/

namespace Bitcoboost

def encodeOpN (n : Nat) : UInt8 := if n = 0 then op0 else UInt8.ofNat (0x51 + n - 1)

def getScriptForDestination : CTxDestination → CScript
  | .noDestination script => script
  | .pubKeyDestination pubkey => pushData pubkey ++ [OpcodeType.opChecksig.toByte]
  | .pkHash id => [OpcodeType.opDup.toByte, OpcodeType.opHash160.toByte] ++ pushData id.data
      ++ [OpcodeType.opEqualverify.toByte, OpcodeType.opChecksig.toByte]
  | .scriptHash id => [OpcodeType.opHash160.toByte] ++ pushData id.data ++
      [OpcodeType.opEqual.toByte]
  | .witnessV0KeyHash id => [op0] ++ pushData id.data
  | .witnessV0ScriptHash id => [op0] ++ pushData id.data
  | .witnessV1Taproot tap => [OpcodeType.op1.toByte] ++ pushData tap.data
  | .witnessUnknown version program => [encodeOpN version] ++ pushData program

def getFounderAddress (params : CChainParams) : Bytes :=
  let net := chainTypeToString params.chainType
  if net = "regtest" then Bytes.ofString "bcrt1q0rfr4ges48ruh8ej8fup65d65mfp3alv44m7y9"
  else if net = "test" then Bytes.ofString "tb1q0rfr4ges48ruh8ej8fup65d65mfp3alvhuznnv"
  else Bytes.ofString "bb1q0rfr4ges48ruh8ej8fup65d65mfp3alvn2rhna"

def getFounderRewardForBlock (nHeight : Int) (params : Params) : CAmount :=
  if nHeight < 2001 then 0
  else if nHeight ≥ 210000 then 0
  else (getBlockSubsidy nHeight params * 5).tdiv 100

variable (hash : Bytes → Uint256)

/-- `DecodeDestination(GetFounderAddress())`. -/
def founderDestination (params : CChainParams) : Option CTxDestination :=
  (decodeDestination hash params (getFounderAddress params)).map DecodedDestination.dest

def getFounderScript (params : CChainParams) : Option CScript :=
  (founderDestination hash params).map getScriptForDestination

/-! ## What the address decodes to -/

def founderKeyHash : Uint160 :=
  ⟨[0x78, 0xd2, 0x3a, 0xa3, 0x30, 0xa9, 0xc7, 0xcb, 0x9f, 0x32, 0x3a, 0x78, 0x1d, 0x51, 0xba,
    0xa6, 0xd2, 0x18, 0xf7, 0xec], by decide⟩

namespace FounderLemmas

variable {params : CChainParams} {hash : Bytes → Uint256}

theorem decodeBech32Data_congr {params' : CChainParams} (h : params.bech32Hrp = params'.bech32Hrp)
    (dec : Bech32.DecodeResult) : decodeBech32Data params dec = decodeBech32Data params' dec := by
  unfold decodeBech32Data
  rw [h]

/-- A string with the checksum of a Bech32 address, on any network with the
prefix of `params'`. -/
theorem decodeDestination_bech32 (params' : CChainParams) {str : Bytes}
    (hhrp : params.bech32Hrp = params'.bech32Hrp) (hbech32 : isBech32 params' str = true)
    (hok : (Bech32.decode str).encoding = .bech32) :
    decodeDestination hash params str = some (decodeBech32Data params' (Bech32.decode str)) := by
  have hprefix : isBech32 params str = true := by
    rw [isBech32, hhrp]
    exact hbech32
  rw [decodeDestination, if_pos hprefix]
  rw [if_pos (.inl hok), decodeBech32Data_congr hhrp]

/-- Test network parameters that leave nothing open. -/
def closedUnset : Unset := ⟨0, 0, nullUint256, nullUint256⟩

theorem founderDestination_bech32 (params' : CChainParams)
    (hhrp : params.bech32Hrp = params'.bech32Hrp) (hnet : params.chainType = params'.chainType)
    (h : isBech32 params' (getFounderAddress params') = true ∧
      (Bech32.decode (getFounderAddress params')).encoding = .bech32 ∧
      (decodeBech32Data params' (Bech32.decode (getFounderAddress params'))).dest =
        .witnessV0KeyHash founderKeyHash) :
    founderDestination hash params = some (.witnessV0KeyHash founderKeyHash) := by
  obtain ⟨hbech32, hok, hdest⟩ := h
  have haddress : getFounderAddress params = getFounderAddress params' := by
    rw [getFounderAddress, getFounderAddress, hnet]
  rw [founderDestination, haddress, decodeDestination_bech32 params' hhrp hbech32 hok,
    Option.map_some, hdest]

/-- The mainnet string on signet: it does not start with "tb", and is no Base58. -/
theorem founderDestination_signet {unset : Unset} :
    founderDestination hash (sigNetParams unset) = some (.noDestination []) := by
  have hshort : decodeBase58 (Bytes.ofString "bb1q0rfr4ges48ruh8ej8fup65d65mfp3alvn2rhna") 25 =
    some none := by decide
  have hlong : decodeBase58 (Bytes.ofString "bb1q0rfr4ges48ruh8ej8fup65d65mfp3alvn2rhna") 100 =
    some none := by decide
  have hcheck :
      decodeBase58Check hash (Bytes.ofString "bb1q0rfr4ges48ruh8ej8fup65d65mfp3alvn2rhna") 21 =
      some none := by
    rw [decodeBase58Check]
    simp [hshort]
  have hprefix :
    isBech32 (sigNetParams unset) (Bytes.ofString "bb1q0rfr4ges48ruh8ej8fup65d65mfp3alvn2rhna") =
    false :=
    (by decide :
      decide (((Bytes.ofString "bb1q0rfr4ges48ruh8ej8fup65d65mfp3alvn2rhna").take 2).map toLower
      = Bytes.ofString "tb") = false)
  have haddress : getFounderAddress (sigNetParams unset) =
      Bytes.ofString "bb1q0rfr4ges48ruh8ej8fup65d65mfp3alvn2rhna" := rfl
  rw [founderDestination, haddress, decodeDestination, hprefix]
  simp [hcheck, hlong, DecodedDestination.error]

end FounderLemmas

open FounderLemmas

/-- The founder address is an address on every network but signet. -/
theorem founderDestination_eq (unset : Unset) (chain : ChainType) :
    founderDestination hash (createChainParams unset chain) =
      some (if chain = .signet then .noDestination [] else .witnessV0KeyHash founderKeyHash) := by
  cases chain with
  | main => exact founderDestination_bech32 mainParams rfl rfl (by decide +kernel)
  | testnet =>
    exact founderDestination_bech32 (testNetParams closedUnset) rfl rfl (by decide +kernel)
  | signet => exact founderDestination_signet
  | regtest =>
    exact founderDestination_bech32 (regTestParams closedUnset) rfl rfl (by decide +kernel)

end Bitcoboost
