import Bitcoboost.Arith.ArithUint256
import Bitcoboost.Primitives.Block

/-!
# Consensus parameters of the four networks

`Consensus::Params` and `CChainParams` with the fields that the modelled functions read. Machine
integers of the parameters are `Int`.

Only `CMainParams` assigns `nFastRetargetPeriod` and `nFastRetargetUntilHeight`, and the hash and
the merkle root of the other genesis blocks are not written down in the source: `Unset` holds
whatever these fields contain.
-/

namespace Bitcoboost

inductive ChainType where
  | main
  | testnet
  | signet
  | regtest
deriving DecidableEq, Repr

def chainTypeToString : ChainType → String
  | .main => "main"
  | .testnet => "test"
  | .signet => "signet"
  | .regtest => "regtest"

structure Params where
  hashGenesisBlock : Uint256
  nSubsidyHalvingInterval : Int
  scriptFlagExceptions : List (Uint256 × ScriptFlags)
  bip34Height : Int
  bip34Hash : Uint256
  bip65Height : Int
  bip66Height : Int
  csvHeight : Int
  segwitHeight : Int
  signetBlocks : Bool
  powLimit : Uint256
  fPowAllowMinDifficultyBlocks : Bool
  fPowNoRetargeting : Bool
  nPowTargetSpacing : Int
  nPowTargetTimespan : Int
  nFastRetargetPeriod : Int
  nFastRetargetUntilHeight : Int
deriving DecidableEq

inductive Base58Type where
  | pubkeyAddress
  | scriptAddress
  | secretKey
  | extPublicKey
  | extSecretKey
deriving DecidableEq, Repr

/-- `CChainParams`, with the header of the genesis block. -/
structure CChainParams where
  chainType : ChainType
  consensus : Params
  genesis : CBlockHeader
  base58Prefix : Base58Type → Bytes
  bech32Hrp : Bytes

/-- What a constructor other than `CMainParams` leaves open. -/
structure Unset where
  nFastRetargetPeriod : Int
  nFastRetargetUntilHeight : Int
  hashGenesisBlock : Uint256
  genesisMerkleRoot : Uint256

/-- Integer division of C++: truncated, and a trap on a zero divisor. -/
def cDiv (a b : Int) : Option Int := if b = 0 then none else some (a.tdiv b)

/-- Remainder of C++: the sign of the dividend, and a trap on a zero divisor. -/
def cMod (a b : Int) : Option Int := if b = 0 then none else some (a.tmod b)

def Params.difficultyAdjustmentInterval (params : Params) : Option Int :=
  cDiv params.nPowTargetTimespan params.nPowTargetSpacing

/-! ## The networks -/

/-- `consensus` of `CMainParams`. -/
def mainConsensus : Params where
  hashGenesisBlock := uint256S 0x00008e92cdd72d798964ea9833c612371e93ddbcbb6a8a1ffe71e591f5b017df
  nSubsidyHalvingInterval := 210000
  scriptFlagExceptions := []
  bip34Height := 17
  bip34Hash := uint256S 0
  bip65Height := 1
  bip66Height := 1
  csvHeight := 1
  segwitHeight := 0
  signetBlocks := false
  powLimit := uint256S 0x0000ffffffffffffffffffffffffffffffffffffffffffffffffffffffffffff
  fPowAllowMinDifficultyBlocks := false
  fPowNoRetargeting := false
  nPowTargetSpacing := 10 * 60
  nPowTargetTimespan := 14 * 24 * 60 * 60
  nFastRetargetPeriod := 144
  nFastRetargetUntilHeight := 2016

variable (unset : Unset)

/-- `consensus` of `CTestNetParams`. -/
def testNetConsensus : Params where
  hashGenesisBlock := unset.hashGenesisBlock
  nSubsidyHalvingInterval := 210000
  scriptFlagExceptions :=
    [(uint256S 0x00000000dd30457c001f4095d208cc1296b0eed002427aa599874af7a432b105, ∅)]
  bip34Height := 21111
  bip34Hash := uint256S 0x0000000023b3a96d3484e5abb3755c413e7d41500f8e2a5c3f0dd01299cd8ef8
  bip65Height := 581885
  bip66Height := 330776
  csvHeight := 770112
  segwitHeight := 834624
  signetBlocks := false
  powLimit := uint256S 0x7fffffffffffffffffffffffffffffffffffffffffffffffffffffffffffffff
  fPowAllowMinDifficultyBlocks := true
  fPowNoRetargeting := false
  nPowTargetSpacing := 10 * 60
  nPowTargetTimespan := 14 * 24 * 60 * 60
  nFastRetargetPeriod := unset.nFastRetargetPeriod
  nFastRetargetUntilHeight := unset.nFastRetargetUntilHeight

/-- `consensus` of `SigNetParams`. -/
def sigNetConsensus : Params where
  hashGenesisBlock := unset.hashGenesisBlock
  nSubsidyHalvingInterval := 210000
  scriptFlagExceptions := []
  bip34Height := 1
  bip34Hash := uint256S 0
  bip65Height := 1
  bip66Height := 1
  csvHeight := 1
  segwitHeight := 1
  signetBlocks := true
  powLimit := uint256S 0x7fffffffffffffffffffffffffffffffffffffffffffffffffffffffffffffff
  fPowAllowMinDifficultyBlocks := false
  fPowNoRetargeting := false
  nPowTargetSpacing := 10 * 60
  nPowTargetTimespan := 14 * 24 * 60 * 60
  nFastRetargetPeriod := unset.nFastRetargetPeriod
  nFastRetargetUntilHeight := unset.nFastRetargetUntilHeight

/-- `consensus` of `CRegTestParams` without command line overrides. -/
def regTestConsensus : Params where
  hashGenesisBlock := unset.hashGenesisBlock
  nSubsidyHalvingInterval := 150
  scriptFlagExceptions := []
  bip34Height := 1
  bip34Hash := uint256S 0
  bip65Height := 1
  bip66Height := 1
  csvHeight := 1
  segwitHeight := 0
  signetBlocks := false
  powLimit := uint256S 0x7fffffffffffffffffffffffffffffffffffffffffffffffffffffffffffffff
  fPowAllowMinDifficultyBlocks := true
  fPowNoRetargeting := true
  nPowTargetSpacing := 10 * 60
  nPowTargetTimespan := 14 * 24 * 60 * 60
  nFastRetargetPeriod := unset.nFastRetargetPeriod
  nFastRetargetUntilHeight := unset.nFastRetargetUntilHeight

def mainBase58Prefix : Base58Type → Bytes
  | .pubkeyAddress => [25]
  | .scriptAddress => [85]
  | .secretKey => [153]
  | .extPublicKey => [0x04, 0xBB, 0x61, 0xB0]
  | .extSecretKey => [0x04, 0xBB, 0x5A, 0xC0]

def testBase58Prefix : Base58Type → Bytes
  | .pubkeyAddress => [111]
  | .scriptAddress => [196]
  | .secretKey => [239]
  | .extPublicKey => [0x04, 0x35, 0x87, 0xCF]
  | .extSecretKey => [0x04, 0x35, 0x83, 0x94]

def mainParams : CChainParams where
  chainType := .main
  consensus := mainConsensus
  genesis :=
    { nVersion := 1#32
      hashMerkleRoot := uint256S 0xec73889053e9e804e45018ca6640a9b00e7378da75b5cc351d25992b762f1105
      nTime := 1778351316#32
      nBits := 0x1f00ffff#32
      nNonce := 19717#32 }
  base58Prefix := mainBase58Prefix
  bech32Hrp := Bytes.ofString "bb"

def testNetParams : CChainParams where
  chainType := .testnet
  consensus := testNetConsensus unset
  genesis :=
    { nVersion := 1#32
      hashMerkleRoot := unset.genesisMerkleRoot
      nTime := 1758070800#32
      nBits := 0x207fffff#32
      nNonce := 0#32 }
  base58Prefix := testBase58Prefix
  bech32Hrp := Bytes.ofString "tb"

def sigNetParams : CChainParams where
  chainType := .signet
  consensus := sigNetConsensus unset
  genesis :=
    { nVersion := 1#32
      hashMerkleRoot := unset.genesisMerkleRoot
      nTime := 1762086000#32
      nBits := 0x1f0ffff0#32
      nNonce := 269765#32 }
  base58Prefix := testBase58Prefix
  bech32Hrp := Bytes.ofString "tb"

def regTestParams : CChainParams where
  chainType := .regtest
  consensus := regTestConsensus unset
  genesis :=
    { nVersion := 1#32
      hashMerkleRoot := unset.genesisMerkleRoot
      nTime := 1296688602#32
      nBits := 0x207fffff#32
      nNonce := 2#32 }
  base58Prefix := testBase58Prefix
  bech32Hrp := Bytes.ofString "bcrt"

def createChainParams : ChainType → CChainParams
  | .main => mainParams
  | .testnet => testNetParams unset
  | .signet => sigNetParams unset
  | .regtest => regTestParams unset

end Bitcoboost
