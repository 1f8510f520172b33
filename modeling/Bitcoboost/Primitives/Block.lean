import Bitcoboost.Primitives.Transaction

/-!
# Blocks and merkle roots

The classes of `primitives/block.h` and the functions of `consensus/merkle.cpp`.
The header hash (X16RV2, which also reads the previous hash on its own) and the
double SHA256 of the merkle tree are parameters.
-/

namespace Bitcoboost

/-- `CBlockHeader`. The defaults are those of `SetNull`. -/
structure CBlockHeader where
  nVersion : BitVec 32 := 0#32
  hashPrevBlock : Uint256 := nullUint256
  hashMerkleRoot : Uint256 := nullUint256
  nTime : BitVec 32 := 0#32
  nBits : BitVec 32 := 0#32
  nNonce : BitVec 32 := 0#32
deriving DecidableEq, Repr

def CBlockHeader.serialize (header : CBlockHeader) : Bytes :=
  serializeUint32 header.nVersion ++ header.hashPrevBlock.data ++ header.hashMerkleRoot.data
    ++ serializeUint32 header.nTime ++ serializeUint32 header.nBits ++ serializeUint32 header.nNonce

/-- `CBlockHeader::GetHash`. `hashX16RV2` is the function of that name, of the
80 header bytes and the previous block hash. -/
def CBlockHeader.getHash (hashX16RV2 : Bytes → Uint256 → Uint256)
    (header : CBlockHeader) : Uint256 :=
  hashX16RV2 header.serialize header.hashPrevBlock

/-- `CBlock`, with the flags that cache its checks. -/
structure CBlock extends CBlockHeader where
  vtx : List CTransaction
  fChecked : Bool := false
  mCheckedWitnessCommitment : Bool := false
  mCheckedMerkleRoot : Bool := false
deriving DecidableEq, Repr

/-- `Serialize` of a block with the parameter `TX_NO_WITNESS` or `TX_WITH_WITNESS`. -/
def CBlock.serialize (block : CBlock) (fAllowWitness : Bool) : Bytes :=
  block.toCBlockHeader.serialize ++ serializeVector
    (CTransaction.serialize · fAllowWitness) block.vtx

/-! ## Merkle roots -/

/-- The comparison of neighbours in one round of `ComputeMerkleRoot`. -/
def merkleMutation : List Uint256 → Bool
  | a :: b :: hashes => a = b || merkleMutation hashes
  | _ => false

/-- One round of `ComputeMerkleRoot`: an odd last hash is paired with itself. -/
def merkleRound (hash : Bytes → Uint256) : List Uint256 → List Uint256
  | [] => []
  | [a] => [hash (a.data ++ a.data)]
  | a :: b :: hashes => hash (a.data ++ b.data) :: merkleRound hash hashes

/-- `ComputeMerkleRoot`, with the mutation flag. Every round halves the list, so
its length is fuel enough. -/
def merkleLoop (hash : Bytes → Uint256) : Nat → List Uint256 → Bool → Uint256 × Bool
  | fuel + 1, a :: b :: hashes, mutation =>
    merkleLoop hash fuel (merkleRound hash (a :: b :: hashes))
      (mutation || merkleMutation (a :: b :: hashes))
  | _, a :: _, mutation => (a, mutation)
  | _, [], mutation => (nullUint256, mutation)

def computeMerkleRoot (hash : Bytes → Uint256) (hashes : List Uint256) : Uint256 × Bool :=
  merkleLoop hash hashes.length hashes false

def blockMerkleRoot (hash : Bytes → Uint256) (block : CBlock) : Uint256 × Bool :=
  computeMerkleRoot hash (block.vtx.map (CTransaction.getHash hash))

/-- `BlockWitnessMerkleRoot`: the witness hash of the coinbase is zero. -/
def blockWitnessMerkleRoot (hash : Bytes → Uint256) (block : CBlock) : Uint256 :=
  (computeMerkleRoot hash (nullUint256 :: block.vtx.tail.map (CTransaction.getWitnessHash hash))).1

end Bitcoboost
