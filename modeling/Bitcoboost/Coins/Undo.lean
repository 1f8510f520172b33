import Bitcoboost.Coins.Compressor

/-!
# Coins on disk

The format of `coins.h` for the coins of the database, the one of `undo.h` for the coins that a
block spends, and the record that `UndoWriteToDisk` and `UndoReadFromDisk` of
`node/blockstorage.cpp` keep of these with its checksum.
-/

namespace Bitcoboost

open List

/-- `CTxUndo`: the coins that the inputs of a transaction spend. -/
abbrev CTxUndo := List Coin

/-- `CBlockUndo`: the undo data of all transactions but the coinbase. -/
abbrev CBlockUndo := List CTxUndo

/-- `Coin::Serialize`. `none` is the assertion that the coin is unspent. -/
def Coin.serialize (coin : Coin) : Option Bytes :=
  if coin.isSpent then none
  else some (writeVarInt 32 ((coin.nHeight * 2 + coin.fCoinBase.toNat) % 2 ^ 32) ++
    serializeTxOut coin.out)

def Coin.unserialize (s : Bytes) : Option (Coin × Bytes) := do
  let (code, s) ← readVarInt 32 s
  let (out, s) ← unserializeTxOut s
  some (⟨out, code % 2 = 1, code / 2⟩, s)

/-- `TxInUndoFormatter::Ser`. -/
def serializeTxInUndo (txout : Coin) : Bytes :=
  writeVarInt 32 ((txout.nHeight * 2 + txout.fCoinBase.toNat) % 2 ^ 32)
    -- required to maintain compatibility with older undo format
    ++ (if txout.nHeight > 0 then [0] else [])
    ++ serializeTxOut txout.out

/-- `TxInUndoFormatter::Unser`. -/
def unserializeTxInUndo (s : Bytes) : Option (Coin × Bytes) := do
  let (nCode, s) ← readVarInt 32 s
  let nHeight := nCode / 2
  let s ← if nHeight > 0 then (readVarInt 32 s).map Prod.snd else some s
  let (out, s) ← unserializeTxOut s
  some (⟨out, nCode % 2 = 1, nHeight⟩, s)

/-- `Serialize` of a `CBlockUndo`. -/
def CBlockUndo.serialize (blockundo : CBlockUndo) : Bytes :=
  serializeVector (serializeVector serializeTxInUndo) blockundo

/-- `Unserialize` of a `CBlockUndo`. -/
def CBlockUndo.unserialize (s : Bytes) : Option (CBlockUndo × Bytes) :=
  unserializeVector (unserializeVector unserializeTxInUndo) s

/-- What `UndoWriteToDisk` writes at the position that the block index keeps: the undo data
and its checksum, which also covers the hash of the previous block. -/
def undoWriteToDisk (hash : Bytes → Uint256) (hashBlock : Uint256)
    (blockundo : CBlockUndo) : Bytes :=
  blockundo.serialize ++ (hash (hashBlock.data ++ blockundo.serialize)).data

/-- `UndoReadFromDisk` from that position on. The checksum is over the bytes that are read. -/
def undoReadFromDisk (hash : Bytes → Uint256) (hashPrevBlock : Uint256) (filein : Bytes) :
    Option CBlockUndo := do
  let (blockundo, rest) ← CBlockUndo.unserialize filein
  let (hashChecksum, _) ← readBytes 32 rest
  if hashChecksum ≠ (hash (hashPrevBlock.data ++
    filein.take (filein.length - rest.length))).data then none
  else some blockundo

/-! ## Reading back -/

/-- The format has room for the coin. -/
structure Coin.Storable (coin : Coin) : Prop where
  nValue : moneyRange coin.out.nValue = true
  scriptPubKey : coin.out.scriptPubKey.length ≤ maxScriptSize
  nHeight : coin.nHeight < 2 ^ 31

variable {coin : Coin}

/-- The number that both formats start with is read back as the height and the flag. -/
theorem readVarInt_code (h : coin.nHeight < 2 ^ 31) {s : Bytes} :
    ∃ code, readVarInt 32 (writeVarInt 32 ((coin.nHeight * 2 + coin.fCoinBase.toNat) % 2 ^ 32) ++
      s) = some (code, s) ∧
      code / 2 = coin.nHeight ∧ decide (code % 2 = 1) = coin.fCoinBase := by
  have hflag : coin.fCoinBase.toNat ≤ 1 := Bool.toNat_le coin.fCoinBase
  have hcode : coin.nHeight * 2 + coin.fCoinBase.toNat < 2 ^ 32 := by omega
  refine ⟨coin.nHeight * 2 + coin.fCoinBase.toNat, ?_, by omega, ?_⟩
  · rw [Nat.mod_eq_of_lt hcode, readVarInt_write (by decide) hcode]
  · cases coin.fCoinBase with
    | false => simp
    | true => simp

theorem Coin.unserialize_serialize (h : coin.Storable) (hunspent : coin.isSpent = false)
    (s : Bytes) :
    ∃ bytes, coin.serialize = some bytes ∧ Coin.unserialize (bytes ++ s) = some (coin, s) := by
  refine ⟨_, if_neg (by rw [hunspent]; exact Bool.false_ne_true), ?_⟩
  obtain ⟨code, hread, hheight, hflag⟩ := readVarInt_code h.nHeight
  rw [unserialize, append_assoc, hread]
  simp [unserializeTxOut_serialize h.nValue h.scriptPubKey, hheight, hflag]

theorem unserializeTxInUndo_serialize (h : coin.Storable) (s : Bytes) :
    unserializeTxInUndo (serializeTxInUndo coin ++ s) = some (coin, s) := by
  have hdummy (s : Bytes) : readVarInt 32 (0 :: s) = some (0, s) :=
    CompressorLemmas.readVarInt_tag (by decide) s
  rw [serializeTxInUndo, unserializeTxInUndo, append_assoc, append_assoc]
  obtain ⟨code, hread, hheight, hflag⟩ :=
    readVarInt_code h.nHeight
  rw [hread]
  simp only [Option.bind_eq_bind, Option.bind_some, hheight, hflag]
  split
  next => simp [hdummy, unserializeTxOut_serialize h.nValue h.scriptPubKey]
  next => simp [unserializeTxOut_serialize h.nValue h.scriptPubKey]

/-- A coin that is unspent is read back from the database and from undo data, with no byte more
than what was written. The keys of the templates are those of the curve, so nothing is assumed
of decompression. -/
theorem coin_storage_lossless (coin : Coin) (h : coin.Storable) (hunspent : coin.isSpent = false)
    (rest : Bytes) :
    (∃ bytes, coin.serialize = some bytes ∧ Coin.unserialize (bytes ++ rest) = some (coin, rest)) ∧
      unserializeTxInUndo (serializeTxInUndo coin ++ rest) = some (coin, rest) :=
  ⟨Coin.unserialize_serialize h hunspent rest, unserializeTxInUndo_serialize h rest⟩

/-- A script of the size of a key hash script that ends in another opcode. -/
def almostKeyHash : CScript :=
  [OpcodeType.opDup.toByte, OpcodeType.opHash160.toByte, 20] ++ List.replicate 20 7
  ++ [OpcodeType.opEqual.toByte, OpcodeType.opChecksig.toByte]

theorem coin_storage_lossless_almostKeyHash :
    unserializeTxInUndo (serializeTxInUndo ⟨⟨5000, almostKeyHash⟩, true, 100⟩ ++ [1]) =
      some (⟨⟨5000, almostKeyHash⟩, true, 100⟩, [1]) :=
  (coin_storage_lossless ⟨⟨5000, almostKeyHash⟩, true, 100⟩ ⟨by decide, by decide, by decide⟩
    (by decide) [1]).2

theorem CBlockUndo.unserialize_serialize {blockundo : CBlockUndo}
    (hlen : blockundo.length ≤ maxSize)
    (hundo : ∀ txundo ∈ blockundo, txundo.length ≤ maxSize ∧ ∀ coin ∈ txundo, coin.Storable)
    (s : Bytes) : CBlockUndo.unserialize (blockundo.serialize ++ s) = some (blockundo, s) :=
  unserializeVector_serialize (fun txundo htx s => unserializeVector_serialize
    (fun coin hcoin s => unserializeTxInUndo_serialize ((hundo txundo htx).2 coin hcoin) s)
    (hundo txundo htx).1 s) hlen s

variable {hash : Bytes → Uint256}

theorem undoReadFromDisk_write_append {hashPrevBlock : Uint256} {blockundo : CBlockUndo}
    (hlen : blockundo.length ≤ maxSize)
    (hundo : ∀ txundo ∈ blockundo, txundo.length ≤ maxSize ∧ ∀ coin ∈ txundo, coin.Storable)
    (rest : Bytes) :
    undoReadFromDisk hash hashPrevBlock (undoWriteToDisk hash hashPrevBlock blockundo ++ rest) =
      some blockundo := by
  have hchecksum : (hash (hashPrevBlock.data ++ blockundo.serialize)).data.length = 32 :=
    BaseBlob.length_data _
  rw [undoReadFromDisk, undoWriteToDisk, append_assoc, CBlockUndo.unserialize_serialize hlen hundo]
  simp [readBytes_append hchecksum rest]

theorem undoReadFromDisk_write {hashPrevBlock : Uint256} {blockundo : CBlockUndo}
    (hlen : blockundo.length ≤ maxSize)
    (hundo : ∀ txundo ∈ blockundo, txundo.length ≤ maxSize ∧ ∀ coin ∈ txundo, coin.Storable) :
    undoReadFromDisk hash hashPrevBlock (undoWriteToDisk hash hashPrevBlock blockundo) =
      some blockundo := by
  have hread := @undoReadFromDisk_write_append hash hashPrevBlock blockundo hlen hundo []
  rwa [append_nil] at hread

end Bitcoboost
