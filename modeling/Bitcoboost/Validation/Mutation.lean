import Bitcoboost.Lib.MerkleTree
import Bitcoboost.Node.Miner

/-!
# Mutated copies of a block

`CheckWitnessMalleation`, `ContextualCheckBlock` and `IsBlockMutated` of `validation.cpp`. A block
that arrives under the header of a valid one, and that `IsBlockMutated` lets pass, has the
transactions of the valid block with all their witnesses, or the blocks show two texts with one
hash or a text that hashes to zero.
-/

namespace Bitcoboost

open ExceptBind ConnectBlockLemmas CTransaction List Bool Option

/-! ## The checks -/

variable (block : CBlock)

/-- The stack that `CheckWitnessMalleation` reads the nonce from. The assertion is that
there is a transaction and that it has an input. -/
def coinbaseWitness : Option (List Bytes) := do
  let tx ← block.vtx.head?
  let txin ← tx.vin.head?
  some txin.scriptWitness

/-- The 32 bytes after the header of the commitment in the output `commitpos`. -/
def committedHash (commitpos : Nat) : Option Bytes := do
  let tx ← block.vtx.head?
  let out ← tx.vout[commitpos]?
  some ((out.scriptPubKey.drop 6).take 32)

/-- `CheckWitnessMalleation` of a block without a commitment. -/
def checkNoWitness : Except BlockFailure Unit :=
  invalidIf (block.vtx.any CTransaction.hasWitness) .mutated "unexpected-witness"

def checkWitnessMalleation (man : ChainstateManager) (block : CBlock)
    (expectWitnessCommitment : Bool) : Except BlockFailure Unit :=
  if expectWitnessCommitment then
    if block.mCheckedWitnessCommitment then .ok ()
    else
      match getWitnessCommitmentIndex block with
      | some commitpos => do
        let witnessStack ← orAbort (coinbaseWitness block)
        invalidIf (witnessStack.length ≠ 1 || (witnessStack.headD []).length ≠ 32) .mutated
          "bad-witness-nonce-size"
        let hashWitness :=
          man.hash ((blockWitnessMerkleRoot man.hash block).data ++ witnessStack.headD [])
        invalidIf (some hashWitness.data ≠ committedHash block commitpos) .mutated
          "bad-witness-merkle-match"
      | none => checkNoWitness block
  else checkNoWitness block

/-- The height of the block after `pindexPrev`. -/
def heightAfter (pindexPrev : Option CBlockIndex) : Nat :=
  pindexPrev.elim 0 fun pindex => pindex.nHeight + 1

def getBlockWeight : Nat :=
  (block.serialize false).length * (witnessScaleFactor - 1) + (block.serialize true).length

/-- The check of `ContextualCheckBlock` that the coinbase starts with the height. A block
without a coinbase input is not passed to it. -/
def checkCoinbaseHeight (nHeight : Nat) : Except BlockFailure Unit := do
  let coinbase ← orAbort block.vtx.head?
  let txin ← orAbort coinbase.vin.head?
  let expect := pushInt64 nHeight
  invalidIf (txin.scriptSig.take expect.length ≠ expect) .consensus "bad-cb-height"

/-- `nLockTimeCutoff` of `ContextualCheckBlock`: the median time past from the height on
where BIP113 is in force, which has a previous block. -/
def lockTimeCutoff (man : ChainstateManager) (block : CBlock) (pindexPrev : Option CBlockIndex) :
    Except BlockFailure Int :=
  if heightAfter pindexPrev ≥ man.params.consensus.csvHeight then
    orAbort (pindexPrev.map CBlockIndex.getMedianTimePast)
  else .ok block.nTime.toNat

def contextualCheckBlock (man : ChainstateManager) (block : CBlock)
    (pindexPrev : Option CBlockIndex) : Except BlockFailure Unit := do
  let nHeight := heightAfter pindexPrev
  let nLockTimeCutoff ← lockTimeCutoff man block pindexPrev
  invalidIf (block.vtx.any fun tx => !isFinalTx tx nHeight nLockTimeCutoff) .consensus
    "bad-txns-nonfinal"
  (if nHeight ≥ man.params.consensus.bip34Height then checkCoinbaseHeight block nHeight else .ok ())
  checkWitnessMalleation man block (nHeight ≥ man.params.consensus.segwitHeight)
  invalidIf (getBlockWeight block > maxBlockWeight) .consensus "bad-blk-weight"

/-- Whether a check returns true. -/
def passes (check : Except BlockFailure Unit) : Bool := check matches .ok _

def isBlockMutated (man : ChainstateManager) (block : CBlock) (checkWitnessRoot : Bool) : Bool :=
  if !passes (checkMerkleRoot man block) then true
  else if !(block.vtx.head?.any CTransaction.isCoinBase) then
    block.vtx.any fun tx => (tx.serialize false).length = 64
  else !passes (checkWitnessMalleation man block checkWitnessRoot)

/-! ## The flags of a block

The flags live in memory only. A function sets one after its own check, so a set flag
says that the check passes. -/

/-- The block as it is read from a peer or from disk, with no check made. -/
def CBlock.unflagged : CBlock :=
  { block with fChecked := false, mCheckedWitnessCommitment := false, mCheckedMerkleRoot := false }

/-- Every flag that is set was set by its check. -/
structure CBlock.FlagsHonest (man : ChainstateManager) (block : CBlock) : Prop where
  fChecked : block.fChecked = true → checkBlock man block.unflagged true true = .ok ()
  mCheckedWitnessCommitment :
    block.mCheckedWitnessCommitment = true →
    checkWitnessMalleation man block.unflagged true = .ok ()
  mCheckedMerkleRoot : block.mCheckedMerkleRoot = true →
    checkMerkleRoot man block.unflagged = .ok ()

/-! ## What a block hashes -/

variable (hash : Bytes → Uint256)

def merkleNode (a b : Uint256) : Uint256 := hash (a.data ++ b.data)

def txidLeaves (block : CBlock) : List Uint256 :=
  block.vtx.map (CTransaction.getHash hash)

def wtxidLeaves (block : CBlock) : List Uint256 :=
  nullUint256 :: block.vtx.tail.map (CTransaction.getWitnessHash hash)

/-- The byte strings that are hashed for the merkle root, the witness merkle root and the
commitment of a block. -/
inductive HashInput (hash : Bytes → Uint256) (block : CBlock) : Bytes → Prop
  | txid {tx : CTransaction} : tx ∈ block.vtx → HashInput hash block (tx.serialize false)
  | merkle {a b : Uint256} : MerkleTree.Joined (merkleNode hash) (txidLeaves hash block) a b →
    HashInput hash block (a.data ++ b.data)
  | wtxid {tx : CTransaction} : tx ∈ block.vtx.tail → HashInput hash block (tx.serialize true)
  | witnessMerkle {a b : Uint256} : MerkleTree.Joined (merkleNode hash)
    (wtxidLeaves hash block) a b → HashInput hash block (a.data ++ b.data)
  | commitment {nonce : Bytes} : coinbaseWitness block = some [nonce] →
    HashInput hash block ((blockWitnessMerkleRoot hash block).data ++ nonce)

/-- Two different inputs that two blocks hash have the same hash. -/
def HashCollision (b b' : CBlock) : Prop :=
  ∃ x y, HashInput hash b x ∧ HashInput hash b' y ∧ x ≠ y ∧ hash x = hash y

theorem HashCollision.symm {hash : Bytes → Uint256} {b b' : CBlock} (h : HashCollision hash b b') :
    HashCollision hash b' b := by
  obtain ⟨x, y, hx, hy, hne, heq⟩ := h
  exact ⟨y, x, hy, hx, hne.symm, heq.symm⟩

/-- An input that a block hashes has the hash zero, which is the root of no transactions. -/
def ZeroPreimage (block : CBlock) : Prop :=
  ∃ x, HashInput hash block x ∧ hash x = nullUint256

/-- The first transaction does not serialize to the 64 bytes of a pair of hashes. -/
def CBlock.NoPairCoinbase : Prop :=
  ∀ tx, block.vtx.head? = some tx → (tx.serialize false).length ≠ 64

/-- The transactions of a block fit their serialization. -/
def CBlock.Representable : Prop := ∀ tx ∈ block.vtx, tx.Representable

namespace MutationLemmas

open MerkleTree TransactionLemmas

variable {man : ChainstateManager} {hash : Bytes → Uint256} {b b' : CBlock} {tx tx' : CTransaction}
  {fCheckPOW : Bool}

/-! ## Merkle roots as roots of trees -/

theorem merkleRound_eq_level : ∀ hashes, merkleRound hash hashes = level (merkleNode hash) hashes
  | [] => rfl
  | [_] => rfl
  | _ :: _ :: hashes => congrArg (_ :: ·) (merkleRound_eq_level hashes)

theorem merkleMutation_iff : ∀ hashes, merkleMutation hashes = true ↔ Twins hashes
  | [] => ⟨fun h => (by cases h), False.elim⟩
  | [_] => ⟨fun h => (by cases h), False.elim⟩
  | a :: b :: hashes => by
    rw [merkleMutation, or_eq_true, decide_eq_true_iff, merkleMutation_iff hashes]
    rfl

theorem merkleLoop_spec {fuel : Nat} : ∀ (hashes : List Uint256) (mutation : Bool), hashes ≠ [] →
    hashes.length ≤ fuel → ∃ d, Root (merkleNode hash) d hashes
    (merkleLoop hash fuel hashes mutation).1 ∧
      ((merkleLoop hash fuel hashes mutation).2 = false → mutation = false ∧
        NoTwins (merkleNode hash) hashes) := by
  induction fuel with
  | zero =>
    exact fun hashes _ hne hle => absurd (List.length_eq_zero_iff.mp (Nat.le_zero.mp hle)) hne
  | succ fuel ih =>
    intro hashes mutation hne hle
    match hashes with
    | [] => cases hne rfl
    | [a] => exact ⟨0, .leaf a, fun h => ⟨h, .leaf a⟩⟩
    | a :: b :: hashes =>
      have hlong : 1 < (a :: b :: hashes).length := Nat.succ_lt_succ (Nat.succ_pos _)
      have hshort : (level (merkleNode hash) (a :: b :: hashes)).length ≤ fuel := by
        rw [length_level]
        omega
      obtain ⟨d, hroot, hflag⟩ := ih (level (merkleNode hash) (a :: b :: hashes))
        (mutation || merkleMutation (a :: b :: hashes)) (cons_ne_nil _ _) hshort
      rw [merkleLoop, merkleRound_eq_level]
      refine ⟨d + 1, .step hlong hroot, fun h => ?_⟩
      obtain ⟨hmutation, hnoTwins⟩ := hflag h
      obtain ⟨hbefore, hround⟩ := Bool.or_eq_false_iff.mp hmutation
      refine ⟨hbefore, .step hlong (fun htwins => ?_) hnoTwins⟩
      rw [(merkleMutation_iff _).mpr htwins] at hround
      cases hround

theorem computeMerkleRoot_spec {hashes : List Uint256} (hne : hashes ≠ []) :
    ∃ d, Root (merkleNode hash) d hashes (computeMerkleRoot hash hashes).1 ∧
      ((computeMerkleRoot hash hashes).2 = false → NoTwins (merkleNode hash) hashes) := by
  obtain ⟨d, hroot, hflag⟩ := merkleLoop_spec hashes false hne (Nat.le_refl _)
  exact ⟨d, hroot, fun h => (hflag h).2⟩

theorem checkMerkleRoot_unflagged (hne : b.vtx ≠ [])
    (h : checkMerkleRoot man b.unflagged = .ok ()) :
    ∃ d, Root (merkleNode man.hash) d (txidLeaves man.hash b) b.hashMerkleRoot ∧
      NoTwins (merkleNode man.hash) (txidLeaves man.hash b) := by
  obtain ⟨_, hroot, hmutated⟩ := bind_ok.mp h
  have hleaves : txidLeaves man.hash b ≠ [] := fun hnil => hne (List.map_eq_nil_iff.mp hnil)
  obtain ⟨d, htree, hflag⟩ := computeMerkleRoot_spec hleaves
  have hroot : b.hashMerkleRoot = (computeMerkleRoot man.hash (txidLeaves man.hash b)).1 :=
    not_not.mp (of_decide_eq_false (invalidIf_ok.mp hroot))
  rw [hroot]
  exact ⟨d, htree, hflag (invalidIf_ok.mp hmutated)⟩

/-! ## Collisions -/

theorem append_data_inj {x x' : Uint256} {y y' : Bytes} (h : x.data ++ y = x'.data ++ y') :
    x = x' ∧ y = y' := by
  obtain ⟨hx, hy⟩ := append_inj h (x.length_data.trans x'.length_data.symm)
  exact ⟨BaseBlob.ext hx, hy⟩

theorem collision_of_collide {l l' : List Uint256} (h : Collide (merkleNode hash) l l')
    (hl : ∀ {x y}, Joined (merkleNode hash) l x y → HashInput hash b (x.data ++ y.data))
    (hl' : ∀ {x y}, Joined (merkleNode hash) l' x y → HashInput hash b' (x.data ++ y.data)) :
    HashCollision hash b b' := by
  obtain ⟨x, y, x', y', hxy, hxy', hne, heq⟩ := h
  refine ⟨_, _, hl hxy, hl' hxy', fun hbytes => hne ?_, heq⟩
  obtain ⟨hx, hy⟩ := append_data_inj hbytes
  rw [hx, BaseBlob.ext hy]

/-- Lists with the same hashes are the same, or two of their elements collide. -/
theorem map_eq_or_collision {α : Type} {f : α → Bytes} : ∀ l l' : List α,
    l.map (fun a => hash (f a)) = l'.map (fun a => hash (f a)) →
    l.map f = l'.map f ∨ ∃ a ∈ l, ∃ a' ∈ l', f a ≠ f a' ∧ hash (f a) = hash (f a')
  | [], [], _ => .inl rfl
  | [], _ :: _, h => by cases h
  | _ :: _, [], h => by cases h
  | a :: l, a' :: l', h => by
    obtain ⟨hhead, htail⟩ := List.cons.inj h
    by_cases heq : f a = f a'
    · rcases map_eq_or_collision l l' htail with hrest | ⟨x, hx, y, hy, hne⟩
      · exact .inl (by rw [map_cons, map_cons, heq, hrest])
      · exact .inr ⟨x, .tail _ hx, y, .tail _ hy, hne⟩
    · exact .inr ⟨a, .head _, a', .head _, heq, hhead⟩

/-! ## Transaction ids -/

structure Passed (man : ChainstateManager) (block : CBlock) : Prop where
  merkle : checkMerkleRoot man block.unflagged = .ok ()
  witness : block.vtx.head?.any CTransaction.isCoinBase = true →
    checkWitnessMalleation man block.unflagged true = .ok ()

theorem length_pair (x y : Uint256) : (x.data ++ y.data).length = 64 := by
  rw [length_append, x.length_data, y.length_data]

/-- Trees of different heights: the first transaction id of the lower one is an inner node
of the higher one. -/
theorem collision_of_lt {d d' : Nat} {r : Uint256}
    (hb : Root (merkleNode hash) d (txidLeaves hash b) r)
    (hb' : Root (merkleNode hash) d' (txidLeaves hash b') r) (hlt : d < d')
    (hsize : b.NoPairCoinbase) : HashCollision hash b b' := by
  rcases hb.head_joined_or_collide hb' hlt with ⟨x, y, hxy, hhead⟩ | hcollide
  · rw [txidLeaves, List.head?_map, map_eq_some_iff] at hhead
    obtain ⟨tx, htx, heq⟩ := hhead
    refine ⟨_, _, .txid (mem_of_head? htx), .merkle hxy, fun hbytes => hsize tx htx ?_, heq⟩
    rw [hbytes, length_pair]
  · exact collision_of_collide hcollide .merkle .merkle

theorem txids_eq_or_collision (h : Passed man b) (h' : Passed man b') (hne : b.vtx ≠ [])
    (hne' : b'.vtx ≠ []) (hheader : b.hashMerkleRoot = b'.hashMerkleRoot) (hsize : b.NoPairCoinbase)
    (hsize' : b'.NoPairCoinbase) :
    txidLeaves man.hash b = txidLeaves man.hash b' ∨ HashCollision man.hash b b' := by
  obtain ⟨d, hroot, hnoTwins⟩ := checkMerkleRoot_unflagged hne h.merkle
  obtain ⟨d', hroot', hnoTwins'⟩ := checkMerkleRoot_unflagged hne' h'.merkle
  rw [← hheader] at hroot'
  rcases Nat.lt_trichotomy d d' with hlt | rfl | hgt
  · exact .inr (collision_of_lt hroot hroot' hlt hsize)
  · rcases hroot.eq_or_collide hroot' hnoTwins hnoTwins' with heq | hcollide
    · exact .inl heq
    · exact .inr (collision_of_collide hcollide .merkle .merkle)
  · exact .inr (collision_of_lt hroot' hroot hgt hsize').symm

/-- A copy without transactions has the root zero. -/
theorem zeroPreimage_of_empty (h : Passed man b) (h' : Passed man b') (hne : b.vtx ≠ [])
    (hnil : b'.vtx = []) (hheader : b.hashMerkleRoot = b'.hashMerkleRoot) :
    ZeroPreimage man.hash b := by
  obtain ⟨_, hroot', _⟩ := bind_ok.mp h'.merkle
  have hzero : (blockMerkleRoot man.hash b'.unflagged).1 = nullUint256 := by
    have hvtx : b'.unflagged.vtx = [] := hnil
    rw [blockMerkleRoot, hvtx]
    rfl
  have hroot' : b'.hashMerkleRoot = (blockMerkleRoot man.hash b'.unflagged).1 :=
    not_not.mp (of_decide_eq_false (invalidIf_ok.mp hroot'))
  obtain ⟨d, hroot, -⟩ := checkMerkleRoot_unflagged hne h.merkle
  rw [hheader, hroot', hzero] at hroot
  rcases hroot.leaf_or_joined with hleaf | ⟨x, y, hxy, heq⟩
  · obtain ⟨tx, htx, hhash⟩ := List.mem_map.mp (hleaf ▸ mem_singleton_self nullUint256)
    exact ⟨_, .txid htx, hhash⟩
  · exact ⟨_, .merkle hxy, heq⟩

theorem strip_eq_of_serialize : ∀ {l l' : List CTransaction}, (∀ tx ∈ l, tx.Representable) →
    (∀ tx ∈ l', tx.Representable) → l.map (CTransaction.serialize · false) =
    l'.map (CTransaction.serialize · false) → l.map CTransaction.strip = l'.map CTransaction.strip
  | [], [], _, _, _ => rfl
  | [], _ :: _, _, _, h => by cases h
  | _ :: _, [], _, _, h => by cases h
  | tx :: l, tx' :: l', hl, hl', h => by
    obtain ⟨hhead, htail⟩ := List.cons.inj h
    rw [map_cons, map_cons, (hl tx (.head _)).strip_eq_of_serialize (hl' tx' (.head _)) hhead,
      strip_eq_of_serialize (fun tx htx => hl tx (.tail _ htx)) (fun tx htx =>
      hl' tx (.tail _ htx)) htail]

/-- Two blocks with the same header have the same transactions without their witnesses. -/
theorem strip_eq_or_collision (h : Passed man b) (h' : Passed man b') (hne : b.vtx ≠ [])
    (hne' : b'.vtx ≠ []) (hheader : b.hashMerkleRoot = b'.hashMerkleRoot) (hsize : b.NoPairCoinbase)
    (hsize' : b'.NoPairCoinbase) (hrep : b.Representable) (hrep' : b'.Representable) :
    b.vtx.map CTransaction.strip = b'.vtx.map CTransaction.strip ∨ HashCollision man.hash b b' := by
  rcases txids_eq_or_collision h h' hne hne' hheader hsize hsize' with htxids | hcollision
  · rcases map_eq_or_collision _ _ htxids with hbytes | ⟨tx, htx, tx', htx', hdiff⟩
    · exact .inl (strip_eq_of_serialize hrep hrep' hbytes)
    · exact .inr ⟨_, _, .txid htx, .txid htx', hdiff⟩
  · exact .inr hcollision

/-! ## Witnesses -/

/-- The serialization with witnesses tells transactions apart that differ in witnesses only. -/
theorem eq_of_strip_of_serialize (h : tx.Representable) (h' : tx'.Representable)
    (hstrip : tx.strip = tx'.strip) (heq : tx.serialize true = tx'.serialize true) : tx = tx' := by
  have hlen := length_vin_of_strip hstrip
  rcases Nat.eq_zero_or_pos tx.vin.length with hzero | hpos
  · refine eq_of_strip hstrip ?_
    rw [eq_nil_of_length_eq_zero hzero, eq_nil_of_length_eq_zero (hlen.symm.trans hzero)]
  · exact h.eq_of_serialize h' hpos (hlen ▸ hpos) heq

theorem eq_of_map_strip : ∀ {l l' : List CTransaction}, (∀ tx ∈ l, tx.Representable) →
    (∀ tx ∈ l', tx.Representable) → l.map CTransaction.strip = l'.map CTransaction.strip →
    l.map (CTransaction.serialize · true) = l'.map (CTransaction.serialize · true) → l = l'
  | [], [], _, _, _, _ => rfl
  | [], _ :: _, _, _, h, _ => by cases h
  | _ :: _, [], _, _, h, _ => by cases h
  | tx :: l, tx' :: l', hl, hl', hstrip, hbytes => by
    obtain ⟨hstrip, hstrips⟩ := List.cons.inj hstrip
    obtain ⟨hbytes, hrest⟩ := List.cons.inj hbytes
    rw [eq_of_strip_of_serialize (hl tx (.head _)) (hl' tx' (.head _)) hstrip hbytes,
      eq_of_map_strip (fun tx htx => hl tx (.tail _ htx)) (fun tx htx =>
      hl' tx (.tail _ htx)) hstrips hrest]

/-- A block without witnesses is its block without witnesses. -/
theorem map_strip_of_checkNoWitness (h : checkNoWitness b.unflagged = .ok ()) :
    b.vtx.map CTransaction.strip = b.vtx := by
  have hnone := List.any_eq_false.mp (invalidIf_ok.mp h)
  conv_rhs => rw [← map_id b.vtx]
  exact map_congr_left fun tx htx => strip_of_not_hasWitness (Bool.eq_false_iff.mpr (hnone tx htx))

theorem checkWitnessMalleation_commitment {commitpos : Nat}
    (hpos : getWitnessCommitmentIndex b = some commitpos)
    (h : checkWitnessMalleation man b.unflagged true = .ok ()) :
    ∃ nonce, coinbaseWitness b = some [nonce] ∧
      some (man.hash ((blockWitnessMerkleRoot man.hash b).data ++ nonce)).data =
        committedHash b commitpos := by
  have hpos : getWitnessCommitmentIndex b.unflagged = some commitpos := hpos
  rw [checkWitnessMalleation, if_pos rfl, if_neg (by exact false_ne_true), hpos] at h
  obtain ⟨stack, hstack, h⟩ := bind_ok.mp h
  obtain ⟨_, hsize, h⟩ := bind_ok.mp h
  have hstack : coinbaseWitness b = some stack := orAbort_ok.mp hstack
  obtain ⟨hone, _⟩ := Bool.or_eq_false_iff.mp (invalidIf_ok.mp hsize)
  obtain ⟨nonce, rfl⟩ := List.length_eq_one_iff.mp (not_not.mp (of_decide_eq_false hone))
  exact ⟨nonce, hstack, not_not.mp (of_decide_eq_false (invalidIf_ok.mp h))⟩

theorem wtxids_eq_or_collision (hlen : b.vtx.length = b'.vtx.length)
    (hroot : blockWitnessMerkleRoot man.hash b = blockWitnessMerkleRoot man.hash b') :
    wtxidLeaves man.hash b = wtxidLeaves man.hash b' ∨ HashCollision man.hash b b' := by
  have htrees (b : CBlock) :
      ∃ d, Root (merkleNode man.hash) d (wtxidLeaves man.hash b)
      (blockWitnessMerkleRoot man.hash b) := by
    obtain ⟨d, htree, _⟩ := computeMerkleRoot_spec (cons_ne_nil _ _)
    exact ⟨d, htree⟩
  obtain ⟨d, htree⟩ := htrees b
  obtain ⟨d', htree'⟩ := htrees b'
  rw [← hroot] at htree'
  rcases htree.eq_or_collide_of_length htree' (by simp [wtxidLeaves, hlen]) with heq | hcollide
  · exact .inl heq
  · exact .inr (collision_of_collide hcollide .witnessMerkle .witnessMerkle)

/-! ## The two blocks -/

/-- The coinbase has one input, so its nonce is all its witness. -/
theorem coinbase_eq (hcoinbase : tx.isCoinBase = true) (hstrip : tx.strip = tx'.strip)
    (hnonce : (tx.vin.head?.map CTxIn.scriptWitness) = tx'.vin.head?.map CTxIn.scriptWitness) :
    tx = tx' := by
  refine eq_of_strip hstrip ?_
  have hlen := length_vin_of_strip hstrip
  rw [isCoinBase] at hcoinbase
  match hvin : tx.vin, hvin' : tx'.vin with
  | [txin], [txin'] =>
    rw [hvin, hvin'] at hnonce
    rw [map_singleton, map_singleton, Option.some.inj hnonce]
  | [], _ =>
    rw [hvin] at hcoinbase
    cases hcoinbase
  | _ :: _ :: _, _ =>
    rw [hvin] at hcoinbase
    cases hcoinbase
  | [_], [] =>
    rw [hvin, hvin'] at hlen
    cases hlen
  | [_], _ :: _ :: _ =>
    rw [hvin, hvin'] at hlen
    cases hlen

theorem isCoinBase_strip (tx : CTransaction) : tx.strip.isCoinBase = tx.isCoinBase := by
  rw [isCoinBase, isCoinBase, strip]
  rcases tx.vin with _ | ⟨_, _ | ⟨_, _⟩⟩
  · rfl
  · rfl
  · rfl

theorem commitment_eq_or_collision {vtx vtx' : List CTransaction} {nonce nonce' : Bytes}
    (hb : b.vtx = tx :: vtx)
    (hb' : b'.vtx = tx' :: vtx') (hrep : b.Representable) (hrep' : b'.Representable)
    (hcoinbase : tx.isCoinBase = true) (hhead : tx.strip = tx'.strip)
    (htail : vtx.map CTransaction.strip = vtx'.map CTransaction.strip)
    (hnonce : coinbaseWitness b = some [nonce]) (hnonce' : coinbaseWitness b' = some [nonce'])
    (heq : man.hash ((blockWitnessMerkleRoot man.hash b).data ++ nonce) =
      man.hash ((blockWitnessMerkleRoot man.hash b').data ++ nonce')) :
    b.vtx = b'.vtx ∨ HashCollision man.hash b b' := by
  by_cases hbytes : (blockWitnessMerkleRoot man.hash b).data ++ nonce =
    (blockWitnessMerkleRoot man.hash b').data ++ nonce'
  · obtain ⟨hroot, rfl⟩ := append_data_inj hbytes
    have hlen : b.vtx.length = b'.vtx.length := by
      have := congrArg List.length htail
      rw [length_map, length_map] at this
      rw [hb, hb', length_cons, length_cons, this]
    rcases wtxids_eq_or_collision hlen hroot with hwtxids | hcollision
    · have hwtxids := (List.cons.inj hwtxids).2
      rw [hb, hb', tail_cons, tail_cons] at hwtxids
      rw [funext (getWitnessHash_eq man.hash)] at hwtxids
      rcases map_eq_or_collision _ _ hwtxids with hbytes | ⟨x, hx, y, hy, hdiff⟩
      · left
        have hstack :
            tx.vin.head?.map CTxIn.scriptWitness = tx'.vin.head?.map CTxIn.scriptWitness := by
          have := hnonce.trans hnonce'.symm
          rw [coinbaseWitness, coinbaseWitness, hb, hb'] at this
          rw [map_eq_bind, map_eq_bind]
          exact this
        rw [hb, hb', coinbase_eq hcoinbase hhead hstack,
          eq_of_map_strip (fun tx htx => hrep tx (hb ▸ .tail _ htx))
          (fun tx htx => hrep' tx (hb' ▸ .tail _ htx)) htail hbytes]
      · exact .inr ⟨_, _, .wtxid (by rwa [hb]), .wtxid (by rwa [hb']), hdiff⟩
    · exact .inr hcollision
  · exact .inr ⟨_, _, .commitment hnonce, .commitment hnonce', hbytes, heq⟩

theorem witness_eq_or_collision (h : Passed man b) (h' : Passed man b')
    (hcoinbase : b.vtx.head?.any CTransaction.isCoinBase = true)
    (hstrip : b.vtx.map CTransaction.strip = b'.vtx.map CTransaction.strip)
    (hrep : b.Representable) (hrep' : b'.Representable) :
    b.vtx = b'.vtx ∨ HashCollision man.hash b b' := by
  match hb : b.vtx, hb' : b'.vtx with
  | [], _ =>
    rw [hb] at hcoinbase
    cases hcoinbase
  | _ :: _, [] =>
    rw [hb, hb'] at hstrip
    cases hstrip
  | tx :: vtx, tx' :: vtx' =>
    have hwitness := h.witness hcoinbase
    rw [hb] at hcoinbase
    have hcoinbase : tx.isCoinBase = true := hcoinbase
    rw [hb, hb'] at hstrip
    obtain ⟨hhead, htail⟩ := List.cons.inj hstrip
    have hcoinbase' :
      tx'.isCoinBase = true := by rw [← isCoinBase_strip, ← hhead, isCoinBase_strip, hcoinbase]
    have hwitness' := h'.witness (by rw [hb']; exact hcoinbase')
    have hvout : tx.strip.vout = tx'.strip.vout := by rw [hhead]
    have hvout : tx.vout = tx'.vout := hvout
    have hindex : getWitnessCommitmentIndex b = getWitnessCommitmentIndex b' := by
      simp [getWitnessCommitmentIndex, hb, hb', hvout]
    rw [← hb, ← hb']
    cases hpos : getWitnessCommitmentIndex b with
    | some commitpos =>
      obtain ⟨nonce, hnonce, hhash⟩ := checkWitnessMalleation_commitment hpos hwitness
      obtain ⟨nonce', hnonce', hhash'⟩ :=
        checkWitnessMalleation_commitment (hindex ▸ hpos) hwitness'
      have hcommitted : committedHash b commitpos = committedHash b' commitpos := by
        simp [committedHash, hb, hb', hvout]
      refine commitment_eq_or_collision hb hb' hrep hrep' hcoinbase hhead htail hnonce hnonce'
        (BaseBlob.ext ?_)
      exact Option.some.inj (hhash.trans (hcommitted.trans hhash'.symm))
    | none =>
      left
      have hnone {b : CBlock} (hpos : getWitnessCommitmentIndex b = none)
          (hwitness : checkWitnessMalleation man b.unflagged true = .ok ()) :
            b.vtx.map strip = b.vtx := by
        have hpos : getWitnessCommitmentIndex b.unflagged = none := hpos
        rw [checkWitnessMalleation, if_pos rfl, if_neg (by exact false_ne_true), hpos] at hwitness
        exact map_strip_of_checkNoWitness hwitness
      rw [← hnone hpos hwitness, ← hnone (hindex ▸ hpos) hwitness', hb, hb', map_cons, map_cons,
        hhead, htail]

/-! ## From the checks -/

theorem passes_iff {check : Except BlockFailure Unit} : passes check = true ↔ check = .ok () := by
  cases check with
  | error e => exact ⟨fun h => (by cases h), fun h => (by cases h)⟩
  | ok u => exact ⟨fun _ => rfl, fun _ => rfl⟩

theorem checkMerkleRoot_honest (hflags : b.FlagsHonest man) (h : checkMerkleRoot man b = .ok ()) :
    checkMerkleRoot man b.unflagged = .ok () := by
  cases hflag : b.mCheckedMerkleRoot with
  | true => exact hflags.mCheckedMerkleRoot hflag
  | false =>
    rw [checkMerkleRoot, hflag] at h
    exact h

theorem checkWitnessMalleation_honest (hflags : b.FlagsHonest man)
    (h : checkWitnessMalleation man b true = .ok ()) :
    checkWitnessMalleation man b.unflagged true = .ok () := by
  cases hflag : b.mCheckedWitnessCommitment with
  | true => exact hflags.mCheckedWitnessCommitment hflag
  | false =>
    rw [checkWitnessMalleation, hflag] at h
    exact h

theorem checkBlock_unchecked (hflag : b.fChecked = false)
    (h : checkBlock man b fCheckPOW true = .ok ()) :
    checkMerkleRoot man b = .ok () ∧ b.vtx.head?.any CTransaction.isCoinBase = true := by
  rw [checkBlock, hflag, if_neg Bool.false_ne_true] at h
  obtain ⟨_, _, h⟩ := bind_ok.mp h
  obtain ⟨_, _, h⟩ := bind_ok.mp h
  obtain ⟨_, hmerkle, h⟩ := bind_ok.mp h
  obtain ⟨_, _, h⟩ := bind_ok.mp h
  obtain ⟨_, hcoinbase, _⟩ := bind_ok.mp h
  exact ⟨hmerkle, (not_eq_false' _).mp (invalidIf_ok.mp hcoinbase)⟩

theorem checkBlock_honest (hflags : b.FlagsHonest man)
    (h : checkBlock man b fCheckPOW true = .ok ()) :
    checkMerkleRoot man b.unflagged = .ok () ∧ b.vtx.head?.any CTransaction.isCoinBase = true := by
  cases hflag : b.fChecked with
  | true => exact checkBlock_unchecked rfl (hflags.fChecked hflag)
  | false =>
    obtain ⟨hmerkle, hcoinbase⟩ := checkBlock_unchecked hflag h
    exact ⟨checkMerkleRoot_honest hflags hmerkle, hcoinbase⟩

theorem contextualCheckBlock_witness {pindexPrev : Option CBlockIndex}
    (hsegwit : (heightAfter pindexPrev : Int) ≥ man.params.consensus.segwitHeight)
    (h : contextualCheckBlock man b pindexPrev = .ok ()) :
    checkWitnessMalleation man b true = .ok () := by
  obtain ⟨_, _, h⟩ := bind_ok.mp h
  obtain ⟨_, _, h⟩ := bind_ok.mp h
  obtain ⟨_, _, h⟩ := bind_ok.mp h
  obtain ⟨_, hwitness, _⟩ := bind_ok.mp h
  rwa [decide_eq_true hsegwit] at hwitness

theorem passed_of_not_mutated (hflags : b.FlagsHonest man) (h : isBlockMutated man b true = false) :
    Passed man b := by
  rw [isBlockMutated] at h
  split at h
  · cases h
  next hmerkle =>
    have hmerkle := passes_iff.mp ((not_eq_false' _).mp (Bool.eq_false_iff.mpr hmerkle))
    refine ⟨checkMerkleRoot_honest hflags hmerkle, fun hcoinbase => ?_⟩
    rw [hcoinbase] at h
    exact checkWitnessMalleation_honest hflags (passes_iff.mp ((not_eq_false' _).mp h))

end MutationLemmas

open MutationLemmas

/-- A block that comes under the header of a valid block, and that is not found to be mutated, has
the transactions of the valid block with all witnesses, unless the two exhibit a collision. A copy
without transactions takes a preimage of zero. -/
theorem mutatedCopy_eq_or_collision (man : ChainstateManager) (b b' : CBlock) (fCheckPOW : Bool)
    (pindexPrev : Option CBlockIndex) (hheader : b'.toCBlockHeader = b.toCBlockHeader)
    (hflags : b.FlagsHonest man) (hflags' : b'.FlagsHonest man)
    (hrep : b.Representable) (hrep' : b'.Representable)
    (hcheck : checkBlock man b fCheckPOW true = .ok ())
    (hcontext : contextualCheckBlock man b pindexPrev = .ok ())
    (hsegwit : (heightAfter pindexPrev : Int) ≥ man.params.consensus.segwitHeight)
    (hmutated : isBlockMutated man b' true = false)
    (hsize : b.NoPairCoinbase) (hsize' : b'.NoPairCoinbase) :
    b'.vtx = b.vtx ∨ HashCollision man.hash b b' ∨ (b'.vtx = [] ∧ ZeroPreimage man.hash b) := by
  obtain ⟨hmerkle, hcoinbase⟩ := checkBlock_honest hflags hcheck
  have hpassed : Passed man b := ⟨hmerkle, fun _ =>
    checkWitnessMalleation_honest hflags (contextualCheckBlock_witness hsegwit hcontext)⟩
  have hpassed' := passed_of_not_mutated hflags' hmutated
  have hroot : b.hashMerkleRoot = b'.hashMerkleRoot := by rw [hheader]
  have hfirst : b.vtx ≠ [] := by
    intro hnil
    rw [hnil] at hcoinbase
    cases hcoinbase
  by_cases hne : b'.vtx = []
  · exact .inr (.inr ⟨hne, zeroPreimage_of_empty hpassed hpassed' hfirst hne hroot⟩)
  rcases strip_eq_or_collision hpassed hpassed' hfirst hne hroot hsize hsize' hrep hrep' with
    hstrip | hcollision
  · rcases witness_eq_or_collision hpassed hpassed' hcoinbase hstrip hrep hrep' with
      heq | hcollision
    · exact .inl heq.symm
    · exact .inr (.inl hcollision)
  · exact .inr (.inl hcollision)

/-- The first block after genesis, with the root zero and only a coinbase. -/
def zeroRootBlock (extraNonce : UInt8) : CBlock where
  nBits := 0x1f00ffff#32
  vtx := [⟨[⟨⟨nullUint256, COutPoint.nullIndex⟩, pushInt64 1 ++ [extraNonce], sequenceFinal, []⟩],
    [⟨0, []⟩], 2#32, 0#32⟩]

namespace MutationLemmas

variable {extraNonce : UInt8}

theorem zeroRootBlock_flagsHonest : (zeroRootBlock extraNonce).FlagsHonest man :=
  ⟨fun h => (by cases h), fun h => (by cases h), fun h => (by cases h)⟩

theorem zeroRootBlock_representable : (zeroRootBlock extraNonce).Representable := by
  intro tx htx
  cases List.mem_singleton.mp htx
  have hscriptSig : (pushInt64 1 ++ [extraNonce]).length < 2 ^ 64 := (by decide : 2 < 2 ^ 64)
  exact ⟨by simp, by simpa using hscriptSig, by simp, by simp [IsInt64], by simp, by simp⟩

theorem zeroRootBlock_noPairCoinbase : (zeroRootBlock extraNonce).NoPairCoinbase := by
  intro tx htx
  cases htx
  exact (by decide : 62 ≠ 64)

end MutationLemmas

/-- Two blocks under one header, where everything hashes to zero. -/
theorem mutatedCopy_eq_or_collision_zero :
    (zeroRootBlock 1).vtx ≠ (zeroRootBlock 0).vtx ∧
      isBlockMutated constantManager (zeroRootBlock 1) true = false ∧
      HashCollision constantManager.hash (zeroRootBlock 0) (zeroRootBlock 1) := by
  have hne : (zeroRootBlock 1).vtx ≠ (zeroRootBlock 0).vtx := by decide
  refine ⟨hne, by decide, ?_⟩
  have h := mutatedCopy_eq_or_collision constantManager (zeroRootBlock 0) (zeroRootBlock 1) true
    (some (.genesis mainParams.genesis)) rfl zeroRootBlock_flagsHonest zeroRootBlock_flagsHonest
    zeroRootBlock_representable zeroRootBlock_representable (by decide +kernel) (by decide +kernel)
    (by decide) (by decide) zeroRootBlock_noPairCoinbase zeroRootBlock_noPairCoinbase
  rcases h with heq | hcollision | ⟨hnil, -⟩
  · exact absurd heq hne
  · exact hcollision
  · cases hnil

end Bitcoboost
