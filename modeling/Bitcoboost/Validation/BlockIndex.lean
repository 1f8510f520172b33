import Bitcoboost.Chain.Ancestors
import Bitcoboost.Lib.Greatest
import Mathlib.Data.Prod.Lex

/-!
# The block index of a node

The entries of `m_block_index`, the active chain, the candidates for its tip and the blocks that
wait for an ancestor. `CheckBlockIndex` is a structure of its assertions, for a node that has not
pruned and has no snapshot. The fields of a `CBlockIndex` that change are an `IndexEntry`;
`m_best_invalid`, `m_best_header` and skip pointers, which nothing here reads, are left out.
-/

namespace Bitcoboost

/-- The levels of `BLOCK_VALID_MASK`. -/
inductive BlockValid where
  | unknown
  | reserved
  | tree
  | transactions
  | chain
  | scripts
deriving DecidableEq

/-- The value of a level. -/
def BlockValid.rank : BlockValid → Nat
  | unknown => 0
  | reserved => 1
  | tree => 2
  | transactions => 3
  | chain => 4
  | scripts => 5

/-- The fields of a `CBlockIndex` that change. -/
structure IndexEntry where
  nTx : Nat := 0
  nChainTx : Nat := 0
  valid : BlockValid := .unknown
  haveData : Bool := false
  haveUndo : Bool := false
  failedValid : Bool := false
  failedChild : Bool := false
  nSequenceId : Int := 0
deriving DecidableEq

namespace IndexEntry

variable (e : IndexEntry)

/-- `BLOCK_FAILED_MASK`. -/
def failed : Bool := e.failedValid || e.failedChild

def haveNumChainTxs : Bool := e.nChainTx ≠ 0

def isValid (nUpTo : BlockValid) : Bool := !e.failed && nUpTo.rank ≤ e.valid.rank

def raiseValidity (nUpTo : BlockValid) : IndexEntry :=
  if e.failed then e else if e.valid.rank < nUpTo.rank then { e with valid := nUpTo } else e

end IndexEntry

/-- What a node has that does not change: where its entries are in memory, what `ConnectBlock`
says about a block on top of its ancestors, and its genesis block. -/
structure ChainEnv where
  address : CBlockIndex → Nat
  address_injective : Function.Injective address
  connectBlock : CBlockIndex → Bool
  getHash : CBlockHeader → Uint256
  hashGenesisBlock : Uint256

/-- `Chainstate`, with what it uses of `ChainstateManager` and `BlockManager`. The signals
`BlockChecked` are a log of the blocks that were connected, and whether they could be. -/
structure Chainstate where
  blockIndex : List CBlockIndex
  entry : CBlockIndex → IndexEntry
  tip : CBlockIndex
  setBlockIndexCandidates : List CBlockIndex
  blocksUnlinked : List (CBlockIndex × CBlockIndex) := []
  failedBlocks : List CBlockIndex := []
  nBlockSequenceId : Int := 1
  nBlockReverseSequenceId : Int := -1
  nLastPreciousChainwork : ArithUint256 := 0
  blockChecked : List (CBlockIndex × Bool) := []

/-- `CBlockIndexWorkComparator`. -/
def workComparator (env : ChainEnv) (entry : CBlockIndex → IndexEntry)
    (pa pb : CBlockIndex) : Bool :=
  if pa.nChainWork > pb.nChainWork then false
  else if pa.nChainWork < pb.nChainWork then true
  else if (entry pa).nSequenceId < (entry pb).nSequenceId then false
  else if (entry pa).nSequenceId > (entry pb).nSequenceId then true
  else if env.address pa < env.address pb then false
  else if env.address pa > env.address pb then true
  else false

namespace Chainstate

/-- An entry with other fields. -/
def setEntry (s : Chainstate) (pindex : CBlockIndex) (e : IndexEntry) : Chainstate :=
  { s with entry := Function.update s.entry pindex e }

def insertCandidate (s : Chainstate) (pindex : CBlockIndex) : Chainstate :=
  if pindex ∈ s.setBlockIndexCandidates then s
  else { s with setBlockIndexCandidates := pindex :: s.setBlockIndexCandidates }

def eraseCandidate (s : Chainstate) (pindex : CBlockIndex) : Chainstate :=
  { s with setBlockIndexCandidates := s.setBlockIndexCandidates.filter (· ≠ pindex) }

end Chainstate

/-! ## `CheckBlockIndex` -/

/-- An entry and its ancestors, the genesis block first. -/
def CBlockIndex.path : CBlockIndex → List CBlockIndex
  | .genesis header => [.genesis header]
  | .next pprev header => pprev.path ++ [.next pprev header]

namespace Chainstate

variable (env : ChainEnv) (s : Chainstate)

/-- The oldest ancestor of an entry for which a condition holds. -/
def first (p : IndexEntry → Bool) (pindex : CBlockIndex) : Option CBlockIndex :=
  pindex.path.find? fun a => p (s.entry a)

/-- The oldest ancestor, without the genesis block, that is not valid up to a level. -/
def firstNotValid (level : BlockValid) (pindex : CBlockIndex) : Option CBlockIndex :=
  pindex.path.find? fun a => a.pprev.isSome && (s.entry a).valid.rank < level.rank

variable (pindex : CBlockIndex)

def firstInvalid : Option CBlockIndex :=
  s.first IndexEntry.failedValid pindex

def firstMissing : Option CBlockIndex :=
  s.first (fun e => !e.haveData) pindex

def firstNeverProcessed : Option CBlockIndex :=
  s.first (fun e => e.nTx = 0) pindex

/-- The assertions of `CheckBlockIndex` about an entry. -/
@[mk_iff]
structure CheckEntry (pindex : CBlockIndex) : Prop where
  genesisHash : pindex.pprev = none → env.getHash pindex.header = env.hashGenesisBlock
  genesisChain : pindex.pprev = none → pindex = s.tip.root
  sequenceId : (s.entry pindex).haveNumChainTxs = false → (s.entry pindex).nSequenceId ≤ 0
  haveData : (!(s.entry pindex).haveData) = decide ((s.entry pindex).nTx = 0)
  missing : s.firstMissing pindex = s.firstNeverProcessed pindex
  haveUndo : (s.entry pindex).haveUndo = true → (s.entry pindex).haveData = true
  transactions : BlockValid.transactions.rank ≤ (s.entry pindex).valid.rank ↔
    0 < (s.entry pindex).nTx
  processed : s.firstNeverProcessed pindex = none ↔ (s.entry pindex).haveNumChainTxs = true
  transactionsValid : s.firstNotValid .transactions pindex = none ↔
    (s.entry pindex).haveNumChainTxs = true
  chainWork : ∀ pprev, pindex.pprev = some pprev → pindex.nChainWork ≥ pprev.nChainWork
  treeValid : s.firstNotValid .tree pindex = none
  chainValid : BlockValid.chain.rank ≤ (s.entry pindex).valid.rank →
    s.firstNotValid .chain pindex = none
  scriptsValid : BlockValid.scripts.rank ≤ (s.entry pindex).valid.rank →
    s.firstNotValid .scripts pindex = none
  failed : s.firstInvalid pindex = none → (s.entry pindex).failed = false
  chainTx : (s.entry pindex).nChainTx =
        ((s.entry pindex).nTx + (pindex.pprev.map fun pprev => (s.entry pprev).nChainTx).getD 0) %
        2 ^ 32 ∨
      (s.entry pindex).nChainTx = 0 ∧ (s.entry pindex).nTx = 0 ∨
      ∃ pprev, pindex.pprev = some pprev ∧ (s.entry pindex).nChainTx = 0 ∧
        (s.entry pprev).nChainTx = 0
  candidate : workComparator env s.entry pindex s.tip = false →
    s.firstNeverProcessed pindex = none →
    s.firstInvalid pindex = none → s.firstMissing pindex = none ∨ pindex = s.tip →
      pindex ∈ s.setBlockIndexCandidates
  notCandidate : workComparator env s.entry pindex s.tip = true ∨
    s.firstNeverProcessed pindex ≠ none → pindex ∉ s.setBlockIndexCandidates
  unlinked : ∀ pprev, pindex.pprev = some pprev → (s.entry pindex).haveData = true →
    s.firstNeverProcessed pindex ≠ none →
    s.firstInvalid pindex = none → (pprev, pindex) ∈ s.blocksUnlinked
  unlinkedData : (s.entry pindex).haveData = false → ∀ pprev, pindex.pprev = some pprev →
    (pprev, pindex) ∉ s.blocksUnlinked
  unlinkedMissing : s.firstMissing pindex = none → ∀ pprev, pindex.pprev = some pprev →
    (pprev, pindex) ∉ s.blocksUnlinked
  neverPruned : pindex.pprev.isSome → (s.entry pindex).haveData = true →
    s.firstNeverProcessed pindex = none → s.firstMissing pindex = none

/-- `CheckBlockIndex`: the entries are the tree below one genesis block, and each of them is in
order. -/
@[mk_iff]
structure CheckBlockIndex : Prop where
  oneGenesis : (s.blockIndex.filter fun pindex => pindex.pprev = none).length = 1
  traversed : ∀ pindex ∈ s.blockIndex, ∀ a ∈ pindex.path, a ∈ s.blockIndex
  entries : ∀ pindex ∈ s.blockIndex, s.CheckEntry env pindex

/-- A condition on the previous entry, if there is one. -/
instance decidableForallPrev (o : Option CBlockIndex)
    (P : CBlockIndex → Prop) [∀ pprev, Decidable (P pprev)] :
    Decidable (∀ pprev, o = some pprev → P pprev) :=
  match o with
  | none => isTrue nofun
  | some pprev => decidable_of_iff (P pprev) ⟨fun h _ heq => Option.some.inj heq ▸ h, fun h =>
      h pprev rfl⟩

instance decidableExistsPrev (o : Option CBlockIndex)
    (P : CBlockIndex → Prop) [∀ pprev, Decidable (P pprev)] :
    Decidable (∃ pprev, o = some pprev ∧ P pprev) :=
  match o with
  | none => isFalse nofun
  | some pprev => decidable_of_iff (P pprev) ⟨fun h => ⟨pprev, rfl, h⟩, fun ⟨_, heq, h⟩ =>
      Option.some.inj heq ▸ h⟩

set_option synthInstance.maxSize 512 in
instance (pindex : CBlockIndex) : Decidable (s.CheckEntry env pindex) :=
  decidable_of_iff' _ (checkEntry_iff env s pindex)

instance : Decidable (s.CheckBlockIndex env) := decidable_of_iff' _ (checkBlockIndex_iff env s)

end Chainstate

end Bitcoboost
