import Bitcoboost.Lib.Ascending
import Bitcoboost.Lib.Worklist
import Bitcoboost.Mempool.Entry

/-!
# The memory pool

`CTxMemPool` of `txmempool.cpp`: the entries by txid, what spends which output, the walks over
ancestors and descendants and `addUnchecked`. The bookkeeping of memory, the statistics and the
notifications are left out. A `setEntries` is a set of txids. The entries are a function that is
read at the txids of the pool only.
-/

namespace Bitcoboost.Mempool

variable {nBytesPerSigOp : Nat}

/-- `kernel::MemPoolLimits`, four `int64_t`. -/
structure Limits where
  ancestorCount : BitVec 64
  ancestorSizeVbytes : BitVec 64
  descendantCount : BitVec 64
  descendantSizeVbytes : BitVec 64

def Limits.noLimits : Limits :=
  let noLimit := BitVec.ofInt 64 (2 ^ 63 - 1)
  ⟨noLimit, noLimit, noLimit, noLimit⟩

/-- `CTxMemPool`. `mapDeltas` is zero where the map of the source has no element. -/
structure CTxMemPool (nBytesPerSigOp : Nat) where
  txids : Finset Txid
  entry : Txid → CTxMemPoolEntry nBytesPerSigOp
  mapNextTx : Finset (COutPoint × Txid)
  mapDeltas : Txid → CAmount
  totalTxSize : Int
  mTotalFee : CAmount
  mLimits : Limits

namespace CTxMemPool

variable (pool : CTxMemPool nBytesPerSigOp)

/-- `mapTx.modify` for each of a set of entries. What becomes of an entry depends on that
entry only, so that it does not matter in which order they are changed. -/
def modify (txids : Finset Txid) (f : CTxMemPoolEntry nBytesPerSigOp →
    CTxMemPoolEntry nBytesPerSigOp) : CTxMemPool nBytesPerSigOp :=
  { pool with entry := fun txid => if txid ∈ txids then f (pool.entry txid) else pool.entry txid }

/-- `mapTx.modify` for each of a set of entries, where `none` is a failed assertion. -/
def modifyChecked (txids : Finset Txid)
    (f : CTxMemPoolEntry nBytesPerSigOp → Option (CTxMemPoolEntry nBytesPerSigOp)) :
    Option (CTxMemPool nBytesPerSigOp) :=
  if ∀ txid ∈ txids, (f (pool.entry txid)).isSome then
    some (pool.modify txids fun e => (f e).getD e)
  else none

def getIterSet (hashes : List Txid) : Finset Txid := hashes.toFinset ∩ pool.txids

/-! ## Ancestors and descendants -/

/-- `uint256::ToString`. -/
def hashString (hash : Uint256) : String :=
  String.ofList (hash.data.reverse.flatMap fun byte =>
    [Nat.digitChar (byte.toNat / 16), Nat.digitChar (byte.toNat % 16)])

def limitText (limit : BitVec 64) : String := " [limit: " ++ toString limit.toInt ++ "]"

/-- The checks of `CalculateAncestorsAndCheckLimits` on an ancestor that it has visited.
The count is compared with the limit as a `uint64_t`. -/
def checkStage (limits : Limits) (entrySize : Int) (entryCount : Nat) (totalSizeWithAncestors : Int)
    (stage : Txid) : Except String Unit :=
  let withDescendants := (pool.entry stage).withDescendants
  if withDescendants.size + entrySize > limits.descendantSizeVbytes.toInt then
    .error ("exceeds descendant size limit for tx " ++ hashString stage ++
      limitText limits.descendantSizeVbytes)
  else if withDescendants.count + entryCount > limits.descendantCount.toNat then
    .error ("too many descendants for tx " ++ hashString stage ++ limitText limits.descendantCount)
  else if totalSizeWithAncestors > limits.ancestorSizeVbytes.toInt then
    .error ("exceeds ancestor size limit" ++ limitText limits.ancestorSizeVbytes)
  else .ok ()

/-- The loop of `CalculateAncestorsAndCheckLimits` over the parents of an ancestor. -/
def stageParents (limits : Limits) (entryCount : Nat) (ancestors : Finset Txid) :
    List Txid → Finset Txid → Except String (Finset Txid)
  | [], staged => .ok staged
  | parent :: parents, staged =>
    let staged := if parent ∈ ancestors then staged else insert parent staged
    if staged.card + ancestors.card + entryCount > limits.ancestorCount.toNat then
      .error ("too many unconfirmed ancestors" ++ limitText limits.ancestorCount)
    else stageParents limits entryCount ancestors parents staged

def ancestorsLoop (limits : Limits) (entrySize : Int) (entryCount : Nat) :
    Nat → Finset Txid → Finset Txid → Int → Except String (Finset Txid)
  | 0, _, ancestors, _ => .ok ancestors
  | fuel + 1, staged, ancestors, totalSizeWithAncestors =>
    if h : staged.Nonempty then do
      let stage := staged.min' h
      let totalSizeWithAncestors := totalSizeWithAncestors + (pool.entry stage).getTxSize
      pool.checkStage limits entrySize entryCount totalSizeWithAncestors stage
      let staged ← stageParents limits entryCount (insert stage ancestors)
        (Ascending.elements (pool.entry stage).parents) (staged.erase stage)
      ancestorsLoop limits entrySize entryCount fuel staged
        (insert stage ancestors) totalSizeWithAncestors
    else .ok ancestors

/-- `CalculateAncestorsAndCheckLimits`. Every entry is visited once at most. -/
def calculateAncestorsAndCheckLimits (entrySize : Int) (entryCount : Nat)
    (stagedAncestors : Finset Txid) (limits : Limits) : Except String (Finset Txid) :=
  pool.ancestorsLoop limits entrySize entryCount pool.txids.card stagedAncestors ∅ entrySize

/-- The loop of `CalculateMemPoolAncestors` over the inputs. -/
def stageInputs (limits : Limits) : List Txid → Finset Txid → Except String (Finset Txid)
  | [], staged => .ok staged
  | hash :: hashes, staged =>
    if hash ∈ pool.txids then
      if (insert hash staged).card + 1 > limits.ancestorCount.toNat then
        .error ("too many unconfirmed parents" ++ limitText limits.ancestorCount)
      else stageInputs limits hashes (insert hash staged)
    else stageInputs limits hashes staged

/-- `CalculateMemPoolAncestors` with `fSearchForParents`. -/
def calculateMemPoolAncestors (e : NewTx nBytesPerSigOp) (limits : Limits) :
    Except String (Finset Txid) := do
  let stagedAncestors ← pool.stageInputs limits e.prevoutHashes ∅
  pool.calculateAncestorsAndCheckLimits e.getTxSize 1 stagedAncestors limits

variable (txid : Txid)

/-- `AssumeCalculateMemPoolAncestors` of an entry of the pool without limits and without
`fSearchForParents`. After an error it goes on with no ancestors. -/
def assumeCalculateMemPoolAncestors : Finset Txid :=
  match pool.calculateAncestorsAndCheckLimits (pool.entry txid).getTxSize 1
    (pool.entry txid).parents .noLimits with
  | .ok ancestors => ancestors
  | .error _ => ∅

def calculateDescendants (setDescendants : Finset Txid) : Finset Txid :=
  Worklist.traverse (fun x => (pool.entry x).children) pool.txids.card
    ({txid} \ setDescendants) setDescendants

/-! ## Adding an entry -/

/-- `mapTx.emplace`, which leaves an entry with the same txid alone. -/
def emplace (e : CTxMemPoolEntry nBytesPerSigOp) : CTxMemPool nBytesPerSigOp :=
  if txid ∈ pool.txids then pool
  else { pool with txids := insert txid pool.txids, entry := Function.update pool.entry txid e }

def updateChild (parents : Finset Txid) (child : Txid) (add : Bool) : CTxMemPool nBytesPerSigOp :=
  pool.modify parents fun e =>
    { e with children := if add then insert child e.children else e.children.erase child }

def updateParent (children : Finset Txid) (parent : Txid) (add : Bool) :
    CTxMemPool nBytesPerSigOp :=
  pool.modify children fun e =>
    { e with parents := if add then insert parent e.parents else e.parents.erase parent }

def updateAncestorsOf (add : Bool) (txid : Txid) (setAncestors : Finset Txid) :
    Option (CTxMemPool nBytesPerSigOp) :=
  let e := pool.entry txid
  (pool.updateChild e.parents txid add).modifyChecked setAncestors
    (·.updateDescendantState (if add then e.descendantWeight else -e.descendantWeight))

def updateEntryForAncestors (setAncestors : Finset Txid) : Option (CTxMemPool nBytesPerSigOp) :=
  pool.modifyChecked {txid} (·.updateAncestorState (∑ a ∈ setAncestors, (pool.entry a).weight))

/-- `mapNextTx.insert`, which leaves an outpoint that is spent alone. -/
def insertNext (mapNextTx : Finset (COutPoint × Txid)) (prevout : COutPoint) (txid : Txid) :
    Finset (COutPoint × Txid) :=
  if ∃ next ∈ mapNextTx, next.1 = prevout then mapNextTx else insert (prevout, txid) mapNextTx

/-- `addUnchecked` up to the links of the parents: the entry is in the map, with what
`PrioritiseTransaction` added to its fee, and it has its parents. -/
def insertEntry (e : NewTx nBytesPerSigOp) : CTxMemPool nBytesPerSigOp :=
  let pool := pool.emplace txid (.new e)
  let delta := pool.mapDeltas txid
  let pool := if delta ≠ 0 then pool.modify {txid} (·.updateModifiedFee delta) else pool
  let pool := { pool with
    mapNextTx :=
      e.tx.vin.foldl (fun mapNextTx (txin : CTxIn) =>
        insertNext mapNextTx txin.prevout txid) pool.mapNextTx }
  let parents := pool.getIterSet e.prevoutHashes
  pool.modify {txid} fun entry => { entry with parents := entry.parents ∪ parents }

/-- `addUnchecked`. The txid, which the source caches in the transaction, is a parameter. -/
def addUnchecked (e : NewTx nBytesPerSigOp) (setAncestors : Finset Txid) :
    Option (CTxMemPool nBytesPerSigOp) := do
  let pool := pool.insertEntry txid e
  let pool ← pool.updateAncestorsOf true txid setAncestors
  let pool ← pool.updateEntryForAncestors txid setAncestors
  some { pool with
    totalTxSize := pool.totalTxSize + e.getTxSize, mTotalFee := pool.mTotalFee + e.nFee }

end CTxMemPool

end Bitcoboost.Mempool
