import Bitcoboost.Lib.Greatest
import Bitcoboost.Mempool.Pool
import Bitcoboost.Validation.ConnectBlock

/-!
# Choosing the transactions of a block

`BlockAssembler::addPackageTxs` of `node/miner.cpp` takes the entry with the best fee rate,
counted with its ancestors that are not in the block yet, and puts it into the block together
with them. `mapModifiedTx` keeps the totals without what is in the block.

The fee rates are compared as doubles (`roundToDouble`). The sums over the block are integers
here; the size of a package is what the source converts to `uint64_t`.
-/

namespace Bitcoboost.Mempool

open Ascending

variable {nBytesPerSigOp : Nat}

/-! ## The block -/

/-- `BlockAssembler::Options`. Of `blockMinFeeRate` only `GetFee` is used. -/
structure Options where
  nBlockMaxWeight : Nat
  blockMinFee : BitVec 32 → CAmount

def defaultBlockMaxWeight : Nat := maxBlockWeight - 4000

def clampOptions (options : Options) : Options :=
  { options with nBlockMaxWeight := max 4000 (min options.nBlockMaxWeight defaultBlockMaxWeight) }

/-- `BlockAssembler`, with the lists of the template without the coinbase. -/
structure BlockAssembler where
  mOptions : Options
  nHeight : Nat
  mLockTimeCutoff : Int
  vtx : List Txid
  vTxFees : List CAmount
  vTxSigOpsCost : List Int
  nBlockWeight : Int
  nBlockTx : Nat
  nBlockSigOpsCost : Int
  nFees : CAmount
  inBlock : Finset Txid

namespace BlockAssembler

/-- The constructor, with `resetBlock`. -/
def new (options : Options) (nHeight : Nat) (mLockTimeCutoff : Int) : BlockAssembler where
  mOptions := clampOptions options
  nHeight := nHeight
  mLockTimeCutoff := mLockTimeCutoff
  vtx := []
  vTxFees := []
  vTxSigOpsCost := []
  nBlockWeight := 4000
  nBlockTx := 0
  nBlockSigOpsCost := 400
  nFees := 0
  inBlock := ∅

/-- `TestPackage`, with the weights as `uint64_t`. -/
def testPackage (assembler : BlockAssembler) (packageSize packageSigOpsCost : Int) : Bool :=
  if (assembler.nBlockWeight + witnessScaleFactor * packageSize) % 2 ^ 64 ≥
      assembler.mOptions.nBlockMaxWeight then false
  else if assembler.nBlockSigOpsCost + packageSigOpsCost ≥ maxBlockSigopsCost then false
  else true

variable (pool : CTxMemPool nBytesPerSigOp)

def testPackageTransactions (assembler : BlockAssembler) (package : Finset Txid) : Bool :=
  ∀ txid ∈ package, isFinalTx (pool.entry txid).tx assembler.nHeight assembler.mLockTimeCutoff =
    true

def addToBlock (assembler : BlockAssembler) (txid : Txid) : BlockAssembler :=
  let e := pool.entry txid
  { assembler with
    vtx := assembler.vtx ++ [txid]
    vTxFees := assembler.vTxFees ++ [e.nFee]
    vTxSigOpsCost := assembler.vTxSigOpsCost ++ [e.sigOpCost]
    nBlockWeight := assembler.nBlockWeight + e.nTxWeight
    nBlockTx := assembler.nBlockTx + 1
    nBlockSigOpsCost := assembler.nBlockSigOpsCost + e.sigOpCost
    nFees := assembler.nFees + e.nFee
    inBlock := insert txid assembler.inBlock }

end BlockAssembler

variable (pool : CTxMemPool nBytesPerSigOp)

/-- `SortForBlock`: by the number of ancestors, and then by txid. -/
def sortForBlock (package : Finset Txid) : List Txid :=
  (elements package).insertionSort fun a b =>
    (pool.entry a).withAncestors.count < (pool.entry b).withAncestors.count
      ∨ (pool.entry a).withAncestors.count = (pool.entry b).withAncestors.count ∧ a ≤ b

/-! ## Fee rates -/

/-- `CTxMemPoolModifiedEntry` without its iterator. -/
structure CTxMemPoolModifiedEntry where
  nSizeWithAncestors : Int
  nModFeesWithAncestors : CAmount
  nSigOpCostWithAncestors : Int

/-- The constructor. -/
def CTxMemPoolModifiedEntry.new (e : CTxMemPoolEntry nBytesPerSigOp) : CTxMemPoolModifiedEntry :=
  ⟨e.withAncestors.size, e.withAncestors.modFees, e.withAncestors.sigOpCost⟩

def CTxMemPoolModifiedEntry.updateForParentInclusion (e : CTxMemPoolModifiedEntry)
    (parent : CTxMemPoolEntry nBytesPerSigOp) : CTxMemPoolModifiedEntry where
  nSizeWithAncestors := e.nSizeWithAncestors - parent.getTxSize
  nModFeesWithAncestors := e.nModFeesWithAncestors - parent.modifiedFee
  nSigOpCostWithAncestors := e.nSigOpCostWithAncestors - parent.sigOpCost

/-- The `double` that is nearest to an integer, the even one of two: 53 bits are kept. -/
def roundToDouble (n : Int) : Int :=
  let shift := n.natAbs.size - 53
  let quotient := n.natAbs >>> shift
  let remainder := 2 * (n.natAbs % 2 ^ shift)
  let roundUp := remainder > 2 ^ shift ∨ remainder = 2 ^ shift ∧ quotient % 2 = 1
  n.sign * ((if roundUp then quotient + 1 else quotient) <<< shift : Nat)

/-- The product of two integers as doubles. -/
def doubleMul (a b : Int) : Int := roundToDouble (roundToDouble a * roundToDouble b)

def getModFeeAndSize (e : CTxMemPoolEntry nBytesPerSigOp) (modified : CTxMemPoolModifiedEntry) :
    Int × Int :=
  let f1 := doubleMul e.modifiedFee modified.nSizeWithAncestors
  let f2 := doubleMul modified.nModFeesWithAncestors e.getTxSize
  if f1 > f2 then (modified.nModFeesWithAncestors, modified.nSizeWithAncestors)
  else (e.modifiedFee, e.getTxSize)

def compareByAncestorFee (modified : Txid → CTxMemPoolModifiedEntry) (a b : Txid) : Bool :=
  let (aModFee, aSize) := getModFeeAndSize (pool.entry a) (modified a)
  let (bModFee, bSize) := getModFeeAndSize (pool.entry b) (modified b)
  let f1 := doubleMul aModFee bSize
  let f2 := doubleMul aSize bModFee
  if f1 = f2 then a < b else f1 > f2

/-- `mapTx.get<ancestor_score>()`. -/
def ancestorScore : List Txid :=
  (elements pool.txids).insertionSort fun a b =>
    compareByAncestorFee pool (fun x => .new (pool.entry x)) a b = true

/-! ## The loop -/

/-- The variables of `addPackageTxs`. `mapModifiedTx` has the entries in `modified`, which
are read there only, and `mi` is what is left of the index by ancestor score. -/
structure PackageState where
  assembler : BlockAssembler
  mi : List Txid
  modified : Finset Txid
  modifiedEntry : Txid → CTxMemPoolModifiedEntry
  failedTx : Finset Txid
  nConsecutiveFailed : Int
  nPackagesSelected : Nat
  nDescendantsUpdated : Nat

namespace PackageState

variable (pool : CTxMemPool nBytesPerSigOp)

def updateForAdded (alreadyAdded : Finset Txid) (s : PackageState) (txid : Txid) : PackageState :=
  let descendants := pool.calculateDescendants txid ∅ \ alreadyAdded
  { s with
    modified := s.modified ∪ descendants
    modifiedEntry := fun x =>
      let current := if x ∈ s.modified then s.modifiedEntry x else .new (pool.entry x)
      if x ∈ descendants then current.updateForParentInclusion (pool.entry txid)
      else s.modifiedEntry x
    nDescendantsUpdated := s.nDescendantsUpdated + descendants.card }

def updatePackagesForAdded (alreadyAdded : Finset Txid) (s : PackageState) : PackageState :=
  (elements alreadyAdded).foldl (updateForAdded pool alreadyAdded) s

/-- A package is put into the block. -/
def addPackage (package : Finset Txid) (s : PackageState) : PackageState :=
  updatePackagesForAdded pool package { s with
    nConsecutiveFailed := 0
    assembler := (sortForBlock pool package).foldl (BlockAssembler.addToBlock pool) s.assembler
    modified := s.modified \ package
    nPackagesSelected := s.nPackagesSelected + 1 }

variable (s : PackageState)

/-- An entry of `mapModifiedTx` that failed is erased. -/
def eraseFailed (txid : Txid) (fUsingModified : Bool) : PackageState :=
  if fUsingModified then
    { s with modified := s.modified.erase txid, failedTx := insert txid s.failedTx }
  else s

/-- How an iteration ends: the loop is left, or goes on. -/
inductive Outcome where
  | stop (s : PackageState)
  | next (s : PackageState)

def maxConsecutiveFailures : Int := 1000

/-- What an iteration does with the entry that it has chosen. `none` is a failed assertion. -/
def evaluate (txid : Txid) (fUsingModified : Bool) : Option Outcome :=
  if txid ∈ s.assembler.inBlock then none
  else
    let package := if fUsingModified then s.modifiedEntry txid else .new (pool.entry txid)
    let options := s.assembler.mOptions
    if package.nModFeesWithAncestors < options.blockMinFee
        (BitVec.ofInt 32 package.nSizeWithAncestors) then
      some (.stop s)
    else if s.assembler.testPackage package.nSizeWithAncestors package.nSigOpCostWithAncestors =
        false then
      let s :=
        { s.eraseFailed txid fUsingModified with nConsecutiveFailed := s.nConsecutiveFailed + 1 }
      if s.nConsecutiveFailed > maxConsecutiveFailures ∧
          s.assembler.nBlockWeight > (options.nBlockMaxWeight : Int) - 4000 then
        some (.stop s)
      else some (.next s)
    else
      let ancestors := insert txid (pool.assumeCalculateMemPoolAncestors txid \ s.assembler.inBlock)
      if s.assembler.testPackageTransactions pool ancestors = false then
        some (.next (s.eraseFailed txid fUsingModified))
      else some (.next (s.addPackage pool ancestors))

/-- `mapModifiedTx.get<ancestor_score>().begin()`. -/
def bestModified : Option Txid :=
  Greatest.greatest (fun a b => compareByAncestorFee pool s.modifiedEntry b a) (elements s.modified)

/-- `*modit` is before the entry of `mapTx` in the order by ancestor score. -/
def modifiedIsBetter (modit it : Txid) : Bool :=
  compareByAncestorFee pool (fun x => if x = modit then s.modifiedEntry x
    else .new (pool.entry x)) modit it

/-- An iteration of the loop, with the test of its condition. -/
def iterate : Option Outcome :=
  match s.mi with
  | [] =>
    match s.bestModified pool with
    | none => some (.stop s)
    | some modit => s.evaluate pool modit true
  | it :: mi =>
    if it ∈ s.modified ∨ it ∈ s.assembler.inBlock ∨ it ∈ s.failedTx then some (.next { s with mi })
    else
      match s.bestModified pool with
      | none => { s with mi }.evaluate pool it false
      | some modit =>
        if s.modifiedIsBetter pool modit it then s.evaluate pool modit true
        else { s with mi }.evaluate pool it false

/-- The loop, for at most `fuel` iterations. `none` is a failed assertion, or that they
were not enough. -/
def loop : Nat → PackageState → Option PackageState
  | 0, _ => none
  | fuel + 1, s =>
    match s.iterate pool with
    | none => none
    | some (.stop s) => some s
    | some (.next s) => loop fuel s

end PackageState

/-- What `addPackageTxs` starts with. -/
def PackageState.new (assembler : BlockAssembler) : PackageState where
  assembler := assembler
  mi := ancestorScore pool
  modified := ∅
  modifiedEntry x := .new (pool.entry x)
  failedTx := ∅
  nConsecutiveFailed := 0
  nPackagesSelected := 0
  nDescendantsUpdated := 0

/-- `addPackageTxs`, for at most `fuel` iterations. -/
def addPackageTxs (assembler : BlockAssembler) (fuel : Nat) : Option PackageState :=
  PackageState.loop pool fuel (.new pool assembler)

end Bitcoboost.Mempool
