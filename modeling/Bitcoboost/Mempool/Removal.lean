import Bitcoboost.Mempool.Exact

/-!
# Removing entries

`RemoveStaged` of `txmempool.cpp`, and the walk that finds the descendants of what is to be
removed. Where `none` is returned an assertion failed.
-/

namespace Bitcoboost.Mempool

open Relation Ascending List

variable {nBytesPerSigOp : Nat}

/-- The outpoints that the inputs of the transaction spend. -/
def NewTx.prevouts (e : NewTx nBytesPerSigOp) : List COutPoint :=
  e.tx.vin.map fun txin => txin.prevout

namespace CTxMemPool

variable (pool : CTxMemPool nBytesPerSigOp)

/-! ## Removing -/

/-- The first loop of `UpdateForRemoveFromMempool`, for one of the entries. -/
def updateDescendantsForRemoval (txid : Txid) : Option (CTxMemPool nBytesPerSigOp) :=
  pool.modifyChecked ((pool.calculateDescendants txid ∅).erase txid)
    (·.updateAncestorState (-(pool.entry txid).weight))

/-- The second loop of `UpdateForRemoveFromMempool`, for one of the entries. -/
def updateAncestorsForRemoval (txid : Txid) : Option (CTxMemPool nBytesPerSigOp) :=
  pool.updateAncestorsOf false txid (pool.assumeCalculateMemPoolAncestors txid)

def updateChildrenForRemoval (txid : Txid) : CTxMemPool nBytesPerSigOp :=
  pool.updateParent (pool.entry txid).children txid false

def updateForRemoveFromMempool (entriesToRemove : Finset Txid) (updateDescendants : Bool) :
    Option (CTxMemPool nBytesPerSigOp) := do
  let entries := elements entriesToRemove
  let pool ← (if updateDescendants then entries else []).foldlM updateDescendantsForRemoval pool
  let pool ← entries.foldlM updateAncestorsForRemoval pool
  some (entries.foldl updateChildrenForRemoval pool)

def removeUnchecked (txid : Txid) : CTxMemPool nBytesPerSigOp :=
  { pool with
    mapNextTx := pool.mapNextTx.filter fun next => next.1 ∉ (pool.entry txid).prevouts
    totalTxSize := pool.totalTxSize - (pool.entry txid).getTxSize
    mTotalFee := pool.mTotalFee - (pool.entry txid).nFee
    txids := pool.txids.erase txid }

def removeStaged (stage : Finset Txid) (updateDescendants : Bool) :
    Option (CTxMemPool nBytesPerSigOp) :=
  (pool.updateForRemoveFromMempool stage updateDescendants).map fun pool =>
    (elements stage).foldl removeUnchecked pool

/-- The loop over `CalculateDescendants` that the removals begin with. -/
def allDescendants (txids : Finset Txid) : Finset Txid :=
  (elements txids).foldl (fun stage txid => pool.calculateDescendants txid stage) ∅

/-! ## What is removed -/

variable {pool} {y : Txid}

/-- What the entries that were removed leave behind. -/
structure Unlisted (pool : CTxMemPool nBytesPerSigOp) (entries : List Txid)
    (pool' : CTxMemPool nBytesPerSigOp) : Prop where
  txids : pool'.txids = pool.txids \ entries.toFinset
  entry : pool'.entry = pool.entry
  mapNextTx : ∀ next, next ∈ pool'.mapNextTx ↔ next ∈ pool.mapNextTx ∧ ∀ r ∈ entries,
    next.1 ∉ (pool.entry r).prevouts
  totalTxSize : pool'.totalTxSize = pool.totalTxSize -
    (entries.map fun r => (pool.entry r).getTxSize).sum
  mTotalFee : pool'.mTotalFee = pool.mTotalFee - (entries.map fun r => (pool.entry r).nFee).sum
  mapDeltas : pool'.mapDeltas = pool.mapDeltas

theorem foldl_removeUnchecked (pool : CTxMemPool nBytesPerSigOp) (entries : List Txid) :
    Unlisted pool entries (entries.foldl removeUnchecked pool) := by
  induction entries generalizing pool with
  | nil => constructor <;> simp
  | cons r entries ih =>
    have h := ih (pool.removeUnchecked r)
    constructor
    · rw [foldl_cons, h.txids, toFinset_cons, Finset.sdiff_insert, ← Finset.erase_sdiff_comm]
      rfl
    · exact h.entry
    · intro next
      rw [foldl_cons, h.mapNextTx, forall_mem_cons, ← and_assoc]
      exact and_congr_left fun _ => Finset.mem_filter
    · rw [foldl_cons, h.totalTxSize, map_cons, sum_cons, ← sub_sub]
      rfl
    · rw [foldl_cons, h.mTotalFee, map_cons, sum_cons, ← sub_sub]
      rfl
    · exact h.mapDeltas

/-- What the removals begin with: a set of entries and all their descendants. -/
theorem Links.mem_allDescendants {Linked : Txid → Txid → Prop} (hlinks : pool.Links Linked)
    {txids : Finset Txid} (hsub : txids ⊆ pool.txids) :
    y ∈ pool.allDescendants txids ↔ ∃ r ∈ txids, ReflTransGen Linked y r := by
  have hfold : ∀ (entries : List Txid) (stage : Finset Txid), (∀ r ∈ entries, r ∈ pool.txids) →
      stage ⊆ pool.txids →
      (∀ d ∈ stage, (pool.entry d).children ⊆ stage) →
        (y ∈ entries.foldl (fun stage txid => pool.calculateDescendants txid stage) stage
        ↔ y ∈ stage ∨ ∃ r ∈ entries, ReflTransGen Linked y r) := by
    intro entries
    induction entries with
    | nil => simp
    | cons r entries ih =>
      intro stage hentries hstage hclosed
      have hr := hentries r mem_cons_self
      have hmem : ∀ z, z ∈ pool.calculateDescendants r stage ↔ z ∈ stage ∨
        ReflTransGen Linked z r := fun z => hlinks.mem_calculateDescendants hr hstage hclosed
      have hstage' : pool.calculateDescendants r stage ⊆ pool.txids := by
        intro z hz
        rcases (hmem z).mp hz with hz | hz
        · exact hstage hz
        · exact hlinks.mem_of_descendant hr hz
      rw [foldl_cons, ih _ (fun b hb => hentries b (mem_cons_of_mem _ hb)) hstage' ?_,
        hmem, or_assoc, exists_mem_cons_iff]
      intro d hd c hc
      have hlink := (hlinks.children d (hstage' hd) c).mp hc
      rcases (hmem d).mp hd with hd | hd
      · exact (hmem c).mpr (.inl (hclosed d hd hc))
      · exact (hmem c).mpr (.inr (hd.head hlink))
  have hall :=
    hfold (elements txids) ∅ (fun r hr => hsub (mem_elements.mp hr))
      (Finset.empty_subset _) (by simp)
  unfold allDescendants
  rw [hall]
  simp

end CTxMemPool

end Bitcoboost.Mempool
