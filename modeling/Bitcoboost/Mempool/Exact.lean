import Bitcoboost.Mempool.Pool
import Bitcoboost.Mempool.Totals
import Mathlib.Data.Finset.Powerset

/-!
# What the links and totals of the pool should be

One transaction spends another if an input of it names the other. `Ancestor` is the reflexive
and transitive closure of that relation in the pool. A pool is exact if the links of its entries
are the spends, and the totals of its entries are the sums over the closure.
-/

namespace Bitcoboost.Mempool

open Relation Worklist Finset

variable {nBytesPerSigOp : Nat}

namespace CTxMemPool

variable (pool : CTxMemPool nBytesPerSigOp)

/-! ## Exactness -/

def Spends (child parent : Txid) : Prop :=
  child ∈ pool.txids ∧ parent ∈ pool.txids ∧ parent ∈ (pool.entry child).prevoutHashes

/-- The second transaction is the first one or an ancestor of it. -/
abbrev Ancestor : Txid → Txid → Prop := ReflTransGen pool.Spends

/-- No transaction spends itself, directly or not. -/
def Acyclic : Prop := ∀ x, ¬TransGen pool.Spends x x

open Classical in
/-- The sum over the entries that `Counted` relates to an entry. -/
noncomputable def sumWithAncestors (Counted : Txid → Txid → Prop) (txid : Txid) : Totals :=
  ∑ a ∈ pool.txids with Counted txid a, (pool.entry a).weight

open Classical in
/-- The sum over the entries that `Counted` relates an entry to. -/
noncomputable def sumWithDescendants (Counted : Txid → Txid → Prop) (txid : Txid) : Totals :=
  ∑ d ∈ pool.txids with Counted d txid, (pool.entry d).descendantWeight

/-- The sums of sizes and of signature operations fit the 32 bits that they pass through. -/
@[mk_iff]
structure SizesInRange : Prop where
  size_lt : ∑ x ∈ pool.txids, (pool.entry x).getTxSize < 2 ^ 31
  sigOpCost_lt : ∑ x ∈ pool.txids, (pool.entry x).sigOpCost < 2 ^ 31

variable {pool} in
theorem SizesInRange.weights (h : pool.SizesInRange) :
    Totals.SumsFit pool.txids fun x => (pool.entry x).weight where
  count _ _ := Int.one_pos
  size x _ := (pool.entry x).getTxSize_pos
  sigOpCost x _ := (pool.entry x).sigOpCost_nonneg
  size_lt := h.size_lt
  sigOpCost_lt := h.sigOpCost_lt

variable {pool} in
theorem SizesInRange.descendantWeights (h : pool.SizesInRange) :
    Totals.SumsFit pool.txids fun x => (pool.entry x).descendantWeight where
  count _ _ := Int.one_pos
  size x _ := (pool.entry x).getTxSize_pos
  sigOpCost _ _ := Int.le_refl 0
  size_lt := h.size_lt
  sigOpCost_lt := by simp [CTxMemPoolEntry.descendantWeight]

/-- The parents of the entries are those of a relation. -/
structure ParentLinks (Linked : Txid → Txid → Prop) : Prop where
  mem : ∀ {child parent}, Linked child parent → child ∈ pool.txids ∧ parent ∈ pool.txids
  parents : ∀ child ∈ pool.txids, ∀ parent, parent ∈ (pool.entry child).parents ↔
    Linked child parent

/-- The links of the entries are those of a relation. -/
structure Links (Linked : Txid → Txid → Prop) : Prop extends ParentLinks pool Linked where
  children : ∀ parent ∈ pool.txids, ∀ child, child ∈ (pool.entry parent).children ↔
    Linked child parent

/-- The totals of the entries are the sums over the pairs of a relation. -/
structure Counts (Counted : Txid → Txid → Prop) : Prop where
  ancestors : ∀ txid ∈ pool.txids, (pool.entry txid).withAncestors =
    pool.sumWithAncestors Counted txid
  descendants : ∀ txid ∈ pool.txids, (pool.entry txid).withDescendants =
    pool.sumWithDescendants Counted txid

/-- The links are the spends and the totals are the sums over the transitive closure. -/
structure Exact : Prop where
  links : pool.Links pool.Spends
  counts : pool.Counts pool.Ancestor

/-! ### Changes of the links and the totals -/

variable {pool} {pool' : CTxMemPool nBytesPerSigOp} {Linked Counted : Txid → Txid → Prop}
  {x y : Txid}

structure SameTxs (pool pool' : CTxMemPool nBytesPerSigOp) : Prop where
  txids : pool'.txids = pool.txids
  toNewTx : ∀ x, (pool'.entry x).toNewTx = (pool.entry x).toNewTx
  modifiedFee : ∀ x, (pool'.entry x).modifiedFee = (pool.entry x).modifiedFee

namespace SameTxs

variable (h : SameTxs pool pool') (Counted : Txid → Txid → Prop) (x : Txid)
include h

theorem weight : (pool'.entry x).weight = (pool.entry x).weight := by
  unfold CTxMemPoolEntry.weight
  rw [h.toNewTx, h.modifiedFee]

theorem descendantWeight : (pool'.entry x).descendantWeight = (pool.entry x).descendantWeight := by
  unfold CTxMemPoolEntry.descendantWeight
  rw [h.toNewTx, h.modifiedFee]

theorem sumWithAncestors : pool'.sumWithAncestors Counted x = pool.sumWithAncestors Counted x := by
  unfold CTxMemPool.sumWithAncestors
  rw [h.txids]
  exact sum_congr rfl fun y _ => h.weight y

theorem sumWithDescendants :
    pool'.sumWithDescendants Counted x = pool.sumWithDescendants Counted x := by
  unfold CTxMemPool.sumWithDescendants
  rw [h.txids]
  exact sum_congr rfl fun y _ => h.descendantWeight y

end SameTxs

/-! ## Walks -/

namespace ParentLinks

section

variable (h : pool.ParentLinks Linked)
include h

theorem mem_of_ancestor (hx : x ∈ pool.txids) (hxy : ReflTransGen Linked x y) : y ∈ pool.txids := by
  induction hxy with
  | refl => exact hx
  | tail _ hstep _ => exact (h.mem hstep).2

theorem mem_of_descendant (hy : y ∈ pool.txids) (hxy : ReflTransGen Linked x y) :
    x ∈ pool.txids := by
  induction hxy using ReflTransGen.head_induction_on with
  | refl => exact hy
  | head hstep _ _ => exact (h.mem hstep).1

theorem parents_subset : ∀ x ∈ pool.txids, (pool.entry x).parents ⊆ pool.txids :=
  fun x hx _ hy => (h.mem ((h.parents x hx _).mp hy)).2

theorem reaches_parents (hx : x ∈ pool.txids) :
    Reaches (fun x => (pool.entry x).parents) x y ↔ ReflTransGen Linked x y := by
  constructor
  · intro hxy
    have hboth : y ∈ pool.txids ∧ ReflTransGen Linked x y := by
      induction hxy with
      | refl => exact ⟨hx, .refl⟩
      | tail _ hstep ih =>
        have hlink := (h.parents _ ih.1 _).mp hstep
        exact ⟨(h.mem hlink).2, ih.2.tail hlink⟩
    exact hboth.2
  · intro hxy
    induction hxy with
    | refl => exact .refl
    | tail _ hstep ih => exact ih.tail ((h.parents _ (h.mem hstep).1 _).mpr hstep)

end

end ParentLinks

namespace Links

theorem children_subset (h : pool.Links Linked) :
    ∀ x ∈ pool.txids, (pool.entry x).children ⊆ pool.txids :=
  fun x hx _ hy => (h.mem ((h.children x hx _).mp hy)).1

theorem reaches_children (h : pool.Links Linked) (hx : x ∈ pool.txids) :
    Reaches (fun x => (pool.entry x).children) x y ↔ ReflTransGen Linked y x := by
  constructor
  · intro hxy
    have hboth : y ∈ pool.txids ∧ ReflTransGen Linked y x := by
      induction hxy with
      | refl => exact ⟨hx, .refl⟩
      | tail _ hstep ih =>
        have hlink := (h.children _ ih.1 _).mp hstep
        exact ⟨(h.mem hlink).1, ih.2.head hlink⟩
    exact hboth.2
  · intro hxy
    induction hxy using ReflTransGen.head_induction_on with
    | refl => exact .refl
    | head hstep _ ih => exact ih.tail ((h.children _ (h.mem hstep).2 _).mpr hstep)

/-- What `CalculateDescendants` finds. What it is given is closed under children. -/
theorem mem_calculateDescendants (h : pool.Links Linked) (hx : x ∈ pool.txids)
    {setDescendants : Finset Txid} (hsub : setDescendants ⊆ pool.txids)
    (hclosed : ∀ d ∈ setDescendants, (pool.entry d).children ⊆ setDescendants) :
    y ∈ pool.calculateDescendants x setDescendants ↔ y ∈ setDescendants ∨
    ReflTransGen Linked y x := by
  have hwalk : Walk _ {x} setDescendants ({x} \ setDescendants) setDescendants := .init hclosed
  have hstart : {x} ⊆ pool.txids := Finset.singleton_subset_iff.mpr hx
  have hmem := mem_traverse (x := y) hwalk h.children_subset hstart hsub (Nat.le_add_right _ _)
  unfold calculateDescendants
  rw [hmem]
  simp [h.reaches_children hx]

end Links

/-! ## Exactness of a given pool -/

theorem exact_of_check (hparents : ∀ x ∈ pool.txids,
      (pool.entry x).parents = (pool.entry x).prevoutHashes.toFinset ∩ pool.txids)
    (hchildren : ∀ x ∈ pool.txids,
      (pool.entry x).children = pool.txids.filter fun c => x ∈ (pool.entry c).prevoutHashes)
    (hancestors : ∀ x ∈ pool.txids, (pool.entry x).withAncestors =
      ∑ a ∈ traverse (fun y => (pool.entry y).parents) pool.txids.card {x} ∅, (pool.entry a).weight)
    (hdescendants : ∀ x ∈ pool.txids, (pool.entry x).withDescendants =
      ∑ d ∈ pool.calculateDescendants x ∅, (pool.entry d).descendantWeight) : pool.Exact := by
  have hlinks : pool.Links pool.Spends := by
    refine ⟨⟨fun h => ⟨h.1, h.2.1⟩, fun c hc p => ?_⟩, fun p hp c => ?_⟩
    · rw [hparents c hc, mem_inter, List.mem_toFinset, Spends, and_iff_right hc, and_comm]
    · rw [hchildren p hp, mem_filter, Spends, and_iff_right hp]
  refine ⟨hlinks, ⟨fun x hx => ?_, fun x hx => ?_⟩⟩
  · rw [hancestors x hx, sumWithAncestors]
    refine sum_congr (Finset.ext fun a => ?_) fun _ _ => rfl
    have hwalk : Walk (fun y => (pool.entry y).parents) {x} ∅ {x} ∅ := .empty
    rw [mem_traverse hwalk hlinks.parents_subset (Finset.singleton_subset_iff.mpr hx)
      (empty_subset _) (Nat.le_add_right _ _)]
    simp only [notMem_empty, mem_singleton, exists_eq_left, false_or, mem_filter,
      hlinks.reaches_parents hx]
    exact ⟨fun hreach => ⟨hlinks.mem_of_ancestor hx hreach, hreach⟩, And.right⟩
  · rw [hdescendants x hx, sumWithDescendants]
    refine sum_congr (Finset.ext fun d => ?_) fun _ _ => rfl
    rw [hlinks.mem_calculateDescendants hx (empty_subset _) (fun d hd =>
      absurd hd (notMem_empty d))]
    simp only [notMem_empty, false_or, mem_filter]
    exact ⟨fun hreach => ⟨hlinks.mem_of_descendant hx hreach, hreach⟩, And.right⟩

end CTxMemPool

/-! ## A transaction with two parents that share a parent -/

def spendAll (prevouts : List COutPoint) (outputs : Nat) : CTransaction :=
  ⟨prevouts.map fun prevout => ⟨prevout, [], 0xffffffff#32, []⟩,
    List.replicate outputs ⟨1000, []⟩, 2#32, 0#32⟩

def spendingTx (prevouts : List COutPoint) (outputs : Nat) (nFee : CAmount)
    (h : 0 < getTransactionWeight (spendAll prevouts outputs)) : NewTx defaultBytesPerSigop where
  tx := spendAll prevouts outputs
  nFee := nFee
  nTime := 0
  sigOpCost := 4
  weight_pos := h
  sigOpCost_nonneg := by decide
  sigOpCost_lt := by decide
  size_lt := by decide

def linkedEntry (e : NewTx defaultBytesPerSigop) (parents children : Finset Txid)
    (withDescendants withAncestors : Totals) : CTxMemPoolEntry defaultBytesPerSigop :=
  { CTxMemPoolEntry.new e with parents, children, withDescendants, withAncestors }

/-- A parent of 69 bytes that pays 69, two children of 60 bytes that pay 1100 each, and a
transaction of 101 bytes that spends both and pays 960. -/
def diamondPool : CTxMemPool defaultBytesPerSigop where
  txids := {uint256S 1, uint256S 2, uint256S 3, uint256S 4}
  entry x :=
    if x = uint256S 1 then
      linkedEntry (spendingTx [⟨uint256S 9, 0#32⟩] 2 69 (by decide +kernel))
        ∅ {uint256S 2, uint256S 3} ⟨4, 290, 3229, 0⟩ ⟨1, 69, 69, 4⟩
    else if x = uint256S 2 then
      linkedEntry (spendingTx [⟨uint256S 1, 0#32⟩] 1 1100 (by decide +kernel))
        {uint256S 1} {uint256S 4} ⟨2, 161, 2060, 0⟩ ⟨2, 129, 1169, 8⟩
    else if x = uint256S 3 then
      linkedEntry (spendingTx [⟨uint256S 1, 1#32⟩] 1 1100 (by decide +kernel))
        {uint256S 1} {uint256S 4} ⟨2, 161, 2060, 0⟩ ⟨2, 129, 1169, 8⟩
    else
      linkedEntry (spendingTx [⟨uint256S 2, 0#32⟩, ⟨uint256S 3, 0#32⟩] 1 960 (by decide +kernel))
        {uint256S 2, uint256S 3} ∅ ⟨1, 101, 960, 0⟩ ⟨4, 290, 3229, 16⟩
  mapNextTx := {(⟨uint256S 9, 0#32⟩, uint256S 1), (⟨uint256S 1, 0#32⟩, uint256S 2),
    (⟨uint256S 1, 1#32⟩, uint256S 3), (⟨uint256S 2, 0#32⟩, uint256S 4),
    (⟨uint256S 3, 0#32⟩, uint256S 4)}
  mapDeltas _ := 0
  totalTxSize := 290
  mTotalFee := 3229
  mLimits := .noLimits

theorem diamondPool_exact : diamondPool.Exact :=
  CTxMemPool.exact_of_check (by decide +kernel) (by decide +kernel) (by decide +kernel)
    (by decide +kernel)

end Bitcoboost.Mempool
