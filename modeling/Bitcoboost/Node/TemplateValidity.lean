import Bitcoboost.Mempool.ChainLimits
import Bitcoboost.Node.PackageSelection
import Mathlib.Algebra.BigOperators.Ring.Finset

/-!
# The transactions of a template make a valid block

`Selected` is what holds of the block after every package, `PackageInv` what holds in the loop of
`addPackageTxs`: the totals in `mapModifiedTx` are never less than what the ancestors that are
not in the block add up to. They may be more: an entry that failed is erased, and if it is put
back later, the ancestors that entered the block in between are counted again.
-/

namespace Bitcoboost.Mempool

open Relation Ascending CTxMemPool List Finset

variable {nBytesPerSigOp : Nat} {pool : CTxMemPool nBytesPerSigOp} {x x a : Txid}
  {inBlock : Finset Txid}

/-! ## Ancestors -/

theorem mem_of_ancestor {y : Txid} (hx : x ∈ pool.txids) (h : pool.Ancestor x y) :
    y ∈ pool.txids := by
  cases h with
  | refl => exact hx
  | tail _ hstep => exact hstep.2.1

/-- A parent has fewer ancestors. -/
theorem count_lt_of_spends (hexact : pool.Exact) (hacyclic : pool.Acyclic) {p : Txid}
    (h : pool.Spends x p) :
    (pool.entry p).withAncestors.count < (pool.entry x).withAncestors.count := by
  classical
  have hcard : ∀ y ∈ pool.txids, (pool.entry y).withAncestors.count
      = ({a ∈ pool.txids | pool.Ancestor y a} : Finset Txid).card := by
    intro y hy
    rw [hexact.counts.ancestors y hy, sumWithAncestors, Totals.count_sum]
    simp [CTxMemPoolEntry.weight]
  rw [hcard p h.2.1, hcard x h.1]
  refine Int.ofNat_lt.mpr (card_lt_card ((ssubset_iff_of_subset ?_).mpr ⟨x, ?_, ?_⟩))
  · grind [ReflTransGen.head]
  · exact Finset.mem_filter.mpr ⟨h.1, .refl⟩
  · intro hx
    exact hacyclic x (.head' h (Finset.mem_filter.mp hx).2)

open Classical in
/-- The ancestors of an entry that are not in the block, with the entry. -/
noncomputable def pending (pool : CTxMemPool nBytesPerSigOp) (inBlock : Finset Txid) (x : Txid) :
    Finset Txid :=
  {a ∈ pool.txids | pool.Ancestor x a ∧ a ∉ inBlock}

theorem mem_pending (hx : x ∈ pool.txids) :
    a ∈ pending pool inBlock x ↔ pool.Ancestor x a ∧ a ∉ inBlock := by
  classical
  rw [pending, Finset.mem_filter, and_iff_right_iff_imp]
  exact fun h => mem_of_ancestor hx h.1

/-- What an entry counts of its ancestors is not less than what those of them that are not
in the block add up to. -/
theorem sum_pending_le (hexact : pool.Exact) (hx : x ∈ pool.txids) :
    ∑ a ∈ pending pool inBlock x, (pool.entry a).getTxSize ≤ (pool.entry x).withAncestors.size
      ∧ ∑ a ∈ pending pool inBlock x, (pool.entry a).sigOpCost ≤
        (pool.entry x).withAncestors.sigOpCost := by
  classical
  have hsub : pending pool inBlock x ⊆ {a ∈ pool.txids | pool.Ancestor x a} := by
    grind [mem_pending, mem_of_ancestor]
  rw [hexact.counts.ancestors x hx, sumWithAncestors, Totals.size_sum, Totals.sigOpCost_sum]
  exact ⟨sum_le_sum_of_subset_of_nonneg hsub fun a _ _ => (pool.entry a).getTxSize_pos.le,
    sum_le_sum_of_subset_of_nonneg hsub fun a _ _ => (pool.entry a).sigOpCost_nonneg⟩

/-! ## The block -/

/-- What holds of the block after every package. -/
structure Selected (pool : CTxMemPool nBytesPerSigOp) (options : Options) (height : Nat)
    (cutoff : Int) (assembler : BlockAssembler) : Prop where
  mOptions : assembler.mOptions = clampOptions options
  nHeight : assembler.nHeight = height
  mLockTimeCutoff : assembler.mLockTimeCutoff = cutoff
  inBlock : assembler.inBlock = assembler.vtx.toFinset
  mem : ∀ x ∈ assembler.vtx, x ∈ pool.txids
  nodup : assembler.vtx.Nodup
  parents : ∀ before x after, assembler.vtx = before ++ x :: after → ∀ p,
    pool.Spends x p → p ∈ before
  final : ∀ x ∈ assembler.vtx, isFinalTx (pool.entry x).tx height cutoff = true
  nBlockTx : assembler.nBlockTx = assembler.vtx.length
  vTxFees : assembler.vTxFees = assembler.vtx.map fun x => (pool.entry x).nFee
  vTxSigOpsCost : assembler.vTxSigOpsCost = assembler.vtx.map fun x => (pool.entry x).sigOpCost
  nBlockWeight : assembler.nBlockWeight = 4000 +
    (assembler.vtx.map fun x => (pool.entry x).nTxWeight).sum
  nBlockSigOpsCost : assembler.nBlockSigOpsCost =
    400 + (assembler.vtx.map fun x => (pool.entry x).sigOpCost).sum
  nFees : assembler.nFees = (assembler.vtx.map fun x => (pool.entry x).nFee).sum
  weight_lt : assembler.vtx ≠ [] → assembler.nBlockWeight < (clampOptions options).nBlockMaxWeight
  sigOpsCost_lt : assembler.nBlockSigOpsCost < maxBlockSigopsCost

theorem selected_new {options : Options} {height : Nat} {cutoff : Int} :
    Selected pool options height cutoff (.new options height cutoff) := by
  constructor <;> simp [BlockAssembler.new, maxBlockSigopsCost]

theorem foldl_addToBlock (assembler : BlockAssembler) (txids : List Txid) :
    txids.foldl (BlockAssembler.addToBlock pool) assembler = { assembler with
      vtx := assembler.vtx ++ txids
      vTxFees := assembler.vTxFees ++ txids.map fun x => (pool.entry x).nFee
      vTxSigOpsCost := assembler.vTxSigOpsCost ++ txids.map fun x => (pool.entry x).sigOpCost
      nBlockWeight := assembler.nBlockWeight + (txids.map fun x => (pool.entry x).nTxWeight).sum
      nBlockTx := assembler.nBlockTx + txids.length
      nBlockSigOpsCost :=
        assembler.nBlockSigOpsCost + (txids.map fun x => (pool.entry x).sigOpCost).sum
      nFees := assembler.nFees + (txids.map fun x => (pool.entry x).nFee).sum
      inBlock := assembler.inBlock ∪ txids.toFinset } := by
  induction txids generalizing assembler with
  | nil => simp
  | cons x txids ih =>
    rw [foldl_cons, ih]
    simp [BlockAssembler.addToBlock, add_assoc, add_comm]

theorem sum_map_eq {l : List Txid} (hnodup : l.Nodup) (f : Txid → Int) :
    (l.map f).sum = ∑ x ∈ l.toFinset, f x := by
  rw [sum_toFinset f hnodup]

variable (package : Finset Txid) {s : PackageState}

theorem sortForBlock_perm : (sortForBlock pool package).Perm (elements package) :=
  perm_insertionSort _ _

theorem toFinset_sortForBlock : (sortForBlock pool package).toFinset = package := by
  rw [toFinset_eq_of_perm _ _ (sortForBlock_perm package), toFinset_elements]

theorem nodup_sortForBlock : (sortForBlock pool package).Nodup :=
  (sortForBlock_perm package).nodup_iff.mpr (nodup_elements package)

theorem sortForBlock_pairwise : (sortForBlock pool package).Pairwise fun a b =>
    (pool.entry a).withAncestors.count ≤ (pool.entry b).withAncestors.count := by
  let less : Txid → Txid → Prop :=
      fun a b => (pool.entry a).withAncestors.count < (pool.entry b).withAncestors.count
    ∨ (pool.entry a).withAncestors.count = (pool.entry b).withAncestors.count ∧ a ≤ b
  have htotal : Std.Total less := ⟨fun a b => by
    grind⟩
  have htrans : IsTrans Txid less := ⟨fun a b c hab hbc => by
    grind⟩
  refine (pairwise_insertionSort less (elements package)).imp fun hab => ?_
  omega

/-! ### A package -/

section Package

variable {options : Options} {height : Nat} {cutoff : Int} {assembler : BlockAssembler}
  {txid : Txid}

theorem Selected.ancestor_mem (h : Selected pool options height cutoff assembler)
    (hx : x ∈ assembler.inBlock) (hxa : pool.Ancestor x a) : a ∈ assembler.inBlock := by
  induction hxa with
  | refl => exact hx
  | tail _ hstep ih =>
    rw [h.inBlock, mem_toFinset] at ih ⊢
    obtain ⟨before, after, heq⟩ := append_of_mem ih
    grind [parents]

theorem clampOptions_le (options : Options) :
    (clampOptions options).nBlockMaxWeight ≤ defaultBlockMaxWeight :=
  max_le (by decide) (min_le_right _ _)

theorem Selected.nBlockWeight_bounds (h : Selected pool options height cutoff assembler) :
    0 ≤ assembler.nBlockWeight ∧ assembler.nBlockWeight ≤ defaultBlockMaxWeight := by
  constructor
  · have hsum : 0 ≤ (assembler.vtx.map fun x => (pool.entry x).nTxWeight).sum := by
      simp [List.sum_nonneg, LT.lt.le, NewTx.weight_pos, NewTx.nTxWeight]
    rw [h.nBlockWeight]
    omega
  · by_cases hvtx : assembler.vtx = []
    · rw [h.nBlockWeight, hvtx, map_nil, sum_nil]
      decide
    · exact (h.weight_lt hvtx).le.trans (Int.ofNat_le.mpr (clampOptions_le options))

theorem Selected.addPackage (hexact : pool.Exact) (hacyclic : pool.Acyclic)
    (h : Selected pool options height cutoff assembler) (hx : txid ∈ pool.txids)
    (hfinal : ∀ a ∈ pending pool assembler.inBlock txid,
      isFinalTx (pool.entry a).tx height cutoff = true)
    (hweight : assembler.nBlockWeight + 4 * ∑ a ∈ pending pool assembler.inBlock txid,
      (pool.entry a).getTxSize
      < (clampOptions options).nBlockMaxWeight)
    (hsigOps : assembler.nBlockSigOpsCost + ∑ a ∈ pending pool assembler.inBlock txid,
      (pool.entry a).sigOpCost
      < maxBlockSigopsCost) :
    Selected pool options height cutoff
      ((sortForBlock pool (pending pool assembler.inBlock txid)).foldl
        (BlockAssembler.addToBlock pool) assembler) := by
  rw [foldl_addToBlock]
  have hmem : ∀ a, a ∈ sortForBlock pool (pending pool assembler.inBlock txid) ↔
      pool.Ancestor txid a ∧ a ∉ assembler.inBlock := by
    intro a
    rw [← mem_toFinset, toFinset_sortForBlock, mem_pending hx]
  have hsum :
      ∀ f : Txid → Int, ((sortForBlock pool (pending pool assembler.inBlock txid)).map f).sum
      = ∑ a ∈ pending pool assembler.inBlock txid, f a := by
    intro f
    rw [sum_map_eq (nodup_sortForBlock _), toFinset_sortForBlock]
  have hpairwise : (sortForBlock pool (pending pool assembler.inBlock txid)).Pairwise fun a b =>
    (pool.entry a).withAncestors.count ≤ (pool.entry b).withAncestors.count :=
      sortForBlock_pairwise _
  have hnodup : (sortForBlock pool (pending pool assembler.inBlock txid)).Nodup :=
    nodup_sortForBlock _
  generalize sortForBlock pool (pending pool assembler.inBlock txid) =
    sorted at hmem hsum hpairwise hnodup
  have hle : ∑ a ∈ pending pool assembler.inBlock txid, (pool.entry a).nTxWeight
      ≤ 4 * ∑ a ∈ pending pool assembler.inBlock txid, (pool.entry a).getTxSize := by
    rw [mul_sum]
    exact sum_le_sum fun a _ => (pool.entry a).nTxWeight_le
  -- a parent of a transaction of the package is in the block or has fewer ancestors
  have hparents : ∀ first x last, sorted = first ++ x :: last → ∀ p, pool.Spends x p →
      p ∈ assembler.vtx ++ first := by
    intro first x last heq p hp
    have hanc : pool.Ancestor txid p := ((hmem x).mp (by rw [heq]; simp)).1.tail hp
    by_cases hin : p ∈ assembler.inBlock
    · rw [h.inBlock, mem_toFinset] at hin
      exact mem_append_left _ hin
    · have hps : p ∈ sorted := (hmem p).mpr ⟨hanc, hin⟩
      have hlt := count_lt_of_spends hexact hacyclic hp
      grind [mem_append_right, List.pairwise_cons]
  refine ⟨h.mOptions, h.nHeight, h.mLockTimeCutoff, ?_, ?_, ?_, ?_, ?_, ?_, ?_, ?_, ?_,
    ?_, ?_, ?_, ?_⟩
  · rw [h.inBlock, toFinset_append]
  · grind [mem, mem_of_ancestor]
  · grind [nodup, inBlock, mem_toFinset]
  · intro before x after heq p hp
    rcases List.append_eq_append_iff.mp heq with ⟨first, rfl, hsorted⟩ | ⟨mid, hvtx, hrest⟩
    · exact hparents first x after hsorted p hp
    · cases mid with
      | nil =>
        grind
      | cons y mid =>
        grind [parents]
  · grind [final, mem_pending]
  · dsimp only
    rw [h.nBlockTx, length_append]
  · dsimp only
    rw [h.vTxFees, map_append]
  · dsimp only
    rw [h.vTxSigOpsCost, map_append]
  · dsimp only
    rw [h.nBlockWeight, map_append, sum_append, add_assoc]
  · dsimp only
    rw [h.nBlockSigOpsCost, map_append, sum_append, add_assoc]
  · dsimp only
    rw [h.nFees, map_append, sum_append]
  · grind
  grind

end Package

/-! ## The totals on the side -/

section Update

variable {inBlock package done : Finset Txid} {s : PackageState} {txid : Txid}

/-- While `UpdatePackagesForAdded` takes away what the transactions of the package in `done`
count for, what an entry of `mapModifiedTx` keeps covers the rest. -/
def CoversWithout (pool : CTxMemPool nBytesPerSigOp) (inBlock done : Finset Txid) (f : Txid → Int)
    (g : CTxMemPoolModifiedEntry → Int) (s : PackageState) : Prop :=
  open Classical in
  ∀ x ∈ s.modified, ∑ a ∈ pending pool inBlock x, f a - ∑ a ∈ done with pool.Ancestor x a,
    f a ≤ g (s.modifiedEntry x)

/-- A sum `g` of an entry of `mapModifiedTx` that starts with at least the `f` of all pending
ancestors, and loses the `f` of each ancestor that is added. -/
structure Tracks (pool : CTxMemPool nBytesPerSigOp) (inBlock : Finset Txid) (f : Txid → Int)
    (g : CTxMemPoolModifiedEntry → Int) : Prop where
  nonneg : ∀ a, 0 ≤ f a
  new : ∀ x ∈ pool.txids, ∑ a ∈ pending pool inBlock x, f a ≤ g (.new (pool.entry x))
  sub : ∀ (e : CTxMemPoolModifiedEntry) (a : Txid),
    g (e.updateForParentInclusion (pool.entry a)) = g e - f a

/-- The entries of `mapModifiedTx` are in the pool and not in the block. -/
structure OutOfBlock (pool : CTxMemPool nBytesPerSigOp) (inBlock : Finset Txid)
    (s : PackageState) : Prop where
  subset : s.modified ⊆ pool.txids
  disjoint : Disjoint s.modified inBlock

theorem mem_descendants (hexact : pool.Exact) (htxid : txid ∈ pool.txids) :
    x ∈ pool.calculateDescendants txid ∅ \ package ↔ pool.Ancestor x txid ∧ x ∉ package := by
  rw [mem_sdiff, hexact.links.mem_calculateDescendants htxid (empty_subset _) (by simp)]
  simp

variable (hexact : pool.Exact) (hclosed : ∀ x ∈ inBlock, ∀ a, pool.Ancestor x a → a ∈ inBlock)
  (hpackage : package ⊆ pool.txids) (hdisjoint : Disjoint package inBlock) (htxid : txid ∈ package)
  {g : CTxMemPoolModifiedEntry → Int} {f : Txid → Int}
include hexact hpackage htxid

include hclosed hdisjoint in
theorem OutOfBlock.updateForAdded (h : OutOfBlock pool (inBlock ∪ package) s) :
    OutOfBlock pool (inBlock ∪ package) (s.updateForAdded pool package txid) := by
  have hmem : ∀ x, x ∈ pool.calculateDescendants txid ∅ \ package ↔ pool.Ancestor x txid ∧
    x ∉ package := fun x => mem_descendants hexact (hpackage htxid)
  constructor
  · refine union_subset h.subset fun x hx => ?_
    exact hexact.links.mem_of_descendant (hpackage htxid) ((hmem x).mp hx).1
  · refine Finset.disjoint_union_left.mpr ⟨h.disjoint, Finset.disjoint_left.mpr fun x hx hin => ?_⟩
    obtain ⟨hanc, hnot⟩ := (hmem x).mp hx
    rcases Finset.mem_union.mp hin with hin | hin
    · exact Finset.disjoint_left.mp hdisjoint htxid (hclosed x hin txid hanc)
    · exact hnot hin

/-- One more transaction of the package is taken away. -/
theorem CoversWithout.updateForAdded (htracks : Tracks pool inBlock f g)
    (hout : OutOfBlock pool (inBlock ∪ package) s) (hdone : txid ∉ done)
    (h : CoversWithout pool inBlock done f g s) :
    CoversWithout pool inBlock (insert txid done) f g (s.updateForAdded pool package txid) := by
  classical
  have hmem : ∀ x, x ∈ pool.calculateDescendants txid ∅ \ package ↔ pool.Ancestor x txid ∧
    x ∉ package := fun x => mem_descendants hexact (hpackage htxid)
  intro x hx
  by_cases hdesc : x ∈ pool.calculateDescendants txid ∅ \ package
  · have hanc := ((hmem x).mp hdesc).1
    have hsum : ∑ a ∈ insert txid done with pool.Ancestor x a, f a
        = f txid + ∑ a ∈ done with pool.Ancestor x a, f a := by
      rw [filter_insert, if_pos hanc, sum_insert fun hd => hdone (Finset.mem_filter.mp hd).1]
    have hcurrent : ∑ a ∈ pending pool inBlock x, f a - ∑ a ∈ done with pool.Ancestor x a, f a
        ≤ g (if x ∈ s.modified then s.modifiedEntry x else .new (pool.entry x)) := by
      split
      · exact h x ‹_›
      · have hfull := htracks.new x (hexact.links.mem_of_descendant (hpackage htxid) hanc)
        have hnonneg : 0 ≤ ∑ a ∈ done with pool.Ancestor x a, f a :=
          sum_nonneg fun a _ => htracks.nonneg a
        omega
    have hsub := htracks.sub
    grind [PackageState.updateForAdded]
  · have hold : x ∈ s.modified := (Finset.mem_union.mp hx).resolve_right hdesc
    have hnot : ¬pool.Ancestor x txid := fun hanc => hdesc ((hmem x).mpr ⟨hanc, fun hp =>
      Finset.disjoint_left.mp hout.disjoint hold (mem_union_right _ hp)⟩)
    simp only [PackageState.updateForAdded, if_neg hdesc, filter_insert, if_neg hnot]
    exact h x hold

omit htxid in
include hclosed hdisjoint in
/-- What the loop of `UpdatePackagesForAdded` keeps, over any part of the package. -/
theorem foldl_updateForAdded (htracks : Tracks pool inBlock f g)
    {added : List Txid} (hadded : ∀ a ∈ added, a ∈ package) (hnodup : added.Nodup)
    (hdone : ∀ a ∈ added, a ∉ done)
    (hout : OutOfBlock pool (inBlock ∪ package) s) (h : CoversWithout pool inBlock done f g s) :
    OutOfBlock pool (inBlock ∪ package) (added.foldl (PackageState.updateForAdded pool package) s)
      ∧ CoversWithout pool inBlock (done ∪ added.toFinset) f g
        (added.foldl (PackageState.updateForAdded pool package) s) := by
  induction added generalizing s done with
  | nil => simpa using ⟨hout, h⟩
  | cons a added ih =>
    have ha := hadded a mem_cons_self
    obtain ⟨hnot, hnodup⟩ := List.nodup_cons.mp hnodup
    have hstep := h.updateForAdded hexact hpackage ha htracks hout (hdone a mem_cons_self)
    have hrest := ih (fun b hb => hadded b (mem_cons_of_mem _ hb)) hnodup
      (fun b hb hin => ?_) (hout.updateForAdded hexact hclosed hpackage hdisjoint ha) hstep
    · rw [foldl_cons, toFinset_cons, union_insert, ← insert_union]
      exact hrest
    · rcases Finset.mem_insert.mp hin with rfl | hin
      · exact hnot hb
      · exact hdone b (mem_cons_of_mem _ hb) hin

end Update

/-- The loop over the package changes `mapModifiedTx` only. -/
theorem foldl_updateForAdded_frame {added : List Txid} (s : PackageState) :
    (added.foldl (PackageState.updateForAdded pool package) s).assembler = s.assembler
      ∧ (added.foldl (PackageState.updateForAdded pool package) s).mi = s.mi := by
  induction added generalizing s with
  | nil => exact ⟨rfl, rfl⟩
  | cons a added ih => exact ih _

/-- No entry of `mapModifiedTx` has more than the entry of the pool. -/
def NotGrown (pool : CTxMemPool nBytesPerSigOp) (s : PackageState) : Prop :=
  ∀ x ∈ s.modified, (s.modifiedEntry x).nSizeWithAncestors ≤ (pool.entry x).withAncestors.size

theorem foldl_updateForAdded_notGrown (added : List Txid) (h : NotGrown pool s) :
    NotGrown pool (added.foldl (PackageState.updateForAdded pool package) s) := by
  induction added generalizing s with
  | nil => exact h
  | cons a added ih =>
    refine ih fun x hx => ?_
    by_cases hdesc : x ∈ pool.calculateDescendants a ∅ \ package
    · have hcurrent :
          (if x ∈ s.modified then s.modifiedEntry x else .new (pool.entry x)).nSizeWithAncestors
          ≤ (pool.entry x).withAncestors.size := by
        aesop
      simp only [PackageState.updateForAdded, if_pos hdesc]
      exact (sub_le_self _ (pool.entry a).getTxSize_pos.le).trans hcurrent
    · simp only [PackageState.updateForAdded, if_neg hdesc]
      exact h x ((Finset.mem_union.mp hx).resolve_right hdesc)

/-! ## The loop -/

/-- What an entry of `mapModifiedTx` keeps covers its ancestors that are not in the block. -/
def Covers (pool : CTxMemPool nBytesPerSigOp) (f : Txid → Int) (g : CTxMemPoolModifiedEntry → Int)
    (s : PackageState) : Prop :=
  ∀ x ∈ s.modified, ∑ a ∈ pending pool s.assembler.inBlock x, f a ≤ g (s.modifiedEntry x)

/-- What holds between the iterations of the loop. -/
structure PackageInv (pool : CTxMemPool nBytesPerSigOp) (options : Options) (height : Nat)
    (cutoff : Int) (s : PackageState) : Prop where
  selected : Selected pool options height cutoff s.assembler
  mi : ∀ x ∈ s.mi, x ∈ pool.txids
  mi_length : s.mi.length ≤ pool.txids.card
  outOfBlock : OutOfBlock pool s.assembler.inBlock s
  size : Covers pool (fun a => (pool.entry a).getTxSize)
    CTxMemPoolModifiedEntry.nSizeWithAncestors s
  sigOpCost : Covers pool (fun a => (pool.entry a).sigOpCost)
    CTxMemPoolModifiedEntry.nSigOpCostWithAncestors s
  notGrown : NotGrown pool s

/-- A bound on the iterations that are left: an iteration puts something into the block, or
takes something from `mapTx` or `mapModifiedTx`. -/
def PackageState.remaining (pool : CTxMemPool nBytesPerSigOp) (s : PackageState) : Nat :=
  (pool.txids \ s.assembler.inBlock).card * (2 * pool.txids.card + 1) + s.mi.length +
    s.modified.card

theorem sum_pending_union {package : Finset Txid} (hdisjoint : Disjoint package inBlock)
    (hx : x ∈ pool.txids) (f : Txid → Int) [DecidablePred (pool.Ancestor x)] :
    ∑ a ∈ pending pool (inBlock ∪ package) x, f a
      = ∑ a ∈ pending pool inBlock x, f a - ∑ a ∈ package with pool.Ancestor x a, f a := by
  have hunion : pending pool inBlock x
      = pending pool (inBlock ∪ package) x ∪ {a ∈ package | pool.Ancestor x a} := by
    ext a
    rw [mem_union, mem_pending hx, mem_pending hx, Finset.mem_filter, mem_union, not_or]
    grind [Finset.disjoint_left]
  simp_all [pending, Finset.disjoint_left, sum_union]

/-- After `UpdatePackagesForAdded`, what is kept covers what is pending without the package. -/
theorem covers_updatePackagesForAdded (hexact : pool.Exact) {package : Finset Txid}
    (hclosed : ∀ x ∈ inBlock, ∀ a, pool.Ancestor x a → a ∈ inBlock)
    (hpackage : package ⊆ pool.txids)
    (hdisjoint : Disjoint package inBlock) {f : Txid → Int} {g : CTxMemPoolModifiedEntry → Int}
    (htracks : Tracks pool inBlock f g) (hblock : s.assembler.inBlock = inBlock ∪ package)
    (hout : OutOfBlock pool (inBlock ∪ package) s)
    (h : ∀ x ∈ s.modified, ∑ a ∈ pending pool inBlock x, f a ≤ g (s.modifiedEntry x)) :
    OutOfBlock pool (inBlock ∪ package) (s.updatePackagesForAdded pool package)
      ∧ Covers pool f g (s.updatePackagesForAdded pool package) := by
  classical
  have hstart : CoversWithout pool inBlock ∅ f g s := by
    intro x hx
    simp_all
  obtain ⟨hout', hcovers⟩ := foldl_updateForAdded hexact hclosed hpackage hdisjoint htracks
    (fun a ha => mem_elements.mp ha) (nodup_elements package) (fun _ _ =>
      notMem_empty _) hout hstart
  refine ⟨hout', fun x hx => ?_⟩
  have hassembler : (s.updatePackagesForAdded pool package).assembler = s.assembler :=
    (foldl_updateForAdded_frame package s).1
  have hx' := hcovers x hx
  rw [empty_union, toFinset_elements] at hx'
  rw [hassembler, hblock, sum_pending_union hdisjoint (hout'.subset hx),
    PackageState.updatePackagesForAdded]
  convert hx'

section Loop

variable {options : Options} {height : Nat} {cutoff : Int} {s : PackageState} {txid : Txid}
  (hexact : pool.Exact) (hacyclic : pool.Acyclic) (h : PackageInv pool options height cutoff s)
  {fUsingModified : Bool}
include h

theorem PackageInv.tail {it : Txid} {mi : List Txid} (hmi : s.mi = it :: mi) :
    PackageInv pool options height cutoff { s with mi } where
  selected := h.selected
  mi x hx := h.mi x (hmi ▸ mem_cons_of_mem _ hx)
  mi_length := by
    have hlength := h.mi_length
    grind
  outOfBlock := ⟨h.outOfBlock.subset, h.outOfBlock.disjoint⟩
  size := h.size
  sigOpCost := h.sigOpCost
  notGrown := h.notGrown

/-- An entry that fails leaves `mapModifiedTx`. -/
theorem PackageInv.eraseFailed (fUsingModified : Bool) :
    PackageInv pool options height cutoff (s.eraseFailed txid fUsingModified) := by
  cases fUsingModified with
  | false => exact h
  | true =>
    have hsub : s.modified.erase txid ⊆ s.modified := erase_subset _ _
    exact ⟨h.selected, h.mi, h.mi_length, ⟨hsub.trans h.outOfBlock.subset,
      h.outOfBlock.disjoint.mono_left hsub⟩,
      fun x hx => h.size x (hsub hx), fun x hx => h.sigOpCost x (hsub hx), fun x hx =>
      h.notGrown x (hsub hx)⟩

include hexact hacyclic in
theorem PackageInv.addPackage (hx : txid ∈ pool.txids)
    (hfinal : ∀ a ∈ pending pool s.assembler.inBlock txid,
      isFinalTx (pool.entry a).tx height cutoff = true)
    (hweight : s.assembler.nBlockWeight + 4 * ∑ a ∈ pending pool s.assembler.inBlock txid,
      (pool.entry a).getTxSize
      < (clampOptions options).nBlockMaxWeight)
    (hsigOps : s.assembler.nBlockSigOpsCost + ∑ a ∈ pending pool s.assembler.inBlock txid,
      (pool.entry a).sigOpCost
      < maxBlockSigopsCost) :
    PackageInv pool options height cutoff (s.addPackage pool
      (pending pool s.assembler.inBlock txid))
      ∧ (s.addPackage pool (pending pool s.assembler.inBlock txid)).assembler.inBlock
        = s.assembler.inBlock ∪ pending pool s.assembler.inBlock txid := by
  classical
  have hselected := h.selected.addPackage hexact hacyclic hx hfinal hweight hsigOps
  have hpackage : pending pool s.assembler.inBlock txid ⊆ pool.txids := filter_subset _ _
  have hdisjoint : Disjoint (pending pool s.assembler.inBlock txid) s.assembler.inBlock :=
    Finset.disjoint_left.mpr fun a ha => ((mem_pending hx).mp ha).2
  have hclosed : ∀ x ∈ s.assembler.inBlock, ∀ a, pool.Ancestor x a → a ∈ s.assembler.inBlock :=
    fun x hx a => h.selected.ancestor_mem hx
  have hinBlock :
      ((sortForBlock pool (pending pool s.assembler.inBlock txid)).foldl
      (BlockAssembler.addToBlock pool)
      s.assembler).inBlock = s.assembler.inBlock ∪ pending pool s.assembler.inBlock txid := by
    rw [foldl_addToBlock]
    rw [toFinset_sortForBlock]
  unfold PackageState.addPackage
  generalize hs : ({ s with
    nConsecutiveFailed := 0
    assembler :=
      (sortForBlock pool (pending pool s.assembler.inBlock txid)).foldl
        (BlockAssembler.addToBlock pool) s.assembler
    modified := s.modified \ pending pool s.assembler.inBlock txid
    nPackagesSelected := s.nPackagesSelected + 1 } : PackageState) = added
  have hassembler :
      added.assembler = (sortForBlock pool (pending pool s.assembler.inBlock txid)).foldl
      (BlockAssembler.addToBlock pool) s.assembler := by rw [← hs]
  have hmodified :
    added.modified = s.modified \ pending pool s.assembler.inBlock txid := by rw [← hs]
  have hentry : added.modifiedEntry = s.modifiedEntry := by rw [← hs]
  have hmi : added.mi = s.mi := by rw [← hs]
  have hout :
      OutOfBlock pool (s.assembler.inBlock ∪ pending pool s.assembler.inBlock txid) added := by
    refine ⟨?_, ?_⟩ <;> rw [hmodified]
    · exact Finset.sdiff_subset.trans h.outOfBlock.subset
    · exact Finset.disjoint_union_right.mpr
        ⟨h.outOfBlock.disjoint.mono_left sdiff_subset, sdiff_disjoint⟩
  have hold : ∀ x ∈ added.modified, x ∈ s.modified :=
    fun x hx => (Finset.mem_sdiff.mp (hmodified ▸ hx)).1
  have hframe :
      (added.updatePackagesForAdded pool (pending pool s.assembler.inBlock txid)).assembler =
      added.assembler
      ∧ (added.updatePackagesForAdded pool (pending pool s.assembler.inBlock txid)).mi = added.mi :=
    foldl_updateForAdded_frame _ added
  obtain ⟨hout', hsize⟩ := covers_updatePackagesForAdded hexact hclosed hpackage hdisjoint
    ⟨fun a => (pool.entry a).getTxSize_pos.le, fun x hx => (sum_pending_le hexact hx).1,
      fun _ _ => rfl⟩ (hassembler ▸ hinBlock) hout fun x hx => hentry ▸ h.size x (hold x hx)
  obtain ⟨_, hsigOpCost⟩ := covers_updatePackagesForAdded hexact hclosed hpackage hdisjoint
    ⟨fun a => (pool.entry a).sigOpCost_nonneg, fun x hx => (sum_pending_le hexact hx).2,
      fun _ _ => rfl⟩ (hassembler ▸ hinBlock) hout fun x hx => hentry ▸ h.sigOpCost x (hold x hx)
  have hblock := (congrArg BlockAssembler.inBlock (hframe.1.trans hassembler)).trans hinBlock
  have hnotGrown :
    NotGrown pool (added.updatePackagesForAdded pool (pending pool s.assembler.inBlock txid)) :=
    foldl_updateForAdded_notGrown _ _ fun x hx => hentry ▸ h.notGrown x (hold x hx)
  refine ⟨⟨?_, ?_, ?_, ?_, hsize, hsigOpCost, hnotGrown⟩, hblock⟩
  · rw [hframe.1, hassembler]
    exact hselected
  · rw [hframe.2, hmi]
    exact h.mi
  · rw [hframe.2, hmi]
    exact h.mi_length
  · rw [hblock]
    exact hout'

/-! ### An iteration -/

/-- What an iteration may end with: the loop is left with a good block, or there is less
left to do. -/
def Outcome.Good (pool : CTxMemPool nBytesPerSigOp) (options : Options) (height : Nat)
    (cutoff : Int) (bound : Nat) : PackageState.Outcome → Prop
  | .stop s => Selected pool options height cutoff s.assembler
  | .next s => PackageInv pool options height cutoff s ∧ s.remaining pool < bound

omit h in
include hexact in
theorem sum_ancestors_le (hx : x ∈ pool.txids) :
    (pool.entry x).withAncestors.size ≤ ∑ a ∈ pool.txids, (pool.entry a).getTxSize := by
  classical
  rw [hexact.counts.ancestors x hx, sumWithAncestors, Totals.size_sum]
  exact sum_le_sum_of_subset_of_nonneg (filter_subset _ _) fun a _ _ =>
    (pool.entry a).getTxSize_pos.le

omit h in
include hexact in
theorem unlimited_of_exact (hsize : ∑ a ∈ pool.txids, (pool.entry a).getTxSize < 2 ^ 61) :
    pool.Unlimited := by
  classical
  have hle : ∀ s ⊆ pool.txids, ∑ a ∈ s, (pool.entry a).getTxSize < 2 ^ 62 := by
    intro s hs
    exact (sum_getTxSize_le hs).trans_lt (hsize.trans (by decide))
  refine ⟨fun a ha => ?_, fun a ha => ?_, hle _ (Finset.Subset.refl _)⟩
  · rw [hexact.counts.descendants a ha, sumWithDescendants, Totals.size_sum]
    exact hle _ (filter_subset _ _)
  · rw [hexact.counts.descendants a ha, sumWithDescendants, Totals.count_sum]
    have hcard := card_le_sum_getTxSize pool {y ∈ pool.txids | pool.Ancestor y a}
    simpa [CTxMemPoolEntry.descendantWeight] using hcard.trans_lt (hle _ (filter_subset _ _))

include hexact in
theorem PackageInv.package_covers (hx : txid ∈ pool.txids)
    (hmod : fUsingModified = true → txid ∈ s.modified) {package : CTxMemPoolModifiedEntry}
    (hpackage : package = if fUsingModified then s.modifiedEntry txid else .new (pool.entry txid)) :
    ∑ a ∈ pending pool s.assembler.inBlock txid,
    (pool.entry a).getTxSize ≤ package.nSizeWithAncestors
      ∧ ∑ a ∈ pending pool s.assembler.inBlock txid,
        (pool.entry a).sigOpCost ≤ package.nSigOpCostWithAncestors
      ∧ package.nSizeWithAncestors ≤ ∑ a ∈ pool.txids, (pool.entry a).getTxSize := by
  have hle := sum_ancestors_le hexact hx
  cases fUsingModified with
  | false =>
    obtain ⟨hsize, hsigOps⟩ := sum_pending_le hexact hx
    subst hpackage
    exact ⟨hsize, hsigOps, hle⟩
  | true =>
    have hx := hmod rfl
    subst hpackage
    exact ⟨h.size txid hx, h.sigOpCost txid hx, (h.notGrown txid hx).trans hle⟩

/-- A package that passes `TestPackage` fits into the block. -/
theorem PackageInv.testPackage {size sigOps : Int} (hsize : size < 2 ^ 61)
    (htest : s.assembler.testPackage size sigOps = true) :
    s.assembler.nBlockWeight + 4 * size < (clampOptions options).nBlockMaxWeight
      ∧ s.assembler.nBlockSigOpsCost + sigOps < maxBlockSigopsCost := by
  have hweight := h.selected.nBlockWeight_bounds
  have hscale : (witnessScaleFactor : Int) = 4 := rfl
  have hdefault : (defaultBlockMaxWeight : Int) = 3996000 := rfl
  unfold BlockAssembler.testPackage at htest
  rw [h.selected.mOptions, hscale] at htest
  grind

omit h in
include hexact in
/-- What `evaluate` calculates is the package: the entry and its ancestors that are not in the
block. -/
theorem insert_ancestors_eq_pending (hunlimited : pool.Unlimited) (hx : txid ∈ pool.txids)
    (hin : txid ∉ inBlock) :
    insert txid (pool.assumeCalculateMemPoolAncestors txid \ inBlock) =
      pending pool inBlock txid := by
  ext a
  rw [mem_insert, mem_sdiff, mem_assumeCalculateMemPoolAncestors hexact.links.toParentLinks
    hunlimited hx,
    mem_pending hx, CTxMemPool.Ancestor, reflTransGen_iff_eq_or_transGen, or_and_right]
  refine or_congr ?_ Iff.rfl
  exact ⟨fun h => ⟨h, h ▸ hin⟩, And.left⟩

omit h in
theorem remaining_eraseFailed (hmod : fUsingModified = true → txid ∈ s.modified) :
    (s.eraseFailed txid fUsingModified).remaining pool
      < if fUsingModified then s.remaining pool else s.remaining pool + 1 := by
  cases fUsingModified with
  | false => exact Nat.lt_succ_self _
  | true => exact Nat.add_lt_add_left (card_erase_lt_of_mem (hmod rfl)) _

omit h in
theorem PackageInv.remaining_lt {s' : PackageState} (h' : PackageInv pool options height cutoff s')
    {package : Finset Txid}
    (hblock : s'.assembler.inBlock = s.assembler.inBlock ∪ package) (hx : txid ∈ pool.txids)
    (hpackage : txid ∈ package)
    (hin : txid ∉ s.assembler.inBlock) : s'.remaining pool < s.remaining pool := by
  have hcard :
      (pool.txids \ s'.assembler.inBlock).card < (pool.txids \ s.assembler.inBlock).card := by
    refine card_lt_card ((ssubset_iff_of_subset ?_).mpr ⟨txid, ?_, ?_⟩)
    · rw [hblock]
      exact sdiff_subset_sdiff (Finset.Subset.refl _) subset_union_left
    · exact Finset.mem_sdiff.mpr ⟨hx, hin⟩
    · rw [hblock]
      exact fun hmem => (Finset.mem_sdiff.mp hmem).2 (mem_union_right _ hpackage)
  have hmi := h'.mi_length
  have hmodified := card_le_card h'.outOfBlock.subset
  have hmul := Nat.mul_le_mul_right (2 * pool.txids.card + 1) (Nat.succ_le_of_lt hcard)
  rw [Nat.succ_mul] at hmul
  unfold PackageState.remaining
  omega

variable (hsize : ∑ a ∈ pool.txids, (pool.entry a).getTxSize < 2 ^ 61)
include hexact hacyclic hsize

theorem PackageInv.evaluate (hx : txid ∈ pool.txids) (hin : txid ∉ s.assembler.inBlock)
    (hmod : fUsingModified = true → txid ∈ s.modified) :
    ∃ o, s.evaluate pool txid fUsingModified = some o ∧ Outcome.Good pool options height cutoff
      (if fUsingModified then s.remaining pool else s.remaining pool + 1) o := by
  have herased : PackageInv pool options height cutoff (s.eraseFailed txid fUsingModified) :=
    h.eraseFailed fUsingModified
  have hremaining : (s.eraseFailed txid fUsingModified).remaining pool < _ :=
    remaining_eraseFailed hmod
  unfold PackageState.evaluate
  rw [if_neg hin]
  generalize hpackage : (if fUsingModified then s.modifiedEntry txid
    else .new (pool.entry txid)) = package
  obtain ⟨hcovers, hcovers', hle⟩ := h.package_covers hexact hx hmod hpackage.symm
  dsimp only
  split
  · exact ⟨_, rfl, h.selected⟩
  split
  · split
    · exact ⟨_, rfl, herased.selected⟩
    · exact ⟨_, rfl, ⟨herased.selected, herased.mi, herased.mi_length,
        ⟨herased.outOfBlock.subset, herased.outOfBlock.disjoint⟩,
        herased.size, herased.sigOpCost, herased.notGrown⟩, hremaining⟩
  next htest =>
  rw [insert_ancestors_eq_pending hexact (unlimited_of_exact hexact hsize) hx hin]
  split
  · exact ⟨_, rfl, herased, hremaining⟩
  next hfinal =>
  obtain ⟨hweight, hsigOps⟩ := h.testPackage (hle.trans_lt hsize) (Bool.not_eq_false _ ▸ htest)
  have hfinal : ∀ a ∈ pending pool s.assembler.inBlock txid,
      isFinalTx (pool.entry a).tx height cutoff = true := by
    simpa [BlockAssembler.testPackageTransactions, h.selected.nHeight, h.selected.mLockTimeCutoff]
      using hfinal
  obtain ⟨hadded, hblock⟩ := h.addPackage hexact hacyclic hx hfinal (by omega) (by omega)
  refine ⟨_, rfl, hadded, ?_⟩
  have hlt := hadded.remaining_lt hblock hx ((mem_pending hx).mpr ⟨.refl, hin⟩) hin
  grind

theorem PackageInv.iterate : ∃ o, s.iterate pool = some o ∧
    Outcome.Good pool options height cutoff (s.remaining pool) o := by
  have hbest : ∀ modit, s.bestModified pool = some modit →
      ∃ o, s.evaluate pool modit true = some o ∧
      Outcome.Good pool options height cutoff (s.remaining pool) o := by
    intro modit hmodit
    have hmem := mem_elements.mp (Greatest.mem_of_greatest hmodit)
    exact h.evaluate hexact hacyclic hsize (h.outOfBlock.subset hmem)
        (Finset.disjoint_left.mp h.outOfBlock.disjoint hmem)
      fun _ => hmem
  unfold PackageState.iterate
  cases hmi : s.mi with
  | nil =>
    cases hmodit : s.bestModified pool with
    | none => exact ⟨_, rfl, h.selected⟩
    | some modit => exact hbest modit hmodit
  | cons it mi =>
    have htail := h.tail hmi
    have hlt : ({ s with mi } : PackageState).remaining pool + 1 = s.remaining pool := by
      simp only [PackageState.remaining, hmi, length_cons]
      omega
    dsimp only
    split
    · exact ⟨_, rfl, htail, by omega⟩
    next hskip =>
    have hnext : ∃ o, ({ s with mi } : PackageState).evaluate pool it false = some o
        ∧ Outcome.Good pool options height cutoff (s.remaining pool) o := by
      have hit := htail.evaluate hexact hacyclic hsize (h.mi it (hmi ▸ mem_cons_self))
        (fun hin => hskip (.inr (.inl hin))) (fun hfalse : false = true => nomatch hfalse)
      rwa [if_neg Bool.false_ne_true, hlt] at hit
    grind

/-- The loop ends, with a good block. -/
theorem PackageInv.loop : ∃ last : PackageState, Selected pool options height cutoff last.assembler
    ∧ ∀ fuel, s.remaining pool < fuel → PackageState.loop pool fuel s = some last := by
  induction hn : s.remaining pool using Nat.strong_induction_on generalizing s with
  | _ n ih =>
    obtain ⟨o, ho, hgood⟩ := h.iterate hexact hacyclic hsize
    cases o with
    | stop s' =>
      refine ⟨s', hgood, fun fuel hfuel => ?_⟩
      obtain ⟨fuel, rfl⟩ := Nat.exists_eq_add_one_of_ne_zero (Nat.ne_zero_of_lt hfuel)
      rw [PackageState.loop, ho]
    | next s' =>
      obtain ⟨hinv, hlt⟩ := hgood
      rw [hn] at hlt
      obtain ⟨last, hlast, hloop⟩ := ih _ hlt hinv rfl
      refine ⟨last, hlast, fun fuel hfuel => ?_⟩
      obtain ⟨fuel, rfl⟩ := Nat.exists_eq_add_one_of_ne_zero (Nat.ne_zero_of_lt hfuel)
      grind [PackageState.loop]

end Loop

/-- A number of iterations that is enough for the whole pool. -/
def CTxMemPool.iterations (pool : CTxMemPool nBytesPerSigOp) : Nat :=
  (pool.txids.card + 1) * (2 * pool.txids.card + 1)

theorem ancestorScore_perm : (ancestorScore pool).Perm (elements pool.txids) :=
  perm_insertionSort _ _

theorem length_ancestorScore : (ancestorScore pool).length = pool.txids.card := by
  rw [ancestorScore_perm.length_eq, ← toFinset_card_of_nodup (nodup_elements _), toFinset_elements]

/-- A size is an `int32_t`, so the sizes of `2 ^ 30` transactions add up to less than `2 ^ 61`. -/
theorem sum_getTxSize_lt (hcard : pool.txids.card ≤ 2 ^ 30) :
    ∑ x ∈ pool.txids, (pool.entry x).getTxSize < 2 ^ 61 := by
  have hle : ∑ x ∈ pool.txids, (pool.entry x).getTxSize ≤ pool.txids.card • (2 ^ 31 - 1) :=
    sum_le_card_nsmul _ _ _ fun x _ => Int.le_sub_one_of_lt (pool.entry x).getTxSize_lt
  rw [nsmul_eq_mul] at hle
  omega

/-- `addPackageTxs` ends, and what it has chosen from an exact pool makes a valid block. With more
than `2 ^ 61` bytes in the pool the weight of a package may wrap in `TestPackage`. -/
theorem addPackageTxs_valid (pool : CTxMemPool nBytesPerSigOp) (hexact : pool.Exact)
    (hacyclic : pool.Acyclic)
    (hsize : ∑ x ∈ pool.txids, (pool.entry x).getTxSize < 2 ^ 61) (options : Options)
    (nHeight : Nat) (mLockTimeCutoff : Int) : ∃ s : PackageState,
      (∀ fuel, pool.iterations ≤ fuel → addPackageTxs pool
        (.new options nHeight mLockTimeCutoff) fuel = some s)
      ∧ s.assembler.vtx.Nodup
      ∧ (∀ x ∈ s.assembler.vtx, x ∈ pool.txids ∧
        isFinalTx (pool.entry x).tx nHeight mLockTimeCutoff = true)
      ∧ (∀ before x after, s.assembler.vtx = before ++ x :: after → ∀ p,
        pool.Spends x p → p ∈ before)
      ∧ s.assembler.nBlockWeight = 4000 + (s.assembler.vtx.map fun x =>
        (pool.entry x).nTxWeight).sum
      ∧ (s.assembler.vtx ≠ [] ∨ 4000 < s.assembler.mOptions.nBlockMaxWeight →
        s.assembler.nBlockWeight < s.assembler.mOptions.nBlockMaxWeight)
      ∧ s.assembler.nBlockSigOpsCost = 400 + (s.assembler.vtx.map fun x =>
        (pool.entry x).sigOpCost).sum
      ∧ s.assembler.nBlockSigOpsCost < maxBlockSigopsCost
      ∧ s.assembler.nFees = (s.assembler.vtx.map fun x => (pool.entry x).nFee).sum
      ∧ s.assembler.mOptions = clampOptions options := by
  have hnew : PackageInv pool options nHeight mLockTimeCutoff
      (.new pool (.new options nHeight mLockTimeCutoff)) := {
    selected := selected_new
    mi x hx := mem_elements.mp (ancestorScore_perm.mem_iff.mp hx)
    mi_length := length_ancestorScore.le
    outOfBlock := ⟨empty_subset _, disjoint_empty_left _⟩
    size x hx := absurd hx (notMem_empty x)
    sigOpCost x hx := absurd hx (notMem_empty x)
    notGrown x hx := absurd hx (notMem_empty x) }
  obtain ⟨s, hs, hloop⟩ := hnew.loop hexact hacyclic hsize
  refine ⟨s, fun fuel hfuel => hloop fuel ?_, hs.nodup, fun x hx => ⟨hs.mem x hx, hs.final x hx⟩,
    hs.parents, hs.nBlockWeight, ?_, hs.nBlockSigOpsCost, hs.sigOpsCost_lt, hs.nFees, hs.mOptions⟩
  · grind [PackageState.remaining, iterations, PackageState.new, BlockAssembler.new,
      length_ancestorScore, Nat.succ_mul]
  · rw [hs.mOptions]
    rintro (hvtx | hmax)
    · exact hs.weight_lt hvtx
    · by_cases hvtx : s.assembler.vtx = []
      · rw [hs.nBlockWeight, hvtx, map_nil, sum_nil]
        exact Int.ofNat_lt.mpr hmax
      · exact hs.weight_lt hvtx

/-! ### A pool of four transactions -/

theorem diamondPool_acyclic : diamondPool.Acyclic := by
  have hcount : ∀ x ∈ diamondPool.txids, ∀ p ∈ diamondPool.txids,
      p ∈ (diamondPool.entry x).prevoutHashes → (diamondPool.entry p).withAncestors.count
        < (diamondPool.entry x).withAncestors.count := by decide +kernel
  have hless : ∀ {x y}, TransGen diamondPool.Spends x y →
      (diamondPool.entry y).withAncestors.count < (diamondPool.entry x).withAncestors.count := by
    intro x y hreach
    induction hreach with
    | single hstep => exact hcount _ hstep.1 _ hstep.2.1 hstep.2.2
    | tail _ hstep ih => exact (hcount _ hstep.1 _ hstep.2.1 hstep.2.2).trans ih
  exact fun x hcycle => lt_irrefl _ (hless hcycle)

/-- The block takes the parent and one child, then the other child, then what spends both. -/
theorem diamondPool_chosen : ∃ s : PackageState,
    addPackageTxs diamondPool (.new ⟨4000000, fun _ => 0⟩ 1 0) diamondPool.iterations = some s
      ∧ s.assembler.vtx = [uint256S 1, uint256S 2, uint256S 3, uint256S 4]
      ∧ s.assembler.nBlockWeight < s.assembler.mOptions.nBlockMaxWeight := by
  obtain ⟨s, hs, _, _, _, _, hweight, _⟩ := addPackageTxs_valid diamondPool diamondPool_exact
    diamondPool_acyclic (sum_getTxSize_lt (by decide +kernel)) ⟨4000000, fun _ => 0⟩ 1 0
  have hvtx :
      (addPackageTxs diamondPool (.new ⟨4000000, fun _ => 0⟩ 1 0) diamondPool.iterations).map
      (fun s => s.assembler.vtx) = some [uint256S 1, uint256S 2, uint256S 3, uint256S 4] := by
    decide +kernel
  grind

/-- With the least maximum weight nothing is chosen, and the reserved weight is all of it. -/
theorem diamondPool_nothing_fits : diamondPool.Exact ∧ diamondPool.Acyclic ∧ ∃ s : PackageState,
    addPackageTxs diamondPool (.new ⟨4000, fun _ => 0⟩ 1 0) diamondPool.iterations = some s
      ∧ s.assembler.vtx = [] ∧ ¬s.assembler.nBlockWeight <
        s.assembler.mOptions.nBlockMaxWeight := by
  have hrun : (addPackageTxs diamondPool (.new ⟨4000, fun _ => 0⟩ 1 0) diamondPool.iterations).map
      (fun s => (s.assembler.vtx, s.assembler.nBlockWeight, s.assembler.mOptions.nBlockMaxWeight))
        = some ([], 4000, 4000) := by
    decide +kernel
  obtain ⟨s, hs, heq⟩ := Option.map_eq_some_iff.mp hrun
  simp_all [diamondPool_exact, diamondPool_acyclic]

end Bitcoboost.Mempool
