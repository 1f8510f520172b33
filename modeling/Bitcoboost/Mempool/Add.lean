import Bitcoboost.Lib.NewSource
import Bitcoboost.Mempool.Ancestors

/-!
# Adding an entry

What `addUnchecked` changes, for a txid that the pool does not have: `Added`. If the set
that it is given is that of the ancestors, what it adds to the totals is what the new entry
adds to the sums over ancestors and descendants, and no assertion fails:
`exists_addUnchecked`.
-/

namespace Bitcoboost.Mempool

open Relation CTxMemPoolEntry Finset Option Function

variable {nBytesPerSigOp : Nat}

namespace CTxMemPool

variable {pool pool' : CTxMemPool nBytesPerSigOp} {txid x : Txid} {e : NewTx nBytesPerSigOp}
  {ancestors : Finset Txid}

/-! ## Changes of the map -/

section Modify

variable (pool) (txids : Finset Txid)
  (f : CTxMemPoolEntry nBytesPerSigOp → CTxMemPoolEntry nBytesPerSigOp)

theorem modify_entry (x : Txid) :
    (pool.modify txids f).entry x = if x ∈ txids then f (pool.entry x) else pool.entry x := rfl

end Modify

theorem modifyChecked_eq_some {txids : Finset Txid}
    {f : CTxMemPoolEntry nBytesPerSigOp → Option (CTxMemPoolEntry nBytesPerSigOp)} :
    pool.modifyChecked txids f = some pool' ↔
      (∀ x ∈ txids, f (pool.entry x) = some (pool'.entry x)) ∧
        (∀ x ∉ txids, pool'.entry x = pool.entry x)
        ∧ pool' = { pool with entry := pool'.entry } := by
  unfold modifyChecked
  constructor
  · intro h
    split at h
    · rename_i hall
      cases h
      refine ⟨fun x hx => ?_, fun x hx => ?_, rfl⟩
      · obtain ⟨e, he⟩ := Option.isSome_iff_exists.mp (hall x hx)
        rw [modify_entry, if_pos hx, he, getD_some]
      · rw [modify_entry, if_neg hx]
    · cases h
  · rintro ⟨hin, hout, heq⟩
    rw [if_pos fun x hx => by rw [hin x hx]; rfl, heq]
    refine congrArg some ?_
    unfold modify
    congr 1
    funext x
    by_cases hx : x ∈ txids
    · simp [if_pos hx, hin x hx]
    · rw [if_neg hx, hout x hx]

structure DescendantsUpdated (pool : CTxMemPool nBytesPerSigOp) (txids : Finset Txid)
    (modify : Totals) (pool' : CTxMemPool nBytesPerSigOp) : Prop where
  entry :
    ∀ x, pool'.entry x = { pool.entry x with withDescendants := (pool'.entry x).withDescendants }
  update : ∀ x ∈ txids, (pool.entry x).withDescendants.update modify =
    some (pool'.entry x).withDescendants
  same : ∀ x ∉ txids, (pool'.entry x).withDescendants = (pool.entry x).withDescendants
  rest : pool' = { pool with entry := pool'.entry }

structure AncestorsUpdated (pool : CTxMemPool nBytesPerSigOp) (txids : Finset Txid)
    (modify : Totals) (pool' : CTxMemPool nBytesPerSigOp) : Prop where
  entry : ∀ x, pool'.entry x = { pool.entry x with withAncestors := (pool'.entry x).withAncestors }
  update : ∀ x ∈ txids, (pool.entry x).withAncestors.update modify =
    some (pool'.entry x).withAncestors
  same : ∀ x ∉ txids, (pool'.entry x).withAncestors = (pool.entry x).withAncestors
  rest : pool' = { pool with entry := pool'.entry }

section Update

variable {txids : Finset Txid} {totals : Totals}

theorem descendantsUpdated_of_eq (h : pool.modifyChecked txids (·.updateDescendantState totals) =
    some pool') : DescendantsUpdated pool txids totals pool' := by
  obtain ⟨hin, hout, hrest⟩ := modifyChecked_eq_some.mp h
  have hupdate : ∀ x ∈ txids, ∃ withDescendants,
      (pool.entry x).withDescendants.update totals = some withDescendants
      ∧ { pool.entry x with withDescendants } = pool'.entry x :=
    fun x hx => Option.map_eq_some_iff.mp (hin x hx)
  refine ⟨fun x => ?_, fun x hx => ?_, fun x hx => ?_, hrest⟩
  · by_cases hx : x ∈ txids
    · obtain ⟨_, _, heq⟩ := hupdate x hx
      rw [← heq]
    · rw [hout x hx]
  · obtain ⟨_, hsome, heq⟩ := hupdate x hx
    rw [← heq]
    exact hsome
  · rw [hout x hx]

theorem ancestorsUpdated_of_eq (h : pool.modifyChecked txids (·.updateAncestorState totals) =
    some pool') : AncestorsUpdated pool txids totals pool' := by
  obtain ⟨hin, hout, hrest⟩ := modifyChecked_eq_some.mp h
  have hupdate : ∀ x ∈ txids, ∃ withAncestors,
      (pool.entry x).withAncestors.update totals = some withAncestors
      ∧ { pool.entry x with withAncestors } = pool'.entry x :=
    fun x hx => Option.map_eq_some_iff.mp (hin x hx)
  refine ⟨fun x => ?_, fun x hx => ?_, fun x hx => ?_, hrest⟩
  · by_cases hx : x ∈ txids
    · obtain ⟨_, _, heq⟩ := hupdate x hx
      rw [← heq]
    · rw [hout x hx]
  · obtain ⟨_, hsome, heq⟩ := hupdate x hx
    rw [← heq]
    exact hsome
  · rw [hout x hx]

end Update

/-! ## What `addUnchecked` does -/

/-- The fee of a new entry with what `PrioritiseTransaction` added to it. -/
def newModifiedFee (pool : CTxMemPool nBytesPerSigOp) (txid : Txid)
    (e : NewTx nBytesPerSigOp) : CAmount :=
  if pool.mapDeltas txid ≠ 0 then saturatingAdd e.nFee (pool.mapDeltas txid) else e.nFee

/-- A new entry with its parents in the pool that it is added to. It counts itself only. -/
def newEntry (pool : CTxMemPool nBytesPerSigOp) (txid : Txid) (e : NewTx nBytesPerSigOp) :
    CTxMemPoolEntry nBytesPerSigOp where
  toNewTx := e
  modifiedFee := pool.newModifiedFee txid e
  parents := e.prevoutHashes.toFinset ∩ insert txid pool.txids
  children := ∅
  withDescendants := ⟨1, e.getTxSize, pool.newModifiedFee txid e, 0⟩
  withAncestors := ⟨1, e.getTxSize, pool.newModifiedFee txid e, e.sigOpCost⟩

theorem insertEntry_eq (hnew : txid ∉ pool.txids) :
    pool.insertEntry txid e = { pool with
      txids := insert txid pool.txids
      entry := update pool.entry txid (pool.newEntry txid e)
      mapNextTx :=
        e.tx.vin.foldl (fun mapNextTx (txin : CTxIn) => insertNext mapNextTx txin.prevout txid)
        pool.mapNextTx } := by
  unfold insertEntry emplace
  rw [if_neg hnew]
  dsimp only
  by_cases hdelta : pool.mapDeltas txid = 0
  · rw [if_neg (not_not.mpr hdelta)]
    unfold modify
    congr 1
    funext x
    by_cases hx : x = txid
    · subst hx
      simp [getIterSet, newEntry, newModifiedFee, hdelta, new]
    · simp [hx]
  · rw [if_pos hdelta]
    unfold modify
    congr 1
    funext x
    by_cases hx : x = txid
    · subst hx
      simp [getIterSet, newEntry, newModifiedFee, hdelta, new, updateModifiedFee]
    · simp [hx]

section InsertEntry

variable (hnew : txid ∉ pool.txids)
include hnew

theorem insertEntry_txids : (pool.insertEntry txid e).txids = insert txid pool.txids := by
  rw [insertEntry_eq hnew]

theorem insertEntry_entry_self : (pool.insertEntry txid e).entry txid = pool.newEntry txid e := by
  rw [insertEntry_eq hnew]
  exact update_self ..

theorem insertEntry_entry_of_ne (hx : x ≠ txid) :
    (pool.insertEntry txid e).entry x = pool.entry x := by
  rw [insertEntry_eq hnew]
  exact update_of_ne hx ..

end InsertEntry

/-- What `addUnchecked` makes of a pool that has the new entry with its parents. -/
structure Added (pool : CTxMemPool nBytesPerSigOp) (txid : Txid) (e : NewTx nBytesPerSigOp)
    (ancestors : Finset Txid) (pool' : CTxMemPool nBytesPerSigOp) : Prop where
  txids : pool'.txids = pool.txids
  toNewTx : ∀ x, (pool'.entry x).toNewTx = (pool.entry x).toNewTx
  modifiedFee : ∀ x, (pool'.entry x).modifiedFee = (pool.entry x).modifiedFee
  parents : ∀ x, (pool'.entry x).parents = (pool.entry x).parents
  children : ∀ x, (pool'.entry x).children
    = if x ∈ (pool.entry txid).parents then insert txid (pool.entry x).children
      else (pool.entry x).children
  withDescendants : ∀ a ∈ ancestors,
    (pool.entry a).withDescendants.update (pool.entry txid).descendantWeight =
    some (pool'.entry a).withDescendants
  withDescendants_of_notMem : ∀ x ∉ ancestors,
    (pool'.entry x).withDescendants = (pool.entry x).withDescendants
  withAncestors : (pool.entry txid).withAncestors.update (∑ a ∈ ancestors, (pool.entry a).weight)
    = some (pool'.entry txid).withAncestors
  withAncestors_of_ne : ∀ x ≠ txid, (pool'.entry x).withAncestors = (pool.entry x).withAncestors
  rest : pool' = { pool with
    entry := pool'.entry, totalTxSize := pool.totalTxSize + e.getTxSize
    mTotalFee := pool.mTotalFee + e.nFee }

theorem added_of_addUnchecked (h : pool.addUnchecked txid e ancestors = some pool') :
    Added (pool.insertEntry txid e) txid e ancestors pool' := by
  unfold addUnchecked at h
  generalize pool.insertEntry txid e = pool at h ⊢
  obtain ⟨pool₁, h₁, h⟩ := Option.bind_eq_some_iff.mp h
  obtain ⟨pool₂, h₂, h⟩ := Option.bind_eq_some_iff.mp h
  cases h
  have hd := descendantsUpdated_of_eq h₁
  have ha := ancestorsUpdated_of_eq h₂
  have hentry :
      ∀ x, pool₂.entry x = { (pool.updateChild (pool.entry txid).parents txid true).entry x with
      withDescendants := (pool₁.entry x).withDescendants
      withAncestors := (pool₂.entry x).withAncestors } := by
    intro x
    rw [ha.entry x, hd.entry x]
  have hchild :
      ∀ x, (pool.updateChild (pool.entry txid).parents txid true).entry x = { pool.entry x with
      children := if x ∈ (pool.entry txid).parents then insert txid (pool.entry x).children
        else (pool.entry x).children } := by
    intro x
    unfold updateChild
    rw [modify_entry]
    split <;> rfl
  have hweight : ∀ a, (pool₁.entry a).weight = (pool.entry a).weight := by
    intro a
    rw [hd.entry a, hchild a]
    rfl
  have hdesc : ∀ x, (pool₂.entry x).withDescendants = (pool₁.entry x).withDescendants :=
    fun x => by rw [ha.entry x]
  have hanc : ∀ x, (pool₁.entry x).withAncestors = (pool.entry x).withAncestors := fun x => by
    rw [hd.entry x, hchild x]
  have hdesc₀ :
      ∀ x, ((pool.updateChild (pool.entry txid).parents txid true).entry x).withDescendants
      = (pool.entry x).withDescendants := fun x => by rw [hchild x]
  refine ⟨?_, fun x => ?_, fun x => ?_, fun x => ?_, fun x => ?_, fun a hmem => ?_, fun x hx => ?_,
    ?_, fun x hx => ?_, ?_⟩
  · rw [ha.rest, hd.rest]
    rfl
  · rw [hentry x, hchild x]
  · rw [hentry x, hchild x]
  · rw [hentry x, hchild x]
  · rw [hentry x, hchild x]
  · have hsome := hd.update a hmem
    rw [hdesc₀] at hsome
    exact hsome.trans (congrArg some (hdesc a).symm)
  · exact (hdesc x).trans ((hd.same x hx).trans (hdesc₀ x))
  · have hsome := ha.update txid (mem_singleton_self _)
    rw [hanc, sum_congr rfl fun a _ => hweight a] at hsome
    exact hsome
  · exact (ha.same x (by simpa using hx)).trans (hanc x)
  · rw [ha.rest, hd.rest]
    rfl

theorem Added.sameTxs (h : Added pool txid e ancestors pool') : SameTxs pool pool' :=
  ⟨h.txids, h.toNewTx, h.modifiedFee⟩

/-! ## Exactness -/

section Exactness

variable {Linked : Txid → Txid → Prop}

def LinkedWith (pool : CTxMemPool nBytesPerSigOp) (Linked : Txid → Txid → Prop) (txid : Txid)
    (e : NewTx nBytesPerSigOp) (child parent : Txid) : Prop :=
  Linked child parent ∨ child = txid ∧ parent ∈ (pool.newEntry txid e).parents

theorem Links.extends (hlinks : pool.Links Linked) (hnew : txid ∉ pool.txids) :
    NewSource.Extends Linked (pool.LinkedWith Linked txid e) txid where
  old := .inl
  new h hne := h.resolve_right fun h => hne h.1
  source _ h := hnew (hlinks.mem h).2

variable (hlinks : pool.Links Linked) (hnew : txid ∉ pool.txids) {y : Txid}

include hnew in
/-- If nothing in the pool spends the new entry, then the links to its parents are all that
is new. -/
theorem Added.spends_iff (h : Added (pool.insertEntry txid e) txid e ancestors pool')
    (hno : ∀ c ∈ pool.txids, txid ∉ (pool.entry c).prevoutHashes) {child parent : Txid} :
    pool'.Spends child parent ↔ pool.LinkedWith pool.Spends txid e child parent := by
  have htxids : pool'.txids = insert txid pool.txids := h.txids.trans (insertEntry_txids hnew)
  unfold Spends LinkedWith
  rw [htxids, h.toNewTx]
  by_cases hchild : child = txid
  · subst hchild
    rw [insertEntry_entry_self hnew]
    simp only [hnew, false_and, false_or, true_and, mem_insert_self, newEntry, mem_inter,
      List.mem_toFinset]
    exact and_comm
  · rw [insertEntry_entry_of_ne hnew hchild]
    simp only [mem_insert, hchild, false_or, false_and, or_false]
    constructor
    · rintro ⟨hc, rfl | hp, hprev⟩
      · exact absurd hprev (hno child hc)
      · exact ⟨hc, hp, hprev⟩
    · rintro ⟨hc, hp, hprev⟩
      exact ⟨hc, .inr hp, hprev⟩

include hlinks hnew in
theorem Links.reaches_of_mem (hx : x ∈ pool.txids) :
    ReflTransGen (pool.LinkedWith Linked txid e) x y ↔ ReflTransGen Linked x y :=
  (hlinks.extends hnew).reaches_of_ne fun heq => hnew (heq ▸ hx)

include hlinks hnew in
/-- The ancestors of the new entry are itself and those that were found. -/
theorem Links.reaches_new :
    ReflTransGen (pool.LinkedWith Linked txid e) txid y ↔ y = txid ∨
    y ∈ pool.ancestorsOf Linked e := by
  rw [(hlinks.extends hnew).reaches_source, mem_ancestorsOf hlinks.toParentLinks]
  refine or_congr_right (exists_congr fun p => ?_)
  rw [← and_assoc]
  refine and_congr_left fun _ => ?_
  constructor
  · rintro ⟨hl | ⟨_, hp⟩, hne⟩
    · exact absurd (hlinks.mem hl).1 hnew
    · obtain ⟨hprev, hmem⟩ := Finset.mem_inter.mp hp
      exact Finset.mem_inter.mpr ⟨hprev, mem_of_mem_insert_of_ne hmem hne⟩
  · intro hp
    obtain ⟨hprev, hmem⟩ := Finset.mem_inter.mp hp
    refine ⟨.inr ⟨rfl, Finset.mem_inter.mpr ⟨hprev, mem_insert_of_mem hmem⟩⟩, ?_⟩
    rintro rfl
    exact hnew hmem

include hnew in
theorem insertEntry_entry_of_mem (hx : x ∈ pool.txids) :
    (pool.insertEntry txid e).entry x = pool.entry x :=
  insertEntry_entry_of_ne hnew fun heq => hnew (heq ▸ hx)

include hlinks hnew

theorem insertEntry_sumWithAncestors_of_mem (hx : x ∈ pool.txids) :
    (pool.insertEntry txid e).sumWithAncestors (ReflTransGen (pool.LinkedWith Linked txid e)) x
      = pool.sumWithAncestors (ReflTransGen Linked) x := by
  classical
  have hfilter :
      {y ∈ (pool.insertEntry txid e).txids | ReflTransGen (pool.LinkedWith Linked txid e) x y}
      = {y ∈ pool.txids | ReflTransGen Linked x y} := by
    ext y
    rw [mem_filter, mem_filter, insertEntry_txids hnew, hlinks.reaches_of_mem hnew hx]
    refine ⟨fun ⟨_, hxy⟩ => ⟨hlinks.mem_of_ancestor hx hxy, hxy⟩, fun ⟨hy, hxy⟩ =>
      ⟨mem_insert_of_mem hy, hxy⟩⟩
  unfold sumWithAncestors
  rw [hfilter]
  exact sum_congr rfl fun y hy => by rw [insertEntry_entry_of_mem hnew (Finset.mem_filter.mp hy).1]

theorem insertEntry_sumWithAncestors_new :
    (pool.insertEntry txid e).sumWithAncestors (ReflTransGen (pool.LinkedWith Linked txid e)) txid
      = (pool.newEntry txid e).weight + ∑ a ∈ pool.ancestorsOf Linked e,
        ((pool.insertEntry txid e).entry a).weight := by
  classical
  have hfilter :
      {y ∈ (pool.insertEntry txid e).txids | ReflTransGen (pool.LinkedWith Linked txid e) txid y}
      = insert txid (pool.ancestorsOf Linked e) := by
    ext y
    rw [mem_filter, insertEntry_txids hnew, hlinks.reaches_new hnew, mem_insert, mem_insert]
    refine ⟨fun hy => hy.2, fun hy => ⟨hy.imp_right fun ha => ?_, hy⟩⟩
    exact ancestorsOf_subset ha
  have hnot : txid ∉ pool.ancestorsOf Linked e := fun ha => hnew (ancestorsOf_subset ha)
  unfold sumWithAncestors
  rw [hfilter, sum_insert hnot, insertEntry_entry_self hnew]

theorem insertEntry_sumWithDescendants_of_mem (hx : x ∈ pool.txids) :
    (pool.insertEntry txid e).sumWithDescendants (ReflTransGen (pool.LinkedWith Linked txid e)) x
      = pool.sumWithDescendants (ReflTransGen Linked) x
        + if x ∈ pool.ancestorsOf Linked e then (pool.newEntry txid e).descendantWeight else 0 := by
  classical
  have hsame : ∑ d ∈ pool.txids with ReflTransGen (pool.LinkedWith Linked txid e) d x,
      ((pool.insertEntry txid e).entry d).descendantWeight =
      pool.sumWithDescendants (ReflTransGen Linked) x := by
    refine sum_congr (filter_congr fun d hd => hlinks.reaches_of_mem hnew hd) fun d hd => ?_
    rw [insertEntry_entry_of_mem hnew (Finset.mem_filter.mp hd).1]
  have hne : x ≠ txid := fun heq => hnew (heq ▸ hx)
  have hreach : ReflTransGen (pool.LinkedWith Linked txid e) txid x ↔
      x ∈ pool.ancestorsOf Linked e := by
    rw [hlinks.reaches_new hnew, or_iff_right hne]
  rw [sumWithDescendants, insertEntry_txids hnew, filter_insert]
  by_cases hmem : x ∈ pool.ancestorsOf Linked e
  · rw [if_pos (hreach.mpr hmem), if_pos hmem, sum_insert fun hd =>
      hnew (Finset.mem_filter.mp hd).1, insertEntry_entry_self hnew, hsame, add_comm]
  · rw [if_neg fun hr => hmem (hreach.mp hr), if_neg hmem, hsame, add_zero]

theorem insertEntry_sumWithDescendants_new :
    (pool.insertEntry txid e).sumWithDescendants (ReflTransGen (pool.LinkedWith Linked txid e)) txid
      = (pool.newEntry txid e).descendantWeight := by
  classical
  have hfilter :
      {d ∈ (pool.insertEntry txid e).txids | ReflTransGen (pool.LinkedWith Linked txid e) d txid}
      = {txid} := by
    ext d
    rw [mem_filter, insertEntry_txids hnew, mem_insert, mem_singleton]
    constructor
    · rintro ⟨rfl | hd, hreach⟩
      · rfl
      · rw [hlinks.reaches_of_mem hnew hd] at hreach
        exact absurd (hlinks.mem_of_ancestor hd hreach) hnew
    · rintro rfl
      exact ⟨.inl rfl, .refl⟩
  rw [sumWithDescendants, hfilter, sum_singleton, insertEntry_entry_self hnew]

section Update

variable (hcounts : pool.Counts (ReflTransGen Linked))
include hcounts

section

variable (hrange : (pool.insertEntry txid e).SizesInRange)
include hrange

/-- The descendants' totals of an ancestor fit, and so does what is added to them. -/
theorem insertEntry_descendants (hx : x ∈ pool.ancestorsOf Linked e) :
    ((pool.insertEntry txid e).entry x).withDescendants.Fits
    ((pool.insertEntry txid e).entry txid).descendantWeight
      ∧ ((pool.insertEntry txid e).entry x).withDescendants +
        ((pool.insertEntry txid e).entry txid).descendantWeight
        = (pool.insertEntry txid e).sumWithDescendants
          (ReflTransGen (pool.LinkedWith Linked txid e)) x := by
  classical
  have hmem : x ∈ pool.txids := ancestorsOf_subset hx
  have hsmall : e.getTxSize < 2 ^ 31 := e.getTxSize_lt
  have hpos : 0 < e.getTxSize := e.getTxSize_pos
  have hsum := insertEntry_sumWithDescendants_of_mem (e := e) hlinks hnew hmem
  rw [if_pos hx, ← hcounts.descendants x hmem] at hsum
  rw [insertEntry_entry_of_mem hnew hmem, insertEntry_entry_self hnew]
  refine ⟨hrange.descendantWeights.fits (filter_subset _ _) ?_ hsum.symm ?_ hsmall, hsum.symm⟩
  · refine ⟨x, Finset.mem_filter.mpr ⟨?_, .refl⟩⟩
    rw [insertEntry_txids hnew]
    exact mem_insert_of_mem hmem
  · exact (by omega : -2 ^ 31 ≤ e.getTxSize)

omit hcounts in
theorem insertEntry_ancestors :
    ((pool.insertEntry txid e).entry txid).withAncestors.Fits
        (∑ a ∈ pool.ancestorsOf Linked e, ((pool.insertEntry txid e).entry a).weight)
      ∧ ((pool.insertEntry txid e).entry txid).withAncestors
          + ∑ a ∈ pool.ancestorsOf Linked e, ((pool.insertEntry txid e).entry a).weight
        = (pool.insertEntry txid e).sumWithAncestors
          (ReflTransGen (pool.LinkedWith Linked txid e)) txid := by
  classical
  have hsub : pool.ancestorsOf Linked e ⊆ (pool.insertEntry txid e).txids := by
    rw [insertEntry_txids hnew]
    exact ancestorsOf_subset.trans (subset_insert _ _)
  have hlt := hrange.weights.size_sum_lt hsub
  have hge := hrange.weights.size_sum_nonneg hsub
  have hsum := insertEntry_sumWithAncestors_new (e := e) hlinks hnew
  rw [insertEntry_entry_self hnew]
  refine ⟨hrange.weights.fits (filter_subset _ _) ?_ hsum.symm (by omega) hlt, hsum.symm⟩
  refine ⟨txid, Finset.mem_filter.mpr ⟨?_, .refl⟩⟩
  rw [insertEntry_txids hnew]
  exact mem_insert_self _ _

/-- `addUnchecked` fails no assertion if the sizes are in range. -/
theorem exists_addUnchecked :
    ∃ pool', pool.addUnchecked txid e (pool.ancestorsOf Linked e) = some pool' := by
  have hdescendants := fun x (hx : x ∈ pool.ancestorsOf Linked e) =>
    (insertEntry_descendants hlinks hnew hcounts hrange hx).1.update
  have hancestors := (insertEntry_ancestors hlinks hnew hrange).1.update
  unfold addUnchecked
  generalize pool.insertEntry txid e = inserted at hdescendants hancestors
  have hchild :
      ∀ x, ((inserted.updateChild (inserted.entry txid).parents txid true).entry x).withDescendants
      = (inserted.entry x).withDescendants := by
    intro x
    rw [updateChild, modify_entry]
    split <;> rfl
  obtain ⟨first, hfirst⟩ :
      ∃ first, inserted.updateAncestorsOf true txid (pool.ancestorsOf Linked e) = some first := by
    refine ⟨_, if_pos fun x hx => ?_⟩
    simp [updateDescendantState, hchild, hdescendants x hx]
  have hd := descendantsUpdated_of_eq hfirst
  have hkeep : ∀ x, (first.entry x).withAncestors = (inserted.entry x).withAncestors
      ∧ (first.entry x).weight = (inserted.entry x).weight := by
    intro x
    rw [hd.entry x, updateChild, modify_entry]
    split <;> exact ⟨rfl, rfl⟩
  obtain ⟨second, hsecond⟩ :
      ∃ second, first.updateEntryForAncestors txid (pool.ancestorsOf Linked e) = some second := by
    refine ⟨_, if_pos fun x hx => ?_⟩
    rw [Finset.mem_singleton.mp hx]
    simp [updateAncestorState, (hkeep txid).1, sum_congr rfl fun a _ => (hkeep a).2, hancestors]
  exact ⟨_, by simp only [hfirst, hsecond, bind_eq_bind, bind_some]; rfl⟩

end

end Update

end Exactness

end CTxMemPool

end Bitcoboost.Mempool
