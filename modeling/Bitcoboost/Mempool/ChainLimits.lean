import Bitcoboost.Mempool.Add

/-!
# The limits on chains of unconfirmed transactions

`CalculateMemPoolAncestors` decides if a new entry may be added: with it, no entry may have too
many or too large ancestors or descendants. An entry without parents in the pool is not checked
at all. It may exceed the limits for itself, but then it exceeds them before it is added.
-/

namespace Bitcoboost.Mempool

open Relation Totals Finset

variable {nBytesPerSigOp : Nat}

/-- The four limits, on what an entry counts. -/
structure Limits.Allow (limits : Limits) (withAncestors withDescendants : Totals) : Prop where
  ancestorCount : withAncestors.count ≤ limits.ancestorCount.toInt
  ancestorSize : withAncestors.size ≤ limits.ancestorSizeVbytes.toInt
  descendantCount : withDescendants.count ≤ limits.descendantCount.toInt
  descendantSize : withDescendants.size ≤ limits.descendantSizeVbytes.toInt

instance (limits : Limits) (withAncestors withDescendants : Totals) :
    Decidable (limits.Allow withAncestors withDescendants) :=
  decidable_of_iff (_ ∧ _ ∧ _ ∧ _) ⟨fun h => ⟨h.1, h.2.1, h.2.2.1, h.2.2.2⟩,
    fun h => ⟨h.ancestorCount, h.ancestorSize, h.descendantCount, h.descendantSize⟩⟩

/-- A limit is not less as a `uint64_t`. -/
theorem toInt_le_toNat (limit : BitVec 64) : limit.toInt ≤ limit.toNat := by
  rw [BitVec.toInt_eq_toNat_cond]
  split <;> omega

/-- A limit that allows something is the same as a `uint64_t`. -/
theorem toInt_eq_toNat {limit : BitVec 64} (h : 0 ≤ limit.toInt) : limit.toInt = limit.toNat := by
  have hlt := limit.isLt
  rw [BitVec.toInt_eq_toNat_cond] at h ⊢
  split at h
  · rw [if_pos (by assumption)]
  · omega

namespace CTxMemPool

variable {pool pool' : CTxMemPool nBytesPerSigOp} {txid x : Txid} {e : NewTx nBytesPerSigOp}
  {limits : Limits}

/-! ## An entry that is accepted -/

section Accepted

variable (hexact : pool.Exact) (hnew : txid ∉ pool.txids)
  (hwithin : pool.WithinLimits limits e.getTxSize 1 (pool.ancestorsOf pool.Spends e))

theorem size_sum_weight (s : Finset Txid) :
    (∑ a ∈ s, (pool.entry a).weight).size = ∑ a ∈ s, (pool.entry a).getTxSize :=
  size_sum s _

theorem count_sum_weight (s : Finset Txid) : (∑ a ∈ s, (pool.entry a).weight).count = s.card := by
  rw [count_sum]
  simp [CTxMemPoolEntry.weight]

include hwithin in
/-- What the ancestors of a new entry that is allowed for itself add keeps it allowed. -/
theorem WithinLimits.ancestors (hcount : 1 ≤ limits.ancestorCount.toInt)
    (hsize : e.getTxSize ≤ limits.ancestorSizeVbytes.toInt) :
    1 + ((pool.ancestorsOf pool.Spends e).card : Int) ≤ limits.ancestorCount.toInt
      ∧ e.getTxSize + ∑ a ∈ pool.ancestorsOf pool.Spends e, (pool.entry a).getTxSize
        ≤ limits.ancestorSizeVbytes.toInt := by
  rcases (pool.ancestorsOf pool.Spends e).eq_empty_or_nonempty with hempty | hne
  · rw [hempty]
    exact ⟨by simpa using hcount, by simpa using hsize⟩
  · have hle := hwithin.ancestorCount hne
    rw [toInt_eq_toNat (by omega)]
    exact ⟨by omega, hwithin.ancestorSize hne⟩

include hexact in
theorem Exact.count_pos (hx : x ∈ pool.txids) : 0 < (pool.entry x).withDescendants.count := by
  classical
  rw [hexact.counts.descendants x hx, sumWithDescendants, count_sum]
  exact sum_pos (fun _ _ => Int.one_pos) ⟨x, Finset.mem_filter.mpr ⟨hx, .refl⟩⟩

include hexact hwithin in
/-- An ancestor that was allowed is allowed with the new entry. -/
theorem WithinLimits.descendants (hx : x ∈ pool.ancestorsOf pool.Spends e)
    (hcount : (pool.entry x).withDescendants.count ≤ limits.descendantCount.toInt) :
    (pool.entry x).withDescendants.count + 1 ≤ limits.descendantCount.toInt
      ∧ (pool.entry x).withDescendants.size + e.getTxSize ≤ limits.descendantSizeVbytes.toInt := by
  have hpos := hexact.count_pos (ancestorsOf_subset hx)
  rw [toInt_eq_toNat (by omega)]
  exact ⟨hwithin.descendantCount x hx, hwithin.descendantSize x hx⟩

variable {n : CTxMemPoolEntry nBytesPerSigOp}

section

variable (hnew : txid ∉ pool.txids)
include hnew

theorem emplace_entry_self : (pool.emplace txid n).entry txid = n := by
  rw [emplace, if_neg hnew]
  exact Function.update_self ..

theorem emplace_entry_of_ne (hx : x ≠ txid) : (pool.emplace txid n).entry x = pool.entry x := by
  rw [emplace, if_neg hnew]
  exact Function.update_of_ne hx ..

theorem emplace_txids : (pool.emplace txid n).txids = insert txid pool.txids := by
  rw [emplace, if_neg hnew]

end

include hnew in
theorem insertEntry_sum_weight :
    ∑ a ∈ pool.ancestorsOf pool.Spends e, ((pool.insertEntry txid e).entry a).weight
    = ∑ a ∈ pool.ancestorsOf pool.Spends e, (pool.entry a).weight :=
  sum_congr rfl fun a ha => by rw [insertEntry_entry_of_mem hnew (ancestorsOf_subset ha)]

variable (h : Added (pool.insertEntry txid e) txid e (pool.ancestorsOf pool.Spends e) pool')
  (hx : x ∈ pool'.txids)
  (hbefore : limits.Allow ((pool.emplace txid (.new e)).entry x).withAncestors
    ((pool.emplace txid (.new e)).entry x).withDescendants)
include hexact hnew hwithin h hx hbefore

theorem WithinLimits.allow_entry :
    limits.Allow (pool'.entry x).withAncestors (pool'.entry x).withDescendants := by
  have hnot : txid ∉ pool.ancestorsOf pool.Spends e := fun ha => hnew (ancestorsOf_subset ha)
  have htxids : pool'.txids = insert txid pool.txids := h.txids.trans (insertEntry_txids hnew)
  rcases Finset.mem_insert.mp (htxids ▸ hx) with rfl | hx
  · rw [emplace_entry_self hnew] at hbefore
    obtain ⟨hcount, hsize⟩ := hwithin.ancestors hbefore.ancestorCount hbefore.ancestorSize
    have hupdate := h.withAncestors
    rw [insertEntry_entry_self hnew, insertEntry_sum_weight hnew] at hupdate
    obtain ⟨hcount', hsize'⟩ := update_eq_some hupdate
    have hle : toInt32 (∑ a ∈ pool.ancestorsOf pool.Spends e, (pool.entry a).getTxSize)
        ≤ ∑ a ∈ pool.ancestorsOf pool.Spends e, (pool.entry a).getTxSize :=
      toInt32_le (sum_nonneg fun a _ => (pool.entry a).getTxSize_pos.le)
    rw [size_sum_weight] at hsize'
    rw [count_sum_weight] at hcount'
    refine ⟨?_, ?_, ?_, ?_⟩
    · rw [hcount']
      exact hcount
    · rw [hsize']
      exact le_trans (add_le_add_right hle _) hsize
    · rw [h.withDescendants_of_notMem x hnot, insertEntry_entry_self hnew]
      exact hbefore.descendantCount
    · rw [h.withDescendants_of_notMem x hnot, insertEntry_entry_self hnew]
      exact hbefore.descendantSize
  · have hne : x ≠ txid := fun heq => hnew (heq ▸ hx)
    rw [emplace_entry_of_ne hnew hne] at hbefore
    have hanc : (pool'.entry x).withAncestors = (pool.entry x).withAncestors := by
      rw [h.withAncestors_of_ne x hne, insertEntry_entry_of_mem hnew hx]
    rw [hanc]
    by_cases ha : x ∈ pool.ancestorsOf pool.Spends e
    · have hupdate := h.withDescendants x ha
      rw [insertEntry_entry_self hnew, insertEntry_entry_of_mem hnew hx] at hupdate
      obtain ⟨hcount', hsize'⟩ := update_eq_some hupdate
      have hsmall : toInt32 e.getTxSize = e.getTxSize :=
        toInt32_eq (by have := e.getTxSize_pos; omega) e.getTxSize_lt
      obtain ⟨hcount, hsize⟩ := hwithin.descendants hexact ha hbefore.descendantCount
      refine ⟨hbefore.ancestorCount, hbefore.ancestorSize, ?_, ?_⟩
      · rw [hcount']
        exact hcount
      · rw [hsize']
        exact (congrArg _ hsmall).le.trans hsize
    · rw [h.withDescendants_of_notMem x ha, insertEntry_entry_of_mem hnew hx]
      exact hbefore

/-- The sums over the closure stay within the limits, if nothing in the pool spends the new
entry. -/
theorem WithinLimits.allow_sums (hno : ∀ c ∈ pool.txids, txid ∉ (pool.entry c).prevoutHashes) :
    limits.Allow (pool'.sumWithAncestors pool'.Ancestor x)
    (pool'.sumWithDescendants pool'.Ancestor x) := by
  have hspends : pool'.Spends = pool.LinkedWith pool.Spends txid e :=
    funext₂ fun _ _ => propext (h.spends_iff hnew hno)
  have htxids : pool'.txids = insert txid pool.txids := h.txids.trans (insertEntry_txids hnew)
  unfold Ancestor
  rw [hspends, h.sameTxs.sumWithAncestors, h.sameTxs.sumWithDescendants]
  rcases Finset.mem_insert.mp (htxids ▸ hx) with rfl | hx
  · rw [emplace_entry_self hnew] at hbefore
    obtain ⟨hcount, hsize⟩ := hwithin.ancestors hbefore.ancestorCount hbefore.ancestorSize
    rw [insertEntry_sumWithAncestors_new hexact.links hnew,
      insertEntry_sumWithDescendants_new hexact.links hnew, insertEntry_sum_weight hnew]
    refine ⟨?_, ?_, hbefore.descendantCount, hbefore.descendantSize⟩
    · rw [count_add, count_sum_weight]
      exact hcount
    · rw [size_add, size_sum_weight]
      exact hsize
  · have hne : x ≠ txid := fun heq => hnew (heq ▸ hx)
    rw [emplace_entry_of_ne hnew hne] at hbefore
    rw [insertEntry_sumWithAncestors_of_mem hexact.links hnew hx,
      insertEntry_sumWithDescendants_of_mem hexact.links hnew hx,
      ← hexact.counts.ancestors x hx, ← hexact.counts.descendants x hx]
    by_cases ha : x ∈ pool.ancestorsOf pool.Spends e
    · obtain ⟨hcount, hsize⟩ := hwithin.descendants hexact ha hbefore.descendantCount
      rw [if_pos ha]
      exact ⟨hbefore.ancestorCount, hbefore.ancestorSize, hcount, hsize⟩
    · rw [if_neg ha, add_zero]
      exact hbefore

end Accepted

/-! ## An entry that is refused -/

section Refused

variable (hexact : pool.Exact) (hnew : txid ∉ pool.txids)

include hnew in
theorem Spends.emplace {child parent : Txid} (h : pool.Spends child parent) :
    (pool.emplace txid (.new e)).Spends child parent := by
  obtain ⟨hchild, hparent, hprev⟩ := h
  unfold Spends
  rw [emplace_txids hnew, emplace_entry_of_ne hnew fun heq => hnew (heq ▸ hchild)]
  exact ⟨mem_insert_of_mem hchild, mem_insert_of_mem hparent, hprev⟩

include hexact hnew

theorem Exact.ancestor_emplace (hx : x ∈ pool.ancestorsOf pool.Spends e) :
    (pool.emplace txid (.new e)).Ancestor txid x := by
  obtain ⟨parent, hparent, hanc⟩ := (mem_ancestorsOf hexact.links.toParentLinks).mp hx
  obtain ⟨hprev, hmem⟩ := Finset.mem_inter.mp hparent
  have hstep : (pool.emplace txid (.new e)).Spends txid parent := by
    unfold Spends
    rw [emplace_txids hnew, emplace_entry_self hnew]
    exact ⟨mem_insert_self _ _, mem_insert_of_mem hmem, List.mem_toFinset.mp hprev⟩
  exact .head hstep (ReflTransGen.mono (fun _ _ => Spends.emplace hnew) _ _ hanc)

/-- With the new entry, what it counts of its ancestors is at least what the walk adds up. -/
theorem Exact.le_sumWithAncestors :
    e.getTxSize + ∑ a ∈ pool.ancestorsOf pool.Spends e, (pool.entry a).getTxSize
        ≤ ((pool.emplace txid (.new e)).sumWithAncestors
          (pool.emplace txid (.new e)).Ancestor txid).size
      ∧ (pool.ancestorsOf pool.Spends e).card + 1
        ≤ ((pool.emplace txid (.new e)).sumWithAncestors
          (pool.emplace txid (.new e)).Ancestor txid).count := by
  classical
  have hnot : txid ∉ pool.ancestorsOf pool.Spends e := fun ha => hnew (ancestorsOf_subset ha)
  have hsub : insert txid (pool.ancestorsOf pool.Spends e)
      ⊆ {a ∈ (pool.emplace txid (.new e)).txids | (pool.emplace txid (.new e)).Ancestor
        txid a} := by
    intro a ha
    rw [mem_filter, emplace_txids hnew]
    rcases Finset.mem_insert.mp ha with rfl | ha
    · exact ⟨mem_insert_self _ _, .refl⟩
    · exact ⟨mem_insert_of_mem (ancestorsOf_subset ha), hexact.ancestor_emplace hnew ha⟩
  have hsizes : e.getTxSize + ∑ a ∈ pool.ancestorsOf pool.Spends e, (pool.entry a).getTxSize
      = ∑ a ∈ insert txid (pool.ancestorsOf pool.Spends e),
        ((pool.emplace txid (.new e)).entry a).getTxSize := by
    rw [sum_insert hnot, emplace_entry_self hnew]
    refine congrArg _ (sum_congr rfl fun a ha => ?_)
    rw [emplace_entry_of_ne hnew fun heq => hnot (heq ▸ ha)]
  unfold sumWithAncestors
  have hcard := card_le_card hsub
  rw [card_insert_of_notMem hnot] at hcard
  rw [size_sum_weight, count_sum_weight, hsizes]
  exact ⟨sum_getTxSize_le hsub, by exact_mod_cast hcard⟩

theorem Exact.le_sumWithDescendants (hx : x ∈ pool.ancestorsOf pool.Spends e) :
    (pool.entry x).withDescendants.size + e.getTxSize
        ≤ ((pool.emplace txid (.new e)).sumWithDescendants
          (pool.emplace txid (.new e)).Ancestor x).size
      ∧ (pool.entry x).withDescendants.count + 1
        ≤ ((pool.emplace txid (.new e)).sumWithDescendants
          (pool.emplace txid (.new e)).Ancestor x).count := by
  classical
  have hmem : x ∈ pool.txids := ancestorsOf_subset hx
  have hnot : txid ∉ ({d ∈ pool.txids | pool.Ancestor d x} : Finset Txid) :=
    fun hd => hnew (Finset.mem_filter.mp hd).1
  have hsub : insert txid ({d ∈ pool.txids | pool.Ancestor d x} : Finset Txid)
      ⊆ {d ∈ (pool.emplace txid (.new e)).txids | (pool.emplace txid (.new e)).Ancestor d x} := by
    intro d hd
    rw [mem_filter, emplace_txids hnew]
    rcases Finset.mem_insert.mp hd with rfl | hd
    · exact ⟨mem_insert_self _ _, hexact.ancestor_emplace hnew hx⟩
    · obtain ⟨hd, hanc⟩ := Finset.mem_filter.mp hd
      exact ⟨mem_insert_of_mem hd, ReflTransGen.mono (fun _ _ => Spends.emplace hnew) _ _ hanc⟩
  have hsizes : ∑ d ∈ pool.txids with pool.Ancestor d x, (pool.entry d).getTxSize + e.getTxSize
      = ∑ d ∈ insert txid ({d ∈ pool.txids | pool.Ancestor d x} : Finset Txid),
        ((pool.emplace txid (.new e)).entry d).getTxSize := by
    rw [sum_insert hnot, emplace_entry_self hnew, add_comm]
    refine congrArg _ (sum_congr rfl fun d hd => ?_)
    rw [emplace_entry_of_ne hnew fun heq => hnot (heq ▸ hd)]
  rw [hexact.counts.descendants x hmem]
  unfold sumWithDescendants
  rw [size_sum, size_sum, count_sum, count_sum]
  refine ⟨hsizes.le.trans (sum_getTxSize_le hsub), ?_⟩
  have hcard := card_le_card hsub
  rw [card_insert_of_notMem hnot] at hcard
  simp only [CTxMemPoolEntry.descendantWeight, sum_const, nsmul_eq_mul, mul_one]
  exact_mod_cast hcard

/-- Where the walk refuses the entry, it would break a limit. -/
theorem Exact.not_allow (hwithin : ¬pool.WithinLimits limits e.getTxSize 1
    (pool.ancestorsOf pool.Spends e)) : ∃ x ∈ (pool.emplace txid (.new e)).txids,
      ¬limits.Allow ((pool.emplace txid (.new e)).sumWithAncestors
        (pool.emplace txid (.new e)).Ancestor x)
        ((pool.emplace txid (.new e)).sumWithDescendants
          (pool.emplace txid (.new e)).Ancestor x) := by
  by_contra hall
  push Not at hall
  rw [emplace_txids hnew] at hall
  have hself := hall txid (mem_insert_self _ _)
  obtain ⟨hsize, hcount⟩ := hexact.le_sumWithAncestors (e := e) hnew
  refine hwithin ⟨fun a ha => ?_, fun a ha => ?_, fun _ => hsize.trans hself.ancestorSize,
    fun _ => ?_⟩
  · exact (hexact.le_sumWithDescendants hnew ha).1.trans
      (hall a (mem_insert_of_mem (ancestorsOf_subset ha))).descendantSize
  · exact (hexact.le_sumWithDescendants hnew ha).2.trans
      ((hall a (mem_insert_of_mem (ancestorsOf_subset ha))).descendantCount.trans
        (toInt_le_toNat _))
  · exact_mod_cast hcount.trans (hself.ancestorCount.trans (toInt_le_toNat _))

end Refused

/-! ## The limits are sound -/

set_option maxRecDepth 4096

/-! A transaction that spends the last of the diamond, and one that its first spends. -/

def fiveLimits : Limits := ⟨5#64, 350#64, 5#64, 350#64⟩

def fourLimits : Limits := ⟨4#64, 350#64, 4#64, 350#64⟩

def fifthTx : NewTx defaultBytesPerSigop :=
  spendingTx [⟨uint256S 4, 0#32⟩] 1 500 (by decide +kernel)

/-- The transaction that the first one spends, as it returns from a block. -/
def returnedTx : NewTx defaultBytesPerSigop :=
  spendingTx [⟨uint256S 8, 0#32⟩] 1 500 (by decide +kernel)

end CTxMemPool

end Bitcoboost.Mempool
