import Bitcoboost.Mempool.ChainLimits
import Bitcoboost.Mempool.Removal

/-!
# The topology of version 3 transactions

`SingleV3Checks` of `policy/v3_policy.cpp`, on a transaction that is to enter the pool and its
ancestors there. A version 3 transaction has at most one other transaction as ancestor or
descendant. The limit is not checked if a child of the parent is one of the conflicts: as the
parent has no other descendant, none is left.
-/

namespace Bitcoboost.Mempool

open Relation Ascending Finset Option

def v3DescendantLimit : Nat := 2

def v3AncestorLimit : Nat := 2

def v3ChildMaxVsize : Int := 1000

variable {nBytesPerSigOp : Nat}

namespace CTxMemPool

/-! ## The check -/

section Check

variable (pool : CTxMemPool nBytesPerSigOp) (hash : Bytes → Uint256)

/-- A transaction in an error text. -/
def txText (txid : Txid) (tx : CTransaction) : String :=
  hashString txid ++ " (wtxid=" ++ hashString (tx.getWitnessHash hash) ++ ")"

/-- The first loop of `SingleV3Checks`, for one of the ancestors. -/
def inheritanceError (txid : Txid) (tx : CTransaction) (ancestor : Txid) : Option String :=
  let entryTx := (pool.entry ancestor).tx
  if tx.nVersion ≠ 3#32 ∧ entryTx.nVersion = 3#32 then
    some ("non-v3 tx " ++ txText hash txid tx ++ " cannot spend from v3 tx " ++
      txText hash ancestor entryTx)
  else if tx.nVersion = 3#32 ∧ entryTx.nVersion ≠ 3#32 then
    some ("v3 tx " ++ txText hash txid tx ++ " cannot spend from non-v3 tx " ++
      txText hash ancestor entryTx)
  else none

def singleV3Checks (txid : Txid) (tx : CTransaction)
    (mempoolAncestors directConflicts : Finset Txid) (vsize : Int) : Option String :=
  match (elements mempoolAncestors).findSome? (pool.inheritanceError hash txid tx) with
  | some err => some err
  | none =>
    if tx.nVersion ≠ 3#32 then none
    else if mempoolAncestors.card + 1 > v3AncestorLimit then
      some ("tx " ++ txText hash txid tx ++ " would have too many ancestors")
    else match (elements mempoolAncestors).head? with
      | none => none
      | some parent =>
        if vsize > v3ChildMaxVsize then
          some ("v3 child tx " ++ txText hash txid tx ++ " is too big: " ++ toString vsize ++ " > "
            ++ toString v3ChildMaxVsize ++ " virtual bytes")
        -- the limit is not checked if a child will be replaced
        else if (pool.entry parent).withDescendants.count + 1 > v3DescendantLimit
            ∧ ¬∃ child ∈ (pool.entry parent).children, child ∈ directConflicts then
          some ("tx " ++ txText hash parent (pool.entry parent).tx ++
            " would exceed descendant count limit")
        else none

variable {pool hash} {txid : Txid} {tx : CTransaction} {ancestors conflicts : Finset Txid}
  {vsize : Int}

/-- What the check says of the ancestors of a transaction that passes. -/
theorem singleV3Checks_none (h : pool.singleV3Checks hash txid tx ancestors conflicts vsize =
    none) : (∀ a ∈ ancestors, tx.nVersion = 3#32 ↔ (pool.entry a).tx.nVersion = 3#32) ∧
      (tx.nVersion = 3#32 → ∀ a ∈ ancestors, ancestors = {a} ∧ vsize ≤ v3ChildMaxVsize
        ∧ ((pool.entry a).withDescendants.count ≤ 1 ∨ ∃ child ∈ (pool.entry a).children,
          child ∈ conflicts)) := by
  unfold singleV3Checks at h
  split at h
  · cases h
  next hfind =>
  refine ⟨fun a ha => ?_, fun hv3 a ha => ?_⟩
  · have hnone := List.findSome?_eq_none_iff.mp hfind a (mem_elements.mpr ha)
    unfold inheritanceError at hnone
    dsimp only at hnone
    split at hnone
    · cases hnone
    next hnon =>
    split at hnone
    · cases hnone
    next hv3 =>
    exact ⟨fun htx => not_not.mp fun hne => hv3 ⟨htx, hne⟩, fun hent => not_not.mp fun hne =>
      hnon ⟨hne, hent⟩⟩
  · rw [if_neg (not_not.mpr hv3)] at h
    split at h
    · cases h
    next hcard =>
    have hone : ancestors = {a} :=
      (eq_of_subset_of_card_le (Finset.singleton_subset_iff.mpr ha)
        (by simp [v3AncestorLimit] at hcard ⊢; omega)).symm
    rw [hone, elements_singleton] at h
    dsimp only [List.head?_cons] at h
    split at h
    · cases h
    next hsize =>
    split at h
    · cases h
    next hdesc =>
    refine ⟨hone, not_lt.mp hsize, ?_⟩
    rw [not_and_or, not_not] at hdesc
    exact hdesc.imp_left fun hle => by simp only [v3DescendantLimit] at hle; omega

end Check

/-! ## The pool after a replacement -/

/-- The transactions of a pool in which some make way for a new one. -/
structure Replaced (pool : CTxMemPool nBytesPerSigOp) (stage : Finset Txid) (txid : Txid)
    (e : NewTx nBytesPerSigOp) (pool' : CTxMemPool nBytesPerSigOp) : Prop where
  txids : pool'.txids = insert txid (pool.txids \ stage)
  old : ∀ x ≠ txid, (pool'.entry x).toNewTx = (pool.entry x).toNewTx
  new : (pool'.entry txid).toNewTx = e

section Replacing

variable {pool pool₁ pool' : CTxMemPool nBytesPerSigOp} {stage ancestors : Finset Txid}
  {txid r : Txid} {e : NewTx nBytesPerSigOp}

theorem SameTxs.trans (h : SameTxs pool pool₁) (h' : SameTxs pool₁ pool') : SameTxs pool pool' where
  txids := h'.txids.trans h.txids
  toNewTx x := (h'.toNewTx x).trans (h.toNewTx x)
  modifiedFee x := (h'.modifiedFee x).trans (h.modifiedFee x)

theorem sameTxs_updateAncestorsForRemoval (h : pool.updateAncestorsForRemoval r = some pool') :
    SameTxs pool pool' := by
  have hupdated := descendantsUpdated_of_eq h
  have hchild :
      ∀ parents x, ((pool.updateChild parents r false).entry x).toNewTx = (pool.entry x).toNewTx
      ∧ ((pool.updateChild parents r false).entry x).modifiedFee = (pool.entry x).modifiedFee := by
    intro parents x
    rw [updateChild, modify_entry]
    split <;> exact ⟨rfl, rfl⟩
  refine ⟨?_, fun x => ?_, fun x => ?_⟩
  · rw [hupdated.rest]
    rfl
  · rw [hupdated.entry x]
    exact (hchild _ x).1
  · rw [hupdated.entry x]
    exact (hchild _ x).2

theorem sameTxs_updateChildrenForRemoval {pool : CTxMemPool nBytesPerSigOp} :
    SameTxs pool (pool.updateChildrenForRemoval r) := by
  refine ⟨rfl, fun x => ?_, fun x => ?_⟩ <;>
    (rw [updateChildrenForRemoval, updateParent, modify_entry]; split <;> rfl)

/-- `RemoveStaged` takes the entries out and changes no transaction. -/
theorem removeStaged_txs (h : pool.removeStaged stage false = some pool') :
    pool'.txids = pool.txids \ stage ∧ ∀ x, (pool'.entry x).toNewTx = (pool.entry x).toNewTx := by
  obtain ⟨last, hlast, rfl⟩ := Option.map_eq_some_iff.mp h
  unfold updateForRemoveFromMempool at hlast
  simp only [Bool.false_eq_true, if_false, List.foldlM_nil, Option.pure_def, bind_eq_bind,
    bind_some] at hlast
  obtain ⟨updated, hupdated, hlast⟩ := Option.bind_eq_some_iff.mp hlast
  have hfold : ∀ (entries : List Txid) (current : CTxMemPool nBytesPerSigOp), SameTxs pool current →
      entries.foldlM updateAncestorsForRemoval current = some updated → SameTxs pool updated := by
    intro entries
    induction entries with
    | nil =>
      intro current hsame hrun
      cases hrun
      exact hsame
    | cons r entries ih =>
      intro current hsame hrun
      obtain ⟨next, hnext, hrun⟩ := Option.bind_eq_some_iff.mp hrun
      exact ih next (hsame.trans (sameTxs_updateAncestorsForRemoval hnext)) hrun
  have hsame : SameTxs pool last := by
    cases hlast
    refine List.foldlRecOn (motive := SameTxs pool)
      _ _ (hfold _ pool ⟨rfl, fun _ => rfl, fun _ => rfl⟩ hupdated) ?_
    exact fun current hcurrent r _ => hcurrent.trans sameTxs_updateChildrenForRemoval
  have hunlisted := foldl_removeUnchecked last (elements stage)
  refine ⟨?_, fun x => ?_⟩
  · rw [hunlisted.txids, hsame.txids, toFinset_elements]
  · rw [hunlisted.entry]
    exact hsame.toNewTx x

theorem replaced_of_run (hnew : txid ∉ pool.txids)
    (hremove : pool.removeStaged stage false = some pool₁)
    (hadd : pool₁.addUnchecked txid e ancestors = some pool') :
    Replaced pool stage txid e pool' := by
  obtain ⟨htxids, hold⟩ := removeStaged_txs hremove
  have hnew₁ : txid ∉ pool₁.txids := fun h => hnew (Finset.mem_sdiff.mp (htxids ▸ h)).1
  have hadded := added_of_addUnchecked hadd
  refine ⟨?_, fun x hx => ?_, ?_⟩
  · rw [hadded.txids, insertEntry_txids hnew₁, htxids]
  · rw [hadded.toNewTx, insertEntry_entry_of_ne hnew₁ hx]
    exact hold x
  · rw [hadded.toNewTx, insertEntry_entry_self hnew₁]
    rfl

namespace Replaced

variable (h : Replaced pool stage txid e pool') (hnew : txid ∉ pool.txids)
  (hno : ∀ c ∈ pool.txids, txid ∉ (pool.entry c).prevoutHashes)

include h hnew hno

/-- What spends what: as before, or the new transaction spends what is left. -/
theorem spends_cases {c p : Txid} (hspends : pool'.Spends c p) :
    (pool.Spends c p ∧ c ∉ stage ∧ p ∉ stage) ∨
      (c = txid ∧ (p = txid ∨ p ∈ pool.getIterSet e.prevoutHashes ∧ p ∉ stage)) := by
  obtain ⟨hc, hp, hprev⟩ := hspends
  rw [h.txids, mem_insert, mem_sdiff] at hc hp
  rcases hc with rfl | ⟨hc, hcs⟩
  · rw [h.new] at hprev
    exact .inr ⟨rfl, hp.imp_right fun hp =>
      ⟨Finset.mem_inter.mpr ⟨List.mem_toFinset.mpr hprev, hp.1⟩, hp.2⟩⟩
  · rw [h.old c fun heq => hnew (heq ▸ hc)] at hprev
    rcases hp with rfl | ⟨hp, hps⟩
    · exact absurd hprev (hno c hc)
    · exact .inl ⟨⟨hc, hp, hprev⟩, hcs, hps⟩

/-- The ancestors of an entry: as before, or those of the new transaction that are left. -/
theorem ancestor_cases (hlinks : pool.Links pool.Spends) {x a : Txid}
    (hreach : pool'.Ancestor x a) :
    x = a ∨ (pool.Ancestor x a ∧ x ∈ pool.txids ∧ x ∉ stage ∧ a ∉ stage) ∨
      (x = txid ∧ pool.AncestorOf pool.Spends e a ∧ a ∉ stage) := by
  have hmem : ∀ {y}, pool.AncestorOf pool.Spends e y → y ∈ pool.txids :=
    fun hy => ancestorsOf_subset ((mem_ancestorsOf hlinks.toParentLinks).mpr hy)
  induction hreach with
  | refl => exact .inl rfl
  | @tail b c _ hstep ih =>
    rcases h.spends_cases hnew hno hstep with ⟨hspends, hb, hc⟩ | ⟨rfl, rfl | ⟨hparent, hc⟩⟩
    · rcases ih with rfl | ⟨hanc, hx, hxs, _⟩ | ⟨rfl, ⟨parent, hparent, hanc⟩, _⟩
      · exact .inr (.inl ⟨.single hspends, hspends.1, hb, hc⟩)
      · exact .inr (.inl ⟨hanc.tail hspends, hx, hxs, hc⟩)
      · exact .inr (.inr ⟨rfl, ⟨parent, hparent, hanc.tail hspends⟩, hc⟩)
    · exact ih
    -- nothing that was in the pool leads to the new transaction
    · rcases ih with rfl | ⟨hanc, hx, _⟩ | ⟨_, hanc, _⟩
      · exact .inr (.inr ⟨rfl, ⟨c, hparent, .refl⟩, hc⟩)
      · exact absurd (hlinks.mem_of_ancestor hx hanc) hnew
      · exact absurd (hmem hanc) hnew

end Replaced

end Replacing

/-! ## The topology -/

/-- The second transaction is an ancestor of the first and another one. -/
def Above (pool : CTxMemPool nBytesPerSigOp) (x a : Txid) : Prop := a ≠ x ∧ pool.Ancestor x a

/-- What holds of the version 3 transactions of a pool. -/
structure V3Topology (pool : CTxMemPool nBytesPerSigOp) : Prop where
  ancestor : ∀ {x a b}, (pool.entry x).tx.nVersion = 3#32 → pool.Above x a → pool.Above x b → a = b
  descendant : ∀ {x c d}, (pool.entry x).tx.nVersion = 3#32 → pool.Above c x →
    pool.Above d x → c = d
  inherited : ∀ {c p}, pool.Spends c p → ((pool.entry c).tx.nVersion = 3#32 ↔
    (pool.entry p).tx.nVersion = 3#32)
  size : ∀ {c p}, pool.Spends c p → c ≠ p → (pool.entry c).tx.nVersion = 3#32 →
    (pool.entry c).getTxSize ≤ v3ChildMaxVsize

section Topology

variable {pool pool' : CTxMemPool nBytesPerSigOp} {stage conflicts : Finset Txid} {txid : Txid}
  {e : NewTx nBytesPerSigOp}
  {hash : Bytes → Uint256}

theorem Exact.not_above (hexact : pool.Exact) {x c : Txid} (hx : x ∈ pool.txids)
    (hcount : (pool.entry x).withDescendants.count ≤ 1) : ¬pool.Above c x := by
  classical
  rintro ⟨hne, hanc⟩
  have hc := hexact.links.mem_of_descendant hx hanc
  rw [hexact.counts.descendants x hx, sumWithDescendants, Totals.count_sum] at hcount
  have hsub : {x, c} ⊆ pool.txids.filter fun d => pool.Ancestor d x := by
    intro y hy
    rcases Finset.mem_insert.mp hy with rfl | hy
    · exact Finset.mem_filter.mpr ⟨hx, .refl⟩
    · cases Finset.mem_singleton.mp hy
      exact Finset.mem_filter.mpr ⟨hc, hanc⟩
  have htwo := card_le_card hsub
  rw [card_pair hne] at htwo
  have hsum : ∑ d ∈ pool.txids with pool.Ancestor d x, (pool.entry d).descendantWeight.count
      = ((pool.txids.filter fun d => pool.Ancestor d x).card : Int) := by
    simp [CTxMemPoolEntry.descendantWeight]
  omega

/-- The parent of a transaction that passes the check has no other descendant left. -/
theorem V3Topology.only_child (htopology : pool.V3Topology) (hexact : pool.Exact)
    (hconflicts : ∀ child ∈ conflicts, child ∈ pool.txids → child ∈ stage)
    {x c : Txid} (hx : x ∈ pool.txids) (hxs : x ∉ stage) (hcs : c ∉ stage)
    (hv3 : (pool.entry x).tx.nVersion = 3#32)
    (hcheck : (pool.entry x).withDescendants.count ≤ 1 ∨ ∃ child ∈ (pool.entry x).children,
    child ∈ conflicts) : ¬pool.Above c x := by
  rcases hcheck with hcount | ⟨child, hchild, hconflict⟩
  · exact hexact.not_above hx hcount
  · intro habove
    have hspends := (hexact.links.children x hx child).mp hchild
    have hremoved := hconflicts child hconflict hspends.1
    have hne : x ≠ child := fun heq => hxs (heq ▸ hremoved)
    have hsame := htopology.descendant hv3 habove ⟨hne, .single hspends⟩
    exact hcs (hsame ▸ hremoved)

/-- The topology of a pool in which the new transaction has taken the place of others. -/
theorem V3Topology.replaced (htopology : pool.V3Topology) (hexact : pool.Exact)
    (hnew : txid ∉ pool.txids) (hno : ∀ c ∈ pool.txids, txid ∉ (pool.entry c).prevoutHashes)
    (hpass : pool.singleV3Checks hash txid e.tx
      (pool.ancestorsOf pool.Spends e) conflicts e.getTxSize = none)
    (hconflicts : ∀ child ∈ conflicts, child ∈ pool.txids → child ∈ stage)
    (h : Replaced pool stage txid e pool') : pool'.V3Topology := by
  have hlinks := hexact.links
  obtain ⟨hinherited, hv3⟩ := singleV3Checks_none hpass
  simp only [mem_ancestorsOf hlinks.toParentLinks] at hinherited hv3
  have hold : ∀ {x}, x ∈ pool.txids → (pool'.entry x).toNewTx = (pool.entry x).toNewTx :=
    fun hx => h.old _ fun heq => hnew (heq ▸ hx)
  have hmem : ∀ {a}, pool.AncestorOf pool.Spends e a → a ∈ pool.txids :=
    fun ha => ancestorsOf_subset ((mem_ancestorsOf hlinks.toParentLinks).mpr ha)
  have hcases :
      ∀ {x a}, pool'.Above x a → (pool.Above x a ∧ x ∈ pool.txids ∧ x ∉ stage ∧ a ∉ stage) ∨
      (x = txid ∧ pool.AncestorOf pool.Spends e a ∧ a ∉ stage) := by
    rintro x a ⟨hne, hreach⟩
    rcases h.ancestor_cases hnew hno hlinks hreach with heq | ⟨hanc, hrest⟩ | hrest
    · exact absurd heq.symm hne
    · exact .inl ⟨⟨hne, hanc⟩, hrest⟩
    · exact .inr hrest
  refine ⟨fun {x a b} hx ha hb => ?_, fun {x c d} hx hc hd => ?_, fun {c p} hspends => ?_,
    fun {c p} hspends hne hc => ?_⟩
  · rcases hcases ha with ⟨ha, hmemx, _⟩ | ⟨rfl, ha, _⟩
    · rcases hcases hb with ⟨hb, _⟩ | ⟨rfl, _⟩
      · exact htopology.ancestor (hold hmemx ▸ hx) ha hb
      · exact absurd hmemx hnew
    · rcases hcases hb with ⟨_, hmemx, _⟩ | ⟨_, hb, _⟩
      · exact absurd hmemx hnew
      · rw [h.new] at hx
        have hone := (hv3 hx a ha).1
        have hb' := (mem_ancestorsOf hlinks.toParentLinks).mpr hb
        rw [hone, mem_singleton] at hb'
        exact hb'.symm
  · -- a descendant that was there and the new transaction: the check leaves one of them
    have hmixed : ∀ {c}, pool.Above c x → c ∉ stage → pool.AncestorOf pool.Spends e x →
        x ∉ stage → False := by
      intro c hc hcs hanc hxs
      rw [hold (hmem hanc)] at hx
      have hcheck := (hv3 ((hinherited x hanc).mpr hx) x hanc).2.2
      exact htopology.only_child hexact hconflicts (hmem hanc) hxs hcs hx hcheck hc
    rcases hcases hc with ⟨hc, hmemc, hcs, hxs⟩ | ⟨rfl, hanc, hxs⟩
    · rcases hcases hd with ⟨hd, _⟩ | ⟨_, hanc, _⟩
      · have hmemx := hlinks.mem_of_ancestor hmemc hc.2
        exact htopology.descendant (hold hmemx ▸ hx) hc hd
      · exact (hmixed hc hcs hanc hxs).elim
    · rcases hcases hd with ⟨hd, _, hds, _⟩ | ⟨rfl, _⟩
      · exact (hmixed hd hds hanc hxs).elim
      · rfl
  · rcases h.spends_cases hnew hno hspends with ⟨hspends, _⟩ | ⟨rfl, rfl | ⟨hparent, _⟩⟩
    · rw [hold hspends.1, hold hspends.2.1]
      exact htopology.inherited hspends
    · exact Iff.rfl
    · rw [h.new, hold (Finset.mem_inter.mp hparent).2]
      exact hinherited p ⟨p, hparent, .refl⟩
  · rcases h.spends_cases hnew hno hspends with ⟨hspends, _⟩ | ⟨rfl, rfl | ⟨hparent, _⟩⟩
    · rw [hold hspends.1] at hc ⊢
      exact htopology.size hspends hne hc
    · exact absurd rfl hne
    · rw [h.new] at hc ⊢
      exact (hv3 hc p ⟨p, hparent, .refl⟩).2.1

end Topology

/-- A transaction that passes `SingleV3Checks` with all its ancestors in the pool, and that
nothing in the pool spends, keeps the topology when its conflicts make way for it with their
descendants. -/
theorem v3Topology_replaced (pool : CTxMemPool nBytesPerSigOp) (hexact : pool.Exact)
    (htopology : pool.V3Topology)
    (hash : Bytes → Uint256) (txid : Txid) (e : NewTx nBytesPerSigOp) (hnew : txid ∉ pool.txids)
    (hno : ∀ c ∈ pool.txids, txid ∉ (pool.entry c).prevoutHashes) (limits : Limits)
    (ancestors conflicts : Finset Txid)
    (hancestors : pool.calculateMemPoolAncestors e limits = .ok ancestors)
    (hpass : pool.singleV3Checks hash txid e.tx ancestors conflicts e.getTxSize = none)
    (pool₁ pool' : CTxMemPool nBytesPerSigOp)
    (hremove : pool.removeStaged (pool.allDescendants (pool.getIterSet (elements conflicts)))
      false = some pool₁)
    (hadd : pool₁.addUnchecked txid e ancestors = some pool') : pool'.V3Topology := by
  obtain ⟨rfl, _⟩ := (calculateMemPoolAncestors_eq_ok hexact.links.toParentLinks).mp hancestors
  refine htopology.replaced hexact hnew hno hpass (fun child hchild hmem => ?_)
    (replaced_of_run hnew hremove hadd)
  have hconflict :
    child ∈ pool.getIterSet (elements conflicts) := by simp [getIterSet, hchild, hmem]
  exact (hexact.links.mem_allDescendants inter_subset_right).mpr ⟨child, hconflict, .refl⟩

/-- A confirmed output is spent. -/
def firstTx : NewTx defaultBytesPerSigop :=
  spendingTx [⟨uint256S 9, 0#32⟩] 1 500 (by decide +kernel)

/-- The transaction with the txid 1 is spent. -/
def secondTx : NewTx defaultBytesPerSigop :=
  spendingTx [⟨uint256S 1, 0#32⟩] 2 700 (by decide +kernel)

def firstV3Tx : NewTx defaultBytesPerSigop :=
  { firstTx with tx := { firstTx.tx with nVersion := 3#32 }, weight_pos := by decide +kernel }

def secondV3Tx : NewTx defaultBytesPerSigop :=
  { secondTx with tx := { secondTx.tx with nVersion := 3#32 }, weight_pos := by decide +kernel }

def poolOfOne (txid : Txid) (e : NewTx defaultBytesPerSigop) : CTxMemPool defaultBytesPerSigop where
  txids := {txid}
  entry _ := .new e
  mapNextTx := (e.prevouts.map fun prevout => (prevout, txid)).toFinset
  mapDeltas _ := 0
  totalTxSize := e.getTxSize
  mTotalFee := e.nFee
  mLimits := .noLimits

theorem v3Topology_poolOfOne {txid : Txid} {e : NewTx defaultBytesPerSigop} :
    (poolOfOne txid e).V3Topology := by
  have hone : ∀ {c p}, (poolOfOne txid e).Spends c p → c = p := fun hspends =>
    (Finset.mem_singleton.mp hspends.1).trans (Finset.mem_singleton.mp hspends.2.1).symm
  have hnone : ∀ {x a}, ¬(poolOfOne txid e).Above x a := by
    rintro x a ⟨hne, hreach⟩
    refine hne ?_
    induction hreach with
    | refl => rfl
    | tail _ hstep ih =>
      rw [← hone hstep]
      by_contra hne'
      exact hne' (ih hne')
  exact ⟨fun _ ha => absurd ha hnone, fun _ hc => absurd hc hnone, fun hspends =>
    hone hspends ▸ Iff.rfl, fun hspends hne => absurd (hone hspends) hne⟩

/-- A child of a version 3 transaction. -/
theorem v3Topology_second : ∃ pool' : CTxMemPool defaultBytesPerSigop,
    pool'.txids = {uint256S 1, uint256S 2} ∧ pool'.V3Topology := by
  have hancestors :
    (poolOfOne (uint256S 1) firstV3Tx).calculateMemPoolAncestors secondV3Tx .noLimits =
    .ok {uint256S 1} := ExceptBind.toOption_eq_some.mp (by decide +kernel)
  have hrun :
      ∃ pool₁, (poolOfOne (uint256S 1) firstV3Tx).removeStaged
      ((poolOfOne (uint256S 1) firstV3Tx).allDescendants
      ((poolOfOne (uint256S 1) firstV3Tx).getIterSet (elements ∅))) false = some pool₁
        ∧ ∃ pool', pool₁.addUnchecked (uint256S 2) secondV3Tx {uint256S 1} = some pool' := by
    exact ⟨poolOfOne (uint256S 1) firstV3Tx, rfl, Option.isSome_iff_exists.mp (by decide +kernel)⟩
  obtain ⟨pool₁, hremove, pool', hadd⟩ := hrun
  refine ⟨pool', ?_, v3Topology_replaced _ (exact_of_check (by decide +kernel) (by decide +kernel)
    (by decide +kernel) (by decide +kernel)) v3Topology_poolOfOne
    (fun _ => nullUint256) (uint256S 2) secondV3Tx (by decide +kernel)
    (by decide +kernel) .noLimits _ ∅ hancestors (by decide +kernel) pool₁ pool' hremove hadd⟩
  rw [(replaced_of_run (by decide +kernel) hremove hadd).txids]
  decide +kernel

def spendingPool : CTxMemPool defaultBytesPerSigop := poolOfOne (uint256S 2) secondTx

/-- The block with what it spends is disconnected, and that has version 3. -/
theorem v3_parent_returns :
    spendingPool.Exact ∧ spendingPool.V3Topology ∧ uint256S 1 ∉ spendingPool.txids
    ∧ spendingPool.calculateMemPoolAncestors firstV3Tx .noLimits = .ok ∅
    ∧ spendingPool.singleV3Checks (fun _ => nullUint256)
    (uint256S 1) firstV3Tx.tx ∅ ∅ firstV3Tx.getTxSize = none
    ∧ ∃ pool₁ pool', spendingPool.removeStaged
    (spendingPool.allDescendants (spendingPool.getIterSet (elements ∅))) false
        = some pool₁ ∧ pool₁.addUnchecked (uint256S 1) firstV3Tx ∅ = some pool' ∧
          ¬pool'.V3Topology := by
  have hnew : uint256S 1 ∉ spendingPool.txids := by decide +kernel
  obtain ⟨pool', hadd⟩ : ∃ pool', spendingPool.addUnchecked (uint256S 1) firstV3Tx ∅ = some pool' :=
    Option.isSome_iff_exists.mp (by decide +kernel)
  refine ⟨exact_of_check (by decide +kernel) (by decide +kernel) (by decide +kernel)
    (by decide +kernel), v3Topology_poolOfOne, hnew,
    ExceptBind.toOption_eq_some.mp (by decide +kernel), by decide +kernel, spendingPool, pool', rfl,
    hadd, fun htopology => ?_⟩
  have h :=
    replaced_of_run hnew (show spendingPool.removeStaged ∅ false = some spendingPool from rfl) hadd
  have hsecond : (pool'.entry (uint256S 2)).toNewTx = secondTx := h.old _ (by decide +kernel)
  have hspends : pool'.Spends (uint256S 2) (uint256S 1) := by
    rw [Spends, h.txids, hsecond]
    decide +kernel
  have hinherited := htopology.inherited hspends
  rw [hsecond, h.new] at hinherited
  exact absurd (hinherited.mpr rfl) (by decide)

end CTxMemPool

end Bitcoboost.Mempool
