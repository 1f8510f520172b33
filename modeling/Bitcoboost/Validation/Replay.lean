import Bitcoboost.Coins.Flush
import Bitcoboost.Validation.Disconnect

/-!
# Replaying blocks after a crash

`RollforwardBlock` and `ReplayBlocks` of `validation.cpp` and `BatchWrite` of the coins database.
A crash in a flush leaves some coins as at the old tip and some as at the new one. Rolling back
and forward runs over coins that never were the unspent coins of any block, and still ends with
those at the new tip, as the blocks of both branches overwrite everything that differs.
-/

namespace Bitcoboost

open ExceptBind FiniteMap Journal CoinsLemmas FlushLemmas DisconnectLemmas AncestorLemmas
    CCoinsViewCache List Finmap

/-! ## The code -/

/-- `CCoinsViewDB`: the coins, `DB_BEST_BLOCK`, which is null if there is none, and
`DB_HEAD_BLOCKS`. -/
structure CCoinsViewDB where
  coins : UtxoSet
  bestBlock : Uint256
  headBlocks : List Uint256

/-- `CCoinsViewDB::BatchWrite`, uninterrupted. `none` is a failed assertion. -/
def CCoinsViewDB.batchWrite (db : CCoinsViewDB) (order : List (COutPoint × CCoinsCacheEntry))
    (hashBlock : Uint256) : Option CCoinsViewDB :=
  if hashBlock = nullUint256 then none
  -- in the middle of replaying
  else if db.bestBlock = nullUint256 ∧ db.headBlocks.length = 2 ∧
    db.headBlocks.head? ≠ some hashBlock then none
  else some ⟨order.foldl (fun coins e => writeEntry coins e.1 e.2) db.coins, hashBlock, []⟩

/-- What `BlockManager` has: `m_block_index`, and the files with the blocks and their undo
data. -/
structure BlockManager where
  blockIndex : Uint256 → Option CBlockIndex
  readBlockFromDisk : CBlockIndex → Option CBlock
  undoFile : CBlockIndex → Bytes

/-- `ReplayBlocks` returns false, or an assertion or an exception ends the node. -/
inductive ReplayFailure where
  | failed
  | aborted
deriving DecidableEq, Repr

def orFailure {α : Type} (failure : ReplayFailure) : Option α → Except ReplayFailure α
  | some a => .ok a
  | none => .error failure

/-- The loop body of `RollforwardBlock`. -/
def rollforwardTx (hash : Bytes → Uint256) (nHeight : Nat) (inputs : CCoinsViewCache)
    (tx : CTransaction) : Option CCoinsViewCache :=
  let inputs :=
    if tx.isCoinBase then inputs
    else tx.vin.foldl (fun inputs txin => (inputs.spendCoin txin.prevout).1) inputs
  -- every addition may be an overwrite
  inputs.addCoins hash tx nHeight true

variable (man : ChainstateManager) (blockman : BlockManager)

def rollforwardBlock (pindex : CBlockIndex)
    (inputs : CCoinsViewCache) : Except ReplayFailure CCoinsViewCache := do
  let block ← orFailure .failed (blockman.readBlockFromDisk pindex)
  orFailure .aborted (block.vtx.foldlM (rollforwardTx man.hash pindex.nHeight) inputs)

/-- The body of the first loop of `ReplayBlocks`. The genesis block is never disconnected. -/
def rollbackBlock (pindexOld : CBlockIndex)
    (cache : CCoinsViewCache) : Except ReplayFailure CCoinsViewCache :=
  if pindexOld.nHeight > 0 then do
    let block ← orFailure .failed (blockman.readBlockFromDisk pindexOld)
    let (cache, res) ← orFailure .aborted (disconnectBlock man block pindexOld
      (blockman.undoFile pindexOld) cache)
    if res = .failed then .error .failed else .ok cache
  else .ok cache

/-- The first loop of `ReplayBlocks`: from `pindexOld` back to `pindexFork`. -/
def rollback (man : ChainstateManager) (blockman : BlockManager) (pindexFork : CBlockIndex) :
    CBlockIndex → CCoinsViewCache → Except ReplayFailure CCoinsViewCache
  | .genesis header, cache => if .genesis header = pindexFork then .ok cache else .error .aborted
  | .next pprev header, cache =>
    if .next pprev header = pindexFork then .ok cache
    else do
      let cache ← rollbackBlock man blockman (.next pprev header) cache
      rollback man blockman pindexFork pprev cache

/-- `ReplayBlocks` from the old tip back to the fork, with the height of the fork. A null
hash is the old tip of the first flush. -/
def rollbackOld (pindexNew : CBlockIndex) (hashOld : Uint256)
    (cache : CCoinsViewCache) : Except ReplayFailure (CCoinsViewCache × Nat) :=
  if hashOld = nullUint256 then .ok (cache, 0)
  else do
    let pindexOld ← orFailure .failed (blockman.blockIndex hashOld)
    let pindexFork ← orFailure .aborted (lastCommonAncestor pindexOld pindexNew)
    let cache ← rollback man blockman pindexFork pindexOld cache
    .ok (cache, pindexFork.nHeight)

/-- The body of the second loop of `ReplayBlocks`. -/
def rollforwardHeight (pindexNew : CBlockIndex)
    (cache : CCoinsViewCache) (nHeight : Nat) : Except ReplayFailure CCoinsViewCache := do
  let pindex ← orFailure .aborted (pindexNew.getAncestor nHeight)
  rollforwardBlock man blockman pindex cache

/-- `ReplayBlocks`. The order is the one of the hash table of the cache that is flushed. -/
def replayBlocks (order : CCoinsMap → List (COutPoint × CCoinsCacheEntry)) (db : CCoinsViewDB) :
    Except ReplayFailure CCoinsViewDB :=
  match db.headBlocks with
  | [] => .ok db
  | [hashNew, hashOld] => do
    let pindexNew ← orFailure .failed (blockman.blockIndex hashNew)
    let (cache, nForkHeight) ← rollbackOld man blockman pindexNew hashOld ⟨∅, nullUint256,
      .db db.coins db.bestBlock⟩
    let cache ← (List.range' (nForkHeight + 1) (pindexNew.nHeight - nForkHeight)).foldlM
      (rollforwardHeight man blockman pindexNew) cache
    let cache := cache.setBestBlock (pindexNew.getBlockHash man.hashX16RV2)
    orFailure .aborted (db.batchWrite (order cache.cacheCoins) cache.hashBlock)
  | _ => .error .failed

/-! ## The unspent coins at a tip -/

/-- `UtxoAt man blockman pindex coins`: the unspent coins at `pindex`. All blocks up to it
were connected one after the other, without an overwrite, and are stored with the undo
data that this left. Nothing of the genesis block can be spent. -/
inductive UtxoAt (man : ChainstateManager) (blockman : BlockManager) : CBlockIndex → UtxoSet → Prop
  | genesis (header : CBlockHeader) : UtxoAt man blockman (.genesis header) ∅
  | connect {pprev : CBlockIndex} {header : CBlockHeader} {block : CBlock}
      {view view' : CCoinsViewCache} {vtxundo : CBlockUndo}
      (hprev : UtxoAt man blockman pprev view.coins) (hflags : view.WellFlagged)
      (hread : blockman.readBlockFromDisk (.next pprev header) = some block)
      (hchecked : block.fChecked = true → checkBlock man
        { block with fChecked := false } true true = .ok ())
      (hgenesis : block.getHash man.hashX16RV2 ≠ man.params.consensus.hashGenesisBlock)
      (hconnect : connectBlock man block (.next pprev header) view false = .ok (view', vtxundo))
      (hundo : blockman.undoFile (.next pprev header) =
        undoWriteToDisk man.hash (pprev.getBlockHash man.hashX16RV2) vtxundo)
      (hnew : Journal.NoOverwrite (blockChanges man.hash (pprev.nHeight + 1) block.vtx vtxundo)
        view.coins) :
      UtxoAt man blockman (.next pprev header) view'.coins

namespace ReplayLemmas

variable {hash : Bytes → Uint256} {nHeight : Nat} {view : CCoinsViewCache}

/-! ## Rolling a block forward -/

/-- `AddCoins` that looks first whether a coin is there. -/
theorem addCoinsLoop_overwriting {txid : Uint256} {fCoinBase : Bool} {i : Nat} {vout : List CTxOut}
    (hflags : view.WellFlagged) (hvalue : ∀ out ∈ vout, out.isNull = false) :
    ∃ view', CCoinsViewCache.addCoinsLoop txid nHeight fCoinBase true i vout view = some view' ∧
      view.LeadsTo (applyAll (adds (newCoins txid nHeight fCoinBase i vout)) view.coins) view' := by
  induction vout generalizing i view with
  | nil => exact ⟨view, rfl, .refl hflags⟩
  | cons out vout ih =>
    obtain ⟨hout, hvalue⟩ := List.forall_mem_cons.mp hvalue
    obtain ⟨hsame, hhave⟩ := view.haveCoin_spec (COutPoint.ofIndex txid i)
    rcases hcoin : view.haveCoin (COutPoint.ofIndex txid i) with ⟨view₁, overwrite⟩
    rw [hcoin] at hsame hhave
    have hleads := hsame.leadsTo hflags
    simp only [addCoinsLoop, if_true, hcoin]
    cases hscript : CScript.isUnspendable out.scriptPubKey with
    | true =>
      have hadd : view₁.addCoin (COutPoint.ofIndex txid i) ⟨out, fCoinBase, nHeight⟩ overwrite =
          some view₁ := by
        have hunspent : (Coin.mk out fCoinBase nHeight).isSpent = false := hout
        rw [addCoin, if_neg (Bool.eq_false_iff.mp hunspent), if_pos hscript]
      obtain ⟨view', hloop, hleads'⟩ := @ih view₁ (i + 1) hleads.wellFlagged hvalue
      rw [hleads.coins] at hleads'
      refine ⟨view', ?_, ?_⟩
      · rw [hadd]
        exact hloop
      · rw [newCoins, if_pos hscript]
        exact hleads.trans hleads'
    | false =>
      have hover : overwrite = false → view₁.coins.lookup (COutPoint.ofIndex txid i) = none := by
        rintro rfl
        rw [hsame.coins]
        exact Option.not_isSome_iff_eq_none.mp (Bool.eq_false_iff.mp hhave.symm)
      obtain ⟨view₂, hadd, hleads₂⟩ := addCoin_leadsTo hleads.wellFlagged
        ⟨⟨out, fCoinBase, nHeight⟩, hout⟩ hscript hover
      obtain ⟨view', hloop, hleads'⟩ := @ih view₂ (i + 1) hleads₂.wellFlagged hvalue
      rw [hleads₂.coins, hsame.coins] at hleads'
      refine ⟨view', ?_, ?_⟩
      · rw [hadd]
        exact hloop
      · rw [newCoins_cons hscript hout]
        exact (hleads.trans hleads₂).trans hleads'

theorem spendInputs_leadsTo {vin : List CTxIn} {vprevout : CTxUndo}
    (hlen : vprevout.length = vin.length)
    (hundo : ∀ coin ∈ vprevout, coin.Restorable) (hflags : view.WellFlagged) :
    view.LeadsTo (applyAll (removes (spentCoins (vin.zip vprevout))) view.coins)
      (vin.foldl (fun inputs txin => (inputs.spendCoin txin.prevout).1) view) := by
  induction vin generalizing vprevout view with
  | nil => exact .refl hflags
  | cons txin vin ih =>
    cases vprevout with
    | nil => cases hlen
    | cons undo vprevout =>
      obtain ⟨hfirst, hundo⟩ := List.forall_mem_cons.mp hundo
      have hleads := (view.spendCoin_leadsTo hflags txin.prevout).1
      have hleads' := ih (Nat.succ.inj hlen) hundo hleads.wellFlagged
      rw [hleads.coins] at hleads'
      rw [zip_cons_cons, spentCoins_cons hfirst.unspent]
      exact hleads.trans hleads'

theorem rollforwardTx_spec {tx : CTransaction} {txundo : Option CTxUndo}
    (hundo : Undoable tx txundo) (hflags : view.WellFlagged) :
    ∃ view', rollforwardTx hash nHeight view tx = some view' ∧
      view.LeadsTo (applyAll (txChanges hash nHeight tx txundo) view.coins) view' := by
  rw [rollforwardTx, txChanges, applyAll_append, hundo.coinbase]
  obtain ⟨inputs, hinputs, hleads⟩ : ∃ inputs,
      (if txundo.isNone = true then view
        else tx.vin.foldl (fun inputs txin => (inputs.spendCoin txin.prevout).1) view) = inputs ∧
      view.LeadsTo (applyAll (removes (spentCoins (tx.vin.zip (txundo.getD [])))) view.coins)
        inputs := by
    cases txundo with
    | none =>
      refine ⟨view, rfl, ?_⟩
      rw [Option.getD_none, zip_nil_right]
      exact .refl hflags
    | some vprevout =>
      obtain ⟨hlen, hrestorable⟩ := hundo.vprevout vprevout rfl
      exact ⟨_, rfl, spendInputs_leadsTo hlen hrestorable hflags⟩
  obtain ⟨view', hadd, hleads'⟩ :=
      @addCoinsLoop_overwriting nHeight inputs (tx.getHash hash) tx.isCoinBase 0 tx.vout
    hleads.wellFlagged hundo.vout
  rw [hleads.coins, hundo.coinbase] at hleads'
  rw [hundo.coinbase] at hadd
  refine ⟨view', ?_, hleads.trans hleads'⟩
  rw [hinputs, addCoins, hundo.coinbase]
  exact hadd

theorem rollforwardTxs_spec {vtx : List CTransaction} {undos : List (Option CTxUndo)}
    (hlen : undos.length = vtx.length)
    (hundo : ∀ p ∈ vtx.zip undos, Undoable p.1 p.2) (hflags : view.WellFlagged) :
    ∃ view', vtx.foldlM (rollforwardTx hash nHeight) view = some view' ∧
      view.LeadsTo (applyAll (txsChanges hash nHeight (vtx.zip undos)) view.coins) view' := by
  induction vtx generalizing undos view with
  | nil => exact ⟨view, rfl, .refl hflags⟩
  | cons tx vtx ih =>
    cases undos with
    | nil => cases hlen
    | cons txundo undos =>
      obtain ⟨hfirst, hundo⟩ := List.forall_mem_cons.mp hundo
      obtain ⟨view₁, htx, hleads⟩ := @rollforwardTx_spec hash nHeight view tx txundo hfirst hflags
      obtain ⟨view', htxs, hleads'⟩ := ih (Nat.succ.inj hlen) hundo hleads.wellFlagged
      rw [hleads.coins] at hleads'
      refine ⟨view', ?_, ?_⟩
      · rw [foldlM_cons, htx]
        exact htxs
      · rw [zip_cons_cons, txsChanges, flatMap_cons, applyAll_append]
        exact hleads.trans hleads'

end ReplayLemmas

/-- The block of `pindex` is stored with the undo data that connecting it to `coins` left. -/
structure StoredBlock (man : ChainstateManager) (blockman : BlockManager)
    (pindex pprev : CBlockIndex) (block : CBlock)
    (vtxundo : CBlockUndo) (coins coins' : UtxoSet) : Prop where
  parent : pindex.pprev = some pprev
  read : blockman.readBlockFromDisk pindex = some block
  undo : blockman.undoFile pindex = undoWriteToDisk man.hash
    (pprev.getBlockHash man.hashX16RV2) vtxundo
  changed : BlockChanged man.hash pindex.nHeight block.vtx vtxundo coins coins'

section Stored

variable {man : ChainstateManager} {blockman : BlockManager} {pindex pprev : CBlockIndex}
  {block : CBlock}
  {vtxundo : CBlockUndo} {coins coins' : UtxoSet} {cache : CCoinsViewCache}

open ReplayLemmas

theorem rollforwardBlock_spec (h : StoredBlock man blockman pindex pprev block vtxundo coins coins')
    (hflags : cache.WellFlagged) :
    ∃ cache', rollforwardBlock man blockman pindex cache = .ok cache' ∧
      cache.LeadsTo (applyAll (blockChanges man.hash pindex.nHeight block.vtx vtxundo) cache.coins)
        cache' := by
  have hlen : (none :: vtxundo.map some).length = block.vtx.length := by
    rw [length_cons, length_map]
    exact h.changed.length
  obtain ⟨cache', htxs, hleads⟩ :=
    @rollforwardTxs_spec man.hash pindex.nHeight cache _ _ hlen h.changed.undoable hflags
  refine ⟨cache', ?_, hleads⟩
  rw [rollforwardBlock, h.read]
  exact congrArg (orFailure .aborted) htxs

theorem rollbackBlock_spec (h : StoredBlock man blockman pindex pprev block vtxundo coins coins')
    (hflags : cache.WellFlagged) :
    ∃ cache', rollbackBlock man blockman pindex cache = .ok cache' ∧
      cache.LeadsTo (revertAll (blockChanges man.hash pindex.nHeight block.vtx vtxundo) cache.coins)
        cache' := by
  obtain ⟨cache', clean, hdisconnect, hleads, _, _⟩ :=
    disconnectBlock_spec h.parent h.changed hflags
  refine ⟨cache', ?_, hleads⟩
  have hpos : pindex.nHeight > 0 := by
    rw [nHeight_of_pprev h.parent]
    exact Nat.succ_pos _
  have hresult : DisconnectResult.ofClean clean ≠ .failed := by
    cases clean with
    | false => decide
    | true => decide
  rw [rollbackBlock, if_pos hpos, h.read, h.undo]
  exact bind_ok.mpr ⟨block, rfl, bind_ok.mpr ⟨_, congrArg (orFailure .aborted) hdisconnect,
    if_neg hresult⟩⟩

end Stored

namespace UtxoAt

variable {man : ChainstateManager} {blockman : BlockManager} {pindex pprev : CBlockIndex}
  {header : CBlockHeader}
  {coins coins' : UtxoSet}

theorem proper (h : UtxoAt man blockman pindex coins) (hint : pindex.nHeight < 2 ^ 31) :
    ProperCoins coins := by
  induction h with
  | genesis header =>
    intro outpoint coin hlookup
    cases hlookup
  | connect _ hflags _ hchecked hgenesis hconnect _ hnew ih =>
    have hview : UtxoView _ := ⟨hflags, ih (Nat.lt_of_succ_lt hint)⟩
    obtain ⟨_, _, _, _, hproper, _⟩ :=
      connectBlock_blockChanged hview hint hchecked hgenesis hconnect hnew
    exact hproper

theorem last (h : UtxoAt man blockman (.next pprev header) coins')
    (hint : pprev.nHeight + 1 < 2 ^ 31) : ∃ block vtxundo coins, UtxoAt man blockman pprev coins ∧
      StoredBlock man blockman (.next pprev header) pprev block vtxundo coins coins' := by
  cases h with
  | connect hprev hflags hread hchecked hgenesis hconnect hundo hnew =>
    have hview : UtxoView _ := ⟨hflags, hprev.proper (Nat.lt_of_succ_lt hint)⟩
    have hint : (CBlockIndex.next pprev header).nHeight < 2 ^ 31 := hint
    obtain ⟨_, _, _, _, _, hchanged⟩ :=
      connectBlock_blockChanged hview hint hchecked hgenesis hconnect hnew
    exact ⟨_, _, _, hprev, rfl, hread, hundo, hchanged⟩

/-- The stored blocks and undo data determine the coins. -/
theorem unique (h : UtxoAt man blockman pindex coins) (h' : UtxoAt man blockman pindex coins')
    (hint : pindex.nHeight < 2 ^ 31) : coins = coins' := by
  induction pindex generalizing coins coins' with
  | genesis header =>
    cases h
    cases h'
    rfl
  | next pprev header ih =>
    obtain ⟨block, vtxundo, _, hprev, hstored⟩ := h.last hint
    obtain ⟨block', vtxundo', _, hprev', hstored'⟩ := h'.last hint
    cases ih hprev hprev' (Nat.lt_of_succ_lt hint)
    cases hstored.read.symm.trans hstored'.read
    have hundo : some vtxundo = some vtxundo' := by
      rw [← undoReadFromDisk_write hstored.changed.length_le hstored.changed.storable,
        ← hstored.undo, hstored'.undo,
        undoReadFromDisk_write hstored'.changed.length_le hstored'.changed.storable]
    cases hundo
    rw [hstored.changed.coins_eq, hstored'.changed.coins_eq]

end UtxoAt

/-! ## The blocks of a branch -/

namespace ReplayLemmas

theorem rollforwardHeights_eq {man : ChainstateManager} {blockman : BlockManager}
    {tip : CBlockIndex} {height : Nat} (cache : CCoinsViewCache) :
    (List.range' (height + 1) (tip.nHeight - height)).foldlM
    (rollforwardHeight man blockman tip) cache =
      (tip.above height).foldlM (fun cache pindex =>
        rollforwardBlock man blockman pindex cache) cache := by
  have h := congrArg (List.foldlM (fun cache (pindex : Option CBlockIndex) =>
    (orFailure .aborted pindex) >>= fun pindex => rollforwardBlock man blockman pindex cache) cache)
    (@getAncestor_range tip height)
  rw [foldlM_map, foldlM_map] at h
  exact h

end ReplayLemmas

/-- The blocks above `pindexFork` up to `pindex` can be rolled back and forward over any
coins, and `journal` tells what that changes. -/
structure Replayable (man : ChainstateManager) (blockman : BlockManager)
    (pindexFork pindex : CBlockIndex) (journal : List (Change COutPoint UnspentCoin)) : Prop where
  rollback : ∀ cache : CCoinsViewCache, cache.WellFlagged →
    ∃ cache', rollback man blockman pindexFork pindex cache = .ok cache' ∧
      cache.LeadsTo (revertAll journal cache.coins) cache'
  rollforward : ∀ cache : CCoinsViewCache, cache.WellFlagged →
    ∃ cache', (pindex.above pindexFork.nHeight).foldlM (fun cache pindex =>
    rollforwardBlock man blockman pindex cache)
        cache = .ok cache' ∧
      cache.LeadsTo (applyAll journal cache.coins) cache'

section Branch

open ReplayLemmas

variable {man : ChainstateManager} {blockman : BlockManager} {pindexFork pindex pprev : CBlockIndex}
  {header : CBlockHeader} {journal : List (Change COutPoint UnspentCoin)}

theorem Replayable.refl : Replayable man blockman pindex pindex [] := by
  refine ⟨fun cache hflags => ⟨cache, ?_, .refl hflags⟩, fun cache hflags =>
    ⟨cache, ?_, .refl hflags⟩⟩
  · cases pindex with
    | genesis => exact if_pos rfl
    | next => exact if_pos rfl
  · rw [above_self]
    rfl

theorem Replayable.next {block : CBlock} {vtxundo : CBlockUndo} {coins coins' : UtxoSet}
    (h : Replayable man blockman pindexFork pprev journal) (hbelow : pindexFork.Below pprev)
    (hstored : StoredBlock man blockman (.next pprev header) pprev block vtxundo coins coins') :
    Replayable man blockman pindexFork (.next pprev header)
      (journal ++ blockChanges man.hash (CBlockIndex.next pprev header).nHeight block.vtx
        vtxundo) := by
  have hheight := nHeight_le_of_below hbelow
  refine ⟨fun cache hflags => ?_, fun cache hflags => ?_⟩
  · have hne : CBlockIndex.next pprev header ≠ pindexFork := by
      rintro rfl
      exact Nat.not_succ_le_self _ hheight
    obtain ⟨cache₁, hblock, hleads⟩ := rollbackBlock_spec hstored hflags
    obtain ⟨cache', hback, hleads'⟩ := h.rollback cache₁ hleads.wellFlagged
    rw [hleads.coins] at hleads'
    refine ⟨cache', ?_, ?_⟩
    · rw [Bitcoboost.rollback, if_neg hne]
      exact bind_ok.mpr ⟨cache₁, hblock, hback⟩
    · rw [revertAll_append]
      exact hleads.trans hleads'
  · obtain ⟨cache₁, hforward, hleads⟩ := h.rollforward cache hflags
    obtain ⟨cache', hblock, hleads'⟩ := rollforwardBlock_spec hstored hleads.wellFlagged
    rw [hleads.coins] at hleads'
    refine ⟨cache', ?_, ?_⟩
    · rw [CBlockIndex.above, if_pos hheight, foldlM_append]
      exact bind_ok.mpr ⟨cache₁, hforward, bind_ok.mpr ⟨cache', hblock, rfl⟩⟩
    · rw [applyAll_append]
      exact hleads.trans hleads'

theorem UtxoAt.branch {coins' : UtxoSet} (hbelow : pindexFork.Below pindex)
    (h : UtxoAt man blockman pindex coins') (hint : pindex.nHeight < 2 ^ 31) :
    ∃ coins journal, UtxoAt man blockman pindexFork coins ∧ Fits journal coins ∧
    coins' = applyAll journal coins ∧
      Replayable man blockman pindexFork pindex journal := by
  induction hbelow generalizing coins' with
  | refl => exact ⟨coins', [], h, trivial, rfl, .refl⟩
  | next hbelow ih =>
    obtain ⟨block, vtxundo, coins₁, hprev, hstored⟩ := h.last hint
    obtain ⟨coins, journal, hfork, hfits, hcoins, hreplay⟩ := ih hprev (Nat.lt_of_succ_lt hint)
    refine ⟨coins, _, hfork, fits_append.mpr ⟨hfits, ?_⟩, ?_, hreplay.next hbelow hstored⟩
    · rw [← hcoins]
      exact hstored.changed.fits
    · rw [applyAll_append, ← hcoins, hstored.changed.coins_eq]

end Branch

/-! ## After an interrupted flush -/

open ReplayLemmas

/-- The unspent coins at a tip, of which there are none before the first flush. -/
def UtxoAtTip : Option CBlockIndex → UtxoSet → Prop
  | none, coins => coins = ∅
  | some pindex, coins => UtxoAt man blockman pindex coins

/-- What a crash in the middle of a flush leaves. Every coin is the one at the old tip or
the one at the new tip, and the database has both tips of one tree as its head blocks. A
null hash is no block: `BatchWrite` asserts this of a new tip. -/
structure InterruptedFlush (man : ChainstateManager) (blockman : BlockManager)
    (pindexNew : CBlockIndex)
    (pindexOld : Option CBlockIndex) (coinsNew coinsOld : UtxoSet) (db : CCoinsViewDB) : Prop where
  utxoNew : UtxoAt man blockman pindexNew coinsNew
  utxoOld : UtxoAtTip man blockman pindexOld coinsOld
  headBlocks : db.headBlocks =
    [pindexNew.getBlockHash man.hashX16RV2, pindexOld.elim nullUint256
    (CBlockIndex.getBlockHash man.hashX16RV2)]
  mixture : ∀ outpoint, db.coins.lookup outpoint = coinsOld.lookup outpoint ∨
    db.coins.lookup outpoint = coinsNew.lookup outpoint
  indexed : ∀ pindex, pindex = pindexNew ∨ pindexOld = some pindex →
    pindex.getBlockHash man.hashX16RV2 ≠ nullUint256 ∧
    blockman.blockIndex (pindex.getBlockHash man.hashX16RV2) = some pindex ∧
    pindex.nHeight < 2 ^ 31 ∧ pindex.root = pindexNew.root

section Replay

variable {man : ChainstateManager} {blockman : BlockManager} {pindexNew : CBlockIndex}
  {pindexOld : Option CBlockIndex}
  {coinsNew coinsOld : UtxoSet} {db : CCoinsViewDB} {cache : CCoinsViewCache}

theorem UtxoAt.eq_empty {pindex : CBlockIndex} {coins : UtxoSet}
    (h : UtxoAt man blockman pindex coins) (hheight : pindex.nHeight = 0) : coins = ∅ := by
  cases h with
  | genesis => rfl
  | connect => cases hheight

/-- The first half of `ReplayBlocks` reverts the old branch down to an ancestor of the new
tip. Before the first flush there is nothing to revert down to the genesis block. -/
theorem rollbackOld_spec (h : InterruptedFlush man blockman pindexNew pindexOld coinsNew
    coinsOld db) (hflags : cache.WellFlagged) :
    ∃ pindexFork journal coins cache', pindexFork.Below pindexNew ∧
    UtxoAt man blockman pindexFork coins ∧
      Fits journal coins ∧ coinsOld = applyAll journal coins ∧
      rollbackOld man blockman pindexNew
        (pindexOld.elim nullUint256 (CBlockIndex.getBlockHash man.hashX16RV2)) cache =
          .ok (cache', pindexFork.nHeight) ∧
      cache.LeadsTo (revertAll journal cache.coins) cache' := by
  cases pindexOld with
  | none =>
    obtain ⟨_, _, hint, _⟩ := h.indexed pindexNew (.inl rfl)
    obtain ⟨coins, _, hroot, _, _, _⟩ := UtxoAt.branch (root_below pindexNew) h.utxoNew hint
    have hempty := hroot.eq_empty (nHeight_root pindexNew)
    refine ⟨pindexNew.root, [], coins, cache, root_below pindexNew, hroot, trivial, ?_, ?_,
      .refl hflags⟩
    · rw [hempty]
      exact h.utxoOld
    · rw [nHeight_root]
      exact if_pos rfl
  | some pindexOld =>
    obtain ⟨hnull, hindex, hint, hroot⟩ := h.indexed pindexOld (.inr rfl)
    obtain ⟨pindexFork, hcommon, hold, hnew⟩ := lastCommonAncestor_spec hroot
    obtain ⟨coins, journal, hfork, hfits, hcoins, hreplay⟩ := UtxoAt.branch hold h.utxoOld hint
    obtain ⟨cache', hback, hleads⟩ := hreplay.rollback cache hflags
    refine ⟨pindexFork, journal, coins, cache', hnew, hfork, hfits, hcoins, ?_, hleads⟩
    rw [Option.elim_some, rollbackOld, if_neg hnull, hindex]
    exact bind_ok.mpr ⟨pindexOld, rfl, bind_ok.mpr ⟨pindexFork,
      congrArg (orFailure .aborted) hcommon, bind_ok.mpr ⟨cache', hback, rfl⟩⟩⟩

theorem batchWrite_replayed {order : List (COutPoint × CCoinsCacheEntry)}
    {hashBlock hashOld : Uint256}
    (hhash : hashBlock ≠ nullUint256) (hheads : db.headBlocks = [hashBlock, hashOld])
    (hbase : cache.base.coins = db.coins) (hflags : cache.WellFlagged)
    (horder : Enumerates order cache.cacheCoins) :
    db.batchWrite order hashBlock = some ⟨cache.coins, hashBlock, []⟩ := by
  have hwritten := foldl_writeEntry horder fun _ _ hentry hclean => hflags.clean hentry hclean
  rw [hbase] at hwritten
  rw [CCoinsViewDB.batchWrite, if_neg hhash, if_neg, hwritten, coins, hbase]
  rintro ⟨_, _, hne⟩
  rw [hheads] at hne
  exact hne rfl

/-- After an interrupted flush `ReplayBlocks` succeeds and leaves exactly the coins at the
new tip. -/
theorem replayBlocks_exact (man : ChainstateManager) (blockman : BlockManager)
    (order : CCoinsMap → List (COutPoint × CCoinsCacheEntry))
    (horder : ∀ cacheCoins, Enumerates (order cacheCoins) cacheCoins)
    (pindexNew : CBlockIndex) (pindexOld : Option CBlockIndex) (coinsNew coinsOld : UtxoSet)
    (db : CCoinsViewDB)
    (h : InterruptedFlush man blockman pindexNew pindexOld coinsNew coinsOld db) :
    replayBlocks man blockman order db = .ok ⟨coinsNew,
      pindexNew.getBlockHash man.hashX16RV2, []⟩ := by
  obtain ⟨hnull, hindex, hint, _⟩ := h.indexed pindexNew (.inl rfl)
  have hflags : (mk ∅ nullUint256 (.db db.coins db.bestBlock)).WellFlagged :=
    ⟨fun he => (by cases he), fun he => (by cases he)⟩
  have hstart : (mk ∅ nullUint256 (.db db.coins db.bestBlock)).coins = db.coins := coinsOver_empty _
  obtain ⟨pindexFork, journal, coins, cache₁, hnew, hfork, hfits, hold, hback, hleads₁⟩ :=
    rollbackOld_spec h hflags
  obtain ⟨coins', journal', hfork', _, hcoins, hreplay⟩ := UtxoAt.branch hnew h.utxoNew hint
  obtain ⟨cache₂, hforward, hleads₂⟩ := hreplay.rollforward cache₁ hleads₁.wellFlagged
  have hbound : pindexFork.nHeight < 2 ^ 31 := Nat.lt_of_le_of_lt (nHeight_le_of_below hnew) hint
  cases hfork'.unique hfork hbound
  -- the journals of the two branches repair every mixture
  have hrepaired : cache₂.coins = coinsNew := by
    rw [hleads₂.coins, hleads₁.coins, hstart, hcoins]
    refine applyAll_revertAll_of_mixture hfits fun outpoint => ?_
    rw [← hold, ← hcoins]
    exact h.mixture outpoint
  have hleads := hleads₁.trans hleads₂
  have hwrite :=
      @batchWrite_replayed db (cache₂.setBestBlock
        (pindexNew.getBlockHash man.hashX16RV2)) _ _ _ hnull
    h.headBlocks hleads.base.coins ⟨hleads.wellFlagged.fresh, hleads.wellFlagged.clean⟩ (horder _)
  have hsame : (cache₂.setBestBlock (pindexNew.getBlockHash man.hashX16RV2)).coins = coinsNew :=
    hrepaired
  rw [hsame] at hwrite
  rw [replayBlocks, h.headBlocks]
  dsimp only
  rw [hindex]
  refine bind_ok.mpr ⟨pindexNew, rfl, bind_ok.mpr ⟨_, hback, bind_ok.mpr ⟨cache₂, ?_, ?_⟩⟩⟩
  · rw [rollforwardHeights_eq]
    exact hforward
  · exact congrArg (orFailure .aborted) hwrite

end Replay

/-! ## A reorganization of one block -/

/-- The hash of a block is the sum of its bytes. -/
def siblingManager : ChainstateManager :=
  { foldManager with hashX16RV2 := fun data _ => uint256S (1 + (data.map UInt8.toNat).sum) }

variable (extra : UInt8)

def siblingTx : CTransaction :=
  ⟨[⟨⟨nullUint256, COutPoint.nullIndex⟩, [1, extra], 0#32, []⟩], [⟨1 * coin, [0x51]⟩], 1#32, 0#32⟩

/-- A block after genesis with a coinbase of its own. -/
def siblingBlock : CBlock :=
  { firstBlock with hashMerkleRoot := (siblingTx extra).getHash foldHash, vtx := [siblingTx extra] }

def siblingIndex : CBlockIndex :=
  .next (.genesis mainParams.genesis) (siblingBlock extra).toCBlockHeader

def siblingHash : Uint256 := (siblingIndex extra).getBlockHash siblingManager.hashX16RV2

def genesisHash : Uint256 :=
  (CBlockIndex.genesis mainParams.genesis).getBlockHash siblingManager.hashX16RV2

def siblingBlockman : BlockManager where
  blockIndex hash :=
    if hash = siblingHash 1 then some (siblingIndex 1)
    else if hash = siblingHash 2 then some (siblingIndex 2) else none
  readBlockFromDisk pindex :=
    if pindex = siblingIndex 1 then some (siblingBlock 1)
    else if pindex = siblingIndex 2 then some (siblingBlock 2) else none
  undoFile _ := undoWriteToDisk foldHash genesisHash []

def siblingOutPoint : COutPoint := COutPoint.ofIndex ((siblingTx extra).getHash foldHash) 0

def siblingCoin : UnspentCoin := ⟨⟨⟨1 * coin, [0x51]⟩, true, 1⟩, rfl⟩

def siblingCoins : UtxoSet := (∅ : UtxoSet).insert (siblingOutPoint extra) siblingCoin

theorem utxoAt_sibling {extra : UInt8} (hextra : extra = 1 ∨ extra = 2) :
    UtxoAt siblingManager siblingBlockman (siblingIndex extra) (siblingCoins extra) := by
  have hempty : (mk ∅ genesisHash (.db ∅ nullUint256)).coins = ∅ := coinsOver_empty ∅
  have hconnect : ∃ view', connectBlock siblingManager (siblingBlock extra) (siblingIndex extra)
      ⟨∅, genesisHash, .db ∅ nullUint256⟩ false = .ok (view', []) ∧
        view'.coins = siblingCoins extra := by
    have hok : ((connectBlock siblingManager (siblingBlock extra) (siblingIndex extra)
        ⟨∅, genesisHash, .db ∅ nullUint256⟩ false).toOption.map fun r => (r.1.coins, r.2)) =
          some (siblingCoins extra, []) := by
      rcases hextra with rfl | rfl
      · decide +kernel
      · decide +kernel
    obtain ⟨⟨view', vtxundo⟩, hresult, heq⟩ := Option.map_eq_some_iff.mp hok
    obtain ⟨hcoins, hundo⟩ := Prod.mk.inj heq
    have hundo : vtxundo = [] := hundo
    subst hundo
    exact ⟨view', toOption_eq_some.mp hresult, hcoins⟩
  obtain ⟨view', hconnect, hcoins⟩ := hconnect
  rw [← hcoins]
  refine .connect ?_ ⟨fun he => (by cases he), fun he => (by cases he)⟩ ?_ ?_ ?_ hconnect rfl ?_
  · rw [hempty]
    exact .genesis _
  · rcases hextra with rfl | rfl
    · decide +kernel
    · decide +kernel
  · exact fun hchecked => (by cases hchecked)
  · rcases hextra with rfl | rfl
    · decide +kernel
    · decide +kernel
  · rw [hempty]
    rcases hextra with rfl | rfl
    · decide +kernel
    · decide +kernel

/-- The flush wrote the coin of the new tip, and the coin of the old tip is still there. -/
theorem replayBlocks_exact_siblings :
    ∃ order, (∀ cacheCoins, Enumerates (order cacheCoins) cacheCoins) ∧
      replayBlocks siblingManager siblingBlockman order
        ⟨(siblingCoins 1).insert (siblingOutPoint 2) siblingCoin, nullUint256,
          [siblingHash 2, siblingHash 1]⟩ =
        .ok ⟨siblingCoins 2, siblingHash 2, []⟩ := by
  choose order horder using exists_enumerates
  refine ⟨order, horder, replayBlocks_exact siblingManager siblingBlockman order horder
    (siblingIndex 2) (some (siblingIndex 1)) (siblingCoins 2) (siblingCoins 1) _
    ⟨utxoAt_sibling (.inr rfl), utxoAt_sibling (.inl rfl), rfl, fun outpoint => ?_,
    fun pindex hpindex => ?_⟩⟩
  · by_cases ho : outpoint = siblingOutPoint 2
    · subst ho
      refine .inr ?_
      rw [lookup_insert, siblingCoins, lookup_insert]
    · refine .inl ?_
      rw [lookup_insert_of_ne _ ho]
  · rcases hpindex with rfl | hold
    · decide +kernel
    · cases hold
      decide +kernel

end Bitcoboost
