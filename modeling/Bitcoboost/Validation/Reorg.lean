import Bitcoboost.Validation.Replay

/-!
# Reorganizations

`ConnectTip` and `DisconnectTip` of `validation.cpp` with the coins, and all their runs from
the genesis block on. `ConnectBlock` writes undo data only if there is none, so a block that
is connected again is later disconnected with the undo data of the first time.
-/

namespace Bitcoboost

open ExceptBind Journal FlushLemmas AncestorLemmas ReplayLemmas CCoinsViewCache

/-- What `ConnectTip` and `DisconnectTip` change of a `Chainstate`. There is no undo file while
`GetUndoPos` is null. The cache over `CoinsTip` that both flush at the end is left out. -/
structure TipState where
  undoFile : CBlockIndex → Option Bytes
  tip : CBlockIndex
  coinsTip : CCoinsViewCache

namespace TipState

variable (man : ChainstateManager) (blocks : CBlockIndex → Option CBlock)

variable (s : TipState)

def blockman : BlockManager :=
  ⟨fun _ => none, blocks, fun pindex => (s.undoFile pindex).getD []⟩

/-- What `ConnectTip` leaves. `WriteUndoDataForBlock` keeps a file that is there. -/
def connected (pindexNew : CBlockIndex) (view : CCoinsViewCache)
    (vtxundo : CBlockUndo) : TipState where
  undoFile pindex :=
    if pindex = pindexNew ∧ s.undoFile pindex = none then
      some (undoWriteToDisk man.hash (s.tip.getBlockHash man.hashX16RV2) vtxundo)
    else s.undoFile pindex
  tip := pindexNew
  coinsTip := view

/-- `ConnectTip`. The block that its caller may hand over is the one on disk. -/
def connectTip (pindexNew : CBlockIndex) : Except BlockFailure TipState := do
  assertThat (pindexNew.pprev = some s.tip)
  let blockConnecting ← (blocks pindexNew).elim (.error (.fatalError "Failed to read block")) .ok
  let (view, vtxundo) ← connectBlock man blockConnecting pindexNew s.coinsTip false
  .ok (s.connected man pindexNew view vtxundo)

/-- `DisconnectTip`, where `none` is false or a failed assertion. -/
def disconnectTip : Option TipState := do
  let pprev ← s.tip.pprev
  let block ← blocks s.tip
  if s.coinsTip.getBestBlock = s.tip.getBlockHash man.hashX16RV2 then
    match ← disconnectBlock man block s.tip ((s.blockman blocks).undoFile s.tip) s.coinsTip with
    | (view, .ok) => some ⟨s.undoFile, pprev, view⟩
    | _ => none
  else none

/-- A block with a file, checked if it says so, that is not the genesis block and overwrites
no coin. -/
structure Connectable (s : TipState) (pindexNew : CBlockIndex) (block : CBlock) : Prop where
  stored : blocks pindexNew = some block
  checked : block.fChecked = true → checkBlock man
    { block with fChecked := false } true true = .ok ()
  notGenesis : block.getHash man.hashX16RV2 ≠ man.params.consensus.hashGenesisBlock
  notNull : pindexNew.getBlockHash man.hashX16RV2 ≠ nullUint256
  height : pindexNew.nHeight < 2 ^ 31
  noOverwrite : ∀ view vtxundo, connectBlock man block pindexNew s.coinsTip false =
    .ok (view, vtxundo) →
    Journal.NoOverwrite (blockChanges man.hash pindexNew.nHeight block.vtx vtxundo) s.coinsTip.coins

/-- The states that a node reaches from the genesis block on. In between `CoinsTip` is read
and flushed: any view with its coins and its best block may follow. -/
inductive Reached : TipState → Prop
  | genesis {header : CBlockHeader} {view : CCoinsViewCache} (hcoins : view.coins = ∅)
      (hflags : view.WellFlagged)
      (hbest : view.getBestBlock = (CBlockIndex.genesis header).getBlockHash man.hashX16RV2)
      (hnull : view.getBestBlock ≠ nullUint256) : Reached ⟨fun _ => none, .genesis header, view⟩
  | connect {s s' : TipState} {header : CBlockHeader} {block : CBlock} (h : Reached s)
      (hblock : Connectable man blocks s (.next s.tip header) block)
      (hconnect : s.connectTip man blocks (.next s.tip header) = .ok s') : Reached s'
  | disconnect {s s' : TipState} (h : Reached s)
      (hdisconnect : s.disconnectTip man blocks = some s') : Reached s'
  | exchange {s : TipState} {view : CCoinsViewCache} (h : Reached s)
      (hcoins : view.coins = s.coinsTip.coins)
      (hflags : view.WellFlagged) (hbest : view.getBestBlock = s.coinsTip.getBestBlock) :
        Reached { s with coinsTip := view }

end TipState

/-! ## The coins at a tip -/

/-- The coins after a block do not depend on its undo data: `RollforwardBlock` uses none. -/
theorem BlockChanged.coins_unique {hash : Bytes → Uint256} {nHeight : Nat} {vtx : List CTransaction}
    {vtxundo vtxundo' : CBlockUndo} {coins coins₁ coins₂ : UtxoSet}
    (h : BlockChanged hash nHeight vtx vtxundo coins coins₁)
    (h' : BlockChanged hash nHeight vtx vtxundo' coins coins₂) : coins₁ = coins₂ := by
  have hflags : (CCoinsViewCache.mk ∅ nullUint256 (.db coins nullUint256)).WellFlagged :=
    ⟨fun he => (by cases he), fun he => (by cases he)⟩
  obtain ⟨view, hview, hleads⟩ := @rollforwardTxs_spec hash nHeight _ vtx (none :: vtxundo.map some)
    (by simpa using h.length) h.undoable hflags
  obtain ⟨view', hview', hleads'⟩ :=
      @rollforwardTxs_spec hash nHeight _ vtx (none :: vtxundo'.map some)
    (by simpa using h'.length) h'.undoable hflags
  cases hview.symm.trans hview'
  have hcoins := hleads.coins.symm.trans hleads'.coins
  rw [CCoinsViewCache.coins, coinsOver_empty] at hcoins
  exact h.coins_eq.trans (hcoins.trans h'.coins_eq.symm)

/-- The changes of all blocks up to `pindex`, told by the blocks and their undo data. -/
def chainChanges (man : ChainstateManager) (blockman : BlockManager) :
    CBlockIndex → List (Change COutPoint UnspentCoin)
  | .genesis _ => []
  | .next pprev header => chainChanges man blockman pprev ++
    match blockman.readBlockFromDisk (.next pprev header),
        undoReadFromDisk man.hash (pprev.getBlockHash man.hashX16RV2)
        (blockman.undoFile (.next pprev header)) with
    | some block, some vtxundo => blockChanges man.hash (pprev.nHeight + 1) block.vtx vtxundo
    | _, _ => []

namespace UtxoAt

variable {man : ChainstateManager} {blockman blockman' : BlockManager} {pindex : CBlockIndex}
  {coins coins' : UtxoSet}

/-- The blocks determine the coins, whatever the undo files are. -/
theorem coins_eq (h : UtxoAt man blockman pindex coins) (h' : UtxoAt man blockman' pindex coins')
    (hread : blockman'.readBlockFromDisk = blockman.readBlockFromDisk)
    (hint : pindex.nHeight < 2 ^ 31) : coins = coins' := by
  induction pindex generalizing coins coins' with
  | genesis header =>
    cases h
    cases h'
    rfl
  | next pprev header ih =>
    obtain ⟨_, _, _, hprev, hstored⟩ := h.last hint
    obtain ⟨_, _, _, hprev', hstored'⟩ := h'.last hint
    cases ih hprev hprev' (Nat.lt_of_succ_lt hint)
    have hblock := hstored'.read
    rw [hread, hstored.read] at hblock
    cases hblock
    exact hstored.changed.coins_unique hstored'.changed

theorem mono (h : UtxoAt man blockman pindex coins)
    (hread : blockman'.readBlockFromDisk = blockman.readBlockFromDisk)
    (hundo : ∀ p, blockman.undoFile p ≠ [] → blockman'.undoFile p = blockman.undoFile p) :
    UtxoAt man blockman' pindex coins := by
  induction h with
  | genesis header => exact .genesis header
  | connect _ hflags hblock hchecked hgenesis hconnect hfile hnew ih =>
    refine .connect ih hflags (hread ▸ hblock) hchecked hgenesis hconnect
      ((hundo _ ?_).trans hfile) hnew
    rw [hfile]
    exact List.append_ne_nil_of_right_ne_nil _ (List.ne_nil_of_length_pos
      (by rw [BaseBlob.length_data]; decide))

theorem fits_chainChanges (h : UtxoAt man blockman pindex coins) (hint : pindex.nHeight < 2 ^ 31) :
    Fits (chainChanges man blockman pindex) ∅ ∧
    coins = applyAll (chainChanges man blockman pindex) ∅ := by
  induction pindex generalizing coins with
  | genesis header =>
    cases h
    exact ⟨trivial, rfl⟩
  | next pprev header ih =>
    obtain ⟨block, vtxundo, coins₁, hprev, hstored⟩ := h.last hint
    obtain ⟨hfits, hcoins⟩ := ih hprev (Nat.lt_of_succ_lt hint)
    have hchanged := hstored.changed
    rw [hcoins] at hchanged
    rw [chainChanges, hstored.read, hstored.undo,
      undoReadFromDisk_write hchanged.length_le hchanged.storable]
    exact ⟨fits_append.mpr ⟨hfits, hchanged.fits⟩,
      hchanged.coins_eq.trans (applyAll_append _ _ _).symm⟩

end UtxoAt

/-! ## Runs -/

namespace TipState

variable {man : ChainstateManager} {blocks : CBlockIndex → Option CBlock}

/-- What holds between two calls. Undo data is of a time when the block was connected. -/
structure Invariant (man : ChainstateManager) (blocks : CBlockIndex → Option CBlock)
    (s : TipState) : Prop where
  utxo : UtxoAt man (s.blockman blocks) s.tip s.coinsTip.coins
  wellFlagged : s.coinsTip.WellFlagged
  bestBlock : s.coinsTip.getBestBlock = s.tip.getBlockHash man.hashX16RV2
  notNull : ∀ p : CBlockIndex, p.Below s.tip → p.getBlockHash man.hashX16RV2 ≠ nullUint256
  height : s.tip.nHeight < 2 ^ 31
  undo : ∀ p, s.undoFile p ≠ none → p.nHeight < 2 ^ 31 ∧ ∃ coins,
    UtxoAt man (s.blockman blocks) p coins

variable {s s' : TipState} {pindexNew pprev p : CBlockIndex} {header : CBlockHeader}
  {block : CBlock}
  {view view' : CCoinsViewCache} {vtxundo : CBlockUndo} {coins : UtxoSet}

theorem connectBlock_hashBlock (h : connectBlock man block p view false = .ok (view', vtxundo)) :
    view'.hashBlock = p.getBlockHash man.hashX16RV2 := by
  simp only [connectBlock, bind_ok] at h
  obtain ⟨_, hhash, _, -, _, -, h⟩ := h
  have hhash : p.getBlockHash man.hashX16RV2 = block.getHash man.hashX16RV2 := by grind [assertThat]
  rw [hhash]
  split at h
  · cases h
    rfl
  · simp only [bind_ok] at h
    obtain ⟨_, -, _, -, _, -, _, -, _, -, _, -, _, -, h⟩ := h
    rw [if_neg Bool.false_ne_true] at h
    split at h
    · cases h
    · cases h
      rfl

theorem getBestBlock_of_ne {hashBlock : Uint256} (h : view.hashBlock = hashBlock)
    (hnull : hashBlock ≠ nullUint256) : view.getBestBlock = hashBlock := by
  rw [getBestBlock, h, if_neg hnull]

theorem utxoAt_connected (h : UtxoAt man (s.blockman blocks) p coins) :
    UtxoAt man ((s.connected man pindexNew view vtxundo).blockman blocks) p coins := by
  refine h.mono rfl fun p hp => ?_
  have hsome : s.undoFile p ≠ none := fun hnone => hp (congrArg (Option.getD · []) hnone)
  exact congrArg (Option.getD · []) (if_neg fun hnew => hsome hnew.2)

theorem Invariant.utxoAt_tip (h : Invariant man blocks s)
    (hblock : Connectable man blocks s (.next s.tip header) block)
    (hconnect : connectBlock man block (.next s.tip header) s.coinsTip false = .ok (view, vtxundo))
    (hchanged : BlockChanged man.hash (s.tip.nHeight + 1) block.vtx vtxundo s.coinsTip.coins
      view.coins) :
    UtxoAt man ((s.connected man (.next s.tip header) view vtxundo).blockman blocks)
    (.next s.tip header) view.coins := by
  by_cases hfile : s.undoFile (.next s.tip header) = none
  · -- connected for the first time
    exact .connect (utxoAt_connected h.utxo) h.wellFlagged hblock.stored hblock.checked
        hblock.notGenesis hconnect
      (congrArg (Option.getD · []) (if_pos ⟨rfl, hfile⟩)) (hblock.noOverwrite _ _ hconnect)
  · -- the undo data of an earlier time is kept
    obtain ⟨_, coins', hutxo⟩ := h.undo _ hfile
    obtain ⟨_, _, _, hprev, hstored⟩ := hutxo.last hblock.height
    cases hprev.unique h.utxo h.height
    cases hblock.stored.symm.trans hstored.read
    rw [hchanged.coins_unique hstored.changed]
    exact utxoAt_connected hutxo

theorem Invariant.connect (h : Invariant man blocks s)
    (hblock : Connectable man blocks s (.next s.tip header) block)
    (hconnect : s.connectTip man blocks (.next s.tip header) = .ok s') :
    Invariant man blocks s' := by
  obtain ⟨_, _, hconnect⟩ := bind_ok.mp hconnect
  rw [hblock.stored] at hconnect
  obtain ⟨_, ⟨⟩, hconnect⟩ := bind_ok.mp hconnect
  obtain ⟨⟨view, vtxundo⟩, hconnected, hconnect⟩ := bind_ok.mp hconnect
  cases hconnect
  obtain ⟨_, _, _, hleads, _, hchanged⟩ :=
      connectBlock_blockChanged ⟨h.wellFlagged, h.utxo.proper h.height⟩ hblock.height
    hblock.checked hblock.notGenesis hconnected (hblock.noOverwrite _ _ hconnected)
  have hutxo := h.utxoAt_tip hblock hconnected hchanged
  refine ⟨hutxo, hleads.wellFlagged, getBestBlock_of_ne (connectBlock_hashBlock hconnected)
    hblock.notNull, fun p hp => ?_, hblock.height, fun p hp => ?_⟩
  · rcases below_next.mp hp with rfl | hp
    · exact hblock.notNull
    · exact h.notNull p hp
  · by_cases hnew : p = .next s.tip header ∧ s.undoFile p = none
    · rw [hnew.1]
      exact ⟨hblock.height, _, hutxo⟩
    · exact (h.undo p (ne_of_eq_of_ne (if_neg hnew).symm hp)).imp_right (Exists.imp fun _ =>
        utxoAt_connected)

theorem Invariant.disconnect (h : Invariant man blocks s) (htip : s.tip = .next pprev header) :
    ∃ s', s.disconnectTip man blocks = some s' ∧ s'.tip = pprev ∧ Invariant man blocks s' := by
  obtain ⟨undoFile, tip, coinsTip⟩ := s
  cases htip
  obtain ⟨block, vtxundo, coins, hprev, hstored⟩ := h.utxo.last h.height
  obtain ⟨view, clean, hdisconnect, hleads, hhash, hclean⟩ :=
    disconnectBlock_spec hstored.parent hstored.changed h.wellFlagged
  rw [← hstored.undo, hclean rfl] at hdisconnect
  refine ⟨⟨undoFile, pprev, view⟩, ?_, rfl, ?_, hleads.wellFlagged,
    getBestBlock_of_ne hhash (h.notNull pprev (.next .refl)),
    fun p hp => h.notNull p (.next hp), Nat.lt_of_succ_lt h.height, h.undo⟩
  · have hread : blocks (.next pprev header) = some block := hstored.read
    simp [disconnectTip, CBlockIndex.pprev, hread, if_pos h.bestBlock, hdisconnect,
      DisconnectResult.ofClean]
  · rw [hleads.coins, hstored.changed.coins_eq, revertAll_applyAll hstored.changed.fits]
    exact hprev

theorem Reached.invariant (h : Reached man blocks s) : Invariant man blocks s := by
  induction h with
  | genesis hcoins hflags hbest hnull =>
    refine ⟨?_, hflags, hbest, fun p hp => ?_, Nat.two_pow_pos 31, fun p hp => absurd rfl hp⟩
    · rw [hcoins]
      exact .genesis _
    · rwa [below_genesis.mp hp, ← hbest]
  | connect _ hblock hconnect ih => exact ih.connect hblock hconnect
  | @disconnect s s' _ hdisconnect ih =>
    cases htip : s.tip with
    | genesis =>
      rw [disconnectTip, htip] at hdisconnect
      cases hdisconnect
    | next pprev header =>
      obtain ⟨_, hs', _, hinv⟩ := ih.disconnect htip
      cases hs'.symm.trans hdisconnect
      exact hinv
  | exchange _ hcoins hflags hbest ih =>
    refine ⟨?_, hflags, hbest.trans ih.bestBlock, ih.notNull, ih.height, ih.undo⟩
    rw [hcoins]
    exact ih.utxo

end TipState

open TipState

/-! ## A run of one block -/

def siblingStart : TipState :=
  ⟨fun _ => none, .genesis mainParams.genesis, ⟨∅, genesisHash, .db ∅ nullUint256⟩⟩

def siblingBlocks : CBlockIndex → Option CBlock := siblingBlockman.readBlockFromDisk

theorem reached_siblingStart : Reached siblingManager siblingBlocks siblingStart :=
  .genesis (coinsOver_empty ∅) ⟨fun he => (by cases he), fun he => (by cases he)⟩
    (by decide +kernel) (by decide +kernel)

theorem exists_reached_sibling :
    ∃ s, Reached siblingManager siblingBlocks s ∧ s.tip = siblingIndex 1 := by
  have hok :
      (connectBlock siblingManager (siblingBlock 1) (siblingIndex 1) siblingStart.coinsTip
      false).toOption.map Prod.snd = some [] := by decide +kernel
  obtain ⟨⟨view, _⟩, hresult, rfl⟩ := Option.map_eq_some_iff.mp hok
  have hconnect := toOption_eq_some.mp hresult
  have hstored : siblingBlocks (siblingIndex 1) = some (siblingBlock 1) := by decide +kernel
  have htip : siblingStart.connectTip siblingManager siblingBlocks (siblingIndex 1) =
      .ok (siblingStart.connected siblingManager (siblingIndex 1) view []) := by
    rw [connectTip, hstored]
    exact bind_ok.mpr ⟨(), rfl, bind_ok.mpr ⟨_, rfl, bind_ok.mpr ⟨_, hconnect, rfl⟩⟩⟩
  refine ⟨_, .connect reached_siblingStart ⟨hstored, fun hchecked => (by cases hchecked),
    by decide +kernel, by decide +kernel, by decide, fun view' vtxundo h => ?_⟩ htip, rfl⟩
  cases hconnect.symm.trans h
  decide +kernel

/-! ## Results -/

/-- `DisconnectTip` never fails on a block that the node connected, and leaves the parent as
the tip and as the best block. -/
theorem disconnectTip_reached (man : ChainstateManager) (blocks : CBlockIndex → Option CBlock)
    (s : TipState) (h : Reached man blocks s) (pprev : CBlockIndex) (header : CBlockHeader)
    (htip : s.tip = .next pprev header) :
    ∃ s', s.disconnectTip man blocks = some s' ∧ s'.tip = pprev ∧
      s'.coinsTip.getBestBlock = pprev.getBlockHash man.hashX16RV2 := by
  obtain ⟨s', hs', rfl, hinv⟩ := h.invariant.disconnect htip
  exact ⟨s', hs', rfl, hinv.bestBlock⟩

theorem disconnectTip_reached_sibling :
    ∃ s s' : TipState, s.tip = siblingIndex 1 ∧
      s.disconnectTip siblingManager siblingBlocks = some s' ∧
        s'.tip = .genesis mainParams.genesis := by
  obtain ⟨s, h, htip⟩ := exists_reached_sibling
  obtain ⟨s', hs', hgenesis, -⟩ := disconnectTip_reached siblingManager _ s h _ _ htip
  exact ⟨s, s', htip, hs', hgenesis⟩

/-- The unspent coins are a function of the chain: two nodes with the same tip have the same
coins, whatever each of them connected and disconnected on the way. -/
theorem coinsTip_eq_of_tip_eq (man : ChainstateManager) (blocks : CBlockIndex → Option CBlock)
    (s s' : TipState)
    (h : Reached man blocks s) (h' : Reached man blocks s') (htip : s.tip = s'.tip) :
    s.coinsTip.coins = s'.coinsTip.coins := by
  have hutxo := h'.invariant.utxo
  rw [← htip] at hutxo
  exact h.invariant.utxo.coins_eq hutxo rfl h.invariant.height

theorem coinsTip_eq_of_tip_eq_sibling :
    ∃ s s' : TipState, s.tip = siblingIndex 1 ∧
      s.disconnectTip siblingManager siblingBlocks = some s' ∧
      s'.coinsTip.coins = siblingStart.coinsTip.coins := by
  obtain ⟨s, h, htip⟩ := exists_reached_sibling
  obtain ⟨s', hs', hgenesis, -⟩ := h.invariant.disconnect htip
  exact ⟨s, s', htip, hs', coinsTip_eq_of_tip_eq siblingManager siblingBlocks s' siblingStart
    (.disconnect h hs') reached_siblingStart hgenesis⟩

/-- No double spend: the coins are what the changes of the chain leave, every coin that is
spent in it was created before, and between two spends of an outpoint it is created again. -/
theorem spent_once (man : ChainstateManager) (blocks : CBlockIndex → Option CBlock) (s : TipState)
    (h : Reached man blocks s) :
    s.coinsTip.coins = applyAll (chainChanges man (s.blockman blocks) s.tip) ∅ ∧
      ∀ outpoint coin before after, chainChanges man (s.blockman blocks) s.tip =
        before ++ .remove outpoint coin :: after →
        .add outpoint coin ∈ before ∧ ∀ coin' between rest,
          after = between ++ .remove outpoint coin' :: rest → .add outpoint coin' ∈ between := by
  obtain ⟨hfits, hcoins⟩ := h.invariant.utxo.fits_chainChanges h.invariant.height
  refine ⟨hcoins, fun outpoint coin before after hspent => ?_⟩
  rw [hspent] at hfits
  obtain ⟨_, hcoin, hafter⟩ := fits_append.mp hfits
  refine ⟨add_mem_of_lookup (fun hnone => (by cases hnone)) hcoin, fun coin' between rest heq => ?_⟩
  rw [heq] at hafter
  obtain ⟨_, hcoin', _⟩ := fits_append.mp hafter
  refine add_mem_of_lookup (fun hsome => ?_) hcoin'
  cases (Finmap.lookup_erase _ _).symm.trans hsome

theorem spent_once_sibling :
    ∃ s : TipState, s.tip = siblingIndex 1 ∧ s.coinsTip.coins =
      applyAll (chainChanges siblingManager (s.blockman siblingBlocks) s.tip) ∅ := by
  obtain ⟨s, h, htip⟩ := exists_reached_sibling
  exact ⟨s, htip, (spent_once siblingManager _ s h).1⟩

end Bitcoboost
