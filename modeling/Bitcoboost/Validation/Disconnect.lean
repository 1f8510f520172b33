import Bitcoboost.Chain.Ancestors
import Bitcoboost.Coins.Undo
import Bitcoboost.Lib.Journal
import Bitcoboost.Validation.Supply

/-!
# Disconnecting a block

`ApplyTxInUndo` and `DisconnectBlock` of `validation.cpp`. What `ConnectBlock` does to the
unspent coins is a journal of changes, which the block with its undo data tells. `DisconnectBlock`
reverts it over whatever coins the view has.
-/

namespace Bitcoboost

open ExceptBind FiniteMap Journal CoinsLemmas TxVerifyLemmas ConnectBlockLemmas SupplyLemmas
    CCoinsViewCache List Option Finmap

inductive DisconnectResult where
  | ok
  | unclean
  | failed
deriving DecidableEq, Repr

/-- `fClean ? DISCONNECT_OK : DISCONNECT_UNCLEAN`. -/
def DisconnectResult.ofClean (fClean : Bool) : DisconnectResult := if fClean then .ok else .unclean

/-- `MAX_OUTPUTS_PER_BLOCK`: an output without a script has 9 bytes. -/
def maxOutputsPerBlock : Nat :=
  maxBlockWeight / (witnessScaleFactor * (CTxOut.serialize CTxOut.null).length)

/-- The loop of `AccessByTxid` over `k` outputs from the output `n` on. -/
def accessByTxidLoop (txid : Uint256) : Nat → Nat → CCoinsViewCache → CCoinsViewCache × Coin
  | 0, _, view => (view, Coin.empty)
  | k + 1, n, view =>
    match view.accessCoin (COutPoint.ofIndex txid n) with
    | (view, alternate) => if !alternate.isSpent then (view, alternate)
        else accessByTxidLoop txid k (n + 1) view

def accessByTxid (view : CCoinsViewCache) (txid : Uint256) : CCoinsViewCache × Coin :=
  accessByTxidLoop txid maxOutputsPerBlock 0 view

/-- The end of `ApplyTxInUndo`. -/
def restoreCoin (undo : Coin) (view : CCoinsViewCache) (out : COutPoint) (fClean : Bool) :
    Option (CCoinsViewCache × DisconnectResult) := do
  let view ← view.addCoin out undo (!fClean)
  some (view, .ofClean fClean)

/-- `ApplyTxInUndo`, where `none` is an exception of `AddCoin`. -/
def applyTxInUndo (undo : Coin) (view : CCoinsViewCache) (out : COutPoint) :
    Option (CCoinsViewCache × DisconnectResult) :=
  match view.haveCoin out with
  | (view, haveCoin) =>
    if undo.nHeight = 0 then
      -- missing undo metadata: older versions kept it for one output of a transaction only
      match accessByTxid view out.hash with
      | (view, alternate) =>
        if !alternate.isSpent then
          restoreCoin { undo with nHeight := alternate.nHeight, fCoinBase := alternate.fCoinBase }
            view out (!haveCoin)
        else some (view, .failed)
    else restoreCoin undo view out (!haveCoin)

/-- The loop of `DisconnectBlock` over the outputs of a transaction, from the output `o` on. -/
def disconnectOutputs (txid : Uint256) (nHeight : Nat) (isCoinbase isBip30Exception : Bool) :
    Nat → List CTxOut → CCoinsViewCache → Bool → CCoinsViewCache × Bool
  | _, [], view, fClean => (view, fClean)
  | o, out :: vout, view, fClean =>
    if CScript.isUnspendable out.scriptPubKey then
      disconnectOutputs txid nHeight isCoinbase isBip30Exception (o + 1) vout view fClean
    else
      match view.spendCoin (COutPoint.ofIndex txid o) with
      | (view, coin) =>
        disconnectOutputs txid nHeight isCoinbase isBip30Exception (o + 1) vout view
          (fClean && (coin = some ⟨out, isCoinbase, nHeight⟩ || isBip30Exception))

/-- The loop of `DisconnectBlock` over the inputs of a transaction, with their undo data
and the last input first. -/
def disconnectInputs : List (CTxIn × Coin) → CCoinsViewCache → Bool →
    Option (CCoinsViewCache × DisconnectResult)
  | [], view, fClean => some (view, .ofClean fClean)
  | (txin, undo) :: vin, view, fClean => do
    let (view, res) ← applyTxInUndo undo view txin.prevout
    if res = .failed then some (view, .failed)
    else disconnectInputs vin view (fClean && res ≠ .unclean)

variable (hash : Bytes → Uint256)

/-- The loop body of `DisconnectBlock`. There is no undo data for the first transaction. -/
def disconnectTx (nHeight : Nat) (fEnforceBIP30 : Bool) (tx : CTransaction)
    (txundo : Option CTxUndo) (view : CCoinsViewCache) (fClean : Bool) :
    Option (CCoinsViewCache × DisconnectResult) :=
  match disconnectOutputs (tx.getHash hash) nHeight tx.isCoinBase
    (tx.isCoinBase && !fEnforceBIP30) 0 tx.vout view fClean with
  | (view, fClean) =>
    match txundo with
    | none => some (view, .ofClean fClean)
    | some vprevout =>
      if vprevout.length ≠ tx.vin.length then some (view, .failed)
      else disconnectInputs (tx.vin.zip vprevout).reverse view fClean

/-- The loop of `DisconnectBlock`, with the last transaction first. -/
def disconnectTxs (hash : Bytes → Uint256) (nHeight : Nat) (fEnforceBIP30 : Bool) :
    List (CTransaction × Option CTxUndo) → CCoinsViewCache → Bool →
    Option (CCoinsViewCache × DisconnectResult)
  | [], view, fClean => some (view, .ofClean fClean)
  | (tx, txundo) :: vtx, view, fClean => do
    let (view, res) ← disconnectTx hash nHeight fEnforceBIP30 tx txundo view fClean
    if res = .failed then some (view, .failed)
    else disconnectTxs hash nHeight fEnforceBIP30 vtx view (res = .ok)

/-- The transactions of a block with their undo data. -/
def withUndo (vtx : List CTransaction) (vtxundo : CBlockUndo) :
    List (CTransaction × Option CTxUndo) :=
  vtx.zip (none :: vtxundo.map some)

/-- The blocks of the main network whose coinbase a later one repeats. -/
def isBIP30Unspendable (pindex : CBlockIndex) (blockHash : Uint256) : Bool :=
  (pindex.nHeight = 91722 && blockHash = uint256S
      0x00000000000271a2dc26e7667f8419f2e15416dc6955e5a6c6cdf3f2574dd08e)
    || (pindex.nHeight = 91812 && blockHash =
      uint256S 0x00000000000af0aed4792b1acee3d966af36cf5def14935db8de83d6f9306f2f)

/-- `Chainstate::DisconnectBlock`. The file is what is at the undo position of the block
index. -/
def disconnectBlock (man : ChainstateManager) (block : CBlock) (pindex : CBlockIndex)
    (undoFile : Bytes) (view : CCoinsViewCache) : Option (CCoinsViewCache × DisconnectResult) := do
  let pprev ← pindex.pprev
  let hashPrevBlock := pprev.getBlockHash man.hashX16RV2
  match undoReadFromDisk man.hash hashPrevBlock undoFile with
  | none => some (view, .failed)
  | some vtxundo =>
    if vtxundo.length + 1 ≠ block.vtx.length then some (view, .failed)
    else do
      let fEnforceBIP30 := !isBIP30Unspendable pindex (pindex.getBlockHash man.hashX16RV2)
      let (view, res) ← disconnectTxs man.hash pindex.nHeight fEnforceBIP30
        (withUndo block.vtx vtxundo).reverse view true
      if res = .failed then some (view, .failed)
      else some (view.setBestBlock hashPrevBlock, res)

/-! ## The changes of a block -/

/-- The coins that a transaction spends, told by its inputs with their undo data. -/
def spentCoins (inputs : List (CTxIn × Coin)) : List (COutPoint × UnspentCoin) :=
  inputs.filterMap fun (txin, undo) => undo.unspent?.map fun coin => (txin.prevout, coin)

/-- The coins that a transaction creates, from the output `i` on. -/
def newCoins (txid : Uint256) (nHeight : Nat) (fCoinBase : Bool) :
    Nat → List CTxOut → List (COutPoint × UnspentCoin)
  | _, [] => []
  | i, out :: vout =>
    let rest := newCoins txid nHeight fCoinBase (i + 1) vout
    if CScript.isUnspendable out.scriptPubKey then rest
    else (Coin.unspent? ⟨out, fCoinBase, nHeight⟩).elim rest fun coin =>
      (COutPoint.ofIndex txid i, coin) :: rest

/-- What connecting a transaction changes. -/
def txChanges (nHeight : Nat) (tx : CTransaction) (txundo : Option CTxUndo) :
    List (Change COutPoint UnspentCoin) :=
  removes (spentCoins (tx.vin.zip (txundo.getD []))) ++
    adds (newCoins (tx.getHash hash) nHeight tx.isCoinBase 0 tx.vout)

/-- What connecting transactions changes. -/
def txsChanges (nHeight : Nat) (vtx : List (CTransaction × Option CTxUndo)) :
    List (Change COutPoint UnspentCoin) :=
  vtx.flatMap fun (tx, txundo) => txChanges hash nHeight tx txundo

/-- What connecting a block changes, told by the block and its undo data. -/
def blockChanges (nHeight : Nat) (vtx : List CTransaction) (vtxundo : CBlockUndo) :
    List (Change COutPoint UnspentCoin) :=
  txsChanges hash nHeight (withUndo vtx vtxundo)

/-- `ApplyTxInUndo` restores the coin: it is unspent, it can be spent, and it has a height. -/
structure Coin.Restorable (coin : Coin) : Prop where
  unspent : coin.isSpent = false
  spendable : CScript.isUnspendable coin.out.scriptPubKey = false
  nHeight : 0 < coin.nHeight

/-- A transaction with undo data that `DisconnectBlock` can use. Only a coinbase has none. -/
structure Undoable (tx : CTransaction) (txundo : Option CTxUndo) : Prop where
  vout : ∀ out ∈ tx.vout, out.isNull = false
  vprevout : ∀ vprevout, txundo = some vprevout → vprevout.length = tx.vin.length ∧
    ∀ coin ∈ vprevout, coin.Restorable
  coinbase : tx.isCoinBase = txundo.isNone

namespace DisconnectLemmas

variable {view view' : CCoinsViewCache} {hash : Bytes → Uint256} {nHeight i : Nat} {txid : Uint256}
  {tx : CTransaction} {vout : List CTxOut} {fClean fEnforceBIP30 fCoinBase : Bool}
  {txundo : CTxUndo} {inputs : List (CTxIn × Coin)} {out : CTxOut} {undo : Coin}

theorem val_of_unspent? {coin : Coin} {found : UnspentCoin} (h : coin.unspent? = some found) :
    coin = found.val := by
  grind [Coin.unspent?]

/-! ## What `DisconnectBlock` does to the coins of any view -/

theorem newCoins_cons
    (hscript : CScript.isUnspendable out.scriptPubKey = false) (hvalue : out.isNull = false) :
    newCoins txid nHeight fCoinBase i (out :: vout) =
      (COutPoint.ofIndex txid i, ⟨⟨out, fCoinBase, nHeight⟩, hvalue⟩) ::
        newCoins txid nHeight fCoinBase (i + 1) vout := by
  have hcoin : (Coin.mk out fCoinBase nHeight).isSpent = false := hvalue
  have hunspent : Coin.unspent? ⟨out, fCoinBase, nHeight⟩ =
    some ⟨⟨out, fCoinBase, nHeight⟩, hvalue⟩ := unspent?_of_unspent hcoin
  rw [newCoins, if_neg (Bool.eq_false_iff.mp hscript), hunspent]
  rfl

theorem disconnectOutputs_spec {isCoinbase isBip30Exception : Bool} {o : Nat}
    (hflags : view.WellFlagged) (hvalue : ∀ out ∈ vout, out.isNull = false) :
    view.LeadsTo (revertAll (adds (newCoins txid nHeight isCoinbase o vout)) view.coins)
      (disconnectOutputs txid nHeight isCoinbase isBip30Exception o vout view fClean).1 ∧
    (fClean = true → ((newCoins txid nHeight isCoinbase o vout).map Prod.fst).Nodup →
      (∀ e ∈ newCoins txid nHeight isCoinbase o vout, view.coins.lookup e.1 = some e.2) →
      (disconnectOutputs txid nHeight isCoinbase isBip30Exception o vout view fClean).2 =
        true) := by
  induction vout generalizing o view fClean with
  | nil => exact ⟨.refl hflags, fun hclean _ _ => hclean⟩
  | cons out vout ih =>
    obtain ⟨hout, hvalue⟩ := List.forall_mem_cons.mp hvalue
    rw [disconnectOutputs]
    cases hscript : CScript.isUnspendable out.scriptPubKey with
    | true =>
      grind [newCoins]
    | false =>
      rw [newCoins_cons hscript hout, if_neg Bool.false_ne_true, revertAll_adds_cons]
      obtain ⟨hleads, hcoin⟩ := view.spendCoin_leadsTo hflags (COutPoint.ofIndex txid o)
      rcases hspend : view.spendCoin (COutPoint.ofIndex txid o) with ⟨view₁, coin⟩
      rw [hspend] at hleads hcoin
      obtain ⟨hleads', hclean'⟩ := ih hleads.wellFlagged hvalue
      rw [hleads.coins] at hleads' hclean'
      refine ⟨hleads.trans hleads', fun hclean hnodup hall => ?_⟩
      obtain ⟨hfirst, hall⟩ := List.forall_mem_cons.mp hall
      have hmatch : coin = some ⟨out, isCoinbase, nHeight⟩ := by
        rw [hfirst] at hcoin
        obtain ⟨found, rfl, hfound⟩ := Option.bind_eq_some_iff.mp hcoin
        rw [val_of_unspent? hfound]
      grind [lookup_erase_ne]

theorem applyTxInUndo_spec (hundo : undo.Restorable) (hflags : view.WellFlagged) (out : COutPoint) :
    ∃ view', applyTxInUndo undo view out = some (view', .ofClean (view.coins.lookup out).isNone) ∧
      view.LeadsTo (view.coins.insert out ⟨undo, hundo.unspent⟩) view' := by
  obtain ⟨hsame, hhave⟩ := view.haveCoin_spec out
  rcases hcoin : view.haveCoin out with ⟨view₁, haveCoin⟩
  rw [hcoin] at hsame hhave
  have hleads := hsame.leadsTo hflags
  have hover : (!!haveCoin) = false → view₁.coins.lookup out = none := by
    intro hfalse
    have hnone : ¬ (view.coins.lookup out).isSome = true := by
      grind
    rw [hsame.coins]
    exact Option.not_isSome_iff_eq_none.mp hnone
  obtain ⟨view₂, hadd, hleads'⟩ := addCoin_leadsTo hleads.wellFlagged ⟨undo, hundo.unspent⟩
    hundo.spendable hover
  rw [hsame.coins] at hleads'
  refine ⟨view₂, ?_, hleads.trans hleads'⟩
  grind [applyTxInUndo, Coin.Restorable.nHeight, restoreCoin]

theorem spentCoins_cons {txin : CTxIn} (hundo : undo.isSpent = false) :
    spentCoins ((txin, undo) :: inputs) = (txin.prevout, ⟨undo, hundo⟩) :: spentCoins inputs := by
  simp [spentCoins, unspent?_of_unspent hundo]

theorem disconnectInputs_spec (hflags : view.WellFlagged) (hundo : ∀ p ∈ inputs, p.2.Restorable) :
    ∃ view' clean, disconnectInputs inputs view fClean = some (view', .ofClean clean) ∧
      view.LeadsTo ((spentCoins inputs).foldl (fun coins e =>
        coins.insert e.1 e.2) view.coins) view' ∧
      (fClean = true → ((spentCoins inputs).map Prod.fst).Nodup →
        (∀ e ∈ spentCoins inputs, view.coins.lookup e.1 = none) → clean = true) := by
  induction inputs generalizing view fClean with
  | nil => exact ⟨view, fClean, rfl, .refl hflags, fun hclean _ _ => hclean⟩
  | cons p inputs ih =>
    obtain ⟨txin, undo⟩ := p
    obtain ⟨hfirst, hundo⟩ := List.forall_mem_cons.mp hundo
    obtain ⟨view₁, happly, hleads⟩ := applyTxInUndo_spec hfirst hflags txin.prevout
    obtain ⟨view', clean, hrest, hleads', hclean'⟩ := @ih view₁
      (fClean && DisconnectResult.ofClean (view.coins.lookup txin.prevout).isNone ≠ .unclean)
        hleads.wellFlagged hundo
    rw [hleads.coins] at hleads' hclean'
    refine ⟨view', clean, ?_, ?_, fun hclean hnodup hnone => ?_⟩
    · have hnot : DisconnectResult.ofClean (view.coins.lookup txin.prevout).isNone ≠ .failed := by
        grind [DisconnectResult.ofClean]
      grind [disconnectInputs]
    · rw [spentCoins_cons hfirst.unspent, foldl_cons]
      exact hleads.trans hleads'
    · rw [spentCoins_cons hfirst.unspent] at hnodup hnone
      obtain ⟨hnotin, hnodup⟩ := List.nodup_cons.mp hnodup
      obtain ⟨hnone₁, hnone⟩ := List.forall_mem_cons.mp hnone
      have habsent : view.coins.lookup txin.prevout = none := hnone₁
      refine hclean' (by rw [hclean, habsent]; decide) hnodup fun e he => ?_
      grind [lookup_insert_of_ne]

theorem revertAll_removes (entries : List (COutPoint × UnspentCoin)) (coins : UtxoSet) :
    revertAll (removes entries) coins = entries.reverse.foldl (fun coins e =>
      coins.insert e.1 e.2) coins := by
  rw [revertAll, removes, foldr_map, foldl_reverse]
  rfl

theorem disconnectTx_spec {txundo : Option CTxUndo} (hundo : Undoable tx txundo)
    (hflags : view.WellFlagged) :
    ∃ view' clean, disconnectTx hash nHeight fEnforceBIP30 tx txundo view fClean =
      some (view', .ofClean clean) ∧
      view.LeadsTo (revertAll (txChanges hash nHeight tx txundo) view.coins) view' ∧
      (fClean = true → ∀ coins, Fits (txChanges hash nHeight tx txundo) coins →
        view.coins = applyAll (txChanges hash nHeight tx txundo) coins → clean = true) := by
  obtain ⟨hleads, hclean₁⟩ := @disconnectOutputs_spec view nHeight (tx.getHash hash) tx.vout
    fClean tx.isCoinBase (tx.isCoinBase && !fEnforceBIP30) 0 hflags hundo.vout
  rw [disconnectTx, txChanges, revertAll_append]
  rcases houtputs : disconnectOutputs (tx.getHash hash) nHeight tx.isCoinBase
      (tx.isCoinBase && !fEnforceBIP30) 0 tx.vout
    view fClean with ⟨view₁, clean₁⟩
  rw [houtputs] at hleads hclean₁
  cases txundo with
  | none =>
    refine ⟨view₁, clean₁, rfl, ?_, fun hclean coins hfits heq => ?_⟩
    · rw [getD_none, zip_nil_right]
      exact hleads
    · rw [getD_none, zip_nil_right] at hfits heq
      obtain ⟨hnodup, hall⟩ := fits_adds (show Fits (adds _) coins from hfits)
      exact hclean₁ hclean hnodup fun e he => heq ▸ hall e he
  | some vprevout =>
    obtain ⟨hlen, hrestorable⟩ := hundo.vprevout vprevout rfl
    have hpairs : ∀ p ∈ (tx.vin.zip vprevout).reverse, p.2.Restorable := fun p hp =>
      hrestorable p.2 (of_mem_zip (List.mem_reverse.mp hp)).2
    obtain ⟨view', clean, hinputs, hleads', hclean'⟩ :=
      @disconnectInputs_spec view₁ clean₁ _ hleads.wellFlagged hpairs
    have hreverse : spentCoins (tx.vin.zip vprevout).reverse =
      (spentCoins (tx.vin.zip vprevout)).reverse := filterMap_reverse
    rw [hreverse, hleads.coins] at hleads' hclean'
    rw [getD_some, revertAll_removes]
    refine ⟨view', clean, ?_, hleads.trans hleads', fun hclean coins hfits heq => ?_⟩
    · grind
    grind [fits_append, applyAll_append, fits_adds, fits_removes, revertAll_applyAll, map_reverse]

theorem txsChanges_reverse_cons (tx : CTransaction) (txundo : Option CTxUndo)
    (vtx : List (CTransaction × Option CTxUndo)) :
    txsChanges hash nHeight ((tx, txundo) :: vtx).reverse =
      txsChanges hash nHeight vtx.reverse ++ txChanges hash nHeight tx txundo := by
  rw [txsChanges, reverse_cons, flatMap_append, flatMap_singleton]
  rfl

/-- The loop of `DisconnectBlock` over transactions in reverse order. -/
theorem disconnectTxs_spec {vtx : List (CTransaction × Option CTxUndo)}
    (hundo : ∀ p ∈ vtx, Undoable p.1 p.2) (hflags : view.WellFlagged) :
    ∃ view' clean, disconnectTxs hash nHeight fEnforceBIP30 vtx view fClean =
      some (view', .ofClean clean) ∧
      view.LeadsTo (revertAll (txsChanges hash nHeight vtx.reverse) view.coins) view' ∧
      (fClean = true → ∀ coins, Fits (txsChanges hash nHeight vtx.reverse) coins →
        view.coins = applyAll (txsChanges hash nHeight vtx.reverse) coins → clean = true) := by
  induction vtx generalizing view fClean with
  | nil => exact ⟨view, fClean, rfl, .refl hflags, fun hclean _ _ _ => hclean⟩
  | cons p vtx ih =>
    obtain ⟨tx, txundo⟩ := p
    obtain ⟨hfirst, hundo⟩ := List.forall_mem_cons.mp hundo
    obtain ⟨view₁, clean₁, htx, hleads, hclean₁⟩ :=
        @disconnectTx_spec view hash nHeight tx fClean fEnforceBIP30 txundo
      hfirst hflags
    obtain ⟨view', clean, htxs, hleads', hclean'⟩ := @ih view₁ clean₁ hundo hleads.wellFlagged
    grind [txsChanges_reverse_cons, revertAll_append, CCoinsViewCache.LeadsTo.coins,
      CCoinsViewCache.LeadsTo.trans,
      DisconnectResult.ofClean, disconnectTxs, fits_append, applyAll_append, revertAll_applyAll]

/-! ## What `ConnectBlock` does to the coins -/

theorem connectInputs_coins {man : ChainstateManager} {pindex : CBlockIndex} {s s' : ConnectState}
    (h : connectInputs man pindex tx s = .ok s') (hcoinbase : tx.isCoinBase = false) :
    SpendInRange s.view.coins tx.vin := by
  unfold connectInputs at h
  rw [if_neg (Bool.eq_false_iff.mp hcoinbase)] at h
  obtain ⟨⟨view, txfee⟩, hinputs, -⟩ := bind_ok.mp h
  exact (checkTxInputs_ok (mapError_ok.mp hinputs)).2.2

def AreCoinsOf (coins : UtxoSet) (vin : List CTxIn) (txundo : CTxUndo) : Prop :=
  txundo.length = vin.length ∧ ∀ undo ∈ txundo, ∃ txin ∈ vin, ∃ coin,
    coins.lookup txin.prevout = some coin ∧ undo = coin.val

/-- `UpdateCoins` spends the coins of the inputs and keeps them as undo data. -/
theorem spendInputs_changes {vin : List CTxIn} (hflags : view.WellFlagged)
    (hnodup : (vin.map CTxIn.prevout).Nodup)
    (hcoins : ∀ txin ∈ vin, ∃ coin, view.coins.lookup txin.prevout = some coin)
    (h : spendInputs view vin = some (view', txundo)) :
    view.LeadsTo (applyAll (removes (spentCoins (vin.zip txundo))) view.coins) view' ∧
      Fits (removes (spentCoins (vin.zip txundo))) view.coins ∧
        AreCoinsOf view.coins vin txundo := by
  induction vin generalizing view txundo with
  | nil =>
    cases h
    exact ⟨.refl hflags, trivial, rfl, fun _ hmem => (by cases hmem)⟩
  | cons txin vin ih =>
    unfold spendInputs at h
    obtain ⟨hleads, hfound⟩ := view.spendCoin_leadsTo hflags txin.prevout
    split at h
    · cases h
    · next view₁ undo hspend =>
      rw [hspend] at hleads hfound
      simp only [bind_eq_bind, bind_eq_some_iff] at h
      obtain ⟨⟨view₂, rest⟩, hrest, h⟩ := h
      cases h
      obtain ⟨hnotin, hnodup⟩ := List.nodup_cons.mp hnodup
      obtain ⟨⟨coin, hcoin⟩, hcoins⟩ := List.forall_mem_cons.mp hcoins
      have hundo : undo = coin.val := val_of_unspent? (hfound.trans hcoin)
      have hother : ∀ txin' ∈ vin, (view.coins.erase txin.prevout).lookup txin'.prevout =
        view.coins.lookup txin'.prevout :=
        fun txin' hmem => lookup_erase_ne fun heq => hnotin (heq ▸ mem_map_of_mem hmem)
      obtain ⟨hleads', hfits, hlen, hundos⟩ := ih hleads.wellFlagged hnodup (fun txin' hmem => by
        grind [CCoinsViewCache.LeadsTo.coins]) hrest
      rw [hleads.coins] at hleads' hfits hundos
      subst hundo
      rw [zip_cons_cons, spentCoins_cons coin.property]
      refine ⟨hleads.trans hleads', ⟨hcoin, hfits⟩, congrArg Nat.succ hlen,
        List.forall_mem_cons.mpr ⟨?_, ?_⟩⟩
      · exact ⟨txin, mem_cons_self, coin, hcoin, rfl⟩
      grind

theorem addCoinsLoop_changes (hflags : view.WellFlagged) (hvalue : ∀ out ∈ vout, out.isNull = false)
    (hnew : Journal.NoOverwrite (adds (newCoins txid nHeight fCoinBase i vout)) view.coins)
    (h : CCoinsViewCache.addCoinsLoop txid nHeight fCoinBase false i vout view = some view') :
    view.LeadsTo (applyAll (adds (newCoins txid nHeight fCoinBase i vout)) view.coins) view' ∧
      Fits (adds (newCoins txid nHeight fCoinBase i vout)) view.coins := by
  induction vout generalizing view i with
  | nil =>
    cases h
    exact ⟨.refl hflags, trivial⟩
  | cons out vout ih =>
    obtain ⟨hout, hvalue⟩ := List.forall_mem_cons.mp hvalue
    simp only [addCoinsLoop, Bool.false_eq_true, if_false, bind_eq_bind, bind_eq_some_iff] at h
    obtain ⟨view₁, hadd, h⟩ := h
    cases hscript : CScript.isUnspendable out.scriptPubKey with
    | true =>
      rw [newCoins, if_pos hscript] at hnew ⊢
      have hspent : (Coin.mk out fCoinBase nHeight).isSpent = false := hout
      rw [addCoin, if_neg (Bool.eq_false_iff.mp hspent), if_pos hscript] at hadd
      grind
    | false =>
      rw [newCoins_cons hscript hout] at hnew ⊢
      obtain ⟨hnone, hnew⟩ := hnew
      obtain ⟨view₂, hadd', hleads⟩ := addCoin_leadsTo hflags
        (⟨⟨out, fCoinBase, nHeight⟩, hout⟩ : UnspentCoin) hscript
          (fun _ : fCoinBase = false => hnone)
      obtain rfl : view₁ = view₂ := Option.some.inj (hadd.symm.trans hadd')
      obtain ⟨hleads', hfits⟩ := ih hleads.wellFlagged hvalue (by rw [hleads.coins]; exact hnew) h
      rw [hleads.coins] at hleads' hfits
      exact ⟨hleads.trans hleads', hnone, hfits⟩

theorem isNull_of_nonneg (h : 0 ≤ out.nValue) : out.isNull = false := by
  grind [CTxOut.isNull]

theorem updateCoins_changes (hflags : view.WellFlagged) (hcheck : checkTransaction tx = .ok ())
    (hcoins : tx.isCoinBase = false → ∀ txin ∈ tx.vin, ∃ coin,
      view.coins.lookup txin.prevout = some coin)
    (h : updateCoins hash tx view nHeight = some (view', txundo))
    (hnew : Journal.NoOverwrite (txChanges hash nHeight tx (some txundo)) view.coins) :
    view.LeadsTo (applyAll (txChanges hash nHeight tx (some txundo)) view.coins) view' ∧
      Fits (txChanges hash nHeight tx (some txundo)) view.coins ∧
      (tx.isCoinBase = false → AreCoinsOf view.coins tx.vin txundo) := by
  obtain ⟨hvalue, hnodup⟩ := checkTransaction_ok hcheck
  have hvout : ∀ out ∈ tx.vout, out.isNull = false :=
    fun out hmem => isNull_of_nonneg (hvalue out hmem)
  obtain ⟨_, hnew⟩ := noOverwrite_append.mp hnew
  have hspent :
      ∃ view₁, view.LeadsTo (applyAll (removes (spentCoins (tx.vin.zip txundo))) view.coins) view₁ ∧
      Fits (removes (spentCoins (tx.vin.zip txundo))) view.coins ∧
      (tx.isCoinBase = false → AreCoinsOf view.coins tx.vin txundo) ∧
        view₁.addCoins hash tx nHeight false = some view' := by
    cases hcoinbase : tx.isCoinBase with
    | true =>
      simp only [updateCoins, hcoinbase, if_true, bind_eq_bind, bind_some, bind_eq_some_iff] at h
      obtain ⟨_, hadd, h⟩ := h
      cases h
      rw [zip_nil_right]
      exact ⟨view, .refl hflags, trivial, fun hfalse => (by cases hfalse), hadd⟩
    | false =>
      simp only [updateCoins, hcoinbase, Bool.false_eq_true, if_false, bind_eq_bind,
        bind_eq_some_iff] at h
      grind [spendInputs_changes]
  obtain ⟨view₁, hleads, hfits, hundo, hadd⟩ := hspent
  obtain ⟨hleads', hfits'⟩ :=
    addCoinsLoop_changes hleads.wellFlagged hvout (by rw [hleads.coins]; exact hnew) hadd
  grind [CCoinsViewCache.LeadsTo.coins, txChanges, applyAll_append, CCoinsViewCache.LeadsTo.trans,
    fits_append]

theorem updateCoins_coinbase (h : updateCoins hash tx view nHeight = some (view', txundo))
    (hcoinbase : tx.isCoinBase = true) : txundo = [] := by
  simp_all [updateCoins, bind_eq_some_iff]

end DisconnectLemmas

open DisconnectLemmas

/-! ## Views of the unspent coins -/

/-- The coins that blocks above genesis create: they have the height of their block, which
is an `int`, and can be spent. -/
def ProperCoins (coins : UtxoSet) : Prop :=
  ∀ outpoint coin, coins.lookup outpoint = some coin →
    0 < coin.val.nHeight ∧ coin.val.nHeight < 2 ^ 31 ∧
    CScript.isUnspendable coin.val.out.scriptPubKey = false

structure UtxoView (view : CCoinsViewCache) : Prop where
  wellFlagged : view.WellFlagged
  coins : ProperCoins view.coins

namespace DisconnectLemmas

variable {hash : Bytes → Uint256} {nHeight i : Nat} {coins : UtxoSet} {tx : CTransaction}

theorem properCoins_removes {entries : List (COutPoint × UnspentCoin)} (h : ProperCoins coins) :
    ProperCoins (applyAll (removes entries) coins) := by
  induction entries generalizing coins with
  | nil => exact h
  | cons e entries ih =>
    refine ih fun outpoint coin hlookup => ?_
    by_cases ho : outpoint = e.1
    · subst ho
      cases (lookup_erase _ _).symm.trans hlookup
    · exact h _ _ ((lookup_erase_ne ho).symm.trans hlookup)

theorem properCoins_adds {txid : Uint256} {fCoinBase : Bool} {vout : List CTxOut}
    (hpos : 0 < nHeight) (hint : nHeight < 2 ^ 31) (h : ProperCoins coins) :
    ProperCoins (applyAll (adds (newCoins txid nHeight fCoinBase i vout)) coins) := by
  induction vout generalizing coins i with
  | nil => exact h
  | cons out vout ih =>
    rw [newCoins]
    cases hscript : CScript.isUnspendable out.scriptPubKey with
    | true => exact ih h
    | false =>
      cases hcoin : Coin.unspent? ⟨out, fCoinBase, nHeight⟩ with
      | none => exact ih h
      | some coin =>
        have hval : Coin.mk out fCoinBase nHeight = coin.val := val_of_unspent? hcoin
        have hproper : ProperCoins (coins.insert (COutPoint.ofIndex txid i) coin) := by
          grind [lookup_insert, lookup_insert_of_ne, ProperCoins]
        exact ih hproper

theorem utxoView_txChanges {txundo : Option CTxUndo} {view view' : CCoinsViewCache}
    (hpos : 0 < nHeight) (hint : nHeight < 2 ^ 31) (hview : UtxoView view)
    (h : view.LeadsTo (applyAll (txChanges hash nHeight tx txundo) view.coins) view') :
    UtxoView view' := by
  refine ⟨h.wellFlagged, ?_⟩
  rw [h.coins, txChanges, applyAll_append]
  exact properCoins_adds hpos hint (properCoins_removes hview.coins)

structure GoodUndo (tx : CTransaction) (txundo : CTxUndo) : Prop where
  length : txundo.length = tx.vin.length
  restorable : ∀ coin ∈ txundo, coin.Restorable
  storable : ∀ coin ∈ txundo, coin.Storable

theorem length_le_of_spendable {script : CScript} (h : CScript.isUnspendable script = false) :
    script.length ≤ maxScriptSize := by
  rw [CScript.isUnspendable, decide_eq_false_iff_not, not_or] at h
  exact Nat.not_lt.mp h.2

theorem AreCoinsOf.goodUndo {txundo : CTxUndo} (h : AreCoinsOf coins tx.vin txundo)
    (hproper : ProperCoins coins) (hrange : SpendInRange coins tx.vin) : GoodUndo tx txundo := by
  obtain ⟨hlen, hundo⟩ := h
  have hall : ∀ undo ∈ txundo, undo.Restorable ∧ undo.Storable := by
    intro undo hmem
    obtain ⟨txin, hin, coin, hlookup, rfl⟩ := hundo undo hmem
    obtain ⟨coin', hlookup', hvalue⟩ := hrange txin hin
    obtain rfl : coin = coin' := Option.some.inj (hlookup.symm.trans hlookup')
    obtain ⟨hpos, hint, hscript⟩ := hproper _ _ hlookup
    exact ⟨⟨coin.property, hscript, hpos⟩, hvalue, length_le_of_spendable hscript, hint⟩
  exact ⟨hlen, fun coin hmem => (hall coin hmem).1, fun coin hmem => (hall coin hmem).2⟩

variable {man : ChainstateManager} {pindex : CBlockIndex} {s s' : ConnectState}

/-- One transaction of `ConnectBlock`. The undo data is kept for all but the first one. -/
theorem connectTx_changes (hcheck : checkTransaction tx = .ok ())
    (h : connectTx man pindex i tx s = .ok s') :
    ∃ txundo, s'.vtxundo = (if i > 0 then s.vtxundo ++ [txundo] else s.vtxundo) ∧
      (tx.isCoinBase = true → txundo = []) ∧
      (UtxoView s.view → Journal.NoOverwrite (txChanges man.hash pindex.nHeight tx (some txundo))
        s.view.coins →
        s.view.LeadsTo (applyAll (txChanges man.hash pindex.nHeight tx (some txundo)) s.view.coins)
          s'.view ∧ Fits (txChanges man.hash pindex.nHeight tx (some txundo)) s.view.coins ∧
        (tx.isCoinBase = false → GoodUndo tx txundo)) := by
  obtain ⟨s₁, hinputs, h⟩ := bind_ok.mp h
  obtain ⟨⟨view₂, cost⟩, hcost, h⟩ := bind_ok.mp h
  obtain ⟨_, _, h⟩ := bind_ok.mp h
  obtain ⟨s₃, hscripts, h⟩ := bind_ok.mp h
  obtain ⟨⟨view₄, txundo⟩, hupdate, h⟩ := bind_ok.mp h
  cases h
  have hundo₁ : s₁.vtxundo = s.vtxundo := by
    unfold connectInputs at hinputs
    split at hinputs
    · cases hinputs
      rfl
    · obtain ⟨_, _, hinputs⟩ := bind_ok.mp hinputs
      obtain ⟨_, _, hinputs⟩ := bind_ok.mp hinputs
      grind [bind_ok]
  have hundo₃ : s₃.vtxundo = s₁.vtxundo := by
    unfold connectScripts at hscripts
    grind [bind_ok]
  refine ⟨txundo, by rw [hundo₃, hundo₁], updateCoins_coinbase (orAbort_ok.mp hupdate),
    fun hview hnew => ?_⟩
  have hsame₂ := getTransactionSigOpCost_some (orAbort_ok.mp hcost)
  have hsame := ((connectInputs_ok hinputs).1.trans hsame₂).trans (connectScripts_ok hscripts).1
  have hleads := hsame.leadsTo hview.wellFlagged
  have hcoins : tx.isCoinBase = false → ∀ txin ∈ tx.vin, ∃ coin,
      s₃.view.coins.lookup txin.prevout = some coin := by
    intro hcoinbase txin hin
    obtain ⟨coin, hcoin, -⟩ := connectInputs_coins hinputs hcoinbase txin hin
    exact ⟨coin, hsame.coins ▸ hcoin⟩
  obtain ⟨hleads', hfits, hundo⟩ :=
      updateCoins_changes hleads.wellFlagged hcheck hcoins (orAbort_ok.mp hupdate)
    (by rw [hsame.coins]; exact hnew)
  rw [hsame.coins] at hleads' hfits hundo
  exact ⟨hleads.trans hleads', hfits, fun hcoinbase =>
    (hundo hcoinbase).goodUndo hview.coins (connectInputs_coins hinputs hcoinbase)⟩

theorem connectTxs_changes {vtx : List CTransaction} (hi : 0 < i) (hpos : 0 < pindex.nHeight)
    (hint : pindex.nHeight < 2 ^ 31) (hcheck : ∀ tx ∈ vtx, checkTransaction tx = .ok ())
    (hcoinbase : ∀ tx ∈ vtx, tx.isCoinBase = false) (h : connectTxs man pindex i vtx s = .ok s') :
    ∃ vtxundo : CBlockUndo, s'.vtxundo = s.vtxundo ++ vtxundo ∧ vtxundo.length = vtx.length ∧
      (UtxoView s.view →
        Journal.NoOverwrite (txsChanges man.hash pindex.nHeight (vtx.zip (vtxundo.map some)))
          s.view.coins →
        s.view.LeadsTo (applyAll (txsChanges man.hash pindex.nHeight (vtx.zip (vtxundo.map some)))
          s.view.coins) s'.view ∧
        Fits (txsChanges man.hash pindex.nHeight (vtx.zip (vtxundo.map some))) s.view.coins ∧
        ProperCoins s'.view.coins ∧ ∀ p ∈ vtx.zip vtxundo, GoodUndo p.1 p.2) := by
  induction vtx generalizing i s with
  | nil =>
    cases h
    exact ⟨[], (append_nil _).symm, rfl, fun hview _ =>
      ⟨.refl hview.wellFlagged, trivial, hview.coins, fun _ hmem => (by cases hmem)⟩⟩
  | cons tx vtx ih =>
    obtain ⟨s₁, htx, h⟩ := bind_ok.mp h
    obtain ⟨hcheck₁, hcheck⟩ := List.forall_mem_cons.mp hcheck
    obtain ⟨hcoinbase₁, hcoinbase⟩ := List.forall_mem_cons.mp hcoinbase
    obtain ⟨txundo, hundo₁, _, hchanges₁⟩ := connectTx_changes hcheck₁ htx
    obtain ⟨vtxundo, hundo, hlen, hchanges⟩ := ih (Nat.succ_pos i) hcheck hcoinbase h
    rw [if_pos hi] at hundo₁
    refine ⟨txundo :: vtxundo, by rw [hundo, hundo₁, append_assoc]; rfl, congrArg Nat.succ hlen,
      fun hview hnew => ?_⟩
    rw [map_cons, zip_cons_cons, txsChanges, flatMap_cons] at hnew ⊢
    obtain ⟨hnew₁, hnew⟩ := noOverwrite_append.mp hnew
    obtain ⟨hleads₁, hfits₁, hgood₁⟩ := hchanges₁ hview hnew₁
    rw [← hleads₁.coins] at hnew
    obtain ⟨hleads, hfits, hproper, hgood⟩ :=
      hchanges (utxoView_txChanges hpos hint hview hleads₁) hnew
    rw [hleads₁.coins] at hleads hfits
    rw [applyAll_append]
    exact ⟨hleads₁.trans hleads, fits_append.mpr ⟨hfits₁, hfits⟩, hproper,
      List.forall_mem_cons.mpr ⟨hgood₁ hcoinbase₁, hgood⟩⟩

/-! ## Sizes -/

theorem length_le_serializeVector {α : Type} {serialize : α → Bytes}
    (h : ∀ a, 0 < (serialize a).length) (v : List α) :
    v.length ≤ (serializeVector serialize v).length := by
  have hflat : v.length ≤ (v.flatMap serialize).length := by
    induction v with
    | nil => exact Nat.le_refl 0
    | cons a v ih =>
      grind
  rw [serializeVector, length_append]
  exact Nat.le_add_left_of_le hflat

theorem length_vin_le (tx : CTransaction) : tx.vin.length ≤ (tx.serialize false).length := by
  have hvin : tx.vin.length ≤ (serializeVector CTxIn.serialize tx.vin).length := by
    simp [length_le_serializeVector, CTxIn.serialize, COutPoint.serialize, BaseBlob.length_data]
  simp only [CTransaction.serialize, length_append]
  omega

theorem checkTransaction_length (h : checkTransaction tx = .ok ()) : tx.vin.length ≤ maxSize := by
  grind [checkTransaction, length_vin_le, maxSize, witnessScaleFactor, maxBlockWeight]

theorem checkBlock_length {block : CBlock} {fCheckPOW fCheckMerkleRoot : Bool}
    (hfresh : block.fChecked = false)
    (h : checkBlock man block fCheckPOW fCheckMerkleRoot = .ok ()) :
    block.vtx.length ≤ maxSize := by
  unfold checkBlock at h
  grind [bind_ok, invalidIf_ok, witnessScaleFactor, maxBlockWeight, maxSize]

end DisconnectLemmas

/-- What connecting a block to `coins` leaves: changed coins, and undo data that tells the
changes and that can be stored and used. -/
structure BlockChanged (hash : Bytes → Uint256) (nHeight : Nat) (vtx : List CTransaction)
    (vtxundo : CBlockUndo) (coins coins' : UtxoSet) : Prop where
  fits : Fits (blockChanges hash nHeight vtx vtxundo) coins
  coins_eq : coins' = applyAll (blockChanges hash nHeight vtx vtxundo) coins
  length : vtxundo.length + 1 = vtx.length
  undoable : ∀ p ∈ withUndo vtx vtxundo, Undoable p.1 p.2
  length_le : vtxundo.length ≤ maxSize
  storable : ∀ txundo ∈ vtxundo, txundo.length ≤ maxSize ∧ ∀ coin ∈ txundo, coin.Storable

namespace DisconnectLemmas

theorem recheckBlock_checked {man : ChainstateManager} {block : CBlock} {fJustCheck : Bool}
    (hchecked : block.fChecked = true → checkBlock man
      { block with fChecked := false } true true = .ok ())
    (h : recheckBlock man block fJustCheck = .ok ()) :
    CheckedBlock block ∧ block.vtx.length ≤ maxSize := by
  cases hfresh : block.fChecked with
  | false => exact ⟨checkBlock_ok hfresh (recheckBlock_ok h),
      checkBlock_length hfresh (recheckBlock_ok h)⟩
  | true =>
    obtain ⟨htxs, hcoinbase⟩ : CheckedBlock { block with fChecked := false } :=
      checkBlock_ok rfl (hchecked hfresh)
    have hlen : ({ block with fChecked := false } : CBlock).vtx.length ≤ maxSize :=
      checkBlock_length rfl (hchecked hfresh)
    exact ⟨⟨htxs, hcoinbase⟩, hlen⟩

theorem checkBIP30_sameCoins {man : ChainstateManager} {block : CBlock} {pindex pprev : CBlockIndex}
    {view view' : CCoinsViewCache} (h : checkBIP30 man block pindex pprev view = .ok view') :
    view.SameCoins view' := by
  unfold checkBIP30 at h
  split at h
  · exact (checkOverwrite_ok h).1
  · cases h
    exact .refl _

/-- All transactions of a block. The first one is the coinbase, which has no undo data. -/
theorem connectTxs_blockChanged {man : ChainstateManager} {pindex : CBlockIndex} {block : CBlock}
    {view : CCoinsViewCache} {s : ConnectState} (hview : UtxoView view)
    (hblock : CheckedBlock block) (hsize : block.vtx.length ≤ maxSize) (hpos : 0 < pindex.nHeight)
    (hint : pindex.nHeight < 2 ^ 31)
    (h : connectTxs man pindex 0 block.vtx ⟨view, 0, 0, [], true⟩ = .ok s)
    (hnew : Journal.NoOverwrite (blockChanges man.hash pindex.nHeight block.vtx s.vtxundo)
    view.coins) : view.LeadsTo s.view.coins s.view ∧ ProperCoins s.view.coins ∧
      BlockChanged man.hash pindex.nHeight block.vtx s.vtxundo view.coins s.view.coins := by
  obtain ⟨htxs, coinbase, vtx, hvtx, hcoinbase, hrest⟩ := hblock
  rw [hvtx] at h hnew htxs hsize ⊢
  obtain ⟨hcheck₁, hcheck⟩ := List.forall_mem_cons.mp htxs
  obtain ⟨s₁, htx, h⟩ := bind_ok.mp h
  obtain ⟨txundo, hundo₁, hnil, hchanges₁⟩ := connectTx_changes hcheck₁ htx
  obtain ⟨vtxundo, hundo, hlen, hchanges⟩ :=
    connectTxs_changes (Nat.succ_pos 0) hpos hint hcheck hrest h
  have hundo : s.vtxundo = vtxundo := by rw [hundo, hundo₁]; rfl
  rw [hundo] at hnew ⊢
  cases hnil hcoinbase
  have hsplit : blockChanges man.hash pindex.nHeight (coinbase :: vtx) vtxundo =
      txChanges man.hash pindex.nHeight coinbase (some []) ++
        txsChanges man.hash pindex.nHeight (vtx.zip (vtxundo.map some)) := rfl
  rw [hsplit] at hnew
  obtain ⟨hnew₁, hnew⟩ := noOverwrite_append.mp hnew
  obtain ⟨hleads₁, hfits₁, _⟩ := hchanges₁ hview hnew₁
  rw [← hleads₁.coins] at hnew
  obtain ⟨hleads, hfits, hproper, hgood⟩ :=
    hchanges (utxoView_txChanges hpos hint hview hleads₁) hnew
  have hleads' := hleads₁.trans hleads
  rw [hleads₁.coins] at hfits hleads'
  have hvout : ∀ tx ∈ coinbase :: vtx, ∀ out ∈ tx.vout, out.isNull = false := fun tx htx out hout =>
    isNull_of_nonneg ((checkTransaction_ok (htxs tx htx)).1 out hout)
  refine ⟨⟨rfl, hleads'.base, hleads'.wellFlagged⟩, hproper,
    ⟨?_, ?_, congrArg Nat.succ hlen, ?_, ?_, ?_⟩⟩
  · grind [fits_append]
  · rw [hsplit, applyAll_append, hleads'.coins]
  · refine List.forall_mem_cons.mpr ⟨⟨hvout coinbase mem_cons_self, fun _ h =>
      (by cases h), hcoinbase⟩, fun p hp => ?_⟩
    have hp : p ∈ vtx.zip (vtxundo.map some) := hp
    rw [zip_map_right] at hp
    obtain ⟨⟨tx, txundo⟩, hmem, rfl⟩ := List.mem_map.mp hp
    have hundo := hgood _ hmem
    have htx := (of_mem_zip hmem).1
    refine ⟨hvout tx (mem_cons_of_mem _ htx), fun vprevout hsome => ?_, hrest tx htx⟩
    cases hsome
    exact ⟨hundo.length, hundo.restorable⟩
  · grind
  · intro txundo hmem
    rw [← map_snd_zip (Nat.le_of_eq hlen)] at hmem
    obtain ⟨⟨tx, txundo⟩, hzip, rfl⟩ := List.mem_map.mp hmem
    have hundo := hgood _ hzip
    refine ⟨?_, hundo.storable⟩
    rw [hundo.length]
    exact checkTransaction_length (hcheck tx (of_mem_zip hzip).1)

end DisconnectLemmas

variable {vtxundo : CBlockUndo}

/-- What `ConnectBlock` of a block other than genesis leaves, if it overwrites nothing. -/
theorem connectBlock_blockChanged {man : ChainstateManager} {block : CBlock} {pindex : CBlockIndex}
    {view view' : CCoinsViewCache} (hview : UtxoView view) (hint : pindex.nHeight < 2 ^ 31)
    (hchecked : block.fChecked = true → checkBlock man { block with fChecked := false } true true =
    .ok ()) (hgenesis : block.getHash man.hashX16RV2 ≠ man.params.consensus.hashGenesisBlock)
    (hconnect : connectBlock man block pindex view false = .ok (view', vtxundo))
    (hnew : Journal.NoOverwrite (blockChanges man.hash pindex.nHeight block.vtx vtxundo)
      view.coins) :
    ∃ pprev, pindex.pprev = some pprev ∧ view.getBestBlock = pprev.getBlockHash man.hashX16RV2 ∧
      view.LeadsTo view'.coins view' ∧ ProperCoins view'.coins ∧
      BlockChanged man.hash pindex.nHeight block.vtx vtxundo view.coins view'.coins := by
  obtain ⟨_, _, h⟩ := bind_ok.mp hconnect
  obtain ⟨_, hrecheck, h⟩ := bind_ok.mp h
  obtain ⟨_, hbest, h⟩ := bind_ok.mp h
  rw [if_neg hgenesis] at h
  obtain ⟨pprev, hpprev, h⟩ := bind_ok.mp h
  obtain ⟨view₁, hbip30, h⟩ := bind_ok.mp h
  obtain ⟨s, hloop, h⟩ := bind_ok.mp h
  obtain ⟨_, _, h⟩ := bind_ok.mp h
  obtain ⟨_, _, h⟩ := bind_ok.mp h
  obtain ⟨_, _, h⟩ := bind_ok.mp h
  obtain ⟨_, _, h⟩ := bind_ok.mp h
  rw [if_neg Bool.false_ne_true] at h
  have hpprev := orAbort_ok.mp hpprev
  obtain ⟨hblock, hsize⟩ := recheckBlock_checked hchecked hrecheck
  have hsame := checkBIP30_sameCoins hbip30
  have hleads := hsame.leadsTo hview.wellFlagged
  have hview₁ : UtxoView view₁ := ⟨hleads.wellFlagged, by rw [hsame.coins]; exact hview.coins⟩
  have hpos : 0 < pindex.nHeight := by
    rw [AncestorLemmas.nHeight_of_pprev hpprev]
    exact Nat.succ_pos _
  split at h
  · cases h
  · cases h
    obtain ⟨hleads', hproper, hchanged⟩ :=
        connectTxs_blockChanged hview₁ hblock hsize hpos hint hloop
      (by rw [hsame.coins]; exact hnew)
    have htotal := hleads.trans hleads'
    rw [hsame.coins] at hchanged
    refine ⟨pprev, hpprev, ?_, ⟨rfl, htotal.base, htotal.wellFlagged.fresh,
      htotal.wellFlagged.clean⟩, hproper, hchanged⟩
    grind [assertThat]

/-- `DisconnectBlock` with good undo data reverts the changes of the block, whatever the
view has, and is clean if the view is one after these changes. -/
theorem disconnectBlock_spec {man : ChainstateManager} {block : CBlock} {pindex pprev : CBlockIndex}
    {coins coins' : UtxoSet} {view : CCoinsViewCache} (hpprev : pindex.pprev = some pprev)
    (hchanged : BlockChanged man.hash pindex.nHeight block.vtx vtxundo coins coins')
    (hflags : view.WellFlagged) : ∃ view' clean, disconnectBlock man block pindex
        (undoWriteToDisk man.hash (pprev.getBlockHash man.hashX16RV2) vtxundo) view =
          some (view', .ofClean clean) ∧
      view.LeadsTo (revertAll (blockChanges man.hash pindex.nHeight block.vtx vtxundo) view.coins)
        view' ∧
      view'.hashBlock = pprev.getBlockHash man.hashX16RV2 ∧
        (view.coins = coins' → clean = true) := by
  have hundo : ∀ p ∈ (withUndo block.vtx vtxundo).reverse, Undoable p.1 p.2 := fun p hp =>
    hchanged.undoable p (List.mem_reverse.mp hp)
  obtain ⟨view₁, clean, htxs, hleads, hclean⟩ :=
      @disconnectTxs_spec view man.hash pindex.nHeight true
    (!isBIP30Unspendable pindex (pindex.getBlockHash man.hashX16RV2)) _ hundo hflags
  rw [reverse_reverse] at hleads hclean
  refine ⟨view₁.setBestBlock (pprev.getBlockHash man.hashX16RV2), clean, ?_,
    ⟨hleads.coins, hleads.base, hleads.wellFlagged.fresh, hleads.wellFlagged.clean⟩, rfl,
    fun heq => ?_⟩
  · have hresult : DisconnectResult.ofClean clean ≠ .failed := by
      grind [DisconnectResult.ofClean]
    rw [disconnectBlock, hpprev]
    simp only [bind_eq_bind, bind_some, undoReadFromDisk_write hchanged.length_le hchanged.storable,
      if_neg (not_not.mpr hchanged.length), htxs, if_neg hresult]
  · exact hclean rfl coins hchanged.fits (heq.trans hchanged.coins_eq)

/-- Disconnecting undoes connecting: a block that was connected and that overwrote nothing
is disconnected cleanly with the undo data read back from disk, and that leaves the coins
and the best block of before. -/
theorem disconnectBlock_connectBlock (man : ChainstateManager) (block : CBlock)
    (pindex : CBlockIndex)
    (view view' : CCoinsViewCache) (vtxundo : CBlockUndo) (hview : UtxoView view)
    (hint : pindex.nHeight < 2 ^ 31)
    (hchecked : block.fChecked = true → checkBlock man { block with fChecked := false } true true =
    .ok ()) (hgenesis : block.getHash man.hashX16RV2 ≠ man.params.consensus.hashGenesisBlock)
    (hconnect : connectBlock man block pindex view false = .ok (view', vtxundo))
    (hnew : Journal.NoOverwrite (blockChanges man.hash pindex.nHeight block.vtx vtxundo)
    view.coins) : ∃ pprev view'', pindex.pprev = some pprev ∧
      disconnectBlock man block pindex (undoWriteToDisk man.hash
        (pprev.getBlockHash man.hashX16RV2) vtxundo) view' = some (view'', .ok) ∧
      view''.coins = view.coins ∧ view''.getBestBlock = pprev.getBlockHash man.hashX16RV2 := by
  obtain ⟨pprev, hpprev, hbest, hleads, _, hchanged⟩ :=
    connectBlock_blockChanged hview hint hchecked hgenesis hconnect hnew
  obtain ⟨view'', clean, hdisconnect, hleads', hhash, hclean⟩ :=
    disconnectBlock_spec hpprev hchanged hleads.wellFlagged
  refine ⟨pprev, view'', hpprev, ?_, ?_, ?_⟩
  · aesop
  · rw [hleads'.coins, hchanged.coins_eq, revertAll_applyAll hchanged.fits]
  · -- a null hash in the cache stands for the best block of the base
    rw [getBestBlock, hhash]
    split
    next hnull =>
      rw [hnull, getBestBlock] at hbest
      rw [hleads'.base.bestBlock, hleads.base.bestBlock, hnull]
      grind
    next => rfl

/-! ## A block that spends its own output -/

def chainedUndo : CBlockUndo := [[oldCoin], [⟨⟨5, [0x51]⟩, false, 1⟩]]

theorem oldView_utxoView : UtxoView oldView := by
  refine ⟨⟨fun h => (by cases h), fun h => (by cases h)⟩, fun outpoint coin hlookup => ?_⟩
  have hlookup : ((∅ : UtxoSet).insert oldOutPoint ⟨oldCoin, rfl⟩).lookup outpoint = some coin := by
    rwa [coins, lookup_coinsOver] at hlookup
  by_cases ho : outpoint = oldOutPoint
  · subst ho
    cases (lookup_insert _).symm.trans hlookup
    decide
  simp_all

theorem disconnectBlock_connectBlock_chained :
    ∃ view' view'', connectBlock foldManager chainedBlock chainedIndex oldView false =
      .ok (view', chainedUndo) ∧
      disconnectBlock foldManager chainedBlock chainedIndex
        (undoWriteToDisk foldHash nullUint256 chainedUndo) view' = some (view'', .ok) ∧
      view''.coins = oldView.coins ∧ view''.getBestBlock = nullUint256 := by
  have hok :
      (connectBlock foldManager chainedBlock chainedIndex oldView false).toOption.map Prod.snd =
      some chainedUndo := by
    decide +kernel
  obtain ⟨⟨view', vtxundo⟩, hresult, hundo⟩ := Option.map_eq_some_iff.mp hok
  subst hundo
  have hconnect := toOption_eq_some.mp hresult
  obtain ⟨pprev, view'', hpprev, hdisconnect, hcoins, hbest⟩ :=
      disconnectBlock_connectBlock foldManager chainedBlock
    chainedIndex oldView view' chainedUndo oldView_utxoView (by decide) (fun h => (by cases h))
      (by decide +kernel)
    hconnect (by decide +kernel)
  cases hpprev
  exact ⟨view', view'', hconnect, hdisconnect, hcoins, hbest⟩

end Bitcoboost
