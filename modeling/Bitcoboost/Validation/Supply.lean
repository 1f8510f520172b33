import Bitcoboost.Validation.ConnectBlock

/-!
# No inflation

A connected block adds at most its subsidy to the total value of the unspent coins: a
transaction other than the coinbase takes its fee out of the total, and what the coinbase adds
is bounded by the fees and the subsidy.
-/

namespace Bitcoboost

open ExceptBind FiniteMap CoinsLemmas TxVerifyLemmas ConnectBlockLemmas List Option Finmap Bool

def IsOutputOf (hash : Bytes → Uint256) (vtx : List CTransaction) (outpoint : COutPoint) : Prop :=
  ∃ tx ∈ vtx, ∃ i < tx.vout.length, outpoint = COutPoint.ofIndex (tx.getHash hash) i

/-- Nothing that the transactions create is there already. -/
def NoOverwrite (hash : Bytes → Uint256) (coins : UtxoSet) (vtx : List CTransaction) : Prop :=
  ∀ {outpoint}, IsOutputOf hash vtx outpoint → coins.lookup outpoint = none

/-- What the loop of `ConnectBlock` keeps for the outpoints `created` that the block
creates: the cache knows of their coins, and these have no negative value. -/
structure Prepared (created : COutPoint → Prop) (view : CCoinsViewCache) : Prop where
  wellFlagged : view.WellFlagged
  settled : ∀ {outpoint}, created outpoint → view.Settled outpoint
  nonneg : ∀ {outpoint coin}, created outpoint → view.coins.lookup outpoint = some coin →
    0 ≤ coin.val.out.nValue

variable {view view' : CCoinsViewCache} {man : ChainstateManager} {pindex : CBlockIndex}

theorem Prepared.sameCoins {created : COutPoint → Prop} (h : Prepared created view)
    (hsame : view.SameCoins view') : Prepared created view' where
  wellFlagged := hsame.wellFlagged h.wellFlagged
  settled hc := hsame.settled (h.settled hc)
  nonneg hc hl := h.nonneg hc (hsame.coins ▸ hl)

namespace SupplyLemmas

theorem exists_ok {ε α β : Type} {x : Except ε (α × β)} (h : x.toBool = true) :
    ∃ a b, x = .ok (a, b) := by
  cases x with
  | error e => cases h
  | ok r => exact ⟨r.1, r.2, rfl⟩

/-! ### Spending and creating -/

variable {created : COutPoint → Prop} {hash : Bytes → Uint256}

theorem totalValue_erase (coins : UtxoSet) (outpoint : COutPoint) :
    UtxoSet.totalValue (coins.erase outpoint) =
      UtxoSet.totalValue coins - coinValue (coins.lookup outpoint) :=
  total_erase _ _ _

variable {outpoint : COutPoint} {view view' : CCoinsViewCache} {vtx : List CTransaction}
  {vin : List CTxIn} {coins : UtxoSet}

theorem totalValue_insert_le {coin : UnspentCoin}
    (h : ∀ {old}, coins.lookup outpoint = some old → 0 ≤ old.val.out.nValue) :
    UtxoSet.totalValue (coins.insert outpoint coin) ≤
      UtxoSet.totalValue coins + coin.val.out.nValue := by
  have hins : UtxoSet.totalValue (coins.insert outpoint coin) =
      UtxoSet.totalValue coins - coinValue (coins.lookup outpoint) + coin.val.out.nValue :=
      total_insert _ _ _ _
  have hold : 0 ≤ coinValue (coins.lookup outpoint) := by
    cases hl : coins.lookup outpoint with
    | none => exact le_refl _
    | some old => exact h hl
  rw [hins]
  exact Int.add_le_add_right (Int.sub_le_self _ hold) _

theorem spentValue_erase (h : outpoint ∉ vin.map CTxIn.prevout) :
    spentValue (coins.erase outpoint) vin = spentValue coins vin := by
  unfold spentValue
  congr 1
  refine map_congr_left fun txin hmem => ?_
  have hne : txin.prevout ≠ outpoint := fun heq => h (heq ▸ mem_map_of_mem hmem)
  rw [lookup_erase_ne hne]

section

variable (hview : Prepared created view) {txundo : List Coin}
include hview

theorem spendInputs_spec (hnodup : (vin.map CTxIn.prevout).Nodup)
    (h : spendInputs view vin = some (view', txundo)) :
    Prepared created view' ∧ view'.coins.totalValue =
      view.coins.totalValue - spentValue view.coins vin := by
  induction vin generalizing view txundo with
  | nil =>
    cases h
    exact ⟨hview, by simp [spentValue]⟩
  | cons txin vin ih =>
    unfold spendInputs at h
    split at h
    · cases h
    · next view₁ coin hspend =>
      simp only [bind_eq_bind, bind_eq_some_iff] at h
      obtain ⟨⟨view₂, rest⟩, hrest, h⟩ := h
      cases h
      obtain ⟨hcoins, -, hflags, hsettled⟩ :=
        CCoinsViewCache.spendCoin_spec hview.wellFlagged hspend
      obtain ⟨hnotin, hnodup⟩ := List.nodup_cons.mp hnodup
      have hview₁ : Prepared created view₁ := by
        refine ⟨hflags, fun hc => hsettled (hview.settled hc), fun {o c} hc hl => ?_⟩
        rw [hcoins] at hl
        by_cases ho : o = txin.prevout
        · rw [ho, lookup_erase] at hl
          cases hl
        · exact hview.nonneg hc ((lookup_erase_ne ho).symm.trans hl)
      obtain ⟨hview', htotal⟩ := ih hview₁ hnodup hrest
      refine ⟨hview', ?_⟩
      rw [htotal, hcoins, totalValue_erase, spentValue_erase hnotin, spentValue,
        spentValue, map_cons, sum_cons]
      exact Int.sub_sub _ _ _

theorem addCoin_spec {coin : Coin} {overwrite : Bool}
    (hc : created outpoint) (hvalue : 0 ≤ coin.out.nValue)
    (h : view.addCoin outpoint coin overwrite = some view') :
    Prepared created view' ∧ view'.coins.totalValue ≤ view.coins.totalValue + coin.out.nValue := by
  obtain ⟨⟨hunspent, hcoins⟩, hflags, hsettled⟩ :=
    CCoinsViewCache.addCoin_spec hview.wellFlagged (fun _ => hview.settled hc) h
  split at hcoins
  · rw [hcoins]
    refine ⟨⟨hflags, fun hc => hsettled (hview.settled hc), fun hc hl =>
      hview.nonneg hc (hcoins ▸ hl)⟩, ?_⟩
    exact Int.le_add_of_nonneg_right hvalue
  · refine ⟨⟨hflags, fun hc => hsettled (hview.settled hc), fun {o c} hc' hl => ?_⟩, ?_⟩
    · rw [hcoins] at hl
      by_cases ho : o = outpoint
      · subst ho
        cases (lookup_insert _).symm.trans hl
        exact hvalue
      · exact hview.nonneg hc' ((lookup_insert_of_ne _ ho).symm.trans hl)
    · rw [hcoins]
      exact totalValue_insert_le fun hl => hview.nonneg hc hl

theorem addCoinsLoop_spec {txid : Uint256} {nHeight i : Nat} {fCoinbase : Bool} {vout : List CTxOut}
    (hc : ∀ j < vout.length, created (COutPoint.ofIndex txid (i + j)))
    (hvalue : ∀ txout ∈ vout, 0 ≤ txout.nValue)
    (h : CCoinsViewCache.addCoinsLoop txid nHeight fCoinbase false i vout view = some view') :
    Prepared created view' ∧ view'.coins.totalValue ≤ view.coins.totalValue + outputValue vout := by
  induction vout generalizing view i with
  | nil =>
    cases h
    exact ⟨hview, by simp [outputValue]⟩
  | cons txout vout ih =>
    simp only [CCoinsViewCache.addCoinsLoop, false_eq_true, if_false, bind_eq_bind,
      bind_eq_some_iff] at h
    obtain ⟨view₁, hadd, h⟩ := h
    obtain ⟨hvalue₁, hvalue⟩ := List.forall_mem_cons.mp hvalue
    obtain ⟨hview₁, htotal₁⟩ := addCoin_spec hview (hc 0 (Nat.zero_lt_succ _)) hvalue₁ hadd
    have hc' : ∀ j < vout.length, created (COutPoint.ofIndex txid (i + 1 + j)) := by
      intro j hj
      rw [Nat.add_assoc, Nat.add_comm 1]
      exact hc (j + 1) (Nat.succ_lt_succ hj)
    obtain ⟨hview', htotal⟩ := ih hview₁ hc' hvalue h
    refine ⟨hview', htotal.trans ?_⟩
    rw [outputValue, outputValue, map_cons, sum_cons, ← Int.add_assoc]
    exact Int.add_le_add_right htotal₁ _

/-- `UpdateCoins` takes the value of the inputs away, unless it is a coinbase, and
adds at most that of the outputs. -/
theorem updateCoins_spec {tx : CTransaction} {nHeight : Nat} (hcheck : checkTransaction tx = .ok ())
    (hc : ∀ i < tx.vout.length, created (COutPoint.ofIndex (tx.getHash hash) i))
    (h : updateCoins hash tx view nHeight = some (view', txundo)) :
    Prepared created view' ∧ view'.coins.totalValue ≤ view.coins.totalValue + outputValue tx.vout
      - if tx.isCoinBase then 0 else spentValue view.coins tx.vin := by
  obtain ⟨hvalue, hnodup⟩ := checkTransaction_ok hcheck
  have hsplit : ∃ view₁, Prepared created view₁ ∧ (view₁.coins.totalValue =
      view.coins.totalValue - if tx.isCoinBase then 0 else spentValue view.coins tx.vin) ∧
      view₁.addCoins hash tx nHeight false = some view' := by
    cases hcb : tx.isCoinBase with
    | true =>
      simp only [updateCoins, hcb, if_true, bind_eq_bind, bind_some, bind_eq_some_iff] at h
      obtain ⟨_, hadd, h⟩ := h
      cases h
      exact ⟨view, hview, (Int.sub_zero _).symm, hadd⟩
    | false =>
      simp only [updateCoins, hcb, false_eq_true, if_false, bind_eq_bind, bind_eq_some_iff] at h
      obtain ⟨⟨view₁, _⟩, hspend, _, hadd, h⟩ := h
      cases h
      obtain ⟨hview₁, htotal⟩ := spendInputs_spec hview hnodup hspend
      exact ⟨view₁, hview₁, htotal, hadd⟩
  obtain ⟨view₁, hview₁, hspent, hadd⟩ := hsplit
  obtain ⟨hview', htotal⟩ :=
    addCoinsLoop_spec hview₁ (fun j hj => by rw [Nat.zero_add]; exact hc j hj) hvalue hadd
  refine ⟨hview', htotal.trans ?_⟩
  rw [hspent, sub_add_eq_add_sub]

end

/-! ### Reads of the loop body -/

variable {man : ChainstateManager} {pindex : CBlockIndex} {tx : CTransaction} {s s' : ConnectState}

theorem prevHeights_sameCoins (view : CCoinsViewCache) (vin : List CTxIn) :
    view.SameCoins (prevHeights view vin).1 := by
  induction vin generalizing view with
  | nil => exact .refl view
  | cons txin vin ih => exact (view.accessCoin_spec txin.prevout).1.trans (ih _)

theorem connectInputs_ok (h : connectInputs man pindex tx s = .ok s') :
    s.view.SameCoins s'.view ∧ s'.nFees =
      s.nFees + if tx.isCoinBase then 0 else spentValue s.view.coins tx.vin -
        outputValue tx.vout := by
  unfold connectInputs at h
  split at h
  · next hcb =>
    cases h
    exact ⟨.refl _, by rw [if_pos hcb, Int.add_zero]⟩
  · next hcb =>
    obtain ⟨⟨view, txfee⟩, hinputs, h⟩ := bind_ok.mp h
    obtain ⟨_, _, h⟩ := bind_ok.mp h
    obtain ⟨_, _, h⟩ := bind_ok.mp h
    obtain ⟨_, _, h⟩ := bind_ok.mp h
    cases h
    obtain ⟨hsame, hfee, -⟩ := checkTxInputs_ok (mapError_ok.mp hinputs)
    exact ⟨hsame.trans (prevHeights_sameCoins view tx.vin), by rw [if_neg hcb, hfee]⟩

theorem checkInputScripts_ok {flags : ScriptFlags} {pass : Bool}
    (h : checkInputScripts man tx view flags = .ok (view', pass)) : view.SameCoins view' := by
  unfold checkInputScripts at h
  split at h
  · cases h
    exact .refl _
  · split at h
    · cases h
      exact .refl _
    · split at h
      · cases h
      · next view₁ coins hcoins =>
        have hsame := accessCoins_some hcoins
        dsimp only at h
        split at h
        · cases h
          exact hsame
        · split at h
          · cases h
          · cases h
            exact hsame

theorem connectScripts_ok (h : connectScripts man pindex tx s = .ok s') :
    s.view.SameCoins s'.view ∧ s'.nFees = s.nFees := by
  unfold connectScripts at h
  split at h
  · obtain ⟨⟨view, pass⟩, hscripts, h⟩ := bind_ok.mp h
    cases h
    exact ⟨checkInputScripts_ok (mapError_ok.mp hscripts), rfl⟩
  · cases h
    exact ⟨.refl _, rfl⟩

/-- One transaction moves value from the coins to the fees. Only a coinbase adds
to the two together, at most its outputs. -/
theorem connectTx_ok {i : Nat} (hview : Prepared created s.view)
    (hcheck : checkTransaction tx = .ok ())
    (hc : ∀ i < tx.vout.length, created (COutPoint.ofIndex (tx.getHash man.hash) i))
    (h : connectTx man pindex i tx s = .ok s') :
    Prepared created s'.view ∧ s'.view.coins.totalValue + s'.nFees ≤
      s.view.coins.totalValue + s.nFees + if tx.isCoinBase then outputValue tx.vout else 0 := by
  obtain ⟨s₁, hinputs, h⟩ := bind_ok.mp h
  obtain ⟨⟨view₂, cost⟩, hcost, h⟩ := bind_ok.mp h
  obtain ⟨_, _, h⟩ := bind_ok.mp h
  obtain ⟨s₃, hscripts, h⟩ := bind_ok.mp h
  obtain ⟨⟨view₄, txundo⟩, hupdate, h⟩ := bind_ok.mp h
  cases h
  obtain ⟨hsame₁, hfees₁⟩ := connectInputs_ok hinputs
  have hsame₂ := getTransactionSigOpCost_some (orAbort_ok.mp hcost)
  obtain ⟨hsame₃, hfees₃⟩ := connectScripts_ok hscripts
  have hsame := (hsame₁.trans hsame₂).trans hsame₃
  obtain ⟨hview', htotal⟩ :=
    updateCoins_spec (hview.sameCoins hsame) hcheck hc (orAbort_ok.mp hupdate)
  refine ⟨hview', ?_⟩
  rw [hsame.coins] at htotal
  rw [hfees₃, hfees₁]
  cases hcb : tx.isCoinBase with
  | true =>
    simp only [hcb, if_true] at htotal ⊢
    linarith
  | false =>
    simp only [hcb, false_eq_true, if_false] at htotal ⊢
    linarith

theorem connectTxs_ok {i : Nat} (hview : Prepared created s.view)
    (hcheck : ∀ tx ∈ vtx, checkTransaction tx = .ok ())
    (hc : ∀ {outpoint}, IsOutputOf man.hash vtx outpoint → created outpoint)
    (h : connectTxs man pindex i vtx s = .ok s') :
    Prepared created s'.view ∧ s'.view.coins.totalValue + s'.nFees ≤
      s.view.coins.totalValue + s.nFees
      + (vtx.map fun tx => if tx.isCoinBase then outputValue tx.vout else 0).sum := by
  induction vtx generalizing i s with
  | nil =>
    cases h
    exact ⟨hview, by simp⟩
  | cons tx vtx ih =>
    obtain ⟨s₁, htx, h⟩ := bind_ok.mp h
    obtain ⟨hcheck₁, hcheck⟩ := List.forall_mem_cons.mp hcheck
    obtain ⟨hview₁, htotal₁⟩ := connectTx_ok hview hcheck₁
      (fun i hi => hc ⟨tx, mem_cons_self, i, hi, rfl⟩) htx
    have hc' : ∀ {outpoint}, IsOutputOf man.hash vtx outpoint → created outpoint := by
      rintro outpoint ⟨tx', hmem, i, hi, rfl⟩
      exact hc ⟨tx', mem_cons_of_mem _ hmem, i, hi, rfl⟩
    obtain ⟨hview', htotal⟩ := ih hview₁ hcheck hc' h
    refine ⟨hview', htotal.trans ?_⟩
    rw [map_cons, sum_cons]
    linarith

/-! ### The checks around the loop -/

theorem checkTransactions_ok (h : checkTransactions vtx = .ok ()) :
    ∀ tx ∈ vtx, checkTransaction tx = .ok () := by
  induction vtx with
  | nil => simp
  | cons tx vtx ih =>
    unfold checkTransactions at h
    split at h
    · cases h
    · next hcheck => exact List.forall_mem_cons.mpr ⟨hcheck, ih h⟩

theorem checkOverwriteTx_ok {txid : Uint256} {i : Nat} {vout : List CTxOut}
    (h : checkOverwriteTx txid i vout view = .ok view') :
    view.SameCoins view' ∧ ∀ j < vout.length,
    view.coins.lookup (COutPoint.ofIndex txid (i + j)) = none := by
  induction vout generalizing i view with
  | nil =>
    cases h
    exact ⟨.refl _, by simp⟩
  | cons txout vout ih =>
    obtain ⟨hsame, hhave⟩ := view.haveCoin_spec (COutPoint.ofIndex txid i)
    unfold checkOverwriteTx at h
    split at h
    · cases h
    · next view₁ hcoin =>
      rw [hcoin] at hsame hhave
      obtain ⟨hsame', hnone⟩ := ih h
      refine ⟨hsame.trans hsame', fun j hj => ?_⟩
      cases j with
      | zero => exact Option.isNone_iff_eq_none.mp (by simpa using hhave.symm)
      | succ j =>
        rw [← hsame.coins, Nat.add_comm j, ← Nat.add_assoc]
        exact hnone j (Nat.lt_of_succ_lt_succ hj)

theorem checkOverwrite_ok (h : checkOverwrite hash vtx view = .ok view') :
    view.SameCoins view' ∧ NoOverwrite hash view.coins vtx := by
  induction vtx generalizing view with
  | nil =>
    cases h
    exact ⟨.refl _, by rintro outpoint ⟨tx, hmem, -⟩; cases hmem⟩
  | cons tx vtx ih =>
    obtain ⟨view₁, htx, h⟩ := bind_ok.mp h
    obtain ⟨hsame, hnone⟩ := checkOverwriteTx_ok htx
    obtain ⟨hsame', hrest⟩ := ih h
    refine ⟨hsame.trans hsame', ?_⟩
    rintro outpoint ⟨tx', hmem, i, hi, rfl⟩
    rcases List.mem_cons.mp hmem with rfl | hmem
    · rw [← Nat.zero_add i]
      exact hnone i hi
    · rw [← hsame.coins]
      exact hrest ⟨tx', hmem, i, hi, rfl⟩

theorem recheckBlock_ok {block : CBlock} {fJustCheck : Bool}
    (h : recheckBlock man block fJustCheck = .ok ()) :
    checkBlock man block (!fJustCheck) (!fJustCheck) = .ok () := by
  unfold recheckBlock at h
  split at h
  · cases h
  · exact h

end SupplyLemmas

open SupplyLemmas

/-- What `CheckBlock` establishes: the transactions pass `CheckTransaction`, and
the first one and no other is a coinbase. -/
structure CheckedBlock (block : CBlock) : Prop where
  transactions : ∀ tx ∈ block.vtx, checkTransaction tx = .ok ()
  coinbase : ∃ tx vtx, block.vtx = tx :: vtx ∧ tx.isCoinBase = true ∧ ∀ tx' ∈ vtx,
    tx'.isCoinBase = false

theorem checkBlock_ok {block : CBlock} {fCheckPOW fCheckMerkleRoot : Bool}
    (hfresh : block.fChecked = false)
    (h : checkBlock man block fCheckPOW fCheckMerkleRoot = .ok ()) : CheckedBlock block := by
  unfold checkBlock at h
  rw [if_neg (by simp [hfresh])] at h
  obtain ⟨_, _, h⟩ := bind_ok.mp h
  obtain ⟨_, _, h⟩ := bind_ok.mp h
  obtain ⟨_, _, h⟩ := bind_ok.mp h
  obtain ⟨_, _, h⟩ := bind_ok.mp h
  obtain ⟨_, hfirst, h⟩ := bind_ok.mp h
  obtain ⟨_, hrest, h⟩ := bind_ok.mp h
  obtain ⟨_, htxs, h⟩ := bind_ok.mp h
  refine ⟨checkTransactions_ok htxs, ?_⟩
  have hfirst := invalidIf_ok.mp hfirst
  have hrest := invalidIf_ok.mp hrest
  cases hvtx : block.vtx with
  | nil => simp [hvtx] at hfirst
  | cons tx vtx =>
    rw [hvtx] at hfirst hrest
    exact ⟨tx, vtx, rfl, by simpa using hfirst, by simpa using hrest⟩

/-- `ConnectBlock` accepts the block. A block marked as checked has passed
`CheckBlock` before, and where BIP30 is not enforced the block overwrites nothing. -/
structure Connects (man : ChainstateManager) (block : CBlock) (pindex : CBlockIndex)
    (view view' : CCoinsViewCache) : Prop where
  checked : block.fChecked = true → checkBlock man
    { block with fChecked := false } true true = .ok ()
  noOverwrite : ∀ {pprev}, pindex.pprev = some pprev → enforceBIP30 man pindex pprev = false →
    NoOverwrite man.hash view.coins block.vtx
  accepted : ∃ fJustCheck undo, connectBlock man block pindex view fJustCheck = .ok (view', undo)

namespace SupplyLemmas

variable {man : ChainstateManager} {pindex : CBlockIndex} {view : CCoinsViewCache}

theorem Connects.checkedBlock {block : CBlock}
    (h : Connects man block pindex view view') : CheckedBlock block := by
  obtain ⟨fJustCheck, undo, haccepted⟩ := h.accepted
  obtain ⟨_, _, haccepted⟩ := bind_ok.mp haccepted
  obtain ⟨_, hrecheck, _⟩ := bind_ok.mp haccepted
  cases hfresh : block.fChecked with
  | false => exact checkBlock_ok hfresh (recheckBlock_ok hrecheck)
  | true =>
    obtain ⟨htxs, hcoinbase⟩ : CheckedBlock { block with fChecked := false } :=
      checkBlock_ok rfl (h.checked hfresh)
    exact ⟨htxs, hcoinbase⟩

/-- Only the coinbase of a block counts. -/
theorem coinbaseValue_eq {tx : CTransaction} {vtx : List CTransaction} (hcb : tx.isCoinBase = true)
    (hrest : ∀ tx' ∈ vtx, tx'.isCoinBase = false) :
    ((tx :: vtx).map fun tx => if tx.isCoinBase then outputValue tx.vout else 0).sum =
      outputValue tx.vout := by
  have hzero : (vtx.map fun tx => if tx.isCoinBase then outputValue tx.vout else 0).sum = 0 := by
    apply sum_eq_zero
    intro x hx
    obtain ⟨tx', hmem, rfl⟩ := List.mem_map.mp hx
    simp [hrest tx' hmem]
  rw [map_cons, sum_cons, hzero, if_pos hcb, Int.add_zero]

/-- The coins of the view that `ConnectBlock` leaves are those after its loop over
the transactions, or those before if it is the genesis block. -/
theorem connectBlock_cases {block : CBlock} {fJustCheck : Bool} {undo : List (List Coin)}
    (h : connectBlock man block pindex view fJustCheck = .ok (view', undo)) :
    (view'.coins = view.coins ∧ (view.WellFlagged → view'.WellFlagged)) ∨
    ∃ pprev view₁ s coinbase, pindex.pprev = some pprev ∧
    checkBIP30 man block pindex pprev view = .ok view₁ ∧
      connectTxs man pindex 0 block.vtx ⟨view₁, 0, 0, [], true⟩ = .ok s ∧
        block.vtx.head? = some coinbase ∧
      checkCoinbaseAmount man.params pindex.nHeight s.nFees coinbase = .ok () ∧
      view'.coins = s.view.coins ∧ (s.view.WellFlagged → view'.WellFlagged) := by
  obtain ⟨_, _, h⟩ := bind_ok.mp h
  obtain ⟨_, _, h⟩ := bind_ok.mp h
  obtain ⟨_, _, h⟩ := bind_ok.mp h
  split at h
  · left
    cases h
    split
    · exact ⟨rfl, id⟩
    · exact ⟨rfl, fun hw => ⟨hw.fresh, hw.clean⟩⟩
  · right
    obtain ⟨pprev, hpprev, h⟩ := bind_ok.mp h
    obtain ⟨view₁, hbip30, h⟩ := bind_ok.mp h
    obtain ⟨s, hloop, h⟩ := bind_ok.mp h
    obtain ⟨coinbase, hcoinbase, h⟩ := bind_ok.mp h
    obtain ⟨_, hamount, h⟩ := bind_ok.mp h
    obtain ⟨_, _, h⟩ := bind_ok.mp h
    obtain ⟨_, _, h⟩ := bind_ok.mp h
    refine ⟨pprev, view₁, s, coinbase, orAbort_ok.mp hpprev, hbip30, hloop, orAbort_ok.mp hcoinbase,
      hamount, ?_⟩
    split at h
    · cases h
      exact ⟨rfl, id⟩
    · split at h
      · cases h
      · cases h
        exact ⟨rfl, fun hw => ⟨hw.fresh, hw.clean⟩⟩

end SupplyLemmas

/-- A connected block adds at most its subsidy, and leaves the flags right. -/
theorem Connects.totalValue_le {block : CBlock}
    (hw : view.WellFlagged) (h : Connects man block pindex view view') :
    view'.coins.totalValue ≤ view.coins.totalValue +
    getBlockSubsidy pindex.nHeight man.params.consensus ∧ view'.WellFlagged := by
  obtain ⟨fJustCheck, undo, haccepted⟩ := h.accepted
  obtain ⟨htxs, tx, vtx, hvtx, hcb, hrest⟩ := Connects.checkedBlock h
  rcases connectBlock_cases haccepted with
    ⟨hcoins, hflags⟩ | ⟨pprev, view₁, s, coinbase, hpprev, hbip30, hloop, hcoinbase, hamount,
      hcoins, hflags⟩
  · rw [hcoins]
    exact ⟨Int.le_add_of_nonneg_right (getBlockSubsidy_nonneg _ _), hflags hw⟩
  have hbip30' : view.SameCoins view₁ ∧ NoOverwrite man.hash view.coins block.vtx := by
    unfold checkBIP30 at hbip30
    split at hbip30
    · exact checkOverwrite_ok hbip30
    · next henforce =>
      cases hbip30
      exact ⟨.refl _, h.noOverwrite hpprev (Bool.eq_false_iff.mpr henforce)⟩
  obtain ⟨hsame, hnew⟩ := hbip30'
  -- at the start of the loop the view has no coin at any outpoint of the block
  have hprepared : Prepared (IsOutputOf man.hash block.vtx) view₁ := by
    refine ⟨hsame.wellFlagged hw, fun hc => hsame.settled fun hentry => ?_, fun hc hl => ?_⟩
    · have hnone := hnew hc
      rwa [CCoinsViewCache.coins, lookup_coinsOver, hentry] at hnone
    · rw [hsame.coins, hnew hc] at hl
      cases hl
  obtain ⟨hprepared', htotal⟩ := connectTxs_ok hprepared htxs id hloop
  rw [hvtx] at hcoinbase htotal
  cases hcoinbase
  rw [coinbaseValue_eq hcb hrest] at htotal
  obtain ⟨valueOut, hout, hle⟩ := checkCoinbaseAmount_ok.mp hamount
  rw [getValueOut_eq hout] at hle
  rw [hsame.coins] at htotal
  exact ⟨by rw [hcoins]; linarith, hflags hprepared'.wellFlagged⟩

/-- Runs of connected blocks from genesis. Between two blocks the view may be
exchanged for any other with the same coins and right flags, such as its flushed
base under a new cache. -/
inductive Connected (man : ChainstateManager) : CBlockIndex → CCoinsViewCache → Prop
  | genesis {header : CBlockHeader} {view : CCoinsViewCache} :
      view.coins = ∅ → view.WellFlagged → Connected man (.genesis header) view
  | connect {pprev : CBlockIndex} {header : CBlockHeader} {block : CBlock}
      {view view' : CCoinsViewCache} :
      Connected man pprev view → Connects man block (.next pprev header) view view' →
      Connected man (.next pprev header) view'
  | exchange {pindex : CBlockIndex} {view view' : CCoinsViewCache} :
      Connected man pindex view → view'.coins = view.coins → view'.WellFlagged →
      Connected man pindex view'

theorem Connected.totalValue_le (h : Connected man pindex view) :
    view.coins.totalValue ≤ totalSubsidy man.params.consensus pindex.nHeight ∧
    view.WellFlagged := by
  induction h with
  | genesis hempty hw =>
    rw [hempty]
    exact ⟨le_refl _, hw⟩
  | connect _ hconnects ih =>
    obtain ⟨hle, hw⟩ := hconnects.totalValue_le ih.2
    rw [CBlockIndex.nHeight, SubsidyLemmas.totalSubsidy_succ]
    exact ⟨hle.trans (Int.add_le_add_right ih.1 _), hw⟩
  | exchange _ hcoins hw ih =>
    rw [hcoins]
    exact ⟨ih.1, hw⟩

/-- No inflation: a connected block adds at most its subsidy to the total value of
the unspent coins, so after any run of blocks from genesis the total is at most the
sum of the subsidies of the heights connected. -/
theorem supply_le_subsidies (man : ChainstateManager) :
    (∀ {block : CBlock} {pindex : CBlockIndex} {view view' : CCoinsViewCache},
      view.WellFlagged → Connects man block pindex view view' →
      view'.coins.totalValue ≤ view.coins.totalValue +
        getBlockSubsidy pindex.nHeight man.params.consensus) ∧
    (∀ {pindex : CBlockIndex} {view : CCoinsViewCache}, Connected man pindex view →
      view.coins.totalValue ≤ totalSubsidy man.params.consensus pindex.nHeight) :=
  ⟨fun hw h => (h.totalValue_le hw).1, fun h => h.totalValue_le.1⟩

/-! ## A first block, and a block that spends its own output -/

def firstBlock : CBlock where
  nBits := 0x1f00ffff#32
  vtx := [{ vin := [⟨⟨nullUint256, COutPoint.nullIndex⟩, [1, 1], 0#32, []⟩]
            vout := [⟨1 * coin, [0x51]⟩]
            nVersion := 1#32, nLockTime := 0#32 }]

def emptyView : CCoinsViewCache := ⟨∅, nullUint256, .db ∅ nullUint256⟩

/-- A hash function that tells the bytes of a few small transactions apart. -/
def foldHash (data : Bytes) : Uint256 :=
  uint256S (data.foldl (fun acc byte => (acc * 257 + byte.toNat + 1) % 2 ^ 256) 0)

def foldManager : ChainstateManager := { constantManager with hash := foldHash }

def oldOutPoint : COutPoint := COutPoint.ofIndex (uint256S 7) 0

def oldCoin : Coin := ⟨⟨5, [0x51]⟩, false, 1⟩

def oldView : CCoinsViewCache :=
  ⟨∅, nullUint256, .db ((∅ : UtxoSet).insert oldOutPoint ⟨oldCoin, rfl⟩) nullUint256⟩

def spendingTx (prevout : COutPoint) (nValue : CAmount) : CTransaction :=
  ⟨[⟨prevout, [], sequenceFinal, []⟩], [⟨nValue, [0x51]⟩], 1#32, 0#32⟩

def firstSpend : CTransaction := spendingTx oldOutPoint 5

def chainedTxs : List CTransaction :=
  firstBlock.vtx ++ [firstSpend, spendingTx (COutPoint.ofIndex (firstSpend.getHash foldHash) 0) 4]

/-- A transaction spends the coin, and another one the output of the first. -/
def chainedBlock : CBlock :=
  { firstBlock with
    vtx := chainedTxs
    hashMerkleRoot :=
      (computeMerkleRoot foldHash (chainedTxs.map (CTransaction.getHash foldHash))).1 }

def chainedIndex : CBlockIndex := .next (.genesis mainParams.genesis) chainedBlock.toCBlockHeader

/-- A block that pays a fee of 1, and a first block. -/
theorem supply_le_subsidies_chained :
    (∃ view, Connects foldManager chainedBlock chainedIndex oldView view ∧
      view.coins.totalValue ≤ oldView.coins.totalValue + getBlockSubsidy 1 mainConsensus) ∧
    ∃ view, Connects constantManager firstBlock
        (.next (.genesis mainParams.genesis) firstBlock.toCBlockHeader) emptyView view ∧
      view.coins.totalValue ≤ totalSubsidy mainConsensus 1 := by
  constructor
  · have hok :
        (connectBlock foldManager chainedBlock chainedIndex oldView false).toBool = true := by
      decide +kernel
    obtain ⟨view, undo, haccepted⟩ := exists_ok hok
    have hconnects : Connects foldManager chainedBlock chainedIndex oldView view :=
      ⟨by decide, fun hprev henforce => absurd henforce (by cases hprev; decide +kernel), false,
        undo, haccepted⟩
    have hw : oldView.WellFlagged := ⟨fun h => (by cases h), fun h => (by cases h)⟩
    exact ⟨view, hconnects, (supply_le_subsidies foldManager).1 hw hconnects⟩
  · have hok : (connectBlock constantManager firstBlock
        (.next (.genesis mainParams.genesis) firstBlock.toCBlockHeader) emptyView false).toBool
          = true := by
      decide +kernel
    obtain ⟨view, undo, haccepted⟩ := exists_ok hok
    have hconnects : Connects constantManager firstBlock
        (.next (.genesis mainParams.genesis) firstBlock.toCBlockHeader) emptyView view :=
      ⟨by decide, fun _ _ => by rintro outpoint -; rfl, false, undo, haccepted⟩
    have hw : emptyView.WellFlagged := ⟨fun h => (by cases h), fun h => (by cases h)⟩
    exact ⟨view, hconnects,
      (supply_le_subsidies constantManager).2 (.connect (.genesis rfl hw) hconnects)⟩

end Bitcoboost
