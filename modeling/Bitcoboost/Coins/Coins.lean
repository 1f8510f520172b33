import Bitcoboost.Lib.FiniteMap
import Bitcoboost.Primitives.Transaction

/-!
# The coins views

`CCoinsViewCache` over its base, from `coins.h` and `coins.cpp`. A read may copy a coin of the
base into the cache, so reads return the view they leave behind. `none` is a failed assertion or
the `logic_error` of `AddCoin`.

A view stands for its set of unspent coins, `coins`. Reads keep it, `SpendCoin` erases an entry
and `AddCoin` inserts one, provided that the flags of the cache are right (`WellFlagged`).
-/

namespace Bitcoboost

open FiniteMap Finmap Bool

/-! ## Coins and views -/

structure Coin where
  out : CTxOut
  fCoinBase : Bool
  nHeight : Nat
deriving DecidableEq, Repr

/-- `Coin()`, what `Coin::Clear` leaves and what `coinEmpty` is. -/
def Coin.empty : Coin := ⟨CTxOut.null, false, 0⟩

def Coin.isSpent (coin : Coin) : Bool := coin.out.isNull

abbrev UnspentCoin := { coin : Coin // coin.isSpent = false }

def Coin.unspent? (coin : Coin) : Option UnspentCoin :=
  if h : coin.isSpent = false then some ⟨coin, h⟩ else none

/-- `CCoinsCacheEntry`, with the two bits of `flags`. -/
structure CCoinsCacheEntry where
  coin : Coin
  dirty : Bool
  fresh : Bool
deriving DecidableEq, Repr

abbrev CCoinsMap := Map COutPoint CCoinsCacheEntry

abbrev UtxoSet := Map COutPoint UnspentCoin

def UtxoSet.totalValue (coins : UtxoSet) : CAmount := total (fun coin => coin.val.out.nValue) coins

/-- `CCoinsView`: the coins database, or a cache over another view. -/
inductive CCoinsView where
  | db (coins : UtxoSet) (hashBlock : Uint256)
  | cache (cacheCoins : CCoinsMap) (hashBlock : Uint256) (base : CCoinsView)

structure CCoinsViewCache where
  cacheCoins : CCoinsMap
  hashBlock : Uint256
  base : CCoinsView

/-- The unspent coins of a cache with the given entries over a base with the
given coins. -/
def coinsOver (cacheCoins : CCoinsMap) (baseCoins : UtxoSet) : UtxoSet :=
  overlay (fun entry => entry.coin.unspent?) cacheCoins baseCoins

def CCoinsView.coins : CCoinsView → UtxoSet
  | db coins _ => coins
  | cache cacheCoins _ base => coinsOver cacheCoins base.coins

def CCoinsViewCache.coins (view : CCoinsViewCache) : UtxoSet :=
  coinsOver view.cacheCoins view.base.coins

/-! ## Reads -/

/-- `FetchCoin` of a cache with the given entries, where `answer` is what
`GetCoin` of the base returns: the entries, the base and the entry found. -/
def fetch (cacheCoins : CCoinsMap) (base : CCoinsView) (answer : CCoinsView × Option Coin)
    (outpoint : COutPoint) : CCoinsMap × CCoinsView × Option CCoinsCacheEntry :=
  match cacheCoins.lookup outpoint with
  | some entry => (cacheCoins, base, some entry)
  | none =>
    match answer with
    | (base, none) => (cacheCoins, base, none)
    | (base, some tmp) =>
      -- the base only has an empty entry: ours counts as fresh
      let entry : CCoinsCacheEntry := ⟨tmp, false, tmp.isSpent⟩
      (cacheCoins.insert outpoint entry, base, some entry)

/-- `GetCoin`: the view after the call and the coin, if it returns true. -/
def CCoinsView.getCoin : CCoinsView → COutPoint → CCoinsView × Option Coin
  | db coins hashBlock, outpoint => (db coins hashBlock, (coins.lookup outpoint).map Subtype.val)
  | cache cacheCoins hashBlock base, outpoint =>
    match fetch cacheCoins base (base.getCoin outpoint) outpoint with
    | (cacheCoins, base, some entry) =>
      (cache cacheCoins hashBlock base, if !entry.coin.isSpent then some entry.coin else none)
    | (cacheCoins, base, none) => (cache cacheCoins hashBlock base, none)

def CCoinsView.getBestBlock : CCoinsView → Uint256
  | db _ hashBlock => hashBlock
  | cache _ hashBlock base => if hashBlock = nullUint256 then base.getBestBlock else hashBlock

namespace CCoinsViewCache

def fetchCoin (view : CCoinsViewCache) (outpoint : COutPoint) :
    CCoinsViewCache × Option CCoinsCacheEntry :=
  match fetch view.cacheCoins view.base (view.base.getCoin outpoint) outpoint with
  | (cacheCoins, base, entry) => (⟨cacheCoins, view.hashBlock, base⟩, entry)

def accessCoin (view : CCoinsViewCache) (outpoint : COutPoint) : CCoinsViewCache × Coin :=
  match view.fetchCoin outpoint with
  | (view, none) => (view, Coin.empty)
  | (view, some entry) => (view, entry.coin)

def haveCoin (view : CCoinsViewCache) (outpoint : COutPoint) : CCoinsViewCache × Bool :=
  match view.fetchCoin outpoint with
  | (view, none) => (view, false)
  | (view, some entry) => (view, !entry.coin.isSpent)

def haveInputsLoop (view : CCoinsViewCache) : List CTxIn → CCoinsViewCache × Bool
  | [] => (view, true)
  | txin :: vin =>
    match view.haveCoin txin.prevout with
    | (view, true) => haveInputsLoop view vin
    | (view, false) => (view, false)

def haveInputs (view : CCoinsViewCache) (tx : CTransaction) : CCoinsViewCache × Bool :=
  if tx.isCoinBase then (view, true) else view.haveInputsLoop tx.vin

/-- The source keeps the hash of the base in `hashBlock`; a later call gives the same, as a base
does not change under its cache. -/
def getBestBlock (view : CCoinsViewCache) : Uint256 :=
  if view.hashBlock = nullUint256 then view.base.getBestBlock else view.hashBlock

/-! ## Updates -/

def addCoin (view : CCoinsViewCache) (outpoint : COutPoint) (coin : Coin)
    (possibleOverwrite : Bool) : Option CCoinsViewCache :=
  if coin.isSpent then none
  else if CScript.isUnspendable coin.out.scriptPubKey then some view
  else
    -- `emplace` makes an empty entry if there is none
    let entry := (view.cacheCoins.lookup outpoint).getD ⟨Coin.empty, false, false⟩
    if !possibleOverwrite && !entry.coin.isSpent then none
    else
      let fresh := !possibleOverwrite && !entry.dirty
      some { view with cacheCoins := view.cacheCoins.insert outpoint ⟨coin, true,
        entry.fresh || fresh⟩ }

/-- `SpendCoin`: the view and the coin moved out, if it returns true. -/
def spendCoin (view : CCoinsViewCache) (outpoint : COutPoint) : CCoinsViewCache × Option Coin :=
  match view.fetchCoin outpoint with
  | (view, none) => (view, none)
  | (view, some entry) =>
    if entry.fresh then
      ({ view with cacheCoins := view.cacheCoins.erase outpoint }, some entry.coin)
    else
      ({ view with
          cacheCoins :=
            view.cacheCoins.insert outpoint { entry with coin := Coin.empty, dirty := true } },
        some entry.coin)

def addCoinsLoop (txid : Uint256) (nHeight : Nat) (fCoinbase checkForOverwrite : Bool) :
    Nat → List CTxOut → CCoinsViewCache → Option CCoinsViewCache
  | _, [], view => some view
  | i, out :: vout, view => do
    let outpoint := COutPoint.ofIndex txid i
    let (view, overwrite) := if checkForOverwrite then view.haveCoin outpoint else (view, fCoinbase)
    let view ← view.addCoin outpoint ⟨out, fCoinbase, nHeight⟩ overwrite
    addCoinsLoop txid nHeight fCoinbase checkForOverwrite (i + 1) vout view

def addCoins (hash : Bytes → Uint256) (view : CCoinsViewCache) (tx : CTransaction) (nHeight : Nat)
    (checkForOverwrite : Bool) : Option CCoinsViewCache :=
  addCoinsLoop (tx.getHash hash) nHeight tx.isCoinBase checkForOverwrite 0 tx.vout view

def setBestBlock (view : CCoinsViewCache) (hashBlock : Uint256) : CCoinsViewCache :=
  { view with hashBlock := hashBlock }

end CCoinsViewCache

/-! ## What the flags mean -/

/-- The flags of the cache entries are right: the base has no unspent coin under a
fresh entry, and an entry that is not dirty is what the base has. -/
structure CCoinsViewCache.WellFlagged (view : CCoinsViewCache) : Prop where
  fresh : ∀ {outpoint entry}, view.cacheCoins.lookup outpoint = some entry → entry.fresh = true →
    view.base.coins.lookup outpoint = none
  clean : ∀ {outpoint entry}, view.cacheCoins.lookup outpoint = some entry → entry.dirty = false →
    entry.coin.unspent? = view.base.coins.lookup outpoint

/-- The cache knows of any unspent coin at `outpoint`: the base has none that the
cache has no entry for. -/
def CCoinsViewCache.Settled (view : CCoinsViewCache) (outpoint : COutPoint) : Prop :=
  view.cacheCoins.lookup outpoint = none → view.base.coins.lookup outpoint = none

structure CCoinsView.Same (view view' : CCoinsView) : Prop where
  coins : view'.coins = view.coins
  bestBlock : view'.getBestBlock = view.getBestBlock

theorem CCoinsView.Same.refl (view : CCoinsView) : view.Same view := ⟨rfl, rfl⟩

theorem CCoinsView.Same.trans {a b c : CCoinsView} (hab : a.Same b) (hbc : b.Same c) : a.Same c :=
  ⟨hbc.coins.trans hab.coins, hbc.bestBlock.trans hab.bestBlock⟩

/-- What a read leaves behind: the same coins, over the same base, right flags, and no
less known of the base. -/
structure CCoinsViewCache.SameCoins (view view' : CCoinsViewCache) : Prop where
  coins : view'.coins = view.coins
  base : view.base.Same view'.base
  wellFlagged : view.WellFlagged → view'.WellFlagged
  settled : ∀ {outpoint}, view.Settled outpoint → view'.Settled outpoint

theorem CCoinsViewCache.SameCoins.refl (view : CCoinsViewCache) : view.SameCoins view :=
  ⟨rfl, .refl _, id, id⟩

theorem CCoinsViewCache.SameCoins.trans {a b c : CCoinsViewCache} (hab : a.SameCoins b)
    (hbc : b.SameCoins c) : a.SameCoins c :=
  ⟨hbc.coins.trans hab.coins, hab.base.trans hbc.base, hbc.wellFlagged ∘ hab.wellFlagged,
    hbc.settled ∘ hab.settled⟩

namespace CoinsLemmas

theorem unspent?_of_isSpent {coin : Coin} (h : coin.isSpent = true) : coin.unspent? = none := by
  simp [Coin.unspent?, h]

theorem unspent?_of_unspent {coin : Coin} (h : coin.isSpent = false) :
    coin.unspent? = some ⟨coin, h⟩ := by
  simp [Coin.unspent?, h]

theorem unspent?_val (coin : UnspentCoin) : coin.val.unspent? = some coin :=
  unspent?_of_unspent coin.property

variable (cacheCoins : CCoinsMap)

theorem lookup_coinsOver (baseCoins : UtxoSet) (outpoint : COutPoint) :
    (coinsOver cacheCoins baseCoins).lookup outpoint =
      (cacheCoins.lookup outpoint).elim (baseCoins.lookup outpoint) fun entry =>
        entry.coin.unspent? :=
  lookup_overlay _ _ _ _

variable {outpoint : COutPoint} {view view' : CCoinsViewCache} {entry : CCoinsCacheEntry}
  {coin : UnspentCoin} {base : CCoinsView}

theorem coinsOver_insert (baseCoins : UtxoSet) (h : entry.coin.unspent? = some coin) :
    coinsOver (cacheCoins.insert outpoint entry) baseCoins =
      (coinsOver cacheCoins baseCoins).insert outpoint coin := by
  refine ext_lookup fun o => ?_
  by_cases ho : o = outpoint
  · subst ho
    rw [lookup_coinsOver, lookup_insert, lookup_insert]
    exact h
  · rw [lookup_coinsOver, lookup_insert_of_ne _ ho, lookup_insert_of_ne _ ho, lookup_coinsOver]

/-- `view'` is `view` with another cache entry, or none, at `outpoint`. -/
structure UpdatedAt (outpoint : COutPoint) (view view' : CCoinsViewCache) : Prop where
  base : view'.base = view.base
  entries : ∀ {o}, o ≠ outpoint → view'.cacheCoins.lookup o = view.cacheCoins.lookup o

theorem updatedAt_insert (view : CCoinsViewCache) (outpoint : COutPoint)
    (entry : CCoinsCacheEntry) :
    UpdatedAt outpoint view { view with cacheCoins := view.cacheCoins.insert outpoint entry } :=
  ⟨rfl, fun ho => lookup_insert_of_ne _ ho⟩

theorem updatedAt_erase (view : CCoinsViewCache) (outpoint : COutPoint) :
    UpdatedAt outpoint view { view with cacheCoins := view.cacheCoins.erase outpoint } :=
  ⟨rfl, fun ho => lookup_erase_ne ho⟩

section

variable (h : UpdatedAt outpoint view view')
include h

/-- Only the new entry has to be checked for its flags. -/
theorem UpdatedAt.wellFlagged (hflags : view.WellFlagged)
    (hnew : ∀ {entry}, view'.cacheCoins.lookup outpoint = some entry →
      (entry.fresh = true → view.base.coins.lookup outpoint = none) ∧
      (entry.dirty = false → entry.coin.unspent? = view.base.coins.lookup outpoint)) :
    view'.WellFlagged := by
  refine ⟨fun {o entry} he hfresh => ?_, fun {o entry} he hclean => ?_⟩ <;> rw [h.base] <;>
    by_cases ho : o = outpoint
  · subst ho
    exact (hnew he).1 hfresh
  · exact hflags.fresh ((h.entries ho).symm.trans he) hfresh
  · subst ho
    exact (hnew he).2 hclean
  · exact hflags.clean ((h.entries ho).symm.trans he) hclean

theorem UpdatedAt.settled (hnew : view'.cacheCoins.lookup outpoint = none →
      view.base.coins.lookup outpoint = none) {o : COutPoint}
    (hs : view.Settled o) : view'.Settled o := by
  intro hnone
  rw [h.base]
  by_cases ho : o = outpoint
  · subst ho
    exact hnew hnone
  · exact hs ((h.entries ho).symm.trans hnone)

theorem UpdatedAt.coins_erase (hnew : view'.coins.lookup outpoint = none) :
    view'.coins = view.coins.erase outpoint := by
  refine ext_lookup fun o => ?_
  by_cases ho : o = outpoint
  · subst ho
    rw [hnew, lookup_erase]
  · rw [lookup_erase_ne ho, CCoinsViewCache.coins, CCoinsViewCache.coins, lookup_coinsOver,
      lookup_coinsOver, h.entries ho, h.base]

end

theorem lookup_insert_ne_none {cacheCoins : CCoinsMap}
    (h : (cacheCoins.insert outpoint entry).lookup outpoint = none) : False := by
  rw [lookup_insert] at h
  cases h

/-- What `FetchCoin` can do: find an entry, find nothing in the base, or copy the
coin of the base. -/
theorem fetch_cases {answer : CCoinsView × Option Coin} (hcoins : answer.1.coins = base.coins)
    (hanswer : answer.2 = (base.coins.lookup outpoint).map Subtype.val) :
    (∃ entry, cacheCoins.lookup outpoint = some entry ∧
      fetch cacheCoins base answer outpoint = (cacheCoins, base, some entry)) ∨
    (cacheCoins.lookup outpoint = none ∧ base.coins.lookup outpoint = none ∧
      fetch cacheCoins base answer outpoint = (cacheCoins, answer.1, none)) ∨
    (cacheCoins.lookup outpoint = none ∧ ∃ coin, base.coins.lookup outpoint = some coin ∧
      fetch cacheCoins base answer outpoint =
        (cacheCoins.insert outpoint ⟨coin.val, false, false⟩, answer.1,
          some ⟨coin.val, false, false⟩)) := by
  obtain ⟨base', coin⟩ := answer
  subst hanswer
  unfold fetch
  cases hentry : cacheCoins.lookup outpoint with
  | some entry => exact .inl ⟨entry, rfl, rfl⟩
  | none =>
    cases hbase : base.coins.lookup outpoint with
    | none => exact .inr (.inl ⟨rfl, rfl, rfl⟩)
    | some coin =>
      refine .inr (.inr ⟨rfl, coin, rfl, ?_⟩)
      simp [coin.property]

theorem getCoin_spec (view : CCoinsView) (outpoint : COutPoint) :
    (view.getCoin outpoint).1.coins = view.coins ∧
    (view.getCoin outpoint).2 = (view.coins.lookup outpoint).map Subtype.val := by
  induction view with
  | db coins hashBlock => exact ⟨rfl, rfl⟩
  | cache cacheCoins hashBlock base ih =>
    rw [CCoinsView.getCoin, CCoinsView.coins, lookup_coinsOver]
    rcases fetch_cases cacheCoins ih.1 ih.2 with
      ⟨entry, hentry, hfetch⟩ | ⟨hentry, hbase, hfetch⟩ | ⟨hentry, coin, hbase, hfetch⟩
    · rw [hfetch, hentry]
      refine ⟨rfl, ?_⟩
      cases hspent : entry.coin.isSpent with
      | true => simp [hspent, unspent?_of_isSpent hspent]
      | false => simp [hspent, unspent?_of_unspent hspent]
    · rw [hfetch, hentry, hbase]
      exact ⟨by rw [CCoinsView.coins, ih.1], rfl⟩
    · rw [hfetch, hentry, hbase]
      refine ⟨?_, by simp [coin.property]⟩
      rw [CCoinsView.coins, ih.1, coinsOver_insert _ _ (unspent?_val coin)]
      apply insert_of_lookup
      rw [lookup_coinsOver, hentry]
      exact hbase

theorem getBestBlock_getCoin {view : CCoinsView} {outpoint : COutPoint} :
    (view.getCoin outpoint).1.getBestBlock = view.getBestBlock := by
  induction view with
  | db coins hashBlock => rfl
  | cache cacheCoins hashBlock base ih =>
    have hbase := getCoin_spec base outpoint
    rw [CCoinsView.getCoin]
    rcases fetch_cases cacheCoins hbase.1 hbase.2 with ⟨_, _, hfetch⟩ | ⟨_, _, hfetch⟩ | ⟨_,
      _, _, hfetch⟩
    · rw [hfetch]
    · rw [hfetch, CCoinsView.getBestBlock, ih, CCoinsView.getBestBlock]
    · rw [hfetch, CCoinsView.getBestBlock, ih, CCoinsView.getBestBlock]

theorem fetchCoin_cases (view : CCoinsViewCache) (outpoint : COutPoint) :
    (∃ entry, view.cacheCoins.lookup outpoint = some entry ∧
    view.fetchCoin outpoint = (view, some entry)) ∨ ∃ base, view.base.Same base ∧
      view.cacheCoins.lookup outpoint = none ∧
      ((view.base.coins.lookup outpoint = none ∧
        view.fetchCoin outpoint = ({ view with base := base }, none)) ∨
      ∃ coin, view.base.coins.lookup outpoint = some coin ∧ view.fetchCoin outpoint = ({ view with
          cacheCoins := view.cacheCoins.insert outpoint ⟨coin.val, false, false⟩, base := base },
          some ⟨coin.val, false, false⟩)) := by
  have hbase := getCoin_spec view.base outpoint
  have hsame : view.base.Same (view.base.getCoin outpoint).1 := ⟨hbase.1, getBestBlock_getCoin⟩
  unfold CCoinsViewCache.fetchCoin
  rcases fetch_cases view.cacheCoins hbase.1 hbase.2 with
    ⟨entry, hentry, hfetch⟩ | ⟨hentry, hnone, hfetch⟩ | ⟨hentry, coin, hcoin, hfetch⟩
  · exact .inl ⟨entry, hentry, by rw [hfetch]⟩
  · exact .inr ⟨_, hsame, hentry, .inl ⟨hnone, by rw [hfetch]⟩⟩
  · exact .inr ⟨_, hsame, hentry, .inr ⟨coin, hcoin, by rw [hfetch]⟩⟩

theorem sameCoins_base (h : view.base.Same base) : view.SameCoins { view with base := base } where
  coins := by rw [CCoinsViewCache.coins, CCoinsViewCache.coins, h.coins]
  base := h
  wellFlagged hflags := ⟨fun he hf => by rw [h.coins]; exact hflags.fresh he hf,
    fun he hd => by rw [h.coins]; exact hflags.clean he hd⟩
  settled hs hnone := by
    rw [h.coins]
    exact hs hnone

theorem sameCoins_copy (hentry : view.cacheCoins.lookup outpoint = none)
    (hbase : view.base.coins.lookup outpoint = some coin) :
    view.SameCoins { view with cacheCoins := view.cacheCoins.insert outpoint ⟨coin.val, false,
      false⟩ } where
  coins := by
    rw [CCoinsViewCache.coins, coinsOver_insert _ _ (unspent?_val coin)]
    apply insert_of_lookup
    rw [lookup_coinsOver, hentry]
    exact hbase
  base := .refl _
  wellFlagged hflags := by
    refine (updatedAt_insert view outpoint _).wellFlagged hflags fun {entry} he => ?_
    cases (lookup_insert _).symm.trans he
    exact ⟨by simp, fun _ => by rw [hbase]; exact unspent?_val coin⟩
  settled := (updatedAt_insert view outpoint _).settled fun hnone =>
    (lookup_insert_ne_none hnone).elim

end CoinsLemmas

open CoinsLemmas

namespace CCoinsViewCache

variable (view : CCoinsViewCache) (outpoint : COutPoint)

/-- `FetchCoin` keeps the coins. The entry it finds is in the cache afterwards and
says whether the view has the coin. -/
theorem fetchCoin_spec :
    view.SameCoins (view.fetchCoin outpoint).1 ∧
    (view.fetchCoin outpoint).1.cacheCoins.lookup outpoint = (view.fetchCoin outpoint).2 ∧
    ((view.fetchCoin outpoint).2.bind fun entry => entry.coin.unspent?) =
      view.coins.lookup outpoint := by
  rw [coins, lookup_coinsOver]
  rcases fetchCoin_cases view outpoint with
    ⟨entry, hentry, hfetch⟩ | ⟨base, hbase, hentry, ⟨hnone, hfetch⟩ | ⟨coin, hcoin, hfetch⟩⟩
  · rw [hfetch, hentry]
    exact ⟨.refl view, rfl, rfl⟩
  · rw [hfetch, hentry, hnone]
    exact ⟨sameCoins_base hbase, rfl, rfl⟩
  · rw [hfetch, hentry, hcoin]
    exact ⟨(sameCoins_copy hentry hcoin).trans (sameCoins_base hbase), lookup_insert _,
      unspent?_val coin⟩

theorem accessCoin_spec :
    view.SameCoins (view.accessCoin outpoint).1 ∧
    (view.accessCoin outpoint).2.unspent? = view.coins.lookup outpoint := by
  obtain ⟨hsame, -, hfound⟩ := fetchCoin_spec view outpoint
  unfold accessCoin
  rcases hfetch : view.fetchCoin outpoint with ⟨view', _ | entry⟩ <;> rw [hfetch] at hsame hfound
  · exact ⟨hsame, hfound⟩
  · exact ⟨hsame, hfound⟩

theorem haveCoin_spec :
    view.SameCoins (view.haveCoin outpoint).1 ∧
    (view.haveCoin outpoint).2 = (view.coins.lookup outpoint).isSome := by
  obtain ⟨hsame, -, hfound⟩ := fetchCoin_spec view outpoint
  unfold haveCoin
  rcases hfetch : view.fetchCoin outpoint with ⟨view', _ | entry⟩ <;>
    rw [hfetch] at hsame hfound <;> rw [← hfound]
  · exact ⟨hsame, rfl⟩
  · refine ⟨hsame, ?_⟩
    cases hspent : entry.coin.isSpent with
    | true => simp [hspent, unspent?_of_isSpent hspent]
    | false => simp [hspent, unspent?_of_unspent hspent]

theorem haveInputsLoop_spec (vin : List CTxIn) :
    view.SameCoins (view.haveInputsLoop vin).1 ∧
    ((view.haveInputsLoop vin).2 = true → ∀ txin ∈ vin,
      (view.coins.lookup txin.prevout).isSome) := by
  induction vin generalizing view with
  | nil => exact ⟨.refl view, by simp⟩
  | cons txin vin ih =>
    obtain ⟨hsame, hhave⟩ := haveCoin_spec view txin.prevout
    unfold haveInputsLoop
    rcases hc : view.haveCoin txin.prevout with ⟨view', _ | _⟩ <;> rw [hc] at hsame hhave
    · exact ⟨hsame, by simp⟩
    · obtain ⟨hsame', hall⟩ := ih view'
      refine ⟨hsame.trans hsame', fun h => ?_⟩
      rw [← hsame.coins]
      rw [← hsame.coins] at hhave
      simpa [← hhave] using hall h

variable {view outpoint} {view' : CCoinsViewCache} {possibleOverwrite : Bool}

section

variable (hflags : view.WellFlagged)
include hflags

theorem spendCoin_spec {coin : Coin} (h : view.spendCoin outpoint = (view', some coin)) :
    view'.coins = view.coins.erase outpoint ∧ coin.unspent? = view.coins.lookup outpoint ∧
    view'.WellFlagged ∧ ∀ {o}, view.Settled o → view'.Settled o := by
  obtain ⟨hsame, hentry, hfound⟩ := fetchCoin_spec view outpoint
  unfold spendCoin at h
  rcases hfetch : view.fetchCoin outpoint with ⟨fetched, _ | entry⟩ <;>
    rw [hfetch] at h hsame hentry hfound <;> dsimp only at h hsame hentry
  · cases h
  have hflags' := hsame.wellFlagged hflags
  rw [← hsame.coins]
  rw [← hsame.coins] at hfound
  split at h
  next hfresh =>
    -- a fresh entry is dropped: the base has no coin under it
    cases h
    have hupd := updatedAt_erase fetched outpoint
    have hbase := hflags'.fresh hentry hfresh
    refine ⟨hupd.coins_erase ?_, hfound, hupd.wellFlagged hflags' fun he => ?_,
      fun hs => hupd.settled (fun _ => hbase) (hsame.settled hs)⟩
    · rw [coins, lookup_coinsOver, lookup_erase]
      exact hbase
    · rw [lookup_erase] at he
      cases he
  next hfresh =>
    cases h
    have hupd := updatedAt_insert fetched outpoint { entry with coin := Coin.empty, dirty := true }
    refine ⟨hupd.coins_erase ?_, hfound, hupd.wellFlagged hflags' fun he => ?_,
      fun hs => hupd.settled (fun hnone => (lookup_insert_ne_none hnone).elim) (hsame.settled hs)⟩
    · rw [coins, lookup_coinsOver, lookup_insert]
      rfl
    · cases (lookup_insert _).symm.trans he
      exact ⟨fun hf => absurd hf hfresh, by simp⟩

/-- The base has no coin where `AddCoin` sets `FRESH`: the flag was set before, or
nothing may be overwritten and the cache has no unspent coin that is not dirty. -/
theorem base_none_of_fresh {entry : CCoinsCacheEntry}
    (hsettled : possibleOverwrite = false → view.Settled outpoint)
    (hentry : (view.cacheCoins.lookup outpoint).getD ⟨Coin.empty, false, false⟩ = entry)
    (hover : ¬ (!possibleOverwrite && !entry.coin.isSpent) = true)
    (hfresh : (entry.fresh || (!possibleOverwrite && !entry.dirty)) = true) :
    view.base.coins.lookup outpoint = none := by
  cases hlookup : view.cacheCoins.lookup outpoint with
  | none =>
    rw [hlookup] at hentry
    subst hentry
    exact hsettled (by simpa using hfresh) hlookup
  | some found =>
    obtain rfl : found = entry := by simpa [hlookup] using hentry
    simp only [or_eq_true, and_eq_true, not_eq_true'] at hfresh hover
    rcases hfresh with hfresh | ⟨hfalse, hclean⟩
    · exact hflags.fresh hlookup hfresh
    · have hspent : found.coin.isSpent = true := by
        by_contra hn
        exact hover ⟨hfalse, Bool.eq_false_iff.mpr hn⟩
      rw [← hflags.clean hlookup hclean]
      exact unspent?_of_isSpent hspent

/-- `AddCoin` inserts the coin unless its script is unspendable. A caller that
says there is nothing to overwrite finds out if there is, where the cache knows. -/
theorem addCoin_spec {coin : Coin} (hsettled : possibleOverwrite = false → view.Settled outpoint)
    (h : view.addCoin outpoint coin possibleOverwrite = some view') :
    (∃ hunspent : coin.isSpent = false,
      view'.coins = if CScript.isUnspendable coin.out.scriptPubKey then view.coins
        else view.coins.insert outpoint ⟨coin, hunspent⟩) ∧
    view'.WellFlagged ∧ ∀ {o}, view.Settled o → view'.Settled o := by
  unfold addCoin at h
  split at h
  next => cases h
  next hspent =>
  have hunspent : coin.isSpent = false := Bool.eq_false_iff.mpr hspent
  split at h
  next hscript =>
    cases h
    exact ⟨⟨hunspent, by rw [if_pos hscript]⟩, hflags, id⟩
  next hscript =>
  dsimp only at h
  split at h
  next => cases h
  next hover =>
    cases h
    have hupd := updatedAt_insert view outpoint ⟨coin, true,
      ((view.cacheCoins.lookup outpoint).getD ⟨Coin.empty, false, false⟩).fresh ||
        (!possibleOverwrite &&
        !((view.cacheCoins.lookup outpoint).getD ⟨Coin.empty, false, false⟩).dirty)⟩
    refine ⟨⟨hunspent, ?_⟩, hupd.wellFlagged hflags fun he => ?_,
      hupd.settled fun hnone => (lookup_insert_ne_none hnone).elim⟩
    · rw [if_neg hscript]
      exact coinsOver_insert _ _ (unspent?_of_unspent hunspent)
    · cases (lookup_insert _).symm.trans he
      exact ⟨base_none_of_fresh hflags hsettled rfl hover, by simp⟩

end

/-! ### What an update leads to -/

/-- `view'` has the given coins over the base of `view`, with right flags. -/
structure LeadsTo (view : CCoinsViewCache) (coins : UtxoSet) (view' : CCoinsViewCache) : Prop where
  coins : view'.coins = coins
  base : view.base.Same view'.base
  wellFlagged : view'.WellFlagged

theorem LeadsTo.refl (hflags : view.WellFlagged) : view.LeadsTo view.coins view :=
  ⟨rfl, .refl _, hflags⟩

theorem LeadsTo.trans {view₁ view₂ : CCoinsViewCache} {coins₁ coins₂ : UtxoSet}
    (h₁ : view.LeadsTo coins₁ view₁)
    (h₂ : view₁.LeadsTo coins₂ view₂) : view.LeadsTo coins₂ view₂ :=
  ⟨h₂.coins, h₁.base.trans h₂.base, h₂.wellFlagged⟩

theorem SameCoins.leadsTo (h : view.SameCoins view') (hflags : view.WellFlagged) :
    view.LeadsTo view.coins view' :=
  ⟨h.coins, h.base, h.wellFlagged hflags⟩

/-- The cache knows of a coin that the view does not have. -/
theorem settled_of_lookup (h : view.coins.lookup outpoint = none) : view.Settled outpoint := by
  intro hentry
  rwa [coins, lookup_coinsOver, hentry] at h

theorem spendCoin_leadsTo (hflags : view.WellFlagged) (outpoint : COutPoint) :
    view.LeadsTo (view.coins.erase outpoint) (view.spendCoin outpoint).1 ∧
      (view.spendCoin outpoint).2.bind Coin.unspent? = view.coins.lookup outpoint := by
  obtain ⟨hsame, _, hfound⟩ := fetchCoin_spec view outpoint
  rcases hspend : view.spendCoin outpoint with ⟨view', coin⟩
  have hbase : view.base.Same view'.base := by
    unfold spendCoin at hspend
    rcases hfetch : view.fetchCoin outpoint with ⟨fetched, _ | entry⟩
    · rw [hfetch] at hspend hsame
      cases hspend
      exact hsame.base
    · rw [hfetch] at hspend hsame
      dsimp only at hspend
      split at hspend
      · cases hspend
        exact hsame.base
      · cases hspend
        exact hsame.base
  cases coin with
  | some coin =>
    obtain ⟨hcoins, hcoin, hflags', _⟩ := spendCoin_spec hflags hspend
    exact ⟨⟨hcoins, hbase, hflags'⟩, hcoin⟩
  | none =>
    unfold spendCoin at hspend
    rcases hfetch : view.fetchCoin outpoint with ⟨fetched, _ | entry⟩
    · rw [hfetch] at hspend hsame hfound
      cases hspend
      have hnone : view.coins.lookup outpoint = none := hfound.symm
      exact ⟨⟨hsame.coins.trans (erase_of_lookup_none hnone).symm, hbase, hsame.wellFlagged hflags⟩,
        hfound⟩
    · rw [hfetch] at hspend
      dsimp only at hspend
      split at hspend
      · cases hspend
      · cases hspend

theorem addCoin_base {coin : Coin} (h : view.addCoin outpoint coin possibleOverwrite = some view') :
    view.base.Same view'.base := by
  unfold addCoin at h
  split at h
  · cases h
  · split at h
    · cases h
      exact .refl _
    · dsimp only at h
      split at h
      · cases h
      · cases h
        exact .refl _

/-- `AddCoin` of a spendable coin that is right about what it overwrites. -/
theorem addCoin_leadsTo (hflags : view.WellFlagged) (coin : UnspentCoin)
    (hscript : CScript.isUnspendable coin.val.out.scriptPubKey = false)
    (hover : possibleOverwrite = false → view.coins.lookup outpoint = none) :
    ∃ view', view.addCoin outpoint coin.val possibleOverwrite = some view' ∧
      view.LeadsTo (view.coins.insert outpoint coin) view' := by
  have hadd : ∃ view', view.addCoin outpoint coin.val possibleOverwrite = some view' := by
    unfold addCoin
    rw [if_neg (Bool.eq_false_iff.mp coin.property), if_neg (Bool.eq_false_iff.mp hscript)]
    rw [if_neg]
    · exact ⟨_, rfl⟩
    · intro h
      rw [and_eq_true, not_eq_true', not_eq_true'] at h
      have hnone := hover h.1
      rw [coins, lookup_coinsOver] at hnone
      cases hentry : view.cacheCoins.lookup outpoint with
      | none =>
        rw [hentry] at h
        cases h.2
      | some entry =>
        rw [hentry] at h hnone
        have hsome : entry.coin.unspent? = some ⟨entry.coin, h.2⟩ := unspent?_of_unspent h.2
        cases hnone.symm.trans hsome
  obtain ⟨view', hadd⟩ := hadd
  obtain ⟨⟨_, hcoins⟩, hflags', _⟩ :=
    addCoin_spec hflags (fun h => settled_of_lookup (hover h)) hadd
  rw [if_neg (Bool.eq_false_iff.mp hscript)] at hcoins
  exact ⟨view', hadd, hcoins, addCoin_base hadd, hflags'⟩

end CCoinsViewCache

end Bitcoboost
