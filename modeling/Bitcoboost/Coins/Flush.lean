import Bitcoboost.Coins.Coins

/-!
# Stacks of caches

`BatchWrite`, `Flush`, `Sync` and `Uncache` of `CCoinsViewCache`. Whatever is done to the top of
a stack of caches, it reads as one map of unspent coins, and what is written to the view below
is that map. A cache is written in the order of its hash table: any enumeration of the entries.
-/

namespace Bitcoboost

open FiniteMap CoinsLemmas CCoinsViewCache List Finmap

/-! ## The code -/

structure Enumerates (order : List (COutPoint × CCoinsCacheEntry))
    (cacheCoins : CCoinsMap) : Prop where
  nodup : (order.map Prod.fst).Nodup
  mem : ∀ outpoint entry, (outpoint, entry) ∈ order ↔ cacheCoins.lookup outpoint = some entry

variable (cacheCoins : CCoinsMap)

/-- The body of the loop of `CCoinsViewCache::BatchWrite`. `none` is the `logic_error`. -/
def batchWriteEntry (outpoint : COutPoint) (entry : CCoinsCacheEntry) : Option CCoinsMap :=
  if !entry.dirty then some cacheCoins
  else
    match cacheCoins.lookup outpoint with
    | none =>
      if entry.fresh && entry.coin.isSpent then some cacheCoins
      else some (cacheCoins.insert outpoint ⟨entry.coin, true, entry.fresh⟩)
    | some itUs =>
      -- the coin was marked fresh, but it exists in the parent
      if entry.fresh && !itUs.coin.isSpent then none
      else if itUs.fresh && entry.coin.isSpent then some (cacheCoins.erase outpoint)
      else some (cacheCoins.insert outpoint ⟨entry.coin, true, itUs.fresh⟩)

def batchWriteLoop (order : List (COutPoint × CCoinsCacheEntry)) : Option CCoinsMap :=
  order.foldlM (fun cacheCoins e => batchWriteEntry cacheCoins e.1 e.2) cacheCoins

/-- What a write of one entry does to a map of unspent coins: the body of the loop of
`CCoinsViewDB::BatchWrite`. -/
def writeEntry (coins : UtxoSet) (outpoint : COutPoint) (entry : CCoinsCacheEntry) : UtxoSet :=
  if entry.dirty then
    match entry.coin.unspent? with
    | none => coins.erase outpoint
    | some coin => coins.insert outpoint coin
  else coins

def CCoinsView.batchWrite (view : CCoinsView) (order : List (COutPoint × CCoinsCacheEntry))
    (hashBlock : Uint256) : Option CCoinsView :=
  match view with
  | db coins _ => some (db (order.foldl (fun coins e => writeEntry coins e.1 e.2) coins) hashBlock)
  | cache cacheCoins _ base => (batchWriteLoop cacheCoins order).map fun cacheCoins =>
      cache cacheCoins hashBlock base

namespace CCoinsViewCache

variable (view : CCoinsViewCache)

/-- `GetCoin`: the view after the call and the coin, if it returns true. -/
def getCoin (outpoint : COutPoint) : CCoinsViewCache × Option Coin :=
  match view.fetchCoin outpoint with
  | (view, none) => (view, none)
  | (view, some entry) => (view, if !entry.coin.isSpent then some entry.coin else none)

/-- `Flush`, with the entries in the order that the cache has them. -/
def flush (order : List (COutPoint × CCoinsCacheEntry)) : Option CCoinsViewCache := do
  let base ← view.base.batchWrite order view.hashBlock
  some ⟨∅, view.hashBlock, base⟩

/-- `Sync`, with the entries in the order that the cache has them. -/
def sync (order : List (COutPoint × CCoinsCacheEntry)) : Option CCoinsViewCache := do
  let base ← view.base.batchWrite order view.hashBlock
  let cacheCoins := filterMap (fun entry : CCoinsCacheEntry =>
    if entry.coin.isSpent then none else some ⟨entry.coin, false, false⟩) view.cacheCoins
  some ⟨cacheCoins, view.hashBlock, base⟩

def uncache (outpoint : COutPoint) : CCoinsViewCache :=
  match view.cacheCoins.lookup outpoint with
  | some entry =>
    if !entry.dirty && !entry.fresh then { view with cacheCoins := view.cacheCoins.erase outpoint }
    else view
  | none => view

end CCoinsViewCache

/-! ## What the entries mean -/

/-- An entry is right over what the view below has: nothing under a fresh entry, the
same under one that is not dirty. A spent entry is cleared. -/
structure CCoinsCacheEntry.RightOver (entry : CCoinsCacheEntry)
    (below : Option UnspentCoin) : Prop where
  fresh : entry.fresh = true → below = none
  clean : entry.dirty = false → entry.coin.unspent? = below
  cleared : entry.coin.isSpent = true → entry.coin = Coin.empty

def RightOver (baseCoins : UtxoSet) : Prop :=
  ∀ outpoint entry, cacheCoins.lookup outpoint = some entry →
    entry.RightOver (baseCoins.lookup outpoint)

def CCoinsView.Consistent : CCoinsView → Prop
  | db _ _ => True
  | cache cacheCoins _ base => RightOver cacheCoins base.coins ∧ base.Consistent

structure CCoinsViewCache.Consistent (view : CCoinsViewCache) : Prop where
  entries : RightOver view.cacheCoins view.base.coins
  base : view.base.Consistent

theorem CCoinsViewCache.Consistent.wellFlagged {view : CCoinsViewCache} (h : view.Consistent) :
    view.WellFlagged :=
  ⟨fun he hfresh => (h.entries _ _ he).fresh hfresh, fun he hclean =>
    (h.entries _ _ he).clean hclean⟩

namespace FlushLemmas

theorem exists_enumerates : ∃ order, Enumerates order cacheCoins := by
  induction cacheCoins using induction_on with
  | H s =>
    refine ⟨s.entries.map fun e => (e.1, e.2), ?_, fun outpoint entry => ?_⟩
    · rw [map_map]
      exact s.nodupKeys
    · rw [lookup_toFinmap, ← Option.mem_def, AList.mem_lookup_iff, mem_map]
      constructor
      · rintro ⟨e, he, heq⟩
        cases heq
        exact he
      · exact fun he => ⟨_, he, rfl⟩

variable {cacheCoins : CCoinsMap} {baseCoins coins : UtxoSet} {outpoint : COutPoint}
  {entry : CCoinsCacheEntry}

theorem rightOver_insert (h : RightOver cacheCoins baseCoins)
    (hentry : entry.RightOver (baseCoins.lookup outpoint)) :
    RightOver (cacheCoins.insert outpoint entry) baseCoins := by
  intro o e he
  by_cases ho : o = outpoint
  · subst ho
    cases (lookup_insert _).symm.trans he
    exact hentry
  · exact h o e ((lookup_insert_of_ne _ ho).symm.trans he)

theorem rightOver_erase (h : RightOver cacheCoins baseCoins) :
    RightOver (cacheCoins.erase outpoint) baseCoins := by
  intro o e he
  by_cases ho : o = outpoint
  · subst ho
    rw [lookup_erase] at he
    cases he
  · exact h o e ((lookup_erase_ne ho).symm.trans he)

theorem lookup_coinsOver_insert (o : COutPoint) :
    (coinsOver (cacheCoins.insert outpoint entry) baseCoins).lookup o =
      if o = outpoint then entry.coin.unspent? else (coinsOver cacheCoins baseCoins).lookup o := by
  by_cases ho : o = outpoint
  · subst ho
    rw [lookup_coinsOver, lookup_insert, if_pos rfl]
    rfl
  · rw [lookup_coinsOver, lookup_insert_of_ne _ ho, if_neg ho, lookup_coinsOver]

theorem lookup_coinsOver_erase (o : COutPoint) :
    (coinsOver (cacheCoins.erase outpoint) baseCoins).lookup o =
      if o = outpoint then baseCoins.lookup o else (coinsOver cacheCoins baseCoins).lookup o := by
  by_cases ho : o = outpoint
  · subst ho
    rw [lookup_coinsOver, lookup_erase, if_pos rfl]
    rfl
  · rw [lookup_coinsOver, lookup_erase_ne ho, if_neg ho, lookup_coinsOver]

/-! ## Writing one entry -/

/-- `BatchWrite` of one entry that is right over the coins of the parent: the parent
has its coin afterwards, and its own entries are right. -/
theorem batchWriteEntry_spec (hflags : RightOver cacheCoins baseCoins)
    (hentry : entry.RightOver ((coinsOver cacheCoins baseCoins).lookup outpoint)) :
    ∃ cacheCoins', batchWriteEntry cacheCoins outpoint entry = some cacheCoins' ∧
    RightOver cacheCoins' baseCoins ∧
      ∀ o, (coinsOver cacheCoins' baseCoins).lookup o =
        if o = outpoint then entry.coin.unspent?
          else (coinsOver cacheCoins baseCoins).lookup o := by
  unfold batchWriteEntry
  rw [lookup_coinsOver] at hentry
  cases hdirty : entry.dirty with
  | false =>
    refine ⟨cacheCoins, rfl, hflags, fun o => ?_⟩
    split
    · next ho => rw [ho, hentry.clean hdirty, lookup_coinsOver]
    · rfl
  | true =>
    cases hus : cacheCoins.lookup outpoint with
    | none =>
      rw [hus] at hentry
      simp only [Bool.not_true, Bool.false_eq_true, if_false]
      split
      · next hdrop =>
        rw [Bool.and_eq_true] at hdrop
        refine ⟨cacheCoins, rfl, hflags, fun o => ?_⟩
        split
        · next ho =>
          rw [ho, lookup_coinsOver, hus, unspent?_of_isSpent hdrop.2]
          exact hentry.fresh hdrop.1
        · rfl
      · exact ⟨_, rfl, rightOver_insert hflags ⟨hentry.fresh, by simp, hentry.cleared⟩,
          lookup_coinsOver_insert⟩
    | some itUs =>
      rw [hus] at hentry
      have hitUs := hflags outpoint itUs hus
      dsimp only
      have hthrow : (entry.fresh && !itUs.coin.isSpent) = false := by
        cases hfresh : entry.fresh with
        | false => rfl
        | true =>
          have hspent := hentry.fresh hfresh
          cases hs : itUs.coin.isSpent with
          | true => rfl
          | false => simp [unspent?_of_unspent hs] at hspent
      rw [hthrow]
      simp only [Bool.not_true, Bool.false_eq_true, if_false]
      split
      · next herase =>
        rw [Bool.and_eq_true] at herase
        refine ⟨_, rfl, rightOver_erase hflags, fun o => ?_⟩
        rw [lookup_coinsOver_erase]
        split
        · next ho => rw [ho, hitUs.fresh herase.1, unspent?_of_isSpent herase.2]
        · rfl
      · exact ⟨_, rfl, rightOver_insert hflags ⟨hitUs.fresh, by simp, hentry.cleared⟩,
          lookup_coinsOver_insert⟩

theorem lookup_writeEntry
    (hclean : entry.dirty = false → entry.coin.unspent? = coins.lookup outpoint) (o : COutPoint) :
    (writeEntry coins outpoint entry).lookup o = if o = outpoint then entry.coin.unspent?
    else coins.lookup o := by
  unfold writeEntry
  split
  · cases hcoin : entry.coin.unspent? with
    | none =>
      by_cases ho : o = outpoint
      · subst ho
        rw [if_pos rfl, lookup_erase]
      · rw [if_neg ho, lookup_erase_ne ho]
    | some coin =>
      by_cases ho : o = outpoint
      · subst ho
        rw [if_pos rfl, lookup_insert]
      · rw [if_neg ho, lookup_insert_of_ne _ ho]
  · next hdirty =>
    split
    · next ho => rw [ho, hclean (Bool.eq_false_iff.mpr hdirty)]
    · rfl

/-! ## Writing a cache -/

variable {order : List (COutPoint × CCoinsCacheEntry)}

/-- A loop of writes, one after the other, of entries for different outpoints that are
right over what was there before: all of them are written, and nothing else changes. -/
theorem writeLoop_spec {σ : Type} (coins : σ → UtxoSet) (Inv : σ → Prop)
    (Right : CCoinsCacheEntry → Option UnspentCoin → Prop)
    {write : σ → COutPoint → CCoinsCacheEntry → Option σ}
    (hwrite : ∀ s outpoint entry, Inv s → Right entry ((coins s).lookup outpoint) →
      ∃ s', write s outpoint entry = some s' ∧ Inv s' ∧
        ∀ o, (coins s').lookup o = if o = outpoint then entry.coin.unspent? else (coins s).lookup o)
    (hnodup : (order.map Prod.fst).Nodup) {s : σ} (hinv : Inv s)
    (hright : ∀ outpoint entry, (outpoint, entry) ∈ order →
      Right entry ((coins s).lookup outpoint)) :
    ∃ s', order.foldlM (fun s e => write s e.1 e.2) s = some s' ∧ Inv s' ∧
      (∀ outpoint entry, (outpoint, entry) ∈ order →
        (coins s').lookup outpoint = entry.coin.unspent?) ∧
      ∀ outpoint, outpoint ∉ order.map Prod.fst →
        (coins s').lookup outpoint = (coins s).lookup outpoint := by
  induction order generalizing s with
  | nil => exact ⟨s, rfl, hinv, fun _ _ h => (by cases h), fun _ _ => rfl⟩
  | cons first order ih =>
    obtain ⟨outpoint, entry⟩ := first
    obtain ⟨hout, hnodup⟩ := List.nodup_cons.mp hnodup
    obtain ⟨s₁, hs₁, hinv₁, hlookup₁⟩ := hwrite s outpoint entry hinv (hright _ _ mem_cons_self)
    -- the other entries are for other outpoints
    have hne {o : COutPoint} {e : CCoinsCacheEntry} (h : (o, e) ∈ order) : o ≠ outpoint := by
      rintro rfl
      exact hout (List.mem_map.mpr ⟨_, h, rfl⟩)
    have hright₁ (o : COutPoint) (e : CCoinsCacheEntry) (h : (o, e) ∈ order) :
        Right e ((coins s₁).lookup o) := by
      rw [hlookup₁, if_neg (hne h)]
      exact hright o e (mem_cons_of_mem _ h)
    obtain ⟨s', hs', hinv', hin, hnotin⟩ := ih hnodup hinv₁ hright₁
    refine ⟨s', ?_, hinv', fun o e h => ?_, fun o h => ?_⟩
    · rw [foldlM_cons, hs₁]
      exact hs'
    · cases h with
      | head => rw [hnotin outpoint hout, hlookup₁, if_pos rfl]
      | tail _ h => exact hin o e h
    · rw [map_cons, mem_cons, not_or] at h
      rw [hnotin o h.2, hlookup₁, if_neg h.1]

theorem foldlM_some {σ α : Type} (f : σ → α → σ) (l : List α) (s : σ) :
    l.foldlM (fun s a => some (f s a)) s = some (l.foldl f s) := by
  induction l generalizing s with
  | nil => rfl
  | cons a l ih => exact ih (f s a)

/-- What a loop of writes leaves is the cache laid over what was there. -/
theorem eq_coinsOver (horder : Enumerates order cacheCoins)
    (hin : ∀ outpoint entry, (outpoint, entry) ∈ order →
      coins.lookup outpoint = entry.coin.unspent?)
    (hnotin : ∀ outpoint, outpoint ∉ order.map Prod.fst → coins.lookup outpoint =
    baseCoins.lookup outpoint) : coins = coinsOver cacheCoins baseCoins := by
  refine ext_lookup fun o => ?_
  rw [lookup_coinsOver]
  cases hentry : cacheCoins.lookup o with
  | some entry => exact hin o entry ((horder.mem o entry).mpr hentry)
  | none =>
    refine hnotin o fun h => ?_
    obtain ⟨⟨_, entry⟩, hmem, rfl⟩ := List.mem_map.mp h
    rw [(horder.mem _ entry).mp hmem] at hentry
    cases hentry

/-- The loop of `CCoinsViewDB::BatchWrite`. -/
theorem foldl_writeEntry (horder : Enumerates order cacheCoins)
    (hclean : ∀ outpoint entry, cacheCoins.lookup outpoint = some entry → entry.dirty = false →
      entry.coin.unspent? = baseCoins.lookup outpoint) :
    order.foldl (fun coins e => writeEntry coins e.1 e.2) baseCoins =
      coinsOver cacheCoins baseCoins := by
  obtain ⟨coins, hloop, _, hin, hnotin⟩ := writeLoop_spec id (fun _ => True)
    (fun entry below => entry.dirty = false → entry.coin.unspent? = below)
    (fun coins outpoint entry _ h => ⟨_, rfl, trivial, lookup_writeEntry h⟩) horder.nodup trivial
    fun outpoint entry h => hclean outpoint entry ((horder.mem outpoint entry).mp h)
  rw [foldlM_some] at hloop
  obtain rfl := Option.some.inj hloop
  exact eq_coinsOver horder hin hnotin

end FlushLemmas

open FlushLemmas

variable {cacheCoins : CCoinsMap}

/-- `BatchWrite` of a cache whose entries are right over the view: no entry is
misapplied, and the view has the coins of the cache over it. -/
theorem batchWrite_spec {view : CCoinsView} (hview : view.Consistent)
    (hright : RightOver cacheCoins view.coins) {order : List (COutPoint × CCoinsCacheEntry)}
    (horder : Enumerates order cacheCoins) (hashBlock : Uint256) :
    ∃ view', view.batchWrite order hashBlock = some view' ∧ view'.Consistent ∧
      view'.coins = coinsOver cacheCoins view.coins := by
  cases view with
  | db coins hash =>
    have hwritten := foldl_writeEntry horder fun outpoint entry h => (hright outpoint entry h).clean
    exact ⟨_, rfl, trivial, hwritten⟩
  | cache parentCoins hash base =>
    obtain ⟨parentCoins', hloop, hparent, hin, hnotin⟩ :=
        writeLoop_spec (coinsOver · base.coins) (RightOver · base.coins)
      CCoinsCacheEntry.RightOver (fun _ _ _ => batchWriteEntry_spec) horder.nodup hview.1
      fun outpoint entry h => hright outpoint entry ((horder.mem outpoint entry).mp h)
    refine ⟨.cache parentCoins' hashBlock base, ?_, ⟨hparent, hview.2⟩,
      eq_coinsOver horder hin hnotin⟩
    rw [CCoinsView.batchWrite, batchWriteLoop, hloop]
    rfl

/-! ## Calls -/

def CCoinsViewCache.toView (view : CCoinsViewCache) : CCoinsView :=
  .cache view.cacheCoins view.hashBlock view.base

/-- The calls on the top of a stack. -/
inductive CoinsCall where
  | getCoin (outpoint : COutPoint)
  | haveCoin (outpoint : COutPoint)
  | accessCoin (outpoint : COutPoint)
  | addCoin (outpoint : COutPoint) (coin : UnspentCoin) (possibleOverwrite : Bool)
  | spendCoin (outpoint : COutPoint)
  | uncache (outpoint : COutPoint)
  | flush
  | sync
deriving DecidableEq

/-- What a call answers. Only reads do. -/
inductive CoinsAnswer where
  | coin (coin : Option Coin)
  | have (found : Bool)
  | access (coin : Coin)
  | done
deriving DecidableEq

/-- A call on a view, with the view that it leaves and its answer. `none` is an
exception. -/
inductive CoinsStep (view : CCoinsViewCache) :
    CoinsCall → Option (CCoinsViewCache × CoinsAnswer) → Prop
  | getCoin (outpoint) : CoinsStep view (.getCoin outpoint)
      (some ((view.getCoin outpoint).1, .coin (view.getCoin outpoint).2))
  | haveCoin (outpoint) : CoinsStep view (.haveCoin outpoint)
      (some ((view.haveCoin outpoint).1, .have (view.haveCoin outpoint).2))
  | accessCoin (outpoint) : CoinsStep view (.accessCoin outpoint)
      (some ((view.accessCoin outpoint).1, .access (view.accessCoin outpoint).2))
  | addCoin (outpoint coin possibleOverwrite) :
      CoinsStep view (.addCoin outpoint coin possibleOverwrite)
      ((view.addCoin outpoint coin.val possibleOverwrite).map (·, .done))
  | spendCoin (outpoint) :
      CoinsStep view (.spendCoin outpoint) (some ((view.spendCoin outpoint).1, .done))
  | uncache (outpoint) : CoinsStep view (.uncache outpoint) (some (view.uncache outpoint, .done))
  | flush {order} (horder : Enumerates order view.cacheCoins) :
      CoinsStep view .flush ((view.flush order).map (·, .done))
  | sync {order} (horder : Enumerates order view.cacheCoins) :
      CoinsStep view .sync ((view.sync order).map (·, .done))

def plainCall (coins : UtxoSet) : CoinsCall → UtxoSet × CoinsAnswer
  | .getCoin outpoint => (coins, .coin ((coins.lookup outpoint).map Subtype.val))
  | .haveCoin outpoint => (coins, .have (coins.lookup outpoint).isSome)
  | .accessCoin outpoint => (coins, .access ((coins.lookup outpoint).elim Coin.empty Subtype.val))
  | .addCoin outpoint coin _ =>
    (if CScript.isUnspendable coin.val.out.scriptPubKey then coins
      else coins.insert outpoint coin, .done)
  | .spendCoin outpoint => (coins.erase outpoint, .done)
  | .uncache _ | .flush | .sync => (coins, .done)

/-- `AddCoin` is told that there is nothing to overwrite only where there is nothing. -/
def ProperCall (coins : UtxoSet) : CoinsCall → Prop
  | .addCoin outpoint _ possibleOverwrite => possibleOverwrite = false →
      coins.lookup outpoint = none
  | _ => True

/-- The stacks of caches over a map: made of empty caches, with calls on the top
before the next one is put over it. -/
inductive CoinsStack : CCoinsViewCache → Prop
  | base (coins : UtxoSet) (hashBlock hashBlock' : Uint256) :
      CoinsStack ⟨∅, hashBlock', .db coins hashBlock⟩
  | push {view : CCoinsViewCache} (hashBlock : Uint256) : CoinsStack view →
      CoinsStack ⟨∅, hashBlock, view.toView⟩
  | call {view view' : CCoinsViewCache} {call : CoinsCall} {answer : CoinsAnswer} :
      CoinsStack view →
      ProperCall view.coins call → CoinsStep view call (some (view', answer)) → CoinsStack view'

/-- A sequence of calls on the top of a stack. -/
inductive CoinsRun : CCoinsViewCache → List CoinsCall →
    Option (CCoinsViewCache × List CoinsAnswer) → Prop
  | nil (view) : CoinsRun view [] (some (view, []))
  | fail {view call calls} : CoinsStep view call none → CoinsRun view (call :: calls) none
  | cons {view view' call calls answer result} : CoinsStep view call (some (view', answer)) →
      CoinsRun view' calls result →
      CoinsRun view (call :: calls) (result.map fun (view, answers) => (view, answer :: answers))

def plainRun (coins : UtxoSet) : List CoinsCall → UtxoSet × List CoinsAnswer
  | [] => (coins, [])
  | call :: calls =>
    let (coins, answer) := plainCall coins call
    let (coins, answers) := plainRun coins calls
    (coins, answer :: answers)

def ProperCalls : UtxoSet → List CoinsCall → Prop
  | _, [] => True
  | coins, call :: calls => ProperCall coins call ∧ ProperCalls (plainCall coins call).1 calls

namespace FlushLemmas

variable {view : CCoinsViewCache} {outpoint : COutPoint} {calls : List CoinsCall}
  {coin : UnspentCoin} {call : CoinsCall}

theorem consistent_toView : view.toView.Consistent ↔ view.Consistent :=
  ⟨fun h => ⟨h.1, h.2⟩, fun h => ⟨h.entries, h.base⟩⟩

theorem rightOver_copy {baseCoins : UtxoSet}
    (h : RightOver cacheCoins baseCoins) (hbase : baseCoins.lookup outpoint = some coin) :
    RightOver (cacheCoins.insert outpoint ⟨coin.val, false, false⟩) baseCoins := by
  refine rightOver_insert h ⟨fun hf => (by cases hf), fun _ => ?_, fun hspent => ?_⟩
  · rw [hbase]
    exact unspent?_val coin
  · rw [coin.property] at hspent
    cases hspent

theorem getCoin_consistent {view : CCoinsView} (h : view.Consistent) (outpoint : COutPoint) :
    (view.getCoin outpoint).1.Consistent := by
  induction view with
  | db coins hashBlock => trivial
  | cache cacheCoins hashBlock base ih =>
    obtain ⟨hcoins, hanswer⟩ := getCoin_spec base outpoint
    rw [CCoinsView.getCoin]
    rcases fetch_cases cacheCoins hcoins hanswer with
      ⟨entry, _, hfetch⟩ | ⟨_, _, hfetch⟩ | ⟨_, coin, hbase, hfetch⟩
    · rw [hfetch]
      exact h
    · rw [hfetch]
      exact ⟨hcoins ▸ h.1, ih h.2⟩
    · rw [hfetch]
      exact ⟨hcoins ▸ rightOver_copy h.1 hbase, ih h.2⟩

theorem toView_fetchCoin (view : CCoinsViewCache) (outpoint : COutPoint) :
    (view.fetchCoin outpoint).1.toView = (view.toView.getCoin outpoint).1 := by
  unfold fetchCoin toView
  rw [CCoinsView.getCoin]
  rcases fetch view.cacheCoins view.base (view.base.getCoin outpoint) outpoint with ⟨cacheCoins,
    base, _ | entry⟩
  · rfl
  · rfl

/-- A coin that is read as spent is not in the map. -/
theorem lookup_eq_none {coins : UtxoSet}
    (h : ((coins.lookup outpoint).elim Coin.empty Subtype.val).isSpent = true) :
    coins.lookup outpoint = none := by
  cases hcoin : coins.lookup outpoint with
  | none => rfl
  | some coin =>
    rw [hcoin, Option.elim_some, coin.property] at h
    cases h

theorem haveCoin_view (view : CCoinsViewCache) (outpoint : COutPoint) :
    (view.haveCoin outpoint).1 = (view.fetchCoin outpoint).1 := by
  unfold haveCoin
  rcases view.fetchCoin outpoint with ⟨view', _ | entry⟩
  · rfl
  · rfl

theorem coinsOver_empty (baseCoins : UtxoSet) : coinsOver ∅ baseCoins = baseCoins := by
  refine ext_lookup fun o => ?_
  rw [lookup_coinsOver, lookup_empty]
  rfl

theorem rightOver_empty (baseCoins : UtxoSet) : RightOver ∅ baseCoins := by
  intro o e he
  cases he

section

variable (h : view.Consistent) (outpoint : COutPoint)
include h

theorem fetchCoin_consistent : (view.fetchCoin outpoint).1.Consistent := by
  rw [← consistent_toView, toView_fetchCoin]
  exact getCoin_consistent (consistent_toView.mpr h) outpoint

/-- What a read finds: the coin of the view, or an entry that is cleared or absent. -/
theorem fetchCoin_found :
    (view.fetchCoin outpoint).2.elim Coin.empty CCoinsCacheEntry.coin =
      (view.coins.lookup outpoint).elim Coin.empty Subtype.val := by
  obtain ⟨_, hentry, hfound⟩ := view.fetchCoin_spec outpoint
  cases hfetch : (view.fetchCoin outpoint).2 with
  | none =>
    rw [hfetch] at hfound
    rw [← hfound]
    rfl
  | some entry =>
    rw [hfetch] at hentry hfound
    rw [← hfound, Option.bind_some]
    cases hspent : entry.coin.isSpent with
    | true =>
      rw [unspent?_of_isSpent hspent]
      exact ((fetchCoin_consistent h outpoint).entries _ _ hentry).cleared hspent
    | false =>
      rw [unspent?_of_unspent hspent]
      rfl

theorem getCoin_answer :
    (view.getCoin outpoint).1 = (view.fetchCoin outpoint).1 ∧
    (view.getCoin outpoint).2 = (view.coins.lookup outpoint).map Subtype.val := by
  have hfound := fetchCoin_found h outpoint
  unfold getCoin
  rcases hfetch : view.fetchCoin outpoint with ⟨view', _ | entry⟩ <;> rw [hfetch] at hfound
  · rw [lookup_eq_none (hfound ▸ rfl)]
    exact ⟨rfl, rfl⟩
  · refine ⟨rfl, ?_⟩
    dsimp only [Option.elim_some] at hfound ⊢
    cases hspent : entry.coin.isSpent with
    | true =>
      rw [lookup_eq_none (hfound ▸ hspent)]
      rfl
    | false =>
      cases hcoin : view.coins.lookup outpoint with
      | none =>
        rw [hcoin] at hfound
        rw [hfound] at hspent
        cases hspent
      | some coin =>
        rw [hcoin] at hfound
        rw [hfound]
        rfl

theorem accessCoin_answer :
    (view.accessCoin outpoint).1 = (view.fetchCoin outpoint).1 ∧
    (view.accessCoin outpoint).2 = (view.coins.lookup outpoint).elim Coin.empty Subtype.val := by
  have hfound := fetchCoin_found h outpoint
  unfold accessCoin
  rcases hfetch : view.fetchCoin outpoint with ⟨view', _ | entry⟩ <;> rw [hfetch] at hfound
  · exact ⟨rfl, hfound⟩
  · exact ⟨rfl, hfound⟩

theorem spendCoin_consistent :
    (view.spendCoin outpoint).1.Consistent ∧ (view.spendCoin outpoint).1.coins =
      view.coins.erase outpoint := by
  have hfetched := fetchCoin_consistent h outpoint
  have hfound := fetchCoin_found h outpoint
  obtain ⟨hsame, _, _⟩ := view.fetchCoin_spec outpoint
  rcases hfetch : view.fetchCoin outpoint with ⟨fetched, _ | entry⟩ <;>
    rw [hfetch] at hfetched hfound hsame
  · have hspend : view.spendCoin outpoint = (fetched, none) := by rw [spendCoin, hfetch]
    rw [hspend, erase_of_lookup_none (lookup_eq_none (hfound ▸ rfl))]
    exact ⟨hfetched, hsame.coins⟩
  · obtain ⟨view', hspend⟩ : ∃ view', view.spendCoin outpoint = (view', some entry.coin) := by
      rw [spendCoin, hfetch]
      dsimp only
      split
      · exact ⟨_, rfl⟩
      · exact ⟨_, rfl⟩
    refine ⟨?_, by rw [hspend]; exact (spendCoin_spec h.wellFlagged hspend).1⟩
    rw [spendCoin, hfetch]
    dsimp only
    split
    · exact ⟨rightOver_erase hfetched.entries, hfetched.base⟩
    · next hfresh =>
      exact ⟨rightOver_insert hfetched.entries ⟨fun hf => absurd hf hfresh, fun hd => (by cases hd),
        fun _ => rfl⟩, hfetched.base⟩

/-- `AddCoin` where it may: nothing is thrown. -/
theorem addCoin_consistent {possibleOverwrite : Bool}
    (hproper : possibleOverwrite = false → view.coins.lookup outpoint = none) :
    ∃ view', view.addCoin outpoint coin.val possibleOverwrite = some view' ∧ view'.Consistent ∧
      view'.coins = if CScript.isUnspendable coin.val.out.scriptPubKey then view.coins
        else view.coins.insert outpoint coin := by
  have hlookup := lookup_coinsOver view.cacheCoins view.base.coins outpoint
  rw [← coins] at hlookup
  have hsettled : possibleOverwrite = false → view.Settled outpoint := by
    intro hover hnone
    rw [hproper hover, hnone] at hlookup
    exact hlookup.symm
  have hover : ¬ (!possibleOverwrite &&
      !((view.cacheCoins.lookup outpoint).getD ⟨Coin.empty, false, false⟩).coin.isSpent) =
      true := by
    rw [Bool.and_eq_true, Bool.not_eq_true', Bool.not_eq_true']
    rintro ⟨hfalse, hunspent⟩
    cases hentry : view.cacheCoins.lookup outpoint with
    | none => rw [hentry] at hunspent; cases hunspent
    | some entry =>
      rw [hentry, Option.getD_some] at hunspent
      rw [hproper hfalse, hentry, Option.elim_some, unspent?_of_unspent hunspent] at hlookup
      cases hlookup
  by_cases hscript : CScript.isUnspendable coin.val.out.scriptPubKey = true
  · refine ⟨view, ?_, h, (if_pos hscript).symm⟩
    rw [addCoin, if_neg (by rw [coin.property]; exact Bool.false_ne_true), if_pos hscript]
  · have hadd : ∃ entry : CCoinsCacheEntry, entry.coin = coin.val ∧ entry.dirty = true ∧
        (entry.fresh = true → view.base.coins.lookup outpoint = none) ∧
        view.addCoin outpoint coin.val possibleOverwrite =
          some { view with cacheCoins := view.cacheCoins.insert outpoint entry } := by
      refine ⟨⟨_, _, _⟩, rfl, rfl, base_none_of_fresh h.wellFlagged hsettled rfl hover, ?_⟩
      rw [addCoin, if_neg (by rw [coin.property]; exact Bool.false_ne_true), if_neg hscript]
      exact if_neg hover
    obtain ⟨entry, hcoin, hdirty, hfresh, hadd⟩ := hadd
    refine ⟨_, hadd, ⟨rightOver_insert h.entries ⟨hfresh, fun hd => ?_, fun hspent => ?_⟩, h.base⟩,
      ?_⟩
    · rw [hdirty] at hd
      cases hd
    · rw [hcoin, coin.property] at hspent
      cases hspent
    · rw [if_neg hscript]
      exact coinsOver_insert _ _ (hcoin ▸ unspent?_val coin)

theorem uncache_consistent :
    (view.uncache outpoint).Consistent ∧ (view.uncache outpoint).coins = view.coins := by
  unfold uncache
  cases hentry : view.cacheCoins.lookup outpoint with
  | none => exact ⟨h, rfl⟩
  | some entry =>
    dsimp only
    split
    · next hflags =>
      rw [Bool.and_eq_true, Bool.not_eq_true', Bool.not_eq_true'] at hflags
      refine ⟨⟨rightOver_erase h.entries, h.base⟩, ext_lookup fun o => ?_⟩
      rw [coins, lookup_coinsOver_erase]
      split
      · next ho =>
        rw [ho, coins, lookup_coinsOver, hentry]
        exact ((h.entries _ _ hentry).clean hflags.1).symm
      · rfl
    · exact ⟨h, rfl⟩

variable {order : List (COutPoint × CCoinsCacheEntry)}

theorem flush_consistent (horder : Enumerates order view.cacheCoins) :
    ∃ view', view.flush order = some view' ∧ view'.Consistent ∧ view'.coins = view.coins ∧
      view'.base.coins = view.coins := by
  obtain ⟨base, hwrite, hbase, hcoins⟩ := batchWrite_spec h.base h.entries horder view.hashBlock
  refine ⟨⟨∅, view.hashBlock, base⟩, ?_, ⟨rightOver_empty _, hbase⟩,
    (coinsOver_empty _).trans hcoins, hcoins⟩
  rw [flush, hwrite]
  rfl

theorem sync_consistent (horder : Enumerates order view.cacheCoins) :
    ∃ view', view.sync order = some view' ∧ view'.Consistent ∧ view'.coins = view.coins ∧
      view'.base.coins = view.coins := by
  obtain ⟨base, hwrite, hbase, hcoins⟩ := batchWrite_spec h.base h.entries horder view.hashBlock
  obtain ⟨kept, hkept⟩ : ∃ kept, kept = filterMap (fun entry : CCoinsCacheEntry =>
    if entry.coin.isSpent then none else some (⟨entry.coin, false, false⟩ : CCoinsCacheEntry))
    view.cacheCoins := ⟨_, rfl⟩
  -- an entry that is kept is what the base has now
  have hentry (o : COutPoint) (e : CCoinsCacheEntry) (he : kept.lookup o = some e) :
      e.coin.isSpent = false ∧ e.fresh = false ∧ e.coin.unspent? = base.coins.lookup o := by
    rw [hkept, lookup_filterMap, Option.bind_eq_some_iff] at he
    obtain ⟨entry, hentry, he⟩ := he
    split at he
    · cases he
    · next hspent =>
      cases he
      rw [hcoins, lookup_coinsOver, hentry]
      exact ⟨Bool.eq_false_iff.mpr hspent, rfl, rfl⟩
  refine ⟨⟨kept, view.hashBlock, base⟩, ?_, ⟨fun o e he => ?_, hbase⟩, ?_, hcoins⟩
  · rw [sync, hwrite, hkept]
    rfl
  · obtain ⟨hspent, hfresh, hclean⟩ := hentry o e he
    exact ⟨fun hf => absurd hf (by simp [hfresh]), fun _ => hclean, fun hs =>
      absurd hs (by simp [hspent])⟩
  · refine Eq.trans (ext_lookup fun o => ?_) hcoins
    rw [coins, lookup_coinsOver]
    cases he : kept.lookup o with
    | none => rfl
    | some e => exact (hentry o e he).2.2

end

/-- One call on the top of a stack answers as on a plain map, and does to its coins
what it does to the map. -/
theorem coinsStep_spec (h : view.Consistent) (hproper : ProperCall view.coins call)
    {result : Option (CCoinsViewCache × CoinsAnswer)} (hstep : CoinsStep view call result) :
    ∃ view', result = some (view', (plainCall view.coins call).2) ∧ view'.Consistent ∧
      view'.coins = (plainCall view.coins call).1 ∧
      (call = .flush ∨ call = .sync → view'.base.coins = (plainCall view.coins call).1) := by
  cases hstep with
  | getCoin outpoint =>
    obtain ⟨hview, hanswer⟩ := getCoin_answer h outpoint
    rw [hview, hanswer]
    exact ⟨_, rfl, fetchCoin_consistent h outpoint, (view.fetchCoin_spec outpoint).1.coins, by simp⟩
  | haveCoin outpoint =>
    rw [haveCoin_view, (view.haveCoin_spec outpoint).2]
    exact ⟨_, rfl, fetchCoin_consistent h outpoint, (view.fetchCoin_spec outpoint).1.coins, by simp⟩
  | accessCoin outpoint =>
    obtain ⟨hview, hanswer⟩ := accessCoin_answer h outpoint
    rw [hview, hanswer]
    exact ⟨_, rfl, fetchCoin_consistent h outpoint, (view.fetchCoin_spec outpoint).1.coins, by simp⟩
  | addCoin outpoint coin possibleOverwrite =>
    obtain ⟨view', hadd, hview', hcoins⟩ := addCoin_consistent h _ hproper
    rw [hadd]
    exact ⟨view', rfl, hview', hcoins, by simp⟩
  | spendCoin outpoint =>
    obtain ⟨hview', hcoins⟩ := spendCoin_consistent h outpoint
    exact ⟨_, rfl, hview', hcoins, by simp⟩
  | uncache outpoint =>
    obtain ⟨hview', hcoins⟩ := uncache_consistent h outpoint
    exact ⟨_, rfl, hview', hcoins, by simp⟩
  | flush horder =>
    obtain ⟨view', hflush, hview', hcoins, hbase⟩ := flush_consistent h horder
    rw [hflush]
    exact ⟨view', rfl, hview', hcoins, fun _ => hbase⟩
  | sync horder =>
    obtain ⟨view', hsync, hview', hcoins, hbase⟩ := sync_consistent h horder
    rw [hsync]
    exact ⟨view', rfl, hview', hcoins, fun _ => hbase⟩

theorem exists_coinsStep {view : CCoinsViewCache} : ∃ result, CoinsStep view call result := by
  obtain ⟨order, horder⟩ := exists_enumerates view.cacheCoins
  cases call with
  | getCoin outpoint => exact ⟨_, .getCoin outpoint⟩
  | haveCoin outpoint => exact ⟨_, .haveCoin outpoint⟩
  | accessCoin outpoint => exact ⟨_, .accessCoin outpoint⟩
  | addCoin outpoint coin possibleOverwrite => exact ⟨_, .addCoin outpoint coin possibleOverwrite⟩
  | spendCoin outpoint => exact ⟨_, .spendCoin outpoint⟩
  | uncache outpoint => exact ⟨_, .uncache outpoint⟩
  | flush => exact ⟨_, .flush horder⟩
  | sync => exact ⟨_, .sync horder⟩

theorem coinsStack_consistent (h : CoinsStack view) : view.Consistent := by
  induction h with
  | base coins hashBlock hashBlock' => exact ⟨rightOver_empty _, trivial⟩
  | push hashBlock _ ih => exact ⟨rightOver_empty _, consistent_toView.mpr ih⟩
  | call _ hproper hstep ih =>
    obtain ⟨view', hresult, hview', _⟩ := coinsStep_spec ih hproper hstep
    cases hresult
    exact hview'

theorem exists_coinsRun (h : view.Consistent) (hproper : ProperCalls view.coins calls) :
    ∃ result, CoinsRun view calls result := by
  induction calls generalizing view with
  | nil => exact ⟨_, .nil view⟩
  | cons call calls ih =>
    obtain ⟨result, hstep⟩ := exists_coinsStep
    obtain ⟨view', rfl, hview', hcoins, _⟩ := coinsStep_spec h hproper.1 hstep
    obtain ⟨result, hrun⟩ := ih hview' (hcoins ▸ hproper.2)
    exact ⟨_, .cons hstep hrun⟩

/-- What holds of one call holds of a sequence, and the view is consistent at its end. -/
theorem coinsRun_spec (h : view.Consistent) (hproper : ProperCalls view.coins calls)
    {result : Option (CCoinsViewCache × List CoinsAnswer)} (hrun : CoinsRun view calls result) :
    ∃ view', result = some (view', (plainRun view.coins calls).2) ∧
    view'.coins = (plainRun view.coins calls).1 ∧
      (calls.getLast? = some .flush ∨ calls.getLast? = some .sync →
        view'.base.coins = (plainRun view.coins calls).1) := by
  induction hrun with
  | nil view => exact ⟨view, rfl, rfl, by simp⟩
  | fail hstep =>
    obtain ⟨_, hresult, _⟩ := coinsStep_spec h hproper.1 hstep
    cases hresult
  | @cons view view₁ call calls answer result hstep hrun ih =>
    obtain ⟨_, hresult, hview₁, hcoins, hparent⟩ := coinsStep_spec h hproper.1 hstep
    cases hresult
    obtain ⟨view', rfl, hcoins', hparent'⟩ := ih hview₁ (hcoins ▸ hproper.2)
    rw [hcoins] at hcoins' hparent' ⊢
    refine ⟨view', rfl, hcoins', fun hlast => ?_⟩
    cases calls with
    | nil =>
      -- the call was the last one
      cases hrun
      exact hparent (by simpa using hlast)
    | cons next calls =>
      exact hparent' hlast

end FlushLemmas

/-- The caches are transparent. Any sequence of calls on the top of a stack runs to
its end without an exception, answers as a plain map does and leaves what the map has;
a flush or a sync leaves it in the parent. -/
theorem runCoins_transparent {view : CCoinsViewCache} (hstack : CoinsStack view)
    {calls : List CoinsCall} (hproper : ProperCalls view.coins calls) :
    (∃ result, CoinsRun view calls result) ∧
      ∀ result, CoinsRun view calls result →
        ∃ view', result = some (view', (plainRun view.coins calls).2) ∧
          view'.coins = (plainRun view.coins calls).1 ∧
          (calls.getLast? = some .flush ∨ calls.getLast? = some .sync →
            view'.base.coins = (plainRun view.coins calls).1) :=
  ⟨exists_coinsRun (coinsStack_consistent hstack) hproper,
    fun _ hrun => coinsRun_spec (coinsStack_consistent hstack) hproper hrun⟩

/-- An outpoint and its coin: one satoshi for anyone. -/
def sampleOutPoint : COutPoint := ⟨uint256S 1, 0⟩

@[inherit_doc sampleOutPoint]
def sampleCoin : UnspentCoin := ⟨⟨⟨1, []⟩, false, 1⟩, rfl⟩

/-- Two caches over an empty database: a coin is added, read, written to the lower
cache, and spent again before the next write. -/
theorem runCoins_transparent_addSpend :
    ∃ view', CoinsRun ⟨∅, uint256S 0, .cache ∅ (uint256S 0) (.db ∅ (uint256S 0))⟩
        [.addCoin sampleOutPoint sampleCoin false, .getCoin sampleOutPoint, .flush,
          .spendCoin sampleOutPoint, .haveCoin sampleOutPoint, .sync]
        (some (view', [.done, .coin (some sampleCoin.val), .done, .done, .have false, .done])) ∧
      view'.base.coins.lookup sampleOutPoint = none := by
  have hstack : CoinsStack ⟨∅, uint256S 0, .cache ∅ (uint256S 0) (.db ∅ (uint256S 0))⟩ :=
    .push _ (.base ∅ (uint256S 0) (uint256S 0))
  have hscript : CScript.isUnspendable sampleCoin.val.out.scriptPubKey = false := by decide
  have hcoins : coins ⟨∅, uint256S 0, .cache ∅ (uint256S 0) (.db ∅ (uint256S 0))⟩ = ∅ := by
    rw [coins, CCoinsView.coins, CCoinsView.coins, coinsOver_empty, coinsOver_empty]
  obtain ⟨⟨result, hrun⟩, hall⟩ :=
    @runCoins_transparent _ hstack [.addCoin sampleOutPoint sampleCoin false,
    .getCoin sampleOutPoint, .flush, .spendCoin sampleOutPoint, .haveCoin sampleOutPoint, .sync]
    (by simp [ProperCalls, ProperCall, hcoins])
  obtain ⟨view', rfl, _, hparent⟩ := hall result hrun
  simp only [hcoins, plainRun, plainCall, hscript, Bool.false_eq_true, if_false, lookup_insert,
    lookup_erase] at hparent hrun
  refine ⟨view', hrun, ?_⟩
  rw [hparent (Or.inr rfl), lookup_erase]

end Bitcoboost
