import Bitcoboost.Lib.Greatest
import Bitcoboost.Lib.Reachable
import Bitcoboost.Mempool.Exact
import Mathlib.Data.Prod.Lex

/-!
# The mini miner

`MiniMiner` of `node/mini_miner.cpp` builds a block at a target fee rate from the transactions
that are connected with some outpoints, and computes what it costs to raise each outpoint to
that rate. `BuildMockTemplate` takes the entry with the best of the lower of its two fee rates
and stops by the rate with its ancestors alone, so it may take an entry whose own rate is below
the target. The checks by `Assume` and what only they or `Linearize` read are left out.
-/

namespace Bitcoboost

open Mempool Relation Ascending Worklist Finset

variable {nBytesPerSigOp : Nat}

/-! ## Fee rates -/

/-- The constructor of `CFeeRate` from a fee and a size. The size is a `uint32_t` in the source,
which holds the sizes of the at most 500 transactions; the products of amounts are not bounded. -/
def CFeeRate.ofFee (nFeePaid : CAmount) (numBytes : Int) : CFeeRate :=
  ⟨if numBytes > 0 then (nFeePaid * 1000).tdiv numBytes else 0⟩

/-- `CFeeRate::GetFee`, rounded up exactly. -/
def CFeeRate.getFeeExact (rate : CFeeRate) (numBytes : Int) : CAmount :=
  let nFee := -(-(rate.nSatoshisPerK * numBytes) / 1000)
  if nFee = 0 ∧ numBytes ≠ 0 then
    if rate.nSatoshisPerK > 0 then 1 else if rate.nSatoshisPerK < 0 then -1 else nFee
  else nFee

/-- `MiniMinerMempoolEntry`. Of the transaction only the inputs are read. Sizes and fees are
`int64_t` in the source and integers here. -/
structure MiniMinerMempoolEntry where
  prevoutHashes : List Txid
  vsizeIndividual : Int
  vsizeWithAncestors : Int
  feeIndividual : CAmount
  feeWithAncestors : CAmount

def MiniMinerMempoolEntry.minFeerate (e : MiniMinerMempoolEntry) : CFeeRate :=
  if e.feeWithAncestors * e.vsizeIndividual < e.feeIndividual * e.vsizeWithAncestors then
    .ofFee e.feeWithAncestors e.vsizeWithAncestors
  else .ofFee e.feeIndividual e.vsizeIndividual

/-- `MiniMiner`. `txids` and `entry` are `m_entries_by_txid`, and what is requested are the
outpoints of `m_requested_outpoints_by_txid`. -/
structure MiniMiner where
  readyToCalculate : Bool
  toBeReplaced : Finset Txid
  requestedOutpoints : Finset COutPoint
  bumpFees : COutPoint → Option CAmount
  inBlock : Finset Txid
  txids : Finset Txid
  entry : Txid → MiniMinerMempoolEntry
  descendantSet : Txid → Finset Txid

namespace MiniMiner

/-! ## The constructor -/

/-- `GetConflictTx`, as a set. The transactions of `mapNextTx` are entries. -/
def getConflictTx (pool : CTxMemPool nBytesPerSigOp) (prevout : COutPoint) : Finset Txid :=
  (pool.mapNextTx.filter fun next => next.1 = prevout ∧ next.2 ∈ pool.txids).image Prod.snd

/-- `GatherClusters`. It gives up when there are more than 500 entries, at the latest when it
gets to the last of them. -/
def gatherClusters (pool : CTxMemPool nBytesPerSigOp) (txids : Finset Txid) : Finset Txid :=
  let clusteredTxs :=
    traverse (fun x => (pool.entry x).parents ∪ (pool.entry x).children) pool.txids.card txids ∅
  if clusteredTxs.card > 500 then ∅ else clusteredTxs

/-- An entry as the constructor copies it. -/
def newEntry (e : CTxMemPoolEntry nBytesPerSigOp) : MiniMinerMempoolEntry where
  prevoutHashes := e.prevoutHashes
  vsizeIndividual := e.getTxSize
  vsizeWithAncestors := e.withAncestors.size
  feeIndividual := e.modifiedFee
  feeWithAncestors := e.withAncestors.modFees

section Constructor

variable (pool : CTxMemPool nBytesPerSigOp) (outpoints : List COutPoint)

def requested : Finset COutPoint :=
  outpoints.toFinset.filter fun outpoint => outpoint.hash ∈ pool.txids

/-- `m_to_be_replaced`: what spends the outpoints now, with its descendants. -/
def replaced : Finset Txid :=
  (requested pool outpoints).biUnion fun outpoint =>
    (getConflictTx pool outpoint).biUnion fun txid => pool.calculateDescendants txid ∅

def clusterOf : Finset Txid := gatherClusters pool ((requested pool outpoints).image (·.hash))

/-- The constructor from the pool and the outpoints to be spent. Without an outpoint of the pool
it returns before there is a cluster. -/
def new : MiniMiner where
  readyToCalculate := requested pool outpoints = ∅ ∨ clusterOf pool outpoints ≠ ∅
  toBeReplaced := replaced pool outpoints
  requestedOutpoints := (requested pool outpoints).filter fun outpoint =>
    outpoint.hash ∉ clusterOf pool outpoints ∩ replaced pool outpoints
  bumpFees outpoint :=
    if outpoint ∈ outpoints ∧ outpoint.hash ∉ pool.txids then some 0
    else if outpoint ∈ requested pool outpoints ∧
        outpoint.hash ∈ clusterOf pool outpoints ∩ replaced pool outpoints then
      some 0
    else none
  inBlock := ∅
  txids := clusterOf pool outpoints \ replaced pool outpoints
  entry txid := newEntry (pool.entry txid)
  descendantSet txid := pool.calculateDescendants txid ∅ \ replaced pool outpoints

end Constructor

/-! ## Building the block -/

variable (s : MiniMiner)

/-- `AncestorFeerateComparator`. -/
def before (a b : Txid) : Bool :=
  if (s.entry a).minFeerate.nSatoshisPerK ≠ (s.entry b).minFeerate.nSatoshisPerK then
    (s.entry a).minFeerate.nSatoshisPerK > (s.entry b).minFeerate.nSatoshisPerK
  else a < b

/-- `*best_iter`, which comes before all others when the entries are sorted. -/
def best : Option Txid :=
  Greatest.greatest (fun a b => s.before b a) (elements s.txids)

def ancestors (txid : Txid) : Finset Txid :=
  traverse (fun x => (s.entry x).prevoutHashes.toFinset ∩ s.txids) s.txids.card {txid} ∅

/-- `DeleteAncestorPackage`. The loops deduct each of the ancestors from its descendants. -/
def deleteAncestorPackage (ancestors : Finset Txid) : MiniMiner :=
  { s with
    inBlock := s.inBlock ∪ ancestors
    entry x :=
      { s.entry x with
        vsizeWithAncestors := (s.entry x).vsizeWithAncestors
          - ∑ a ∈ ancestors with x ∈ s.descendantSet a, (s.entry a).vsizeIndividual
        feeWithAncestors := (s.entry x).feeWithAncestors
          - ∑ a ∈ ancestors with x ∈ s.descendantSet a, (s.entry a).feeIndividual }
    descendantSet x := if x ∈ ancestors then ∅ else s.descendantSet x
    txids := s.txids \ ancestors }

variable (targetFeerate : CFeeRate)

/-- The entry that a round of `BuildMockTemplate` takes, unless the loop ends. -/
def pick : Option Txid :=
  s.best.filter fun txid =>
    (s.entry txid).feeWithAncestors ≥ targetFeerate.getFeeExact (s.entry txid).vsizeWithAncestors

/-- A round of the loop of `BuildMockTemplate`. -/
def round : Option MiniMiner :=
  (s.pick targetFeerate).map fun txid => s.deleteAncestorPackage (s.ancestors txid)

/-- The loop of `BuildMockTemplate`, for at most `fuel` rounds. -/
def buildLoop (targetFeerate : CFeeRate) : Nat → MiniMiner → MiniMiner
  | 0, s => s
  | fuel + 1, s =>
    match s.round targetFeerate with
    | none => s
    | some s' => buildLoop targetFeerate fuel s'

/-- `BuildMockTemplate` with a target. Every round removes an entry. -/
def buildMockTemplate : MiniMiner :=
  { s.buildLoop targetFeerate s.txids.card with readyToCalculate := false }

/-! ## Bump fees -/

/-- What it takes to lift an entry that was left out. -/
def bumpFee (e : MiniMinerMempoolEntry) : CAmount :=
  max (targetFeerate.getFeeExact e.vsizeWithAncestors - e.feeWithAncestors)
    (targetFeerate.getFeeExact e.vsizeIndividual - e.feeIndividual)

/-- `CalculateBumpFees`. What is in the map stays, as `emplace` does not replace it. -/
def calculateBumpFees (outpoint : COutPoint) : Option CAmount :=
  if s.readyToCalculate then
    let s := s.buildMockTemplate targetFeerate
    if (s.bumpFees outpoint).isSome then s.bumpFees outpoint
    else if outpoint ∉ s.requestedOutpoints then none
    else if outpoint.hash ∈ s.inBlock then some 0
    else if outpoint.hash ∈ s.txids then some (bumpFee targetFeerate (s.entry outpoint.hash))
    else none
  else none

/-! ## Rates -/

end MiniMiner

def CFeeRate.MetBy (rate : CFeeRate) (fee : CAmount) (size : Int) : Prop :=
  rate.nSatoshisPerK * size ≤ fee * 1000

variable {rate : CFeeRate} {fee : CAmount} {size : Int}

theorem CFeeRate.getFeeExact_le_iff (hsize : 0 < size) (hfee : 0 ≤ fee) :
    rate.getFeeExact size ≤ fee ↔ rate.MetBy fee size := by
  have hround : ∀ k f x : Int, (0 < k → 0 < x) → (k < 0 → x < 0) → 0 ≤ f →
      ((if -(-x / 1000) = 0 ∧ size ≠ 0 then if k > 0 then 1 else if k < 0 then -1 else -(-x / 1000)
      else -(-x / 1000)) ≤ f
        ↔ x ≤ f * 1000) := by
    intro k f x hpos hneg hf
    split_ifs <;> omega
  exact hround rate.nSatoshisPerK fee (rate.nSatoshisPerK * size) (fun h => Int.mul_pos h hsize)
    (fun h => Int.mul_neg_of_neg_of_pos h hsize) hfee

theorem CFeeRate.le_ofFee (hsize : 0 < size) (hfee : 0 ≤ fee) :
    rate.nSatoshisPerK ≤ (CFeeRate.ofFee fee size).nSatoshisPerK ↔ rate.MetBy fee size := by
  have hnonneg : 0 ≤ fee * 1000 := Int.mul_nonneg hfee (by decide)
  rw [ofFee, if_pos hsize, Int.tdiv_eq_ediv_of_nonneg hnonneg, Int.le_ediv_iff_mul_le hsize]
  rfl

namespace MiniMinerMempoolEntry

/-- What is true of every entry that is left. -/
structure Proper (e : MiniMinerMempoolEntry) : Prop where
  vsize_pos : 0 < e.vsizeIndividual
  vsizeWithAncestors_pos : 0 < e.vsizeWithAncestors
  fee_nonneg : 0 ≤ e.feeIndividual
  feeWithAncestors_nonneg : 0 ≤ e.feeWithAncestors

/-- The lower rate of an entry meets a target when both do. -/
theorem Proper.le_minFeerate {e : MiniMinerMempoolEntry} (h : e.Proper) :
    rate.nSatoshisPerK ≤ e.minFeerate.nSatoshisPerK ↔
      rate.MetBy e.feeIndividual e.vsizeIndividual ∧
        rate.MetBy e.feeWithAncestors e.vsizeWithAncestors := by
  obtain ⟨hs, hS, hf, hF⟩ := h
  unfold minFeerate
  split_ifs with hlower
  · rw [CFeeRate.le_ofFee hS hF]
    refine ⟨fun hall => ⟨?_, hall⟩, fun hboth => hboth.2⟩
    unfold CFeeRate.MetBy at *
    nlinarith
  · rw [CFeeRate.le_ofFee hs hf]
    refine ⟨fun hown => ⟨hown, ?_⟩, fun hboth => hboth.1⟩
    unfold CFeeRate.MetBy at *
    nlinarith

end MiniMinerMempoolEntry

namespace MiniMiner

variable {s s' : MiniMiner} {x b : Txid}

/-- The order in which the entries are sorted: by the lower rate, and then by txid. -/
theorem before_iff (s : MiniMiner) (a b : Txid) : s.before b a = true ↔
    toLex ((s.entry a).minFeerate.nSatoshisPerK, OrderDual.toDual a) <
      toLex ((s.entry b).minFeerate.nSatoshisPerK, OrderDual.toDual b) := by
  rw [Prod.Lex.toLex_lt_toLex, before]
  split_ifs with hne
  · rw [decide_eq_true_eq]
    exact ⟨.inl, fun h => h.resolve_right fun heq => hne heq.1.symm⟩
  · have heq := not_not.mp hne
    rw [decide_eq_true_eq, heq]
    exact ⟨fun h => .inr ⟨rfl, h⟩, fun h => (h.resolve_left (lt_irrefl _)).2⟩

/-- The best entry has the highest of the lower rates. -/
theorem best_spec (h : s.best = some b) :
    b ∈ s.txids ∧ ∀ x ∈ s.txids, (s.entry x).minFeerate.nSatoshisPerK ≤
      (s.entry b).minFeerate.nSatoshisPerK := by
  obtain ⟨hmem, hmax⟩ := Greatest.greatest_spec (fun a b => before_iff s a b) h
  refine ⟨mem_elements.mp hmem, fun x hx => ?_⟩
  rcases Prod.Lex.toLex_le_toLex.mp (hmax x (mem_elements.mpr hx)) with hlt | ⟨heq, -⟩
  · exact le_of_lt hlt
  · exact le_of_eq heq

/-! ## What is left of the cluster -/

variable {pool : CTxMemPool nBytesPerSigOp} {cluster : Finset Txid} {rate : CFeeRate}
  {start : MiniMiner}
  {a : Txid}

open Classical in
/-- The entry and its ancestors among those that are left. -/
noncomputable def ancestorSet (pool : CTxMemPool nBytesPerSigOp) (s : MiniMiner) (x : Txid) :
    Finset Txid :=
  {a ∈ s.txids | pool.Ancestor x a}

theorem mem_ancestorSet : a ∈ ancestorSet pool s x ↔ a ∈ s.txids ∧ pool.Ancestor x a := by
  simp [ancestorSet]

/-- A part of the pool that has the ancestors of its transactions. -/
structure AncestorClosed (pool : CTxMemPool nBytesPerSigOp) (cluster : Finset Txid) : Prop where
  subset : cluster ⊆ pool.txids
  ancestor : ∀ x ∈ cluster, ∀ a, pool.Ancestor x a → a ∈ cluster

/-- The entries that are left are as in the pool, and their totals are the sums over the
ancestors that are left. What was taken has its ancestors. -/
structure Remaining (pool : CTxMemPool nBytesPerSigOp) (cluster : Finset Txid)
    (s : MiniMiner) : Prop where
  subset : s.txids ⊆ cluster
  descendant : ∀ a ∈ s.txids, ∀ d ∈ cluster, pool.Ancestor d a → d ∈ s.txids
  prevoutHashes : ∀ x, (s.entry x).prevoutHashes = (pool.entry x).prevoutHashes
  vsizeIndividual : ∀ x, (s.entry x).vsizeIndividual = (pool.entry x).getTxSize
  feeIndividual : ∀ x, (s.entry x).feeIndividual = (pool.entry x).modifiedFee
  vsizeWithAncestors : ∀ x ∈ s.txids,
    (s.entry x).vsizeWithAncestors = ∑ a ∈ ancestorSet pool s x, (pool.entry a).getTxSize
  feeWithAncestors : ∀ x ∈ s.txids,
    (s.entry x).feeWithAncestors = ∑ a ∈ ancestorSet pool s x, (pool.entry a).modifiedFee
  descendantSet : ∀ a ∈ s.txids, ∀ d, d ∈ s.descendantSet a ↔ d ∈ cluster ∧ pool.Ancestor d a

/-- Taking some transactions away with all their ancestors: what is deducted from the sum over
ancestors is what was taken of it. -/
theorem sum_ancestorSet_sdiff {taken : Finset Txid} (hsub : taken ⊆ s.txids)
    (htxids : s'.txids = s.txids \ taken)
    {descendants : Txid → Finset Txid} (hdesc : ∀ a ∈ taken, x ∈ descendants a ↔ pool.Ancestor x a)
    (w : Txid → Int) :
    ∑ a ∈ ancestorSet pool s x, w a - ∑ a ∈ taken with x ∈ descendants a,
    w a = ∑ a ∈ ancestorSet pool s' x, w a := by
  have hfilter : (taken.filter fun a => x ∈ descendants a) ⊆ ancestorSet pool s x := by
    intro a ha
    obtain ⟨hmem, hx⟩ := Finset.mem_filter.mp ha
    exact mem_ancestorSet.mpr ⟨hsub hmem, (hdesc a hmem).mp hx⟩
  have hset : ancestorSet pool s' x = ancestorSet pool s x \ taken.filter fun a =>
      x ∈ descendants a := by
    ext a
    simp only [mem_ancestorSet, mem_sdiff, mem_filter, htxids]
    constructor
    · rintro ⟨⟨ha, hnot⟩, hreach⟩
      exact ⟨⟨ha, hreach⟩, fun htaken => hnot htaken.1⟩
    · rintro ⟨⟨ha, hreach⟩, hnot⟩
      exact ⟨⟨ha, fun htaken => hnot ⟨htaken, (hdesc a htaken).mpr hreach⟩⟩, hreach⟩
  rw [hset, ← sum_sdiff hfilter]
  omega

/-- The entry that a round takes is the best one, and meets the target with its ancestors as far
as the entry knows. -/
theorem pick_spec (h : s.pick rate = some b) :
    s.best = some b ∧ rate.getFeeExact (s.entry b).vsizeWithAncestors ≤
      (s.entry b).feeWithAncestors := by
  obtain ⟨hbest, hfee⟩ := Option.filter_eq_some_iff.mp h
  exact ⟨hbest, of_decide_eq_true hfee⟩

/-- The states between the rounds of `BuildMockTemplate`. -/
abbrev Rounds (rate : CFeeRate) (start s : MiniMiner) : Prop :=
  Reachable (fun s (_ : Unit) => s.round rate) (fun _ => True) start s

section Closed

variable (hclosed : AncestorClosed pool cluster)
include hclosed

/-- The walk over the inputs finds the ancestors that are left. -/
theorem Remaining.mem_ancestors (h : Remaining pool cluster s) (hb : b ∈ s.txids) :
    a ∈ s.ancestors b ↔ a ∈ s.txids ∧ pool.Ancestor b a := by
  have hwalk : Walk (fun x => (s.entry x).prevoutHashes.toFinset ∩ s.txids) {b} ∅ {b} ∅ := .empty
  rw [ancestors, mem_traverse hwalk (fun _ _ => inter_subset_right)
    (Finset.singleton_subset_iff.mpr hb) (empty_subset _) (Nat.le_add_right _ _)]
  simp only [notMem_empty, mem_singleton, exists_eq_left, false_or]
  constructor
  · intro hreach
    induction hreach with
    | refl => exact ⟨hb, .refl⟩
    | @tail x y _ hstep ih =>
      obtain ⟨hy, hleft⟩ := Finset.mem_inter.mp hstep
      rw [List.mem_toFinset, h.prevoutHashes] at hy
      exact ⟨hleft, ih.2.tail ⟨hclosed.subset (h.subset ih.1), hclosed.subset (h.subset hleft), hy⟩⟩
  · rintro ⟨ha, hreach⟩
    induction hreach with
    | refl => exact .refl
    | @tail x y hprev hstep ih =>
      have hx : x ∈ s.txids :=
        h.descendant y ha x (hclosed.ancestor b (h.subset hb) x hprev) (.single hstep)
      refine (ih hx).tail (Finset.mem_inter.mpr ⟨?_, ha⟩)
      rw [List.mem_toFinset, h.prevoutHashes]
      exact hstep.2.2

/-- A round takes an entry with its ancestors, and deducts them from what is left. -/
theorem Remaining.deleteAncestorPackage (h : Remaining pool cluster s) (hb : b ∈ s.txids) :
    Remaining pool cluster (s.deleteAncestorPackage (s.ancestors b)) := by
  have htaken : ∀ {a}, a ∈ s.ancestors b ↔ a ∈ s.txids ∧ pool.Ancestor b a :=
    h.mem_ancestors hclosed hb
  have hsub : s.ancestors b ⊆ s.txids := fun a ha => (htaken.mp ha).1
  have hdesc : ∀ x ∈ s.txids, ∀ a ∈ s.ancestors b, x ∈ s.descendantSet a ↔ pool.Ancestor x a :=
      fun x hx a ha => by
    rw [h.descendantSet a (hsub ha), and_iff_right (h.subset hx)]
  constructor
  case subset => exact Finset.sdiff_subset.trans h.subset
  case descendant =>
    intro a ha d hd hreach
    obtain ⟨hleft, hnot⟩ := Finset.mem_sdiff.mp ha
    refine Finset.mem_sdiff.mpr ⟨h.descendant a hleft d hd hreach, fun htook => hnot ?_⟩
    exact htaken.mpr ⟨hleft, (htaken.mp htook).2.trans hreach⟩
  case prevoutHashes => exact h.prevoutHashes
  case vsizeIndividual => exact h.vsizeIndividual
  case feeIndividual => exact h.feeIndividual
  case vsizeWithAncestors =>
    intro x hx
    have hleft := (Finset.mem_sdiff.mp hx).1
    rw [← sum_ancestorSet_sdiff hsub rfl (hdesc x hleft), ← h.vsizeWithAncestors x hleft]
    simp [MiniMiner.deleteAncestorPackage, h.vsizeIndividual]
  case feeWithAncestors =>
    intro x hx
    have hleft := (Finset.mem_sdiff.mp hx).1
    rw [← sum_ancestorSet_sdiff hsub rfl (hdesc x hleft), ← h.feeWithAncestors x hleft]
    simp [MiniMiner.deleteAncestorPackage, h.feeIndividual]
  case descendantSet =>
    intro a ha d
    obtain ⟨hleft, hnot⟩ := Finset.mem_sdiff.mp ha
    simp only [MiniMiner.deleteAncestorPackage, if_neg hnot]
    exact h.descendantSet a hleft d

theorem Remaining.round (h : Remaining pool cluster s) (hround : s.round rate = some s') :
    Remaining pool cluster s' ∧ s'.txids.card < s.txids.card := by
  obtain ⟨b, hpick, rfl⟩ := Option.map_eq_some_iff.mp hround
  have hb := (best_spec (pick_spec hpick).1).1
  have hself : b ∈ s.ancestors b := (h.mem_ancestors hclosed hb).mpr ⟨hb, .refl⟩
  refine ⟨h.deleteAncestorPackage hclosed hb,
    card_lt_card (ssubset_iff_of_subset sdiff_subset |>.mpr ?_)⟩
  exact ⟨b, hb, fun hmem => (Finset.mem_sdiff.mp hmem).2 hself⟩

theorem remaining_run (hstart : Remaining pool cluster start) (h : Rounds rate start s) :
    Remaining pool cluster s :=
  h.invariant _ hstart fun _ _ _ hs hround _ => (hs.round hclosed hround).1

/-- The loop ends by itself. -/
theorem buildLoop_spec {fuel : Nat} (h : Remaining pool cluster s) (hfuel : s.txids.card ≤ fuel)
    (hrun : Rounds rate start s) :
    Rounds rate start (s.buildLoop rate fuel) ∧ (s.buildLoop rate fuel).round rate = none := by
  induction fuel generalizing s with
  | zero =>
    refine ⟨hrun, Option.eq_none_iff_forall_ne_some.mpr fun s' hround => ?_⟩
    exact Nat.not_lt_zero _ (Nat.lt_of_lt_of_le (h.round hclosed hround).2 hfuel)
  | succ fuel ih =>
    rw [buildLoop]
    cases hround : s.round rate with
    | none => exact ⟨hrun, hround⟩
    | some s' =>
      obtain ⟨h', hless⟩ := h.round hclosed hround
      exact ih h' (Nat.le_of_lt_succ (Nat.lt_of_lt_of_le hless hfuel))
        (hrun.step (a := ()) hround trivial)

end Closed

/-! ## The cluster -/

section New

variable (hexact : pool.Exact) {outpoints : List COutPoint}
include hexact

theorem mem_calculateDescendants {y : Txid} (hx : x ∈ pool.txids) :
    y ∈ pool.calculateDescendants x ∅ ↔ pool.Ancestor y x := by
  rw [hexact.links.mem_calculateDescendants hx (empty_subset _) (fun d hd =>
    absurd hd (notMem_empty d))]
  simp

theorem replaced_descendant {d : Txid} (ha : a ∈ replaced pool outpoints)
    (hreach : pool.Ancestor d a) : d ∈ replaced pool outpoints := by
  simp only [replaced, mem_biUnion] at ha ⊢
  obtain ⟨outpoint, hrequested, txid, hconflict, ha⟩ := ha
  refine ⟨outpoint, hrequested, txid, hconflict, ?_⟩
  obtain ⟨next, hnext, rfl⟩ := Finset.mem_image.mp hconflict
  have hpool := (Finset.mem_filter.mp hnext).2.2
  rw [mem_calculateDescendants hexact hpool] at ha ⊢
  exact hreach.trans ha

theorem gatherClusters_closed {txids : Finset Txid} (hsub : txids ⊆ pool.txids)
    (hx : x ∈ gatherClusters pool txids) :
    x ∈ pool.txids ∧ ∀ a, pool.Ancestor x a ∨ pool.Ancestor a x →
    a ∈ gatherClusters pool txids := by
  have hwalk : Walk (fun x => (pool.entry x).parents ∪ (pool.entry x).children) txids ∅ txids ∅ :=
    .empty
  have hvertices :
      ∀ x ∈ pool.txids, (pool.entry x).parents ∪ (pool.entry x).children ⊆ pool.txids := fun x hx =>
    union_subset (hexact.links.parents_subset x hx) (hexact.links.children_subset x hx)
  have hmem :
      ∀ y, y ∈ traverse (fun x => (pool.entry x).parents ∪ (pool.entry x).children)
      pool.txids.card txids ∅ ↔
      y ∈ (∅ : Finset Txid) ∨ ∃ t ∈ txids, Reaches (fun x =>
        (pool.entry x).parents ∪ (pool.entry x).children) t y :=
    fun y => mem_traverse hwalk hvertices hsub (empty_subset _) (Nat.le_add_right _ _)
  unfold gatherClusters at hx ⊢
  dsimp only at hx ⊢
  split_ifs at hx ⊢
  · cases hx
  · obtain ⟨t, ht, hreach⟩ := ((hmem x).mp hx).resolve_left (notMem_empty x)
    have hpool := mem_of_reaches hvertices (hsub ht) hreach
    refine ⟨hpool, fun a hlinked => (hmem a).mpr (.inr ⟨t, ht, hreach.trans ?_⟩)⟩
    rcases hlinked with hanc | hdesc
    · exact ReflTransGen.mono (fun _ _ => mem_union_left _)
        _ _ ((hexact.links.reaches_parents hpool).mpr hanc)
    · exact ReflTransGen.mono (fun _ _ => mem_union_right _)
        _ _ ((hexact.links.reaches_children hpool).mpr hdesc)

theorem clusterOf_closed (hx : x ∈ clusterOf pool outpoints) :
    x ∈ pool.txids ∧ ∀ a, pool.Ancestor x a ∨ pool.Ancestor a x → a ∈ clusterOf pool outpoints := by
  refine gatherClusters_closed hexact (fun t ht => ?_) hx
  obtain ⟨outpoint, ho, rfl⟩ := Finset.mem_image.mp ht
  exact (Finset.mem_filter.mp ho).2

theorem new_closed : AncestorClosed pool (new pool outpoints).txids := by
  refine ⟨fun x hx => (clusterOf_closed hexact (Finset.mem_sdiff.mp hx).1).1,
    fun x hx a hreach => ?_⟩
  obtain ⟨hcluster, hnot⟩ := Finset.mem_sdiff.mp hx
  exact Finset.mem_sdiff.mpr ⟨(clusterOf_closed hexact hcluster).2 a (.inl hreach),
    fun ha => hnot (replaced_descendant hexact ha hreach)⟩

/-- The constructor copies totals that are exact, as no ancestor is missing. -/
theorem remaining_new : Remaining pool (new pool outpoints).txids (new pool outpoints) := by
  have hclosed : AncestorClosed pool (new pool outpoints).txids := new_closed hexact
  have hset : ∀ x ∈ (new pool outpoints).txids, (pool.entry x).withAncestors =
      ∑ a ∈ ancestorSet pool (new pool outpoints) x, (pool.entry a).weight := by
    intro x hx
    rw [hexact.counts.ancestors x (hclosed.subset hx), CTxMemPool.sumWithAncestors]
    refine sum_congr (Finset.ext fun a => ?_) fun _ _ => rfl
    simp only [mem_filter, mem_ancestorSet]
    exact and_congr_left fun hreach => ⟨fun _ => hclosed.ancestor x hx a hreach, fun ha =>
      hclosed.subset ha⟩
  constructor
  case subset => exact Finset.Subset.refl _
  case descendant => exact fun _ _ _ hd _ => hd
  case prevoutHashes => exact fun _ => rfl
  case vsizeIndividual => exact fun _ => rfl
  case feeIndividual => exact fun _ => rfl
  case vsizeWithAncestors =>
    intro x hx
    exact (congrArg Totals.size (hset x hx)).trans (Totals.size_sum _ _)
  case feeWithAncestors =>
    intro x hx
    exact (congrArg Totals.modFees (hset x hx)).trans (Totals.modFees_sum _ _)
  case descendantSet =>
    intro a ha d
    have hpool := hclosed.subset ha
    simp only [new, mem_sdiff, mem_calculateDescendants hexact hpool]
    constructor
    · rintro ⟨hreach, hnot⟩
      exact ⟨⟨(clusterOf_closed hexact (Finset.mem_sdiff.mp ha).1).2 d (.inr hreach), hnot⟩, hreach⟩
    · rintro ⟨hd, hreach⟩
      exact ⟨hreach, hd.2⟩

end New

/-! ## The rule -/

/-- The fee rate of a transaction by itself meets the target. -/
def MeetsAlone (pool : CTxMemPool nBytesPerSigOp) (rate : CFeeRate) (x : Txid) : Prop :=
  rate.MetBy (pool.entry x).modifiedFee (pool.entry x).getTxSize

/-- The fee rate of a transaction with its ancestors that are left meets the target. -/
def MeetsWithAncestors (pool : CTxMemPool nBytesPerSigOp) (s : MiniMiner) (rate : CFeeRate)
    (x : Txid) : Prop :=
  rate.MetBy (∑ a ∈ ancestorSet pool s x, (pool.entry a).modifiedFee)
    (∑ a ∈ ancestorSet pool s x, (pool.entry a).getTxSize)

section Rule

variable {rate : CFeeRate} (h : Remaining pool cluster s) (hclosed : AncestorClosed pool cluster)
  (hfees : ∀ x ∈ pool.txids, 0 ≤ (pool.entry x).modifiedFee)
include h hclosed hfees

theorem Remaining.proper (hx : x ∈ s.txids) : (s.entry x).Proper := by
  have hpool : ∀ a ∈ ancestorSet pool s x, a ∈ pool.txids := fun a ha =>
    hclosed.subset (h.subset (mem_ancestorSet.mp ha).1)
  constructor
  · rw [h.vsizeIndividual]
    exact (pool.entry x).getTxSize_pos
  · rw [h.vsizeWithAncestors x hx]
    exact sum_pos (fun a _ => (pool.entry a).getTxSize_pos) ⟨x, mem_ancestorSet.mpr ⟨hx, .refl⟩⟩
  · rw [h.feeIndividual]
    exact hfees x (hclosed.subset (h.subset hx))
  · rw [h.feeWithAncestors x hx]
    exact sum_nonneg fun a ha => hfees a (hpool a ha)

/-- Both rates of an entry meet the target when the lower one, as it is compared, does. -/
theorem Remaining.le_minFeerate (hx : x ∈ s.txids) :
    rate.nSatoshisPerK ≤ (s.entry x).minFeerate.nSatoshisPerK ↔
      MeetsAlone pool rate x ∧ MeetsWithAncestors pool s rate x := by
  rw [(h.proper hclosed hfees hx).le_minFeerate, h.vsizeIndividual, h.feeIndividual,
    h.vsizeWithAncestors x hx, h.feeWithAncestors x hx]
  rfl

/-- Where some entry meets the target in both ways, the best one does. -/
theorem meets_best (hbest : s.best = some b) (hx : x ∈ s.txids)
    (hmeets : MeetsAlone pool rate x ∧ MeetsWithAncestors pool s rate x) :
    MeetsAlone pool rate b ∧ MeetsWithAncestors pool s rate b := by
  obtain ⟨hb, hmax⟩ := best_spec hbest
  rw [← h.le_minFeerate hclosed hfees hx] at hmeets
  exact (h.le_minFeerate hclosed hfees hb).mp (hmeets.trans (hmax x hx))

/-- What is checked of the entry that is taken. -/
theorem Remaining.met_iff (hx : x ∈ s.txids) :
    rate.getFeeExact (s.entry x).vsizeWithAncestors ≤ (s.entry x).feeWithAncestors ↔
    MeetsWithAncestors pool s rate x := by
  have hproper := h.proper hclosed hfees hx
  rw [CFeeRate.getFeeExact_le_iff hproper.vsizeWithAncestors_pos hproper.feeWithAncestors_nonneg,
    h.vsizeWithAncestors x hx, h.feeWithAncestors x hx]
  rfl

/-- When the loop has ended, every entry that is left needs a fee. -/
theorem bumpFee_pos (hend : s.round rate = none) (hx : x ∈ s.txids) :
    0 < bumpFee rate (s.entry x) := by
  have hproper := h.proper hclosed hfees hx
  have hnot : ¬ (MeetsAlone pool rate x ∧ MeetsWithAncestors pool s rate x) := by
    intro hmeets
    cases hbest : s.best with
    | none =>
      have hnil := mem_elements.mpr hx
      rw [Greatest.greatest_eq_none.mp hbest] at hnil
      cases hnil
    | some b =>
      have hmet := (meets_best h hclosed hfees hbest hx hmeets).2
      rw [← h.met_iff hclosed hfees (best_spec hbest).1] at hmet
      simp only [round, pick, hbest, Option.map_eq_none_iff, Option.filter_eq_none_iff,
        decide_eq_true_eq] at hend
      exact hend b rfl hmet
  rw [← h.met_iff hclosed hfees hx, MeetsAlone, ← h.vsizeIndividual, ← h.feeIndividual,
    ← CFeeRate.getFeeExact_le_iff hproper.vsize_pos hproper.fee_nonneg, not_and_or, not_le,
    not_le] at hnot
  rcases hnot with hown | hall
  · exact lt_max_of_lt_right (sub_pos.mpr hown)
  · exact lt_max_of_lt_left (sub_pos.mpr hall)

end Rule

theorem rounds_requested (h : Rounds rate start s) :
    s.bumpFees = start.bumpFees ∧ s.requestedOutpoints = start.requestedOutpoints := by
  refine h.invariant (fun s => s.bumpFees = start.bumpFees ∧
      s.requestedOutpoints = start.requestedOutpoints)
    ⟨rfl, rfl⟩ fun s _ s' hs hround _ => ?_
  obtain ⟨b, -, rfl⟩ := Option.map_eq_some_iff.mp hround
  exact hs

theorem calculateBumpFees_spec (hexact : pool.Exact)
    (hfees : ∀ x ∈ pool.txids, 0 ≤ (pool.entry x).modifiedFee)
    {outpoints : List COutPoint} {outpoint : COutPoint} {fee : CAmount}
    (h : (new pool outpoints).calculateBumpFees rate outpoint = some fee) :
    0 ≤ fee ∧ (fee = 0 ↔ outpoint.hash ∈ ((new pool outpoints).buildMockTemplate rate).inBlock ∨
      outpoint.hash ∈ replaced pool outpoints ∨ outpoint.hash ∉ pool.txids) := by
  have hclosed : AncestorClosed pool (new pool outpoints).txids := new_closed hexact
  have hstart : Remaining pool (new pool outpoints).txids (new pool outpoints) :=
    remaining_new hexact
  obtain ⟨hrun, hend⟩ := buildLoop_spec hclosed hstart (Nat.le_refl _) (.init : Rounds rate _ _)
  have hleft := remaining_run hclosed hstart hrun
  obtain ⟨hkept, -⟩ := rounds_requested hrun
  simp only [calculateBumpFees, buildMockTemplate, hkept] at h ⊢
  split_ifs at h with hready hknown hrequested hin hout
  · -- The constructor knew of it.
    have hzero :
        fee = 0 ∧ (outpoint.hash ∈ replaced pool outpoints ∨ outpoint.hash ∉ pool.txids) := by
      simp only [new] at h
      split_ifs at h with hunknown hreplaced
      · exact ⟨(Option.some.inj h).symm, .inr hunknown.2⟩
      · exact ⟨(Option.some.inj h).symm, .inl (Finset.mem_inter.mp hreplaced.2).2⟩
    exact ⟨le_of_eq hzero.1.symm, iff_of_true hzero.1 (.inr hzero.2)⟩
  · cases h
    exact ⟨le_refl _, iff_of_true rfl (.inl hin)⟩
  · cases h
    have hpos := bumpFee_pos hleft hclosed hfees hend hout
    have hmem := hleft.subset hout
    refine ⟨le_of_lt hpos, iff_of_false (ne_of_gt hpos) ?_⟩
    rintro (hblock | hreplaced | hunknown)
    · exact hin hblock
    · exact (Finset.mem_sdiff.mp hmem).2 hreplaced
    · exact hunknown (hclosed.subset hmem)

theorem pickRule_iff (pool : CTxMemPool nBytesPerSigOp) (hexact : pool.Exact)
    (hfees : ∀ x ∈ pool.txids, 0 ≤ (pool.entry x).modifiedFee) (outpoints : List COutPoint)
    (rate : CFeeRate) : ((∀ s b, Rounds rate (new pool outpoints) s → s.pick rate = some b →
        MeetsAlone pool rate b ∧ MeetsWithAncestors pool s rate b) ∧
      ∀ outpoint fee, (new pool outpoints).calculateBumpFees rate outpoint = some fee →
        0 ≤ fee ∧ (fee = 0 ↔ outpoint.hash ∈ ((new pool outpoints).buildMockTemplate rate).inBlock ∨
          outpoint.hash ∈ replaced pool outpoints ∨ outpoint.hash ∉ pool.txids)) ↔
    ∀ s b, Rounds rate (new pool outpoints) s → s.pick rate = some b →
      ∃ x ∈ s.txids, MeetsAlone pool rate x ∧ MeetsWithAncestors pool s rate x := by
  have hclosed : AncestorClosed pool (new pool outpoints).txids := new_closed hexact
  constructor
  · rintro ⟨hrule, -⟩ s b hrun hpick
    exact ⟨b, (best_spec (pick_spec hpick).1).1, hrule s b hrun hpick⟩
  · intro hsome
    refine ⟨fun s b hrun hpick => ?_, fun _ _ => calculateBumpFees_spec hexact hfees⟩
    obtain ⟨x, hx, hmeets⟩ := hsome s b hrun hpick
    exact meets_best (remaining_run hclosed (remaining_new hexact) hrun) hclosed hfees
      (pick_spec hpick).1 hx hmeets

/-! ## A transaction with two parents that share a parent -/

theorem diamondPool_fees :
    ∀ x ∈ diamondPool.txids, 0 ≤ (diamondPool.entry x).modifiedFee := by decide +kernel

/-- At 9 satoshis a byte the last transaction meets the target in both ways, and all are taken. -/
theorem pickRule_diamond : diamondPool.Exact ∧
    ∀ s b, Rounds ⟨9000⟩ (new diamondPool [⟨uint256S 4, 0#32⟩]) s → s.pick ⟨9000⟩ = some b →
      MeetsAlone diamondPool ⟨9000⟩ b ∧ MeetsWithAncestors diamondPool s ⟨9000⟩ b := by
  refine ⟨diamondPool_exact,
    ((pickRule_iff diamondPool diamondPool_exact diamondPool_fees [⟨uint256S 4, 0#32⟩]
    ⟨9000⟩).mpr ?_).1⟩
  intro s b hrun hpick
  have hone : s = new diamondPool [⟨uint256S 4, 0#32⟩] ∨ s.txids = ∅ := by
    refine hrun.invariant (fun s => s = new diamondPool [⟨uint256S 4, 0#32⟩] ∨
        s.txids = ∅) (.inl rfl)
      fun s _ s' hs hround _ => .inr ?_
    rcases hs with rfl | hempty
    · have hall : ((new diamondPool [⟨uint256S 4, 0#32⟩]).round ⟨9000⟩).map (·.txids) =
        some ∅ := by decide +kernel
      rw [hround] at hall
      exact Option.some.inj hall
    · obtain ⟨b, hpick, -⟩ := Option.map_eq_some_iff.mp hround
      have hb := (best_spec (pick_spec hpick).1).1
      rw [hempty] at hb
      cases hb
  have hb := (best_spec (pick_spec hpick).1).1
  rcases hone with rfl | hempty
  · exact ⟨uint256S 4, by decide +kernel,
      ((remaining_new diamondPool_exact).le_minFeerate (new_closed diamondPool_exact)
      diamondPool_fees (by decide +kernel)).mp (by decide +kernel)⟩
  · rw [hempty] at hb
    cases hb

/-- At 10 satoshis a byte it is taken although it pays less than that itself. -/
theorem diamond_below_target :
    ∃ s b, diamondPool.Exact ∧ (∀ x ∈ diamondPool.txids, 0 ≤ (diamondPool.entry x).modifiedFee) ∧
    Rounds ⟨10000⟩ (new diamondPool [⟨uint256S 4, 0#32⟩]) s ∧ s.pick ⟨10000⟩ = some b ∧
    b ∈ ((new diamondPool [⟨uint256S 4, 0#32⟩]).buildMockTemplate ⟨10000⟩).inBlock ∧
    ¬ MeetsAlone diamondPool ⟨10000⟩ b := by
  refine ⟨_, uint256S 4, diamondPool_exact, diamondPool_fees, .init, by decide +kernel,
    by decide +kernel, ?_⟩
  unfold MeetsAlone CFeeRate.MetBy
  decide +kernel

end MiniMiner

end Bitcoboost
