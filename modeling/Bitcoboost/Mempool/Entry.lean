import Bitcoboost.Policy.Policy
import Mathlib.Algebra.BigOperators.Group.Finset.Basic

/-!
# Entries of the memory pool

`CTxMemPoolEntry` of `kernel/mempool_entry.h`: a transaction with its fee and size, its parents
and children in the pool, and what it keeps about its ancestors and descendants, itself included.
The links are sets of txids. `nBytesPerSigOp`, a global of the source, is a parameter of the types.
-/

namespace Bitcoboost.Mempool

/-- The bytes of a blob in the order in which `base_blob::operator<` compares them. -/
def byteValues {n : Nat} (a : BaseBlob n) : List Nat := a.data.map UInt8.toNat

theorem byteValues_injective {n : Nat} : Function.Injective (byteValues (n := n)) :=
  fun _ _ h => BaseBlob.ext (List.map_injective_iff.mpr (fun _ _ => UInt8.toNat.inj) h)

instance {n : Nat} : LinearOrder (BaseBlob n) where
  __ := PartialOrder.lift byteValues byteValues_injective
  le_total a b := le_total (byteValues a) (byteValues b)
  toDecidableLE a b := inferInstanceAs (Decidable (byteValues a ≤ byteValues b))
  toDecidableEq := instDecidableEqBaseBlob

abbrev Txid := Uint256

instance : LawfulBEq Txid := inferInstance

def saturatingAdd (i j : Int) : Int :=
  if i > 0 ∧ j > 2 ^ 63 - 1 - i then 2 ^ 63 - 1
  else if i < 0 ∧ j < -2 ^ 63 - i then -2 ^ 63
  else i + j

/-! ## Totals -/

/-- What an entry keeps about the ancestors, or the descendants, that it counts. The cost
of signature operations is kept for ancestors only: for descendants it stays zero. -/
@[ext]
structure Totals where
  count : Int
  size : Int
  modFees : CAmount
  sigOpCost : Int
deriving DecidableEq, Repr

namespace Totals

instance : Add Totals :=
  ⟨fun a b => ⟨a.count + b.count, a.size + b.size, a.modFees + b.modFees,
    a.sigOpCost + b.sigOpCost⟩⟩

instance : Zero Totals := ⟨⟨0, 0, 0, 0⟩⟩

instance : Neg Totals := ⟨fun a => ⟨-a.count, -a.size, -a.modFees, -a.sigOpCost⟩⟩

@[simp] theorem count_add (a b : Totals) : (a + b).count = a.count + b.count := rfl
@[simp] theorem size_add (a b : Totals) : (a + b).size = a.size + b.size := rfl
@[simp] theorem modFees_add (a b : Totals) : (a + b).modFees = a.modFees + b.modFees := rfl
@[simp] theorem sigOpCost_add (a b : Totals) : (a + b).sigOpCost = a.sigOpCost + b.sigOpCost := rfl
@[simp] theorem count_zero : (0 : Totals).count = 0 := rfl
@[simp] theorem size_zero : (0 : Totals).size = 0 := rfl
@[simp] theorem modFees_zero : (0 : Totals).modFees = 0 := rfl
@[simp] theorem sigOpCost_zero : (0 : Totals).sigOpCost = 0 := rfl
@[simp] theorem count_neg (a : Totals) : (-a).count = -a.count := rfl
@[simp] theorem size_neg (a : Totals) : (-a).size = -a.size := rfl
@[simp] theorem modFees_neg (a : Totals) : (-a).modFees = -a.modFees := rfl
@[simp] theorem sigOpCost_neg (a : Totals) : (-a).sigOpCost = -a.sigOpCost := rfl

instance : AddCommGroup Totals where
  add_assoc a b c := by ext <;> simp [add_assoc]
  zero_add a := by ext <;> simp
  add_zero a := by ext <;> simp
  neg_add_cancel a := by ext <;> simp
  add_comm a b := by ext <;> simp [add_comm]
  nsmul := nsmulRec
  zsmul := zsmulRec

section Sum

variable {ι : Type} (s : Finset ι) (w : ι → Totals)

theorem count_sum : (∑ i ∈ s, w i).count = ∑ i ∈ s, (w i).count :=
  map_sum ({ toFun := count, map_zero' := rfl, map_add' := fun _ _ => rfl } : Totals →+ Int) w s

theorem size_sum : (∑ i ∈ s, w i).size = ∑ i ∈ s, (w i).size :=
  map_sum ({ toFun := size, map_zero' := rfl, map_add' := fun _ _ => rfl } : Totals →+ Int) w s

theorem modFees_sum : (∑ i ∈ s, w i).modFees = ∑ i ∈ s, (w i).modFees :=
  map_sum ({ toFun := modFees, map_zero' := rfl, map_add' := fun _ _ => rfl } : Totals →+ Int) w s

theorem sigOpCost_sum : (∑ i ∈ s, w i).sigOpCost = ∑ i ∈ s, (w i).sigOpCost :=
  map_sum ({ toFun := sigOpCost, map_zero' := rfl, map_add' := fun _ _ => rfl } : Totals →+ Int) w s

end Sum

/-- `UpdateAncestorState`, and `UpdateDescendantState`, which has no signature operations.
`modifySize` is an `int32_t`. `none` is a failed assertion. -/
def update (t modify : Totals) : Option Totals :=
  let size := t.size + toInt32 modify.size
  let count := t.count + modify.count
  let sigOpCost := t.sigOpCost + modify.sigOpCost
  if 0 < size ∧ 0 < count ∧ 0 ≤ toInt32 sigOpCost then
    some ⟨count, size, saturatingAdd t.modFees modify.modFees, sigOpCost⟩
  else none

end Totals

/-! ## Entries -/

/-- What the constructor of `CTxMemPoolEntry` is given. The weight is positive, and the
virtual size fits the `int32_t` that `GetTxSize` returns. -/
structure NewTx (nBytesPerSigOp : Nat) where
  tx : CTransaction
  nFee : CAmount
  nTime : Int
  sigOpCost : Int
  weight_pos : 0 < getTransactionWeight tx
  sigOpCost_nonneg : 0 ≤ sigOpCost
  sigOpCost_lt : sigOpCost < 2 ^ 31
  size_lt : sigOpCost * nBytesPerSigOp < 2 ^ 31

variable {nBytesPerSigOp : Nat}

namespace NewTx

variable (e : NewTx nBytesPerSigOp)

def nTxWeight : Int := getTransactionWeight e.tx

def getTxSize : Int :=
  getVirtualTransactionSize e.nTxWeight e.sigOpCost nBytesPerSigOp

variable (e : NewTx nBytesPerSigOp)

theorem nTxWeight_le : e.nTxWeight ≤ 4 * e.getTxSize := by
  unfold getTxSize getVirtualTransactionSize witnessScaleFactor
  omega

theorem getTxSize_pos : 0 < e.getTxSize := by
  have hweight : 0 < e.nTxWeight := e.weight_pos
  have hle := e.nTxWeight_le
  omega

theorem getTxSize_lt : e.getTxSize < 2 ^ 31 := by
  have hweight : e.nTxWeight < 2 ^ 31 := BitVec.toInt_lt
  have hmax : max e.nTxWeight (e.sigOpCost * nBytesPerSigOp) < 2 ^ 31 := max_lt hweight e.size_lt
  unfold getTxSize getVirtualTransactionSize witnessScaleFactor
  omega

/-- The txids that the inputs of the transaction name. -/
def prevoutHashes : List Txid :=
  e.tx.vin.map fun txin => txin.prevout.hash

end NewTx

structure CTxMemPoolEntry (nBytesPerSigOp : Nat) extends NewTx nBytesPerSigOp where
  modifiedFee : CAmount
  parents : Finset Txid
  children : Finset Txid
  withDescendants : Totals
  withAncestors : Totals

namespace CTxMemPoolEntry

/-- What an entry adds to the totals that a descendant of it keeps. -/
def weight (e : CTxMemPoolEntry nBytesPerSigOp) : Totals :=
  ⟨1, e.getTxSize, e.modifiedFee, e.sigOpCost⟩

/-- What an entry adds to the totals that an ancestor of it keeps. -/
def descendantWeight (e : CTxMemPoolEntry nBytesPerSigOp) : Totals :=
  ⟨1, e.getTxSize, e.modifiedFee, 0⟩

/-- The constructor. -/
def new (e : NewTx nBytesPerSigOp) : CTxMemPoolEntry nBytesPerSigOp where
  toNewTx := e
  modifiedFee := e.nFee
  parents := ∅
  children := ∅
  withDescendants := ⟨1, e.getTxSize, e.nFee, 0⟩
  withAncestors := ⟨1, e.getTxSize, e.nFee, e.sigOpCost⟩

def updateModifiedFee (feeDiff : CAmount) (e : CTxMemPoolEntry nBytesPerSigOp) :
    CTxMemPoolEntry nBytesPerSigOp :=
  { e with
    withDescendants :=
      { e.withDescendants with modFees := saturatingAdd e.withDescendants.modFees feeDiff }
    withAncestors :=
      { e.withAncestors with modFees := saturatingAdd e.withAncestors.modFees feeDiff }
    modifiedFee := saturatingAdd e.modifiedFee feeDiff }

def updateDescendantState (modify : Totals) (e : CTxMemPoolEntry nBytesPerSigOp) :
    Option (CTxMemPoolEntry nBytesPerSigOp) :=
  (e.withDescendants.update modify).map fun withDescendants => { e with withDescendants }

def updateAncestorState (modify : Totals) (e : CTxMemPoolEntry nBytesPerSigOp) :
    Option (CTxMemPoolEntry nBytesPerSigOp) :=
  (e.withAncestors.update modify).map fun withAncestors => { e with withAncestors }

end CTxMemPoolEntry

end Bitcoboost.Mempool
