import Bitcoboost.Script.Script

/-!
# Amounts and transactions

The classes of `primitives/transaction.h` and the amounts of `consensus/amount.h`.
The double SHA256 that makes a transaction id is a parameter: nothing here
depends on which function it is.
-/

namespace Bitcoboost

open List Bool

/-- `CAmount`, an `int64_t` number of the smallest unit. -/
abbrev CAmount := Int

def coin : CAmount := 100000000

def maxMoney : CAmount := 21000000 * coin

def moneyRange (nValue : CAmount) : Bool := 0 ≤ nValue ∧ nValue ≤ maxMoney

structure COutPoint where
  hash : Uint256
  n : BitVec 32
deriving DecidableEq, Repr

def COutPoint.nullIndex : BitVec 32 := 0xffffffff#32

def COutPoint.isNull (o : COutPoint) : Bool := o.hash = nullUint256 ∧ o.n = COutPoint.nullIndex

/-- `COutPoint(hash, i)` with `i` a `size_t`. -/
def COutPoint.ofIndex (hash : Uint256) (i : Nat) : COutPoint := ⟨hash, BitVec.ofNat 32 i⟩

structure CTxIn where
  prevout : COutPoint
  scriptSig : CScript
  nSequence : BitVec 32
  scriptWitness : CScriptWitness
deriving DecidableEq, Repr

structure CTxOut where
  nValue : CAmount
  scriptPubKey : CScript
deriving DecidableEq, Repr

/-- `CTxOut::SetNull`. -/
def CTxOut.null : CTxOut := ⟨-1, []⟩

def CTxOut.isNull (out : CTxOut) : Bool := out.nValue = -1

/-- `CTransaction` and `CMutableTransaction`. -/
structure CTransaction where
  vin : List CTxIn
  vout : List CTxOut
  nVersion : BitVec 32
  nLockTime : BitVec 32
deriving DecidableEq, Repr

/-! ## Serialization -/

/-- `Serialize` of a `uint32_t` or `int32_t`. -/
def serializeUint32 (a : BitVec 32) : Bytes := leBytes 4 a.toNat

def COutPoint.serialize (o : COutPoint) : Bytes := o.hash.data ++ serializeUint32 o.n

def CTxIn.serialize (txin : CTxIn) : Bytes :=
  txin.prevout.serialize ++ serializeBytes txin.scriptSig ++ serializeUint32 txin.nSequence

def CTxOut.serialize (out : CTxOut) : Bytes :=
  serializeInt64 out.nValue ++ serializeBytes out.scriptPubKey

variable (tx : CTransaction)

def CTransaction.hasWitness : Bool := tx.vin.any fun txin => !txin.scriptWitness.isEmpty

def CTransaction.serialize (fAllowWitness : Bool) : Bytes :=
  let flags := fAllowWitness && tx.hasWitness
  serializeUint32 tx.nVersion
    -- the extended format starts with an empty vector in the place of `vin`
    ++ (if flags then serializeVector CTxIn.serialize [] ++ [1] else [])
    ++ serializeVector CTxIn.serialize tx.vin
    ++ serializeVector CTxOut.serialize tx.vout
    ++ (if flags then tx.vin.flatMap fun txin =>
      serializeVector serializeBytes txin.scriptWitness else [])
    ++ serializeUint32 tx.nLockTime

/-! ## Reading back -/

/-- What the sizes and amounts of a transaction in memory satisfy: a size is a `size_t`
and an amount an `int64_t`. -/
structure CTransaction.Representable (tx : CTransaction) : Prop where
  vin : tx.vin.length < 2 ^ 64
  scriptSig : ∀ txin ∈ tx.vin, txin.scriptSig.length < 2 ^ 64
  vout : tx.vout.length < 2 ^ 64
  nValue : ∀ out ∈ tx.vout, IsInt64 out.nValue
  scriptPubKey : ∀ out ∈ tx.vout, out.scriptPubKey.length < 2 ^ 64
  witness : ∀ txin ∈ tx.vin, txin.scriptWitness.length < 2 ^ 64 ∧ ∀ item ∈ txin.scriptWitness,
    item.length < 2 ^ 64

def CTxIn.strip (txin : CTxIn) : CTxIn := { txin with scriptWitness := [] }

/-- A transaction without its witnesses. -/
def CTransaction.strip : CTransaction := { tx with vin := tx.vin.map CTxIn.strip }

namespace TransactionLemmas

theorem selfDelimiting_serializeUint32 : SelfDelimiting (fun _ => True) serializeUint32 := by
  refine .of_length (fun a _ => length_leBytes 4 _) fun a _ b _ h => ?_
  exact BitVec.eq_of_toNat_eq ((selfDelimiting_leBytes 4).injective a.isLt b.isLt h)

theorem selfDelimiting_uint256 : SelfDelimiting (fun _ : Uint256 => True) BaseBlob.data :=
  .of_length (fun a _ => a.length_data) fun _ _ _ _ h => BaseBlob.ext h

theorem selfDelimiting_outPoint : SelfDelimiting (fun _ => True) COutPoint.serialize := by
  intro o _ o' _ x y h
  rw [COutPoint.serialize, COutPoint.serialize, append_assoc, append_assoc] at h
  obtain ⟨hhash, h⟩ := selfDelimiting_uint256 trivial trivial h
  obtain ⟨hn, hrest⟩ := selfDelimiting_serializeUint32 trivial trivial h
  cases o
  cases o'
  cases hhash
  cases hn
  exact ⟨rfl, hrest⟩

theorem selfDelimiting_txin :
    SelfDelimiting (fun txin : CTxIn => txin.scriptSig.length < 2 ^ 64 ∧
      txin.scriptWitness = []) CTxIn.serialize := by
  intro txin htxin txin' htxin' x y h
  simp only [CTxIn.serialize, append_assoc] at h
  obtain ⟨hprevout, h⟩ := selfDelimiting_outPoint trivial trivial h
  obtain ⟨hscript, h⟩ := selfDelimiting_serializeBytes htxin.1 htxin'.1 h
  obtain ⟨hsequence, hrest⟩ := selfDelimiting_serializeUint32 trivial trivial h
  obtain ⟨prevout, scriptSig, nSequence, scriptWitness⟩ := txin
  obtain ⟨prevout', scriptSig', nSequence', scriptWitness'⟩ := txin'
  cases hprevout
  cases hscript
  cases hsequence
  cases htxin.2
  cases htxin'.2
  exact ⟨rfl, hrest⟩

theorem selfDelimiting_txout :
    SelfDelimiting (fun out : CTxOut => IsInt64 out.nValue ∧
      out.scriptPubKey.length < 2 ^ 64) CTxOut.serialize := by
  intro out hout out' hout' x y h
  obtain ⟨hvalue, h⟩ := selfDelimiting_serializeInt64 hout.1 hout'.1 h
  obtain ⟨hscript, hrest⟩ := selfDelimiting_serializeBytes hout.2 hout'.2 h
  cases out
  cases out'
  cases hvalue
  cases hscript
  exact ⟨rfl, hrest⟩

theorem serializeVector_strip (vin : List CTxIn) :
    serializeVector CTxIn.serialize vin = serializeVector CTxIn.serialize
    (vin.map CTxIn.strip) := by
  rw [serializeVector, serializeVector, length_map, flatMap_map]
  rfl

theorem length_vin_of_strip {tx tx' : CTransaction} (h : tx.strip = tx'.strip) :
    tx.vin.length = tx'.vin.length := by
  have hlen := congrArg (fun tx => tx.vin.length) h
  simpa [CTransaction.strip] using hlen

/-- A transaction is what it is without witnesses, and its witnesses. -/
theorem eq_of_strip {tx tx' : CTransaction} (h : tx.strip = tx'.strip)
    (hwitness : tx.vin.map CTxIn.scriptWitness = tx'.vin.map CTxIn.scriptWitness) : tx = tx' := by
  obtain ⟨vin, vout, nVersion, nLockTime⟩ := tx
  obtain ⟨vin', vout', nVersion', nLockTime'⟩ := tx'
  simp only [CTransaction.strip, CTransaction.mk.injEq] at h hwitness ⊢
  refine ⟨?_, h.2⟩
  obtain ⟨hvin, _⟩ := h
  clear! vout vout' nVersion nVersion' nLockTime nLockTime'
  induction vin generalizing vin' with
  | nil => exact (List.map_eq_nil_iff.mp hvin.symm).symm
  | cons txin vin ih =>
    cases vin' with
    | nil => cases hvin
    | cons txin' vin' =>
      obtain ⟨hstrip, hvin⟩ := List.cons.inj hvin
      obtain ⟨hstack, hwitness⟩ := List.cons.inj hwitness
      rw [ih vin' hwitness hvin]
      obtain ⟨prevout', scriptSig', nSequence', scriptWitness'⟩ := txin'
      cases hstrip
      cases hstack
      rfl

theorem strip_of_not_hasWitness {tx : CTransaction} (hw : tx.hasWitness = false) :
    tx.strip = tx := by
  have hvin : tx.vin.map CTxIn.strip = tx.vin := by
    conv_rhs => rw [← map_id tx.vin]
    refine map_congr_left fun txin hin => ?_
    rw [CTransaction.hasWitness, any_eq_false] at hw
    have hnil : txin.scriptWitness = [] := by simpa using hw txin hin
    rw [CTxIn.strip, ← hnil]
    rfl
  rw [CTransaction.strip, hvin]

end TransactionLemmas

namespace CTransaction.Representable

open TransactionLemmas

variable {tx tx' : CTransaction}

section

variable (h : tx.Representable)
include h

theorem strip_vin : (tx.vin.map CTxIn.strip).length < 2 ^ 64 ∧
    ∀ txin ∈ tx.vin.map CTxIn.strip, txin.scriptSig.length < 2 ^ 64 ∧ txin.scriptWitness = [] := by
  refine ⟨by rw [length_map]; exact h.vin, fun txin hmem => ?_⟩
  obtain ⟨txin, hin, rfl⟩ := List.mem_map.mp hmem
  exact ⟨h.scriptSig txin hin, rfl⟩

theorem txout : tx.vout.length < 2 ^ 64 ∧
    ∀ out ∈ tx.vout, IsInt64 out.nValue ∧ out.scriptPubKey.length < 2 ^ 64 :=
  ⟨h.vout, fun out hmem => ⟨h.nValue out hmem, h.scriptPubKey out hmem⟩⟩

/-- The inputs and outputs in a serialization. -/
theorem vectors_inj (h' : tx'.Representable) {x y : Bytes}
    (heq : serializeVector CTxIn.serialize tx.vin ++
      (serializeVector CTxOut.serialize tx.vout ++ x) =
      serializeVector CTxIn.serialize tx'.vin ++ (serializeVector CTxOut.serialize tx'.vout ++ y)) :
    tx.vin.map CTxIn.strip = tx'.vin.map CTxIn.strip ∧ tx.vout = tx'.vout ∧ x = y := by
  rw [serializeVector_strip tx.vin, serializeVector_strip tx'.vin] at heq
  obtain ⟨hvin, heq⟩ :=
    selfDelimiting_serializeVector selfDelimiting_txin h.strip_vin h'.strip_vin heq
  obtain ⟨hvout, hrest⟩ := selfDelimiting_serializeVector selfDelimiting_txout h.txout h'.txout heq
  exact ⟨hvin, hvout, hrest⟩

/-- The serialization without witnesses tells the transaction without witnesses. -/
theorem strip_eq_of_serialize (h' : tx'.Representable)
    (heq : tx.serialize false = tx'.serialize false) : tx.strip = tx'.strip := by
  simp only [serialize, Bool.false_and, false_eq_true, if_false, append_nil, append_assoc]
    at heq
  obtain ⟨hversion, heq⟩ := selfDelimiting_serializeUint32 trivial trivial heq
  obtain ⟨hvin, hvout, hlock⟩ := h.vectors_inj h' heq
  have hlock := selfDelimiting_serializeUint32.injective trivial trivial hlock
  simp [strip, hversion, hvin, hvout, hlock]

/-- The extended serialization tells the transaction. -/
theorem eq_of_serialize_witness (h' : tx'.Representable) (hw : tx.hasWitness = true)
    (hw' : tx'.hasWitness = true) (heq : tx.serialize true = tx'.serialize true) : tx = tx' := by
  simp only [serialize, hw, hw', Bool.true_and, if_true, append_assoc] at heq
  obtain ⟨hversion, heq⟩ := selfDelimiting_serializeUint32 trivial trivial heq
  have heq := append_cancel_left (append_cancel_left heq)
  obtain ⟨hvin, hvout, heq⟩ := h.vectors_inj h' heq
  have hstacks {tx : CTransaction} (h : tx.Representable) :
      ∀ stack ∈ tx.vin.map CTxIn.scriptWitness,
      stack.length < 2 ^ 64 ∧ ∀ item ∈ stack, item.length < 2 ^ 64 := by
    intro stack hmem
    obtain ⟨txin, hin, rfl⟩ := List.mem_map.mp hmem
    exact h.witness txin hin
  have hlen :
      (tx.vin.map CTxIn.scriptWitness).length = (tx'.vin.map CTxIn.scriptWitness).length := by
    have := congrArg List.length hvin
    rwa [length_map, length_map] at this ⊢
  rw [← flatMap_map (f := CTxIn.scriptWitness), ← flatMap_map (f := CTxIn.scriptWitness)] at heq
  obtain ⟨hwitness, hlock⟩ :=
      (selfDelimiting_serializeVector selfDelimiting_serializeBytes).flatMap (hstacks h)
    (hstacks h') hlen heq
  have hlock := selfDelimiting_serializeUint32.injective trivial trivial hlock
  refine eq_of_strip ?_ hwitness
  simp [strip, hversion, hvin, hvout, hlock]

end

/-- A serialization with witnesses is not the one without of a transaction that has an
input. -/
theorem serialize_witness_ne (h' : tx'.Representable) (hvin : 0 < tx'.vin.length)
    (hw : tx.hasWitness = true) : tx.serialize true ≠ tx'.serialize false := by
  intro heq
  simp only [serialize, hw, Bool.true_and, Bool.false_and, false_eq_true, if_true, if_false,
    nil_append, append_assoc] at heq
  obtain ⟨_, heq⟩ := selfDelimiting_serializeUint32 trivial trivial heq
  simp only [serializeVector, append_assoc] at heq
  have hzero : 0 = tx'.vin.length :=
    (selfDelimiting_writeCompactSize (show ([] : List CTxIn).length < 2 ^ 64 by decide)
      h'.vin heq).1
  exact absurd hzero (Nat.ne_of_lt hvin)

/-- The serialization determines a transaction that has an input. -/
theorem eq_of_serialize (h : tx.Representable) (h' : tx'.Representable) (hvin : 0 < tx.vin.length)
    (hvin' : 0 < tx'.vin.length) (heq : tx.serialize true = tx'.serialize true) : tx = tx' := by
  have hplain {tx : CTransaction} (hw : tx.hasWitness = false) :
      tx.serialize true = tx.serialize false := by
    simp [serialize, hw]
  cases hw : tx.hasWitness with
  | true =>
    cases hw' : tx'.hasWitness with
    | true => exact h.eq_of_serialize_witness h' hw hw' heq
    | false => exact absurd (heq.trans (hplain hw')) (h'.serialize_witness_ne hvin' hw)
  | false =>
    cases hw' : tx'.hasWitness with
    | true => exact absurd (heq.symm.trans (hplain hw)) (h.serialize_witness_ne hvin hw')
    | false =>
      rw [hplain hw, hplain hw'] at heq
      rw [← strip_of_not_hasWitness hw, ← strip_of_not_hasWitness hw']
      exact h.strip_eq_of_serialize h' heq

end CTransaction.Representable

/-! ## Member functions -/

namespace CTransaction

/-- `GetHash`: the transaction id. -/
def getHash (hash : Bytes → Uint256) (tx : CTransaction) : Uint256 := hash (tx.serialize false)

def getWitnessHash (hash : Bytes → Uint256) (tx : CTransaction) : Uint256 :=
  if !tx.hasWitness then tx.getHash hash else hash (tx.serialize true)

theorem getWitnessHash_eq (hash : Bytes → Uint256) (tx : CTransaction) :
    tx.getWitnessHash hash = hash (tx.serialize true) := by
  cases hw : tx.hasWitness with
  | false => simp [getWitnessHash, getHash, serialize, hw]
  | true => simp [getWitnessHash, hw]

def isCoinBase : Bool :=
  match tx.vin with
  | [txin] => txin.prevout.isNull
  | _ => false

/-- The loop of `GetValueOut`. `none` is the exception that it throws. -/
def valueOutFrom (nValueOut : CAmount) : List CTxOut → Option CAmount
  | [] => some nValueOut
  | out :: vout =>
    if !moneyRange out.nValue || !moneyRange (nValueOut + out.nValue) then none
    else valueOutFrom (nValueOut + out.nValue) vout

def getValueOut : Option CAmount := do
  let nValueOut ← valueOutFrom 0 tx.vout
  if moneyRange nValueOut then some nValueOut else none

end CTransaction

end Bitcoboost
