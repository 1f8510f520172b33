import Bitcoboost.Lib.ExceptBind
import Bitcoboost.Primitives.Transaction

/-!
# Combining partially signed transactions

`CombinePSBTs` of `psbt.cpp` with the `Merge` of the three structures of `psbt.h`. A `Merge` does
not mention the sighash type of an input, the version and the proprietary sets, and it inserts
the control blocks of a Taproot leaf as one value.

A `std::map` is a function to optional values, a `std::set` whose order reads only a part of its
elements is a map from this part to the rest.
-/

namespace Bitcoboost.Psbt

open List

/-! ## The structures -/

/-- `std::map`. -/
abbrev Map (κ α : Type) := κ → Option α

/-- `insert(begin, end)` of a map: a key that is there keeps its value. -/
def Map.insertAll {κ α : Type} (m m' : Map κ α) : Map κ α := fun key => (m key).or (m' key)

/-- The bytes of a `CPubKey`. -/
abbrev CPubKey := Bytes

abbrev XOnlyPubKey := Uint256

structure KeyOriginInfo where
  fingerprint : BaseBlob 4
  path : List (BitVec 32)
deriving DecidableEq, Repr

/-- The members of `CExtPubKey` that its `operator<` does not read. -/
structure ExtKeyInfo where
  version : BaseBlob 4
  nDepth : UInt8
  vchFingerprint : BaseBlob 4
  nChild : BitVec 32
deriving DecidableEq, Repr

structure CExtPubKey where
  info : ExtKeyInfo
  chaincode : Uint256
  pubkey : CPubKey
deriving DecidableEq, Repr

/-- `std::set<CExtPubKey>`. -/
abbrev XpubSet := Map (CPubKey × Uint256) ExtKeyInfo

/-- `PSBTProprietary` without its `key`, by which a set of them is ordered. -/
structure PSBTProprietary where
  subtype : BitVec 64
  identifier : Bytes
  value : Bytes
deriving DecidableEq, Repr

/-- A script of a Taproot tree with its leaf version. -/
abbrev TapLeaf := Bytes × Int

structure PSBTInput where
  nonWitnessUtxo : Option CTransaction
  witnessUtxo : CTxOut
  redeemScript : CScript
  witnessScript : CScript
  finalScriptSig : CScript
  finalScriptWitness : CScriptWitness
  hdKeypaths : Map CPubKey KeyOriginInfo
  partialSigs : Map Uint160 (CPubKey × Bytes)
  ripemd160Preimages : Map Uint160 Bytes
  sha256Preimages : Map Uint256 Bytes
  hash160Preimages : Map Uint160 Bytes
  hash256Preimages : Map Uint256 Bytes
  tapKeySig : Bytes
  tapScriptSigs : Map (XOnlyPubKey × Uint256) Bytes
  tapScripts : Map TapLeaf (Finset Bytes)
  tapBip32Paths : Map XOnlyPubKey (Finset Uint256 × KeyOriginInfo)
  tapInternalKey : XOnlyPubKey
  tapMerkleRoot : Uint256
  unknown : Map Bytes Bytes
  proprietary : Map Bytes PSBTProprietary
  sighashType : Option (BitVec 32)

structure PSBTOutput where
  redeemScript : CScript
  witnessScript : CScript
  hdKeypaths : Map CPubKey KeyOriginInfo
  tapInternalKey : XOnlyPubKey
  tapTree : List (UInt8 × UInt8 × Bytes)
  tapBip32Paths : Map XOnlyPubKey (Finset Uint256 × KeyOriginInfo)
  unknown : Map Bytes Bytes
  proprietary : Map Bytes PSBTProprietary

/-- `PartiallySignedTransaction` as `Unserialize` leaves it: there is a transaction, and
an entry for each of its inputs and outputs. -/
structure PartiallySignedTransaction where
  tx : CTransaction
  xpubs : Map KeyOriginInfo XpubSet
  inputs : List PSBTInput
  outputs : List PSBTOutput
  unknown : Map Bytes Bytes
  version : Option (BitVec 32)
  proprietary : Map Bytes PSBTProprietary
  length_inputs : inputs.length = tx.vin.length
  length_outputs : outputs.length = tx.vout.length

/-! ## The code -/

/-- `if (x.empty() && !y.empty()) x = y`, also with `IsNull`. -/
def firstSet {α : Type} (isNull : α → Bool) (x y : α) : α := if isNull x && !isNull y then y else x

/-- `IsNull` of a `uint256` or an `XOnlyPubKey`. -/
def isNull (x : Uint256) : Bool := x = nullUint256

def PSBTInput.merge (self input : PSBTInput) : PSBTInput :=
  { self with
    nonWitnessUtxo := firstSet Option.isNone self.nonWitnessUtxo input.nonWitnessUtxo
    witnessUtxo := firstSet CTxOut.isNull self.witnessUtxo input.witnessUtxo
    partialSigs := self.partialSigs.insertAll input.partialSigs
    ripemd160Preimages := self.ripemd160Preimages.insertAll input.ripemd160Preimages
    sha256Preimages := self.sha256Preimages.insertAll input.sha256Preimages
    hash160Preimages := self.hash160Preimages.insertAll input.hash160Preimages
    hash256Preimages := self.hash256Preimages.insertAll input.hash256Preimages
    hdKeypaths := self.hdKeypaths.insertAll input.hdKeypaths
    unknown := self.unknown.insertAll input.unknown
    tapScriptSigs := self.tapScriptSigs.insertAll input.tapScriptSigs
    tapScripts := self.tapScripts.insertAll input.tapScripts
    tapBip32Paths := self.tapBip32Paths.insertAll input.tapBip32Paths
    redeemScript := firstSet List.isEmpty self.redeemScript input.redeemScript
    witnessScript := firstSet List.isEmpty self.witnessScript input.witnessScript
    finalScriptSig := firstSet List.isEmpty self.finalScriptSig input.finalScriptSig
    finalScriptWitness := firstSet List.isEmpty self.finalScriptWitness input.finalScriptWitness
    tapKeySig := firstSet List.isEmpty self.tapKeySig input.tapKeySig
    tapInternalKey := firstSet isNull self.tapInternalKey input.tapInternalKey
    tapMerkleRoot := firstSet isNull self.tapMerkleRoot input.tapMerkleRoot }

def PSBTOutput.merge (self output : PSBTOutput) : PSBTOutput :=
  { self with
    hdKeypaths := self.hdKeypaths.insertAll output.hdKeypaths
    unknown := self.unknown.insertAll output.unknown
    tapBip32Paths := self.tapBip32Paths.insertAll output.tapBip32Paths
    redeemScript := firstSet List.isEmpty self.redeemScript output.redeemScript
    witnessScript := firstSet List.isEmpty self.witnessScript output.witnessScript
    tapInternalKey := firstSet isNull self.tapInternalKey output.tapInternalKey
    tapTree := firstSet List.isEmpty self.tapTree output.tapTree }

/-- The loop over `psbt.m_xpubs`, for each key origin. -/
def mergeXpubs (self xpubs : Map KeyOriginInfo XpubSet) : Map KeyOriginInfo XpubSet := fun origin =>
  match xpubs origin with
  | none => self origin
  | some keys =>
    match self origin with
    | none => some keys
    | some own => some (own.insertAll keys)

/-- How combining can fail: `PSBT_MISMATCH`, or a vector is read past its end. -/
inductive CombineError where
  | psbtMismatch
  | outOfRange
deriving DecidableEq, Repr

namespace PartiallySignedTransaction

/-- The vectors of `psbt` are as long as the loops of `Merge` need. -/
abbrev Covers (psbt self : PartiallySignedTransaction) : Prop :=
  self.inputs.length ≤ psbt.inputs.length ∧ self.outputs.length ≤ psbt.outputs.length

/-- The part of `Merge` after its check. -/
def mergeEntries (self psbt : PartiallySignedTransaction) (h : psbt.Covers self) :
    PartiallySignedTransaction :=
  { self with
    inputs := List.zipWith PSBTInput.merge self.inputs psbt.inputs
    outputs := List.zipWith PSBTOutput.merge self.outputs psbt.outputs
    xpubs := mergeXpubs self.xpubs psbt.xpubs
    unknown := self.unknown.insertAll psbt.unknown
    length_inputs := by rw [length_zipWith, Nat.min_eq_left h.1, self.length_inputs]
    length_outputs := by rw [length_zipWith, Nat.min_eq_left h.2, self.length_outputs] }

/-- `PartiallySignedTransaction::Merge`, with the double SHA256 that makes a transaction
id as a parameter. -/
def merge (hash : Bytes → Uint256) (self psbt : PartiallySignedTransaction) :
    Except CombineError PartiallySignedTransaction :=
  if self.tx.getHash hash ≠ psbt.tx.getHash hash then .error .psbtMismatch
  else if h : psbt.Covers self then .ok (self.mergeEntries psbt h)
  else .error .outOfRange

end PartiallySignedTransaction

/-- `CombinePSBTs`: `psbtxs[0]` is copied and the others are merged into it in turn. -/
def combinePSBTs (hash : Bytes → Uint256) :
    List PartiallySignedTransaction → Except CombineError PartiallySignedTransaction
  | [] => .error .outOfRange
  | psbtx :: psbtxs => psbtxs.foldlM (PartiallySignedTransaction.merge hash) psbtx

/-! ## The key-value pairs

A field holds at most one value. Two kinds of pairs are stored the other way round: the
key of a Taproot leaf script is a control block and that of an extended key is the
extended key, while the maps of the structures go from the leaf and from the origin. -/

/-- The keys of the global map, without those of the extended keys. -/
inductive GlobalField where
  | version
  | unknown (key : Bytes)
  | proprietary (key : Bytes)

/-- The keys of an input map, without those of the Taproot leaf scripts. -/
inductive InputField where
  | nonWitnessUtxo
  | witnessUtxo
  | redeemScript
  | witnessScript
  | finalScriptSig
  | finalScriptWitness
  | hdKeypath (pubkey : CPubKey)
  | partialSig (keyId : Uint160)
  | ripemd160Preimage (hash : Uint160)
  | sha256Preimage (hash : Uint256)
  | hash160Preimage (hash : Uint160)
  | hash256Preimage (hash : Uint256)
  | tapKeySig
  | tapScriptSig (pubkey : XOnlyPubKey) (leafHash : Uint256)
  | tapBip32Path (pubkey : XOnlyPubKey)
  | tapInternalKey
  | tapMerkleRoot
  | unknown (key : Bytes)
  | proprietary (key : Bytes)
  | sighashType

inductive OutputField where
  | redeemScript
  | witnessScript
  | hdKeypath (pubkey : CPubKey)
  | tapInternalKey
  | tapTree
  | tapBip32Path (pubkey : XOnlyPubKey)
  | unknown (key : Bytes)
  | proprietary (key : Bytes)

/-- A key that is not that of an extended key or of a Taproot leaf script. -/
inductive Field where
  | inGlobal (field : GlobalField)
  | inInput (i : Nat) (field : InputField)
  | inOutput (i : Nat) (field : OutputField)

def GlobalField.Value : GlobalField → Type
  | .version => BitVec 32
  | .unknown _ => Bytes
  | .proprietary _ => PSBTProprietary

def InputField.Value : InputField → Type
  | .nonWitnessUtxo => CTransaction
  | .witnessUtxo => CTxOut
  | .redeemScript | .witnessScript | .finalScriptSig => CScript
  | .finalScriptWitness => CScriptWitness
  | .hdKeypath _ => KeyOriginInfo
  | .partialSig _ => CPubKey × Bytes
  | .ripemd160Preimage _ | .sha256Preimage _ | .hash160Preimage _ | .hash256Preimage _ => Bytes
  | .tapKeySig | .tapScriptSig _ _ => Bytes
  | .tapBip32Path _ => Finset Uint256 × KeyOriginInfo
  | .tapInternalKey => XOnlyPubKey
  | .tapMerkleRoot => Uint256
  | .unknown _ => Bytes
  | .proprietary _ => PSBTProprietary
  | .sighashType => BitVec 32

def OutputField.Value : OutputField → Type
  | .redeemScript | .witnessScript => CScript
  | .hdKeypath _ => KeyOriginInfo
  | .tapInternalKey => XOnlyPubKey
  | .tapTree => List (UInt8 × UInt8 × Bytes)
  | .tapBip32Path _ => Finset Uint256 × KeyOriginInfo
  | .unknown _ => Bytes
  | .proprietary _ => PSBTProprietary

def Field.Value : Field → Type
  | .inGlobal field => field.Value
  | .inInput _ field => field.Value
  | .inOutput _ field => field.Value

/-- A member that stands for its absence with a null value. -/
def present {α : Type} (isNull : α → Bool) (x : α) : Option α := if isNull x then none else some x

def PSBTInput.get (input : PSBTInput) : (field : InputField) → Option field.Value
  | .nonWitnessUtxo => input.nonWitnessUtxo
  | .witnessUtxo => present CTxOut.isNull input.witnessUtxo
  | .redeemScript => present List.isEmpty input.redeemScript
  | .witnessScript => present List.isEmpty input.witnessScript
  | .finalScriptSig => present List.isEmpty input.finalScriptSig
  | .finalScriptWitness => present List.isEmpty input.finalScriptWitness
  | .hdKeypath pubkey => input.hdKeypaths pubkey
  | .partialSig keyId => input.partialSigs keyId
  | .ripemd160Preimage hash => input.ripemd160Preimages hash
  | .sha256Preimage hash => input.sha256Preimages hash
  | .hash160Preimage hash => input.hash160Preimages hash
  | .hash256Preimage hash => input.hash256Preimages hash
  | .tapKeySig => present List.isEmpty input.tapKeySig
  | .tapScriptSig pubkey leafHash => input.tapScriptSigs (pubkey, leafHash)
  | .tapBip32Path pubkey => input.tapBip32Paths pubkey
  | .tapInternalKey => present isNull input.tapInternalKey
  | .tapMerkleRoot => present isNull input.tapMerkleRoot
  | .unknown key => input.unknown key
  | .proprietary key => input.proprietary key
  | .sighashType => input.sighashType

def PSBTOutput.get (output : PSBTOutput) : (field : OutputField) → Option field.Value
  | .redeemScript => present List.isEmpty output.redeemScript
  | .witnessScript => present List.isEmpty output.witnessScript
  | .hdKeypath pubkey => output.hdKeypaths pubkey
  | .tapInternalKey => present isNull output.tapInternalKey
  | .tapTree => present List.isEmpty output.tapTree
  | .tapBip32Path pubkey => output.tapBip32Paths pubkey
  | .unknown key => output.unknown key
  | .proprietary key => output.proprietary key

/-- The fields that a `Merge` mentions. -/
def InputField.isMerged : InputField → Bool
  | .sighashType | .proprietary _ => false
  | _ => true

def OutputField.isMerged : OutputField → Bool
  | .proprietary _ => false
  | _ => true

def Field.isMerged : Field → Bool
  | .inGlobal .version | .inGlobal (.proprietary _) => false
  | .inGlobal (.unknown _) => true
  | .inInput _ field => field.isMerged
  | .inOutput _ field => field.isMerged

/-- A place of the data structure that is filled or empty. -/
inductive Slot where
  | field (f : Field)
  | tapScripts (i : Nat) (leaf : TapLeaf)
  | xpub (origin : KeyOriginInfo) (pubkey : CPubKey) (chaincode : Uint256)

def Slot.Content : Slot → Type
  | .field f => f.Value
  | .tapScripts _ _ => Finset Bytes
  | .xpub _ _ _ => ExtKeyInfo

def Slot.isMerged : Slot → Bool
  | .field f => f.isMerged
  | _ => true

namespace PartiallySignedTransaction

/-- What the place `slot` holds. -/
def read (psbt : PartiallySignedTransaction) : (slot : Slot) → Option slot.Content
  | .field (.inGlobal .version) => psbt.version
  | .field (.inGlobal (.unknown key)) => psbt.unknown key
  | .field (.inGlobal (.proprietary key)) => psbt.proprietary key
  | .field (.inInput i field) => (psbt.inputs[i]?).bind fun input => input.get field
  | .field (.inOutput i field) => (psbt.outputs[i]?).bind fun output => output.get field
  | .tapScripts i leaf => (psbt.inputs[i]?).bind fun input => input.tapScripts leaf
  | .xpub origin pubkey chaincode => (psbt.xpubs origin).bind fun keys => keys (pubkey, chaincode)

end PartiallySignedTransaction

/-- The keys of the serialized maps. The number of the map is a part of the key. -/
inductive Key where
  | field (f : Field)
  | tapLeafScript (i : Nat) (controlBlock : Bytes)
  | xpub (xpub : CExtPubKey)

def Key.Value : Key → Type
  | .field f => f.Value
  | .tapLeafScript _ _ => TapLeaf
  | .xpub _ => KeyOriginInfo

/-- The key-value pair is present. -/
def PartiallySignedTransaction.Has (psbt : PartiallySignedTransaction) :
    (key : Key) → key.Value → Prop
  | .field field, value => psbt.read (.field field) = some value
  | .tapLeafScript i controlBlock, leaf =>
    ∃ blocks : Finset Bytes, psbt.read (.tapScripts i leaf) = some blocks ∧ controlBlock ∈ blocks
  | .xpub xpub, origin => psbt.read (.xpub origin xpub.pubkey xpub.chaincode) = some xpub.info

/-! ## One merge -/

variable {α : Type} {psbtxs : List PartiallySignedTransaction} {hash : Bytes → Uint256}

theorem present_firstSet {isNull : α → Bool} {x y : α} :
    present isNull (firstSet isNull x y) = (present isNull x).or (present isNull y) := by
  cases hx : isNull x <;> cases hy : isNull y <;> simp [present, firstSet, hx, hy]

theorem firstSet_isNone (x y : Option α) : firstSet Option.isNone x y = x.or y := by
  cases x <;> cases y <;> rfl

theorem PSBTInput.get_merge (self input : PSBTInput) (field : InputField) :
    (self.merge input).get field
      = if field.isMerged then (self.get field).or (input.get field) else self.get field := by
  cases field with
  | nonWitnessUtxo => exact firstSet_isNone _ _
  | witnessUtxo | redeemScript | witnessScript | finalScriptSig | finalScriptWitness | tapKeySig
  | tapInternalKey | tapMerkleRoot => exact present_firstSet
  | _ => rfl

theorem PSBTOutput.get_merge (self output : PSBTOutput) (field : OutputField) :
    (self.merge output).get field
      = if field.isMerged then (self.get field).or (output.get field) else self.get field := by
  cases field with
  | redeemScript | witnessScript | tapInternalKey | tapTree => exact present_firstSet
  | _ => rfl

theorem mergeXpubs_bind (self xpubs : Map KeyOriginInfo XpubSet) (origin : KeyOriginInfo)
    (id : CPubKey × Uint256) : ((mergeXpubs self xpubs origin).bind fun keys => keys id)
      = ((self origin).bind fun keys => keys id).or ((xpubs origin).bind fun keys => keys id) := by
  cases hself : self origin <;> cases hxpubs : xpubs origin <;>
    simp [mergeXpubs, Map.insertAll, hself, hxpubs]

/-- What is read off one entry of two lists that are merged entry by entry. -/
theorem bind_getElem?_zipWith {β : Type} {f : α → α → α} {g : α → Option β} {merged : Bool}
    (hf : ∀ x y, g (f x y) = if merged then (g x).or (g y) else g x) {l l' : List α}
    (hlength : l.length = l'.length) {i : Nat} : ((List.zipWith f l l')[i]?).bind g
      = if merged then ((l[i]?).bind g).or ((l'[i]?).bind g) else (l[i]?).bind g := by
  rcases Nat.lt_or_ge i l.length with hlt | hge
  · have hx : l[i]? = some l[i] := List.getElem?_eq_getElem hlt
    have hy : l'[i]? = some l'[i] := List.getElem?_eq_getElem (hlength ▸ hlt)
    simp [List.getElem?_zipWith, hx, hy, hf]
  · have hx : l[i]? = none := List.getElem?_eq_none hge
    have hy : l'[i]? = none := List.getElem?_eq_none (hlength ▸ hge)
    simp [List.getElem?_zipWith, hx, hy]

namespace PartiallySignedTransaction

variable {self psbt : PartiallySignedTransaction}

theorem length_inputs_eq (htx : psbt.tx = self.tx) : self.inputs.length = psbt.inputs.length := by
  rw [self.length_inputs, psbt.length_inputs, htx]

theorem length_outputs_eq (htx : psbt.tx = self.tx) :
    self.outputs.length = psbt.outputs.length := by
  rw [self.length_outputs, psbt.length_outputs, htx]

theorem merge_eq (hash : Bytes → Uint256) (htx : psbt.tx = self.tx) :
    ∃ h : psbt.Covers self, self.merge hash psbt = .ok (self.mergeEntries psbt h) := by
  have h : psbt.Covers self := ⟨(length_inputs_eq htx).le, (length_outputs_eq htx).le⟩
  exact ⟨h, by rw [merge, htx, if_neg (not_not_intro rfl), dif_pos h]⟩

/-- A place that `Merge` knows of holds the own content, else that of the other operand. -/
theorem read_mergeEntries (htx : psbt.tx = self.tx) (h : psbt.Covers self) (slot : Slot) :
    (self.mergeEntries psbt h).read slot
      = if slot.isMerged then (self.read slot).or (psbt.read slot) else self.read slot := by
  rcases slot with ((_ | _ | _) | ⟨i, field⟩ | ⟨i, field⟩) | ⟨i, leaf⟩ | ⟨origin, pubkey, chaincode⟩
  -- the fields of the global map
  · rfl
  · rfl
  · rfl
  -- those of an input and of an output
  · exact bind_getElem?_zipWith (fun x y => x.get_merge y field) (length_inputs_eq htx)
  · exact bind_getElem?_zipWith (fun x y => x.get_merge y field) (length_outputs_eq htx)
  · exact bind_getElem?_zipWith (fun _ _ => rfl) (length_inputs_eq htx)
  · exact mergeXpubs_bind _ _ _ _

end PartiallySignedTransaction

/-! ## The whole list -/

/-- What `slot` holds in the first operand or, where `Merge` knows of it, in the first
one with a content there. -/
def firstRead (psbtxs : List PartiallySignedTransaction) (slot : Slot) : Option slot.Content :=
  if slot.isMerged then psbtxs.findSome? fun psbt => psbt.read slot
  else psbtxs.head?.bind fun psbt => psbt.read slot

theorem exists_of_firstRead {slot : Slot} {content : slot.Content}
    (h : firstRead psbtxs slot = some content) :
    ∃ psbt ∈ psbtxs, psbt.read slot = some content := by
  cases hmerged : slot.isMerged with
  | true =>
    rw [firstRead, if_pos hmerged] at h
    exact exists_of_findSome?_eq_some h
  | false =>
    rw [firstRead, if_neg (by simp [hmerged])] at h
    obtain ⟨psbt, hhead, hread⟩ := Option.bind_eq_some_iff.mp h
    exact ⟨psbt, mem_of_head? hhead, hread⟩

theorem firstRead_mergeEntries {psbtx psbt : PartiallySignedTransaction} (htx : psbt.tx = psbtx.tx)
    (h : psbt.Covers psbtx) (rest : List PartiallySignedTransaction) (slot : Slot) :
    firstRead (psbtx.mergeEntries psbt h :: rest) slot =
      firstRead (psbtx :: psbt :: rest) slot := by
  have hread := PartiallySignedTransaction.read_mergeEntries htx h slot
  cases hmerged : slot.isMerged with
  | true =>
    cases hx : psbtx.read slot <;> simp [firstRead, hmerged, hread, hx, List.findSome?_cons]
  | false =>
    simp [firstRead, hmerged, hread]

theorem read_combinePSBTs (hash : Bytes → Uint256) {tx : CTransaction} (hne : psbtxs ≠ [])
    (htx : ∀ psbt ∈ psbtxs, psbt.tx = tx) :
    ∃ result, combinePSBTs hash psbtxs = .ok result ∧ ∀ slot,
    result.read slot = firstRead psbtxs slot := by
  obtain ⟨psbtx, rest, rfl⟩ := exists_cons_of_ne_nil hne
  clear hne
  -- on the operands that are still to be merged into the first
  induction rest generalizing psbtx with
  | nil => exact ⟨psbtx, rfl, fun slot => by simp [firstRead]⟩
  | cons psbt rest ih =>
    obtain ⟨hself, hother, hrest⟩ :=
      List.forall_mem_cons.mp htx |>.imp_right List.forall_mem_cons.mp
    have hpsbt : psbt.tx = psbtx.tx := hother.trans hself.symm
    obtain ⟨h, hmerge⟩ := PartiallySignedTransaction.merge_eq hash hpsbt
    obtain ⟨result, hok, hread⟩ :=
      ih (psbtx.mergeEntries psbt h) (List.forall_mem_cons.mpr ⟨hself, hrest⟩)
    refine ⟨result, by rw [combinePSBTs, foldlM_cons, hmerge]; exact hok, fun slot => ?_⟩
    rw [hread, firstRead_mergeEntries hpsbt]

/-! ## What is lost -/

def PartiallySignedTransaction.SamePairs (psbt psbt' : PartiallySignedTransaction) : Prop :=
  ∀ key value, psbt.Has key value ↔ psbt'.Has key value

def NoConflict (psbtxs : List PartiallySignedTransaction) : Prop :=
  ∀ psbt ∈ psbtxs, ∀ psbt' ∈ psbtxs, ∀ key value value', psbt.Has key value → psbt'.Has key value' →
    value = value'

/-- Combining the operands in any order keeps every pair, or for a key with several
values one of them. It is idempotent and does not depend on the order. -/
structure CombinesAll (hash : Bytes → Uint256)
    (psbtxs : List PartiallySignedTransaction) : Prop where
  lossless : ∀ order, order.Perm psbtxs → ∃ result, combinePSBTs hash order = .ok result ∧
    ∀ psbt ∈ psbtxs, ∀ key value, psbt.Has key value →
      ∃ psbt' ∈ psbtxs, ∃ value', psbt'.Has key value' ∧ result.Has key value'
  idempotent : ∀ psbt ∈ psbtxs, combinePSBTs hash [psbt, psbt] = .ok psbt
  order_independent : NoConflict psbtxs → ∀ order, order.Perm psbtxs → ∀ order',
    order'.Perm psbtxs →
    ∃ result result', combinePSBTs hash order = .ok result ∧
      combinePSBTs hash order' = .ok result' ∧ result.SamePairs result'

/-- What `Merge` does not mention is in the first operand if it is in one. A control
block stands under some leaf in the first operand that has the leaf, and an extended key
under some origin in the first operand that has there an equivalent one. -/
structure FirstHoldsAll (psbtxs : List PartiallySignedTransaction) : Prop where
  fields : ∀ psbt ∈ psbtxs, ∀ field : Field, field.isMerged = false →
    (psbt.read (.field field)).isSome → ∃ first ∈ psbtxs.head?, (first.read (.field field)).isSome
  control_blocks : ∀ psbt ∈ psbtxs, ∀ i controlBlock leaf,
    psbt.Has (.tapLeafScript i controlBlock) leaf → ∃ leaf', ∃ blocks : Finset Bytes,
      (psbtxs.findSome? fun psbt => psbt.read (.tapScripts i leaf')) = some blocks ∧
      controlBlock ∈ blocks
  xpubs : ∀ psbt ∈ psbtxs, ∀ xpub origin, psbt.Has (.xpub xpub) origin →
    ∃ origin', (psbtxs.findSome? fun psbt => psbt.read (.xpub origin' xpub.pubkey xpub.chaincode)) =
    some xpub.info

section Result

variable {psbtxs : List PartiallySignedTransaction} {result : PartiallySignedTransaction}

/-- Every pair of the result is one of an operand. -/
theorem exists_has_of_result (hread : ∀ slot, result.read slot = firstRead psbtxs slot) {key : Key}
    {value : key.Value} (h : result.Has key value) : ∃ psbt ∈ psbtxs, psbt.Has key value := by
  cases key with
  | field f => exact exists_of_firstRead ((hread _).symm.trans h)
  | xpub xpub => exact exists_of_firstRead ((hread _).symm.trans h)
  | tapLeafScript i controlBlock =>
    obtain ⟨blocks, hblocks, hmem⟩ := h
    obtain ⟨psbt, hpsbt, hslot⟩ := exists_of_firstRead ((hread _).symm.trans hblocks)
    exact ⟨psbt, hpsbt, blocks, hslot, hmem⟩

theorem keys_kept_iff (hread : ∀ slot, result.read slot = firstRead psbtxs slot) :
    (∀ psbt ∈ psbtxs, ∀ key value, psbt.Has key value → ∃ value', result.Has key value') ↔
    FirstHoldsAll psbtxs := by
  constructor
  · intro h
    refine ⟨fun psbt hpsbt field hfield hsome => ?_, fun psbt hpsbt i controlBlock leaf hhas => ?_,
      fun psbt hpsbt xpub origin hhas => ?_⟩
    · obtain ⟨value, hvalue⟩ := Option.isSome_iff_exists.mp hsome
      obtain ⟨value', hresult⟩ := h psbt hpsbt (.field field) value hvalue
      have hfirst := (hread _).symm.trans hresult
      rw [firstRead, if_neg (by simp [Slot.isMerged, hfield])] at hfirst
      obtain ⟨first, hhead, hslot⟩ := Option.bind_eq_some_iff.mp hfirst
      exact ⟨first, hhead, Option.isSome_iff_exists.mpr ⟨value', hslot⟩⟩
    · obtain ⟨leaf', blocks, hresult, hmem⟩ := h psbt hpsbt _ leaf hhas
      exact ⟨leaf', blocks, (hread _).symm.trans hresult, hmem⟩
    · obtain ⟨origin', hresult⟩ := h psbt hpsbt _ origin hhas
      exact ⟨origin', (hread _).symm.trans hresult⟩
  · intro h psbt hpsbt key value hhas
    cases key with
    | field f =>
      suffices hsome : (result.read (.field f)).isSome from Option.isSome_iff_exists.mp hsome
      rw [hread]
      cases hmerged : (Slot.field f).isMerged with
      | true =>
        rw [firstRead, if_pos hmerged, List.findSome?_isSome_iff]
        exact ⟨psbt, hpsbt, Option.isSome_iff_exists.mpr ⟨value, hhas⟩⟩
      | false =>
        obtain ⟨first, hhead, hslot⟩ :=
          h.fields psbt hpsbt f hmerged (Option.isSome_iff_exists.mpr ⟨value, hhas⟩)
        rw [firstRead, if_neg (by simp [hmerged]), Option.mem_def.mp hhead]
        exact hslot
    | tapLeafScript i controlBlock =>
      obtain ⟨leaf', blocks, hfirst, hmem⟩ := h.control_blocks psbt hpsbt i controlBlock value hhas
      exact ⟨leaf', blocks, (hread _).trans hfirst, hmem⟩
    | xpub xpub =>
      obtain ⟨origin', hfirst⟩ := h.xpubs psbt hpsbt xpub value hhas
      exact ⟨origin', (hread _).trans hfirst⟩

end Result

/-! ## Merging a PSBT into itself -/

theorem firstSet_self (isNull : α → Bool) (x : α) : firstSet isNull x x = x := by
  cases h : isNull x <;> simp [firstSet, h]

theorem Map.insertAll_self {κ : Type} (m : Map κ α) : m.insertAll m = m := funext fun key => by
  cases h : m key <;> simp [insertAll, h]

theorem mergeXpubs_self (xpubs : Map KeyOriginInfo XpubSet) : mergeXpubs xpubs xpubs = xpubs :=
  funext fun origin => by
  cases h : xpubs origin <;> simp [mergeXpubs, h, Map.insertAll_self]

theorem PSBTInput.merge_self (self : PSBTInput) : self.merge self = self := by
  simp [merge, firstSet_self, Map.insertAll_self]

theorem PSBTOutput.merge_self (self : PSBTOutput) : self.merge self = self := by
  simp [merge, firstSet_self, Map.insertAll_self]

theorem combinePSBTs_self {psbt : PartiallySignedTransaction} :
    combinePSBTs hash [psbt, psbt] = .ok psbt := by
  obtain ⟨h, hmerge⟩ := PartiallySignedTransaction.merge_eq hash (rfl : psbt.tx = psbt.tx)
  have hentries : psbt.mergeEntries psbt h = psbt := by
    simp [PartiallySignedTransaction.mergeEntries, mergeXpubs_self, Map.insertAll_self,
      PSBTInput.merge_self, PSBTOutput.merge_self]
  rw [combinePSBTs, foldlM_cons, hmerge, hentries]
  rfl

/-! ## Combining in any order -/

section Order

variable {tx : CTransaction} {psbtxs order : List PartiallySignedTransaction}
  {result : PartiallySignedTransaction}

theorem read_combinePSBTs_of_perm (hne : psbtxs ≠ []) (htx : ∀ psbt ∈ psbtxs, psbt.tx = tx)
    (hperm : order.Perm psbtxs) :
    ∃ result, combinePSBTs hash order = .ok result ∧ ∀ slot,
    result.read slot = firstRead order slot := by
  refine read_combinePSBTs hash ?_ fun psbt hpsbt => htx psbt (hperm.mem_iff.mp hpsbt)
  rintro rfl
  exact hne hperm.nil_eq.symm

structure KeepsKeys (psbtxs : List PartiallySignedTransaction)
    (result : PartiallySignedTransaction) : Prop where
  sound : ∀ key value, result.Has key value → ∃ psbt ∈ psbtxs, psbt.Has key value
  keys : ∀ psbt ∈ psbtxs, ∀ key value, psbt.Has key value → ∃ value', result.Has key value'

theorem keepsKeys_of_perm (hperm : order.Perm psbtxs) (h : FirstHoldsAll order)
    (hread : ∀ slot, result.read slot = firstRead order slot) : KeepsKeys psbtxs result where
  sound key value hhas := by
    obtain ⟨psbt, hpsbt, hpair⟩ := exists_has_of_result hread hhas
    exact ⟨psbt, hperm.mem_iff.mp hpsbt, hpair⟩
  keys psbt hpsbt := (keys_kept_iff hread).mpr h psbt (hperm.mem_iff.mpr hpsbt)

/-- Without conflicts the result is determined by the pairs of the operands. -/
theorem KeepsKeys.has_iff (h : KeepsKeys psbtxs result) (hconflict : NoConflict psbtxs) (key : Key)
    (value : key.Value) : result.Has key value ↔ ∃ psbt ∈ psbtxs, psbt.Has key value := by
  refine ⟨h.sound key value, ?_⟩
  rintro ⟨psbt, hpsbt, hpair⟩
  obtain ⟨value', hresult⟩ := h.keys psbt hpsbt key value hpair
  obtain ⟨psbt', hpsbt', hpair'⟩ := h.sound key value' hresult
  cases hconflict psbt hpsbt psbt' hpsbt' key value value' hpair hpair'
  exact hresult

end Order

/-- Combining PSBTs over one transaction, in any order, keeps every key-value pair, is
idempotent and for operands without conflicting values does not depend on the order,
exactly if in every order the first operands hold what `Merge` does not take from the
later ones. -/
theorem combinePSBTs_lossless (hash : Bytes → Uint256) (tx : CTransaction)
    (psbtxs : List PartiallySignedTransaction)
    (hne : psbtxs ≠ []) (htx : ∀ psbt ∈ psbtxs, psbt.tx = tx) :
    CombinesAll hash psbtxs ↔ ∀ order, order.Perm psbtxs → FirstHoldsAll order := by
  constructor
  · intro h order hperm
    obtain ⟨result, hok, hread⟩ := read_combinePSBTs_of_perm hne htx hperm
    obtain ⟨_, hok', hkept⟩ := h.lossless order hperm
    cases hok.symm.trans hok'
    refine (keys_kept_iff hread).mp fun psbt hpsbt key value hhas => ?_
    obtain ⟨_, _, value', _, hresult⟩ := hkept psbt (hperm.mem_iff.mp hpsbt) key value hhas
    exact ⟨value', hresult⟩
  · intro h
    have hkeeps : ∀ order, order.Perm psbtxs → ∃ result, combinePSBTs hash order = .ok result ∧
        KeepsKeys psbtxs result := by
      intro order hperm
      obtain ⟨result, hok, hread⟩ := read_combinePSBTs_of_perm hne htx hperm
      exact ⟨result, hok, keepsKeys_of_perm hperm (h order hperm) hread⟩
    refine ⟨fun order hperm => ?_, fun psbt _ => combinePSBTs_self, ?_⟩
    · obtain ⟨result, hok, hresult⟩ := hkeeps order hperm
      refine ⟨result, hok, fun psbt hpsbt key value hhas => ?_⟩
      obtain ⟨value', hvalue'⟩ := hresult.keys psbt hpsbt key value hhas
      obtain ⟨psbt', hpsbt', hpair⟩ := hresult.sound key value' hvalue'
      exact ⟨psbt', hpsbt', value', hpair, hvalue'⟩
    · intro hconflict order hperm order' hperm'
      obtain ⟨result, hok, hresult⟩ := hkeeps order hperm
      obtain ⟨result', hok', hresult'⟩ := hkeeps order' hperm'
      exact ⟨result, result', hok, hok', fun key value =>
        (hresult.has_iff hconflict key value).trans (hresult'.has_iff hconflict key value).symm⟩

/-- A transaction with one input. -/
def unsignedTx : CTransaction :=
  ⟨[⟨⟨uint256S 1, 0⟩, [], 0xffffffff#32, []⟩], [], 2#32, 0#32⟩

def inputWith (redeemScript : CScript) (tapKeySig : Bytes) (sighashType : Option (BitVec 32)) :
    PSBTInput :=
  ⟨none, .null, redeemScript, [], [], [], fun _ => none, fun _ => none, fun _ => none,
    fun _ => none, fun _ => none, fun _ => none, tapKeySig, fun _ => none, fun _ => none,
    fun _ => none, nullUint256, nullUint256, fun _ => none, fun _ => none, sighashType⟩

def psbtWith (redeemScript : CScript) (tapKeySig : Bytes) (sighashType : Option (BitVec 32)) :
    PartiallySignedTransaction :=
  ⟨unsignedTx, fun _ => none, [inputWith redeemScript tapKeySig sighashType], [], fun _ => none,
    none, fun _ => none, rfl, rfl⟩

/-- The PSBT of a signer that asks for `SIGHASH_ALL`, combined with one that says nothing. -/
theorem sighashType_lost : ¬CombinesAll (fun _ => nullUint256)
    [psbtWith [] [] none, psbtWith [] [] (some 1#32)] := by
  intro h
  obtain ⟨result, hok, hkept⟩ := h.lossless _ (.refl _)
  cases hok
  obtain ⟨_, _, _, _, hresult⟩ := hkept (psbtWith [] [] (some 1#32)) (by simp)
    (.field (.inInput 0 .sighashType)) 1#32 rfl
  cases hresult

theorem firstHoldsAll_signers {order : List PartiallySignedTransaction}
    (h : ∀ psbt ∈ order, ∃ script sig, psbt = psbtWith script sig (some 1#32)) :
    FirstHoldsAll order := by
  refine ⟨fun psbt hpsbt field hmerged hsome => ?_, fun psbt hpsbt i _ _ hhas => ?_,
    fun psbt hpsbt _ _ hhas => ?_⟩
  · cases order with
    | nil => cases hpsbt
    | cons first rest =>
      refine ⟨first, rfl, ?_⟩
      obtain ⟨script, sig, rfl⟩ := h psbt hpsbt
      obtain ⟨script', sig', rfl⟩ := h first mem_cons_self
      cases field with
      | inGlobal field => cases field <;> exact hsome
      | inOutput i field => exact hsome
      | inInput i field =>
        cases i with
        | succ i => exact hsome
        | zero =>
          -- the sighash type and the proprietary keys are the same in all
          cases field <;> first | exact hsome | cases hmerged
  · obtain ⟨script, sig, rfl⟩ := h psbt hpsbt
    obtain ⟨blocks, hread, _⟩ := hhas
    cases i <;> cases hread
  · obtain ⟨script, sig, rfl⟩ := h psbt hpsbt
    cases hhas

/-- One signer adds a script and another one a signature. -/
theorem combinePSBTs_lossless_signers : CombinesAll (fun _ => nullUint256)
    [psbtWith [0x51] [] (some 1#32), psbtWith [] [0x07] (some 1#32)] := by
  refine (combinePSBTs_lossless _ unsignedTx _ (by simp) (by simp [psbtWith])).mpr
    fun order hperm => firstHoldsAll_signers fun psbt hpsbt => ?_
  have hmem := hperm.mem_iff.mp hpsbt
  simp only [mem_cons, not_mem_nil, or_false] at hmem
  rcases hmem with rfl | rfl
  · exact ⟨_, _, rfl⟩
  · exact ⟨_, _, rfl⟩

end Bitcoboost.Psbt
