import Bitcoboost.Script.QuantumSafe

/-!
# What a quantum-safe signature commits to

`CheckHybridSignature` signs the BIP143 hash with `SIGHASH_ALL`: a hash of a text that holds
three more hashes. Two spends with the same hash are the same spend, or one of the four pairs of
hashed texts is a collision.
-/

namespace Bitcoboost

open List

/-- A spend as `CheckHybridSignature` sees it: an input of a transaction, with the amount
and the program of the output it spends. -/
structure HybridSpend where
  tx : CTransaction
  nIn : Nat
  amount : CAmount
  program : Bytes
  nIn_lt : nIn < tx.vin.length
  length_program : program.length = 32
  representable : tx.Representable
  isInt64_amount : IsInt64 amount

namespace HybridSpend

variable (crypto : Crypto) (s s' : HybridSpend)

/-- The input that spends. -/
def txin : CTxIn := s.tx.vin.get ⟨s.nIn, s.nIn_lt⟩

/-- The hash that `CheckHybridSignature` computes. -/
def sighash (txdata : Option PrecomputedTransactionData) : Option Uint256 :=
  signatureHash crypto (quantumSafeScript s.program) s.tx s.nIn sighashAll s.amount
    .witnessV0 txdata

def prevouts : Bytes := s.tx.vin.flatMap fun txin => txin.prevout.serialize

def sequences : Bytes := s.tx.vin.flatMap fun txin => serializeUint32 txin.nSequence

def outputs : Bytes := s.tx.vout.flatMap CTxOut.serialize

def preimage : Bytes :=
  serializeUint32 s.tx.nVersion ++ (crypto.hash256 s.prevouts).data ++
      (crypto.hash256 s.sequences).data
    ++ s.txin.prevout.serialize ++ serializeBytes (quantumSafeScript s.program) ++
      serializeInt64 s.amount
    ++ serializeUint32 s.txin.nSequence ++ (crypto.hash256 s.outputs).data ++
      serializeUint32 s.tx.nLockTime ++ leBytes 4 1

/-- What the two spends have in common. -/
structure Agrees : Prop where
  nVersion : s.tx.nVersion = s'.tx.nVersion
  prevouts : s.tx.vin.map CTxIn.prevout = s'.tx.vin.map CTxIn.prevout
  sequences : s.tx.vin.map CTxIn.nSequence = s'.tx.vin.map CTxIn.nSequence
  vout : s.tx.vout = s'.tx.vout
  nLockTime : s.tx.nLockTime = s'.tx.nLockTime
  prevout : s.txin.prevout = s'.txin.prevout
  amount : s.amount = s'.amount
  program : s.program = s'.program

/-- The first pair of hashed texts that is a collision. -/
def collision : Option (Bytes × Bytes) :=
  [(s.prevouts, s'.prevouts), (s.sequences, s'.sequences), (s.outputs, s'.outputs),
      (s.preimage crypto, s'.preimage crypto)].find?
    fun (a, b) => a ≠ b ∧ crypto.hash256 a = crypto.hash256 b

end HybridSpend

namespace CommitmentLemmas

open TransactionLemmas HybridSpend

variable {crypto : Crypto} {s s' : HybridSpend}

theorem sighash_eq {txdata : Option PrecomputedTransactionData}
    (h : PrecomputedFor crypto s.tx txdata) :
    s.sighash crypto txdata = some (crypto.hash256 (s.preimage crypto)) :=
  signatureHash_bip143 (List.getElem?_eq_getElem s.nIn_lt) h

/-- The text tells its parts. -/
theorem preimage_inj (h : s.preimage crypto = s'.preimage crypto) :
    s.tx.nVersion = s'.tx.nVersion ∧ crypto.hash256 s.prevouts = crypto.hash256 s'.prevouts ∧
    crypto.hash256 s.sequences = crypto.hash256 s'.sequences ∧ s.txin.prevout = s'.txin.prevout ∧
    s.program = s'.program ∧ s.amount = s'.amount ∧
    crypto.hash256 s.outputs = crypto.hash256 s'.outputs ∧ s.tx.nLockTime = s'.tx.nLockTime := by
  have hlength (s : HybridSpend) : (quantumSafeScript s.program).length < 2 ^ 64 := by
    rw [QuantumSafeLemmas.quantumSafeScript_eq s.length_program, length_cons, length_cons,
      s.length_program]
    decide
  simp only [preimage, append_assoc] at h
  obtain ⟨hversion, h⟩ := selfDelimiting_serializeUint32 trivial trivial h
  obtain ⟨hprevouts, h⟩ := selfDelimiting_uint256 trivial trivial h
  obtain ⟨hsequences, h⟩ := selfDelimiting_uint256 trivial trivial h
  obtain ⟨hprevout, h⟩ := selfDelimiting_outPoint trivial trivial h
  obtain ⟨hscript, h⟩ := selfDelimiting_serializeBytes (hlength s) (hlength s') h
  obtain ⟨hamount, h⟩ := selfDelimiting_serializeInt64 s.isInt64_amount s'.isInt64_amount h
  obtain ⟨_, h⟩ := selfDelimiting_serializeUint32 trivial trivial h
  obtain ⟨houtputs, h⟩ := selfDelimiting_uint256 trivial trivial h
  obtain ⟨hlock, _⟩ := selfDelimiting_serializeUint32 trivial trivial h
  rw [QuantumSafeLemmas.quantumSafeScript_eq s.length_program,
    QuantumSafeLemmas.quantumSafeScript_eq s'.length_program] at hscript
  exact ⟨hversion, hprevouts, hsequences, hprevout, (List.cons.inj (List.cons.inj hscript).2).2,
    hamount, houtputs, hlock⟩

theorem prevouts_inj (h : s.prevouts = s'.prevouts) :
    s.tx.vin.map CTxIn.prevout = s'.tx.vin.map CTxIn.prevout := by
  refine selfDelimiting_outPoint.flatMap_injective (fun o _ => ?_) (fun _ _ => trivial)
    (fun _ _ => trivial) ?_
  · intro hnil
    have hlength := congrArg List.length hnil
    rw [COutPoint.serialize, length_append, o.hash.length_data] at hlength
    simp at hlength
  · rw [flatMap_map, flatMap_map]
    exact h

theorem sequences_inj (h : s.sequences = s'.sequences) :
    s.tx.vin.map CTxIn.nSequence = s'.tx.vin.map CTxIn.nSequence := by
  refine selfDelimiting_serializeUint32.flatMap_injective (fun n _ => ?_) (fun _ _ => trivial)
    (fun _ _ => trivial) ?_
  · intro hnil
    have hlength := congrArg List.length hnil
    cases hlength
  · rw [flatMap_map, flatMap_map]
    exact h

theorem outputs_inj (h : s.outputs = s'.outputs) : s.tx.vout = s'.tx.vout := by
  refine selfDelimiting_txout.flatMap_injective (fun out _ hnil =>
    ?_) s.representable.txout.2 s'.representable.txout.2 h
  have hlength := congrArg List.length hnil
  rw [CTxOut.serialize, length_append, serializeInt64, length_leBytes] at hlength
  simp at hlength

/-- Without a collision the hashed texts of a pair are equal. -/
theorem eq_of_collision_eq_none (h : s.collision crypto s' = none) :
    (crypto.hash256 s.prevouts = crypto.hash256 s'.prevouts → s.prevouts = s'.prevouts) ∧
    (crypto.hash256 s.sequences = crypto.hash256 s'.sequences → s.sequences = s'.sequences) ∧
    (crypto.hash256 s.outputs = crypto.hash256 s'.outputs → s.outputs = s'.outputs) ∧
    (crypto.hash256 (s.preimage crypto) = crypto.hash256 (s'.preimage crypto) →
      s.preimage crypto = s'.preimage crypto) := by
  rw [collision, List.find?_eq_none] at h
  have hpair {a b : Bytes} (hmem : (a, b) ∈ [(s.prevouts, s'.prevouts), (s.sequences, s'.sequences),
      (s.outputs, s'.outputs), (s.preimage crypto, s'.preimage crypto)])
      (heq : crypto.hash256 a = crypto.hash256 b) : a = b := by
    by_contra hne
    exact h (a, b) hmem (decide_eq_true ⟨hne, heq⟩)
  exact ⟨hpair (by simp), hpair (by simp), hpair (by simp), hpair (by simp)⟩

end CommitmentLemmas

open CommitmentLemmas HybridSpend in
/-- Two spends with one hash agree, or their texts hold a collision of the double
SHA256. And a cache of the transaction does not change the hash. -/
theorem hybridSighash_binding (crypto : Crypto) (s s' : HybridSpend) :
    (∀ txdata txdata', PrecomputedFor crypto s.tx txdata → PrecomputedFor crypto s'.tx txdata' →
      s.sighash crypto txdata = s'.sighash crypto txdata' →
      s.Agrees s' ∨ ∃ a b, s.collision crypto s' = some (a, b) ∧ a ≠ b ∧
        crypto.hash256 a = crypto.hash256 b) ∧
    ∀ spentOutputs force data, PrecomputedTransactionData.init crypto s.tx spentOutputs force =
      some data →
      s.sighash crypto (some data) = s.sighash crypto none := by
  constructor
  · intro txdata txdata' hdata hdata' heq
    rw [sighash_eq hdata, sighash_eq hdata'] at heq
    cases hcollision : s.collision crypto s' with
    | some pair =>
      obtain ⟨a, b⟩ := pair
      refine .inr ⟨a, b, rfl, ?_⟩
      have hfound := List.find?_some hcollision
      exact of_decide_eq_true hfound
    | none =>
      obtain ⟨hprevouts, hsequences, houtputs, hpreimage⟩ := eq_of_collision_eq_none hcollision
      obtain ⟨hversion, hp, hs, hprevout, hprogram, hamount, ho, hlock⟩ :=
        preimage_inj (hpreimage (Option.some.inj heq))
      exact .inl ⟨hversion, prevouts_inj (hprevouts hp), sequences_inj (hsequences hs),
        outputs_inj (houtputs ho), hlock, hprevout, hamount, hprogram⟩
  · intro spentOutputs force data hinit
    rw [sighash_eq fun data' hmem => ⟨spentOutputs, force, by cases hmem; exact hinit⟩,
      sighash_eq fun data' hmem => absurd hmem (Option.not_mem_none data')]

/-- A spend of one of the two inputs of a transaction. -/
def twoInputSpend (nIn : Fin 2) (amount : CAmount) (h : IsInt64 amount) : HybridSpend where
  tx := ⟨[⟨⟨nullUint256, 0#32⟩, [], 0xffffffff#32, []⟩, ⟨⟨nullUint256, 1#32⟩, [], 0#32, []⟩],
    [⟨1000, []⟩], 2#32, 0#32⟩
  nIn := nIn
  amount := amount
  program := List.replicate 32 1
  nIn_lt := nIn.isLt
  length_program := by decide
  representable := ⟨by decide, by decide, by decide, by simp [IsInt64], by decide, by decide⟩
  isInt64_amount := h

/-- Where every text has one hash, the spends of two inputs give a collision. The hash of each is
the same with the data of `Init` and without. -/
theorem hybridSighash_binding_twoInputs : let first := twoInputSpend 0 700 ⟨by decide, by decide⟩
    let second := twoInputSpend 1 900 ⟨by decide, by decide⟩
    ¬first.Agrees second ∧
    (∃ a b, first.collision acceptingCrypto second = some (a, b) ∧ a ≠ b ∧
      acceptingCrypto.hash256 a = acceptingCrypto.hash256 b) ∧
    ∃ data, PrecomputedTransactionData.init acceptingCrypto first.tx [] true = some data ∧
      first.sighash acceptingCrypto (some data) = first.sighash acceptingCrypto none := by
  intro first second
  have hdata {tx : CTransaction} : PrecomputedFor acceptingCrypto tx none :=
    fun _ hmem => absurd hmem (Option.not_mem_none _)
  have hbinding := hybridSighash_binding acceptingCrypto first second
  have hdiffer : ¬first.Agrees second := fun h => absurd h.amount (by decide)
  exact ⟨hdiffer, (hbinding.1 none none hdata hdata rfl).resolve_left hdiffer, _, rfl,
    hbinding.2 [] true _ rfl⟩

end Bitcoboost
