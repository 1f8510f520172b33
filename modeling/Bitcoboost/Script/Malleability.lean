import Bitcoboost.Script.DerSignature
import Bitcoboost.Script.QuantumSafe

/-!
# Re-encoding the ECDSA signature of a quantum-safe spend

`CheckHybridSignature` hands the ECDSA signature to the lax parser and never calls
`CheckSignatureEncoding`, so `DERSIG` and `LOW_S` have no effect on it. Who sees a spend can
append bytes to the signature, pad its integers or negate `s`.
-/

namespace Bitcoboost

open List

/-- `esig` encodes scalars that a valid signature can have, before the hash type. -/
def Encodes (esig : Bytes) (r s : Nat) : Prop :=
  ∃ e, esig = e ++ [sighashAll] ∧ LaxDer e r s ∧ ValidScalars r s

/-- `esig'` encodes the signature of `esig`, up to the sign of `s`. -/
def Reencodes (esig esig' : Bytes) : Prop :=
  ∃ r s s', Encodes esig r s ∧ Encodes esig' r s' ∧ lowS s' = lowS s

/-- `VerifyScript` accepts the spend of the output with `program`. -/
def SpendAccepted (flags : ScriptFlags) (checker : TransactionSignatureChecker)
    (scriptSig : CScript) (program : Bytes) (witness : CScriptWitness) : Prop :=
  program.length = 32 ∧
    verifyScript checker.crypto scriptSig (quantumSafeScript program) witness flags
    checker.toChecker = .ok ()

/-- The encoding rules hold for `esig`: a spend with it is accepted only if it is
strict DER, and has a low `s` if `LOW_S` is set. -/
def EncodingEnforced (flags : ScriptFlags) (esig : Bytes) : Prop :=
  ∀ checker scriptSig program epk msig mpk,
    SpendAccepted flags checker scriptSig program [esig, epk, msig, mpk] →
    isValidSignatureEncoding esig = true ∧ (.lowS ∈ flags → CPubKey.checkLowS esig.dropLast = true)

/-- A spend with `esig` is not accepted with another encoding of the signature. -/
def ReencodingExcluded (flags : ScriptFlags) (esig : Bytes) : Prop :=
  ∀ checker scriptSig program epk msig mpk esig',
    SpendAccepted flags checker scriptSig program [esig, epk, msig, mpk] →
    Reencodes esig esig' → SpendAccepted flags checker scriptSig program [esig', epk, msig, mpk] →
      esig' = esig

namespace MalleabilityLemmas

open DerSignatureLemmas

variable {crypto : Crypto} {sighash : Uint256} {program esig esig' epk msig mpk : Bytes} {r s : Nat}

theorem hybridSigned_encodes (h : HybridSigned crypto sighash program esig epk msig mpk) :
    ∃ r s, Encodes esig r s := by
  obtain ⟨_, _, r, s, hlax, hvalid, _⟩ := CPubKey.verify_iff.mp h.ecdsa
  exact ⟨r, s, esig.dropLast, (dropLast_append_getLast? _ h.hashType).symm, hlax, hvalid⟩

/-- Bytes after the signature are ignored. -/
theorem encodes_append (garbage : Bytes) {e : Bytes} (hlax : LaxDer e r s)
    (hvalid : ValidScalars r s) : Encodes (e ++ garbage ++ [sighashAll]) r s := by
  cases hlax with
  | mk hlen hr hs rest => 
    refine ⟨_, rfl, ?_, hvalid⟩
    have h := LaxDer.mk hlen hr hs (rest ++ garbage)
    simpa using h

variable {flags : ScriptFlags} {checker : TransactionSignatureChecker} {scriptSig : CScript}

/-- Only the last condition is about the ECDSA signature. -/
theorem spendAccepted_iff (hp2sh : .p2sh ∈ flags) (hwitness : .witness ∈ flags) :
    SpendAccepted flags checker scriptSig program [esig, epk, msig, mpk] ↔
      scriptSig = [] ∧ castToBool program = true ∧ program.length = 32 ∧
        0 ≤ checker.amount ∧ ∃ sighash,
        signatureHash checker.crypto (quantumSafeScript program) checker.txTo checker.nIn sighashAll
          checker.amount .witnessV0 checker.txdata = some sighash ∧
        HybridSigned checker.crypto sighash program esig epk msig mpk := by
  constructor
  · rintro ⟨hprogram, hok⟩
    obtain ⟨hempty, htrue, _, _, _, _, hstack, hcheck⟩ :=
      (verifyScript_quantumSafe hp2sh hwitness hprogram).mp hok
    cases hstack
    exact ⟨hempty, htrue, checkHybridSignature_iff.mp hcheck⟩
  · rintro ⟨hempty, htrue, hcheck⟩
    exact ⟨hcheck.1, (verifyScript_quantumSafe hp2sh hwitness hcheck.1).mpr
      ⟨hempty, htrue, esig, epk, msig, mpk, rfl, checkHybridSignature_iff.mpr hcheck⟩⟩

/-- An encoding is of one pair of scalars only. -/
theorem encodes_unique {r' s' : Nat} (h : Encodes esig r s) (h' : Encodes esig r' s') :
    r = r' ∧ s = s' := by
  obtain ⟨e, rfl, hlax, hvalid⟩ := h
  obtain ⟨e', heq, hlax', hvalid'⟩ := h'
  obtain rfl := append_cancel_right heq
  have hsame := (parse_of_laxDer hvalid hlax).symm.trans (parse_of_laxDer hvalid' hlax')
  exact EcdsaSignature.mk.inj (Option.some.inj hsame)

theorem hybridSigned_reencode (h : HybridSigned crypto sighash program esig epk msig mpk)
    (hsame : Reencodes esig esig') : HybridSigned crypto sighash program esig' epk msig mpk := by
  obtain ⟨r, s, s', hencodes, ⟨e', rfl, hlax', hvalid'⟩, hlow⟩ := hsame
  obtain ⟨hkey, hparse, r₀, s₀, hlax, hvalid, hverify⟩ := CPubKey.verify_iff.mp h.ecdsa
  obtain ⟨rfl, rfl⟩ := encodes_unique hencodes
    ⟨_, (dropLast_append_getLast? _ h.hashType).symm, hlax, hvalid⟩
  refine { h with hashType := List.getLast?_concat, ecdsa := ?_ }
  rw [dropLast_concat]
  exact CPubKey.verify_iff.mpr ⟨hkey, hparse, r, s', hlax', hvalid', hlow ▸ hverify⟩

theorem spendAccepted_encodes (hp2sh : .p2sh ∈ flags) (hwitness : .witness ∈ flags)
    (h : SpendAccepted flags checker scriptSig program [esig, epk, msig, mpk]) :
    ∃ r s, Encodes esig r s := by
  obtain ⟨_, _, _, _, _, _, hsigned⟩ := (spendAccepted_iff hp2sh hwitness).mp h
  exact hybridSigned_encodes hsigned

theorem hybridSigned_of_encodes (sighash : Uint256) (h : Encodes esig r s) :
    HybridSigned acceptingCrypto sighash acceptedProgram esig sampleEpk [] sampleMpk := by
  obtain ⟨e, rfl, hlax, hvalid⟩ := h
  have hecdsa :
      (CPubKey.set sampleEpk).verify acceptingCrypto sighash
      (e ++ [sighashAll]).dropLast = true := by
    rw [dropLast_concat]
    exact CPubKey.verify_iff.mpr ⟨rfl, rfl, r, s, hlax, hvalid, rfl⟩
  exact ⟨rfl, length_replicate, rfl, List.getLast?_concat, rfl, hecdsa, rfl⟩

/-- Each encoding can be accepted: where the functions accept every signature, it is. -/
theorem spendAccepted_of_encodes (hp2sh : .p2sh ∈ flags) (hwitness : .witness ∈ flags)
    (h : Encodes esig r s) :
    SpendAccepted flags acceptingChecker [] acceptedProgram [esig, sampleEpk, [], sampleMpk] := by
  have htrue : castToBool acceptedProgram = true := by decide
  have hamount : 0 ≤ acceptingChecker.amount := by decide
  exact (spendAccepted_iff hp2sh hwitness).mpr ⟨rfl, htrue, rfl, hamount, _, rfl,
    hybridSigned_of_encodes _ h⟩

end MalleabilityLemmas

open MalleabilityLemmas

variable {flags : ScriptFlags}

/-- The encoding rules hold for a signature that satisfies them, and for one that no
spend can use. -/
theorem encodingEnforced_iff (hp2sh : .p2sh ∈ flags) (hwitness : .witness ∈ flags) (esig : Bytes) :
    EncodingEnforced flags esig ↔
      (isValidSignatureEncoding esig = true ∧
        (.lowS ∈ flags → CPubKey.checkLowS esig.dropLast = true)) ∨
      ¬ ∃ r s, Encodes esig r s := by
  constructor
  · intro henforced
    by_cases hencodes : ∃ r s, Encodes esig r s
    · obtain ⟨r, s, hencodes⟩ := hencodes
      exact .inl (henforced _ _ _ _ _ _ (spendAccepted_of_encodes hp2sh hwitness hencodes))
    · exact .inr hencodes
  · rintro (hrules | hunused) checker scriptSig program epk msig mpk haccepted
    · exact hrules
    · exact absurd (spendAccepted_encodes hp2sh hwitness haccepted) hunused

/-- In any environment a spend that is accepted is accepted with every encoding of its ECDSA
signature. -/
theorem verifyScript_reencode (hp2sh : .p2sh ∈ flags)
    (hwitness : .witness ∈ flags) {checker : TransactionSignatureChecker} {scriptSig : CScript}
    {program esig esig' epk msig mpk : Bytes}
    (h : SpendAccepted flags checker scriptSig program [esig, epk, msig, mpk])
    (hsame : Reencodes esig esig') :
    SpendAccepted flags checker scriptSig program [esig', epk, msig, mpk] := by
  obtain ⟨hempty, htrue, hlength, hamount, sighash, hsighash, hsigned⟩ :=
    (spendAccepted_iff hp2sh hwitness).mp h
  exact (spendAccepted_iff hp2sh hwitness).mpr
    ⟨hempty, htrue, hlength, hamount, sighash, hsighash, hybridSigned_reencode hsigned hsame⟩

/-- The encoding rules hold and exclude re-encodings only for signatures that no spend
can use: those that are not a lax encoding of valid scalars before `SIGHASH_ALL`. -/
theorem encodingRules_iff {flags : ScriptFlags} (hp2sh : .p2sh ∈ flags)
    (hwitness : .witness ∈ flags) (esig : Bytes) :
    EncodingEnforced flags esig ∧ ReencodingExcluded flags esig ↔ ¬ ∃ r s, Encodes esig r s := by
  constructor
  · rintro ⟨_, hexcluded⟩ ⟨r, s, hencodes⟩
    obtain ⟨e, rfl, hlax, hvalid⟩ := id hencodes
    have haccepted := spendAccepted_of_encodes hp2sh hwitness hencodes
    have happended : Reencodes (e ++ [sighashAll]) (e ++ [0] ++ [sighashAll]) :=
      ⟨r, s, s, hencodes, encodes_append [0] hlax hvalid, rfl⟩
    have hsame := hexcluded _ _ _ _ _ _ _ haccepted happended
      (verifyScript_reencode hp2sh hwitness haccepted happended)
    have hlength := congrArg List.length hsame
    simp at hlength
  · intro hunused
    refine ⟨(encodingEnforced_iff hp2sh hwitness esig).mpr (.inr hunused), ?_⟩
    intro checker scriptSig program epk msig mpk esig' haccepted
    exact absurd (spendAccepted_encodes hp2sh hwitness haccepted) hunused

/-- The strict encoding of `r = 1` and `s = 1`. -/
def strictSignature : Bytes := [0x30, 0x06, 0x02, 0x01, 0x01, 0x02, 0x01, 0x01, sighashAll]

/-- The same with a byte after the second integer. -/
def trailedSignature : Bytes := [0x30, 0x06, 0x02, 0x01, 0x01, 0x02, 0x01, 0x01, 0x00, sighashAll]

/-- The strict encoding of `r = 1` and the negation of `s = 1`. -/
def highSignature : Bytes :=
  [0x30, 0x26, 0x02, 0x01, 0x01, 0x02, 0x21, 0x00, 0xff, 0xff, 0xff, 0xff, 0xff, 0xff, 0xff, 0xff,
    0xff, 0xff, 0xff, 0xff, 0xff, 0xff, 0xff, 0xfe, 0xba, 0xae, 0xdc, 0xe6, 0xaf, 0x48, 0xa0, 0x3b,
    0xbf, 0xd2, 0x5e, 0x8c, 0xd0, 0x36, 0x41, 0x40, sighashAll]

namespace MalleabilityLemmas

theorem encodes_of_parse {esig : Bytes} {r s : Nat} (hvalid : ValidScalars r s)
    (hlast : esig.getLast? = some sighashAll)
    (hparse : ecdsaSignatureParseDerLax esig.dropLast = some ⟨r, s, hvalid.1.2, hvalid.2.2⟩) :
    Encodes esig r s :=
  ⟨esig.dropLast, (dropLast_append_getLast? _ hlast).symm,
    DerSignatureLemmas.laxDer_of_parse hparse hvalid.1.1.ne', hvalid⟩

theorem encodes_strictSignature : Encodes strictSignature 1 1 :=
  encodes_of_parse (by unfold ValidScalars; decide) (by decide) (by decide)

theorem encodes_trailedSignature : Encodes trailedSignature 1 1 :=
  encodes_of_parse (by unfold ValidScalars; decide) (by decide) (by decide)

theorem encodes_highSignature : Encodes highSignature 1 (secp256k1Order - 1) :=
  encodes_of_parse (by unfold ValidScalars; decide) (by decide) (by decide)

end MalleabilityLemmas

theorem encodingRules_strictSignature :
    ¬ (EncodingEnforced {.p2sh, .witness, .dersig, .lowS} strictSignature ∧
      ReencodingExcluded {.p2sh, .witness, .dersig, .lowS} strictSignature) := by
  rw [encodingRules_iff (by decide) (by decide)]
  exact not_not.mpr ⟨1, 1, encodes_strictSignature⟩

/-- One signature in three encodings, all accepted with `DERSIG` and `LOW_S` set: the
second is not strict DER and the third has a high `s`. -/
theorem reencodings_accepted :
    (∀ esig ∈ [strictSignature, trailedSignature, highSignature],
      SpendAccepted {.p2sh, .witness, .dersig, .lowS} acceptingChecker [] acceptedProgram
        [esig, sampleEpk, [], sampleMpk]) ∧
    isValidSignatureEncoding trailedSignature = false ∧
    CPubKey.checkLowS highSignature.dropLast = false := by
  refine ⟨?_, by decide, by decide⟩
  have haccepted {esig : Bytes} {s : Nat} (h : Encodes esig 1 s) := spendAccepted_of_encodes
    (show ScriptFlag.p2sh ∈ ({.p2sh, .witness, .dersig, .lowS} : ScriptFlags) by decide)
      (by decide) h
  simp only [forall_mem_cons, not_mem_nil, false_implies, implies_true, and_true]
  exact ⟨haccepted encodes_strictSignature, haccepted encodes_trailedSignature,
    haccepted encodes_highSignature⟩

end Bitcoboost
