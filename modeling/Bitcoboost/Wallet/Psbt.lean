import Bitcoboost.Script.QuantumSafe

/-!
# Partially signed transactions

`RemoveUnnecessaryTransactions` of `psbt.cpp` drops the previous transactions of the inputs where
no signer needs them to be sure of the amounts. The rule is that of Taproot, whose signatures
commit to all amounts; those of quantum-safe inputs commit to the amount of their own input only.
-/

namespace Bitcoboost

open List Option

/-! ## The code -/

/-- `PSBTInput`, the fields that are read here. -/
structure PSBTInput where
  nonWitnessUtxo : Option CTransaction
  witnessUtxo : CTxOut
deriving DecidableEq, Repr

/-- `PartiallySignedTransaction`: there is one entry for each input. -/
structure PartiallySignedTransaction where
  tx : CTransaction
  inputs : List PSBTInput
  length_inputs : inputs.length = tx.vin.length

/-- The loop of `RemoveUnnecessaryTransactions` over the inputs from the index `i` on:
the indices to drop. `none` is the branch that clears them. -/
def toDrop : Nat → List PSBTInput → Option (List Nat)
  | _, [] => some []
  | i, input :: inputs =>
    if input.witnessUtxo.isNull then none
    else
      match CScript.isWitnessProgram input.witnessUtxo.scriptPubKey with
      | none => none
      | some (witVer, _) =>
        if witVer = 0 then none
        else (toDrop (i + 1) inputs).map fun drop =>
          if input.nonWitnessUtxo.isSome then i :: drop else drop

/-- `psbtx.inputs.at(i).non_witness_utxo = nullptr` for one index. -/
def dropNonWitnessUtxo (inputs : List PSBTInput) (i : Nat) : List PSBTInput :=
  inputs.modify i fun input => { input with nonWitnessUtxo := none }

theorem length_foldl_dropNonWitnessUtxo (drop : List Nat) (inputs : List PSBTInput) :
    (drop.foldl dropNonWitnessUtxo inputs).length = inputs.length := by
  induction drop generalizing inputs with
  | nil => rfl
  | cons i drop ih => rw [foldl_cons, ih, dropNonWitnessUtxo, length_modify]

def removeUnnecessaryTransactions (psbtx : PartiallySignedTransaction) (sighashType : BitVec 32) :
    PartiallySignedTransaction :=
  if sighashType &&& 0x80#32 ≠ 0x80#32 then
    { psbtx with
      inputs := ((toDrop 0 psbtx.inputs).getD []).foldl dropNonWitnessUtxo psbtx.inputs
      length_inputs := (length_foldl_dropNonWitnessUtxo _ _).trans psbtx.length_inputs }
  else psbtx

/-! ## What a signature commits to -/

/-- The bytes that `SignatureHashSchnorr` hashes for `SIGHASH_ALL`, after the tag. -/
def schnorrSighashBytes (tx : CTransaction) (inPos : Nat) (sigversion : SigVersion)
    (execdata : ScriptExecutionData) (txdata : PrecomputedTransactionData) : Option Bytes := do
  let annex ← execdata.annex
  let inputData ← schnorrInputData tx inPos txdata sighashAll annex
    (if sigversion = .tapscript then 1 else 0)
  let scriptData ← schnorrScriptData sigversion execdata
  some ([0, sighashAll] ++ schnorrTxData tx txdata sighashAll ++ inputData ++ scriptData)

/-- One run of a signer or of the node: the transaction, the outputs that it is told
the transaction spends, and what the hash of a Taproot input depends on besides. -/
structure SighashRun where
  tx : CTransaction
  spentOutputs : List CTxOut
  force : Bool
  sigversion : SigVersion
  execdata : ScriptExecutionData

namespace SighashRun

variable (crypto : Crypto) (run : SighashRun)

/-- The message that a signature of the input `i` commits to under `SIGHASH_ALL`: the
hash of `SignatureHashSchnorr` for a program of version 1, that of
`CheckHybridSignature` for version 2. -/
def message (i version : Nat) (program : Bytes) : Option Uint256 := do
  let txdata ← PrecomputedTransactionData.init crypto run.tx run.spentOutputs run.force
  let spent ← run.spentOutputs[i]?
  if version = 1 then do
    let result ← signatureHashSchnorr crypto run.execdata run.tx i sighashAll run.sigversion
      txdata .fail
    result.map Prod.fst
  else
    signatureHash crypto ([OpcodeType.op2.toByte] ++ pushData program) run.tx i sighashAll
        spent.nValue .witnessV0
      (some txdata)

/-- The bytes that are hashed for the message and that the spent outputs enter: the
amounts and the message itself. -/
def hashed (i version : Nat) (program : Bytes) : List Bytes :=
  if version = 1 then
    let tag := (crypto.sha256 (Bytes.ofString "TapSighash")).data
    let txdata := PrecomputedTransactionData.init crypto run.tx run.spentOutputs run.force
    [run.spentOutputs.flatMap fun out => serializeInt64 out.nValue,
      tag ++ tag ++ ((txdata.bind (schnorrSighashBytes run.tx i run.sigversion run.execdata)).getD
      [])]
  else
    match run.tx.vin[i]?, run.spentOutputs[i]? with
    | some txin, some spent =>
      let bytes := serializeUint32 run.tx.nVersion
        ++ (crypto.hash256 (run.tx.vin.flatMap fun txin => txin.prevout.serialize)).data
        ++ (crypto.hash256 (run.tx.vin.flatMap fun txin => serializeUint32 txin.nSequence)).data
        ++ txin.prevout.serialize ++ serializeBytes ([OpcodeType.op2.toByte] ++ pushData program)
        ++ serializeInt64 spent.nValue ++ serializeUint32 txin.nSequence
        ++ (crypto.hash256 (run.tx.vout.flatMap CTxOut.serialize)).data
        ++ serializeUint32 run.tx.nLockTime ++ leBytes 4 1
      [bytes, (crypto.sha256 bytes).data]
    | _, _ => []

/-- The run with another amount for the output that the input `j` spends. -/
def withAmount (j : Nat) (nValue : CAmount) : SighashRun :=
  { run with spentOutputs := run.spentOutputs.modify j fun out => { out with nValue } }

end SighashRun

/-- No collision of SHA256 shows in what two runs hash, call by call. -/
def NoCollision (crypto : Crypto) (hashed hashed' : List Bytes) : Prop :=
  ∀ call ∈ hashed.zip hashed', crypto.sha256 call.1 = crypto.sha256 call.2 → call.1 = call.2

/-- The input `i` spends a program of 32 bytes. -/
def SpendsProgram (psbtx : PartiallySignedTransaction) (i version : Nat) (program : Bytes) : Prop :=
  program.length = 32 ∧ ∃ input, psbtx.inputs[i]? = some input ∧
    CScript.isWitnessProgram input.witnessUtxo.scriptPubKey = some (version, program)

/-- The outputs that a run is told fit the transaction: there is one for each input,
and that of the input `i` has the script of its entry. -/
structure RunOf (psbtx : PartiallySignedTransaction) (i : Nat) (run : SighashRun) : Prop where
  tx_eq : run.tx = psbtx.tx
  length_spentOutputs : run.spentOutputs.length = psbtx.tx.vin.length
  scriptPubKey : (run.spentOutputs[i]?).map CTxOut.scriptPubKey
    = (psbtx.inputs[i]?).map fun input => input.witnessUtxo.scriptPubKey
  isInt64 : ∀ out ∈ run.spentOutputs, IsInt64 out.nValue

/-- If a previous transaction is dropped, the messages of the inputs with programs of
version 1 and 2 determine the amounts of the other inputs: two runs that differ in one
of them have different messages. -/
def AmountsProtected (crypto : Crypto) (psbtx : PartiallySignedTransaction)
    (sighashType : BitVec 32) : Prop :=
  (removeUnnecessaryTransactions psbtx sighashType).inputs.map PSBTInput.nonWitnessUtxo
      ≠ psbtx.inputs.map PSBTInput.nonWitnessUtxo →
    ∀ i version program, version = 1 ∨ version = 2 → SpendsProgram psbtx i version program →
      ∀ run, RunOf psbtx i run → ∀ j out nValue, j ≠ i → run.spentOutputs[j]? = some out →
      nValue ≠ out.nValue →
        IsInt64 nValue →
        NoCollision crypto (run.hashed crypto i version program)
          ((run.withAmount j nValue).hashed crypto i version program) →
        ∀ message, run.message crypto i version program = some message →
          (run.withAmount j nValue).message crypto i version program ≠ some message

/-! ## When transactions are dropped -/

/-- The entry has an output with a witness program of a version after 0. -/
def LaterProgram (input : PSBTInput) : Prop :=
  input.witnessUtxo.isNull = false ∧ ∃ version program,
    CScript.isWitnessProgram input.witnessUtxo.scriptPubKey = some (version, program) ∧ version ≠ 0

namespace PsbtLemmas

variable {inputs : List PSBTInput} {i : Nat}

theorem toDrop_eq_none (h : ∃ input ∈ inputs, ¬ LaterProgram input) : toDrop i inputs = none := by
  induction inputs generalizing i with
  | nil =>
    obtain ⟨_, hmem, _⟩ := h
    cases hmem
  | cons first inputs ih =>
    rw [toDrop]
    split
    · rfl
    · next hnull =>
      split
      · rfl
      · next version program hprogram =>
        split
        · rfl
        · next hversion =>
          have hfirst : LaterProgram first :=
            ⟨Bool.eq_false_iff.mpr hnull, version, program, hprogram, hversion⟩
          obtain ⟨input, hmem, hinput⟩ := h
          cases hmem with
          | head => exact absurd hfirst hinput
          | tail _ hmem => rw [ih ⟨input, hmem, hinput⟩]; rfl

/-- The indices of the entries that have a previous transaction. -/
theorem toDrop_eq_some (h : ∀ input ∈ inputs, LaterProgram input) :
    ∃ drop, toDrop i inputs = some drop ∧
      ∀ k input, inputs[k]? = some input → input.nonWitnessUtxo.isSome = true → i + k ∈ drop := by
  induction inputs generalizing i with
  | nil => exact ⟨[], rfl, fun _ _ hk => (by cases hk)⟩
  | cons first inputs ih =>
    obtain ⟨hnull, version, program, hprogram, hversion⟩ := h first mem_cons_self
    obtain ⟨drop, hdrop, hmem⟩ :=
      ih (i := i + 1) fun input hinput => h input (mem_cons_of_mem first hinput)
    refine ⟨if first.nonWitnessUtxo.isSome then i :: drop else drop, ?_, fun k input hk hsome => ?_⟩
    · rw [toDrop, if_neg (by rw [hnull]; exact Bool.false_ne_true), hprogram]
      dsimp only
      rw [if_neg hversion, hdrop]
      rfl
    · cases k with
      | zero =>
        cases Option.some.inj hk
        rw [if_pos hsome]
        exact mem_cons_self
      | succ k =>
        have hin := hmem k input hk hsome
        rw [Nat.add_right_comm, Nat.add_assoc] at hin
        split
        · exact mem_cons_of_mem i hin
        · exact hin

theorem getElem?_foldl_dropNonWitnessUtxo (drop : List Nat) (inputs : List PSBTInput) (k : Nat) :
    ((drop.foldl dropNonWitnessUtxo inputs)[k]?).map PSBTInput.nonWitnessUtxo =
      (inputs[k]?).map fun input => if k ∈ drop then none else input.nonWitnessUtxo := by
  induction drop generalizing inputs with
  | nil => simp
  | cons i drop ih =>
    rw [foldl_cons, ih, dropNonWitnessUtxo, List.getElem?_modify, Option.map_eq_map, Option.map_map]
    refine congrArg (Option.map · _) (funext fun input => ?_)
    by_cases hik : i = k
    · simp [hik]
    · simp [hik, Ne.symm hik]

variable {psbtx : PartiallySignedTransaction} {sighashType : BitVec 32}

theorem inputs_removeUnnecessaryTransactions :
    (removeUnnecessaryTransactions psbtx sighashType).inputs =
    if sighashType &&& 0x80#32 ≠ 0x80#32 then ((toDrop 0 psbtx.inputs).getD []).foldl
    dropNonWitnessUtxo psbtx.inputs else psbtx.inputs := by
  unfold removeUnnecessaryTransactions
  split
  · rfl
  · rfl

theorem dropped_of (htype : sighashType &&& 0x80#32 ≠ 0x80#32)
    (hlater : ∀ input ∈ psbtx.inputs, LaterProgram input)
    (hsome : ∃ input ∈ psbtx.inputs, input.nonWitnessUtxo ≠ none) :
    (removeUnnecessaryTransactions psbtx sighashType).inputs.map PSBTInput.nonWitnessUtxo
      ≠ psbtx.inputs.map PSBTInput.nonWitnessUtxo := by
  obtain ⟨drop, hdrop, hmem⟩ := toDrop_eq_some (i := 0) hlater
  obtain ⟨input, hinput, hsome⟩ := hsome
  obtain ⟨k, hk⟩ := mem_iff_getElem?.mp hinput
  have hin : k ∈ drop := Nat.zero_add k ▸ hmem k input hk (Option.isSome_iff_ne_none.mpr hsome)
  rw [inputs_removeUnnecessaryTransactions, if_pos htype, hdrop]
  intro heq
  have hat := congrArg (·[k]?) heq
  simp only [List.getElem?_map] at hat
  rw [getD_some, getElem?_foldl_dropNonWitnessUtxo, hk, map_some, map_some, if_pos hin] at hat
  exact hsome (Option.some.inj hat).symm

theorem of_dropped
    (h : (removeUnnecessaryTransactions psbtx sighashType).inputs.map PSBTInput.nonWitnessUtxo
      ≠ psbtx.inputs.map PSBTInput.nonWitnessUtxo) :
    sighashType &&& 0x80#32 ≠ 0x80#32 ∧ (∀ input ∈ psbtx.inputs, LaterProgram input) ∧
      ∃ input ∈ psbtx.inputs, input.nonWitnessUtxo ≠ none := by
  rw [inputs_removeUnnecessaryTransactions] at h
  split at h
  · next htype =>
    refine ⟨htype, ?_, ?_⟩
    · by_contra hlater
      push Not at hlater
      rw [toDrop_eq_none hlater] at h
      exact h rfl
    · by_contra hnone
      push Not at hnone
      refine h (ext_getElem? fun k => ?_)
      rw [List.getElem?_map, List.getElem?_map, getElem?_foldl_dropNonWitnessUtxo]
      cases hk : psbtx.inputs[k]? with
      | none => rfl
      | some input =>
        rw [map_some, map_some, hnone input (mem_iff_getElem?.mpr ⟨k, hk⟩), ite_self]
  · exact absurd rfl h

/-! ## Messages of version 2 -/

variable {crypto : Crypto} {i j : Nat} {run : SighashRun} {program : Bytes} {nValue : CAmount}
  {tx : CTransaction} {message : Uint256}

theorem getElem?_withAmount_of_ne (h : j ≠ i) :
    (run.withAmount j nValue).spentOutputs[i]? = run.spentOutputs[i]? :=
  List.getElem?_modify_ne _ _ h

theorem length_withAmount :
    (run.withAmount j nValue).spentOutputs.length = run.spentOutputs.length :=
  length_modify _ _ _

/-- The message of a quantum-safe input has the amount of its own input only. -/
theorem message_quantumSafe {txin : CTxIn} {spent : CTxOut}
    (hlength : run.spentOutputs.length = run.tx.vin.length)
    (htxin : run.tx.vin[i]? = some txin) (hspent : run.spentOutputs[i]? = some spent) :
    run.message crypto i 2 program =
      some (bip143SighashAll crypto ([OpcodeType.op2.toByte] ++ pushData program) run.tx txin
        spent.nValue) := by
  obtain ⟨txdata, htxdata⟩ := PrecomputedTransactionData.init_of_length hlength run.force
  have hdata : PrecomputedFor crypto run.tx (some txdata) := by
    rintro data ⟨⟩
    exact ⟨run.spentOutputs, run.force, htxdata⟩
  simp only [SighashRun.message, htxdata, hspent, bind_eq_bind, bind_some]
  exact signatureHash_bip143 htxin hdata

/-! ## Messages of version 1 -/

theorem init_spentAmounts {spentOutputs : List CTxOut} {force : Bool}
    {data : PrecomputedTransactionData}
    (h : PrecomputedTransactionData.init crypto tx spentOutputs force = some data)
    (hready : data.bip341TaprootReady = true) :
    data.spentAmountsSingleHash = getSpentAmountsSHA256 crypto spentOutputs := by
  unfold PrecomputedTransactionData.init at h
  split at h
  · cases h
  · cases h
    dsimp only at hready
    simp only [hready, if_true]

theorem message_taproot (h : run.message crypto i 1 program = some message) :
    ∃ txdata bytes, PrecomputedTransactionData.init crypto run.tx run.spentOutputs run.force =
      some txdata ∧
      txdata.bip341TaprootReady = true ∧
      schnorrSighashBytes run.tx i run.sigversion run.execdata txdata = some bytes ∧
      message = crypto.taggedHash "TapSighash" bytes := by
  simp only [SighashRun.message, bind_eq_bind, bind_eq_some_iff, if_true] at h
  obtain ⟨txdata, htxdata, spent, _, result, hresult, hmessage⟩ := h
  refine ⟨txdata, ?_⟩
  unfold signatureHashSchnorr at hresult
  split at hresult
  · cases hresult
  split at hresult
  · cases hresult
  split at hresult
  · cases Option.some.inj hresult
    cases hmessage
  next hready =>
  split at hresult
  · cases Option.some.inj hresult
    cases hmessage
  have hsingle :
    ¬ (sighashAll ≠ sighashDefault ∧ sighashAll &&& sighashOutputMask = sighashSingle) := by decide
  simp only [hsingle, if_false, bind_eq_bind, bind_eq_some_iff] at hresult
  obtain ⟨annex, hannex, inputData, hinputData, scriptData, hscriptData, hresult⟩ := hresult
  cases Option.some.inj hresult
  cases hmessage
  have htaproot : txdata.bip341TaprootReady = true := by
    simp only [Bool.not_eq_true', Bool.not_eq_false, Bool.and_eq_true] at hready
    exact hready.1
  refine ⟨[0, sighashAll] ++ schnorrTxData run.tx txdata sighashAll ++ inputData ++ scriptData,
    htxdata, htaproot, ?_, ?_⟩
  · simp [schnorrSighashBytes, hannex, hinputData, hscriptData]
  · simp [schnorrHash]

theorem schnorrSighashBytes_amounts {sigversion : SigVersion} {execdata : ScriptExecutionData}
    {txdata : PrecomputedTransactionData} {bytes : Bytes}
    (h : schnorrSighashBytes tx i sigversion execdata txdata = some bytes) :
    (bytes.drop 42).take 32 = txdata.spentAmountsSingleHash.data := by
  simp only [schnorrSighashBytes, bind_eq_bind, bind_eq_some_iff] at h
  obtain ⟨annex, _, inputData, _, scriptData, _, h⟩ := h
  obtain rfl := Option.some.inj h
  have hanyone : sighashAll &&& sighashAnyonecanpay ≠ sighashAnyonecanpay := by decide
  have hsplit : [0, sighashAll] ++ schnorrTxData tx txdata sighashAll ++ inputData ++ scriptData =
      ([0, sighashAll] ++ serializeUint32 tx.nVersion ++ serializeUint32 tx.nLockTime ++
      txdata.prevoutsSingleHash.data) ++
        (txdata.spentAmountsSingleHash.data ++
        (txdata.spentScriptsSingleHash.data ++ txdata.sequencesSingleHash.data
          ++ txdata.outputsSingleHash.data ++ inputData ++ scriptData)) := by
    have hall :
        (if sighashAll = sighashDefault then sighashAll else sighashAll &&& sighashOutputMask) =
        sighashAll := by
      decide
    rw [schnorrTxData, if_pos hanyone]
    simp [hall]
  have hfront : ([0, sighashAll] ++ serializeUint32 tx.nVersion ++ serializeUint32 tx.nLockTime
      ++ txdata.prevoutsSingleHash.data).length = 42 := by
    simp [serializeUint32, length_leBytes, BaseBlob.length_data]
  rw [hsplit, drop_left' hfront, take_left' (BaseBlob.length_data _)]

theorem message_taproot_ne {out : CTxOut} (hint : ∀ out ∈ run.spentOutputs, IsInt64 out.nValue)
    (hint' : IsInt64 nValue) (hout : run.spentOutputs[j]? = some out) (hne : nValue ≠ out.nValue)
    (hcollision : NoCollision crypto (run.hashed crypto i 1 program)
      ((run.withAmount j nValue).hashed crypto i 1 program))
    (h : run.message crypto i 1 program = some message) :
    (run.withAmount j nValue).message crypto i 1 program ≠ some message := by
  intro h'
  obtain ⟨txdata, bytes, htxdata, hready, hbytes, rfl⟩ := message_taproot h
  obtain ⟨txdata', bytes', htxdata', hready', hbytes', heq⟩ := message_taproot h'
  have hhashed : run.hashed crypto i 1 program =
      [run.spentOutputs.flatMap fun out => serializeInt64 out.nValue,
      (crypto.sha256 (Bytes.ofString "TapSighash")).data ++
      (crypto.sha256 (Bytes.ofString "TapSighash")).data
        ++ bytes] := by
    simp [SighashRun.hashed, htxdata, hbytes]
  have hhashed' : (run.withAmount j nValue).hashed crypto i 1 program =
      [(run.withAmount j nValue).spentOutputs.flatMap fun out => serializeInt64 out.nValue,
        (crypto.sha256 (Bytes.ofString "TapSighash")).data ++
        (crypto.sha256 (Bytes.ofString "TapSighash")).data ++ bytes'] := by
    simp [SighashRun.hashed, htxdata', hbytes']
  rw [hhashed, hhashed'] at hcollision
  -- the messages are equal, so are the bytes, the hash of the amounts and the amounts
  have hsame : bytes = bytes' := append_cancel_left (hcollision (_, _) (by simp) heq)
  have hamountsHash : getSpentAmountsSHA256 crypto run.spentOutputs
      = getSpentAmountsSHA256 crypto (run.withAmount j nValue).spentOutputs := by
    have hdata := schnorrSighashBytes_amounts hbytes
    rw [hsame, schnorrSighashBytes_amounts hbytes', init_spentAmounts htxdata hready,
      init_spentAmounts htxdata' hready'] at hdata
    exact (BaseBlob.ext hdata).symm
  have hamountBytes := hcollision (_, _) mem_cons_self hamountsHash
  have hamounts : run.spentOutputs.map CTxOut.nValue =
      (run.withAmount j nValue).spentOutputs.map CTxOut.nValue := by
    refine (selfDelimiting_serializeInt64.flatMap (x := []) (y := []) ?_ ?_ ?_ ?_).1
    · simpa using hint
    · intro a ha
      obtain ⟨out', hout', rfl⟩ := List.mem_map.mp ha
      obtain ⟨l, hl⟩ := mem_iff_getElem?.mp hout'
      by_cases hjl : j = l
      · rw [SighashRun.withAmount, hjl, List.getElem?_modify_eq] at hl
        obtain ⟨_, _, rfl⟩ := Option.map_eq_some_iff.mp hl
        exact hint'
      · rw [getElem?_withAmount_of_ne hjl] at hl
        exact hint out' (mem_iff_getElem?.mpr ⟨l, hl⟩)
    · rw [length_map, length_map, length_withAmount]
    · rw [append_nil, append_nil, flatMap_map, flatMap_map]
      exact hamountBytes
  have hat := congrArg (·[j]?) hamounts
  simp only [List.getElem?_map, SighashRun.withAmount, List.getElem?_modify_eq, hout,
    Option.map_some, Option.map_eq_map, Option.some.injEq] at hat
  exact hne hat.symm

/-! ## Two runs with one message -/

theorem noCollision_refl (hashed : List Bytes) : NoCollision crypto hashed hashed := by
  intro call hcall _
  obtain ⟨k, hk⟩ := mem_iff_getElem?.mp hcall
  obtain ⟨hfst, hsnd⟩ := List.getElem?_zip_eq_some.mp hk
  exact Option.some.inj (hfst.symm.trans hsnd)

theorem hashed_withAmount_quantumSafe (h : j ≠ i) :
    (run.withAmount j nValue).hashed crypto i 2 program = run.hashed crypto i 2 program := by
  unfold SighashRun.hashed
  rw [getElem?_withAmount_of_ne h]
  rfl

/-- A run that is told the scripts of the entries and no amounts. -/
def zeroRun (psbtx : PartiallySignedTransaction) : SighashRun where
  tx := psbtx.tx
  spentOutputs := psbtx.inputs.map fun input => ⟨0, input.witnessUtxo.scriptPubKey⟩
  force := false
  sigversion := .taproot
  execdata := {}

theorem zeroRun_runOf (i : Nat) : RunOf psbtx i (zeroRun psbtx) where
  tx_eq := rfl
  length_spentOutputs := (length_map _).trans psbtx.length_inputs
  scriptPubKey := by
    rw [zeroRun, List.getElem?_map, Option.map_map]
    rfl
  isInt64 := by
    intro out hout
    obtain ⟨_, _, rfl⟩ := List.mem_map.mp hout
    exact show IsInt64 0 from ⟨by decide, by decide⟩

/-- The message of a quantum-safe input is the same for two amounts of another one. -/
theorem not_amountsProtected (htype : sighashType &&& 0x80#32 ≠ 0x80#32)
    (hlater : ∀ input ∈ psbtx.inputs, LaterProgram input)
    (hsome : ∃ input ∈ psbtx.inputs, input.nonWitnessUtxo ≠ none)
    (hlength : 2 ≤ psbtx.inputs.length)
    (hprogram : SpendsProgram psbtx i 2 program) : ¬ AmountsProtected crypto psbtx sighashType := by
  intro hprotected
  obtain ⟨input, hinput, _⟩ := hprogram.2
  have hi : i < psbtx.inputs.length := (List.getElem?_eq_some_iff.mp hinput).1
  obtain ⟨j, hj, hji⟩ : ∃ j < psbtx.inputs.length, j ≠ i := by
    cases i with
    | zero => exact ⟨1, hlength, by decide⟩
    | succ i => exact ⟨0, Nat.zero_lt_of_lt hlength, (Nat.succ_ne_zero i).symm⟩
  have hspent (k : Nat) {input : PSBTInput} (hk : psbtx.inputs[k]? = some input) :
      (zeroRun psbtx).spentOutputs[k]? = some ⟨0, input.witnessUtxo.scriptPubKey⟩ := by
    rw [zeroRun, List.getElem?_map, hk]
    rfl
  have hlen : (zeroRun psbtx).spentOutputs.length = (zeroRun psbtx).tx.vin.length :=
    (zeroRun_runOf 0).length_spentOutputs
  obtain ⟨txin, htxin⟩ : ∃ txin, psbtx.tx.vin[i]? = some txin :=
    ⟨_, List.getElem?_eq_getElem (psbtx.length_inputs ▸ hi)⟩
  have hmessage (run : SighashRun) (htx : run.tx = psbtx.tx)
      (hlen : run.spentOutputs.length = run.tx.vin.length)
      (hat : run.spentOutputs[i]? = (zeroRun psbtx).spentOutputs[i]?) :
      run.message crypto i 2 program =
        some (bip143SighashAll crypto ([OpcodeType.op2.toByte] ++ pushData program) psbtx.tx
        txin 0) := by
    rw [message_quantumSafe hlen (htx ▸ htxin) (hat.trans (hspent i hinput)), htx]
  refine hprotected (dropped_of htype hlater hsome) i 2 program
      (.inr rfl) hprogram _ (zeroRun_runOf i) j _ 1 hji
    (hspent j (List.getElem?_eq_getElem hj)) one_ne_zero ⟨by decide,
      by decide⟩ ?_ _ (hmessage _ rfl hlen rfl)
    (hmessage _ rfl (length_withAmount.trans hlen) (getElem?_withAmount_of_ne hji))
  rw [hashed_withAmount_quantumSafe hji]
  exact noCollision_refl _

end PsbtLemmas

open PsbtLemmas

/-- The condition under which the amounts stay protected: nothing is dropped, or there
is one input only, or no input spends a quantum-safe program. Nothing is dropped with
`SIGHASH_ANYONECANPAY`, with an input that does not spend a program of a version after
0, or without previous transactions. -/
def AmountsCommitted (psbtx : PartiallySignedTransaction) (sighashType : BitVec 32) : Prop :=
  sighashType &&& 0x80#32 = 0x80#32 ∨ (∃ input ∈ psbtx.inputs, ¬ LaterProgram input) ∨
  (∀ input ∈ psbtx.inputs, input.nonWitnessUtxo = none) ∨ psbtx.inputs.length ≤ 1 ∨
  ∀ i program, ¬ SpendsProgram psbtx i 2 program

/-- The amounts of the other inputs stay protected exactly if no quantum-safe input is
among several inputs of which a previous transaction is dropped. -/
theorem amountsProtected_iff (crypto : Crypto) (psbtx : PartiallySignedTransaction)
    (sighashType : BitVec 32) :
    AmountsProtected crypto psbtx sighashType ↔ AmountsCommitted psbtx sighashType := by
  constructor
  · intro hprotected
    by_contra hcommitted
    simp only [AmountsCommitted, not_or, not_exists, not_and, not_not, not_forall, Nat.not_le]
      at hcommitted
    obtain ⟨htype, hlater, ⟨input, hinput, hsome⟩, hlength, i, program, hprogram⟩ := hcommitted
    exact not_amountsProtected htype hlater ⟨input, hinput, hsome⟩ hlength hprogram hprotected
  · intro hcommitted hdropped i version program hversion hprogram run hrun j out nValue hji hout hne
        hint hcollision
      message hmessage
    obtain ⟨htype, hlater, hsome⟩ := of_dropped hdropped
    rcases hcommitted with h | ⟨input, hinput, h⟩ | h | h | h
    · exact absurd h htype
    · exact absurd (hlater input hinput) h
    · obtain ⟨input, hinput, hsome⟩ := hsome
      exact absurd (h input hinput) hsome
    · -- there is no other input
      obtain ⟨input, hinput, _⟩ := hprogram.2
      have hi := (List.getElem?_eq_some_iff.mp hinput).1
      have hj := (List.getElem?_eq_some_iff.mp hout).1
      rw [hrun.length_spentOutputs, ← psbtx.length_inputs] at hj
      omega
    · rcases hversion with rfl | rfl
      · exact message_taproot_ne hrun.isInt64 hint hout hne hcollision hmessage
      · exact absurd hprogram (h i program)

def fundingTx : CTransaction :=
  ⟨[⟨⟨uint256S 1, 0#32⟩, [], 0xffffffff#32, []⟩],
    List.replicate 2 ⟨coin, quantumSafeScript acceptedProgram⟩, 2#32, 0#32⟩

/-- The two outputs of `fundingTx` are spent. -/
def quantumSafePsbt : PartiallySignedTransaction where
  tx :=
    let txid := fundingTx.getHash acceptingCrypto.hash256
    ⟨[⟨⟨txid, 0#32⟩, [], 0xffffffff#32, []⟩, ⟨⟨txid, 1#32⟩, [], 0xffffffff#32, []⟩],
      [⟨coin, []⟩], 2#32, 0#32⟩
  inputs := List.replicate 2 ⟨some fundingTx, ⟨coin, quantumSafeScript acceptedProgram⟩⟩
  length_inputs := rfl

/-- Its previous transactions are dropped, and the message of its first input says
nothing about the amount of the second. -/
theorem quantumSafePsbt_unprotected : ¬ AmountsProtected acceptingCrypto quantumSafePsbt 1#32 := by
  have hprogram : CScript.isWitnessProgram (quantumSafeScript acceptedProgram) =
    some (2, acceptedProgram) := by decide
  have hspends : SpendsProgram quantumSafePsbt 0 2 acceptedProgram := ⟨rfl, _, rfl, hprogram⟩
  refine not_amountsProtected (by decide) (fun input hinput => ?_)
    ⟨_, mem_cons_self, some_ne_none _⟩ (by decide) hspends
  rw [eq_of_mem_replicate hinput]
  exact ⟨by decide, 2, acceptedProgram, hprogram, by decide⟩

end Bitcoboost
