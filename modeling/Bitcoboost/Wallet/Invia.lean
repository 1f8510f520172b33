import Bitcoboost.Policy.Policy
import Bitcoboost.Script.QuantumSafe

/-!
# Sending from a quantum-safe address

The handler `bb1z:invia` of the app (`contrib/pqwallet/app/main.js`) and `firmaBB1Z` of
`bb1z.mjs`. The handler pays one satoshi for each byte of an estimated size, with 31 bytes for
an output where the change takes 43; `firmaBB1Z` sends the rest back, whatever is left. The
amounts are those that the handler has after `Math.round`.
-/

namespace Bitcoboost.Invia

open CScript OpcodeType QuantumSafeLemmas BaseBlob List Bool

/-! ## The app -/

/-- An entry of the answer of `scantxoutset`. -/
structure Unspent where
  txid : Uint256
  vout : BitVec 32
  valoreSat : Int
  coinbase : Bool
  height : Int
deriving DecidableEq, Repr

/-- `chiaviDaFrase`: the public keys and what signs with the secret ones. A signature
of the ECDSA key is encoded with its hash type. -/
structure Chiavi where
  ecdsaPub : Bytes
  mldsaPub : Bytes
  ecdsaSign : Uint256 → Bytes
  mldsaSign : Uint256 → Bytes

/-- `importoSat`: an amount, or everything. -/
inductive Importo where
  | tutto
  | sat (importoSat : Int)
deriving DecidableEq, Repr

section

variable (crypto : Crypto)

variable (k : Chiavi)

/-- The witness program of the keys. -/
def Chiavi.program : Uint256 := crypto.shake256 (k.ecdsaPub ++ k.mldsaPub)

def Chiavi.scriptPubKey : CScript := quantumSafeScript (k.program crypto).data

/-- The input that `addInput` makes for an entry. -/
def Unspent.input (u : Unspent) : CTxIn := ⟨⟨u.txid, u.vout⟩, [], sequenceFinal, []⟩

/-- The same input once `setWitness` has set its witness. -/
def Unspent.signed (u : Unspent) (witness : CScriptWitness) : CTxIn :=
  { u.input with scriptWitness := witness }

def Chiavi.witness (sh : Uint256) : CScriptWitness :=
  [k.ecdsaSign sh, k.ecdsaPub, k.mldsaSign sh, k.mldsaPub]

/-- The transaction with these inputs and outputs, each input signed over the hash of
`hashForWitnessV0`. -/
def firmata (utxos : List Unspent) (vout : List CTxOut) : CTransaction :=
  let tx : CTransaction := ⟨utxos.map Unspent.input, vout, 2#32, 0#32⟩
  { tx with
    vin := utxos.map fun u => u.signed
      (k.witness (bip143SighashAll crypto (k.scriptPubKey crypto) tx u.input u.valoreSat)) }

/-- The outputs: what is sent and, if there is any, the rest. -/
def uscite (destScript : CScript) (invio resto : Int) : List CTxOut :=
  ⟨invio, destScript⟩ :: if resto > 0 then [⟨resto, k.scriptPubKey crypto⟩] else []

def firmaBB1Z (utxos : List Unspent) (destScript : CScript) (importoSat : Importo)
    (feeSat : Int) : Except String CTransaction :=
  let totale := (utxos.map Unspent.valoreSat).sum
  let (invio, resto) :=
    match importoSat with
    | .tutto => (totale - feeSat, 0)
    | .sat importoSat => (importoSat, totale - importoSat - feeSat)
  if invio ≤ 0 then .error "Importo troppo basso rispetto alla commissione."
  else if resto < 0 then .error "Fondi insufficienti per importo piu commissione."
  else .ok (firmata crypto k utxos (uscite crypto k destScript invio resto))

/-- What the handler finds: whether the node runs, the height and the entries of the
wallet's script that it reads over RPC, and the library's `toOutputScript`. -/
structure Stato where
  nodeProc : Bool
  altezza : Int
  unspents : List Unspent
  toOutputScript : Bytes → Option CScript

/-- What the user asks for. There is no `importoSat` if the amount is not a number. -/
structure Dati where
  indirizzo : Bytes
  tutto : Bool
  importoSat : Option Int

/-- The entries that can be spent: a reward has to be 100 blocks deep. -/
def Stato.utxos (stato : Stato) : List Unspent :=
  stato.unspents.filter fun u => !(u.coinbase && decide (stato.altezza - u.height < 100))

def feeSat (utxos : List Unspent) (tutto : Bool) : Int :=
  let nOut := if tutto then 1 else 2
  let vbytes : Int := 11 + 1020 * utxos.length + 31 * nOut
  max 500 vbytes

/-- A transaction that is sent and the fee it was given. -/
structure Invio where
  tx : CTransaction
  feeSat : Int

/-- The handler `bb1z:invia` up to `sendrawtransaction`. There are no keys if the wallet
is locked. -/
def bb1zInvia (stato : Stato) (chiavi : Option Chiavi) (dati : Dati) : Except String Invio :=
  if !stato.nodeProc then .error "Per inviare, avvia prima il mining (serve il nodo acceso)."
  else if dati.indirizzo.isEmpty then .error "Manca l'indirizzo del destinatario."
  else
    match chiavi with
    | none => .error "Portafoglio bloccato: inserisci la password per inviare."
    | some k =>
      if stato.utxos.isEmpty then .error "Non hai BB quantum-safe disponibili da inviare."
      else
        match stato.toOutputScript dati.indirizzo with
        | none => .error "Indirizzo destinatario non valido."
        | some destScript =>
          let fee := feeSat stato.utxos dati.tutto
          match if dati.tutto then some Importo.tutto
            else (dati.importoSat.filter (0 < ·)).map Importo.sat with
          | none => .error "Importo non valido."
          | some importoSat =>
            match firmaBB1Z crypto k stato.utxos destScript importoSat fee with
            | .error message => .error ("Non e stato possibile inviare: " ++ message)
            | .ok tx => .ok ⟨tx, fee⟩

end

/-! ## What a node relays -/

/-- The sizes of the items that a witness can have. -/
structure Chiavi.Sizes (k : Chiavi) : Prop where
  ecdsaSign : ∀ sh, (k.ecdsaSign sh).length ≤ 72
  ecdsaPub : k.ecdsaPub.length ≤ 33
  mldsaSign : ∀ sh, (k.mldsaSign sh).length ≤ 2420
  mldsaPub : k.mldsaPub.length ≤ 1312

inductive StandardDestination : CScript → Prop
  | pubKeyHash (id : Uint160) :
      StandardDestination ([OpcodeType.opDup.toByte, OpcodeType.opHash160.toByte]
      ++ pushData id.data ++ [OpcodeType.opEqualverify.toByte, OpcodeType.opChecksig.toByte])
  | scriptHash (id : Uint160) : StandardDestination
      ([OpcodeType.opHash160.toByte] ++ pushData id.data ++ [OpcodeType.opEqual.toByte])
  | witnessProgram (version : Fin 17) (program : Bytes) (hlength : 2 ≤ program.length ∧
      program.length ≤ 32) :
      StandardDestination (pushInt64 version ++ pushData program)

/-- The sum of the entries that can be spent. -/
def Stato.totale (stato : Stato) : Int := (stato.utxos.map Unspent.valoreSat).sum

/-- A request that `firmaBB1Z` is able to serve: the destination is an address, and the
amount and the fee are there. -/
structure Pronto (stato : Stato) (dati : Dati) (destScript : CScript) : Prop where
  nodeProc : stato.nodeProc = true
  indirizzo : dati.indirizzo ≠ []
  utxos : stato.utxos ≠ []
  dest : stato.toOutputScript dati.indirizzo = some destScript
  standard : StandardDestination destScript
  tutto : dati.tutto = true → feeSat stato.utxos true < stato.totale
  importo : dati.tutto = false → ∃ importoSat, dati.importoSat = some importoSat ∧ 0 < importoSat ∧
    importoSat + feeSat stato.utxos false ≤ stato.totale

/-- The fee covers the virtual size, also the one in which a mempool counts the
signature operations, and the change is not dust. -/
structure Invio.Relayable (crypto : Crypto) (k : Chiavi) (invio : Invio) : Prop where
  fee : minRelayFee (getVirtualTransactionSize (getTransactionWeight invio.tx) 0 0) ≤ invio.feeSat
  sigOps : ∀ view view' nSigOpCost,
    (∀ txin ∈ invio.tx.vin, ∀ coin, view.coins.lookup txin.prevout = some coin →
      coin.val.out.scriptPubKey = k.scriptPubKey crypto) →
    getTransactionSigOpCost invio.tx view standardScriptVerifyFlags = some (view', nSigOpCost) →
    minRelayFee (getVirtualTransactionSize (getTransactionWeight invio.tx) nSigOpCost
      defaultBytesPerSigop) ≤ invio.feeSat
  change : ∀ txout ∈ invio.tx.vout.tail, isDust txout dustRelayTxFee = false

/-- The send goes through for every signer. -/
def Relayable (crypto : Crypto) (stato : Stato) (dati : Dati) : Prop :=
  ∀ k : Chiavi, k.Sizes → ∃ invio, bb1zInvia crypto stato (some k) dati = .ok invio ∧
    invio.Relayable crypto k

/-- The requests that leave no change, or at least 330 for it, and then spend two
entries or more or pay to a script of 28 bytes or less. -/
def Coperto (stato : Stato) (dati : Dati) (destScript : CScript) : Prop :=
  dati.tutto = true ∨ ∃ importoSat, dati.importoSat = some importoSat ∧
    (stato.totale = importoSat + (1020 * stato.utxos.length + 73) ∨
      importoSat + (1020 * stato.utxos.length + 73) + 330 ≤ stato.totale ∧
        (2 ≤ stato.utxos.length ∨ destScript.length ≤ 28))

/-! ## Sizes -/

namespace InviaLemmas

theorem length_writeCompactSize_small {n : Nat} (h : n < 253) :
    (writeCompactSize n).length = 1 := by
  rw [writeCompactSize, if_pos h, length_leBytes]

theorem length_writeCompactSize_le (n : Nat) : (writeCompactSize n).length ≤ 9 := by
  unfold writeCompactSize
  split_ifs <;> simp [length_leBytes]

theorem length_writeCompactSize_mono {n : Nat} (h : n ≤ 0xffff) :
    (writeCompactSize n).length ≤ 3 := by
  unfold writeCompactSize
  split_ifs <;> simp [length_leBytes]

theorem length_serializeBytes_le {v : Bytes} {n : Nat} (hv : v.length ≤ n) (hn : n ≤ 0xffff) :
    (serializeBytes v).length ≤ 3 + n := by
  rw [serializeBytes, length_append]
  exact Nat.add_le_add (length_writeCompactSize_mono (hv.trans hn)) hv

theorem length_serializeBytes_small {v : Bytes} (h : v.length < 253) :
    (serializeBytes v).length = 1 + v.length := by
  rw [serializeBytes, length_append, length_writeCompactSize_small h]

theorem length_signed (u : Unspent) (witness : CScriptWitness) :
    (u.signed witness).serialize.length = 41 := by
  simp [Unspent.signed, Unspent.input, CTxIn.serialize, COutPoint.serialize, serializeUint32,
    length_leBytes, length_data, length_serializeBytes_small]

theorem length_output {v : Int} {script : CScript} (h : script.length < 253) :
    (CTxOut.serialize ⟨v, script⟩).length = 9 + script.length := by
  rw [CTxOut.serialize, length_append, serializeInt64, length_leBytes,
    length_serializeBytes_small h]
  omega

theorem length_witness_le {k : Chiavi} (hk : k.Sizes) (sh : Uint256) :
    (serializeVector serializeBytes (k.witness sh)).length ≤ 3846 := by
  have hesig := length_serializeBytes_small (lt_of_le_of_lt (hk.ecdsaSign sh) (by decide))
  have hepk := length_serializeBytes_small (lt_of_le_of_lt hk.ecdsaPub (by decide))
  have hmsig := length_serializeBytes_le (hk.mldsaSign sh) (by decide)
  have hmpk := length_serializeBytes_le hk.mldsaPub (by decide)
  have hsig := hk.ecdsaSign sh
  have hpub := hk.ecdsaPub
  simp only [serializeVector, Chiavi.witness, flatMap_cons, flatMap_nil, length_append, length_cons,
    length_nil, length_writeCompactSize_small (show 0 + 1 + 1 + 1 + 1 < 253 by decide)]
  omega

variable {crypto : Crypto} {k : Chiavi} {utxos : List Unspent} {vout : List CTxOut}
  {destScript : CScript}
  {invio resto : Int}

/-- The sizes that the witnesses of a transaction have together. -/
def witnessLength (crypto : Crypto) (k : Chiavi) (utxos : List Unspent)
    (vout : List CTxOut) : Nat :=
  ((firmata crypto k utxos vout).vin.flatMap fun txin =>
    serializeVector serializeBytes txin.scriptWitness).length

theorem length_serialize_false :
    ((firmata crypto k utxos vout).serialize false).length =
      8 + (writeCompactSize utxos.length).length +
      41 * utxos.length + (serializeVector CTxOut.serialize vout).length := by
  have hinputs : ∀ txin ∈ (firmata crypto k utxos vout).vin, txin.serialize.length = 41 := by
    intro txin hin
    obtain ⟨u, _, rfl⟩ := List.mem_map.mp hin
    exact length_signed u _
  have hlength : (firmata crypto k utxos vout).vin.length = utxos.length := length_map _
  simp only [CTransaction.serialize, Bool.false_and, Bool.false_eq_true, if_false, append_nil,
    length_append, serializeUint32, length_leBytes]
  rw [length_serializeVector hinputs, hlength]
  dsimp only [firmata]
  omega

theorem hasWitness_firmata (h : utxos ≠ []) : (firmata crypto k utxos vout).hasWitness = true := by
  obtain ⟨u, rest, rfl⟩ := exists_cons_of_ne_nil h
  rfl

theorem length_serialize_true (h : utxos ≠ []) :
    ((firmata crypto k utxos vout).serialize true).length =
      ((firmata crypto k utxos vout).serialize false).length + 2 +
        witnessLength crypto k utxos vout := by
  simp only [CTransaction.serialize, hasWitness_firmata h, Bool.true_and, Bool.false_and,
    Bool.false_eq_true, if_false, if_true, append_nil, length_append, witnessLength]
  have hmarker : (serializeVector CTxIn.serialize []).length = 1 := rfl
  rw [hmarker, length_singleton]
  omega

theorem witnessLength_le (crypto : Crypto) (hk : k.Sizes) (utxos : List Unspent)
    (vout : List CTxOut) : witnessLength crypto k utxos vout ≤ 3846 * utxos.length := by
  rw [witnessLength, length_flatMap, firmata, map_map]
  refine (sum_le_card_nsmul _ 3846 fun n hn => ?_).trans ?_
  · obtain ⟨u, _, rfl⟩ := List.mem_map.mp hn
    exact length_witness_le hk _
  · rw [length_map, nsmul_eq_mul, Nat.mul_comm]
    rfl

/-! ### Outputs -/

theorem length_scriptPubKey (crypto : Crypto) (k : Chiavi) :
    (k.scriptPubKey crypto).length = 34 := by
  rw [Chiavi.scriptPubKey, quantumSafeScript_eq (length_data _), length_cons,
    length_cons, length_data]

theorem length_uscite (h : destScript.length ≤ 34) :
    (serializeVector CTxOut.serialize (uscite crypto k destScript invio resto)).length =
      10 + destScript.length + if resto > 0 then 43 else 0 := by
  have hdest := length_output (v := invio) (lt_of_le_of_lt h (show 34 < 253 by decide))
  have hrest :=
    length_output (v := resto) (show (k.scriptPubKey crypto).length <
      253 by rw [length_scriptPubKey]; decide)
  rw [length_scriptPubKey] at hrest
  unfold uscite serializeVector
  split_ifs
  · simp only [length_append, flatMap_cons, flatMap_nil, length_cons, length_nil, hdest, hrest,
      length_writeCompactSize_small (show 0 + 1 + 1 < 253 by decide)]
    omega
  · simp only [length_append, flatMap_cons, flatMap_nil, length_cons, length_nil, hdest,
      length_writeCompactSize_small (show 0 + 1 < 253 by decide)]
    omega

/-- Change is dust below 330. -/
theorem isDust_scriptPubKey (crypto : Crypto) (k : Chiavi) (resto : Int) :
    isDust ⟨resto, k.scriptPubKey crypto⟩ dustRelayTxFee = decide (resto < 330) := by
  have hlength := length_scriptPubKey crypto k
  have hspendable : isUnspendable (k.scriptPubKey crypto) = false := by
    rw [isUnspendable, hlength, Chiavi.scriptPubKey, quantumSafeScript_eq (length_data _)]
    rfl
  have hprogram : (isWitnessProgram (k.scriptPubKey crypto)).isSome = true := by
    rw [Chiavi.scriptPubKey, isWitnessProgram_quantumSafe (length_data _)]
    rfl
  have hsize :=
    length_output (v := resto) (show (k.scriptPubKey crypto).length < 253 by rw [hlength]; decide)
  rw [isDust, getDustThreshold, hspendable]
  simp only [hprogram, hsize, hlength, if_true, false_eq_true, if_false]
  rfl

/-! ### Signature operations -/

theorem length_standard (h : StandardDestination destScript) : destScript.length ≤ 34 := by
  cases h with
  | pubKeyHash id =>
    rw [pushData_short (by rw [id.length_data]; decide)]
    simp [id.length_data]
  | scriptHash id =>
    rw [pushData_short (by rw [id.length_data]; decide)]
    simp [id.length_data]
  | witnessProgram version program hlength =>
    have hversion : ∀ v : Fin 17, (pushInt64 v).length = 1 := by decide
    rw [pushData_short (lt_of_le_of_lt hlength.2 (by decide)), length_append, hversion, length_cons]
    omega

theorem pushInt64_version {version : Fin 17} {rest : Bytes} :
    ∃ opcode, pushInt64 version = [opcode] ∧
    getScriptOp (opcode :: rest) = some (opcode, [], rest) ∧
    opcode < OpcodeType.opChecksig.toByte := by
  have hpush : ∀ v : Fin 17, pushInt64 v = [(pushInt64 v).headD 0] ∧
      (pushInt64 v).headD 0 < opChecksig.toByte ∧
      ((pushInt64 v).headD 0 = 0 ∨ ¬(pushInt64 v).headD 0 ≤ opPushdata4.toByte) := by decide
  obtain ⟨hone, hlt, hkind⟩ := hpush version
  refine ⟨_, hone, ?_, hlt⟩
  rcases hkind with hzero | hlarge
  · rw [hzero]
    rfl
  · rw [getScriptOp, if_neg hlarge]

theorem getSigOpCount_standard (h : StandardDestination destScript) :
    CScript.getSigOpCount destScript false ≤ 1 := by
  cases h with
  | pubKeyHash id =>
    have hshort : id.data.length < 0x4c := by rw [id.length_data]; decide
    have hlength : ([opDup.toByte, opHash160.toByte] ++ pushData id.data
        ++ [opEqualverify.toByte, opChecksig.toByte]).length = 25 := by
      rw [pushData_short hshort]
      simp [id.length_data]
    rw [getSigOpCount, hlength, append_assoc, cons_append, cons_append, nil_append,
      sigOpLoop_of_lt rfl (by decide), sigOpLoop_of_lt rfl (by decide),
      sigOpLoop_of_lt (getScriptOp_pushData_short hshort _) (by rw [id.length_data]; decide)]
    exact Nat.le_refl 1
  | scriptHash id =>
    have hshort : id.data.length < 0x4c := by rw [id.length_data]; decide
    have hlength : ([opHash160.toByte] ++ pushData id.data ++ [opEqual.toByte]).length = 23 := by
      rw [pushData_short hshort]
      simp [id.length_data]
    rw [getSigOpCount, hlength, append_assoc, singleton_append, sigOpLoop_of_lt rfl (by decide),
      sigOpLoop_of_lt (getScriptOp_pushData_short hshort _) (by rw [id.length_data]; decide)]
    exact Nat.zero_le 1
  | witnessProgram version program hlength =>
    have hshort : program.length < 0x4c := lt_of_le_of_lt hlength.2 (by decide)
    obtain ⟨opcode, hversion, hop, hlt⟩ := pushInt64_version
    have hsize : UInt8.ofNat program.length < opChecksig.toByte := by
      have hnat : (UInt8.ofNat program.length).toNat = program.length :=
        UInt8.toNat_ofNat_of_lt (lt_trans hshort (by decide))
      rw [UInt8.lt_iff_toNat_lt, hnat]
      exact lt_trans hshort (by decide)
    rw [getSigOpCount, hversion, singleton_append, ← append_nil (pushData program)]
    rw [length_cons, sigOpLoop_of_lt hop hlt, append_nil, pushData_short hshort, length_cons,
      ← pushData_short hshort, ← append_nil (pushData program),
      sigOpLoop_of_lt (getScriptOp_pushData_short hshort []) hsize, sigOpLoop_nil]
    exact Nat.zero_le 1

theorem getSigOpCount_scriptPubKey (crypto : Crypto) (k : Chiavi) :
    CScript.getSigOpCount (k.scriptPubKey crypto) false = 0 := by
  have hshort : (k.program crypto).data.length < 0x4c := by rw [length_data]; decide
  rw [getSigOpCount, length_scriptPubKey, Chiavi.scriptPubKey, quantumSafeScript, singleton_append,
    ← append_nil (pushData _), sigOpLoop_of_lt rfl (by decide),
    sigOpLoop_of_lt (getScriptOp_pushData_short hshort _) (by rw [length_data]; decide),
    sigOpLoop_nil]

theorem getLegacySigOpCount_firmata (h : StandardDestination destScript) :
    getLegacySigOpCount (firmata crypto k utxos (uscite crypto k destScript invio resto)) ≤ 1 := by
  have hvin : ((firmata crypto k utxos (uscite crypto k destScript invio resto)).vin.map fun txin =>
      getSigOpCount txin.scriptSig false).sum = 0 := by
    refine sum_eq_zero fun n hn => ?_
    rw [firmata, map_map] at hn
    obtain ⟨u, _, rfl⟩ := List.mem_map.mp hn
    rfl
  have hvout : ((uscite crypto k destScript invio resto).map fun txout =>
      getSigOpCount txout.scriptPubKey false).sum ≤ 1 := by
    have hdest := getSigOpCount_standard h
    have hrest := getSigOpCount_scriptPubKey crypto k
    unfold uscite
    split_ifs
    · simpa [hrest] using hdest
    · simpa using hdest
  rw [getLegacySigOpCount, hvin, Nat.zero_add]
  exact hvout

/-- An input without a signature script counts nothing if it spends an output of the keys. -/
theorem sigOps_scriptPubKey {vin : List (CTxIn × Coin)}
    (h : ∀ p ∈ vin, p.2.out.scriptPubKey = k.scriptPubKey crypto) :
    getP2SHSigOpCount vin = 0 ∧ witnessSigOpCost standardScriptVerifyFlags vin = some 0 := by
  have hprogram := isWitnessProgram_quantumSafe (length_data (k.program crypto))
  have hnot := isPayToScriptHash_quantumSafe (length_data (k.program crypto))
  induction vin with
  | nil => exact ⟨rfl, rfl⟩
  | cons p vin ih =>
    obtain ⟨txin, coin⟩ := p
    obtain ⟨hp2sh, hwitness⟩ := ih fun p hp => h p (mem_cons_of_mem _ hp)
    have hcoin : coin.out.scriptPubKey = quantumSafeScript (k.program crypto).data :=
      h _ mem_cons_self
    constructor
    · rw [getP2SHSigOpCount, map_cons, sum_cons]
      dsimp only
      rw [hcoin, hnot, if_neg Bool.false_ne_true, Nat.zero_add]
      exact hp2sh
    · have hcount : countWitnessSigOps txin.scriptSig coin.out.scriptPubKey txin.scriptWitness
          standardScriptVerifyFlags = some 0 := by
        rw [countWitnessSigOps, if_neg (by decide), if_neg (by decide), hcoin, hprogram]
        rfl
      rw [witnessSigOpCost, hcount, hwitness]
      rfl

theorem mem_accessCoins {vin : List CTxIn} {view view' : CCoinsViewCache} {coins : List Coin}
    (h : accessCoins view vin = some (view', coins)) :
    ∀ coin ∈ coins, ∃ txin ∈ vin, ∃ unspent, view.coins.lookup txin.prevout = some unspent ∧
    unspent.val = coin := by
  induction vin generalizing view coins with
  | nil =>
    cases h
    intro coin hcoin
    cases hcoin
  | cons txin vin ih =>
    have hsame := (view.accessCoin_spec txin.prevout).1
    simp only [accessCoins] at h
    split at h
    · cases h
    · next hspent =>
      simp only [Option.bind_eq_bind, Option.bind_eq_some_iff] at h
      obtain ⟨⟨view'', coins'⟩, hrest, h⟩ := h
      cases h
      intro coin hcoin
      rcases List.mem_cons.mp hcoin with rfl | hcoin
      · exact ⟨txin, mem_cons_self, _, TxVerifyLemmas.lookup_accessCoin
          (Bool.eq_false_iff.mpr hspent), rfl⟩
      · obtain ⟨txin', hin, unspent, hlookup, hval⟩ := ih hrest coin hcoin
        exact ⟨txin', mem_cons_of_mem _ hin, unspent, by rw [← hsame.coins]; exact hlookup, hval⟩

/-- The signature operations of a send weigh at most four. -/
theorem getTransactionSigOpCost_le {tx : CTransaction} {view view' : CCoinsViewCache}
    {nSigOpCost : Nat} (hlegacy : getLegacySigOpCount tx ≤ 1)
    (hcoins : ∀ txin ∈ tx.vin, ∀ coin, view.coins.lookup txin.prevout = some coin →
      coin.val.out.scriptPubKey = k.scriptPubKey crypto)
    (h : getTransactionSigOpCost tx view standardScriptVerifyFlags = some (view', nSigOpCost)) :
    nSigOpCost ≤ 4 := by
  have hfour : getLegacySigOpCount tx * witnessScaleFactor ≤ 4 := Nat.mul_le_mul_right 4 hlegacy
  unfold getTransactionSigOpCost at h
  split at h
  · cases h
    exact hfour
  · simp only [Option.bind_eq_bind, Option.bind_eq_some_iff] at h
    obtain ⟨⟨view₁, coins⟩, haccess, witness, hwitness, h⟩ := h
    have hkeys : ∀ p ∈ tx.vin.zip coins, p.2.out.scriptPubKey = k.scriptPubKey crypto := by
      rintro ⟨txin, coin⟩ hp
      obtain ⟨txin', hin, unspent, hlookup, rfl⟩ := mem_accessCoins haccess coin (of_mem_zip hp).2
      exact hcoins txin' hin unspent hlookup
    obtain ⟨hp2sh, hnone⟩ := sigOps_scriptPubKey hkeys
    rw [hnone] at hwitness
    cases hwitness
    cases h
    rw [hp2sh]
    simpa using hfour

/-! ### What the handler sends -/

theorem length_pos (h : utxos ≠ []) : 1 ≤ utxos.length := length_pos_of_ne_nil h

theorem feeSat_eq {utxos : List Unspent} (tutto : Bool) (h : utxos ≠ []) :
    feeSat utxos tutto = 11 + 1020 * utxos.length + 31 * if tutto then 1 else 2 := by
  have hpos := length_pos h
  unfold feeSat
  cases tutto
  all_goals
    exact max_eq_right (by simp; omega)

variable {stato : Stato} {dati : Dati} {destScript : CScript}

/-- The handler serves the request, with this much left for the change. -/
theorem bb1zInvia_of_pronto {crypto : Crypto} {k : Chiavi} (h : Pronto stato dati destScript) :
    ∃ invio resto, bb1zInvia crypto stato (some k) dati = .ok
        ⟨firmata crypto k stato.utxos (uscite crypto k destScript invio resto),
          feeSat stato.utxos dati.tutto⟩ ∧
      (dati.tutto = true → resto = 0) ∧
      ∀ importoSat, dati.tutto = false → dati.importoSat = some importoSat →
        0 ≤ resto ∧ resto = stato.totale - importoSat - feeSat stato.utxos false := by
  have hempty : stato.utxos.isEmpty = false := by
    rw [isEmpty_eq_false_iff]
    exact h.utxos
  have hindirizzo : dati.indirizzo.isEmpty = false := by
    rw [isEmpty_eq_false_iff]
    exact h.indirizzo
  unfold bb1zInvia
  rw [h.nodeProc, hindirizzo, hempty, h.dest]
  simp only [Bool.not_true, Bool.false_eq_true, if_false]
  cases htutto : dati.tutto with
  | true =>
    have hpos := h.tutto htutto
    rw [Stato.totale] at hpos
    refine ⟨stato.totale - feeSat stato.utxos true, 0, ?_, fun _ => rfl, nofun⟩
    simp only [if_true, firmaBB1Z]
    rw [if_neg (by omega), if_neg (by decide)]
    rfl
  | false =>
    obtain ⟨importoSat, himporto, hpos, hfunds⟩ := h.importo htutto
    have hrest : 0 ≤ stato.totale - importoSat - feeSat stato.utxos false := by linarith
    refine ⟨importoSat, stato.totale - importoSat - feeSat stato.utxos false, ?_, nofun, ?_⟩
    · rw [himporto]
      have hfilter :
        (some importoSat).filter (fun x => decide (0 < x)) = some importoSat := by simp [hpos]
      simp only [Bool.false_eq_true, if_false, hfilter, Option.map_some, firmaBB1Z]
      rw [if_neg (by omega), if_neg (by rw [Stato.totale] at hrest; omega)]
      rfl
    · intro x _ hx
      rw [himporto] at hx
      cases hx
      exact ⟨hrest, rfl⟩

/-- The weight that a send has at most. -/
theorem getTransactionWeight_firmata_le (hk : k.Sizes) (hutxos : utxos ≠ []) :
    getTransactionWeight (firmata crypto k utxos vout) ≤
      (4 * (8 + (writeCompactSize utxos.length).length +
      41 * utxos.length + (serializeVector CTxOut.serialize vout).length) + 2 + 3846 *
        utxos.length : Nat) := by
  refine (getTransactionWeight_le _).trans ?_
  have hwitness := witnessLength_le crypto hk utxos vout
  rw [length_serialize_true hutxos, length_serialize_false]
  omega

/-- Four times the fee covers the weight, except with one input and two long outputs. -/
theorem getTransactionWeight_le_feeSat (crypto : Crypto) (hk : k.Sizes) (hutxos : utxos ≠ [])
    (hlength : destScript.length ≤ 34) {tutto : Bool} {resto : Int} (invio : Int)
    (hrest : tutto = true → resto = 0)
    (hlong : resto > 0 → 2 ≤ utxos.length ∨ destScript.length ≤ 28) :
    getTransactionWeight (firmata crypto k utxos (uscite crypto k destScript invio resto)) ≤
      4 * feeSat utxos tutto := by
  refine (getTransactionWeight_firmata_le hk hutxos).trans ?_
  rw [length_uscite hlength, feeSat_eq tutto hutxos]
  have hpos := length_pos hutxos
  have hcount : (writeCompactSize utxos.length).length ≤ 9 ∧
    (utxos.length = 1 → (writeCompactSize utxos.length).length = 1) :=
    ⟨length_writeCompactSize_le _, fun h => by rw [h]; rfl⟩
  cases tutto with
  | true =>
    rw [hrest rfl, if_pos rfl, if_neg (by decide)]
    omega
  | false =>
    rw [if_neg Bool.false_ne_true]
    split_ifs with hresto
    · have hlong := hlong hresto
      omega
    · push_cast
      omega

theorem minRelayFee_le_of_weight {nWeight nSigOpCost fee : Int} {bytesPerSigop : Nat}
    (hweight : nWeight ≤ 4 * fee)
    (hpos : 0 ≤ nSigOpCost * bytesPerSigop) (hsigops : nSigOpCost * bytesPerSigop ≤ 4 * fee) :
    minRelayFee (getVirtualTransactionSize nWeight nSigOpCost bytesPerSigop) ≤ fee := by
  have hnonneg : 0 ≤ getVirtualTransactionSize nWeight nSigOpCost bytesPerSigop := by
    unfold getVirtualTransactionSize witnessScaleFactor
    omega
  exact (minRelayFee_le hnonneg).trans (getVirtualTransactionSize_le hweight hsigops)

/-- A signer whose items have the largest sizes. -/
def largest : Chiavi where
  ecdsaPub := List.replicate 33 0
  mldsaPub := List.replicate 1312 0
  ecdsaSign _ := List.replicate 72 0
  mldsaSign _ := List.replicate 2420 0

theorem largest_sizes : largest.Sizes :=
  ⟨fun _ => (length_replicate ..).le, (length_replicate ..).le, fun _ => (length_replicate ..).le,
    (length_replicate ..).le⟩

/-- What the node asks for a send with one input and two outputs. -/
theorem minRelayFee_largest (hlength : destScript.length ≤ 34) {u : Unspent} (hresto : resto > 0) :
    minRelayFee (getVirtualTransactionSize (getTransactionWeight
      (firmata crypto largest [u] (uscite crypto largest destScript invio resto))) 0 0) =
        1065 + destScript.length := by
  have hwitness (vout : List CTxOut) : witnessLength crypto largest [u] vout = 3846 := by
    have hitems : (serializeVector serializeBytes (largest.witness nullUint256)).length =
      3846 := by decide +kernel
    rw [witnessLength, firmata, map_cons, map_nil, flatMap_singleton]
    exact hitems
  have hone : (writeCompactSize [u].length).length = 1 := rfl
  have hweight :=
    @getTransactionWeight_eq (firmata crypto largest [u]
      (uscite crypto largest destScript invio resto))
  rw [length_serialize_true (cons_ne_nil u []), length_serialize_false, hone, hwitness,
    length_singleton, length_uscite hlength, if_pos hresto] at hweight
  have hsize : getVirtualTransactionSize (getTransactionWeight
      (firmata crypto largest [u] (uscite crypto largest destScript invio resto))) 0 0 =
      1065 + destScript.length := by
    rw [hweight (by omega), getVirtualTransactionSize, witnessScaleFactor]
    omega
  rw [hsize]
  exact minRelayFee_eq (by omega) (by omega)

theorem coperto_of_relayable (h : Pronto stato dati destScript)
    (hsend : Relayable crypto stato dati) : Coperto stato dati destScript := by
  have hlength := length_standard h.standard
  have hpos := length_pos h.utxos
  have hfee := feeSat_eq false h.utxos
  rw [if_neg Bool.false_ne_true] at hfee
  obtain ⟨sent, hsent, hrelay⟩ := hsend largest largest_sizes
  obtain ⟨invio, resto, hinvia, _, himporto⟩ := bb1zInvia_of_pronto h
  rw [hinvia] at hsent
  cases hsent
  cases htutto : dati.tutto with
  | true => exact .inl htutto
  | false =>
    obtain ⟨importoSat, hsat, _, _⟩ := h.importo htutto
    obtain ⟨hnonneg, hresto⟩ := himporto importoSat htutto hsat
    refine .inr ⟨importoSat, hsat, ?_⟩
    rcases Int.lt_or_le 0 resto with hchange | hchange
    · have hdust :=
        hrelay.change ⟨resto, largest.scriptPubKey crypto⟩ (by simp [firmata, uscite, hchange])
      rw [isDust_scriptPubKey, decide_eq_false_iff_not] at hdust
      refine .inr ⟨by omega, ?_⟩
      rcases Nat.lt_or_ge stato.utxos.length 2 with hone | htwo
      · obtain ⟨u, hu⟩ := List.length_eq_one_iff.mp (show stato.utxos.length = 1 by omega)
        have hcovers := hrelay.fee
        dsimp only at hcovers
        rw [htutto, hfee, hu, minRelayFee_largest hlength hchange, length_singleton] at hcovers
        push_cast at hcovers
        have hshort : (destScript.length : Int) ≤ 28 := by linarith
        exact .inr (by exact_mod_cast hshort)
      · exact .inl htwo
    · exact .inl (by omega)

theorem relayable_of_coperto (h : Pronto stato dati destScript)
    (hcovered : Coperto stato dati destScript) : Relayable crypto stato dati := by
  intro k hk
  have hlength := length_standard h.standard
  have hfee := feeSat_eq false h.utxos
  rw [if_neg Bool.false_ne_true] at hfee
  obtain ⟨invio, resto, hinvia, htutto, himporto⟩ := bb1zInvia_of_pronto h
  have hchange : resto > 0 → 330 ≤ resto ∧ (2 ≤ stato.utxos.length ∨ destScript.length ≤ 28) := by
    intro hresto
    rcases hcovered with hall | ⟨importoSat, hsat, hcovered⟩
    · rw [htutto hall] at hresto
      exact absurd hresto (by decide)
    · cases hall : dati.tutto with
      | true =>
        rw [htutto hall] at hresto
        exact absurd hresto (by decide)
      | false =>
        have hrest := (himporto importoSat hall hsat).2
        rcases hcovered with hexact | ⟨hmore, hshort⟩
        · omega
        · exact ⟨by omega, hshort⟩
  have hweight :=
    getTransactionWeight_le_feeSat crypto hk h.utxos hlength invio htutto fun hresto =>
      (hchange hresto).2
  have hlarge : 80 ≤ 4 * feeSat stato.utxos dati.tutto := by
    exact le_trans (by decide) (Int.mul_le_mul_of_nonneg_left (le_max_left _ _) (by decide))
  refine ⟨_, hinvia, ?_, ?_, ?_⟩
  · exact minRelayFee_le_of_weight hweight (by decide) (by dsimp only; omega)
  · intro view view' nSigOpCost hcoins hcost
    have hfour := getTransactionSigOpCost_le (getLegacySigOpCount_firmata h.standard) hcoins hcost
    refine minRelayFee_le_of_weight hweight (by positivity) ?_
    rw [defaultBytesPerSigop]
    push_cast
    omega
  · intro txout hmem
    dsimp only [firmata, uscite] at hmem
    rw [tail_cons] at hmem
    split_ifs at hmem with hresto
    · rw [mem_singleton] at hmem
      subst hmem
      rw [isDust_scriptPubKey, decide_eq_false_iff_not]
      omega
    · cases hmem

end InviaLemmas

open InviaLemmas

/-- A send that the handler makes goes through for every signer exactly if it leaves no
change, or change worth at least 330 and, with one input only, a destination of 28
bytes or less. -/
theorem bb1zInvia_relayable_iff (crypto : Crypto) {stato : Stato} {dati : Dati}
    {destScript : CScript} (h : Pronto stato dati destScript) :
    Relayable crypto stato dati ↔ Coperto stato dati destScript :=
  ⟨coperto_of_relayable h, relayable_of_coperto h⟩

/-- A node at height 200 with one entry of the wallet, and an address that stands for a script. -/
def oneEntry (valoreSat : Int) (destScript : CScript) : Stato :=
  ⟨true, 200, [⟨nullUint256, 0#32, valoreSat, false, 10⟩], fun _ => some destScript⟩

/-- The script of a quantum-safe address. -/
def longDest : CScript := pushInt64 (2 : Fin 17) ++ pushData (List.replicate 32 1)

/-- The script of a witness key hash. -/
def shortDest : CScript := pushInt64 (0 : Fin 17) ++ pushData (List.replicate 20 1)

theorem longDest_standard : StandardDestination longDest := .witnessProgram 2 _ (by decide)

theorem shortDest_standard : StandardDestination shortDest := .witnessProgram 0 _ (by decide)

/-- Everything goes to a quantum-safe address. -/
theorem bb1zInvia_relayable_tutto : Pronto (oneEntry coin longDest) ⟨[0x62], true, none⟩ longDest ∧
    Relayable acceptingCrypto (oneEntry coin longDest) ⟨[0x62], true, none⟩ := by
  have hready : Pronto (oneEntry coin longDest) ⟨[0x62], true, none⟩ longDest :=
    ⟨rfl, nofun, nofun, rfl, longDest_standard, fun _ => by decide, nofun⟩
  exact ⟨hready, (bb1zInvia_relayable_iff acceptingCrypto hready).mpr (.inl rfl)⟩

/-- Half a coin of one goes to a quantum-safe address: the fee is 1093 and the node asks
for 1099. And a send that leaves one satoshi makes it an output. -/
theorem bb1zInvia_not_relayed :
    (Pronto (oneEntry coin longDest) ⟨[0x62], false, some 50000000⟩ longDest ∧
      ¬Relayable acceptingCrypto (oneEntry coin longDest) ⟨[0x62], false, some 50000000⟩) ∧
    (Pronto (oneEntry 2094 shortDest) ⟨[0x62], false, some 1000⟩ shortDest ∧
      ¬Relayable acceptingCrypto (oneEntry 2094 shortDest) ⟨[0x62], false, some 1000⟩) := by
  have hlong : Pronto (oneEntry coin longDest) ⟨[0x62], false, some 50000000⟩ longDest :=
    ⟨rfl, nofun, nofun, rfl, longDest_standard, nofun, fun _ => ⟨_, rfl, by decide, by decide⟩⟩
  have hshort : Pronto (oneEntry 2094 shortDest) ⟨[0x62], false, some 1000⟩ shortDest :=
    ⟨rfl, nofun, nofun, rfl, shortDest_standard, nofun, fun _ => ⟨_, rfl, by decide, by decide⟩⟩
  refine ⟨⟨hlong, fun hsend => ?_⟩, hshort, fun hsend => ?_⟩
  · rcases coperto_of_relayable hlong hsend with hall | ⟨importoSat, hsat, hexact | ⟨_, htwo⟩⟩
    · cases hall
    · cases hsat
      exact absurd hexact (by decide)
    · exact absurd htwo (by decide)
  · rcases coperto_of_relayable hshort hsend with hall | ⟨importoSat, hsat, hexact | ⟨hmore, _⟩⟩
    · cases hall
    · cases hsat
      exact absurd hexact (by decide)
    · cases hsat
      exact absurd hmore (by decide)

end Bitcoboost.Invia
