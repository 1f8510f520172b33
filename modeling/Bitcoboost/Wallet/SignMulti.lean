import Mathlib.Data.List.TakeWhile
import Bitcoboost.Script.QuantumSafe

/-!
# The reference wallet

The command `sign-multi` of `contrib/pqwallet/bb_pqwallet.cpp`, from the text of its arguments to
the transaction it prints. The keys of the backup file and the signing functions of libsecp256k1
and ML-DSA are parameters; `strtol` and `atoi` of the C library are modelled.
-/

namespace Bitcoboost

open Positional ExceptBind List Bool

/-! ## Numbers from text -/

def isspace (c : UInt8) : Bool := c = 0x20 ∨ (0x09 ≤ c ∧ c ≤ 0x0d)

def digitValue (c : UInt8) : Nat :=
  if 0x30 ≤ c ∧ c ≤ 0x39 then c.toNat - 0x30
  else if 0x61 ≤ c ∧ c ≤ 0x7a then c.toNat - 0x61 + 10
  else if 0x41 ≤ c ∧ c ≤ 0x5a then c.toNat - 0x41 + 10
  else 36

def digitsValue (base : Nat) (s : Bytes) : Nat := horner base 0 (s.map digitValue)

/-- The sign in front of a number: whether it is negative, and what follows. -/
def takeSign : Bytes → Bool × Bytes
  | [] => (false, [])
  | c :: s => if c = 0x2d then (true, s) else if c = 0x2b then (false, s) else (false, c :: s)

/-- What follows the mark `0x` of a hexadecimal number. -/
def dropHexMark (base : Nat) : Bytes → Bytes
  | zero :: x :: s => if base = 16 ∧ zero = 0x30 ∧ (x = 0x78 ∨ x = 0x58) then s else zero :: x :: s
  | s => s

/-- `strtoll`, and `strtol` where a `long` has 64 bits. Numbers out of range are the
nearest one in range. -/
def strtoll (base : Nat) (s : Bytes) : Int :=
  let (negative, s) := takeSign (s.dropWhile isspace)
  let n : Int := digitsValue base ((dropHexMark base s).takeWhile fun c => digitValue c < base)
  if negative then max (-n) (-9223372036854775808) else min n 9223372036854775807

/-- `(uint32_t)atoi(s)`. -/
def atoi (s : Bytes) : BitVec 32 := BitVec.ofInt 32 (strtoll 10 s)

def atoll (s : Bytes) : Int := strtoll 10 s

def hexb : Bytes → Bytes
  | c :: c' :: h => UInt8.ofInt (strtoll 16 [c, c']) :: hexb h
  | _ => []

/-- `parse_txid`. `none` is a read beyond the end of the bytes. -/
def parseTxid (h : Bytes) : Option Uint256 := BaseBlob.ofBytes? 32 ((hexb h).reverse.take 32)

/-- One hexadecimal digit as `printf` writes it. -/
def hexDigit (n : Nat) : UInt8 :=
  if n < 10 then UInt8.ofNat (0x30 + n) else UInt8.ofNat (0x61 + (n - 10))

def phex (d : Bytes) : Bytes :=
  d.flatMap fun byte => [hexDigit (byte.toNat / 16), hexDigit (byte.toNat % 16)]

/-! ## The command -/

/-- `Keys`, as `load_backup` leaves them. -/
structure Keys (crypto : Crypto) where
  esk : BaseBlob 32
  epk : BaseBlob 33
  msk : BaseBlob 2560
  mpk : BaseBlob 1312
  program : Uint256
  /-- `compute_program`. -/
  program_eq : program = crypto.shake256 (epk.data ++ mpk.data)

/-- The signing functions that the wallet calls. `none` is their failure. -/
structure Signer where
  /-- `secp256k1_ecdsa_sign` and `secp256k1_ecdsa_signature_serialize_der`: the message
  hash and the secret key. -/
  ecdsaSign : Uint256 → BaseBlob 32 → Option Bytes
  /-- `PQCLEAN_MLDSA44_CLEAN_crypto_sign_signature_ctx`: the message, the context and
  the secret key. -/
  mldsa44SignCtx : Bytes → Bytes → BaseBlob 2560 → Option Bytes

/-- How `sign-multi` fails. -/
inductive WalletError where
  | usage
  | malformedInput
  /-- A transaction id that is too short. -/
  | outOfBounds
  | ecdsaFailed
  | mldsaFailed
deriving DecidableEq, Repr

/-- A value whose absence ends the command. -/
def orFail {α : Type} (e : WalletError) : Option α → Except WalletError α
  | some a => .ok a
  | none => .error e

/-- `In`. -/
structure SignInput where
  txid : Bytes
  vout : BitVec 32
  amt : CAmount

/-- `s.find(':')`. -/
def findColon (s : Bytes) : Option Nat := s.findIdx? (· = 0x3a)

/-- `s.rfind(':')`. -/
def rfindColon (s : Bytes) : Option Nat :=
  (s.reverse.findIdx? (· = 0x3a)).map fun i => s.length - 1 - i

/-- An argument `txid:vout:amount_sat`. -/
def parseSignInput (s : Bytes) : Except WalletError SignInput :=
  match findColon s, rfindColon s with
  | some p1, some p2 =>
    if p1 = p2 then .error .malformedInput
    else .ok ⟨s.take p1, atoi ((s.drop (p1 + 1)).take (p2 - p1 - 1)), atoll (s.drop (p2 + 1))⟩
  | _, _ => .error .malformedInput

/-- The input of the transaction for an argument, without a witness. -/
def unsignedInput (input : SignInput) : Except WalletError CTxIn := do
  let txid ← orFail .outOfBounds (parseTxid input.txid)
  .ok ⟨⟨txid, input.vout⟩, [], 0xffffffff#32, []⟩

section SignMulti

variable {crypto : Crypto} (signer : Signer) (k : Keys crypto)

/-- The witness of the input with the index `i`, which spends `amt`. -/
def signWitness (txc : CTransaction) (i : Nat) (amt : CAmount) :
    Except WalletError CScriptWitness := do
  let scriptCode := [OpcodeType.op2.toByte] ++ pushData k.program.data
  let sh ← orFail .outOfBounds
    (signatureHash crypto scriptCode txc i sighashAll amt .witnessV0 none)
  let der ← orFail .ecdsaFailed (signer.ecdsaSign sh k.esk)
  let msig ← orFail .mldsaFailed (signer.mldsa44SignCtx sh.data
    (Bytes.ofString "BitcoBoost-bb1z-v2") k.msk)
  .ok [der ++ [0x01], k.epk.data, msig, k.mpk.data]

/-- The loop over the inputs from the index `i` on: the inputs with their witnesses. -/
def signInputs (txc : CTransaction) :
    Nat → List (SignInput × CTxIn) → Except WalletError (List CTxIn)
  | _, [] => .ok []
  | i, (input, txin) :: rest => do
    let scriptWitness ← signWitness signer k txc i input.amt
    let vin ← signInputs txc (i + 1) rest
    .ok ({ txin with scriptWitness } :: vin)

/-- The transaction that `sign-multi` signs and prints. The arguments are those after
the passphrase. -/
def signMultiTx (args : List Bytes) : Except WalletError CTransaction :=
  match args with
  | destHex :: sendText :: inputs =>
    if inputs.isEmpty then .error .usage
    else do
      let dest := hexb destHex
      let send := atoll sendText
      let ins ← inputs.mapM parseSignInput
      let vin ← ins.mapM unsignedInput
      let txc : CTransaction := ⟨vin, [⟨send, dest⟩], 2#32, 0#32⟩
      let vin ← signInputs signer k txc 0 (ins.zip vin)
      .ok { txc with vin }
  | _ => .error .usage

def signMulti (args : List Bytes) : Except WalletError Bytes := do
  let mtx ← signMultiTx signer k args
  .ok (phex (mtx.serialize true) ++ [0x0a])

end SignMulti

/-! ## Reading the arguments -/

/-- A digit is no blank and no sign, and no other mark of the arguments. -/
theorem plain_of_digit (c : UInt8) : digitValue c < 16 →
    isspace c = false ∧ c ≠ 0x2d ∧ c ≠ 0x2b ∧ c ≠ 0x78 ∧ c ≠ 0x58 ∧ c ≠ 0x3a := by
  refine forall_uint8 (p := fun c => digitValue c < 16 →
    isspace c = false ∧ c ≠ 0x2d ∧ c ≠ 0x2b ∧ c ≠ 0x78 ∧ c ≠ 0x58 ∧ c ≠ 0x3a) ?_ c
  decide +kernel

theorem ofInt_natCast (n : Nat) : UInt8.ofInt (n : Int) = UInt8.ofNat n := by
  rw [← UInt8.toNat_inj, UInt8.ofInt, UInt8.toNat_ofNat', UInt8.toNat_ofNat']
  omega

theorem dropHexMark_digits {base : Nat} {s : Bytes} (hs : ∀ c ∈ s, digitValue c < 16) :
    dropHexMark base s = s := by
  match s with
  | [] => rfl
  | [_] => rfl
  | zero :: x :: s =>
    have hx := plain_of_digit x (hs x (by simp))
    rw [dropHexMark, if_neg]
    rintro ⟨_, _, h | h⟩
    · exact hx.2.2.2.1 h
    · exact hx.2.2.2.2.1 h

/-- A text of digits is read as the number that they encode. -/
theorem strtoll_digits {base : Nat} (hbase : base ≤ 16) {s : Bytes}
    (hs : ∀ c ∈ s, digitValue c < base)
    (hlt : digitsValue base s < 2 ^ 63) : strtoll base s = digitsValue base s := by
  have hhex : ∀ c ∈ s, digitValue c < 16 := fun c hc => (hs c hc).trans_le hbase
  have hsign : takeSign (s.dropWhile isspace) = (false, s) := by
    cases s with
    | nil => rfl
    | cons c s =>
      obtain ⟨hspace, hminus, hplus, _⟩ := plain_of_digit c (hhex c mem_cons_self)
      rw [dropWhile_cons_of_neg (by rw [hspace]; exact false_ne_true), takeSign, if_neg hminus,
        if_neg hplus]
  have htake : s.takeWhile (fun c => digitValue c < base) = s :=
    List.takeWhile_eq_self_iff.mpr fun c hc => decide_eq_true (hs c hc)
  unfold strtoll
  rw [hsign]
  dsimp only
  rw [dropHexMark_digits hhex, htake, if_neg Bool.false_ne_true]
  exact min_eq_left (by omega)

/-! hex -/

theorem digitsValue_cons_cons (c c' : UInt8) (h : Bytes) :
    digitsValue 16 (c :: c' :: h) = (16 * digitValue c + digitValue c') * 16 ^ h.length +
      digitsValue 16 h := by
  rw [digitsValue, map_cons, map_cons, horner_cons, horner_cons, horner_eq,
    digitsValue, horner_zero_eq, length_map]
  ring

theorem hexb_digits {h : Bytes} (hh : ∀ c ∈ h, digitValue c < 16) {n : Nat}
    (hlen : h.length = 2 * n) :
    (hexb h).length = n ∧ Bytes.beValue (hexb h) = digitsValue 16 h := by
  induction n generalizing h with
  | zero =>
    obtain rfl := eq_nil_of_length_eq_zero hlen
    exact ⟨rfl, rfl⟩
  | succ n ih =>
    match h with
    | c :: c' :: h =>
      have hc : digitValue c < 16 := hh c (by simp)
      have hc' : digitValue c' < 16 := hh c' (by simp)
      have hrest : h.length = 2 * n := by simpa [Nat.mul_succ] using hlen
      obtain ⟨hlength, hvalue⟩ := ih (fun d hd => hh d (by simp [hd])) hrest
      have hpair : strtoll 16 [c, c'] = (16 * digitValue c + digitValue c' : Nat) := by
        have hvalue : digitsValue 16 [c, c'] = 16 * digitValue c + digitValue c' := by
          simp [digitsValue]
        rw [← hvalue]
        refine strtoll_digits (le_refl _) (by simp [hc, hc']) ?_
        omega
      have hbyte :
          (UInt8.ofInt (strtoll 16 [c, c'])).toNat = 16 * digitValue c + digitValue c' := by
        rw [hpair, ofInt_natCast, UInt8.toNat_ofNat']
        omega
      rw [hexb]
      refine ⟨by rw [length_cons, hlength], ?_⟩
      rw [digitsValue_cons_cons, ← hvalue, Bytes.beValue, map_cons, horner_cons, horner_eq,
        Bytes.beValue, horner_zero_eq, length_map, hlength, hbyte, hrest, pow_mul]
      ring

/-- A transaction id is written with its last byte first. -/
theorem parseTxid_digits {txid : Bytes} (hh : ∀ c ∈ txid, digitValue c < 16)
    (hlen : txid.length = 64) : parseTxid txid = some (uint256S (digitsValue 16 txid)) := by
  obtain ⟨hlength, hvalue⟩ := hexb_digits hh (show txid.length = 2 * 32 from hlen)
  have hreverse : (hexb txid).reverse.length = 32 := by rw [length_reverse, hlength]
  have hbytes : (hexb txid).reverse = (uint256S (digitsValue 16 txid)).data := by
    rw [← leBytes_leValue (hexb txid).reverse, hreverse, ← Bytes.beValue_eq_leValue, hvalue]
    rfl
  rw [parseTxid, take_of_length_le hreverse.le, hbytes, BaseBlob.ofBytes?,
    dif_pos (BaseBlob.length_data _)]

/-! ## Arguments -/

/-- The text of one input: a transaction id of 64 hexadecimal digits, the index of the
output and its amount, in decimal. -/
structure InputText where
  txid : Bytes
  vout : Bytes
  amount : Bytes
  length_txid : txid.length = 64
  hex_txid : ∀ c ∈ txid, digitValue c < 16
  decimal_vout : ∀ c ∈ vout, digitValue c < 10
  vout_lt : digitsValue 10 vout < 2 ^ 31
  decimal_amount : ∀ c ∈ amount, digitValue c < 10
  amount_lt : digitsValue 10 amount < 2 ^ 63

namespace InputText

variable (input : InputText)

def text : Bytes := input.txid ++ 0x3a :: (input.vout ++ 0x3a :: input.amount)

/-- The output that the argument names. -/
def prevout : COutPoint :=
  ⟨uint256S (digitsValue 16 input.txid), BitVec.ofNat 32 (digitsValue 10 input.vout)⟩

/-- The amount that the argument gives. -/
def amt : CAmount := digitsValue 10 input.amount

/-- What the wallet reads from the argument. -/
def signInput : SignInput := ⟨input.txid, BitVec.ofNat 32 (digitsValue 10 input.vout), input.amt⟩

/-- The input of the transaction for the argument, without a witness. -/
def unsigned : CTxIn := ⟨input.prevout, [], 0xffffffff#32, []⟩

end InputText

theorem findIdx?_colon {s rest : Bytes} (hs : ∀ c ∈ s, digitValue c < 16) :
    (s ++ 0x3a :: rest).findIdx? (· = 0x3a) = some s.length := by
  induction s with
  | nil => rfl
  | cons c s ih =>
    have hc := (plain_of_digit c (hs c mem_cons_self)).2.2.2.2.2
    rw [cons_append, List.findIdx?_cons, ih fun d hd => hs d (mem_cons_of_mem c hd)]
    simp [hc]

theorem parseSignInput_text (input : InputText) :
    parseSignInput input.text = .ok input.signInput := by
  have hhex {s : Bytes} (hs : ∀ c ∈ s, digitValue c < 10) : ∀ c ∈ s, digitValue c < 16 :=
    fun c hc => (hs c hc).trans (by decide)
  have hfind : findColon input.text = some input.txid.length := findIdx?_colon input.hex_txid
  have hrfind : rfindColon input.text = some (input.txid.length + 1 + input.vout.length) := by
    have hreverse : input.text.reverse = input.amount.reverse ++ 0x3a ::
        (input.vout.reverse ++ 0x3a :: input.txid.reverse) := by
      simp [InputText.text]
    have hamount : ∀ c ∈ input.amount.reverse,
      digitValue c < 16 := by simpa using hhex input.decimal_amount
    rw [rfindColon, hreverse, findIdx?_colon hamount]
    simp [InputText.text]
    omega
  have hdrop (a b : Bytes) : (a ++ 0x3a :: b).drop (a.length + 1) = b := by simp [drop_append]
  have htail : input.text.drop (input.txid.length + 1) = input.vout ++ 0x3a :: input.amount :=
    hdrop _ _
  have hlast : input.text.drop (input.txid.length + 1 + input.vout.length + 1) = input.amount := by
    rw [Nat.add_assoc (input.txid.length + 1), ← drop_drop, htail, hdrop]
  have hvout : atoi input.vout = BitVec.ofNat 32 (digitsValue 10 input.vout) := by
    have hlt := input.vout_lt
    rw [atoi, strtoll_digits (by decide) input.decimal_vout (by omega)]
    rfl
  have hamt : atoll input.amount = input.amt :=
    strtoll_digits (by decide) input.decimal_amount input.amount_lt
  have hbetween : input.txid.length + 1 + input.vout.length - input.txid.length - 1 =
    input.vout.length := by omega
  unfold parseSignInput
  rw [hfind, hrfind]
  dsimp only
  rw [if_neg (by omega), hbetween, htail, hlast, take_left, hvout, hamt, InputText.text, take_left]
  rfl

/-! ## The loop over the inputs -/

theorem orFail_ok {α : Type} {e : WalletError} {x : Option α} {a : α} :
    orFail e x = .ok a ↔ x = some a := by
  cases x with
  | none => exact ⟨fun h => (by cases h), fun h => (by cases h)⟩
  | some b => rw [orFail, Except.ok.injEq, Option.some.injEq]

section Loop

variable {crypto : Crypto} {signer : Signer} {k : Keys crypto} {txc : CTransaction} {i : Nat}
  {vin : List CTxIn}

/-- What the signed inputs are: the unsigned ones, each with the witness that was made
for it. -/
theorem signInputs_ok {inputs : List (SignInput × CTxIn)}
    (h : signInputs signer k txc i inputs = .ok vin) :
    vin.map (fun txin => { txin with scriptWitness := [] }) =
        inputs.map (fun (_, txin) => { txin with scriptWitness := [] }) ∧
    ∀ j input txin, inputs[j]? = some (input, txin) → ∃ scriptWitness,
      signWitness signer k txc (i + j) input.amt = .ok scriptWitness ∧
        vin[j]? = some { txin with scriptWitness } := by
  induction inputs generalizing i vin with
  | nil =>
    cases h
    exact ⟨rfl, fun _ _ _ h => (by cases h)⟩
  | cons first inputs ih =>
    obtain ⟨scriptWitness, hwitness, h⟩ := bind_ok.mp h
    obtain ⟨rest, hrest, h⟩ := bind_ok.mp h
    cases h
    obtain ⟨hstrip, hget⟩ := ih hrest
    refine ⟨by rw [map_cons, map_cons, hstrip], fun j input txin hj => ?_⟩
    cases j with
    | zero =>
      cases Option.some.inj hj
      exact ⟨scriptWitness, hwitness, rfl⟩
    | succ j =>
      rw [← Nat.add_assoc, Nat.add_right_comm]
      exact hget j input txin hj

theorem signWitness_ok {txin : CTxIn} {amt : CAmount} {scriptWitness : CScriptWitness}
    (htxin : txc.vin[i]? = some txin) :
    signWitness signer k txc i amt = .ok scriptWitness ↔ ∃ der msig,
      signer.ecdsaSign (bip143SighashAll crypto (quantumSafeScript k.program.data) txc txin amt)
        k.esk = some der ∧
      signer.mldsa44SignCtx (bip143SighashAll crypto (quantumSafeScript k.program.data) txc
        txin amt).data TransactionSignatureChecker.hybridContext k.msk = some msig ∧
      scriptWitness = [der ++ [sighashAll], k.epk.data, msig, k.mpk.data] := by
  have hsh :
      signatureHash crypto (quantumSafeScript k.program.data) txc i sighashAll amt .witnessV0 none =
      some
      (bip143SighashAll crypto (quantumSafeScript k.program.data) txc txin amt) :=
    signatureHash_bip143 htxin fun _ h => (by cases h)
  unfold signWitness
  rw [quantumSafeScript] at hsh
  simp only [hsh, bind_ok, orFail_ok, Option.some.injEq, exists_eq_left', Except.ok.injEq]
  constructor
  · rintro ⟨der, hder, msig, hmsig, rfl⟩
    exact ⟨der, msig, hder, hmsig, rfl⟩
  · rintro ⟨der, msig, hder, hmsig, rfl⟩
    exact ⟨der, hder, msig, hmsig, rfl⟩

/-- The transaction before it is signed. -/
def unsignedTx (destHex sendText : Bytes) (inputs : List InputText) : CTransaction :=
  ⟨inputs.map InputText.unsigned, [⟨atoll sendText, hexb destHex⟩], 2#32, 0#32⟩

/-- The arguments are read as they were written. -/
theorem signMultiTx_text {destHex sendText : Bytes} {inputs : List InputText} (hne : inputs ≠ []) :
    signMultiTx signer k (destHex :: sendText :: inputs.map InputText.text) = (do
      let vin ← signInputs signer k (unsignedTx destHex sendText inputs) 0
        (inputs.map fun input => (input.signInput, input.unsigned))
      .ok { unsignedTx destHex sendText inputs with vin }) := by
  have hins :
      (inputs.map InputText.text).mapM parseSignInput = .ok (inputs.map InputText.signInput) := by
    rw [mapM_map]
    exact mapM_pure fun input _ => parseSignInput_text input
  have hvin : (inputs.map InputText.signInput).mapM unsignedInput =
      .ok (inputs.map InputText.unsigned) := by
    rw [mapM_map]
    refine mapM_pure fun input _ => ?_
    have htxid := parseTxid_digits input.hex_txid input.length_txid
    exact bind_ok.mpr ⟨_, orFail_ok.mpr htxid, rfl⟩
  have hzip : (inputs.map InputText.signInput).zip (inputs.map InputText.unsigned)
      = inputs.map fun input => (input.signInput, input.unsigned) := zip_map'
  rw [signMultiTx, if_neg (by simpa using hne), hins, ok_bind, hvin, ok_bind, hzip]
  rfl

theorem signInputs_of_signs (hecdsa : ∀ sh, (signer.ecdsaSign sh k.esk).isSome = true)
    (hmldsa : ∀ m ctx, (signer.mldsa44SignCtx m ctx k.msk).isSome = true) (txc : CTransaction)
    (inputs : List (SignInput × CTxIn)) (hlen : i + inputs.length ≤ txc.vin.length) :
    ∃ vin, signInputs signer k txc i inputs = .ok vin := by
  induction inputs generalizing i with
  | nil => exact ⟨[], rfl⟩
  | cons input inputs ih =>
    rw [length_cons] at hlen
    have htxin : txc.vin[i]? = some txc.vin[i] := List.getElem?_eq_getElem (by omega)
    obtain ⟨der, hder⟩ := Option.isSome_iff_exists.mp (hecdsa _)
    obtain ⟨msig, hmsig⟩ := Option.isSome_iff_exists.mp (hmldsa _ _)
    obtain ⟨vin, hvin⟩ := ih (i := i + 1) (by omega)
    exact ⟨_, bind_ok.mpr ⟨_, (signWitness_ok htxin).mpr ⟨der, msig, hder, hmsig, rfl⟩,
      bind_ok.mpr ⟨vin, hvin, rfl⟩⟩⟩

theorem bip143SighashAll_congr {scriptCode : CScript} {tx : CTransaction} (txin : CTxIn)
    (scriptWitness : CScriptWitness) {amount : CAmount}
    (hstrip : vin.map (fun txin => { txin with scriptWitness := [] })
      = tx.vin.map fun txin => { txin with scriptWitness := [] }) :
    bip143SighashAll crypto scriptCode { tx with vin } { txin with scriptWitness } amount
      = bip143SighashAll crypto scriptCode tx txin amount := by
  have hflat (f : CTxIn → Bytes) (hf : ∀ txin : CTxIn,
      f { txin with scriptWitness := [] } = f txin) :
      vin.flatMap f = tx.vin.flatMap f := by
    have hstripped (vin : List CTxIn) : vin.flatMap f
        = (vin.map fun txin => { txin with scriptWitness := [] }).flatMap f := by
      rw [flatMap_map]
      simp only [hf]
    rw [hstripped, hstrip, ← hstripped]
  simp only [bip143SighashAll]
  rw [hflat _ fun _ => rfl, hflat _ fun _ => rfl]

end Loop

/-! ## Acceptance -/

/-- The node accepts the input `i` of `mtx`, which spends `amount` under the script of
the keys: the hash that it computes from the cached data is the one that was signed,
and `VerifyScript` succeeds. -/
def InputAccepted {crypto : Crypto} (signer : Signer) (k : Keys crypto) (mtx : CTransaction)
    (i : Nat) (amount : CAmount) (txdata : PrecomputedTransactionData) : Prop :=
  ∃ txin sh der msig, mtx.vin[i]? = some txin ∧
    signatureHash crypto (quantumSafeScript k.program.data) mtx i sighashAll amount .witnessV0
    (some txdata) = some sh ∧ signer.ecdsaSign sh k.esk = some der ∧
    signer.mldsa44SignCtx sh.data TransactionSignatureChecker.hybridContext k.msk = some msig ∧
    txin.scriptWitness = [der ++ [sighashAll], k.epk.data, msig, k.mpk.data] ∧
    ∀ mdb, verifyScript crypto txin.scriptSig (quantumSafeScript k.program.data) txin.scriptWitness
      standardScriptVerifyFlags (TransactionSignatureChecker.toChecker ⟨crypto, mtx, i, amount,
        some txdata, mdb⟩) = .ok ()

theorem inputAccepted_of_signWitness {crypto : Crypto} {signer : Signer} {k : Keys crypto}
    (hecdsa : ∀ sh der, signer.ecdsaSign sh k.esk = some der →
      (CPubKey.set k.epk.data).verify crypto sh der = true)
    (hmldsa : ∀ (sh : Uint256) (msig : Bytes),
      signer.mldsa44SignCtx sh.data TransactionSignatureChecker.hybridContext k.msk = some msig →
      crypto.mldsa44VerifyCtx msig sh.data TransactionSignatureChecker.hybridContext k.mpk.data =
        true)
    (hprogram : ¬ FalseProgram k.program.data) {txc : CTransaction} {vin : List CTxIn} {i : Nat}
    {txin : CTxIn}
    {amount : CAmount} {scriptWitness : CScriptWitness} {txdata : PrecomputedTransactionData}
    {spentOutputs : List CTxOut} (hamount : 0 ≤ amount) (hunsigned : txc.vin[i]? = some txin)
    (hsig : txin.scriptSig = []) (hstrip : vin.map (fun txin => { txin with scriptWitness := [] })
      = txc.vin.map fun txin => { txin with scriptWitness := [] })
    (htxin : vin[i]? = some { txin with scriptWitness })
    (hwitness : signWitness signer k txc i amount = .ok scriptWitness)
    (htxdata : PrecomputedTransactionData.init crypto { txc with vin } spentOutputs false =
    some txdata) : InputAccepted signer k { txc with vin } i amount txdata := by
  obtain ⟨der, msig, hder, hmsig, rfl⟩ := (signWitness_ok hunsigned).mp hwitness
  rw [← bip143SighashAll_congr txin _ hstrip] at hder hmsig
  have hdata : PrecomputedFor crypto { txc with vin } (some txdata) := by
    rintro data ⟨⟩
    exact ⟨spentOutputs, false, htxdata⟩
  refine ⟨_, _, der, msig, htxin, signatureHash_bip143 htxin hdata, hder, hmsig, rfl, fun mdb => ?_⟩
  have hverify := hecdsa _ der hder
  have hvalid : (CPubKey.set k.epk.data).isValid = true := by
    rw [CPubKey.verify, and_eq_true, and_eq_true] at hverify
    exact hverify.1.1
  have htrue : castToBool k.program.data = true := by
    rw [← not_eq_false, QuantumSafeLemmas.castToBool_program k.program.length_data]
    exact hprogram
  have hlast : (der ++ [sighashAll]).getLast? = some sighashAll := List.getLast?_concat
  rw [hsig]
  refine verifyScript_of_hybridSigned ⟨crypto, { txc with vin }, i, amount, some txdata,
      mdb⟩ htxin hamount hdata
    (by decide) (by decide) k.program.length_data htrue ?_
  refine ⟨k.epk.length_data, k.mpk.length_data, congrArg BaseBlob.data k.program_eq.symm,
    hlast, hvalid, ?_, hmldsa _ msig hmsig⟩
  rw [dropLast_concat]
  exact hverify

/-- What `sign-multi` prints is a transaction that spends the outputs named by its
arguments, and the node accepts each of its inputs. It prints one whenever the signing
functions do not fail. Of these it is assumed that what they sign verifies. -/
theorem signMulti_accepted {crypto : Crypto} (signer : Signer) (k : Keys crypto)
    (hecdsa : ∀ sh der, signer.ecdsaSign sh k.esk = some der →
      (CPubKey.set k.epk.data).verify crypto sh der = true)
    (hmldsa : ∀ (sh : Uint256) (msig : Bytes),
      signer.mldsa44SignCtx sh.data TransactionSignatureChecker.hybridContext k.msk = some msig →
      crypto.mldsa44VerifyCtx msig sh.data TransactionSignatureChecker.hybridContext k.mpk.data =
        true)
    (hprogram : ¬ FalseProgram k.program.data) (destHex sendText : Bytes) {inputs : List InputText}
    (hne : inputs ≠ []) :
    (∀ out, signMulti signer k (destHex :: sendText :: inputs.map InputText.text) = .ok out →
      ∃ mtx, out = phex (mtx.serialize true) ++ [0x0a] ∧
        mtx.vin.map CTxIn.prevout = inputs.map InputText.prevout ∧
          mtx.vout = [⟨atoll sendText, hexb destHex⟩] ∧
        ∀ i input, inputs[i]? = some input → ∀ spentOutputs : List CTxOut,
          spentOutputs.length = mtx.vin.length →
          spentOutputs[i]? = some ⟨input.amt, quantumSafeScript k.program.data⟩ →
          ∃ txdata, PrecomputedTransactionData.init crypto mtx spentOutputs false = some txdata ∧
            InputAccepted signer k mtx i input.amt txdata) ∧
    ((∀ sh, (signer.ecdsaSign sh k.esk).isSome = true) →
      (∀ m ctx, (signer.mldsa44SignCtx m ctx k.msk).isSome = true) →
      ∃ out, signMulti signer k (destHex :: sendText :: inputs.map InputText.text) = .ok out) := by
  refine ⟨fun out h => ?_, fun hsigns hsigns' => ?_⟩
  · rw [signMulti, signMultiTx_text hne] at h
    obtain ⟨mtx, hmtx, hout⟩ := bind_ok.mp h
    obtain ⟨vin, hvin, hmtx⟩ := bind_ok.mp hmtx
    cases hmtx
    obtain ⟨hstrip, hget⟩ := signInputs_ok hvin
    have hstrip : vin.map (fun txin => { txin with scriptWitness := [] })
        = (unsignedTx destHex sendText inputs).vin.map fun txin =>
          { txin with scriptWitness := [] } := by
      rw [hstrip, unsignedTx, map_map, map_map]
      rfl
    have hprevouts : vin.map CTxIn.prevout = inputs.map InputText.prevout := by
      have hmap := congrArg (List.map CTxIn.prevout) hstrip
      rw [unsignedTx, map_map, map_map, map_map] at hmap
      exact hmap
    refine ⟨_, (Except.ok.inj hout).symm, hprevouts, rfl,
      fun i input hi spentOutputs hlength hspent => ?_⟩
    obtain ⟨scriptWitness, hwitness, htxin⟩ := hget i input.signInput input.unsigned (by
      rw [List.getElem?_map, hi]
      rfl)
    rw [Nat.zero_add] at hwitness
    obtain ⟨txdata, htxdata⟩ := PrecomputedTransactionData.init_of_length hlength false
    exact ⟨txdata, htxdata, inputAccepted_of_signWitness hecdsa hmldsa hprogram
      (Int.natCast_nonneg _)
      (by rw [unsignedTx, List.getElem?_map, hi]; rfl) rfl hstrip htxin hwitness htxdata⟩
  · obtain ⟨vin, hvin⟩ := signInputs_of_signs hsigns hsigns' (unsignedTx destHex sendText inputs)
      (inputs.map fun input => (input.signInput, input.unsigned)) (i := 0) (by simp [unsignedTx])
    rw [signMulti, signMultiTx_text hne]
    exact ⟨_, bind_ok.mpr ⟨_, bind_ok.mpr ⟨vin, hvin, rfl⟩, rfl⟩⟩

/-- A wallet for functions that accept every signature. -/
def sampleSigner : Signer where
  ecdsaSign _ _ := some [0x30, 0x06, 0x02, 0x01, 0x01, 0x02, 0x01, 0x01]
  mldsa44SignCtx _ _ _ := some []

def sampleEsk : Bytes := List.replicate 32 1

theorem length_sampleEsk : sampleEsk.length = 32 := length_replicate

theorem length_sampleEpk : sampleEpk.length = 33 := rfl

def sampleKeys : Keys acceptingCrypto where
  esk := ⟨sampleEsk, length_sampleEsk⟩
  epk := ⟨sampleEpk, length_sampleEpk⟩
  msk := ⟨List.replicate 2560 0, length_replicate⟩
  mpk := ⟨sampleMpk, length_replicate⟩
  program := uint256S 1
  program_eq := rfl

/-- The argument of an output of 7 units, with the index 10. -/
def sampleInput : InputText where
  txid := List.replicate 64 0x61
  vout := [0x31, 0x30]
  amount := [0x37]
  length_txid := length_replicate
  hex_txid := fun c hc => (by rw [eq_of_mem_replicate hc]; decide)
  decimal_vout := by decide +kernel
  vout_lt := by decide
  decimal_amount := by decide +kernel
  amount_lt := by decide

/-- Two inputs are signed, and the node accepts the second one. -/
theorem signMulti_accepted_two : ∃ mtx txdata,
    signMulti sampleSigner sampleKeys ([] :: [0x35] ::
      [sampleInput, sampleInput].map InputText.text) =
      .ok (phex (mtx.serialize true) ++ [0x0a]) ∧
    InputAccepted sampleSigner sampleKeys mtx 1 7 txdata := by
  have hverify (sh : Uint256) : (CPubKey.set sampleKeys.epk.data).verify acceptingCrypto sh
      [0x30, 0x06, 0x02, 0x01, 0x01, 0x02, 0x01, 0x01] = true := by
    -- the functions do not look at the message
    change (CPubKey.set sampleKeys.epk.data).verify acceptingCrypto nullUint256 _ = true
    decide +kernel
  have hprogram : ¬ FalseProgram sampleKeys.program.data := by
    unfold FalseProgram
    decide
  obtain ⟨haccepted, hprinted⟩ :=
      signMulti_accepted sampleSigner sampleKeys (fun sh _ h => Option.some.inj h ▸ hverify sh)
    (fun _ _ _ => rfl) hprogram [] [0x35] (cons_ne_nil sampleInput [sampleInput])
  obtain ⟨out, hout⟩ := hprinted (fun _ => rfl) fun _ _ => rfl
  obtain ⟨mtx, rfl, hprevouts, _, hinputs⟩ := haccepted out hout
  have hlength : mtx.vin.length = 2 := by simpa using congrArg List.length hprevouts
  obtain ⟨txdata, _, h⟩ := hinputs 1 sampleInput rfl
    (List.replicate 2 ⟨7, quantumSafeScript sampleKeys.program.data⟩) (by rw [hlength]; rfl) rfl
  exact ⟨mtx, txdata, hout, h⟩

end Bitcoboost
