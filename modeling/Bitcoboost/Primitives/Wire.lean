import Bitcoboost.Primitives.Block

/-!
# Reading transactions and blocks

`UnserializeTransaction` of `primitives/transaction.h` and the reader of a header. The extended
format is told from the basic one only by an empty vector of inputs, so a transaction without
inputs but with outputs cannot be read where witnesses are allowed.
-/

namespace Bitcoboost

open CTransaction List Option BitVec

/-! ## The reader -/

variable (s : Bytes)

/-- `Unserialize` of a `uint32_t` or `int32_t`. -/
def unserializeUint32 : Option (BitVec 32 × Bytes) :=
  (readLE 4 s).map fun (n, s) => (BitVec.ofNat 32 n, s)

def unserializeInt64 : Option (Int × Bytes) :=
  (readLE 8 s).map fun (n, s) => ((BitVec.ofNat 64 n).toInt, s)

/-- `Unserialize` of a `uint256`. -/
def unserializeUint256 : Option (Uint256 × Bytes) := do
  let (data, s) ← readBytes 32 s
  let hash ← BaseBlob.ofBytes? 32 data
  some (hash, s)

def COutPoint.unserialize : Option (COutPoint × Bytes) := do
  let (hash, s) ← unserializeUint256 s
  let (n, s) ← unserializeUint32 s
  some (⟨hash, n⟩, s)

def CTxIn.unserialize : Option (CTxIn × Bytes) := do
  let (prevout, s) ← COutPoint.unserialize s
  let (scriptSig, s) ← unserializeBytes s
  let (nSequence, s) ← unserializeUint32 s
  some (⟨prevout, scriptSig, nSequence, []⟩, s)

def CTxOut.unserialize : Option (CTxOut × Bytes) := do
  let (nValue, s) ← unserializeInt64 s
  let (scriptPubKey, s) ← unserializeBytes s
  some (⟨nValue, scriptPubKey⟩, s)

/-- The part of `UnserializeTransaction` up to the outputs: the flags, the inputs and the
outputs. -/
def unserializeBody (fAllowWitness : Bool) (s : Bytes) :
    Option (Nat × List CTxIn × List CTxOut × Bytes) := do
  let (vin, s) ← unserializeVector CTxIn.unserialize s
  if vin.isEmpty && fAllowWitness then do
    -- we read a dummy or an empty vin
    let (flags, s) ← readLE 1 s
    if flags ≠ 0 then do
      let (vin, s) ← unserializeVector CTxIn.unserialize s
      let (vout, s) ← unserializeVector CTxOut.unserialize s
      some (flags, vin, vout, s)
    else some (flags, vin, [], s)
  else do
    let (vout, s) ← unserializeVector CTxOut.unserialize s
    some (0, vin, vout, s)

/-- The loop over the witnesses. -/
def unserializeWitnesses : List CTxIn → Bytes → Option (List CTxIn × Bytes)
  | [], s => some ([], s)
  | txin :: vin, s => do
    let (stack, s) ← unserializeVector unserializeBytes s
    let (vin, s) ← unserializeWitnesses vin s
    some ({ txin with scriptWitness := stack } :: vin, s)

/-- The optional data: the flags that are left, and the inputs with their witnesses. -/
def unserializeOptional (fAllowWitness : Bool) (flags : Nat) (vin : List CTxIn) (s : Bytes) :
    Option (Nat × List CTxIn × Bytes) :=
  if flags % 2 = 1 ∧ fAllowWitness then do
    let (vin, s) ← unserializeWitnesses vin s
    -- it is illegal to encode witnesses when all witness stacks are empty
    if vin.any fun txin => !txin.scriptWitness.isEmpty then some (flags - 1, vin, s) else none
  else some (flags, vin, s)

def unserializeTransaction (fAllowWitness : Bool) (s : Bytes) : Option (CTransaction × Bytes) := do
  let (nVersion, s) ← unserializeUint32 s
  let (flags, vin, vout, s) ← unserializeBody fAllowWitness s
  let (flags, vin, s) ← unserializeOptional fAllowWitness flags vin s
  -- unknown flag in the serialization
  if flags ≠ 0 then none
  else do
    let (nLockTime, s) ← unserializeUint32 s
    some (⟨vin, vout, nVersion, nLockTime⟩, s)

/-! ## What it reads -/

/-- The lengths are within `MAX_SIZE`, and the amounts are `int64_t`. -/
structure CTransaction.Sized (tx : CTransaction) : Prop where
  vin : tx.vin.length ≤ maxSize
  scriptSig : ∀ txin ∈ tx.vin, txin.scriptSig.length ≤ maxSize
  vout : tx.vout.length ≤ maxSize
  nValue : ∀ out ∈ tx.vout, IsInt64 out.nValue
  scriptPubKey : ∀ out ∈ tx.vout, out.scriptPubKey.length ≤ maxSize
  witness : ∀ txin ∈ tx.vin, txin.scriptWitness.length ≤ maxSize ∧ ∀ item ∈ txin.scriptWitness,
    item.length ≤ maxSize

namespace WireLemmas

theorem codec_unserializeUint32 : Codec (fun _ => True) serializeUint32 unserializeUint32 := by
  refine (codec_readLE 4).map (fun n hn => ⟨trivial, ?_⟩) fun a _ => ⟨a.isLt, ofNat_toNat ..⟩
  exact (toNat_ofNat ..).trans (Nat.mod_eq_of_lt hn)

theorem codec_unserializeInt64 : Codec IsInt64 serializeInt64 unserializeInt64 := by
  refine (codec_readLE 8).map (f := fun n => (BitVec.ofNat 64 n).toInt) (g := fun a =>
      (BitVec.ofInt 64 a).toNat)
    (fun n hn => ⟨?_, ?_⟩) fun a ha => ⟨BitVec.isLt _, ?_⟩
  · exact ⟨le_toInt .., toInt_lt⟩
  · rw [ofInt_toInt]
    exact (toNat_ofNat ..).trans (Nat.mod_eq_of_lt hn)
  · rw [ofNat_toNat, setWidth_eq, toInt_ofInt]
    exact Int.bmod_eq_of_le ha.1 ha.2

theorem codec_unserializeUint256 : Codec (fun _ => True) BaseBlob.data unserializeUint256 := by
  intro s hash rest
  rw [unserializeUint256, (codec_readBytes 32).bind_some]
  constructor
  · rintro ⟨data, s₁, hlength, rfl, h⟩
    have hblob : BaseBlob.ofBytes? 32 data = some ⟨data, hlength⟩ := dif_pos hlength
    simp only [hblob, bind_eq_bind, bind_some] at h
    cases h
    exact ⟨trivial, rfl⟩
  · rintro ⟨_, rfl⟩
    have hblob : BaseBlob.ofBytes? 32 hash.data = some hash := dif_pos hash.length_data
    exact ⟨hash.data, rest, hash.length_data, rfl, by simp only [hblob, bind_eq_bind, bind_some]⟩

theorem codec_outPoint : Codec (fun _ => True) COutPoint.serialize COutPoint.unserialize := by
  intro s o rest
  rw [COutPoint.unserialize, codec_unserializeUint256.bind_some]
  constructor
  · rintro ⟨hash, s₁, _, rfl, h⟩
    obtain ⟨n, s₂, _, hs, heq⟩ := codec_unserializeUint32.bind_some.mp h
    cases heq
    exact ⟨trivial, by rw [hs, COutPoint.serialize, List.append_assoc]⟩
  · rintro ⟨_, rfl⟩
    refine ⟨o.hash, serializeUint32 o.n ++ rest, trivial,
      by rw [COutPoint.serialize, List.append_assoc], ?_⟩
    exact codec_unserializeUint32.bind_some.mpr ⟨o.n, rest, trivial, rfl, rfl⟩

def BareInput (txin : CTxIn) : Prop := txin.scriptSig.length ≤ maxSize ∧ txin.scriptWitness = []

theorem codec_txin : Codec BareInput CTxIn.serialize CTxIn.unserialize := by
  intro s txin rest
  rw [CTxIn.unserialize, codec_outPoint.bind_some]
  constructor
  · rintro ⟨prevout, s₁, _, rfl, h⟩
    obtain ⟨scriptSig, s₂, hlength, hs, h⟩ := codec_unserializeBytes.bind_some.mp h
    obtain ⟨nSequence, s₃, _, hs', heq⟩ := codec_unserializeUint32.bind_some.mp h
    cases heq
    refine ⟨⟨hlength, rfl⟩, ?_⟩
    rw [hs, hs', CTxIn.serialize, List.append_assoc, List.append_assoc]
  · rintro ⟨⟨hlength, hwitness⟩, rfl⟩
    refine ⟨txin.prevout, _, trivial, by rw [CTxIn.serialize, List.append_assoc, List.append_assoc],
      ?_⟩
    refine codec_unserializeBytes.bind_some.mpr ⟨txin.scriptSig, _, hlength, rfl, ?_⟩
    refine codec_unserializeUint32.bind_some.mpr ⟨txin.nSequence, rest, trivial, rfl, ?_⟩
    rw [← hwitness]

def SizedOutput (out : CTxOut) : Prop := IsInt64 out.nValue ∧ out.scriptPubKey.length ≤ maxSize

theorem codec_txout : Codec SizedOutput CTxOut.serialize CTxOut.unserialize := by
  intro s out rest
  rw [CTxOut.unserialize, codec_unserializeInt64.bind_some]
  constructor
  · rintro ⟨nValue, s₁, hvalue, rfl, h⟩
    obtain ⟨script, s₂, hlength, hs, heq⟩ := codec_unserializeBytes.bind_some.mp h
    cases heq
    exact ⟨⟨hvalue, hlength⟩, by rw [hs, CTxOut.serialize, List.append_assoc]⟩
  · rintro ⟨⟨hvalue, hlength⟩, rfl⟩
    refine ⟨out.nValue, _, hvalue, by rw [CTxOut.serialize, List.append_assoc], ?_⟩
    exact codec_unserializeBytes.bind_some.mpr ⟨out.scriptPubKey, rest, hlength, rfl, rfl⟩

/-! ### The parts of a transaction -/

def SizedVin (vin : List CTxIn) : Prop := vin.length ≤ maxSize ∧ ∀ txin ∈ vin, BareInput txin

def SizedVout (vout : List CTxOut) : Prop := vout.length ≤ maxSize ∧ ∀ out ∈ vout, SizedOutput out

theorem codec_vin :
    Codec SizedVin (serializeVector CTxIn.serialize) (unserializeVector CTxIn.unserialize) :=
  codec_unserializeVector codec_txin

theorem codec_vout :
    Codec SizedVout (serializeVector CTxOut.serialize) (unserializeVector CTxOut.unserialize) :=
  codec_unserializeVector codec_txout

/-- Inputs and outputs as they are written. -/
def bodyBytes (vin : List CTxIn) (vout : List CTxOut) (rest : Bytes) : Bytes :=
  serializeVector CTxIn.serialize vin ++ (serializeVector CTxOut.serialize vout ++ rest)

theorem sizedVin_nil : SizedVin [] := ⟨Nat.zero_le _, nofun⟩

theorem sizedVout_nil : SizedVout [] := ⟨Nat.zero_le _, nofun⟩

variable {fAllowWitness : Bool} {tx : CTransaction} {flags : Nat} {vin vin' : List CTxIn}

/-- The two formats, told apart by what follows an empty vector. -/
theorem unserializeBody_some {s rest : Bytes}
    {vout : List CTxOut} : unserializeBody fAllowWitness s = some (flags, vin, vout, rest) ↔
      SizedVin vin ∧ SizedVout vout ∧ flags < 256 ∧
      ((flags = 0 ∧ (fAllowWitness = true → vin = [] → vout = []) ∧ s = bodyBytes vin vout rest) ∨
        (flags ≠ 0 ∧ fAllowWitness = true ∧ s =
          0 :: UInt8.ofNat flags :: bodyBytes vin vout rest)) := by
  rw [unserializeBody, codec_vin.bind_some]
  constructor
  · rintro ⟨vin₁, s₁, hvin₁, rfl, h⟩
    dsimp only at h
    split at h
    · next hempty =>
      obtain ⟨hnil, hallow⟩ : vin₁ = [] ∧ fAllowWitness = true := by simpa using hempty
      subst hnil
      obtain ⟨flags₁, s₂, hflags, hs₂, h⟩ := (codec_readLE 1).bind_some.mp h
      dsimp only at h
      split at h
      · next hne =>
        obtain ⟨vin₂, s₃, hvin, hs₃, h⟩ := codec_vin.bind_some.mp h
        obtain ⟨vout₂, s₄, hvout, hs₄, heq⟩ := codec_vout.bind_some.mp h
        cases heq
        dsimp only at hs₄
        exact ⟨hvin, hvout, hflags, .inr ⟨hne, hallow, by rw [hs₂, hs₃, hs₄]; rfl⟩⟩
      · next hzero =>
        cases h
        obtain rfl := Decidable.not_not.mp hzero
        exact ⟨sizedVin_nil, sizedVout_nil, hflags, .inl ⟨rfl, fun _ _ => rfl, by rw [hs₂]; rfl⟩⟩
    · next hempty =>
      obtain ⟨vout₂, s₂, hvout, hs₂, heq⟩ := codec_vout.bind_some.mp h
      cases heq
      refine ⟨hvin₁, hvout, by decide, .inl ⟨rfl, fun hallow hnil => ?_, by rw [hs₂]; rfl⟩⟩
      exact absurd (by simp [hallow, hnil]) hempty
  · rintro ⟨hvin, hvout, hflags, ⟨rfl, hnil, rfl⟩ | ⟨hne, hallow, rfl⟩⟩
    · refine ⟨vin, serializeVector CTxOut.serialize vout ++ rest, hvin, rfl, ?_⟩
      dsimp only
      split
      · next hempty =>
        obtain ⟨rfl, hallow⟩ : vin = [] ∧ fAllowWitness = true := by simpa using hempty
        obtain rfl := hnil hallow rfl
        exact (codec_readLE 1).bind_some.mpr ⟨0, rest, by decide, rfl, rfl⟩
      · exact codec_vout.bind_some.mpr ⟨vout, rest, hvout, rfl, rfl⟩
    · refine ⟨[], UInt8.ofNat flags :: bodyBytes vin vout rest, sizedVin_nil, rfl, ?_⟩
      dsimp only
      rw [if_pos (by simp [hallow])]
      refine (codec_readLE 1).bind_some.mpr ⟨flags, bodyBytes vin vout rest, hflags, rfl, ?_⟩
      rw [if_pos hne]
      refine codec_vin.bind_some.mpr ⟨vin, _, hvin, rfl, ?_⟩
      exact codec_vout.bind_some.mpr ⟨vout, rest, hvout, rfl, rfl⟩

def SizedWitness (stack : CScriptWitness) : Prop :=
  stack.length ≤ maxSize ∧ ∀ item ∈ stack, item.length ≤ maxSize

theorem codec_witness :
    Codec SizedWitness (serializeVector serializeBytes) (unserializeVector unserializeBytes) :=
  codec_unserializeVector codec_unserializeBytes

/-- The witnesses of inputs as they are written. -/
def witnessBytes (vin : List CTxIn) : Bytes :=
  vin.flatMap fun txin => serializeVector serializeBytes txin.scriptWitness

theorem unserializeWitnesses_some (hbare : ∀ txin ∈ vin, txin.scriptWitness = [])
    {s rest : Bytes} : unserializeWitnesses vin s = some (vin', rest) ↔
      vin'.map CTxIn.strip = vin ∧ (∀ txin ∈ vin', SizedWitness txin.scriptWitness) ∧
        s = witnessBytes vin' ++ rest := by
  induction vin generalizing s vin' with
  | nil =>
    rw [map_eq_nil_iff]
    constructor
    · intro h
      cases h
      exact ⟨rfl, nofun, rfl⟩
    · rintro ⟨rfl, _, rfl⟩
      rfl
  | cons txin vin ih =>
    have ih {s : Bytes} {vin' : List CTxIn} :=
      @ih vin' (fun txin hin => hbare txin (mem_cons_of_mem _ hin)) s
    have hstrip : txin.strip = txin := by
      rw [CTxIn.strip, ← hbare txin mem_cons_self]
    rw [unserializeWitnesses, codec_witness.bind_some]
    constructor
    · rintro ⟨stack, s₁, hstack, rfl, h⟩
      rw [bind_eq_bind, bind_eq_some_iff] at h
      obtain ⟨⟨vin₂, s₂⟩, hread, heq⟩ := h
      cases heq
      obtain ⟨rfl, hsized, hs⟩ := ih.mp hread
      refine ⟨?_, ?_, ?_⟩
      · rw [map_cons]
        exact congrArg (· :: _) hstrip
      · intro txin' hin
        rcases List.mem_cons.mp hin with rfl | hin
        · exact hstack
        · exact hsized txin' hin
      · rw [hs]
        exact (List.append_assoc ..).symm
    · rintro ⟨hmap, hsized, rfl⟩
      cases vin' with
      | nil => cases hmap
      | cons txin' vin' =>
        obtain ⟨htxin, hmap⟩ := List.cons.inj hmap
        refine ⟨txin'.scriptWitness, witnessBytes vin' ++ rest, hsized _ mem_cons_self,
          append_assoc .., ?_⟩
        have hread := ih.mpr ⟨hmap, fun txin hin => hsized txin (mem_cons_of_mem _ hin), rfl⟩
        rw [bind_eq_bind, bind_eq_some_iff]
        refine ⟨(vin', rest), hread, ?_⟩
        subst htxin
        rfl

/-- No flag is left only if there was none, or the one for witnesses. -/
theorem unserializeOptional_some (hbare : ∀ txin ∈ vin, txin.scriptWitness = []) {s rest : Bytes} :
    unserializeOptional fAllowWitness flags vin s = some (0, vin', rest) ↔
      (flags = 0 ∧ vin' = vin ∧ s = rest) ∨
      (flags = 1 ∧ fAllowWitness = true ∧ (vin'.any fun txin =>
        !txin.scriptWitness.isEmpty) = true ∧
        vin'.map CTxIn.strip = vin ∧ (∀ txin ∈ vin', SizedWitness txin.scriptWitness) ∧
          s = witnessBytes vin' ++ rest) := by
  unfold unserializeOptional
  split
  · next hflag =>
    rw [bind_eq_bind, bind_eq_some_iff]
    constructor
    · rintro ⟨⟨vin₁, s₁⟩, hread, h⟩
      dsimp only at h
      split at h
      · next hany =>
        obtain ⟨hmap, hsized, hs⟩ := (unserializeWitnesses_some hbare).mp hread
        obtain ⟨hflags, hvin⟩ := Prod.mk.inj (Option.some.inj h)
        cases hvin
        exact .inr ⟨by omega, hflag.2, hany, hmap, hsized, hs⟩
      · cases h
    · rintro (⟨rfl, _⟩ | ⟨rfl, _, hany, hmap, hsized, hs⟩)
      · exact absurd hflag.1 (by decide)
      · refine ⟨(vin', rest), (unserializeWitnesses_some hbare).mpr ⟨hmap, hsized, hs⟩, ?_⟩
        dsimp only
        rw [if_pos hany]
  · next hflag =>
    constructor
    · intro h
      cases h
      exact .inl ⟨rfl, rfl, rfl⟩
    · rintro (⟨rfl, rfl, rfl⟩ | ⟨rfl, hallow, _⟩)
      · rfl
      · exact absurd ⟨rfl, hallow⟩ hflag

/-! ### Whole transactions -/

theorem bodyBytes_strip (vin : List CTxIn) (vout : List CTxOut) (rest : Bytes) :
    bodyBytes (vin.map CTxIn.strip) vout rest = bodyBytes vin vout rest := by
  rw [bodyBytes, ← TransactionLemmas.serializeVector_strip, bodyBytes]

theorem serialize_extended (hw : tx.hasWitness = true) (rest : Bytes) :
    tx.serialize true ++ rest = serializeUint32 tx.nVersion ++
      0 :: 1 :: bodyBytes tx.vin tx.vout (witnessBytes tx.vin ++
        (serializeUint32 tx.nLockTime ++ rest)) := by
  simp only [serialize, hw, Bool.and_self, if_true, List.append_assoc]
  rfl

theorem serialize_basic (hw : (fAllowWitness && tx.hasWitness) = false)
    (rest : Bytes) : tx.serialize fAllowWitness ++ rest = serializeUint32 tx.nVersion ++
      bodyBytes tx.vin tx.vout (serializeUint32 tx.nLockTime ++ rest) := by
  simp only [serialize, hw, Bool.false_eq_true, if_false, List.append_nil, List.append_assoc]
  rfl

end WireLemmas

/-- A transaction that can be read: without inputs it has no outputs either where witnesses
are allowed, and elsewhere it has no witness. -/
structure CTransaction.Readable (fAllowWitness : Bool) (tx : CTransaction) : Prop where
  sized : tx.Sized
  outputs : fAllowWitness = true → tx.vin = [] → tx.vout = []
  noWitness : fAllowWitness = false → tx.hasWitness = false

namespace WireLemmas

variable {fAllowWitness : Bool} {tx : CTransaction}

/-- What is read is what is written for it. -/
theorem readable_of_unserialize {s rest : Bytes}
    (hread : unserializeTransaction fAllowWitness s = some (tx, rest)) :
    tx.Readable fAllowWitness ∧ s = tx.serialize fAllowWitness ++ rest := by
  obtain ⟨nVersion, s₁, _, rfl, h⟩ := codec_unserializeUint32.bind_some.mp hread
  rw [bind_eq_bind, bind_eq_some_iff] at h
  obtain ⟨⟨flags, vin, vout, s₂⟩, hbody, h⟩ := h
  rw [bind_eq_bind, bind_eq_some_iff] at h
  obtain ⟨⟨left, vin', s₃⟩, hoptional, h⟩ := h
  dsimp only at h
  split at h
  · cases h
  · next hleft =>
    obtain rfl := Decidable.not_not.mp hleft
    obtain ⟨nLockTime, s₄, _, hs₃, heq⟩ := codec_unserializeUint32.bind_some.mp h
    cases heq
    obtain ⟨hvin, hvout, _, hbody⟩ := unserializeBody_some.mp hbody
    have hbare : ∀ txin ∈ vin, txin.scriptWitness = [] := fun txin hin => (hvin.2 txin hin).2
    rcases (unserializeOptional_some hbare).mp hoptional with
      ⟨rfl, rfl, rfl⟩ | ⟨rfl, hallow, hany, rfl, hsized, hs₂⟩
    · obtain ⟨_, hempty, hs⟩ | ⟨hne, _⟩ := hbody
      · have hw : hasWitness ⟨vin', vout, nVersion, nLockTime⟩ = false := by
          rw [hasWitness, List.any_eq_false]
          intro txin hin
          simp [hbare txin hin]
        refine ⟨⟨⟨hvin.1, fun txin hin => (hvin.2 txin hin).1, hvout.1, fun out hout =>
          (hvout.2 out hout).1,
          fun out hout => (hvout.2 out hout).2, fun txin hin => ?_⟩, hempty, fun _ => hw⟩, ?_⟩
        · dsimp only at hin
          rw [hbare txin hin]
          exact ⟨Nat.zero_le _, fun _ h => absurd h not_mem_nil⟩
        · rw [serialize_basic (by rw [hw, Bool.and_false]), hs, hs₃]
      · exact absurd rfl hne
    · obtain ⟨hzero, _⟩ | ⟨_, _, hs⟩ := hbody
      · cases hzero
      · subst hallow
        refine ⟨⟨⟨?_, fun txin hin => ?_, hvout.1, fun out hout => (hvout.2 out hout).1,
          fun out hout => (hvout.2 out hout).2, hsized⟩, ?_, Bool.noConfusion⟩, ?_⟩
        · simpa using hvin.1
        · exact (hvin.2 txin.strip (mem_map_of_mem hin)).1
        · intro _ hnil
          dsimp only at hnil
          rw [hnil] at hany
          cases hany
        · have hw : hasWitness ⟨vin', vout, nVersion, nLockTime⟩ = true := hany
          rw [serialize_extended hw, hs, hs₂, hs₃, bodyBytes_strip]
          rfl

/-- What is written is read back. -/
theorem unserialize_serialize (h : tx.Readable fAllowWitness) (rest : Bytes) :
    unserializeTransaction fAllowWitness (tx.serialize fAllowWitness ++ rest) =
      some (tx, rest) := by
  obtain ⟨hsized, hempty, hwitness⟩ := h
  refine codec_unserializeUint32.bind_some.mpr ?_
  have hvout : SizedVout tx.vout :=
    ⟨hsized.vout, fun out hout => ⟨hsized.nValue out hout, hsized.scriptPubKey out hout⟩⟩
  cases hw : fAllowWitness && tx.hasWitness with
  | false =>
    have hnone : tx.hasWitness = false := by
      cases fAllowWitness with
      | false => exact hwitness rfl
      | true => simpa using hw
    have hbare : ∀ txin ∈ tx.vin, txin.scriptWitness = [] := by
      intro txin hin
      rw [hasWitness, List.any_eq_false] at hnone
      simpa using hnone txin hin
    have hvin : SizedVin tx.vin :=
      ⟨hsized.vin, fun txin hin => ⟨hsized.scriptSig txin hin, hbare txin hin⟩⟩
    refine ⟨tx.nVersion, _, trivial, serialize_basic hw rest, ?_⟩
    refine Option.bind_eq_some_iff.mpr ⟨(0, tx.vin, tx.vout, serializeUint32 tx.nLockTime ++ rest),
      unserializeBody_some.mpr ⟨hvin, hvout, by decide, .inl ⟨rfl, hempty, rfl⟩⟩, ?_⟩
    refine Option.bind_eq_some_iff.mpr ⟨(0, tx.vin, serializeUint32 tx.nLockTime ++ rest),
      (unserializeOptional_some hbare).mpr (.inl ⟨rfl, rfl, rfl⟩), ?_⟩
    exact codec_unserializeUint32.bind_some.mpr ⟨tx.nLockTime, rest, trivial, rfl, rfl⟩
  | true =>
    obtain ⟨rfl, hw⟩ : fAllowWitness = true ∧ tx.hasWitness = true := by simpa using hw
    have hbare : ∀ txin ∈ tx.vin.map CTxIn.strip, txin.scriptWitness = [] := by
      intro txin hin
      obtain ⟨txin, _, rfl⟩ := List.mem_map.mp hin
      rfl
    have hvin : SizedVin (tx.vin.map CTxIn.strip) := by
      refine ⟨by rw [length_map]; exact hsized.vin, fun txin hin => ?_⟩
      obtain ⟨txin, hmem, rfl⟩ := List.mem_map.mp hin
      exact ⟨hsized.scriptSig txin hmem, rfl⟩
    refine ⟨tx.nVersion, _, trivial, serialize_extended hw rest, ?_⟩
    refine Option.bind_eq_some_iff.mpr ⟨(1, tx.vin.map CTxIn.strip, tx.vout,
      witnessBytes tx.vin ++ (serializeUint32 tx.nLockTime ++ rest)),
      unserializeBody_some.mpr ⟨hvin, hvout, by decide,
      .inr ⟨by decide, rfl, by rw [bodyBytes_strip]; rfl⟩⟩, ?_⟩
    refine Option.bind_eq_some_iff.mpr ⟨(0, tx.vin, serializeUint32 tx.nLockTime ++ rest),
      (unserializeOptional_some hbare).mpr (.inr ⟨rfl, rfl, hw, rfl, hsized.witness, rfl⟩), ?_⟩
    exact codec_unserializeUint32.bind_some.mpr ⟨tx.nLockTime, rest, trivial, rfl, rfl⟩

end WireLemmas

open WireLemmas

/-! ## Blocks -/

def CBlockHeader.unserialize : Option (CBlockHeader × Bytes) := do
  let (nVersion, s) ← unserializeUint32 s
  let (hashPrevBlock, s) ← unserializeUint256 s
  let (hashMerkleRoot, s) ← unserializeUint256 s
  let (nTime, s) ← unserializeUint32 s
  let (nBits, s) ← unserializeUint32 s
  let (nNonce, s) ← unserializeUint32 s
  some (⟨nVersion, hashPrevBlock, hashMerkleRoot, nTime, nBits, nNonce⟩, s)

theorem codec_unserializeHeader :
    Codec (fun _ => True) CBlockHeader.serialize CBlockHeader.unserialize := by
  intro s header rest
  rw [CBlockHeader.unserialize, codec_unserializeUint32.bind_some]
  constructor
  · rintro ⟨nVersion, s₁, _, rfl, h⟩
    obtain ⟨hashPrevBlock, s₂, _, h₁, h⟩ := codec_unserializeUint256.bind_some.mp h
    obtain ⟨hashMerkleRoot, s₃, _, h₂, h⟩ := codec_unserializeUint256.bind_some.mp h
    obtain ⟨nTime, s₄, _, h₃, h⟩ := codec_unserializeUint32.bind_some.mp h
    obtain ⟨nBits, s₅, _, h₄, h⟩ := codec_unserializeUint32.bind_some.mp h
    obtain ⟨nNonce, s₆, _, h₅, heq⟩ := codec_unserializeUint32.bind_some.mp h
    cases heq
    rw [h₁, h₂, h₃, h₄, h₅]
    simp [CBlockHeader.serialize]
  · rintro ⟨_, rfl⟩
    have hsplit :
        header.serialize ++ rest = serializeUint32 header.nVersion ++ (header.hashPrevBlock.data ++
        (header.hashMerkleRoot.data ++ (serializeUint32 header.nTime ++
        (serializeUint32 header.nBits ++ (serializeUint32 header.nNonce ++ rest))))) := by
      simp [CBlockHeader.serialize]
    refine ⟨header.nVersion, _, trivial, hsplit, ?_⟩
    refine codec_unserializeUint256.bind_some.mpr ⟨header.hashPrevBlock, _, trivial, rfl, ?_⟩
    refine codec_unserializeUint256.bind_some.mpr ⟨header.hashMerkleRoot, _, trivial, rfl, ?_⟩
    refine codec_unserializeUint32.bind_some.mpr ⟨header.nTime, _, trivial, rfl, ?_⟩
    refine codec_unserializeUint32.bind_some.mpr ⟨header.nBits, _, trivial, rfl, ?_⟩
    exact codec_unserializeUint32.bind_some.mpr ⟨header.nNonce, rest, trivial, rfl, rfl⟩

/-! ## Canonical bytes -/

theorem getWitnessHash_of_unserialize {fAllowWitness : Bool} {s : Bytes} {tx : CTransaction}
    {hash : Bytes → Uint256} (h : unserializeTransaction fAllowWitness s = some (tx, [])) :
    tx.getWitnessHash hash = hash s := by
  obtain ⟨hreadable, hs⟩ := readable_of_unserialize h
  rw [append_nil] at hs
  have hbasic : (fAllowWitness && tx.hasWitness) = false →
      tx.serialize fAllowWitness = tx.serialize false := by
    intro hnone
    simp [serialize, hnone]
  unfold getWitnessHash getHash
  cases hw : tx.hasWitness with
  | false => rw [Bool.not_false, if_pos rfl, hs, hbasic (by rw [hw, Bool.and_false])]
  | true =>
    cases fAllowWitness with
    | false => rw [hreadable.noWitness rfl] at hw; cases hw
    | true => rw [Bool.not_true, if_neg Bool.false_ne_true, hs]

/-- The bytes of a transaction are canonical: what is read completely is what is written,
a transaction with an input is read back, and two transactions that were read and have
one witness hash came from the same bytes, or their bytes collide. -/
theorem unserializeTransaction_canonical (hash : Bytes → Uint256) :
    (∀ fAllowWitness s tx, unserializeTransaction fAllowWitness s = some (tx, []) →
      s = tx.serialize fAllowWitness) ∧
    (∀ tx : CTransaction, tx.vin ≠ [] → tx.Sized →
      unserializeTransaction true (tx.serialize true) = some (tx, [])) ∧
    ∀ fAllowWitness s tx fAllowWitness' s' tx',
    unserializeTransaction fAllowWitness s = some (tx, []) →
      unserializeTransaction fAllowWitness' s' = some (tx', []) →
        tx.getWitnessHash hash = tx'.getWitnessHash hash →
      s = s' ∨ (s ≠ s' ∧ hash s = hash s') := by
  refine ⟨fun fAllowWitness s tx h => ?_, fun tx hvin hsized => ?_, ?_⟩
  · rw [(readable_of_unserialize h).2, append_nil]
  · have hreadable : tx.Readable true := ⟨hsized, fun _ hnil => absurd hnil hvin, nofun⟩
    have hread := unserialize_serialize hreadable []
    rwa [append_nil] at hread
  · intro fAllowWitness s tx fAllowWitness' s' tx' h h' heq
    rw [getWitnessHash_of_unserialize h, getWitnessHash_of_unserialize h'] at heq
    exact (eq_or_ne s s').imp id fun hne => ⟨hne, heq⟩

/-- A transaction with one input and a witness. -/
def witnessTx : CTransaction :=
  ⟨[⟨⟨nullUint256, 1#32⟩, [], 0xffffffff#32, [[7]]⟩], [⟨1, [0x51]⟩], 2#32, 0#32⟩

def witnessTxBytes : Bytes :=
  [2, 0, 0, 0, 0, 1, 1] ++ List.replicate 32 0 ++ [1, 0, 0, 0, 0, 255, 255, 255, 255]
    ++ [1, 1, 0, 0, 0, 0, 0, 0, 0, 1, 0x51] ++ [1, 1, 7] ++ [0, 0, 0, 0]

theorem unserialize_witnessTxBytes :
    unserializeTransaction true witnessTxBytes = some (witnessTx, []) := by decide +kernel

theorem witnessTx_sized : witnessTx.Sized where
  vin := by decide
  scriptSig := by decide
  vout := by decide
  nValue := by
    intro out hout
    rw [witnessTx, mem_singleton] at hout
    subst hout
    exact ⟨by decide, by decide⟩
  scriptPubKey := by decide
  witness := by decide

/-- The bytes are those that are written; they are read back; and with a hash that is
constant the hashes of two transactions agree though their bytes do not. -/
theorem unserializeTransaction_canonical_witnessTx :
    witnessTxBytes = witnessTx.serialize true ∧
    unserializeTransaction true (witnessTx.serialize true) = some (witnessTx, []) ∧
    (witnessTxBytes = [2, 0, 0, 0, 0, 0, 0, 0, 0, 0] ∨
      (witnessTxBytes ≠ [2, 0, 0, 0, 0, 0, 0, 0, 0, 0] ∧ nullUint256 = nullUint256)) := by
  have hcanonical := unserializeTransaction_canonical fun _ => nullUint256
  have hempty : unserializeTransaction true [2, 0, 0, 0, 0, 0, 0, 0, 0, 0] =
      some (⟨[], [], 2#32, 0#32⟩, []) := by
    decide +kernel
  exact ⟨hcanonical.1 true _ _ unserialize_witnessTxBytes,
    hcanonical.2.1 witnessTx nofun witnessTx_sized,
    hcanonical.2.2 true _ _ true _ _ unserialize_witnessTxBytes hempty rfl⟩

end Bitcoboost
