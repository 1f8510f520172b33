import Bitcoboost.Encoding.KeyIo

/-!
# The quantum-safe addresses of the wallet

`bb1z_addr` of `bb_pqwallet.cpp`, with its own `polymod`, `convertbits` and checksum. The
accumulator of `convertbits` is an `int` that is never masked; a group is read before its bits
are shifted out of it.
-/

namespace Bitcoboost.Bb1z

open List Nat

/-! ## The code -/

def ch : Bytes := Bytes.ofString "qpzry9x8gf2tvdw0s3jn54khce6mua7l"

/-- `G`. -/
def generator (i : Nat) : BitVec 32 :=
  [0x3b6a57b2#32, 0x26508e6d#32, 0x1ea119fa#32, 0x3d4233dd#32, 0x2a1462b3#32].getD i 0#32

/-- The loop body of `polymod`. An `int` is a word of 32 bits, which `>>` shifts with its sign. -/
def polymodStep (c x : BitVec 32) : BitVec 32 :=
  let b := c >>> 25
  (List.range 5).foldl (fun c i => if b.sshiftRight i &&& 1#32 ≠ 0#32 then c ^^^ generator i else c)
    (((c &&& 0x1ffffff#32) <<< 5) ^^^ x)

def polymod (v : List (BitVec 32)) : BitVec 32 := v.foldl polymodStep 1#32

/-- A byte as an `int`. -/
def ofByte (b : UInt8) : BitVec 32 := b.toBitVec.setWidth 32

def hrpexp (h : Bytes) : List (BitVec 32) :=
  h.map (fun c : UInt8 => ofByte (c >>> 5)) ++ 0#32 :: h.map fun c : UInt8 => ofByte (c &&& 31)

def cksum (hrp : Bytes) (d : List (BitVec 32)) : List (BitVec 32) :=
  let p := polymod (hrpexp hrp ++ d ++ List.replicate 6 0#32) ^^^ 0x2bc830a3#32
  (List.range 6).map fun i => (p >>> (5 * (5 - i))) &&& 31#32

/-- The inner loop of `convertbits`: the groups it writes and the bits that stay pending.
It runs at most `fuel` times, and `bits` times are enough. -/
def emitGroups (acc : BitVec 32) : (fuel bits : Nat) → List (BitVec 32) × Nat
  | 0, bits => ([], bits)
  | fuel + 1, bits =>
    if 5 ≤ bits then
      let bits := bits - 5
      let (out, rest) := emitGroups acc fuel bits
      ((acc.sshiftRight bits &&& 31#32) :: out, rest)
    else ([], bits)

def convertbitsLoop : Bytes → (acc : BitVec 32) → (bits : Nat) → List (BitVec 32) × BitVec 32 × Nat
  | [], acc, bits => ([], acc, bits)
  | v :: data, acc, bits =>
    let acc := (acc <<< 8) ||| ofByte v
    let bits := bits + 8
    let (out, bits) := emitGroups acc bits bits
    let (out', acc, bits) := convertbitsLoop data acc bits
    (out ++ out', acc, bits)

def convertbits (data : Bytes) : List (BitVec 32) :=
  let (out, acc, bits) := convertbitsLoop data 0#32 0
  if bits ≠ 0 then out ++ [(acc <<< (5 - bits)) &&& 31#32] else out

def bb1zAddr (hrp program : Bytes) : Bytes :=
  let data := 2#32 :: convertbits program
  hrp ++ 0x31 :: (data ++ cksum hrp data).map fun d => ch.getD d.toNat 0

def hrpFor (net : UInt8) : Bytes := if net = 1 then Bytes.ofString "bcrt" else Bytes.ofString "bb"

/-! ## The checksum -/

namespace Lemmas
open Bech32.ChecksumLemmas

theorem bit_ne_zero {c : BitVec 32} {i : Nat} :
    ((c >>> 25).sshiftRight i &&& 1#32 ≠ 0#32) ↔ c.getLsbD (25 + i) = true := by
  have hmsb : (c >>> 25).msb = false := by
    rw [BitVec.msb_ushiftRight]
    rfl
  rw [BitVec.sshiftRight_eq_of_msb_false hmsb, show (1#32 : BitVec 32) = BitVec.twoPow 32 0
    from rfl, BitVec.and_twoPow, BitVec.getLsbD_ushiftRight, BitVec.getLsbD_ushiftRight, add_zero]
  split
  · next h => exact ⟨fun _ => h, fun _ => by decide⟩
  · next h => exact ⟨fun hne => absurd rfl hne, fun hbit => absurd hbit h⟩

/-- The wallet runs the step of the node. -/
theorem polymodStep_eq (c : BitVec 32) (v : UInt8) :
    polymodStep c (ofByte v) = Bech32.polyModStep c v := by
  rw [polyModStep_eq, polymodStep, feedback]
  simp only [show List.range 5 = [0, 1, 2, 3, 4] from rfl, foldl_cons, foldl_nil]
  rw [ite_xor_eq_select bit_ne_zero, ite_xor_eq_select bit_ne_zero,
    ite_xor_eq_select bit_ne_zero, ite_xor_eq_select bit_ne_zero, ite_xor_eq_select bit_ne_zero]
  simp only [generator, ofByte, getD_cons_zero, getD_cons_succ]
  ac_rfl

theorem polymod_eq (v : Bytes) : polymod (v.map ofByte) = Bech32.polyMod v := by
  rw [polymod, Bech32.polyMod, foldl_map]
  congr 1
  funext c b
  exact polymodStep_eq c b

theorem hrpexp_eq (hrp : Bytes) : hrpexp hrp = (Bech32.expandHRP hrp).map ofByte := by
  rw [hrpexp, Bech32.expandHRP, map_append, map_cons, map_map, map_map]
  rfl

theorem ofByte_ofNat {n : Nat} (h : n < 256) : ofByte (UInt8.ofNat n) = BitVec.ofNat 32 n := by
  have hbyte : (UInt8.ofNat n).toNat = n := UInt8.toNat_ofNat_of_lt h
  apply BitVec.eq_of_toNat_eq
  rw [ofByte, BitVec.toNat_setWidth, UInt8.toNat_toBitVec, hbyte, BitVec.toNat_ofNat]

theorem and_31_lt (x : BitVec 32) : (x &&& 31#32).toNat < 32 := by
  exact lt_of_le_of_lt and_le_right (by decide)

/-- The wallet writes the checksum of the node. -/
theorem cksum_eq (hrp values : Bytes) :
    cksum hrp (values.map ofByte) =
      (Bech32.checksumGroups
        (Bech32.polyMod (Bech32.expandHRP hrp ++ values ++ List.replicate 6 0) ^^^
          0x2bc830a3#32)).map ofByte := by
  have hzeros : List.replicate 6 0#32 = (List.replicate 6 (0 : UInt8)).map ofByte := rfl
  rw [cksum, hrpexp_eq, hzeros, ← map_append, ← map_append, polymod_eq,
    Bech32.checksumGroups, map_map]
  refine map_congr_left fun i _ => ?_
  rw [Function.comp_apply, ofByte_ofNat (lt_of_lt_of_le (and_31_lt _) (by decide)),
    BitVec.ofNat_toNat, BitVec.setWidth_eq]

/-! ## Regrouping the bits -/

theorem getLsbD_31 {i : Nat} (hi : i < 32) : (31#32).getLsbD i = decide (i < 5) := by
  rw [show (31#32 : BitVec 32) = BitVec.ofNat 32 (2 ^ 5 - 1) from rfl, BitVec.getLsbD_ofNat,
    testBit_two_pow_sub_one, decide_eq_true hi, Bool.true_and]

/-- A group that is read from the accumulator is the same if the accumulator is masked
to 12 bits. -/
theorem sshiftRight_and_31 (acc : BitVec 32) {bits : Nat} (h : bits + 5 ≤ 12) :
    acc.sshiftRight bits &&& 31#32 = BitVec.ofNat 32
    ((acc.toNat % 2 ^ 12) >>> bits &&& (2 ^ 5 - 1)) := by
  apply BitVec.eq_of_getLsbD_eq
  intro i hi
  rw [BitVec.getLsbD_and, getLsbD_31 hi, BitVec.getLsbD_ofNat, and_two_pow_sub_one_eq_mod,
    testBit_mod_two_pow, testBit_shiftRight, testBit_mod_two_pow, decide_eq_true hi]
  by_cases hlow : i < 5
  · rw [BitVec.getLsbD_sshiftRight, if_pos (by omega), decide_eq_true hlow,
      decide_eq_true (by omega : bits + i < 12), decide_eq_false (by omega : ¬ 32 ≤ i)]
    simp [BitVec.getLsbD]
  · simp [hlow]

variable {acc : BitVec 32} {accN : Nat}

/-- The group that is padded with zeros. -/
theorem shiftLeft_and_31 (hacc : accN = acc.toNat % 2 ^ 12) (k : Nat) :
    acc <<< k &&& 31#32 = BitVec.ofNat 32 (accN <<< k &&& (2 ^ 5 - 1)) := by
  apply BitVec.eq_of_getLsbD_eq
  intro i hi
  rw [BitVec.getLsbD_and, getLsbD_31 hi, BitVec.getLsbD_ofNat, and_two_pow_sub_one_eq_mod,
    testBit_mod_two_pow,
    testBit_shiftLeft, hacc, testBit_mod_two_pow, BitVec.getLsbD_shiftLeft, decide_eq_true hi]
  by_cases hlow : i < 5
  · rw [decide_eq_true hlow, decide_eq_true (by omega : i - k < 12)]
    by_cases hk : i < k
    · simp [hk]
    · simp [hk, Nat.le_of_not_lt hk, BitVec.getLsbD]
  · simp [hlow]

theorem emitGroups_eq (hacc : accN = acc.toNat % 2 ^ 12) :
    ∀ (fuel bits : Nat), bits ≤ 12 →
      emitGroups acc fuel bits = ((emitBits 5 accN fuel bits).1.map (BitVec.ofNat 32),
        (emitBits 5 accN fuel bits).2) := by
  intro fuel
  induction fuel with
  | zero => exact fun _ _ => rfl
  | succ fuel ih =>
    intro bits hbits
    rw [emitGroups, emitBits]
    split
    · next hle =>
      dsimp only
      rw [ih (bits - 5) (by omega), sshiftRight_and_31 acc (by omega), ← hacc]
      rfl
    · rfl

/-- The accumulator of the node is the one of the wallet, masked to 12 bits. -/
theorem acc_mask (hacc : accN = acc.toNat % 2 ^ 12) (v : UInt8) :
    ((accN <<< 8) ||| v.toNat) &&& (2 ^ (8 + 5 - 1) - 1) =
      ((acc <<< 8) ||| ofByte v).toNat % 2 ^ 12 := by
  apply eq_of_testBit_eq
  intro i
  rw [and_two_pow_sub_one_eq_mod, testBit_mod_two_pow, testBit_mod_two_pow, testBit_or,
    testBit_shiftLeft, hacc, testBit_mod_two_pow, BitVec.toNat_or, testBit_or,
    BitVec.toNat_shiftLeft,
    testBit_mod_two_pow, testBit_shiftLeft, ofByte, BitVec.toNat_setWidth, UInt8.toNat_toBitVec,
    mod_eq_of_lt (lt_of_lt_of_le v.toNat_lt (by decide))]
  by_cases hi : i < 12
  · have hsub : i - 8 < 12 := by omega
    simp [hi, hsub, show i < 32 by omega]
  · simp [hi]

theorem convertbitsLoop_eq (data : Bytes) :
    ∀ {acc : BitVec 32} {accN bits : Nat}, accN = acc.toNat % 2 ^ 12 → bits < 5 →
    (convertbitsLoop data acc bits).1 = (convertLoop 8 5 (data.map UInt8.toNat) accN bits).1.map
    (BitVec.ofNat 32) ∧
    (convertbitsLoop data acc bits).2.2 = (convertLoop 8 5 (data.map UInt8.toNat) accN bits).2.2 ∧
    (convertLoop 8 5 (data.map UInt8.toNat) accN bits).2.1 =
      (convertbitsLoop data acc bits).2.1.toNat % 2 ^ 12 := by
  induction data with
  | nil => exact fun hacc _ => ⟨rfl, rfl, hacc⟩
  | cons v data ih =>
    intro acc accN bits hacc hbits
    have hmask := acc_mask hacc v
    rw [map_cons, ConvertBitsLemmas.convertLoop_cons, convertbitsLoop]
    have hemit := emitGroups_eq hmask (bits + 8) (bits + 8) (by omega)
    have hpending := (ConvertBitsLemmas.emitBits_spec (by decide : 0 < 5)
      (((accN <<< 8) ||| v.toNat) &&& (2 ^ (8 + 5 - 1) - 1)) (bits + 8) (bits + 8) 0 (le_refl _)).1
    obtain ⟨hout, hrest, hlast⟩ := ih hmask hpending
    rw [hemit]
    dsimp only
    refine ⟨?_, hrest, hlast⟩
    rw [hout, map_append]

end Lemmas

open Lemmas

/-- The wallet writes the groups of the node. -/
theorem convertbits_eq (data : Bytes) :
    convertbits data = (convertBits 8 5 true data).1.map ofByte := by
  obtain ⟨hout, hrest, hlast⟩ := @convertbitsLoop_eq data 0#32 0 0 rfl (by decide)
  have hbytes : ∀ v ∈ data.map UInt8.toNat, v < 2 ^ 8 := toNat_lt_256 data
  obtain ⟨hlt, _, hds, _⟩ :=
    ConvertBitsLemmas.convertLoop_spec (by decide : 0 < 5) _ 0 0 0 hbytes (by decide)
  have hgroups : ∀ ds : List Nat, (∀ d ∈ ds, d < 2 ^ 5) →
      ds.map (BitVec.ofNat 32) = (ds.map UInt8.ofNat).map ofByte := by
    intro ds hds
    rw [map_map]
    exact map_congr_left fun d hd => (ofByte_ofNat (lt_of_lt_of_le (hds d hd) (by decide))).symm
  rw [convertbits, convertBits]
  generalize convertLoop 8 5 (data.map UInt8.toNat) 0 0 = node at hout hrest hlast hlt hds ⊢
  generalize convertbitsLoop data 0#32 0 = wallet at hout hrest hlast ⊢
  obtain ⟨outN, accN, bitsN⟩ := node
  obtain ⟨out, acc, bits⟩ := wallet
  dsimp only at hout hrest hlast hlt hds ⊢
  subst hout hrest
  have hlastN : (accN <<< (5 - bits)) &&& (2 ^ 5 - 1) < 2 ^ 5 :=
    lt_of_le_of_lt and_le_right (by decide)
  rw [if_pos rfl, shiftLeft_and_31 hlast]
  split
  · have hall : ∀ d ∈ outN ++ [(accN <<< (5 - bits)) &&& (2 ^ 5 - 1)], d < 2 ^ 5 := by
      intro d hd
      rcases List.mem_append.mp hd with hd | hd
      · exact hds d hd
      · rwa [List.mem_singleton.mp hd]
    rw [← hgroups _ hall, map_append, map_singleton]
  · exact hgroups outN hds

/-- The address that the wallet writes is the one that the node writes. -/
theorem encodeWitness_eq {params : CChainParams} (hhrp : Bech32.ValidHrp params.bech32Hrp)
    {program : Bytes} :
    encodeWitness params .bech32m 2 program = some (bb1zAddr params.bech32Hrp program) := by
  have hupper : ¬ (params.bech32Hrp.any fun c => ¬ (c < 0x41 ∨ c > 0x5a)) = true := by
    rw [any_eq_true]
    rintro ⟨c, hc, hrange⟩
    rw [decide_eq_true_eq, not_or, UInt8.not_lt, UInt8.not_lt] at hrange
    exact (hhrp.2 c hc).2.2 hrange
  have hdata : (2#32 : BitVec 32) :: convertbits program =
      (2 :: (convertBits 8 5 true program).1).map ofByte := by
    rw [convertbits_eq, map_cons]
    rfl
  have hchar : (fun d : BitVec 32 => ch.getD d.toNat 0) ∘ ofByte = fun b =>
      Bech32.charset.getD b.toNat 0 := by
    funext b
    rfl
  rw [encodeWitness, Bech32.encode, if_neg hupper, bb1zAddr, hdata, cksum_eq, ← map_append,
    map_map, hchar]
  rfl

/-- On the main network and on regtest the wallet writes the address that the node writes
for the program, and the node reads the program from it. -/
theorem bb1zAddr_agrees (hash : Bytes → Uint256) (unset : Unset) (net : UInt8) (program : Uint256) :
    ∃ chain, (net = 1 ∧ chain = .regtest ∨ net ≠ 1 ∧ chain = .main) ∧
      (createChainParams unset chain).bech32Hrp = hrpFor net ∧
      encodeDestination hash (createChainParams unset chain) (.witnessUnknown 2 program.data) =
        some (bb1zAddr (hrpFor net) program.data) ∧
      decodeDestination hash (createChainParams unset chain) (bb1zAddr (hrpFor net) program.data) =
        some (.ok (.witnessUnknown 2 program.data)) := by
  obtain ⟨chain, hchain, hhrp⟩ : ∃ chain, (net = 1 ∧ chain = .regtest ∨ net ≠ 1 ∧ chain = .main) ∧
      (createChainParams unset chain).bech32Hrp = hrpFor net := by
    by_cases hnet : net = 1
    · exact ⟨.regtest, .inl ⟨hnet, rfl⟩, (if_pos hnet).symm⟩
    · exact ⟨.main, .inr ⟨hnet, rfl⟩, (if_neg hnet).symm⟩
  have hlen : program.data.length = 32 := program.length_data
  have haddress : HasAddress (.witnessUnknown 2 program.data) :=
    ⟨by decide, by decide, by rw [hlen]; decide, by rw [hlen]; decide, fun h =>
      absurd h.1 (by decide)⟩
  obtain ⟨str, hencode, hdecode⟩ := KeyIoLemmas.witness_roundTrip hash unset chain haddress
    (fun _ => CTxDestination.noConfusion) (fun _ => CTxDestination.noConfusion)
  have hstr :
      encodeDestination hash (createChainParams unset chain) (.witnessUnknown 2 program.data) =
      some (bb1zAddr (createChainParams unset chain).bech32Hrp program.data) := by
    rw [encodeDestination, if_neg (by rw [hlen]; decide)]
    exact encodeWitness_eq (KeyIoLemmas.validHrp unset chain)
  rw [hhrp] at hstr
  cases hencode.symm.trans hstr
  exact ⟨chain, hchain, hhrp, hencode, hdecode⟩

end Bitcoboost.Bb1z
