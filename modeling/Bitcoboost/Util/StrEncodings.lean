import Bitcoboost.Lib.Positional
import Bitcoboost.Util.Bytes

/-!
# `ToLower` and `ConvertBits`

`ConvertBits` regroups a string of bits. Read as numerals in the bases `2 ^ frombits` and
`2 ^ tobits`, what was written followed by the pending bits is always what was read
(`convertLoop_spec`).
-/

namespace Bitcoboost

open List Nat

/-- `ToLower` of a character. -/
def toLower (c : UInt8) : UInt8 := if 0x41 ≤ c ∧ c ≤ 0x5a then c - 0x41 + 0x61 else c

/-- The inner loop of `ConvertBits`: the groups it writes and the bits that stay
pending. It runs at most `fuel` times, and `bits` times are enough. -/
def emitBits (tobits acc : Nat) : (fuel bits : Nat) → List Nat × Nat
  | 0, bits => ([], bits)
  | fuel + 1, bits =>
    if tobits ≤ bits then
      let bits := bits - tobits
      let (out, rest) := emitBits tobits acc fuel bits
      (((acc >>> bits) &&& (2 ^ tobits - 1)) :: out, rest)
    else ([], bits)

/-- The outer loop of `ConvertBits`: the groups it writes, `acc` and `bits`. -/
def convertLoop (frombits tobits : Nat) : List Nat → (acc bits : Nat) → List Nat × Nat × Nat
  | [], acc, bits => ([], acc, bits)
  | v :: input, acc, bits =>
    let acc := ((acc <<< frombits) ||| v) &&& (2 ^ (frombits + tobits - 1) - 1)
    let bits := bits + frombits
    let (out, bits) := emitBits tobits acc bits bits
    let (out', acc, bits) := convertLoop frombits tobits input acc bits
    (out ++ out', acc, bits)

/-- `ConvertBits` with the identity as `infn`, which is never negative: what it
passes to `outfn` and what it returns. -/
def convertBits (frombits tobits : Nat) (pad : Bool) (input : Bytes) : Bytes × Bool :=
  let (out, acc, bits) := convertLoop frombits tobits (input.map UInt8.toNat) 0 0
  let last := (acc <<< (tobits - bits)) &&& (2 ^ tobits - 1)
  if pad then ((if bits ≠ 0 then out ++ [last] else out).map UInt8.ofNat, true)
  else (out.map UInt8.ofNat, ¬ (bits ≥ frombits ∨ last ≠ 0))

namespace ConvertBitsLemmas
open Positional

theorem mod_two_pow_add {x a b : Nat} :
    x % 2 ^ (a + b) = x / 2 ^ a % 2 ^ b * 2 ^ a + x % 2 ^ a := by
  rw [pow_add, mod_mul]
  ring

variable {tobits frombits : Nat}

theorem emitBits_spec (hto : 0 < tobits) (acc : Nat) : ∀ (fuel bits N : Nat), bits ≤ fuel →
    (emitBits tobits acc fuel bits).2 < tobits ∧
    (emitBits tobits acc fuel bits).1.length * tobits + (emitBits tobits acc fuel bits).2 = bits ∧
    (∀ d ∈ (emitBits tobits acc fuel bits).1, d < 2 ^ tobits) ∧
    horner (2 ^ tobits) N (emitBits tobits acc fuel bits).1 *
      2 ^ (emitBits tobits acc fuel bits).2 +
      acc % 2 ^ (emitBits tobits acc fuel bits).2 = N * 2 ^ bits + acc % 2 ^ bits := by
  intro fuel
  induction fuel with
  | zero =>
    intro bits N h
    obtain rfl : bits = 0 := by omega
    simp [emitBits, hto]
  | succ fuel ih =>
    intro bits N h
    rw [emitBits]
    split
    · next hle =>
      obtain ⟨rest, rfl⟩ : ∃ r, bits = r + tobits := ⟨bits - tobits, by omega⟩
      rw [Nat.add_sub_cancel]
      dsimp only
      have hdigit : (acc >>> rest) &&& (2 ^ tobits - 1) = acc / 2 ^ rest % 2 ^ tobits := by
        rw [and_two_pow_sub_one_eq_mod, shiftRight_eq_div_pow]
      obtain ⟨hlt, hlen, hds, hval⟩ :=
        ih rest (2 ^ tobits * N + acc / 2 ^ rest % 2 ^ tobits) (by omega)
      refine ⟨hlt, ?_, ?_, ?_⟩
      · rw [length_cons, succ_mul]
        omega
      · intro d hd
        rcases List.mem_cons.mp hd with rfl | hd
        · rw [hdigit]
          exact Nat.mod_lt _ (Nat.two_pow_pos _)
        · exact hds d hd
      · rw [horner_cons, hdigit, hval, mod_two_pow_add, pow_add]
        ring
    · next hlt => simp [Nat.lt_of_not_le hlt]

theorem acc_step (acc : Nat) {v bits : Nat} (hv : v < 2 ^ frombits) (hbits : bits < tobits) :
    (((acc <<< frombits) ||| v) &&& (2 ^ (frombits + tobits - 1) - 1)) % 2 ^ (bits + frombits) =
      acc % 2 ^ bits * 2 ^ frombits + v := by
  have hdvd : 2 ^ (bits + frombits) ∣ 2 ^ (frombits + tobits - 1) := Nat.pow_dvd_pow 2 (by omega)
  rw [Nat.and_two_pow_sub_one_eq_mod, Nat.mod_mod_of_dvd _ hdvd, ← Nat.shiftLeft_add_eq_or_of_lt hv,
    Nat.shiftLeft_eq, Nat.add_comm bits, mod_two_pow_add, Nat.mul_comm acc,
    Nat.mul_add_div (Nat.two_pow_pos _),
    Nat.div_eq_of_lt hv, Nat.add_zero, Nat.mul_add_mod, Nat.mod_eq_of_lt hv]

theorem convertLoop_cons (frombits tobits v : Nat) (input : List Nat) (acc bits : Nat) :
    convertLoop frombits tobits (v :: input) acc bits =
      let acc := ((acc <<< frombits) ||| v) &&& (2 ^ (frombits + tobits - 1) - 1)
      let e := emitBits tobits acc (bits + frombits) (bits + frombits)
      let r := convertLoop frombits tobits input acc e.2
      (e.1 ++ r.1, r.2.1, r.2.2) := rfl

/-- What was written, followed by the pending bits, is what was read. -/
theorem convertLoop_spec (hto : 0 < tobits) : ∀ (input : List Nat) (acc bits N : Nat),
    (∀ v ∈ input, v < 2 ^ frombits) → bits < tobits →
    (convertLoop frombits tobits input acc bits).2.2 < tobits ∧
    (convertLoop frombits tobits input acc bits).1.length * tobits +
      (convertLoop frombits tobits input acc bits).2.2 = input.length * frombits + bits ∧
    (∀ d ∈ (convertLoop frombits tobits input acc bits).1, d < 2 ^ tobits) ∧
    horner (2 ^ tobits) N (convertLoop frombits tobits input acc bits).1 *
        2 ^ (convertLoop frombits tobits input acc bits).2.2 +
      (convertLoop frombits tobits input acc bits).2.1 %
        2 ^ (convertLoop frombits tobits input acc bits).2.2 =
      horner (2 ^ frombits) (N * 2 ^ bits + acc % 2 ^ bits) input := by
  intro input
  induction input with
  | nil =>
    intro acc bits N _ hbits
    simp [convertLoop, hbits]
  | cons v input ih =>
    intro acc bits N hin hbits
    have hstep := acc_step acc (hin v (by simp)) hbits
    rw [convertLoop_cons]
    dsimp only
    generalize ((acc <<< frombits) ||| v) &&& (2 ^ (frombits + tobits - 1) - 1) = acc' at hstep ⊢
    obtain ⟨elt, elen, eds, eval⟩ :=
      emitBits_spec hto acc' (bits + frombits) (bits + frombits) N (le_refl _)
    generalize emitBits tobits acc' (bits + frombits) (bits + frombits) = e at elt elen eds eval ⊢
    obtain ⟨hlt, hlen, hds, hval⟩ := ih acc' e.2 (horner (2 ^ tobits) N e.1)
      (fun w hw => hin w (by simp [hw])) elt
    refine ⟨hlt, ?_, ?_, ?_⟩
    · rw [length_append, length_cons, add_mul, succ_mul]
      omega
    · intro d hd
      rcases List.mem_append.mp hd with hd | hd
      · exact eds d hd
      · exact hds d hd
    · rw [horner_append, hval, eval, hstep, horner_cons, pow_add]
      congr 1
      ring

theorem last_group {acc bits : Nat} (hbits : bits ≤ tobits) :
    (acc <<< (tobits - bits)) &&& (2 ^ tobits - 1) = acc % 2 ^ bits * 2 ^ (tobits - bits) := by
  have hpow : 2 ^ tobits = 2 ^ bits * 2 ^ (tobits - bits) := by
    rw [← pow_add]
    congr 1
    omega
  rw [and_two_pow_sub_one_eq_mod, shiftLeft_eq, hpow, mul_mod_mul_right]

theorem map_toNat_ofNat {ds : List Nat} {k : Nat} (hk : k ≤ 8) (h : ∀ d ∈ ds, d < 2 ^ k) :
    (ds.map UInt8.ofNat).map UInt8.toNat = ds := by
  have hpow : 2 ^ k ≤ 2 ^ 8 := Nat.pow_le_pow_right (by decide) hk
  rw [map_map]
  refine (map_congr_left fun d hd => ?_).trans (map_id _)
  exact UInt8.toNat_ofNat_of_lt ((h d hd).trans_le hpow)

theorem map_toNat_injective {a b : Bytes} (h : a.map UInt8.toNat = b.map UInt8.toNat) : a = b :=
  List.map_injective_iff.mpr (fun _ _ => UInt8.toNat_inj.mp) h

end ConvertBitsLemmas

open Positional ConvertBitsLemmas

/-- `ConvertBits` with padding appends zero bits up to a whole group. -/
theorem convertBits_pad {frombits tobits : Nat} (hto : 0 < tobits) (hto8 : tobits ≤ 8)
    {input : Bytes} (hin : ∀ v ∈ input.map UInt8.toNat, v < 2 ^ frombits) :
    ∃ out padding, convertBits frombits tobits true input = (out, true) ∧ padding < tobits ∧
      out.length * tobits = input.length * frombits + padding ∧
      (∀ d ∈ out.map UInt8.toNat, d < 2 ^ tobits) ∧
      horner (2 ^ tobits) 0 (out.map UInt8.toNat) =
        horner (2 ^ frombits) 0 (input.map UInt8.toNat) * 2 ^ padding := by
  obtain ⟨hlt, hlen, hds, hval⟩ := convertLoop_spec hto _ 0 0 0 hin hto
  rw [convertBits]
  generalize convertLoop frombits tobits (input.map UInt8.toNat) 0 0 = r at hlt hlen hds hval ⊢
  obtain ⟨out, acc, bits⟩ := r
  simp only [length_map, add_zero, zero_mul, pow_zero, mod_one] at hlt hlen hds hval ⊢
  by_cases hz : bits = 0
  · subst hz
    refine ⟨out.map UInt8.ofNat, 0, by simp, hto, by simpa using hlen, ?_, ?_⟩
    · rwa [map_toNat_ofNat hto8 hds]
    · rw [map_toNat_ofNat hto8 hds]
      simpa [mod_one] using hval
  · have hlast : (acc <<< (tobits - bits)) &&& (2 ^ tobits - 1) < 2 ^ tobits := by
      rw [and_two_pow_sub_one_eq_mod]
      exact Nat.mod_lt _ (Nat.two_pow_pos _)
    have hall : ∀ d ∈ out ++ [(acc <<< (tobits - bits)) &&& (2 ^ tobits - 1)], d < 2 ^ tobits := by
      intro d hd
      rcases List.mem_append.mp hd with hd | hd
      · exact hds d hd
      · rwa [List.mem_singleton.mp hd]
    have hpow : 2 ^ tobits = 2 ^ bits * 2 ^ (tobits - bits) := by
      rw [← pow_add]
      congr 1
      omega
    refine ⟨(out ++ [(acc <<< (tobits - bits)) &&& (2 ^ tobits - 1)]).map UInt8.ofNat,
      tobits - bits, by rw [if_pos hz, if_pos trivial], by omega, ?_, ?_, ?_⟩
    · rw [length_map, length_append, length_singleton, succ_mul]
      omega
    · rwa [map_toNat_ofNat hto8 hall]
    · rw [map_toNat_ofNat hto8 hall, horner_append, horner_cons, horner_nil, last_group hlt.le,
        ← hval, hpow]
      ring

/-- Regrouping with padding and back without padding gives the bytes back. -/
theorem convertBits_roundTrip {frombits tobits : Nat} (hto : 0 < tobits) (hle : tobits ≤ frombits)
    (hfrom : frombits ≤ 8) {input : Bytes} (hin : ∀ v ∈ input.map UInt8.toNat, v < 2 ^ frombits) :
    convertBits tobits frombits false (convertBits frombits tobits true input).1 =
      (input, true) := by
  obtain ⟨groups, padding, hpad, hpadding, hglen, hgroups, hgval⟩ :=
    convertBits_pad hto (by omega) hin
  obtain ⟨hlt, hlen, hds, hval⟩ :=
    convertLoop_spec (by omega : 0 < frombits) _ 0 0 0 hgroups (by omega)
  rw [hpad, convertBits]
  generalize convertLoop tobits frombits (groups.map UInt8.toNat) 0 0 = r at hlt hlen hds hval ⊢
  obtain ⟨out, acc, bits⟩ := r
  simp only [length_map, add_zero, zero_mul, pow_zero, mod_one] at hlt hlen hds hval ⊢
  -- the number of bits leaves only one possible split into groups and padding
  have hsplit : out.length = input.length ∧ bits = padding := by
    have hsum : out.length * frombits + bits = input.length * frombits + padding := by omega
    have hmod := congrArg (· % frombits) hsum
    simp only [mul_add_mod_self_right, mod_eq_of_lt hlt,
      mod_eq_of_lt (hpadding.trans_le hle)] at hmod
    refine ⟨eq_of_mul_eq_mul_right (by omega : 0 < frombits) (by omega), hmod⟩
  obtain ⟨hcount, rfl⟩ := hsplit
  have hrest : acc % 2 ^ bits = 0 := by
    have hmod := congrArg (· % 2 ^ bits) (hval.trans hgval)
    simpa using hmod
  rw [hgval, hrest, add_zero] at hval
  have hout : out = input.map UInt8.toNat :=
    horner_injective (Nat.one_lt_two_pow (by omega)) (by simpa using hcount) hds hin
      (Nat.eq_of_mul_eq_mul_right (Nat.two_pow_pos _) hval)
  have hbytes : out.map UInt8.ofNat = input :=
    map_toNat_injective ((map_toNat_ofNat hfrom hds).trans hout)
  simp [hbytes, last_group hlt.le, hrest]
  omega

end Bitcoboost
