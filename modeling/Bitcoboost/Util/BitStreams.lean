import Bitcoboost.Lib.BitString
import Bitcoboost.Util.Bytes

/-!
# Bit streams

`BitStreamWriter` and `BitStreamReader` of `streams.h` and the Golomb-Rice code of
`util/golombrice.h`. Both sides denote a string of bits: what was written
(`BitStreamWriter.bits`), and what can still be read (`BitStreamReader.bits`). `none` is an
exception.
-/

namespace Bitcoboost

open List Option Nat

def Bytes.bits (s : Bytes) : List Bool := s.flatMap fun b => msb 8 b.toNat

/-- Bytes whose bits start with those of `t` start with `t`. -/
theorem Bytes.exists_append_of_bits {s t : Bytes} {u : List Bool} (h : s.bits = t.bits ++ u) :
    ∃ s', s = t ++ s' ∧ Bytes.bits s' = u := by
  induction t generalizing s with
  | nil => exact ⟨s, rfl, h⟩
  | cons c t ih =>
    cases s with
    | nil => cases h
    | cons b s =>
      obtain ⟨hbyte, hrest⟩ := msb_append_inj h
      rw [mod_eq_of_lt b.toNat_lt, mod_eq_of_lt c.toNat_lt, UInt8.toNat_inj] at hbyte
      obtain ⟨s', hs', hbits⟩ := ih hrest
      exact ⟨s', by rw [hbyte, hs', cons_append], hbits⟩

/-! ## Writing -/

/-- `BitStreamWriter`: the bytes written, and the buffered one, filled from its highest bit up to
`offset`. -/
structure BitStreamWriter where
  ostream : Bytes
  buffer : UInt8
  offset : Nat
  offset_lt : offset < 8
  unused : ∀ i < 8 - offset, buffer.toNat.testBit i = false

namespace BitStreamWriter

theorem unused_zero (i : Nat) (_ : i < 8 - 0) : (0 : UInt8).toNat.testBit i = false :=
  zero_testBit i

/-- The constructor. -/
def new (ostream : Bytes) : BitStreamWriter := ⟨ostream, 0, 0, zero_lt_succ _, unused_zero⟩

variable (w : BitStreamWriter)

def flush : BitStreamWriter :=
  if w.offset = 0 then w else new (w.ostream ++ [w.buffer])

def fill (data nbits : Nat) : UInt8 :=
  w.buffer ||| UInt8.ofNat ((data <<< (64 - nbits) % 2 ^ 64) >>> (64 - 8 + w.offset))

variable {nbits : Nat} (w : BitStreamWriter)

theorem testBit_fill {data i : Nat} (hn : nbits ≤ 64) (hi : i < 8) :
    (w.fill data nbits).toNat.testBit i =
      (w.buffer.toNat.testBit i ||
        decide (w.offset + i < 8 ∧ 8 ≤ w.offset + i + nbits) &&
          data.testBit (w.offset + i + nbits - 8)) := by
  have hindex : 64 - 8 + w.offset + i - (64 - nbits) = w.offset + i + nbits - 8 := by omega
  have hrange : (64 - 8 + w.offset + i < 64 ∧ 64 - nbits ≤ 64 - 8 + w.offset + i) ↔
      (w.offset + i < 8 ∧ 8 ≤ w.offset + i + nbits) := by omega
  rw [fill, UInt8.toNat_or, UInt8.toNat_ofNat', testBit_or, testBit_mod_two_pow, testBit_shiftRight,
    testBit_mod_two_pow, testBit_shiftLeft, hindex, decide_eq_true hi, Bool.true_and,
    ← Bool.and_assoc]
  exact congrArg (_ || · && _) ((Bool.decide_and _ _).symm.trans (decide_eq_decide.mpr hrange))

theorem unused_fill {data : Nat} (hn : nbits ≤ 64)
    (hlt : w.offset + min (8 - w.offset) nbits < 8) (i : Nat)
    (hi : i < 8 - (w.offset + min (8 - w.offset) nbits)) :
    (w.fill data nbits).toNat.testBit i = false := by
  rw [w.testBit_fill hn (by omega), w.unused i (by omega), decide_eq_false (by omega),
    Bool.false_and, Bool.or_false]

def writeLoop (w : BitStreamWriter) (data nbits : Nat) (hn : nbits ≤ 64) : BitStreamWriter :=
  if nbits = 0 then w else
  let bits := min (8 - w.offset) nbits
  if h : w.offset + bits < 8 then
    writeLoop ⟨w.ostream, w.fill data nbits, w.offset + bits, h, w.unused_fill hn h⟩ data
        (nbits - bits)
      (Nat.le_trans (Nat.sub_le _ _) hn)
  else
    -- the byte is full and flushed
    writeLoop (new (w.ostream ++ [w.fill data nbits])) data (nbits - bits)
      (Nat.le_trans (Nat.sub_le _ _) hn)
termination_by nbits
decreasing_by all_goals have := w.offset_lt; omega

def write (data nbits : Nat) : Option BitStreamWriter :=
  if hn : nbits ≤ 64 then some (w.writeLoop data nbits hn) else none

def bits : List Bool := w.ostream.bits ++ msb w.offset (w.buffer.toNat >>> (8 - w.offset))

theorem bits_new (ostream : Bytes) : (new ostream).bits = ostream.bits := append_nil _

/-- The buffered byte after an update: the bits before, and the highest of the `nbits` bits that are
left. -/
theorem msb_fill (data : Nat) {bits : Nat} (hn : nbits ≤ 64)
    (hbits : bits = min (8 - w.offset) nbits) :
    msb (w.offset + bits) ((w.fill data nbits).toNat >>> (8 - (w.offset + bits))) =
      msb w.offset (w.buffer.toNat >>> (8 - w.offset)) ++ msb bits (data >>> (nbits - bits)) := by
  have hlt := w.offset_lt
  rw [msb_add]
  congr 1
  · refine msb_eq_iff.mpr fun i hi => ?_
    rw [← shiftRight_add, testBit_shiftRight, testBit_shiftRight, w.testBit_fill hn (by omega),
      decide_eq_false (by omega), Bool.false_and, Bool.or_false]
    congr 1
    omega
  · refine msb_eq_iff.mpr fun i hi => ?_
    rw [testBit_shiftRight, testBit_shiftRight, w.testBit_fill hn (by omega), w.unused _ (by omega),
      decide_eq_true (by omega), Bool.true_and, Bool.false_or]
    congr 1
    omega

theorem bits_writeLoop (data : Nat) (hn : nbits ≤ 64) :
    (w.writeLoop data nbits hn).bits = w.bits ++ msb nbits data := by
  fun_induction writeLoop w data nbits hn with
  | case1 w => exact (append_nil _).symm
  | case2 w nbits hn _ k h ih =>
    rw [ih, bits, bits, msb_fill w data hn rfl, msb_split (Nat.min_le_right (8 - w.offset) nbits),
      append_assoc, append_assoc, append_assoc]
  | case3 w nbits hn _ k h ih =>
    have hfull : w.offset + k = 8 := by have := w.offset_lt; omega
    have hfill := w.msb_fill data hn (rfl : k = _)
    rw [hfull, Nat.sub_self, Nat.shiftRight_zero] at hfill
    rw [ih, bits_new, bits, Bytes.bits, flatMap_append, flatMap_singleton, hfill,
      msb_split (Nat.min_le_right (8 - w.offset) nbits), append_assoc, append_assoc, append_assoc,
      Bytes.bits]

theorem write_eq (data : Nat) (hn : nbits ≤ 64) :
    ∃ w', w.write data nbits = some w' ∧ w'.bits = w.bits ++ msb nbits data :=
  ⟨_, dif_pos hn, w.bits_writeLoop data hn⟩

theorem flush_eq : ∃ padding : List Bool, padding.length < 8 ∧
    w.flush.ostream.bits = w.bits ++ padding := by
  by_cases h : w.offset = 0
  · refine ⟨[], zero_lt_succ _, ?_⟩
    rw [flush, if_pos h, bits, h, msb, append_nil, append_nil]
  · refine ⟨msb (8 - w.offset) w.buffer.toNat, by rw [length_msb]; omega, ?_⟩
    rw [flush, if_neg h, new, bits, Bytes.bits, flatMap_append, flatMap_singleton,
      msb_split (Nat.le_of_lt w.offset_lt), append_assoc, Bytes.bits]

end BitStreamWriter

/-! ## Reading -/

/-- `BitStreamReader`: the bytes not yet read, and the buffered one, of which `offset` bits were
returned. -/
structure BitStreamReader where
  istream : Bytes
  buffer : UInt8
  offset : Nat
  offset_le : offset ≤ 8

namespace BitStreamReader

/-- The constructor. -/
def new (istream : Bytes) : BitStreamReader := ⟨istream, 0, 8, Nat.le_refl 8⟩

variable (r : BitStreamReader)

theorem offset_add_le (nbits : Nat) : r.offset + min (8 - r.offset) nbits ≤ 8 := by
  have := r.offset_le
  omega

/-- `Read` takes a byte from the stream when the buffered one is used up. -/
def refill : Option BitStreamReader :=
  if r.offset = 8 then
    match r.istream with
    | [] => none
    | b :: istream => some ⟨istream, b, 0, zero_le 8⟩
  else some r

def readLoop : Nat → BitStreamReader → Nat → Nat → Option (Nat × BitStreamReader)
  | 0, _, _, _ => none
  | fuel + 1, r, data, nbits =>
    if nbits = 0 then some (data, r) else
    match r.refill with
    | none => none
    | some r =>
      let bits := min (8 - r.offset) nbits
      readLoop fuel ⟨r.istream, r.buffer, r.offset + bits, r.offset_add_le nbits⟩
        ((data <<< bits % 2 ^ 64) ||| (r.buffer.toNat <<< r.offset % 2 ^ 8) >>> (8 - bits))
          (nbits - bits)

/-- `Read`. Every round of the loop reads a bit. -/
def read (nbits : Nat) : Option (Nat × BitStreamReader) :=
  if nbits ≤ 64 then readLoop (nbits + 1) r 0 nbits else none

def bits : List Bool := msb (8 - r.offset) r.buffer.toNat ++ r.istream.bits

theorem bits_new (istream : Bytes) : (new istream).bits = istream.bits := rfl

variable {r : BitStreamReader} {rest : List Bool}

theorem refill_eq (h : r.bits ≠ []) :
    ∃ r', r.refill = some r' ∧ r'.offset < 8 ∧ r'.bits = r.bits := by
  by_cases hfull : r.offset = 8
  · cases hs : r.istream with
    | nil => exact absurd (by rw [bits, hfull, hs]; rfl) h
    | cons b istream =>
      refine ⟨⟨istream, b, 0, zero_le 8⟩, by rw [refill, if_pos hfull, hs], zero_lt_succ _, ?_⟩
      rw [bits, bits, hfull, hs]
      rfl
  · exact ⟨r, if_neg hfull, Nat.lt_of_le_of_ne r.offset_le hfull, rfl⟩

/-- The bits that one round of the loop takes from the buffered byte. -/
theorem chunk_eq {b offset bits : Nat} (h : offset + bits ≤ 8) :
    (b <<< offset % 2 ^ 8) >>> (8 - bits) = (b >>> (8 - (offset + bits))) % 2 ^ bits := by
  refine eq_of_testBit_eq fun i => ?_
  rw [testBit_shiftRight, testBit_mod_two_pow, testBit_shiftLeft, testBit_mod_two_pow,
    testBit_shiftRight]
  by_cases hi : i < bits
  · rw [decide_eq_true hi, decide_eq_true (by omega), decide_eq_true (by omega), Bool.true_and,
      Bool.true_and, Bool.true_and]
    congr 1
    omega
  · rw [decide_eq_false hi, decide_eq_false (by omega), Bool.false_and, Bool.false_and]

/-- The number read so far, with the next bits. -/
theorem accumulate_eq {data chunk bits nbits : Nat} (hbits : bits ≤ nbits) (hn : nbits ≤ 64)
    (hdata : data < 2 ^ (64 - nbits)) (hchunk : chunk < 2 ^ bits) :
    (data <<< bits % 2 ^ 64) ||| chunk = data * 2 ^ bits + chunk ∧
    data * 2 ^ bits + chunk < 2 ^ (64 - (nbits - bits)) := by
  have hlt : data * 2 ^ bits + chunk < 2 ^ (64 - (nbits - bits)) := by
    rw [show 64 - (nbits - bits) = 64 - nbits + bits from by omega, pow_add]
    calc data * 2 ^ bits + chunk < data * 2 ^ bits + 2 ^ bits := Nat.add_lt_add_left hchunk _
      _ = (data + 1) * 2 ^ bits := (succ_mul _ _).symm
      _ ≤ 2 ^ (64 - nbits) * 2 ^ bits := mul_le_mul_right _ hdata
  have h64 : data <<< bits < 2 ^ 64 := by
    rw [shiftLeft_eq]
    exact Nat.lt_of_le_of_lt (Nat.le_add_right _ _)
      (Nat.lt_of_lt_of_le hlt (Nat.pow_le_pow_right (by decide) (Nat.sub_le _ _)))
  refine ⟨?_, hlt⟩
  rw [mod_eq_of_lt h64, ← shiftLeft_add_eq_or_of_lt hchunk, shiftLeft_eq]

theorem readLoop_eq {fuel nbits x data : Nat} (hfuel : nbits < fuel)
    (hn : nbits ≤ 64) (hdata : data < 2 ^ (64 - nbits)) (h : r.bits = msb nbits x ++ rest) :
    ∃ r', readLoop fuel r data nbits = some (data * 2 ^ nbits + x % 2 ^ nbits, r') ∧
    r'.bits = rest := by
  induction fuel generalizing nbits data r with
  | zero => exact absurd hfuel (not_lt_zero _)
  | succ fuel ih =>
    by_cases h0 : nbits = 0
    · subst h0
      exact ⟨r, by rw [readLoop, if_pos rfl, pow_zero, mul_one, mod_one, add_zero], h⟩
    · have hne : r.bits ≠ [] := by
        rw [h]
        intro hnil
        have := congrArg List.length hnil
        rw [length_append, length_msb, length_nil] at this
        omega
      obtain ⟨s, hs, hlt, hbits⟩ := refill_eq hne
      generalize hk : min (8 - s.offset) nbits = k
      have hle := hk ▸ s.offset_add_le nbits
      -- the first `k` bits are in the buffered byte
      have hsplit : s.bits = msb k (s.buffer.toNat >>> (8 - (s.offset + k))) ++
          bits ⟨s.istream, s.buffer, s.offset + k, hle⟩ := by
        rw [bits, bits, msb_split (show k ≤ 8 - s.offset by omega), Nat.sub_sub, append_assoc]
      rw [hsplit, h, msb_split (hk ▸ Nat.min_le_right _ _ : k ≤ nbits), append_assoc] at hbits
      obtain ⟨hchunk, hrest⟩ := msb_append_inj hbits
      have hkn : k ≤ nbits := hk ▸ Nat.min_le_right _ _
      obtain ⟨hdata', hlt'⟩ :=
        accumulate_eq hkn hn hdata (Nat.mod_lt (x >>> (nbits - k)) (Nat.two_pow_pos k))
      obtain ⟨r', hr', hr⟩ :=
        ih (show nbits - k < fuel by omega) (Nat.le_trans (Nat.sub_le _ _) hn) hlt' hrest
      refine ⟨r', ?_, hr⟩
      rw [readLoop, if_neg h0, hs]
      subst hk
      dsimp only
      rw [chunk_eq hle, hchunk, hdata', hr', mod_two_pow_split hkn x, Nat.add_mul, Nat.mul_assoc,
        ← Nat.pow_add, Nat.add_sub_cancel' hkn, Nat.add_assoc]

theorem read_eq {nbits x : Nat} (hn : nbits ≤ 64) (h : r.bits = msb nbits x ++ rest) :
    ∃ r', r.read nbits = some (x % 2 ^ nbits, r') ∧ r'.bits = rest := by
  obtain ⟨r', hr', hr⟩ := readLoop_eq nbits.lt_succ_self hn (Nat.two_pow_pos _) h
  exact ⟨r', by rw [read, if_pos hn, hr', Nat.zero_mul, Nat.zero_add], hr⟩

theorem length_bits : r.bits.length = 8 - r.offset + 8 * r.istream.length := by
  rw [bits, Bytes.bits, length_append, length_msb, length_flatMap]
  simp [mul_comm]

end BitStreamReader

/-! ## The Golomb-Rice code -/

/-- The code of `x`: its quotient by `2 ^ P` in unary, and the remainder. -/
def golombRiceCode (P x : Nat) : List Bool := List.replicate (x >>> P) true ++ false :: msb P x

/-- The loop of `GolombRiceEncode`, which writes at most 64 ones at a time. -/
def golombRiceEncodeLoop (bitwriter : BitStreamWriter) (q : Nat) : Option BitStreamWriter :=
  if q = 0 then some bitwriter else
  let nbits := if q ≤ 64 then q else 64
  match bitwriter.write (2 ^ 64 - 1) nbits with
  | none => none
  | some bitwriter => golombRiceEncodeLoop bitwriter (q - nbits)
termination_by q
decreasing_by
  have : 0 < nbits := by
    unfold nbits
    split <;> omega
  omega

def golombRiceEncode (bitwriter : BitStreamWriter) (P x : Nat) : Option BitStreamWriter := do
  let bitwriter ← golombRiceEncodeLoop bitwriter (x >>> P)
  let bitwriter ← bitwriter.write 0 1
  bitwriter.write x P

def golombRiceDecodeLoop : Nat → BitStreamReader → Nat → Option (Nat × BitStreamReader)
  | 0, _, _ => none
  | fuel + 1, bitreader, q => do
    let (bit, bitreader) ← bitreader.read 1
    if bit = 1 then golombRiceDecodeLoop fuel bitreader ((q + 1) % 2 ^ 64) else some (q, bitreader)

/-- `GolombRiceDecode`. Every round of the loop reads a bit. -/
def golombRiceDecode (bitreader : BitStreamReader) (P : Nat) : Option (Nat × BitStreamReader) := do
  let (q, bitreader) ← golombRiceDecodeLoop (8 * bitreader.istream.length + 9) bitreader 0
  let (r, bitreader) ← bitreader.read P
  some ((q <<< P % 2 ^ 64 + r) % 2 ^ 64, bitreader)

theorem golombRiceEncodeLoop_eq (w : BitStreamWriter) (q : Nat) :
    ∃ w', golombRiceEncodeLoop w q = some w' ∧ w'.bits = w.bits ++ List.replicate q true := by
  fun_induction golombRiceEncodeLoop w q with
  | case1 w => exact ⟨w, rfl, (append_nil _).symm⟩
  | case2 w q _ nbits hnone =>
    obtain ⟨w', hw', _⟩ :=
      w.write_eq (2 ^ 64 - 1) (show nbits ≤ 64 by unfold nbits; split <;> omega)
    cases hnone.symm.trans hw'
  | case3 w q _ nbits w₁ hsome ih =>
    have hle : nbits ≤ 64 := by unfold nbits; split <;> omega
    have hnq : nbits ≤ q := by unfold nbits; split <;> omega
    obtain ⟨w', hw', hbits⟩ := w.write_eq (2 ^ 64 - 1) hle
    cases hsome.symm.trans hw'
    obtain ⟨w₂, hw₂, hbits₂⟩ := ih
    refine ⟨w₂, hw₂, ?_⟩
    rw [hbits₂, hbits, msb_ones hle, append_assoc, replicate_append_replicate,
      Nat.add_sub_cancel' hnq]

theorem golombRiceEncode_eq (w : BitStreamWriter) {P : Nat} (hP : P ≤ 64) (x : Nat) :
    ∃ w', golombRiceEncode w P x = some w' ∧ w'.bits = w.bits ++ golombRiceCode P x := by
  obtain ⟨w₁, h₁, hbits₁⟩ := golombRiceEncodeLoop_eq w (x >>> P)
  obtain ⟨w₂, h₂, hbits₂⟩ := w₁.write_eq 0 (show 1 ≤ 64 by decide)
  obtain ⟨w₃, h₃, hbits₃⟩ := w₂.write_eq x hP
  refine ⟨w₃, by simp only [golombRiceEncode, h₁, h₂, h₃, bind_eq_bind, bind_some], ?_⟩
  rw [hbits₃, hbits₂, hbits₁, golombRiceCode, append_assoc, append_assoc]
  rfl

variable {r : BitStreamReader} {rest : List Bool}

theorem golombRiceDecodeLoop_eq {q : Nat} {fuel q₀ : Nat} (hfuel : q < fuel) (hq : q₀ + q < 2 ^ 64)
    (h : r.bits = List.replicate q true ++ false :: rest) :
    ∃ r', golombRiceDecodeLoop fuel r q₀ = some (q₀ + q, r') ∧ r'.bits = rest := by
  induction q generalizing fuel q₀ r with
  | zero =>
    cases fuel with
    | zero => cases hfuel
    | succ fuel =>
      obtain ⟨r', hr', hr⟩ := BitStreamReader.read_eq (x := 0) (show 1 ≤ 64 by decide) h
      exact ⟨r', by rw [golombRiceDecodeLoop, hr']; rfl, hr⟩
  | succ q ih =>
    cases fuel with
    | zero => cases hfuel
    | succ fuel =>
      obtain ⟨r₁, hr₁, hbits⟩ := BitStreamReader.read_eq (x := 1) (show 1 ≤ 64 by decide) h
      obtain ⟨r', hr', hr⟩ :=
        ih (lt_of_succ_lt_succ hfuel) (show q₀ + 1 + q < 2 ^ 64 by omega) hbits
      refine ⟨r', ?_, hr⟩
      simp only [golombRiceDecodeLoop, hr₁, bind_eq_bind, bind_some]
      rw [if_pos (by decide), mod_eq_of_lt (by omega), hr', add_assoc, add_comm 1 q]

theorem golombRiceDecode_eq {P x : Nat} (hP : P ≤ 64) (hx : x < 2 ^ 64)
    (h : r.bits = golombRiceCode P x ++ rest) :
    ∃ r', golombRiceDecode r P = some (x, r') ∧ r'.bits = rest := by
  rw [golombRiceCode, append_assoc, cons_append] at h
  have hlen : x >>> P < 8 * r.istream.length + 9 := by
    have hlen := congrArg List.length h
    rw [BitStreamReader.length_bits, length_append, length_replicate, length_cons] at hlen
    omega
  have hq : x >>> P ≤ x := shiftRight_le x P
  obtain ⟨r₁, hr₁, hbits₁⟩ := golombRiceDecodeLoop_eq hlen (show 0 + x >>> P < 2 ^ 64 by omega) h
  obtain ⟨r₂, hr₂, hbits₂⟩ := BitStreamReader.read_eq hP hbits₁
  refine ⟨r₂, ?_, hbits₂⟩
  have hvalue : x >>> P <<< P + x % 2 ^ P = x := by
    rw [shiftLeft_eq, shiftRight_eq_div_pow, div_add_mod']
  simp only [golombRiceDecode, hr₁, hr₂, bind_eq_bind, bind_some, zero_add]
  rw [mod_eq_of_lt (show x >>> P <<< P < 2 ^ 64 by omega), hvalue, mod_eq_of_lt hx]

end Bitcoboost
