import Bitcoboost.Script.Script
import Mathlib.Data.Nat.Digits.Lemmas

/-!
# Script numbers and pushes have one encoding

`CScriptNum` and `operator<<` of `script/script.h` against `GetScriptOp` and `CheckMinimalPush`
of `script/script.cpp`. A script number is a sign and a magnitude, the bytes of the magnitude
in little-endian order, with the sign in the highest bit.
-/

namespace Bitcoboost

namespace ScriptNum

open List Option Nat

/-! ## Bytes -/

theorem leValue_concat (b : Bytes) (x : UInt8) :
    Bytes.leValue (b ++ [x]) = b.leValue + 256 ^ b.length * x.toNat := by
  induction b with
  | nil => simp [Bytes.leValue]
  | cons y b ih =>
    have hcons (y : UInt8) (b : Bytes) : Bytes.leValue (y :: b) = y.toNat + 256 * b.leValue := rfl
    rw [cons_append, hcons, ih, hcons, length_cons, pow_succ]
    ring

theorem sign_bit (x : UInt8) : x &&& 0x80 ≠ 0 ↔ 128 ≤ x.toNat := by
  revert x
  exact forall_uint8 (by decide +kernel)

theorem toNat_and_7f (x : UInt8) : (x &&& 0x7f).toNat = x.toNat % 128 := by
  exact and_two_pow_sub_one_eq_mod x.toNat 7

theorem toNat_or_80 {x : UInt8} (h : x.toNat < 128) : (x ||| 0x80).toNat = 128 + x.toNat := by
  rw [UInt8.toNat_or, Nat.or_comm]
  exact (two_pow_add_eq_or_of_lt (i := 7) h 1).symm

theorem leValue_eq_ofDigits (b : Bytes) : b.leValue = Nat.ofDigits 256 (b.map UInt8.toNat) := by
  rw [ofDigits_eq_foldr, foldr_map]
  rfl

variable {fuel n : Nat}

theorem map_absBytes (h : n < 256 ^ fuel) :
    (absBytes fuel n).map UInt8.toNat = Nat.digits 256 n := by
  induction fuel generalizing n with
  | zero =>
    obtain rfl : n = 0 := by simpa using h
    simp [absBytes]
  | succ fuel ih =>
    rw [absBytes]
    split
    · next hzero => simp [hzero]
    · next hne =>
      rw [digits_def' (by decide) (pos_of_ne_zero hne), map_cons, UInt8.toNat_ofNat',
        Nat.shiftRight_eq_div_pow, ih (Nat.div_lt_of_lt_mul (by rwa [← Nat.pow_succ']))]

variable {b : Bytes}

/-- The loop of `serialize` gives bytes back that end with a nonzero one. -/
theorem absBytes_leValue (hlength : b.length ≤ fuel) (hlast : b.getLast? ≠ some 0) :
    absBytes fuel b.leValue = b := by
  have hfits : b.leValue < 256 ^ fuel :=
    Nat.lt_of_lt_of_le (leValue_lt b) (Nat.pow_le_pow_right (by decide) hlength)
  refine List.map_injective_iff.mpr (fun _ _ => UInt8.toNat_inj.mp) ?_
  rw [map_absBytes hfits, leValue_eq_ofDigits, digits_ofDigits 256 (by decide) _ (toNat_lt_256 b)]
  intro hne hzero
  rw [getLast_map] at hzero
  have hb : b ≠ [] := by simpa using hne
  exact hlast ((List.getLast?_eq_some_getLast hb).trans (congrArg some (UInt8.toNat_inj.mp hzero)))

/-- The loop of `serialize` gives the bytes of the number, without zeros at the end. -/
theorem absBytes_spec (h : n < 256 ^ fuel) :
    (absBytes fuel n).leValue = n ∧ (absBytes fuel n).getLast? ≠ some 0 := by
  refine ⟨by rw [leValue_eq_ofDigits, map_absBytes h, ofDigits_digits], fun hlast => ?_⟩
  have hdigits :
    (Nat.digits 256 n).getLast? = some 0 := by rw [← map_absBytes h, List.getLast?_map, hlast]; rfl
  rcases eq_or_ne n 0 with rfl | hne
  · simp at hdigits
  · rw [List.getLast?_eq_some_getLast (Nat.digits_ne_nil_iff_ne_zero.mpr hne)] at hdigits
    exact getLast_digit_ne_zero 256 hne (Option.some.inj hdigits)

/-! ## Numbers -/

def signed (negative : Bool) (magnitude : Nat) : Int := if negative then -magnitude else magnitude

def signMagnitude (v : Bytes) : Int :=
  match v.getLast? with
  | none => 0
  | some back => signed (128 ≤ back.toNat) (Bytes.leValue (v.dropLast ++ [back &&& 0x7f]))

/-- No byte can be left out: the last byte is needed for the magnitude, or for the sign alone. -/
def Minimal (v : Bytes) : Prop :=
  ∀ back ∈ v.getLast?, back.toNat % 128 = 0 → ∃ d ∈ v.dropLast.getLast?, 128 ≤ d.toNat

theorem minimal_concat {init : Bytes} {back : UInt8} : Minimal (init ++ [back]) ↔
    (back.toNat % 128 = 0 → ∃ d ∈ init.getLast?, 128 ≤ d.toNat) := by
  simp [Minimal]

theorem signMagnitude_concat (init : Bytes) (back : UInt8) :
    signMagnitude (init ++ [back]) = signed (128 ≤ back.toNat)
    (Bytes.leValue (init ++ [back &&& 0x7f])) := by
  simp [signMagnitude]

/-- The magnitude is what is left without the sign bit. -/
theorem magnitude_concat (init : Bytes) (back : UInt8) : Bytes.leValue (init ++ [back &&& 0x7f])
    = Bytes.leValue (init ++ [back]) - if 128 ≤ back.toNat then 0x80 <<< (8 * init.length)
    else 0 := by
  have hback := back.toNat_lt
  have hshift : 0x80 <<< (8 * init.length) = 256 ^ init.length * 128 := by
    rw [shiftLeft_eq, pow_mul, mul_comm]
    norm_num
  rw [leValue_concat, leValue_concat, toNat_and_7f, hshift]
  split
  · next hsign =>
    obtain ⟨n, hn⟩ := Nat.exists_eq_add_of_le hsign
    rw [hn, show (128 + n) % 128 = n by omega, mul_add]
    omega
  · next hsign => rw [Nat.mod_eq_of_lt (Nat.not_le.mp hsign), Nat.sub_zero]

variable {v r : Bytes} {nMaxNumSize : Nat} {x : Int}

/-- `CScriptNum(vch, fRequireMinimal, nMaxNumSize)`, for the sizes that it takes. -/
theorem scriptNum_eq (fRequireMinimal : Bool) (hlength : v.length ≤ nMaxNumSize) (x : Int) :
    scriptNum v fRequireMinimal nMaxNumSize = some x ↔ (fRequireMinimal = true → Minimal v) ∧
    signMagnitude v = x := by
  rw [scriptNum, if_neg (Nat.not_lt.mpr hlength)]
  rcases eq_nil_or_concat v with rfl | ⟨init, back, rfl⟩
  · simp [Minimal, signMagnitude]
  have hminimal :
      Minimal (init ++ [back]) ↔ ¬ (back &&& 0x7f == 0 && ((init ++ [back]).length ≤ 1 ||
      (init ++ [back]).getD ((init ++ [back]).length - 2) 0 &&& 0x80 == 0)) := by
    have hzero :
      back &&& 0x7f = 0 ↔ back.toNat % 128 = 0 := by rw [← toNat_and_7f, ← UInt8.toNat_inj]; rfl
    rw [minimal_concat]
    rcases eq_nil_or_concat init with rfl | ⟨init, d, rfl⟩
    · simp [hzero]
    · simp [hzero, ← sign_bit]
  have hvalue : (if back &&& 0x80 ≠ 0 then
      some (-((Bytes.leValue (init ++ [back]) - (0x80 <<< (8 * ((init ++ [back]).length - 1))) :
      Nat) : Int))
      else some (Bytes.leValue (init ++ [back]) : Int)) =
      some (signMagnitude (init ++ [back])) := by
    rw [signMagnitude_concat, magnitude_concat]
    by_cases hsign : 128 ≤ back.toNat
    · simp [sign_bit, hsign, signed]
    · simp [sign_bit, hsign, signed]
  rw [concat_eq_append]
  simp only [List.getLast?_append, List.getLast?_singleton, some_or, hvalue, hminimal]
  cases fRequireMinimal with
  | false => simp
  | true => simp

theorem length_le_of_scriptNum {fRequireMinimal : Bool}
    (h : scriptNum v fRequireMinimal nMaxNumSize = some x) : v.length ≤ nMaxNumSize := by
  by_contra hlong
  rw [scriptNum, if_pos (Nat.not_le.mp hlong)] at h
  cases h

theorem natAbs_signMagnitude_lt (v : Bytes) :
    (signMagnitude v).natAbs < 2 ^ (8 * v.length - 1) := by
  rcases eq_nil_or_concat v with rfl | ⟨init, back, rfl⟩
  · decide
  · have hinit : Bytes.leValue init < 256 ^ init.length := leValue_lt init
    have hback : 256 ^ init.length * (back.toNat % 128) ≤ 256 ^ init.length * 127 :=
      mul_le_mul_left _ (by omega)
    have hpow : 2 ^ (8 * (init ++ [back]).length - 1) = 256 ^ init.length * 128 := by
      rw [length_append, length_singleton, show 8 * (init.length + 1) - 1 =
        8 * init.length + 7 by omega, pow_add, pow_mul]
      norm_num
    have habs : (signMagnitude (init ++ [back])).natAbs =
        Bytes.leValue init + 256 ^ init.length * (back.toNat % 128) := by
      rw [signMagnitude_concat, leValue_concat, toNat_and_7f, signed]
      split
      · exact (Int.natAbs_neg _).trans (Int.natAbs_natCast _)
      · exact Int.natAbs_natCast _
    rw [concat_eq_append, habs, hpow]
    omega

/-- The end of `serialize`: the sign is put into the last byte, or into a byte of its own. -/
def withSign (negative : Bool) (result : Bytes) : Bytes :=
  match result.getLast? with
  | none => []
  | some back =>
    if back &&& 0x80 ≠ 0 then result ++ [if negative then 0x80 else 0]
    else if negative then result.dropLast ++ [back ||| 0x80]
    else result

theorem serialize_eq (x : Int) : scriptNumSerialize x = withSign (x < 0) (absBytes 8 x.natAbs) := by
  rw [scriptNumSerialize, withSign]
  cases List.getLast? (absBytes 8 x.natAbs) with
  | none => rfl
  | some back => simp only [decide_eq_true_eq]

theorem leValue_ne_zero (hlast : r.getLast? ≠ some 0) (hne : r ≠ []) : r.leValue ≠ 0 := by
  intro hzero
  have hbytes := absBytes_leValue (le_refl _) hlast
  rw [hzero] at hbytes
  exact hne (hbytes.symm.trans (by cases r <;> rfl))

theorem withSign_spec {negative : Bool} (hlast : r.getLast? ≠ some 0) (hne : r ≠ []) :
    Minimal (withSign negative r) ∧ signMagnitude (withSign negative r) =
      signed negative r.leValue := by
  obtain ⟨init, back, rfl⟩ := (eq_nil_or_concat r).resolve_left hne
  rw [concat_eq_append] at hlast hne ⊢
  have hback : back.toNat ≠ 0 := fun hzero => hlast (by simp [← UInt8.toNat_inj, hzero])
  have hunsigned : back.toNat < 128 → back &&& 0x7f = back := fun hlt =>
    UInt8.toNat_inj.mp (by rw [toNat_and_7f, mod_eq_of_lt hlt])
  have heq : withSign negative (init ++ [back]) = if 128 ≤
      back.toNat then init ++ [back] ++ [if negative then 0x80 else 0]
      else if negative then init ++ [back ||| 0x80] else init ++ [back] := by
    simp [withSign, sign_bit]
  rw [heq]
  split
  · next hsign =>
    refine ⟨minimal_concat.mpr fun _ => ⟨back, by simp, hsign⟩, ?_⟩
    have hbyte : (if negative then 0x80 else 0 : UInt8).toNat % 128 = 0 := by cases negative <;> rfl
    have hnegative : decide (128 ≤ (if negative then 0x80 else 0 : UInt8).toNat) =
      negative := by cases negative <;> rfl
    rw [signMagnitude_concat, leValue_concat, toNat_and_7f, hbyte, mul_zero, add_zero, hnegative]
  · next hsign =>
    have hlt := Nat.not_le.mp hsign
    cases negative with
    | true =>
      have hnat := toNat_or_80 hlt
      have hclear : (back ||| 0x80) &&& 0x7f = back :=
        UInt8.toNat_inj.mp (by rw [toNat_and_7f, hnat]; omega)
      refine ⟨minimal_concat.mpr fun hzero => by omega, ?_⟩
      rw [if_pos rfl, signMagnitude_concat, hclear, hnat, decide_eq_true (le_add_right 128 _)]
    | false =>
      refine ⟨minimal_concat.mpr fun hzero => by omega, ?_⟩
      rw [if_neg Bool.false_ne_true, signMagnitude_concat, hunsigned hlt, decide_eq_false hsign]

/-- Minimal bytes are a magnitude without zeros at the end and a sign. -/
theorem exists_withSign (hminimal : Minimal v) (hne : v ≠ []) :
    ∃ negative r, v = withSign negative r ∧ r.getLast? ≠ some 0 ∧ r ≠ [] ∧ r.length ≤ v.length := by
  obtain ⟨init, back, rfl⟩ := (eq_nil_or_concat v).resolve_left hne
  rw [concat_eq_append] at hminimal ⊢
  have hback := back.toNat_lt
  refine ⟨128 ≤ back.toNat, ?_⟩
  rcases eq_or_ne (back.toNat % 128) 0 with hzero | hmagnitude
  · obtain ⟨d, hd, hsign⟩ := minimal_concat.mp hminimal hzero
    refine ⟨init, ?_, ?_, fun hinit => (by rw [hinit] at hd; cases hd), by simp⟩
    · have hbyte : back = if 128 ≤ back.toNat then 0x80 else 0 := by
        split
        · exact UInt8.toNat_inj.mp (show back.toNat = 128 by omega)
        · exact UInt8.toNat_inj.mp (show back.toNat = 0 by omega)
      rw [withSign, Option.mem_def.mp hd]
      simp only [sign_bit, if_pos hsign, decide_eq_true_eq]
      rw [← hbyte]
    · rw [Option.mem_def.mp hd]
      rintro ⟨⟩
      cases hsign
  · have hclear := toNat_and_7f back
    refine ⟨init ++ [back &&& 0x7f], ?_, ?_, by simp, by simp⟩
    · have hunsigned : ¬ 128 ≤ (back &&& 0x7f).toNat := by omega
      simp only [withSign, List.getLast?_append, List.getLast?_singleton, some_or, sign_bit,
        if_neg hunsigned, dropLast_concat, decide_eq_true_eq]
      split
      · refine congrArg (init ++ [·]) (UInt8.toNat_inj.mp ?_)
        rw [toNat_or_80 (Nat.not_le.mp hunsigned)]
        omega
      · refine congrArg (init ++ [·]) (UInt8.toNat_inj.mp ?_)
        omega
    · simp only [List.getLast?_append, List.getLast?_singleton, some_or]
      intro heq
      rw [Option.some.inj heq] at hclear
      exact hmagnitude hclear.symm

/-- `serialize` gives minimal bytes with the same value. -/
theorem signMagnitude_serialize (hx : x.natAbs < 2 ^ 64) :
    Minimal (scriptNumSerialize x) ∧ signMagnitude (scriptNumSerialize x) = x := by
  obtain ⟨hvalue, hlast⟩ := absBytes_spec (show x.natAbs < 256 ^ 8 from hx)
  rw [serialize_eq]
  rcases eq_or_ne x 0 with rfl | hne
  · exact ⟨by simp [Minimal, withSign, absBytes], rfl⟩
  · obtain ⟨hminimal, hsign⟩ := withSign_spec hlast (fun hnil => by
      rw [hnil] at hvalue
      exact hne (Int.natAbs_eq_zero.mp hvalue.symm))
    refine ⟨hminimal, ?_⟩
    rw [hsign, hvalue]
    simp only [signed, decide_eq_true_eq]
    omega

theorem serialize_signMagnitude (hminimal : Minimal v) (hlength : v.length ≤ 8) :
    scriptNumSerialize (signMagnitude v) = v := by
  rcases eq_or_ne v [] with rfl | hne
  · rfl
  · obtain ⟨negative, r, rfl, hlast, hr, hle⟩ := exists_withSign hminimal hne
    have hpos := leValue_ne_zero hlast hr
    have hsign : decide (signed negative r.leValue < 0) = negative := by
      cases negative <;> simp [signed, hpos, pos_of_ne_zero]
    have habs : (signed negative r.leValue).natAbs = r.leValue := by
      cases negative <;> simp [signed]
    rw [(withSign_spec hlast hr).2, serialize_eq, hsign, habs,
      absBytes_leValue (le_trans hle hlength) hlast]

theorem length_serialize_le (x : Int) : (scriptNumSerialize x).length ≤ 9 := by
  have hbytes (fuel n : Nat) : (absBytes fuel n).length ≤ fuel := by
    induction fuel generalizing n with
    | zero => exact le_refl _
    | succ fuel ih =>
      rw [absBytes]
      split
      · exact zero_le _
      · exact succ_le_succ (ih _)
  have hle := hbytes 8 x.natAbs
  rw [serialize_eq, withSign]
  split
  · exact zero_le _
  · split_ifs <;> simp <;> omega

/-! ## Pushes -/

/-- The opcode that `operator<<` writes for a byte vector. -/
def pushOpcode (b : Bytes) : UInt8 :=
  if b.length < 0x4c then UInt8.ofNat b.length
  else if b.length ≤ 0xff then OpcodeType.opPushdata1.toByte
  else if b.length ≤ 0xffff then OpcodeType.opPushdata2.toByte
  else OpcodeType.opPushdata4.toByte

theorem getScriptOp_sized {opcode : UInt8} (hle : opcode ≤ OpcodeType.opPushdata4.toByte)
    (hwidth : pushSizeWidth opcode ≠ 0)
    (hlength : b.length < 256 ^ pushSizeWidth opcode) {rest : Bytes} :
    getScriptOp ((opcode :: leBytes (pushSizeWidth opcode) b.length) ++ b ++ rest) =
      some (opcode, b, rest) := by
  have hsize : pushSize opcode (leBytes (pushSizeWidth opcode) b.length ++ (b ++ rest)) =
      some (b.length, b ++ rest) := by
    have hbytes := length_leBytes (pushSizeWidth opcode) b.length
    have hlong : ¬ (leBytes (pushSizeWidth opcode) b.length ++ (b ++ rest)).length <
        pushSizeWidth opcode := by
      rw [length_append, hbytes]
      omega
    simp only [pushSize, if_neg hwidth, if_neg hlong]
    rw [take_left' hbytes, drop_left' hbytes, leValue_leBytes, mod_eq_of_lt hlength]
  rw [cons_append, cons_append, append_assoc, getScriptOp, if_pos hle, hsize]
  simp only [bind_eq_bind, bind_some, take_left, drop_left, length_append]
  rw [if_neg (by omega)]

theorem getScriptOp_pushData (h : b.length < 2 ^ 32) (rest : Bytes) :
    getScriptOp (pushData b ++ rest) = some (pushOpcode b, b, rest) := by
  by_cases hshort : b.length < 0x4c
  · rw [getScriptOp_pushData_short hshort, pushOpcode, if_pos hshort]
  · rw [pushData, pushOpcode, if_neg hshort, if_neg hshort]
    split_ifs with hone htwo
    · exact getScriptOp_sized (by decide) (by decide) (lt_succ_of_le hone)
    · exact getScriptOp_sized (by decide) (by decide) (lt_succ_of_le htwo)
    · exact getScriptOp_sized (by decide) (by decide) h

/-- What is appended to a script, by the two forms of `operator<<`. -/
inductive Item where
  | int (n : Int)
  | bytes (b : Bytes)

namespace Item

def append : Item → CScript
  | int n => pushInt64 n
  | bytes b => pushData b

/-- The operation that is to be read back. -/
def op : Item → UInt8 × Bytes
  | int n =>
    if n = -1 ∨ (n ≥ 1 ∧ n ≤ 16) then (UInt8.ofNat (n + 0x50).toNat, [])
    else (pushOpcode (scriptNumSerialize n), scriptNumSerialize n)
  | bytes b => (pushOpcode b, b)

/-- The types of the source. -/
def Valid : Item → Prop
  | int n => IsInt64 n
  | bytes b => b.length < 2 ^ 32

instance : ∀ item : Item, Decidable item.Valid
  | int n => inferInstanceAs (Decidable (-2 ^ 63 ≤ n ∧ n < 2 ^ 63))
  | bytes b => inferInstanceAs (Decidable (b.length < 2 ^ 32))

theorem getScriptOp_append {item : Item} (h : item.Valid) (rest : Bytes) :
    getScriptOp (item.append ++ rest) = some (item.op.1, item.op.2, rest) := by
  cases item with
  | bytes b => exact getScriptOp_pushData h rest
  | int n =>
    simp only [append, op, pushInt64]
    split
    · next hsmall =>
      have hnat : (UInt8.ofNat (n + 0x50).toNat).toNat = (n + 0x50).toNat :=
        UInt8.toNat_ofNat_of_lt (show (n + 0x50).toNat < 256 by omega)
      have hnot : ¬ UInt8.ofNat (n + 0x50).toNat ≤ OpcodeType.opPushdata4.toByte := by
        rw [UInt8.le_iff_toNat_le, hnat, show OpcodeType.opPushdata4.toByte.toNat = 78 from rfl]
        omega
      rw [singleton_append, getScriptOp, if_neg hnot]
    · next hlarge =>
      have hlength : (scriptNumSerialize n).length < 2 ^ 32 :=
        lt_of_le_of_lt (length_serialize_le n) (by decide)
      rw [← getScriptOp_pushData hlength]
      split
      · next hzero =>
        rw [hzero]
        rfl
      · rfl

/-- `CheckMinimalPush` accepts the pushes of integers. It is not asked for `OP_1NEGATE` and `OP_1`
to `OP_16`. -/
theorem checkMinimalPush_int {n : Int} (hn : IsInt64 n) :
    n = -1 ∨ (1 ≤ n ∧ n ≤ 16) ∨ checkMinimalPush (op (int n)).2 (op (int n)).1 = true := by
  by_cases hsmall : n = -1 ∨ (n ≥ 1 ∧ n ≤ 16)
  · exact hsmall.imp_right .inl
  refine .inr (.inr ?_)
  have hvalue := (signMagnitude_serialize (x := n) (by have := hn.1; have := hn.2; omega)).2
  have hlength := length_serialize_le n
  rw [op, if_neg hsmall]
  generalize scriptNumSerialize n = data at hvalue hlength
  have hopcode : pushOpcode data = UInt8.ofNat data.length := if_pos (by omega)
  rw [hopcode]
  cases data with
  | nil => rfl
  | cons byte data =>
    cases data with
    | nil =>
      have hone : ¬ (byte ≥ 1 ∧ byte ≤ 16) := by
        rintro ⟨hlow, hhigh⟩
        have hlow : 1 ≤ byte.toNat := UInt8.le_iff_toNat_le.mp hlow
        have hhigh : byte.toNat ≤ 16 := UInt8.le_iff_toNat_le.mp hhigh
        have hbyte := signMagnitude_concat [] byte
        rw [leValue_concat, toNat_and_7f, decide_eq_false (by omega)] at hbyte
        have hnat : n = byte.toNat := by
          simpa [signed, Bytes.leValue, mod_eq_of_lt (show byte.toNat < 128 by omega), hvalue]
            using hbyte
        omega
      have hnegate : byte ≠ 0x81 := by
        rintro rfl
        exact hsmall (.inl (hvalue.symm.trans (by decide)))
      simp [checkMinimalPush, hone, hnegate]
    | cons byte' data =>
      have hsize : (byte :: byte' :: data).length ≤ 75 := by omega
      have hnat : (UInt8.ofNat (byte :: byte' :: data).length).toNat =
        (byte :: byte' :: data).length := UInt8.toNat_ofNat_of_lt (lt_of_le_of_lt hsize (by decide))
      simp only [checkMinimalPush, if_pos hsize, hnat, decide_true]

end Item

/-! ## Scripts of any size -/

/-- `end - pc`: the differences of `prevector` are of type `int32_t`. -/
def distance (pc : Bytes) : Int := (BitVec.ofNat 32 pc.length).toInt

/-- `GetScriptOp` with these differences. -/
def getScriptOpInt32 : Bytes → Option (UInt8 × Bytes × Bytes)
  | [] => none
  | opcode :: pc =>
    if distance (opcode :: pc) < 1 then none
    else if opcode ≤ OpcodeType.opPushdata4.toByte then
      let width := pushSizeWidth opcode
      if width ≠ 0 ∧ distance pc < width then none
      else
        let nSize := if width = 0 then opcode.toNat else Bytes.leValue (pc.take width)
        let pc := pc.drop width
        if distance pc < 0 ∨ (distance pc).toNat < nSize then none
        else some (opcode, pc.take nSize, pc.drop nSize)
    else some (opcode, [], pc)

variable {pc : Bytes}

theorem distance_eq (h : pc.length < 2 ^ 31) : distance pc = pc.length := by
  rw [distance, BitVec.toInt_eq_toNat_of_lt (by rw [BitVec.toNat_ofNat]; omega), BitVec.toNat_ofNat,
    mod_eq_of_lt (by omega)]

theorem distance_neg (h : 2 ^ 31 ≤ pc.length) (hsize : pc.length < 2 ^ 32) : distance pc < 0 := by
  rw [distance, BitVec.toInt_eq_toNat_cond, BitVec.toNat_ofNat, mod_eq_of_lt hsize,
    if_neg (by omega)]
  omega

/-- Below `2 ^ 31` bytes the differences are the lengths. -/
theorem getScriptOpInt32_eq (h : pc.length < 2 ^ 31) : getScriptOpInt32 pc = getScriptOp pc := by
  cases pc with
  | nil => rfl
  | cons opcode pc =>
    have hpc : pc.length < 2 ^ 31 := lt_of_succ_lt h
    have hdrop (n : Nat) : distance (pc.drop n) = ((pc.drop n).length : Nat) :=
      distance_eq (by rw [length_drop]; omega)
    have hnonneg (n : Nat) : ¬(n : Int) < 0 := Int.not_lt.mpr (Int.natCast_nonneg n)
    have hpos : ¬((opcode :: pc).length : Int) < 1 := by
      rw [length_cons]
      omega
    simp only [getScriptOpInt32, distance_eq h, if_neg hpos, distance_eq hpc, hdrop, getScriptOp,
      pushSize, Int.toNat_natCast]
    split
    · by_cases hwidth : pushSizeWidth opcode = 0
      · simp [hwidth, hnonneg]
      · by_cases hshort : pc.length < pushSizeWidth opcode
        · simp [hwidth, hshort]
        · simp [hwidth, hshort, hnonneg]
    · rfl

namespace Item

def readOps : Nat → CScript → Option (List (UInt8 × Bytes))
  | 0, pc => if pc = [] then some [] else none
  | fuel + 1, pc =>
    if pc = [] then some []
    else do
      let (opcode, data, rest) ← getScriptOpInt32 pc
      let ops ← readOps fuel rest
      some ((opcode, data) :: ops)

theorem readOps_append {items : List Item} (h : ∀ item ∈ items, item.Valid)
    (hfuel : (items.flatMap append).length ≤ fuel)
    (hsize : (items.flatMap append).length < 2 ^ 31) :
    readOps fuel (items.flatMap append) = some (items.map op) := by
  induction items generalizing fuel with
  | nil => cases fuel <;> rfl
  | cons item items ih =>
    obtain ⟨hitem, hitems⟩ := List.forall_mem_cons.mp h
    have hop := getScriptOp_append hitem (items.flatMap append)
    have hlength := length_getScriptOp hop
    rw [flatMap_cons] at hfuel hsize ⊢
    obtain ⟨fuel, rfl⟩ : ∃ n, fuel = n + 1 := ⟨fuel - 1, by omega⟩
    have hne : item.append ++ items.flatMap append ≠ [] :=
      fun hnil => by rw [hnil] at hop; cases hop
    rw [readOps, if_neg hne, getScriptOpInt32_eq hsize, hop]
    simp only [bind_eq_bind, bind_some]
    rw [ih hitems (by omega) (by omega)]
    rfl

/-- From `2 ^ 31` bytes on the first difference is negative, and nothing is read. -/
theorem readOps_of_long {pc : CScript} (h : 2 ^ 31 ≤ pc.length) (hsize : pc.length < 2 ^ 32)
    (fuel : Nat) : readOps fuel pc = none := by
  cases pc with
  | nil => cases not_succ_le_zero _ h
  | cons opcode pc =>
    cases fuel with
    | zero => rfl
    | succ fuel =>
      have hop : getScriptOpInt32 (opcode :: pc) = none :=
        if_pos ((distance_neg h hsize).trans Int.zero_lt_one)
      rw [readOps, if_neg (cons_ne_nil _ _), hop]
      rfl

end Item

open Item

/-- Numbers and pushes have one encoding: what is accepted is what `serialize` gives, and the
operations of a script of less than `2 ^ 31` bytes are the items that were appended. -/
theorem encodings_canonical :
    (∀ v : Bytes, v.length ≤ 8 →
      ((∃ x, scriptNum v true 8 = some x) ↔ v = scriptNumSerialize (signMagnitude v)) ∧
        ∀ x, scriptNum v true 8 = some x → x = signMagnitude v) ∧
    (∀ x y, IsInt64 x → IsInt64 y → scriptNumSerialize x = scriptNumSerialize y → x = y) ∧
    ∀ items : List Item, (∀ item ∈ items, item.Valid) →
      ((items.flatMap append).length < 2 ^ 31 →
        readOps (items.flatMap append).length (items.flatMap append) = some (items.map op)) ∧
        ∀ n, int n ∈ items → n = -1 ∨ (1 ≤ n ∧ n ≤ 16) ∨
          checkMinimalPush (op (int n)).2 (op (int n)).1 = true := by
  have hvalue {x : Int} (hx : IsInt64 x) :=
    signMagnitude_serialize (x := x) (by have := hx.1; have := hx.2; omega)
  refine ⟨fun v hv => ⟨⟨?_, fun heq => ?_⟩, fun x hx => ?_⟩, fun x y hx hy heq => ?_,
    fun items hitems => ?_⟩
  · rintro ⟨x, hx⟩
    exact (serialize_signMagnitude (((scriptNum_eq true hv x).mp hx).1 rfl) hv).symm
  · refine ⟨signMagnitude v, (scriptNum_eq true hv _).mpr ⟨fun _ => ?_, rfl⟩⟩
    rw [heq]
    exact (signMagnitude_serialize (Nat.lt_of_lt_of_le (natAbs_signMagnitude_lt v)
      (Nat.pow_le_pow_right (by decide) (show 8 * v.length - 1 ≤ 64 by omega)))).1
  · exact (((scriptNum_eq true hv x).mp hx).2).symm
  · rw [← (hvalue hx).2, heq, (hvalue hy).2]
  · exact ⟨readOps_append hitems (le_refl _), fun n hn => checkMinimalPush_int (hitems _ hn)⟩

/-- A number of two bytes, an opcode and a push. -/
theorem encodings_canonical_items :
    readOps 6 ([int 1000, int 16, bytes [7]].flatMap append) =
      some ([int 1000, int 16, bytes [7]].map op) :=
  (encodings_canonical.2.2 [int 1000, int 16, bytes [7]] (by decide)).1 (by decide)

/-- A push of `2 ^ 31` bytes is not read back. -/
theorem long_push_unreadable : ∃ b : Bytes, (bytes b).Valid ∧
    readOps ([bytes b].flatMap append).length ([bytes b].flatMap append) ≠
      some ([bytes b].map op) := by
  obtain ⟨b, hlength⟩ : ∃ b : Bytes, b.length = 2 ^ 31 :=
    ⟨List.replicate (2 ^ 31) 0, length_replicate⟩
  have hsize : ([bytes b].flatMap append).length = 2 ^ 31 + 5 := by
    simp [append, pushData, hlength, length_leBytes]
  refine ⟨b, ?_, ?_⟩
  · rw [Valid, hlength]
    decide
  · rw [readOps_of_long (by omega) (by omega)]
    exact (some_ne_none _).symm

end ScriptNum

end Bitcoboost
