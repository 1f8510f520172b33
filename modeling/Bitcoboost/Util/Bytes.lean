import Mathlib.Data.List.Basic

/-!
# Byte strings

`std::vector<unsigned char>`, `std::string` and the bytes of a `CScript` are
lists of bytes. The fixed-size `base_blob` classes (`uint160`, `uint256`) are
byte lists of a fixed length.
-/

namespace Bitcoboost

/-- `std::vector<unsigned char>` and `std::string`. -/
abbrev Bytes := List UInt8

/-- The bytes of a string literal of the source. -/
def Bytes.ofString (s : String) : Bytes := s.toList.map fun c => UInt8.ofNat c.toNat

/-- The number that bytes encode, the first byte lowest. -/
def Bytes.leValue (b : Bytes) : Nat := b.foldr (fun x acc => x.toNat + 256 * acc) 0

/-- What holds for the 256 bytes holds for a byte. -/
theorem forall_uint8 {p : UInt8 → Prop} (h : ∀ n : Fin 256, p (UInt8.ofFin n)) (c : UInt8) :
    p c := h c.toFin

theorem toNat_lt_256 (input : Bytes) : ∀ d ∈ input.map UInt8.toNat, d < 256 := by
  intro d hd
  obtain ⟨c, _, rfl⟩ := List.mem_map.mp hd
  exact c.toNat_lt

theorem map_toNat_dropWhile (input : Bytes) :
    (input.dropWhile (· = 0)).map UInt8.toNat = (input.map UInt8.toNat).dropWhile (· = 0) := by
  have hzero :
      (fun c : UInt8 => decide (c = 0)) = (fun n : Nat => decide (n = 0)) ∘ UInt8.toNat := by
    funext c
    simp [← UInt8.toNat_inj]
  rw [List.dropWhile_map, hzero]

/-- `base_blob`: `n` opaque bytes. -/
structure BaseBlob (n : Nat) where
  data : Bytes
  length_data : data.length = n
deriving DecidableEq, Repr

theorem BaseBlob.ext {n : Nat} {a b : BaseBlob n} (h : a.data = b.data) : a = b := by
  obtain ⟨data, _⟩ := a
  cases h
  rfl

abbrev Uint160 := BaseBlob 20

abbrev Uint256 := BaseBlob 32

/-- `uint256()`, all bytes zero. -/
def nullUint256 : Uint256 := ⟨List.replicate 32 0, by simp⟩

/-- The blob whose bytes are `data`, if there are as many as it holds. -/
def BaseBlob.ofBytes? (n : Nat) (data : Bytes) : Option (BaseBlob n) :=
  if h : data.length = n then some ⟨data, h⟩ else none

/-- `uint256S` of a hex literal: the lowest byte of the number comes first. -/
def uint256S (n : Nat) : Uint256 :=
  ⟨(List.range 32).map fun i => UInt8.ofNat (n >>> (8 * i)), by simp⟩

end Bitcoboost
