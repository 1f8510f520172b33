import Bitcoboost.Encoding.Bech32

/-!
# Error location in Bech32 strings

`bech32::LocateErrors` takes a string that `Decode` refuses and guesses which
characters are wrong. Up to two wrong characters are found from the syndromes of
the residue, computed in GF(1024) with tables of powers and discrete logarithms.
-/

namespace Bitcoboost.Bech32

/-! ## Tables -/

/-- A table of powers, a table of logarithms and the last power, as
`GenerateGFTables` builds them for GF(32) and GF(1024). -/
structure GFTables where
  exp : Array Nat
  log : Array Int
  v : Nat

/-- The tables before the loop, for a field of `size` elements. -/
def GFTables.init (size : Nat) : GFTables where
  exp := (Array.replicate (size - 1) 0).setIfInBounds 0 1
  log := ((Array.replicate size 0).setIfInBounds 0 (-1)).setIfInBounds 1 0
  v := 1

def GFTables.enter (t : GFTables) (i v : Nat) : GFTables where
  exp := t.exp.setIfInBounds i v
  log := t.log.setIfInBounds v i
  v := v

/-- The tables of GF(32): multiplication by `x` modulo `x ^ 5 + x ^ 3 + 1`. -/
def gf32 : GFTables :=
  (List.range' 1 30).foldl (fun t i =>
    let v := t.v <<< 1
    t.enter i (if v &&& 32 ≠ 0 then v ^^^ 41 else v)) (.init 32)

/-- The product of a nonzero element and `c` in GF(32), and zero for zero. -/
def gf32Mul (a c : Nat) : Nat :=
  if a ≠ 0 then gf32.exp.getD ((gf32.log.getD a 0 + gf32.log.getD c 0).toNat % 31) 0 else 0

/-- The tables of GF(1024): multiplication by `e`, a root of `x ^ 2 + 9 x + 23`. -/
def gf1024 : GFTables :=
  (List.range' 1 1022).foldl (fun t i =>
    let v0 := t.v &&& 31
    let v1 := t.v >>> 5
    t.enter i (((gf32Mul v1 9 ^^^ v0) <<< 5) ||| gf32Mul v1 23)) (.init 1024)

def gf1024Exp (k : Nat) : Nat := gf1024.exp.getD k 0

def gf1024Log (v : Nat) : Int := gf1024.log.getD v 0

def syndromeConst (i : Nat) : BitVec 32 :=
  let k := i / 5 + 1
  let b := (gf1024Log (1 <<< (i % 5))).toNat
  let c0 := gf1024Exp ((997 * k + b) % 1023)
  let c1 := gf1024Exp ((998 * k + b) % 1023)
  let c2 := gf1024Exp ((999 * k + b) % 1023)
  BitVec.ofNat 32 ((c2 <<< 20) ||| (c1 <<< 10) ||| c0)

def syndrome (residue : BitVec 32) : BitVec 32 :=
  let low := residue &&& 0x1f#32
  (List.range 25).foldl (fun result i =>
    result ^^^ (if (residue >>> (5 + i)) &&& 1#32 ≠ 0#32 then syndromeConst i else 0#32))
    (low ^^^ (low <<< 10) ^^^ (low <<< 20))

/-! ## Locating -/

/-- The second error position for a guessed first one, with the checks of the loop
over `p1`; `none` is `continue`. -/
def secondError (length s0 s1 s2 p1 : Nat) : Option Nat := do
  let scaled (s p : Nat) : Nat := if s = 0 then 0 else gf1024Exp (((gf1024Log s).toNat + p) % 1023)
  let s2_s1p1 := s2 ^^^ scaled s1 p1
  if s2_s1p1 = 0 then none
  let s1_s0p1 := s1 ^^^ scaled s0 p1
  if s1_s0p1 = 0 then none
  let p2 := (gf1024Log s2_s1p1 - gf1024Log s1_s0p1 + 1023).toNat % 1023
  if p2 ≥ length ∨ p1 = p2 then none
  let s1_s0p2 := s1 ^^^ scaled s0 p2
  if s1_s0p2 = 0 then none
  let inv := 1023 - gf1024Log (gf1024Exp p1 ^^^ gf1024Exp p2)
  let l_e2 := gf1024Log s1_s0p1 + inv + (1023 - 997) * p2
  if l_e2.tmod 33 ≠ 0 then none
  let l_e1 := gf1024Log s1_s0p2 + inv + (1023 - 997) * p1
  if l_e1.tmod 33 ≠ 0 then none
  some p2

/-- `possible_errors` for a nonzero residue; `length` is that of the data part and
`size` that of the string. -/
def possibleErrors (length size : Nat) (residue : BitVec 32) : List Nat :=
  let syn := syndrome residue
  let s0 := (syn &&& 0x3ff#32).toNat
  let s1 := ((syn >>> 10) &&& 0x3ff#32).toNat
  let s2 := (syn >>> 20).toNat
  let l_s0 := gf1024Log s0
  let l_s1 := gf1024Log s1
  let l_s2 := gf1024Log s2
  if l_s0 ≠ -1 ∧ l_s1 ≠ -1 ∧ l_s2 ≠ -1 ∧ (2 * l_s1 - l_s2 - l_s0 + 2046).tmod 1023 = 0 then
    let p1 := (l_s1 - l_s0 + 1023).toNat % 1023
    let l_e1 := l_s0 + (1023 - 997) * p1
    if p1 < length ∧ l_e1.tmod 33 = 0 then [size - p1 - 1] else []
  else
    match (List.range length).findSome? fun p1 => (secondError length s0 s1 s2 p1).map fun p2 =>
      (p1, p2) with
    | none => []
    | some (p1, p2) => if p1 > p2 then [size - p1 - 1, size - p2 - 1]
        else [size - p2 - 1, size - p1 - 1]

def locateLoop (check : BitVec 32) (length size : Nat) :
    List (Encoding × BitVec 32) → Option Encoding → List Nat → Bytes × List Nat
  | [], errorEncoding, errorLocations =>
    (Bytes.ofString (match errorEncoding with
      | some .bech32m => "Invalid Bech32m checksum"
      | some .bech32 => "Invalid Bech32 checksum"
      | _ => "Invalid checksum"), errorLocations)
  | (encoding, const) :: rest, errorEncoding, errorLocations =>
    let residue := check ^^^ const
    if residue = 0#32 then ([], [])
    else
      let possible := possibleErrors length size residue
      if errorLocations = [] ∨ (possible ≠ [] ∧ possible.length < errorLocations.length) then
        locateLoop check length size rest (if possible ≠ [] then some encoding
          else errorEncoding) possible
      else locateLoop check length size rest errorEncoding errorLocations

def locateErrors (str : Bytes) : Bytes × List Nat :=
  if str.length > 90 then
    (Bytes.ofString "Bech32 string too long", List.range' 90 (str.length - 90))
  else if checkCharacters str ≠ [] then
    (Bytes.ofString "Invalid character or mixed case", checkCharacters str)
  else
    match rfind 0x31 str with
    | none => (Bytes.ofString "Missing separator", [])
    | some pos =>
      if pos = 0 ∨ pos + 7 > str.length then (Bytes.ofString "Invalid separator position", [pos])
      else
        let hrp := (str.take pos).map lowerCase
        let length := str.length - 1 - pos
        match (str.drop (pos + 1)).findIdx? fun c => rev c = none with
        | some i => (Bytes.ofString "Invalid Base 32 character", [pos + 1 + i])
        | none =>
          let values := (str.drop (pos + 1)).filterMap rev
          locateLoop (polyMod (expandHRP hrp ++ values)) length str.length
            [(.bech32, 1#32), (.bech32m, 0x2bc830a3#32)] none []

end Bitcoboost.Bech32
