import Bitcoboost.Util.Bytes
import Mathlib.Data.Nat.Bitwise

/-!
# The rolling bloom filter

`CRollingBloomFilter` of `common/bloom.cpp`. Each position of the filter has two bits that say in
which of three generations it was last set. After `nEntriesPerGeneration` insertions the next one
begins, and what is left of the last generation with its number is wiped.
-/

namespace Bitcoboost

open List

def fastRange32 (x n : BitVec 32) : BitVec 32 :=
  ((x.setWidth 64 * n.setWidth 64) >>> 32).setWidth 32

/-- The words `data[2 * i]` and `data[2 * i + 1]` are a pair. The counters are `int`s, which
stay in range unless `nEntriesPerGeneration` is zero. -/
structure CRollingBloomFilter where
  nEntriesPerGeneration : BitVec 32
  nEntriesThisGeneration : BitVec 32
  nGeneration : Nat
  data : List (BitVec 64 × BitVec 64)
  nTweak : BitVec 32
  nHashFuncs : Nat

namespace CRollingBloomFilter

/-- `nEntriesPerGeneration` of a filter for `nElements`. -/
def entriesPerGeneration (nElements : BitVec 32) : BitVec 32 := (nElements + 1) / 2

def reset (f : CRollingBloomFilter) (nTweak : BitVec 32) : CRollingBloomFilter :=
  { f with
    nTweak, nEntriesThisGeneration := 0, nGeneration := 1, data := f.data.map fun _ => (0, 0) }

def wipe (nGeneration : Nat) (p : BitVec 64 × BitVec 64) : BitVec 64 × BitVec 64 :=
  let nGenerationMask1 := 0#64 - BitVec.ofNat 64 (nGeneration &&& 1)
  let nGenerationMask2 := 0#64 - BitVec.ofNat 64 (nGeneration >>> 1)
  let mask := (p.1 ^^^ nGenerationMask1) ||| (p.2 ^^^ nGenerationMask2)
  (p.1 &&& mask, p.2 &&& mask)

/-- The number after `nGeneration`. -/
def nextGeneration (nGeneration : Nat) : Nat := if nGeneration + 1 = 4 then 1 else nGeneration + 1

/-- The start of `insert`: the next generation, if the current one is full. -/
def advance (f : CRollingBloomFilter) : CRollingBloomFilter :=
  if f.nEntriesThisGeneration = f.nEntriesPerGeneration then
    let nGeneration := nextGeneration f.nGeneration
    { f with nEntriesThisGeneration := 0, nGeneration, data := f.data.map (wipe nGeneration) }
  else f

def replaceBit (word : BitVec 64) (bit value : Nat) : BitVec 64 :=
  (word &&& ~~~(1#64 <<< bit)) ||| (BitVec.ofNat 64 value <<< bit)

/-- The number of the pair and of the bit for a hash. -/
def position (f : CRollingBloomFilter) (h : BitVec 32) : Nat × Nat :=
  ((fastRange32 h (BitVec.ofNat 32 (2 * f.data.length))).toNat / 2, (h &&& 0x3F).toNat)

/-- The body of the loop of `insert`. -/
def setPosition (f : CRollingBloomFilter) (h : BitVec 32) : CRollingBloomFilter :=
  let (i, bit) := f.position h
  { f with data := f.data.modify i fun p =>
      (replaceBit p.1 bit (f.nGeneration &&& 1), replaceBit p.2 bit (f.nGeneration >>> 1)) }

section
variable (murmurHash3 : BitVec 32 → Bytes → BitVec 32)

def hashes (f : CRollingBloomFilter) (vKey : Bytes) : List (BitVec 32) :=
  (List.range f.nHashFuncs).map fun n => murmurHash3
    (BitVec.ofNat 32 n * 0xFBA4C795 + f.nTweak) vKey

def insert (f : CRollingBloomFilter) (vKey : Bytes) : CRollingBloomFilter :=
  let f := f.advance
  let f := { f with nEntriesThisGeneration := f.nEntriesThisGeneration + 1 }
  (f.hashes murmurHash3 vKey).foldl setPosition f

def contains (f : CRollingBloomFilter) (vKey : Bytes) : Bool :=
  (f.hashes murmurHash3 vKey).all fun h =>
    let (i, bit) := f.position h
    let p := f.data.getD i (0, 0)
    ((p.1 ||| p.2) >>> bit) &&& 1 ≠ 0

/-- Insertions one after the other. -/
def insertAll (f : CRollingBloomFilter) (keys : List Bytes) : CRollingBloomFilter :=
  keys.foldl (insert murmurHash3) f

end

/-! ## Generations of positions -/

/-- The generation of a bit, 0 for a bit that is not set. -/
def gen (p : BitVec 64 × BitVec 64) (bit : Nat) : Nat :=
  (p.1.getLsbD bit).toNat + 2 * (p.2.getLsbD bit).toNat

/-- The generation of a position. -/
def genAt (f : CRollingBloomFilter) (q : Nat × Nat) : Nat := gen (f.data.getD q.1 (0, 0)) q.2

def IsGeneration (g : Nat) : Prop := g = 1 ∨ g = 2 ∨ g = 3

variable {f f' : CRollingBloomFilter} {g bit bit' v : Nat} {q : Nat × Nat}

theorem mask_bit (hv : v < 2) (hbit : bit < 64) :
    (0#64 - BitVec.ofNat 64 v).getLsbD bit = decide (v = 1) := by
  rcases (by omega : v = 0 ∨ v = 1) with rfl | rfl
  · simp
  · rw [show 0#64 - BitVec.ofNat 64 1 = BitVec.allOnes 64 from rfl, BitVec.getLsbD_allOnes]
    simpa using hbit

/-- Wiping a generation takes away the positions with its number. -/
theorem gen_wipe (hg : IsGeneration g) (p : BitVec 64 × BitVec 64) (hbit : bit < 64) :
    gen (wipe g p) bit = if gen p bit = g then 0 else gen p bit := by
  unfold gen wipe
  simp only [BitVec.getLsbD_and, BitVec.getLsbD_or, BitVec.getLsbD_xor]
  rcases hg with rfl | rfl | rfl <;> rw [mask_bit (by decide) hbit, mask_bit (by decide) hbit] <;>
    cases p.1.getLsbD bit <;> cases p.2.getLsbD bit <;> decide

theorem getLsbD_replaceBit (hv : v < 2) (word : BitVec 64) (hbit : bit < 64) (hbit' : bit' < 64) :
    (replaceBit word bit v).getLsbD bit' = if bit' = bit then decide (v = 1)
    else word.getLsbD bit' := by
  unfold replaceBit
  rcases lt_trichotomy bit' bit with hlt | rfl | hgt
  · simp [hlt, hlt.ne, hbit']
  · rcases (by omega : v = 0 ∨ v = 1) with rfl | rfl <;> simp [hbit]
  · obtain ⟨k, rfl⟩ := Nat.exists_eq_add_of_lt hgt
    rcases (by omega : v = 0 ∨ v = 1) with rfl | rfl <;>
      simp [hbit', show bit + k + 1 - bit = k + 1 by omega, show ¬bit + k + 1 = bit by omega]

/-- A position that is set has the current generation, and no other changes. -/
theorem gen_replaceBit (hg : IsGeneration g) (p : BitVec 64 × BitVec 64) (hbit : bit < 64)
    (hbit' : bit' < 64) :
    gen (replaceBit p.1 bit (g &&& 1), replaceBit p.2 bit (g >>> 1)) bit' = if bit' = bit then g
    else gen p bit' := by
  unfold gen
  rcases hg with rfl | rfl | rfl <;>
    rw [getLsbD_replaceBit (by decide) _ hbit hbit',
      getLsbD_replaceBit (by decide) _ hbit hbit'] <;> split <;> rfl

theorem IsGeneration.next (hg : IsGeneration g) :
    IsGeneration (nextGeneration g) ∧ nextGeneration g ≠ g ∧
    nextGeneration (nextGeneration g) ≠ g := by
  rcases hg with rfl | rfl | rfl <;> exact ⟨by unfold IsGeneration; decide, by decide, by decide⟩

theorem bit_or_eq (p : BitVec 64 × BitVec 64) :
    ((p.1 ||| p.2) >>> bit) &&& 1 ≠ 0 ↔ gen p bit ≠ 0 := by
  rw [show (1 : BitVec 64) = 1#64 from rfl, BitVec.and_one_eq_setWidth_ofBool_getLsbD,
    BitVec.getLsbD_ushiftRight, BitVec.getLsbD_or, Nat.add_zero, gen]
  cases p.1.getLsbD bit <;> cases p.2.getLsbD bit <;> decide

theorem position_lt (hdata : f.data ≠ []) (h : BitVec 32) :
    (f.position h).1 < f.data.length ∧ (f.position h).2 < 64 := by
  have hlength := List.length_pos_iff.mpr hdata
  have hpos : h.toNat * (2 * f.data.length % 2 ^ 32) / 2 ^ 32 < 2 * f.data.length := by
    rw [Nat.div_lt_iff_lt_mul (by decide), Nat.mul_comm]
    exact lt_of_le_of_lt (Nat.mul_le_mul_right _ (Nat.mod_le _ _))
      (Nat.mul_lt_mul_of_pos_left h.isLt (by omega))
  constructor
  · simp only [position, fastRange32, BitVec.toNat_setWidth, BitVec.toNat_ushiftRight,
      BitVec.toNat_mul, BitVec.toNat_ofNat, Nat.shiftRight_eq_div_pow]
    rw [Nat.mod_eq_of_lt (h.isLt.trans (by decide)),
      Nat.mod_eq_of_lt ((Nat.mod_lt _ (by decide)).trans (by decide))]
    omega
  · simp only [position, BitVec.toNat_and]
    exact lt_of_le_of_lt Nat.and_le_right (by decide)

structure SameShape (f f' : CRollingBloomFilter) : Prop where
  length : f'.data.length = f.data.length
  nTweak : f'.nTweak = f.nTweak
  nHashFuncs : f'.nHashFuncs = f.nHashFuncs
  nEntriesPerGeneration : f'.nEntriesPerGeneration = f.nEntriesPerGeneration

theorem SameShape.position (h : SameShape f f') : f'.position = f.position := by
  funext x
  rw [CRollingBloomFilter.position, CRollingBloomFilter.position, h.length]

theorem SameShape.hashes (h : SameShape f f') (murmurHash3 : BitVec 32 → Bytes → BitVec 32)
    (vKey : Bytes) : f'.hashes murmurHash3 vKey = f.hashes murmurHash3 vKey := by
  rw [CRollingBloomFilter.hashes, CRollingBloomFilter.hashes, h.nTweak, h.nHashFuncs]

theorem sameShape_setPosition (h : BitVec 32) : SameShape f (f.setPosition h) :=
  ⟨length_modify .., rfl, rfl, rfl⟩

theorem genAt_setPosition (hg : IsGeneration f.nGeneration) (hdata : f.data ≠ []) (h : BitVec 32)
    (hq : q.2 < 64) :
    (f.setPosition h).genAt q = if q = f.position h then f.nGeneration else f.genAt q := by
  obtain ⟨hi, hbit⟩ := position_lt hdata h
  obtain ⟨j, bit⟩ := q
  simp only [genAt, setPosition, getD_eq_getElem?_getD, List.getElem?_modify, Prod.ext_iff]
  by_cases hj : (f.position h).1 = j
  · subst hj
    rw [List.getElem?_eq_getElem hi]
    simp only [if_true, Option.map_eq_map, Option.map_some, Option.getD_some, true_and]
    exact gen_replaceBit hg _ hbit hq
  · cases f.data[j]? <;> simp [hj, Ne.symm hj]

theorem genAt_foldl (hg : IsGeneration f.nGeneration) (hdata : f.data ≠ []) (hs : List (BitVec 32))
    (hq : q.2 < 64) :
    SameShape f (hs.foldl setPosition f) ∧ (hs.foldl setPosition f).nGeneration = f.nGeneration ∧
      (hs.foldl setPosition f).nEntriesThisGeneration = f.nEntriesThisGeneration ∧
      (hs.foldl setPosition f).genAt q = if q ∈ hs.map f.position then f.nGeneration
        else f.genAt q := by
  induction hs generalizing f with
  | nil => exact ⟨⟨rfl, rfl, rfl, rfl⟩, rfl, rfl, by simp⟩
  | cons h hs ih =>
    have hshape := sameShape_setPosition (f := f) h
    obtain ⟨hsame, hgen, hentries, hat⟩ := @ih (f.setPosition h) hg
      (ne_nil_of_length_pos (hshape.length ▸ List.length_pos_iff.mpr hdata))
    rw [hshape.position, genAt_setPosition hg hdata h hq] at hat
    refine ⟨⟨hsame.1.trans hshape.1, hsame.2.trans hshape.2, hsame.3.trans hshape.3,
      hsame.4.trans hshape.4⟩, hgen, hentries, ?_⟩
    rw [foldl_cons, hat, map_cons]
    simp only [mem_cons, show (f.setPosition h).nGeneration = f.nGeneration from rfl]
    grind

/-! ## Recent keys -/

section
variable {murmurHash3 : BitVec 32 → Bytes → BitVec 32} {capacity n : Nat} {keys : List Bytes}

/-- The positions of the keys, the last one first: those of this generation of `n` entries
have its number, those of the generation before it do not have the next number, which is the
one that is wiped next, and those of the generation before that are set. -/
def Recent (murmurHash3 : BitVec 32 → Bytes → BitVec 32) (capacity : Nat)
    (f : CRollingBloomFilter) (n : Nat) (keys : List Bytes) : Prop :=
  ∀ i k, keys[i]? = some k → ∀ h ∈ f.hashes murmurHash3 k,
    (i < n → f.genAt (f.position h) = f.nGeneration) ∧
    (i < n + capacity → f.genAt (f.position h) ≠ 0 ∧
      f.genAt (f.position h) ≠ nextGeneration f.nGeneration) ∧
    (i < n + 2 * capacity → f.genAt (f.position h) ≠ 0)

/-- What holds between insertions. -/
structure Remembers (murmurHash3 : BitVec 32 → Bytes → BitVec 32) (capacity : Nat)
    (f : CRollingBloomFilter) (n : Nat) (keys : List Bytes) : Prop where
  generation : IsGeneration f.nGeneration
  data : f.data ≠ []
  full : BitVec.ofNat 32 capacity = f.nEntriesPerGeneration
  capacity_le : capacity ≤ 2 ^ 32
  entries : f.nEntriesThisGeneration = BitVec.ofNat 32 n
  le : n ≤ capacity
  first : n = 0 → keys = []
  recent : Recent murmurHash3 capacity f n keys

section

variable (h : Remembers murmurHash3 capacity f n keys)
include h

/-- A generation that is full gives way to the next one. -/
theorem Remembers.advance (hpos : 0 < capacity) :
    ∃ m < capacity, Recent murmurHash3 capacity f.advance m keys ∧
    IsGeneration f.advance.nGeneration ∧ SameShape f f.advance ∧
      f.advance.nEntriesThisGeneration = BitVec.ofNat 32 m := by
  have hcap := h.capacity_le
  have hle := h.le
  have hfull := h.full
  unfold CRollingBloomFilter.advance
  split
  · next heq =>
    obtain ⟨hnext, hne, hne'⟩ := h.generation.next
    refine ⟨0, hpos, fun i k hk x hx => ?_, hnext, ⟨length_map .., rfl, rfl, rfl⟩, rfl⟩
    -- the first generation of a filter without entries is over before it has begun
    have hn : n = capacity := by
      have hmod : n % 2 ^ 32 = capacity % 2 ^ 32 := by
        rw [h.entries, ← hfull] at heq
        simpa using congrArg BitVec.toNat heq
      have : n ≠ 0 := fun hzero => by simp [h.first hzero] at hk
      omega
    obtain ⟨hthis, hlast, _⟩ := h.recent i k hk x hx
    have hq := (position_lt h.data x).2
    have hshape : SameShape f { f with
        nEntriesThisGeneration := 0
        nGeneration := nextGeneration f.nGeneration
        data := f.data.map (wipe (nextGeneration f.nGeneration)) } := ⟨length_map .., rfl, rfl, rfl⟩
    have hat : genAt { f with
        nEntriesThisGeneration := 0
        nGeneration := nextGeneration f.nGeneration
        data := f.data.map (wipe (nextGeneration f.nGeneration)) } (f.position x)
        = if f.genAt (f.position x) = nextGeneration f.nGeneration then 0
          else f.genAt (f.position x) := by
      rw [genAt, genAt, getD_eq_getElem _ _ (by simpa using (position_lt h.data x).1),
        getD_eq_getElem _ _ (position_lt h.data x).1, getElem_map, gen_wipe hnext _ hq]
    rw [hshape.position, hat]
    grind
  · next hne =>
    refine ⟨n, Nat.lt_of_le_of_ne hle ?_, h.recent, h.generation, ⟨rfl, rfl, rfl, rfl⟩, h.entries⟩
    rintro rfl
    exact hne (h.entries.trans hfull)

theorem Remembers.insert (hpos : 0 < capacity) (vKey : Bytes) :
    ∃ m, Remembers murmurHash3 capacity (f.insert murmurHash3 vKey) m (vKey :: keys) := by
  obtain ⟨m, hm, hrecent, hgen, hshape, hentries⟩ := h.advance hpos
  obtain ⟨hnext, hne, _⟩ := hgen.next
  let f₁ : CRollingBloomFilter :=
    { f.advance with nEntriesThisGeneration := f.advance.nEntriesThisGeneration + 1 }
  have hdata₁ : f₁.data ≠ [] :=
    ne_nil_of_length_pos (hshape.length ▸ List.length_pos_iff.mpr h.data)
  have hfold := fun (q : Nat × Nat) (hq : q.2 < 64) =>
    genAt_foldl (f := f₁) hgen hdata₁ (f₁.hashes murmurHash3 vKey) hq
  obtain ⟨hsame, hg, hcount, _⟩ := hfold (0, 0) (by decide)
  refine ⟨m + 1, ?_⟩
  have heq : f.insert murmurHash3 vKey = (f₁.hashes murmurHash3 vKey).foldl setPosition f₁ := rfl
  rw [heq]
  refine ⟨hg ▸ hgen, ne_nil_of_length_pos (hsame.length ▸ List.length_pos_iff.mpr hdata₁),
    h.full.trans (hshape.nEntriesPerGeneration.symm.trans hsame.nEntriesPerGeneration.symm),
    h.capacity_le, ?_, hm, fun h => absurd h (Nat.succ_ne_zero m), ?_⟩
  · rw [hcount, BitVec.ofNat_add, ← hentries]
    rfl
  · intro i k hk x hx
    rw [hsame.hashes] at hx
    rw [hsame.position, (hfold _ (position_lt hdata₁ x).2).2.2.2, hg]
    cases i with
    | zero =>
      cases hk
      grind [IsGeneration]
    | succ i =>
      have hold := hrecent i k hk x hx
      have hat : f₁.genAt (f₁.position x) = f.advance.genAt (f.advance.position x) := rfl
      grind [IsGeneration]

theorem Remembers.insertAll (hpos : 0 < capacity) (new : List Bytes) :
    ∃ m, Remembers murmurHash3 capacity (f.insertAll murmurHash3 new) m (new.reverse ++ keys) := by
  induction new generalizing f n keys with
  | nil => exact ⟨n, h⟩
  | cons vKey new ih =>
    obtain ⟨m, hm⟩ := h.insert hpos vKey
    obtain ⟨m', hm'⟩ := ih hm
    exact ⟨m', by simpa [insertAll] using hm'⟩

end

end

/-- The filter contains the last `nElements` keys that were inserted since it was reset. -/
theorem contains_recent (murmurHash3 : BitVec 32 → Bytes → BitVec 32) (f : CRollingBloomFilter)
    (nElements : BitVec 32)
    (hentries : f.nEntriesPerGeneration = entriesPerGeneration nElements) (hdata : f.data ≠ [])
    (nTweak : BitVec 32) (keys : List Bytes) : ∀ k ∈ keys.reverse.take nElements.toNat,
      ((f.reset nTweak).insertAll murmurHash3 keys).contains murmurHash3 k = true := by
  -- the counter of a filter without entries per generation wraps
  obtain ⟨capacity, hpos, hle, hfull, henough⟩ : ∃ capacity, 0 < capacity ∧ capacity ≤ 2 ^ 32 ∧
      BitVec.ofNat 32 capacity = f.nEntriesPerGeneration ∧ nElements.toNat ≤ 2 * capacity := by
    have hval : (entriesPerGeneration nElements).toNat = (nElements.toNat + 1) % 2 ^ 32 / 2 := by
      simp [entriesPerGeneration]
    by_cases hzero : entriesPerGeneration nElements = 0
    · exact ⟨2 ^ 32, by decide, Nat.le_refl _, by rw [hentries, hzero]; rfl, by omega⟩
    · have hne : (entriesPerGeneration nElements).toNat ≠ 0 :=
        fun h => hzero (BitVec.eq_of_toNat_eq h)
      exact ⟨(entriesPerGeneration nElements).toNat, by omega, by omega,
        by rw [hentries, BitVec.ofNat_toNat]; simp, by omega⟩
  have hstart : Remembers murmurHash3 capacity (f.reset nTweak) 0 [] :=
    ⟨.inl rfl, by simpa [reset] using hdata, hfull, hle, rfl, Nat.zero_le _, fun _ => rfl,
      fun _ _ h => by simp at h⟩
  obtain ⟨m, h⟩ := hstart.insertAll hpos keys
  intro k hk
  obtain ⟨i, hi, rfl⟩ := List.mem_take_iff_getElem.mp hk
  refine List.all_eq_true.mpr fun x hx => decide_eq_true ((bit_or_eq _).mpr ?_)
  refine (h.recent i _ ?_ x hx).2.2 (by omega)
  rw [append_nil]
  exact List.getElem?_eq_getElem _

/-- A filter for two elements, with one hash function and one pair of words. -/
def twoElements : CRollingBloomFilter := ⟨entriesPerGeneration 2, 0, 1, [(0, 0)], 0, 1⟩

/-- Two keys are inserted after a first one. -/
theorem contains_recent_two :
    ((twoElements.reset 0).insertAll (fun _ key => BitVec.ofNat 32 (key.headD 0).toNat) [[1], [2],
      [3]]).contains
      (fun _ key => BitVec.ofNat 32 (key.headD 0).toNat) [2] = true :=
  contains_recent _ twoElements 2 rfl (by decide) 0 [[1], [2], [3]] [2] (by decide)

end CRollingBloomFilter

end Bitcoboost
