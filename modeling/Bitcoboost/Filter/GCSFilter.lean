import Bitcoboost.Util.BitStreams
import Bitcoboost.Util.Serialize

/-!
# Block filters

`GCSFilter` of `blockfilter.cpp`: the hashes of a set of elements are sorted, and the differences
are written with the Golomb-Rice code. The hash function is a parameter. The encoding of a set of
more than `MAX_SIZE` elements is not accepted (`ofEncoded_writeCompactSize`).
-/

namespace Bitcoboost

open List Option

def fastRange64 (x n : Nat) : Nat := (x * n) >>> 64

namespace GCSFilter

structure Params where
  sipHashK0 : UInt64
  sipHashK1 : UInt64
  P : UInt8
  M : UInt32

/-- `GCSFilter::ElementSet`, in the order of an iteration. -/
structure ElementSet where
  toList : List Bytes
  nodup : toList.Nodup

/-- What the methods throw: an exception of a stream, or one of their own. -/
inductive Failure where
  | stream
  /-- "N must be <2^32" -/
  | tooManyElements
  /-- "encoded_filter contains excess data" -/
  | excessData
  | assertion
deriving DecidableEq

end GCSFilter

open GCSFilter

/-- `GCSFilter`: the number of elements `m_N`, the range of the hashes `m_F` and the encoding. -/
structure GCSFilter where
  params : Params
  N : Nat
  F : Nat
  encoded : Bytes

namespace GCSFilter

/-- The constructors set `m_N` and `m_F` alike. -/
def ofCount (params : Params) (N : Nat) (encoded : Bytes) : GCSFilter :=
  ⟨params, N, N * params.M.toNat % 2 ^ 64, encoded⟩

/-- The loop of the constructor that decodes every element. -/
def decodeLoop (P : Nat) : Nat → BitStreamReader → Option BitStreamReader
  | 0, bitreader => some bitreader
  | n + 1, bitreader => do
    let (_, bitreader) ← golombRiceDecode bitreader P
    decodeLoop P n bitreader

/-- The constructor from an encoding. -/
def ofEncoded (params : Params) (encodedFilter : Bytes) (skipDecodeCheck : Bool) :
    Except Failure GCSFilter :=
  match readCompactSize true encodedFilter with
  | none => .error .stream
  | some (N, stream) =>
    if N % 2 ^ 32 ≠ N then .error .tooManyElements
    else if skipDecodeCheck then .ok (ofCount params N encodedFilter)
    else match decodeLoop params.P.toNat N (BitStreamReader.new stream) with
      | none => .error .stream
      | some bitreader =>
        if bitreader.istream ≠ [] then .error .excessData else .ok (ofCount params N encodedFilter)

/-- The loop of the constructor over the hashes. -/
def encodeLoop (P : Nat) : Nat → List Nat → BitStreamWriter → Option BitStreamWriter
  | _, [], bitwriter => some bitwriter
  | lastValue, value :: values, bitwriter => do
    let bitwriter ← golombRiceEncode bitwriter P ((value + 2 ^ 64 - lastValue) % 2 ^ 64)
    encodeLoop P value values bitwriter

section
variable (sipHash : UInt64 → UInt64 → Bytes → UInt64) (filter : GCSFilter)

def hashToRange (element : Bytes) : Nat :=
  fastRange64 (sipHash filter.params.sipHashK0 filter.params.sipHashK1 element).toNat filter.F

def buildHashedSet (elements : ElementSet) : List Nat :=
  (elements.toList.map (hashToRange sipHash filter)).mergeSort

def ofElements (params : Params) (elements : ElementSet) : Except Failure GCSFilter :=
  let N := elements.toList.length
  if N % 2 ^ 32 ≠ N then .error .tooManyElements
  else
    let filter := ofCount params N (writeCompactSize N)
    if elements.toList = [] then .ok filter
    else match encodeLoop params.P.toNat 0 (buildHashedSet sipHash filter elements)
        (.new filter.encoded) with
      | none => .error .stream
      | some bitwriter => .ok { filter with encoded := bitwriter.flush.ostream }

/-- The inner loop of `MatchInternal`: the result, or the hashes from `hashes_index` on when it
breaks. -/
def skipHashes (value : Nat) : List Nat → Except Bool (List Nat)
  | [] => .error false
  | hash :: hashes =>
    if hash = value then .error true
    else if value < hash then .ok (hash :: hashes)
    else skipHashes value hashes

def matchLoop (P : Nat) : Nat → Nat → List Nat → BitStreamReader → Option Bool
  | 0, _, _, _ => some false
  | n + 1, value, hashes, bitreader =>
    match golombRiceDecode bitreader P with
    | none => none
    | some (delta, bitreader) =>
      match skipHashes ((value + delta) % 2 ^ 64) hashes with
      | .error result => some result
      | .ok hashes => matchLoop P n ((value + delta) % 2 ^ 64) hashes bitreader

def matchInternal (elementHashes : List Nat) : Except Failure Bool :=
  match readCompactSize true filter.encoded with
  | none => .error .stream
  | some (N, stream) =>
    if N ≠ filter.N then .error .assertion
    else match matchLoop filter.params.P.toNat filter.N 0 elementHashes
        (BitStreamReader.new stream) with
      | none => .error .stream
      | some result => .ok result

def matchElement (element : Bytes) : Except Failure Bool :=
  matchInternal filter [hashToRange sipHash filter element]

def matchAny (elements : ElementSet) : Except Failure Bool :=
  matchInternal filter (buildHashedSet sipHash filter elements)

end

/-! ## The code of a sorted list -/

def code (P : Nat) : Nat → List Nat → List Bool
  | _, [] => []
  | last, value :: values => golombRiceCode P (value - last) ++ code P value values

/-- A sorted list of 64-bit numbers, from `last` on. -/
def Increasing (last : Nat) (values : List Nat) : Prop :=
  (last :: values).Pairwise (· ≤ ·) ∧ ∀ v ∈ values, v < 2 ^ 64

variable {values hashes : List Nat} {params : Params} {last value P n : Nat} {r : BitStreamReader}
  {rest : List Bool} {encoded : Bytes}

theorem Increasing.tail (h : Increasing last (value :: values)) :
    last ≤ value ∧ value < 2 ^ 64 ∧ Increasing value values :=
  ⟨(List.pairwise_cons.mp h.1).1 value mem_cons_self, h.2 value mem_cons_self,
    (List.pairwise_cons.mp h.1).2, fun v hv => h.2 v (mem_cons_of_mem _ hv)⟩

theorem encodeLoop_eq (hP : P ≤ 64) (h : Increasing last values) (w : BitStreamWriter) :
    ∃ w', encodeLoop P last values w = some w' ∧ w'.bits = w.bits ++ code P last values := by
  induction values generalizing last w with
  | nil => exact ⟨w, rfl, (append_nil _).symm⟩
  | cons value values ih =>
    obtain ⟨hle, hlt, h⟩ := h.tail
    have hdelta : (value + 2 ^ 64 - last) % 2 ^ 64 = value - last := by omega
    obtain ⟨w₁, hw₁, hbits₁⟩ := golombRiceEncode_eq w hP (value - last)
    obtain ⟨w₂, hw₂, hbits₂⟩ := ih h w₁
    refine ⟨w₂, by simp only [encodeLoop, hdelta, hw₁, hw₂, bind_eq_bind, bind_some], ?_⟩
    rw [hbits₂, hbits₁, code, append_assoc]

theorem decodeLoop_eq (hP : P ≤ 64) (h : Increasing last values)
    (hbits : r.bits = code P last values ++ rest) :
    ∃ r', decodeLoop P values.length r = some r' ∧ r'.bits = rest := by
  induction values generalizing last r with
  | nil => exact ⟨r, rfl, hbits⟩
  | cons value values ih =>
    obtain ⟨hle, hlt, h⟩ := h.tail
    rw [code, append_assoc] at hbits
    obtain ⟨r₁, hr₁, hbits₁⟩ :=
      golombRiceDecode_eq hP (Nat.lt_of_le_of_lt (Nat.sub_le _ _) hlt) hbits
    obtain ⟨r₂, hr₂, hbits₂⟩ := ih h hbits₁
    exact ⟨r₂, by simp only [length_cons, decodeLoop, hr₁, hr₂, bind_eq_bind, bind_some], hbits₂⟩

theorem skipHashes_error {b : Bool} (h : skipHashes value hashes = .error b) :
    (b = true → value ∈ hashes) ∧ (b = false → ∀ hash ∈ hashes, hash < value) := by
  fun_induction skipHashes value hashes with
  | case1 =>
    cases h
    exact ⟨Bool.noConfusion, fun _ _ hmem => absurd hmem not_mem_nil⟩
  | case2 hashes =>
    cases h
    exact ⟨fun _ => mem_cons_self, Bool.noConfusion⟩
  | case3 hash hashes hne hlt => cases h
  | case4 hash hashes hne hlt ih =>
    refine ⟨fun hb => mem_cons_of_mem _ ((ih h).1 hb), fun hb => ?_⟩
    exact List.forall_mem_cons.mpr ⟨by omega, (ih h).2 hb⟩

/-- The inner loop breaks after the hashes that are below `value`, and so below all later ones. -/
theorem skipHashes_ok {rest : List Nat} (hsorted : hashes.Pairwise (· ≤ ·))
    (h : skipHashes value hashes = .ok rest) :
    rest.Pairwise (· ≤ ·) ∧ value ∉ hashes ∧ ∀ x, value ≤ x → (x ∈ hashes ↔ x ∈ rest) := by
  fun_induction skipHashes value hashes with
  | case1 => cases h
  | case2 hashes => cases h
  | case3 hash hashes hne hlt =>
    cases h
    refine ⟨hsorted, fun hmem => ?_, fun _ _ => Iff.rfl⟩
    cases List.mem_cons.mp hmem with
    | inl heq => exact hne heq.symm
    | inr hmem => exact absurd ((List.pairwise_cons.mp hsorted).1 value hmem) (Nat.not_le_of_lt hlt)
  | case4 hash hashes hne hlt ih =>
    obtain ⟨hrest, hnot, hiff⟩ := ih (List.pairwise_cons.mp hsorted).2 h
    refine ⟨hrest, fun hmem => ?_, fun x hx => ?_⟩
    · cases List.mem_cons.mp hmem with
      | inl heq => exact hne heq.symm
      | inr hmem => exact hnot hmem
    · rw [← hiff x hx, mem_cons, or_iff_right (by omega)]

/-- `MatchInternal` on the code of a sorted list finds a common hash if there is one. -/
theorem matchLoop_eq (hP : P ≤ 64) (h : Increasing last values) (hsorted : hashes.Pairwise (· ≤ ·))
    (hbits : r.bits = code P last values ++ rest) :
    matchLoop P values.length last hashes r = some (decide (∃ x ∈ values, x ∈ hashes)) := by
  induction values generalizing last hashes r with
  | nil => rw [length_nil, matchLoop, decide_eq_false (by simp)]
  | cons value values ih =>
    obtain ⟨hle, hlt, h⟩ := h.tail
    rw [code, append_assoc] at hbits
    obtain ⟨r₁, hr₁, hbits₁⟩ :=
      golombRiceDecode_eq hP (Nat.lt_of_le_of_lt (Nat.sub_le _ _) hlt) hbits
    have hvalue : (last + (value - last)) % 2 ^ 64 =
      value := by rw [Nat.add_sub_cancel' hle, Nat.mod_eq_of_lt hlt]
    have hlater : ∀ x ∈ values, value ≤ x := (List.pairwise_cons.mp h.1).1
    simp only [length_cons, matchLoop, hr₁, hvalue]
    cases hskip : skipHashes value hashes with
    | error b =>
      obtain ⟨htrue, hfalse⟩ := skipHashes_error hskip
      cases b with
      | true => exact congrArg some (decide_eq_true ⟨value, mem_cons_self, htrue rfl⟩).symm
      | false =>
        refine congrArg some (decide_eq_false ?_).symm
        rintro ⟨x, hx, hmem⟩
        have hge : value ≤ x := by
          cases List.mem_cons.mp hx with
          | inl heq => exact Nat.le_of_eq heq.symm
          | inr hx => exact hlater x hx
        exact absurd (hfalse rfl x hmem) (Nat.not_lt_of_le hge)
    | ok hashes' =>
      obtain ⟨hsorted', hnot, hiff⟩ := skipHashes_ok hsorted hskip
      refine (ih h hsorted' hbits₁).trans (congrArg some (decide_eq_decide.mpr ?_))
      rw [exists_mem_cons_iff, or_iff_right hnot]
      exact exists_congr fun x => and_congr_right fun hx => (hiff x (hlater x hx)).symm

/-- The encodings of a sorted list: its length, the code of the list and fewer than eight more
bits. -/
def Encodes (P : Nat) (values : List Nat) (encoded : Bytes) : Prop :=
  Increasing 0 values ∧ ∃ stream padding, encoded = writeCompactSize values.length ++ stream ∧
    Bytes.bits stream = code P 0 values ++ padding ∧ padding.length < 8

theorem readCompactSize_encoded (hn : n ≤ maxSize) (stream : Bytes) :
    readCompactSize true (writeCompactSize n ++ stream) = some (n, stream) :=
  readCompactSize_write (Nat.lt_of_le_of_lt hn (by decide)) (fun _ => hn) stream

/-- The check of the constructor passes: every value is there, and no byte is left. -/
theorem ofEncoded_eq (hP : params.P.toNat ≤ 64) (hlen : values.length ≤ maxSize)
    (h : Encodes params.P.toNat values encoded) :
    ofEncoded params encoded false = .ok (ofCount params values.length encoded) := by
  obtain ⟨hvalues, stream, padding, rfl, hbits, hpadding⟩ := h
  obtain ⟨r, hr, hrest⟩ := decodeLoop_eq hP hvalues ((BitStreamReader.bits_new stream).trans hbits)
  have hempty : r.istream = [] := by
    have hlength := r.length_bits
    rw [hrest] at hlength
    exact eq_nil_of_length_eq_zero (by omega)
  have hcount : values.length % 2 ^ 32 = values.length :=
    Nat.mod_eq_of_lt (Nat.lt_of_le_of_lt hlen (by decide))
  simp only [ofEncoded, readCompactSize_encoded hlen, hcount, hr, hempty, ne_eq,
    not_true_eq_false, if_false, Bool.false_eq_true]

theorem matchInternal_eq (hP : params.P.toNat ≤ 64) (hlen : values.length ≤ maxSize)
    (h : Encodes params.P.toNat values encoded) (hashes : List Nat)
    (hsorted : hashes.Pairwise (· ≤ ·)) :
    matchInternal (ofCount params values.length encoded) hashes =
      .ok (decide (∃ x ∈ values, x ∈ hashes)) := by
  obtain ⟨hvalues, stream, padding, rfl, hbits, hpadding⟩ := h
  have hmatch := matchLoop_eq hP hvalues hsorted ((BitStreamReader.bits_new stream).trans hbits)
  simp [matchInternal, ofCount, readCompactSize_encoded hlen, hmatch]

/-! ## Filters of sets -/

section
variable (sipHash : UInt64 → UInt64 → Bytes → UInt64) (filter : GCSFilter) {elements : ElementSet}

theorem hashToRange_lt (h : filter.F < 2 ^ 64) (element : Bytes) :
    hashToRange sipHash filter element < 2 ^ 64 := by
  have hhash := (sipHash filter.params.sipHashK0 filter.params.sipHashK1 element).toNat_lt
  rw [hashToRange, fastRange64, Nat.shiftRight_eq_div_pow,
    Nat.div_lt_iff_lt_mul (Nat.two_pow_pos 64)]
  exact Nat.mul_lt_mul'' hhash h

theorem mem_buildHashedSet {filter : GCSFilter} {x : Nat} :
    x ∈ buildHashedSet sipHash filter elements ↔ ∃ e ∈ elements.toList,
    hashToRange sipHash filter e = x := by
  rw [buildHashedSet, mem_mergeSort, List.mem_map]

theorem buildHashedSet_sorted : (buildHashedSet sipHash filter elements).Pairwise (· ≤ ·) := by
  refine (pairwise_mergeSort (fun a b c => ?_) (fun a b => ?_) _).imp of_decide_eq_true
  · simp only [decide_eq_true_eq]
    exact Nat.le_trans
  · simp only [Bool.or_eq_true, decide_eq_true_eq]
    exact Nat.le_total a b

theorem increasing_buildHashedSet (params : Params) (N : Nat) (encoded : Bytes)
    (elements : ElementSet) :
    Increasing 0 (buildHashedSet sipHash (ofCount params N encoded) elements) := by
  refine ⟨List.pairwise_cons.mpr ⟨fun _ _ => Nat.zero_le _, buildHashedSet_sorted sipHash _⟩,
    fun v hv => ?_⟩
  obtain ⟨e, _, rfl⟩ := (mem_buildHashedSet sipHash).mp hv
  exact hashToRange_lt sipHash _ (Nat.mod_lt _ (Nat.two_pow_pos 64)) e

theorem length_buildHashedSet (elements : ElementSet) :
    (buildHashedSet sipHash filter elements).length = elements.toList.length := by
  rw [buildHashedSet, length_mergeSort, length_map]

theorem ofElements_eq (hP : params.P.toNat ≤ 64) (hN : elements.toList.length < 2 ^ 32) :
    ∃ encoded, ofElements sipHash params elements =
      .ok (ofCount params elements.toList.length encoded) ∧
      Encodes params.P.toNat (buildHashedSet sipHash
        (ofCount params elements.toList.length encoded) elements) encoded := by
  have hcount : ¬ elements.toList.length % 2 ^ 32 ≠ elements.toList.length :=
    not_not_intro (Nat.mod_eq_of_lt hN)
  rw [ofElements, if_neg hcount]
  have hvalues := increasing_buildHashedSet sipHash params elements.toList.length
  by_cases hempty : elements.toList = []
  · refine ⟨_, if_pos hempty, hvalues _ elements, [], [], ?_, ?_, Nat.zero_lt_succ _⟩
    · rw [length_buildHashedSet, append_nil]
    · rw [buildHashedSet, hempty, map_nil, mergeSort_nil]
      rfl
  · generalize hencoded : writeCompactSize elements.toList.length = encoded
    obtain ⟨w, hw, hbits⟩ := encodeLoop_eq hP (hvalues encoded elements) (.new encoded)
    obtain ⟨padding, hpadding, hflush⟩ := w.flush_eq
    rw [hbits, BitStreamWriter.bits_new, append_assoc] at hflush
    obtain ⟨stream, hstream, hcode⟩ := Bytes.exists_append_of_bits hflush
    refine ⟨w.flush.ostream, ?_, hvalues _ elements, stream, padding, ?_, hcode, hpadding⟩
    · rw [if_neg hempty]
      simp only [ofCount] at hw ⊢
      rw [hw]
    · rw [length_buildHashedSet, hencoded, hstream]

/-- A filter reads back from its encoding, every element of the set matches, and a query matches
exactly if an element of it has the hash of an element of the set. -/
theorem gcsFilter_exact {params : Params} (hP : params.P.toNat ≤ 32) {elements : ElementSet}
    (hN : elements.toList.length ≤ maxSize) :
    ∃ filter, ofElements sipHash params elements = .ok filter ∧ filter.N = elements.toList.length ∧
      ofEncoded params filter.encoded false = .ok filter ∧
      (∀ e ∈ elements.toList, matchElement sipHash filter e = .ok true) ∧
      ∀ query : ElementSet, matchAny sipHash filter query =
        .ok (decide (∃ q ∈ query.toList, ∃ e ∈ elements.toList,
        hashToRange sipHash filter q = hashToRange sipHash filter e)) := by
  have hP : params.P.toNat ≤ 64 := Nat.le_trans hP (by decide)
  obtain ⟨encoded, hbuild, henc⟩ := ofElements_eq sipHash hP (Nat.lt_of_le_of_lt hN (by decide))
  have hlen :=
    length_buildHashedSet sipHash (ofCount params elements.toList.length encoded) elements
  have hparse := ofEncoded_eq hP (Nat.le_trans (Nat.le_of_eq hlen) hN) henc
  have hmatch := matchInternal_eq hP (Nat.le_trans (Nat.le_of_eq hlen) hN) henc
  rw [hlen] at hparse hmatch
  refine ⟨_, hbuild, rfl, hparse, fun e he => ?_, fun query => ?_⟩
  · rw [matchElement, hmatch _ (pairwise_singleton _ _)]
    exact congrArg _ (decide_eq_true ⟨_, (mem_buildHashedSet sipHash).mpr ⟨e, he, rfl⟩,
      mem_singleton_self _⟩)
  · rw [matchAny, hmatch _ (buildHashedSet_sorted sipHash _)]
    refine congrArg _ (decide_eq_decide.mpr ⟨?_, ?_⟩)
    · rintro ⟨x, hx, hmem⟩
      obtain ⟨e, he, rfl⟩ := (mem_buildHashedSet sipHash).mp hx
      obtain ⟨q, hq, heq⟩ := (mem_buildHashedSet sipHash).mp hmem
      exact ⟨q, hq, e, he, heq⟩
    · rintro ⟨q, hq, e, he, heq⟩
      exact ⟨_, (mem_buildHashedSet sipHash).mpr ⟨e, he, rfl⟩,
        (mem_buildHashedSet sipHash).mpr ⟨q, hq, heq⟩⟩

/-- An encoding of more than `MAX_SIZE` elements is refused: its size is read with a range check. -/
theorem ofEncoded_writeCompactSize {params : Params} (h64 : n < 2 ^ 64) (hn : maxSize < n)
    {stream : Bytes}
    {skip : Bool} : ofEncoded params (writeCompactSize n ++ stream) skip = .error .stream := by
  have hread : readCompactSize true (writeCompactSize n ++ stream) = none := by
    refine Option.eq_none_iff_forall_ne_some.mpr fun p hp => ?_
    obtain ⟨hsize, heq⟩ := (codec_readCompactSize true _ p.1 p.2).mp hp
    obtain ⟨hcount, _⟩ := selfDelimiting_writeCompactSize h64 hsize.1 heq
    exact Nat.not_lt_of_le (hsize.2 rfl) (hcount ▸ hn)
  rw [ofEncoded, hread]

end

/-- `BASIC_FILTER_P` and `BASIC_FILTER_M`. -/
def basicParams : Params := ⟨0, 0, 19, 784931⟩

theorem nodup_replicates (n : Nat) :
    ((List.range n).map fun i => (List.replicate i 0 : Bytes)).Nodup :=
  List.Pairwise.map _ (fun _ _ hne h => hne (by simpa using congrArg List.length h)) nodup_range

/-- The first `n` of the elements that are all zeros. -/
def zeroElements (n : Nat) : ElementSet := ⟨_, nodup_replicates n⟩

/-- A hash that depends on the length only. -/
def lengthHash (_ _ : UInt64) (data : Bytes) : UInt64 := .ofNat (data.length * 0x9e3779b97f4a7c15)

/-- One of the two elements of the query is in the filter. -/
theorem gcsFilter_exact_three :
    ∃ filter, ofElements lengthHash basicParams (zeroElements 3) = .ok filter ∧ filter.N = 3 ∧
      ofEncoded basicParams filter.encoded false = .ok filter ∧
      matchElement lengthHash filter [0, 0] = .ok true ∧
      matchAny lengthHash filter ⟨[[1, 2, 3, 4], [0, 0]], by decide⟩ = .ok true := by
  obtain ⟨filter, hbuild, hcount, hparse, hmatch, hany⟩ :=
    gcsFilter_exact lengthHash (show basicParams.P.toNat ≤ 32 by decide)
      (show (zeroElements 3).toList.length ≤ maxSize by decide)
  refine ⟨filter, hbuild, hcount, hparse, hmatch [0, 0] (by decide), (hany _).trans ?_⟩
  exact congrArg _ (decide_eq_true ⟨[0, 0], by simp, [0, 0], by decide, rfl⟩)

/-- One element more than `MAX_SIZE`. -/
theorem ofEncoded_too_many_elements :
    ((ofElements (fun _ _ _ => 7) basicParams (zeroElements (maxSize + 1))).bind fun filter =>
      ofEncoded basicParams filter.encoded false) = .error .stream := by
  have hlen : (zeroElements (maxSize + 1)).toList.length = maxSize + 1 := by
    rw [zeroElements, length_map, length_range]
  have hlt : (zeroElements (maxSize + 1)).toList.length < 2 ^ 32 := by
    rw [hlen]
    decide
  obtain ⟨encoded, hbuild, _, stream, _, hencoded, _⟩ :=
    ofElements_eq (fun _ _ _ => 7) (show basicParams.P.toNat ≤ 64 by decide) hlt
  rw [length_buildHashedSet, hlen] at hencoded
  rw [hbuild]
  exact (congrArg (ofEncoded basicParams · false) hencoded).trans
    (ofEncoded_writeCompactSize (by decide) (by decide))

end GCSFilter
end Bitcoboost
