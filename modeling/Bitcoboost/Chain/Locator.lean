import Bitcoboost.Chain.Ancestors

/-!
# Block locators

`LocatorEntries` of `chain.cpp` lists ancestors of the sender's tip with steps that double after
the first entries, and `FindForkInGlobalIndex` of `validation.cpp` looks for the first of them
that the receiver has. Where the loop is at a depth of 11 or more, the step is at most the
depth, so that no depth is passed by more than a factor of two.
-/

namespace Bitcoboost

open List Nat

/-! ## The heights of the entries -/

/-- The heights that the loop of `LocatorEntries` goes through. -/
def locatorHeights : Nat → Nat → Nat → Nat → List Nat
  | 0, height, _, _ => [height]
  | fuel + 1, height, step, size =>
    height :: if height = 0 then []
      else locatorHeights fuel (height - step) (if size + 1 > 10 then step * 2 else step) (size + 1)

namespace LocatorLemmas

open ChainLemmas AncestorLemmas

theorem locatorLoop_eq (hashX16RV2 : Bytes → Uint256 → Uint256) {tip : CBlockIndex}
    (fuel step size : Nat) {height : Nat} (h : height ≤ tip.nHeight) :
    locatorLoop hashX16RV2 fuel (tip.walk height) step size =
      (locatorHeights fuel height step size).map fun h : Nat =>
        (tip.walk h).getBlockHash hashX16RV2 := by
  induction fuel generalizing height step size with
  | zero => rfl
  | succ fuel ih =>
    have hheight : (tip.walk height).nHeight = height := (walk_spec h).2.1
    rw [locatorLoop, locatorHeights, map_cons, hheight]
    split
    · rfl
    · have hmax : max ((height : Int) - step) 0 = (height - step : Nat) := by omega
      rw [hmax, walk_walk (sub_le _ _) h, ih _ _ ((sub_le _ _).trans h)]

/-- What the loop keeps, at a depth below the tip: it goes back one block at a time for the first
entries, and then by as much as it is deep, up to nine blocks. -/
structure Stage (depth step size : Nat) : Prop where
  first : size ≤ 10 → step = 1 ∧ depth = size
  later : 10 < size → step = 2 ^ (size - 10) ∧ depth = 9 + step

variable {depth step size fuel height : Nat}

theorem Stage.start : Stage 0 1 0 := ⟨fun _ => ⟨rfl, rfl⟩, fun h => absurd h (by decide)⟩

section

variable (h : Stage depth step size)
include h

theorem Stage.next :
    Stage (depth + step) (if size + 1 > 10 then step * 2 else step) (size + 1) := by
  refine ⟨fun hle => ?_, fun hlt => ?_⟩
  · obtain ⟨rfl, rfl⟩ := h.first (by omega)
    rw [if_neg (by omega)]
    exact ⟨rfl, rfl⟩
  · rw [if_pos hlt]
    rcases lt_or_ge 10 size with hlater | hfirst
    · obtain ⟨hstep, hdepth⟩ := h.later hlater
      refine ⟨?_, by omega⟩
      rw [hstep, show size + 1 - 10 = size - 10 + 1 by omega, pow_succ]
    · obtain ⟨rfl, rfl⟩ := h.first hfirst
      obtain rfl : depth = 10 := by omega
      exact ⟨rfl, rfl⟩

theorem Stage.step_pos : 0 < step := by
  rcases lt_or_ge 10 size with hlater | hfirst
  · rw [(h.later hlater).1]
    exact Nat.two_pow_pos _
  · rw [(h.first hfirst).1]
    exact Nat.one_pos

theorem Stage.size_le {n : Nat} (hdepth : depth ≤ n) : size ≤ 10 + Nat.log2 (n + 1) := by
  rcases lt_or_ge 10 size with hlater | hfirst
  · obtain ⟨hstep, hd⟩ := h.later hlater
    have hpow : 2 ^ (size - 10) ≤ n + 1 := by omega
    have := (le_log2 (show n + 1 ≠ 0 by omega)).mpr hpow
    omega
  · omega

end

theorem locatorHeights_zero (fuel step size : Nat) : locatorHeights fuel 0 step size = [0] := by
  cases fuel <;> rfl

theorem mem_locatorHeights {h : Nat} (hmem : h ∈ locatorHeights fuel height step size) :
    h ≤ height := by
  induction fuel generalizing height step size with
  | zero => exact (List.mem_singleton.mp hmem).le
  | succ fuel ih =>
    rcases List.mem_cons.mp hmem with rfl | hrest
    · exact le_rfl
    · split at hrest
      · cases hrest
      · exact (ih hrest).trans (sub_le _ _)

theorem head_locatorHeights : (locatorHeights fuel height step size).head? = some height := by
  cases fuel <;> rfl

section

variable (hstage : Stage depth step size)
include hstage

theorem locatorHeights_descend (hfuel : height ≤ fuel) :
    (locatorHeights fuel height step size).Pairwise (· > ·) ∧
    (locatorHeights fuel height step size).getLast? = some 0 := by
  induction fuel generalizing depth height step size with
  | zero =>
    obtain rfl := Nat.le_zero.mp hfuel
    exact ⟨pairwise_singleton _ _, rfl⟩
  | succ fuel ih =>
    rw [locatorHeights]
    have hpos := hstage.step_pos
    split
    · next hzero =>
      rw [hzero]
      exact ⟨pairwise_singleton _ _, rfl⟩
    · obtain ⟨hpair, hlast⟩ := ih hstage.next (show height - step ≤ fuel by omega)
      refine ⟨List.pairwise_cons.mpr ⟨fun h hmem => ?_, hpair⟩, ?_⟩
      · have := mem_locatorHeights hmem
        omega
      · rw [List.getLast?_cons, hlast]
        rfl

theorem locatorHeights_length (hfuel : height ≤ fuel) :
    size + (locatorHeights fuel height step size).length ≤ 12 + Nat.log2 (depth + height + 1) := by
  have hsize := hstage.size_le (le_add_right depth height)
  induction fuel generalizing depth height step size with
  | zero =>
    rw [locatorHeights, length_singleton]
    omega
  | succ fuel ih =>
    rw [locatorHeights, length_cons]
    have hpos := hstage.step_pos
    split
    · rw [length_nil]
      omega
    · rcases lt_or_ge step height with hlt | hle
      · have hsum : depth + step + (height - step) = depth + height := by omega
        have hrest :=
          ih hstage.next (show height - step ≤ fuel by omega)
            (hstage.next.size_le (le_add_right _ _))
        rw [hsum] at hrest
        omega
      · rw [Nat.sub_eq_zero_of_le hle, locatorHeights_zero, length_singleton]
        omega

/-- The first entry that is deep enough is not more than twice as deep, or it is the genesis
block. -/
theorem locatorHeights_cover {n d : Nat} (hfuel : height ≤ fuel) (hd : d ≤ n)
    (hheight : height = n - depth) (hdepth : depth ≤ 2 * d ∨ height = 0) :
    ∃ before h after, locatorHeights fuel height step size = before ++ h :: after ∧
    (∀ h' ∈ before, n - d < h') ∧
      h ≤ n - d ∧ (n - h ≤ 2 * d ∨ h = 0) := by
  induction fuel generalizing depth height step size with
  | zero => exact ⟨[], height, [], rfl, fun _ hmem => absurd hmem not_mem_nil, by omega, by omega⟩
  | succ fuel ih =>
    rw [locatorHeights]
    rcases lt_or_ge (n - d) height with hlt | hle
    · have hstep : depth + step ≤ 2 * d := by
        rcases lt_or_ge 10 size with hlater | hfirst
        · have := hstage.later hlater
          omega
        · have := hstage.first hfirst
          omega
      have hpos := hstage.step_pos
      rw [if_neg (by omega)]
      obtain ⟨before, h, after, heq, hbefore, hdeep, hnear⟩ :=
        ih hstage.next (show height - step ≤ fuel by omega) (by omega) (.inl hstep)
      refine ⟨height :: before, h, after, by rw [heq, cons_append], fun h' hmem => ?_, hdeep, hnear⟩
      rcases List.mem_cons.mp hmem with rfl | hmem
      · exact hlt
      · exact hbefore h' hmem
    · exact ⟨[], height, _, rfl, fun _ hmem => absurd hmem not_mem_nil, hle, by omega⟩

end

end LocatorLemmas

open ChainLemmas AncestorLemmas LocatorLemmas

/-- The entries whose hashes `LocatorEntries` lists. -/
def locatorBlocks (index : CBlockIndex) : List CBlockIndex :=
  (locatorHeights index.nHeight index.nHeight 1 0).map fun height : Nat => index.walk height

theorem locatorEntries_eq (hashX16RV2 : Bytes → Uint256 → Uint256) (index : CBlockIndex) :
    locatorEntries hashX16RV2 index = (locatorBlocks index).map
    (CBlockIndex.getBlockHash hashX16RV2) := by
  have hloop := locatorLoop_eq hashX16RV2 index.nHeight 1 0 (le_refl index.nHeight)
  rw [walk_self] at hloop
  rw [locatorEntries, hloop, locatorBlocks, map_map]
  rfl

variable (index : CBlockIndex)

theorem walk_zero : index.walk 0 = index.root := by
  obtain ⟨_, hheight, hroot⟩ := walk_spec (zero_le index.nHeight)
  exact (eq_root_of_nHeight hheight).symm.trans hroot

/-- The entries go down from the tip to the genesis block. -/
theorem locatorBlocks_descend :
    (∀ e ∈ locatorBlocks index, e.Below index) ∧
    (locatorBlocks index).Pairwise (fun a b => a.nHeight > b.nHeight) ∧
      (locatorBlocks index).head? = some index ∧
        (locatorBlocks index).getLast? = some index.root := by
  obtain ⟨hpair, hlast⟩ := locatorHeights_descend Stage.start (le_refl index.nHeight)
  have hheight : ∀ height ∈ locatorHeights index.nHeight index.nHeight 1 0,
    (index.walk (height : Nat)).nHeight = height :=
    fun height hmem => (walk_spec (mem_locatorHeights hmem)).2.1
  refine ⟨fun e hmem => ?_, ?_, ?_, ?_⟩
  · obtain ⟨height, hheights, rfl⟩ := List.mem_map.mp hmem
    exact (walk_spec (mem_locatorHeights hheights)).1
  · refine List.pairwise_map.mpr (hpair.imp_of_mem fun ha hb hgt => ?_)
    rw [hheight _ ha, hheight _ hb]
    exact hgt
  · rw [locatorBlocks, List.head?_map, head_locatorHeights, Option.map_some, walk_self]
  · rw [locatorBlocks, List.getLast?_map, hlast, Option.map_some]
    exact congrArg some (walk_zero index)

theorem locatorBlocks_length :
    (locatorBlocks index).length ≤ 12 + Nat.log2 (index.nHeight + 1) := by
  have h := locatorHeights_length Stage.start (le_refl index.nHeight)
  rw [zero_add, zero_add] at h
  rw [locatorBlocks, length_map]
  exact h

theorem locatorBlocks_cover {d : Nat} (hd : d ≤ index.nHeight) :
    ∃ before e after, locatorBlocks index = before ++ e :: after ∧
    (∀ a ∈ before, index.nHeight - a.nHeight < d) ∧
      d ≤ index.nHeight - e.nHeight ∧ (index.nHeight - e.nHeight ≤ max d (2 * d) ∨
        e = index.root) := by
  obtain ⟨before, h, after, heq, hbefore, hdeep, hnear⟩ :=
    locatorHeights_cover Stage.start (le_refl index.nHeight) hd rfl (.inl (zero_le _))
  have hle : ∀ h' ∈ locatorHeights index.nHeight index.nHeight 1 0, h' ≤ index.nHeight :=
    fun h' hmem => mem_locatorHeights hmem
  rw [heq] at hle
  have hheight : (index.walk (h : Nat)).nHeight = h := (walk_spec (hle h (by simp))).2.1
  refine ⟨before.map fun h : Nat => index.walk h, index.walk h, after.map fun h : Nat =>
    index.walk h, ?_, fun a hmem => ?_, ?_, ?_⟩
  · rw [locatorBlocks, heq, map_append, map_cons]
  · obtain ⟨h', hheights, rfl⟩ := List.mem_map.mp hmem
    have hlt := hbefore h' hheights
    have hle' := hle h' (mem_append_left _ hheights)
    rw [(walk_spec hle').2.1]
    omega
  · rw [hheight]
    omega
  · rw [hheight]
    rcases hnear with hnear | rfl
    · exact .inl (hnear.trans (le_max_right _ _))
    · exact .inr (walk_zero index)

/-! ## Forks -/

/-- `FindForkInGlobalIndex`, where `lookupBlockIndex` is the block index of the receiver. -/
def findForkInGlobalIndex (lookupBlockIndex : Uint256 → Option CBlockIndex) (tip : CBlockIndex) :
    List Uint256 → CBlockIndex
  | [] => tip.root
  | hash :: vHave =>
    match lookupBlockIndex hash with
    | some pindex =>
      if tip.contains pindex then pindex
      else if pindex.getAncestor tip.nHeight = some tip then tip
      else findForkInGlobalIndex lookupBlockIndex tip vHave
    | none => findForkInGlobalIndex lookupBlockIndex tip vHave

/-- The block where two chains fork: the highest one that both have. -/
structure ForksAt (a b fork : CBlockIndex) : Prop where
  left : fork.Below a
  right : fork.Below b
  highest : ∀ c : CBlockIndex, c.Below a → c.Below b → c.nHeight ≤ fork.nHeight

theorem ForksAt.unique {a b fork fork' : CBlockIndex} (h : ForksAt a b fork)
    (h' : ForksAt a b fork') : fork = fork' :=
  eq_of_nHeight h.left h'.left (le_antisymm (h'.highest fork h.left h.right)
    (h.highest fork' h'.left h'.right))

/-- `FindFork` finds where a chain of the same tree forks off. -/
theorem findFork_forksAt {tip p : CBlockIndex} (hroot : p.root = tip.root) :
    ∃ fork, tip.findFork p = some fork ∧ ForksAt p tip fork := by
  obtain ⟨fork, hfork, htip, hp, hmax⟩ := findFork_spec hroot
  exact ⟨fork, hfork, hp, htip, fun c hc hctip => nHeight_le_of_below (hmax c hctip hc)⟩

/-- The receiver has the blocks of its own chain, and its block index does not hold another block
under the hash of a block of the sender. -/
structure IndexAgrees (hashX16RV2 : Bytes → Uint256 → Uint256)
    (lookupBlockIndex : Uint256 → Option CBlockIndex) (sender receiver : CBlockIndex) : Prop where
  own : ∀ a : CBlockIndex, a.Below receiver → lookupBlockIndex (a.getBlockHash hashX16RV2) = some a
  other : ∀ a p : CBlockIndex, a.Below sender →
    lookupBlockIndex (a.getBlockHash hashX16RV2) = some p → p = a

/-- The entry of a locator is contained in the receiver's chain. -/
def inChain (lookupBlockIndex : Uint256 → Option CBlockIndex) (tip : CBlockIndex)
    (hash : Uint256) : Bool :=
  (lookupBlockIndex hash).any tip.contains

/-- The entry of a locator is not too far below the fork. -/
def NearFork (sender fork entry : CBlockIndex) : Prop :=
  sender.nHeight - entry.nHeight ≤ max (sender.nHeight - fork.nHeight)
    (2 * (sender.nHeight - fork.nHeight)) ∨ entry = sender.root

namespace LocatorLemmas

section Lookup

variable {hashX16RV2 : Bytes → Uint256 → Uint256} {lookupBlockIndex : Uint256 → Option CBlockIndex}
  {sender receiver e : CBlockIndex}
variable (hindex : IndexAgrees hashX16RV2 lookupBlockIndex sender receiver)
include hindex

theorem inChain_iff (he : e.Below sender) :
    inChain lookupBlockIndex receiver (e.getBlockHash hashX16RV2) = true ↔ e.Below receiver := by
  rw [inChain]
  constructor
  · intro h
    cases hlookup : lookupBlockIndex (e.getBlockHash hashX16RV2) with
    | none =>
      rw [hlookup] at h
      cases h
    | some p =>
      rw [hlookup] at h
      rw [← hindex.other e p he hlookup]
      exact contains_iff.mp h
  · intro h
    rw [hindex.own e h]
    exact contains_iff.mpr h

theorem find_inChain {before after : List CBlockIndex}
    (hbefore : ∀ a ∈ before, a.Below sender ∧ ¬a.Below receiver)
    (he : e.Below sender) (he' : e.Below receiver) :
    ((before ++ e :: after).map (CBlockIndex.getBlockHash hashX16RV2)).find?
    (inChain lookupBlockIndex receiver) =
      some (e.getBlockHash hashX16RV2) := by
  induction before with
  | nil => exact List.find?_cons_of_pos ((inChain_iff hindex he).mpr he')
  | cons a before ih =>
    obtain ⟨ha, ha'⟩ := hbefore a mem_cons_self
    have hnot := mt (inChain_iff hindex ha).mp ha'
    rw [cons_append, map_cons, List.find?_cons_of_neg hnot, ih fun b hb =>
      hbefore b (mem_cons_of_mem _ hb)]

/-- The search ends at the first entry that the receiver has in its chain, or, where the
receiver knows blocks after its tip, at the tip. -/
theorem findForkInGlobalIndex_spec {before : List CBlockIndex} (after : List CBlockIndex)
    (hbefore : ∀ a ∈ before, a.Below sender ∧ ¬a.Below receiver) (he : e.Below receiver) :
    let found :=
  findForkInGlobalIndex lookupBlockIndex receiver
      ((before ++ e :: after).map (CBlockIndex.getBlockHash hashX16RV2))
    found = e ∨ (found = receiver ∧ receiver.Below sender) := by
  induction before with
  | nil =>
    left
    rw [nil_append, map_cons, findForkInGlobalIndex, hindex.own e he]
    exact if_pos (contains_iff.mpr he)
  | cons a before ih =>
    obtain ⟨ha, ha'⟩ := hbefore a mem_cons_self
    have hrest := ih fun b hb => hbefore b (mem_cons_of_mem _ hb)
    rw [cons_append, map_cons, findForkInGlobalIndex]
    cases hlookup : lookupBlockIndex (a.getBlockHash hashX16RV2) with
    | none => exact hrest
    | some p =>
      obtain rfl := hindex.other a p ha hlookup
      dsimp only
      rw [if_neg (mt contains_iff.mp ha')]
      split
      · next htip => exact .inr ⟨rfl, (below_of_getAncestor htip).trans ha⟩
      · exact hrest

end Lookup

end LocatorLemmas

/-- A locator lists ancestors from the tip to the genesis block with a logarithmic number of
entries. Where two chains fork, the receiver finds a common ancestor that is at most twice as
deep as the fork, or the genesis block. -/
theorem locator_finds_fork (hashX16RV2 : Bytes → Uint256 → Uint256) (sender : CBlockIndex) :
    ∃ entries : List CBlockIndex, locatorEntries hashX16RV2 sender =
      entries.map (CBlockIndex.getBlockHash hashX16RV2) ∧
      (∀ e ∈ entries, e.Below sender) ∧ entries.Pairwise (fun a b => a.nHeight > b.nHeight) ∧
      entries.head? = some sender ∧ entries.getLast? = some sender.root ∧
      entries.length ≤ 12 + Nat.log2 (sender.nHeight + 1) ∧
      (∀ d ≤ sender.nHeight, ∃ before e after, entries = before ++ e :: after ∧
        (∀ a ∈ before, sender.nHeight - a.nHeight < d) ∧ d ≤ sender.nHeight - e.nHeight ∧
        (sender.nHeight - e.nHeight ≤ max d (2 * d) ∨ e = sender.root)) ∧
      ∀ lookupBlockIndex receiver fork, ForksAt sender receiver fork →
        IndexAgrees hashX16RV2 lookupBlockIndex sender receiver →
        receiver.findFork sender = some fork ∧
        (∃ e ∈ entries, (locatorEntries hashX16RV2 sender).find?
          (inChain lookupBlockIndex receiver) =
            some (e.getBlockHash hashX16RV2) ∧ e.Below receiver ∧ NearFork sender fork e) ∧
        ∃ e, findForkInGlobalIndex lookupBlockIndex receiver (locatorEntries hashX16RV2 sender) =
          e ∧ e.Below sender ∧ e.Below receiver ∧ NearFork sender fork e := by
  obtain ⟨hbelow, hpair, hhead, hlast⟩ := locatorBlocks_descend sender
  refine ⟨locatorBlocks sender, locatorEntries_eq hashX16RV2 sender, hbelow, hpair, hhead, hlast,
    locatorBlocks_length sender, fun d hd => locatorBlocks_cover sender hd,
    fun lookupBlockIndex receiver fork hfork hindex => ?_⟩
  obtain ⟨before, e, after, heq, hbefore, hdeep, hnear⟩ :=
    locatorBlocks_cover sender (sub_le sender.nHeight fork.nHeight)
  have hmem : e ∈ locatorBlocks sender := heq ▸ mem_append_right _ mem_cons_self
  have hentry := nHeight_le_of_below (hbelow e hmem)
  -- The entry is an ancestor of the fork, and the entries before it are on the sender's side only.
  have hcommon : e.Below receiver :=
    (below_of_nHeight_le (hbelow e hmem) hfork.left (by omega)).trans hfork.right
  have hown : ∀ a ∈ before, a.Below sender ∧ ¬a.Below receiver := by
    intro a ha
    have ha' := hbelow a (heq ▸ mem_append_left _ ha)
    refine ⟨ha', fun hright => ?_⟩
    have := hbefore a ha
    have := hfork.highest a ha' hright
    omega
  refine ⟨?_, ⟨e, hmem, ?_, hcommon, hnear⟩, _, rfl, ?_⟩
  · obtain ⟨fork', hfind, hfork'⟩ :=
      findFork_forksAt ((root_of_below hfork.left).symm.trans (root_of_below hfork.right))
    rw [hfind, hfork'.unique hfork]
  · rw [locatorEntries_eq, heq]
    exact find_inChain hindex hown (hbelow e hmem) hcommon
  · rw [locatorEntries_eq, heq]
    rcases findForkInGlobalIndex_spec hindex after hown hcommon with hfound | ⟨hfound, hreceiver⟩
    · rw [hfound]
      exact ⟨hbelow e hmem, hcommon, hnear⟩
    · rw [hfound]
      have hheight :=
        le_antisymm (nHeight_le_of_below hfork.right) (hfork.highest receiver hreceiver .refl)
      exact ⟨hreceiver, .refl, .inl (by rw [hheight]; exact le_max_left _ _)⟩

def oneBlock (nVersion : BitVec 32) : CBlockIndex := .next (.genesis {}) { nVersion := nVersion }

/-- A hash that tells the blocks of `oneBlock` apart. -/
def versionHash (bytes : Bytes) (_ : Uint256) : Uint256 := uint256S (bytes.headD 0).toNat

theorem forksAt_oneBlock : ForksAt (oneBlock 1#32) (oneBlock 2#32) (.genesis {}) := by
  refine ⟨.next .refl, .next .refl, fun c hleft hright => ?_⟩
  rcases below_next.mp hleft with rfl | hroot
  · rcases below_next.mp hright with h | h
    · cases h
    · cases below_genesis.mp h
  · rw [below_genesis.mp hroot]

theorem locator_finds_fork_oneBlock : ∃ e, findForkInGlobalIndex
    (fun hash => [oneBlock 2#32, .genesis {}].find? fun a => a.getBlockHash versionHash = hash)
    (oneBlock 2#32)
      (locatorEntries versionHash (oneBlock 1#32)) = e ∧ e.Below (oneBlock 1#32) ∧
        e.Below (oneBlock 2#32) ∧
    NearFork (oneBlock 1#32) (.genesis {}) e := by
  obtain ⟨entries, -, -, -, -, -, -, -, hfork⟩ := locator_finds_fork versionHash (oneBlock 1#32)
  refine (hfork _ (oneBlock 2#32) _ forksAt_oneBlock ⟨fun a ha => ?_, fun a p ha hp => ?_⟩).2.2
  · rcases below_next.mp ha with rfl | hroot
    · decide +kernel
    · rw [below_genesis.mp hroot]
      decide +kernel
  · rcases below_next.mp ha with rfl | hroot
    · have hnone : ([oneBlock 2#32, .genesis {}].find? fun a => a.getBlockHash versionHash =
          (oneBlock 1#32).getBlockHash versionHash) = none := by decide +kernel
      cases hnone.symm.trans hp
    · rw [below_genesis.mp hroot] at hp ⊢
      have hgenesis : ([oneBlock 2#32, .genesis {}].find? fun a => a.getBlockHash versionHash =
          (CBlockIndex.genesis {}).getBlockHash versionHash) =
          some (.genesis {}) := by decide +kernel
      exact Option.some.inj (hp.symm.trans hgenesis)

end Bitcoboost
