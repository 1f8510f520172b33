import Bitcoboost.Pow.Chain

/-!
# Ancestors

`GetAncestor`, `FindFork` and `LastCommonAncestor` of `chain.cpp`: what the entry at a height is,
and the entries between a height and the tip. Two entries of one tree have a last common
ancestor.
-/

namespace Bitcoboost

open CBlockIndex

/-- The genesis entry of a chain. -/
def CBlockIndex.root : CBlockIndex → CBlockIndex
  | .genesis header => .genesis header
  | .next pprev _ => pprev.root

/-- The entry and those of its ancestors that are above the height, the lowest one first. -/
def CBlockIndex.above (height : Nat) : CBlockIndex → List CBlockIndex
  | .genesis _ => []
  | .next pprev header => if height ≤ pprev.nHeight then pprev.above height ++ [.next pprev header]
      else []

/-- The loop of `LastCommonAncestor`, where the heights are the same. There is no entry
below a genesis block. -/
def lastCommonLoop : CBlockIndex → CBlockIndex → Option CBlockIndex
  | .genesis header, pb => if .genesis header = pb then some pb else none
  | .next pa header, pb =>
    if .next pa header = pb then some pb
    else
      match pb with
      | .genesis _ => none
      | .next pb _ => lastCommonLoop pa pb

def lastCommonAncestor (pa pb : CBlockIndex) : Option CBlockIndex :=
  if pa.nHeight > pb.nHeight then (pa.getAncestor pb.nHeight).bind fun pa => lastCommonLoop pa pb
  else if pb.nHeight > pa.nHeight then (pb.getAncestor pa.nHeight).bind fun pb =>
    lastCommonLoop pa pb
  else lastCommonLoop pa pb

/-- `CChain::Contains`, for the chain that ends in the tip. -/
def CBlockIndex.contains (tip pindex : CBlockIndex) : Bool :=
  tip.getAncestor pindex.nHeight = some pindex

def CBlockIndex.findForkLoop (tip : CBlockIndex) : CBlockIndex → Option CBlockIndex
  | .genesis header => if tip.contains (.genesis header) then some (.genesis header) else none
  | .next pprev header => if tip.contains (.next pprev header) then some (.next pprev header)
      else findForkLoop tip pprev

def CBlockIndex.findFork (tip pindex : CBlockIndex) : Option CBlockIndex :=
  if pindex.nHeight > tip.nHeight then (pindex.getAncestor tip.nHeight).bind tip.findForkLoop
  else tip.findForkLoop pindex

namespace AncestorLemmas

open ChainLemmas

variable {tip : CBlockIndex}

theorem nHeight_le_of_below {pindex : CBlockIndex} (h : pindex.Below tip) :
    pindex.nHeight ≤ tip.nHeight := by
  induction h with
  | refl => exact Nat.le_refl _
  | next _ ih => exact Nat.le_succ_of_le ih

variable {header : CBlockHeader}

theorem below_next {a pprev : CBlockIndex} :
    a.Below (.next pprev header) ↔ a = .next pprev header ∨ a.Below pprev := by
  constructor
  · intro h
    cases h with
    | refl => exact .inl rfl
    | next h => exact .inr h
  · rintro (rfl | h)
    · exact .refl
    · exact .next h

theorem below_genesis {a : CBlockIndex} : a.Below (.genesis header) ↔ a = .genesis header := by
  constructor
  · intro h
    cases h
    rfl
  · rintro rfl
    exact .refl

theorem eq_of_nHeight {a b : CBlockIndex} (ha : a.Below tip) (hb : b.Below tip)
    (hheight : a.nHeight = b.nHeight) : a = b := by
  induction tip with
  | genesis header => rw [below_genesis.mp ha, below_genesis.mp hb]
  | next pprev header ih =>
    rcases below_next.mp ha with rfl | ha'
    · rcases below_next.mp hb with rfl | hb'
      · rfl
      · have := nHeight_le_of_below hb'
        rw [← hheight, nHeight_next] at this
        exact absurd this (Nat.not_succ_le_self _)
    · rcases below_next.mp hb with rfl | hb'
      · have := nHeight_le_of_below ha'
        rw [hheight, nHeight_next] at this
        exact absurd this (Nat.not_succ_le_self _)
      · exact ih ha' hb'

variable {a b : CBlockIndex}

theorem below_antisymm (hab : a.Below b) (hba : b.Below a) : a = b :=
  eq_of_nHeight hab .refl (Nat.le_antisymm (nHeight_le_of_below hab) (nHeight_le_of_below hba))

theorem pprev_root (b : CBlockIndex) : b.root.pprev = none := by
  induction b with
  | genesis header => rfl
  | next pprev header ih => exact ih

theorem root_of_below (h : a.Below b) : a.root = b.root := by
  induction h with
  | refl => rfl
  | next _ ih => exact ih

theorem below_of_nHeight_le {a b : CBlockIndex} (ha : a.Below tip) (hb : b.Below tip)
    (hle : a.nHeight ≤ b.nHeight) : a.Below b := by
  induction tip with
  | genesis header =>
    rw [below_genesis.mp ha, below_genesis.mp hb]
    exact .refl
  | next pprev header ih =>
    rcases below_next.mp hb with rfl | hb'
    · exact ha
    · rcases below_next.mp ha with rfl | ha'
      · exact absurd (hle.trans (nHeight_le_of_below hb')) (Nat.not_succ_le_self _)
      · exact ih ha' hb'

theorem below_of_pprev (h : b.pprev = some a) : a.Below b := by
  cases b with
  | genesis => cases h
  | next pprev header =>
    cases h
    exact .next .refl

theorem nHeight_of_pprev (h : b.pprev = some a) : b.nHeight = a.nHeight + 1 := by
  cases b with
  | genesis => cases h
  | next pprev header =>
    cases h
    rfl

variable (pindex : CBlockIndex) {height : Nat} {p : CBlockIndex}

theorem above_self : pindex.above pindex.nHeight = [] := by
  cases pindex with
  | genesis => rfl
  | next pprev header => exact if_neg (Nat.not_succ_le_self _)

theorem walk_next_of_le {pprev : CBlockIndex} (h : height ≤ pprev.nHeight) :
    (CBlockIndex.next pprev header).walk height = pprev.walk height := by
  refine if_pos ?_
  rw [nHeight_next]
  omega

theorem getAncestor_of_le {pindex : CBlockIndex} (h : height ≤ pindex.nHeight) :
    pindex.getAncestor height = some (pindex.walk height) := by
  refine if_neg ?_
  omega

/-- `GetAncestor` of the heights after `height`, one after the other. -/
theorem getAncestor_range :
    (List.range' (height + 1) (tip.nHeight - height)).map (fun h => tip.getAncestor (h : Nat)) =
      (tip.above height).map some := by
  induction tip with
  | genesis header =>
    rw [show (genesis header).nHeight - height = 0 from Nat.zero_sub height]
    rfl
  | next pprev header ih =>
    rw [above, nHeight_next]
    split
    · next hle =>
      have hlast : height + 1 + 1 * (pprev.nHeight - height) = pprev.nHeight + 1 := by omega
      rw [Nat.succ_sub hle, List.range'_concat, List.map_append, List.map_append, ← ih, hlast,
        List.map_singleton,
        List.map_singleton, getAncestor_of_le (Nat.le_of_eq (nHeight_next pprev header).symm)]
      congr 1
      · refine List.map_congr_left fun h hmem => ?_
        have hh : h ≤ pprev.nHeight := by
          have := List.mem_range'_1.mp hmem
          omega
        rw [getAncestor_of_le hh, getAncestor_of_le (Nat.le_succ_of_le hh), walk_next_of_le hh]
      · have hself := walk_self (p := .next pprev header)
        rw [nHeight_next] at hself
        rw [hself]
    · next hgt =>
      rw [Nat.sub_eq_zero_of_le (Nat.lt_of_not_le hgt)]
      rfl

theorem root_below : pindex.root.Below pindex := by
  induction pindex with
  | genesis => exact .refl
  | next _ _ ih => exact .next ih

theorem nHeight_root : pindex.root.nHeight = 0 := by
  induction pindex with
  | genesis => rfl
  | next _ _ ih => exact ih

theorem eq_root_of_nHeight {pindex : CBlockIndex} (h : pindex.nHeight = 0) :
    pindex.root = pindex := by
  cases pindex with
  | genesis => rfl
  | next => cases h

/-- An ancestor found by its height. -/
theorem walk_spec {pindex : CBlockIndex} (h : height ≤ pindex.nHeight) :
    (pindex.walk height).Below pindex ∧ (pindex.walk height).nHeight = height ∧
      (pindex.walk height).root = pindex.root := by
  induction pindex with
  | genesis => exact ⟨.refl, (Nat.le_zero.mp h).symm, rfl⟩
  | next pprev header ih =>
    rcases Nat.lt_or_eq_of_le h with hlt | rfl
    · have hle := Nat.le_of_lt_succ hlt
      obtain ⟨hbelow, hheight, hroot⟩ := ih hle
      rw [walk_next_of_le hle]
      exact ⟨.next hbelow, hheight, hroot⟩
    · rw [walk_self]
      exact ⟨.refl, rfl, rfl⟩

theorem walk_walk {i j : Nat} (hij : i ≤ j) (hj : j ≤ tip.nHeight) :
    (tip.walk j).walk i = tip.walk i := by
  obtain ⟨hbelow, hheight, _⟩ := walk_spec hj
  obtain ⟨hbelow', hheight', _⟩ := walk_spec (hij.trans hheight.ge)
  obtain ⟨hbelow'', hheight'', _⟩ := walk_spec (hij.trans hj)
  exact eq_of_nHeight (hbelow'.trans hbelow) hbelow'' (hheight'.trans hheight''.symm)

theorem lastCommonLoop_spec {pa pb : CBlockIndex} (hheight : pa.nHeight = pb.nHeight)
    (hroot : pa.root = pb.root) :
    ∃ pindexFork, lastCommonLoop pa pb = some pindexFork ∧ pindexFork.Below pa ∧
    pindexFork.Below pb := by
  induction pa generalizing pb with
  | genesis header =>
    have hpb : genesis header = pb := hroot.trans (eq_root_of_nHeight hheight.symm)
    subst hpb
    exact ⟨_, if_pos rfl, .refl, .refl⟩
  | next pa header ih =>
    unfold lastCommonLoop
    split
    · next heq =>
      subst heq
      exact ⟨_, rfl, .refl, .refl⟩
    · cases pb with
      | genesis => cases hheight
      | next pb header' =>
        obtain ⟨pindexFork, hloop, hpa, hpb⟩ := ih (Nat.succ.inj hheight) hroot
        exact ⟨pindexFork, hloop, .next hpa, .next hpb⟩

theorem below_of_getAncestor (h : tip.getAncestor height = some p) : p.Below tip := by
  unfold getAncestor at h
  split at h
  · cases h
  · cases h
    exact (walk_spec (by omega)).1

theorem contains_iff : tip.contains p = true ↔ p.Below tip := by
  rw [contains, decide_eq_true_iff]
  constructor
  · exact below_of_getAncestor
  · intro h
    have hle := nHeight_le_of_below h
    obtain ⟨hbelow, hheight, _⟩ := walk_spec hle
    rw [getAncestor_of_le hle, eq_of_nHeight hbelow h hheight]

theorem findForkLoop_spec {pindex : CBlockIndex} (hroot : pindex.root = tip.root) :
    ∃ fork, tip.findForkLoop pindex = some fork ∧ fork.Below tip ∧ fork.Below pindex ∧
      ∀ a : CBlockIndex, a.Below tip → a.Below pindex → a.Below fork := by
  induction pindex with
  | genesis header =>
    have hbelow : (genesis header).Below tip := by
      rw [show genesis header = tip.root from hroot]
      exact root_below tip
    exact ⟨_, if_pos (contains_iff.mpr hbelow), hbelow, .refl, fun a _ ha => ha⟩
  | next pprev header ih =>
    unfold findForkLoop
    split
    · next hcontains => exact ⟨_, rfl, contains_iff.mp hcontains, .refl, fun a _ ha => ha⟩
    · next hcontains =>
      obtain ⟨fork, hfork, htip, hpindex, hmax⟩ := ih hroot
      refine ⟨fork, hfork, htip, .next hpindex, fun a hatip ha => ?_⟩
      rcases below_next.mp ha with rfl | ha
      · exact absurd (contains_iff.mpr hatip) hcontains
      · exact hmax a hatip ha

theorem findFork_spec {pindex : CBlockIndex} (hroot : pindex.root = tip.root) :
    ∃ fork, tip.findFork pindex = some fork ∧ fork.Below tip ∧ fork.Below pindex ∧
      ∀ a : CBlockIndex, a.Below tip → a.Below pindex → a.Below fork := by
  unfold findFork
  split
  · next hgt =>
    have hle := Nat.le_of_lt hgt
    obtain ⟨hbelow, hheight, hwalk⟩ := walk_spec hle
    obtain ⟨fork, hfork, htip, hpindex, hmax⟩ :=
      @findForkLoop_spec tip (pindex.walk tip.nHeight) (hwalk.trans hroot)
    rw [getAncestor_of_le hle]
    refine ⟨fork, hfork, htip, hpindex.trans hbelow, fun a hatip ha =>
      hmax a hatip (below_of_nHeight_le ha hbelow ?_)⟩
    rw [hheight]
    exact nHeight_le_of_below hatip
  · exact findForkLoop_spec hroot

end AncestorLemmas

open AncestorLemmas

/-- Two entries of one tree have a common ancestor, which `LastCommonAncestor` finds. -/
theorem lastCommonAncestor_spec {pa pb : CBlockIndex} (hroot : pa.root = pb.root) :
    ∃ pindexFork, lastCommonAncestor pa pb = some pindexFork ∧ pindexFork.Below pa ∧
    pindexFork.Below pb := by
  rw [lastCommonAncestor]
  split
  · next hgt =>
    have hle := Nat.le_of_lt hgt
    obtain ⟨hbelow, hheight, hwalk⟩ := walk_spec hle
    obtain ⟨pindexFork, hloop, hpa, hpb⟩ := lastCommonLoop_spec hheight (hwalk.trans hroot)
    rw [getAncestor_of_le hle]
    exact ⟨pindexFork, hloop, hpa.trans hbelow, hpb⟩
  · next hle =>
    split
    · next hgt =>
      have hle := Nat.le_of_lt hgt
      obtain ⟨hbelow, hheight, hwalk⟩ := walk_spec hle
      obtain ⟨pindexFork, hloop, hpa, hpb⟩ :=
        lastCommonLoop_spec hheight.symm (hroot.trans hwalk.symm)
      rw [getAncestor_of_le hle]
      exact ⟨pindexFork, hloop, hpa, hpb.trans hbelow⟩
    · next hge =>
      exact lastCommonLoop_spec (Nat.le_antisymm (Nat.le_of_not_lt hle)
        (Nat.le_of_not_lt hge)) hroot

end Bitcoboost
