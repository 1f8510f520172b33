import Bitcoboost.Pow.Pow

/-!
# Chains of block index entries

What a step of `GetNextWorkRequired` can do on a network without the minimum difficulty rule, and
what follows for every block of a chain that obeys it. A block either keeps the `nBits` of its
parent or retargets them.
-/

namespace Bitcoboost

open ArithUint256 CBlockIndex Option

/-- `Below pindex tip`: the entry `pindex` is `tip` or one of its ancestors. -/
inductive CBlockIndex.Below (pindex : CBlockIndex) : CBlockIndex → Prop
  | refl : Below pindex pindex
  | next {tip : CBlockIndex} {header : CBlockHeader} :
      Below pindex tip → Below pindex (.next tip header)

/-- The height after `pindexLast` is a retarget height. `pindexFirst` opens the
period that `pindexLast` ends, and the period should have taken `span` seconds. -/
structure AtRetarget (params : Params) (pindexLast pindexFirst : CBlockIndex)
    (span : Int) : Prop where
  period : ∃ interval, bbGetRetargetInterval (pindexLast.nHeight + 1) params = some interval ∧
    cMod (pindexLast.nHeight + 1) interval = some 0 ∧
    pindexLast.getAncestor (pindexLast.nHeight - (interval - 1)) = some pindexFirst
  timespan : bbGetTargetTimespan (pindexLast.nHeight + 1) params = some span

def InPeriod (params : Params) (pindexLast : CBlockIndex) : Prop :=
  ∃ interval r, bbGetRetargetInterval (pindexLast.nHeight + 1) params = some interval ∧
    cMod (pindexLast.nHeight + 1) interval = some r ∧ r ≠ 0

theorem CBlockIndex.Below.trans {a b c : CBlockIndex} (hab : a.Below b) (hbc : b.Below c) :
    a.Below c := by
  induction hbc with
  | refl => exact hab
  | next _ ih => exact .next ih

namespace ChainLemmas

@[simp] theorem nHeight_next (p : CBlockIndex) (header : CBlockHeader) :
    (CBlockIndex.next p header).nHeight = p.nHeight + 1 := rfl

@[simp] theorem nBits_next (p : CBlockIndex) (header : CBlockHeader) :
    (CBlockIndex.next p header).nBits = header.nBits := rfl

variable {params : Params} {pindexLast : CBlockIndex}

theorem bbGetTargetTimespan_eq {height interval : Int}
    (h : bbGetRetargetInterval height params = some interval) :
    bbGetTargetTimespan height params = some (interval * params.nPowTargetSpacing) := by
  simp [bbGetTargetTimespan, h]

theorem getNextWorkRequired_inPeriod (pblock : CBlockHeader)
    (hmin : params.fPowAllowMinDifficultyBlocks = false) (h : InPeriod params pindexLast) :
    getNextWorkRequired pindexLast pblock params = some pindexLast.nBits := by
  obtain ⟨interval, r, hinterval, hmod, hr⟩ := h
  simp [getNextWorkRequired, hinterval, hmod, hr, hmin]

theorem getNextWorkRequired_atRetarget {pindexFirst : CBlockIndex}
    {span : Int} (pblock : CBlockHeader) (h : AtRetarget params pindexLast pindexFirst span) :
    getNextWorkRequired pindexLast pblock params =
      calculateNextWorkRequired pindexLast pindexFirst.getBlockTime params := by
  obtain ⟨interval, hinterval, hmod, hfirst⟩ := h.period
  simp [getNextWorkRequired, hinterval, hmod, hfirst]

end ChainLemmas

open ChainLemmas

variable {params : Params}

/-- What `GetNextWorkRequired` does without the minimum difficulty rule. -/
theorem getNextWorkRequired_cases {pindexLast : CBlockIndex} {pblock : CBlockHeader}
    {nBits : BitVec 32} (hmin : params.fPowAllowMinDifficultyBlocks = false)
    (h : getNextWorkRequired pindexLast pblock params = some nBits) :
    (InPeriod params pindexLast ∧ nBits = pindexLast.nBits) ∨
    (∃ pindexFirst span, AtRetarget params pindexLast pindexFirst span ∧
      calculateNextWorkRequired pindexLast pindexFirst.getBlockTime params = some nBits) := by
  simp only [getNextWorkRequired, hmin, bind_eq_bind, bind_eq_some_iff] at h
  obtain ⟨interval, hinterval, r, hmod, h⟩ := h
  by_cases hr : r = 0
  · subst hr
    obtain ⟨pindexFirst, hfirst, hcalc⟩ := by simpa [bind_eq_some_iff] using h
    exact .inr ⟨pindexFirst, _, ⟨⟨interval, hinterval, hmod, hfirst⟩,
      bbGetTargetTimespan_eq hinterval⟩, hcalc⟩
  · have heq : pindexLast.nBits = nBits := by simpa [hr] using h
    exact .inl ⟨⟨interval, r, hinterval, hmod, hr⟩, heq.symm⟩

variable {genesis : CBlockHeader}

theorem FollowsWork.of_below {pindex tip : CBlockIndex}
    (h : FollowsWork params genesis tip) (hb : pindex.Below tip) :
    FollowsWork params genesis pindex := by
  induction hb with
  | refl => exact h
  | next _ ih =>
    cases h with
    | next _ hprev _ => exact ih hprev

/-- What holds of the genesis `nBits` and survives every retarget holds of the
`nBits` of every block. -/
theorem FollowsWork.nBits_induction (Inv : BitVec 32 → Prop)
    (hmin : params.fPowAllowMinDifficultyBlocks = false) (hgenesis : Inv genesis.nBits)
    {tip : CBlockIndex}
    (hstep : ∀ {pindexLast pindexFirst : CBlockIndex} {span : Int} {nBits : BitVec 32},
      pindexLast.Below tip → AtRetarget params pindexLast pindexFirst span → Inv pindexLast.nBits →
      calculateNextWorkRequired pindexLast pindexFirst.getBlockTime params = some nBits → Inv nBits)
    (h : FollowsWork params genesis tip) : Inv tip.nBits := by
  induction h with
  | genesis => exact hgenesis
  | next _ _ hwork ih =>
    have hlast := ih fun hb => hstep hb.next
    rcases getNextWorkRequired_cases hmin hwork with ⟨_, heq⟩ | ⟨pindexFirst, span, hat, hcalc⟩
    · rw [nBits_next, heq]
      exact hlast
    · exact hstep (.next .refl) hat hlast hcalc

/-! ## Runs of blocks inside one period -/

/-- `count` blocks over `p` with the same `nBits`; the block at height `h` has
the time `time h`. -/
def CBlockIndex.extend (p : CBlockIndex) (time : Nat → BitVec 32) : Nat → CBlockIndex
  | 0 => p
  | count + 1 =>
    .next (p.extend time count) { nTime := time (p.nHeight + count + 1), nBits := p.nBits }

namespace ChainLemmas

variable (p : CBlockIndex) (time : Nat → BitVec 32) {count : Nat}

theorem nHeight_extend (count : Nat) : (p.extend time count).nHeight = p.nHeight + count := by
  induction count with
  | zero => rfl
  | succ count ih => rw [extend, nHeight_next, ih, Nat.add_assoc]

theorem nBits_extend (count : Nat) : (p.extend time count).nBits = p.nBits := by
  cases count <;> rfl

theorem nBits_of_below_extend {pindex : CBlockIndex} {header : CBlockHeader}
    (h : pindex.Below ((CBlockIndex.genesis header).extend time count)) :
    pindex.nBits = header.nBits := by
  induction count with
  | zero =>
    cases h
    rfl
  | succ count ih =>
    cases h with
    | refl => rfl
    | next h => exact ih h

theorem walk_extend {height : Int} (h : height ≤ p.nHeight) :
    (p.extend time count).walk height = p.walk height := by
  induction count with
  | zero => rfl
  | succ count ih =>
    rw [extend, walk, if_pos, ih]
    rw [nHeight_next, nHeight_extend]
    omega

theorem walk_self : p.walk p.nHeight = p := by
  cases p with
  | genesis => rfl
  | next => simp [walk]

theorem getAncestor_extend (count : Nat) :
    (p.extend time count).getAncestor p.nHeight = some p := by
  rw [getAncestor, if_neg, walk_extend p time (le_refl _), walk_self]
  rw [nHeight_extend]
  omega

theorem followsWork_extend
    (hmin : params.fPowAllowMinDifficultyBlocks = false) (hp : FollowsWork params genesis p)
    (hperiod : ∀ k < count, InPeriod params (p.extend time k)) :
    FollowsWork params genesis (p.extend time count) := by
  induction count with
  | zero => exact hp
  | succ count ih =>
    have hwork := getNextWorkRequired_inPeriod
      { nTime := time (p.nHeight + count + 1), nBits := p.nBits } hmin
      (hperiod count (Nat.lt_succ_self count))
    rw [nBits_extend] at hwork
    exact .next _ (ih fun k hk => hperiod k (by omega)) hwork

end ChainLemmas

end Bitcoboost
