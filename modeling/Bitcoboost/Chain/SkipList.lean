import Bitcoboost.Chain.Ancestors
import Bitcoboost.Lib.LowestOne

/-!
# The skip list of the block index

`GetAncestor` of `chain.cpp` with the pointers that `BuildSkip` sets, over a tree of entries.
It returns the entry that following `pprev` leads to, and the heights that it goes through do
not depend on the entries: `walkLoop_eq` says both. `steps` counts them.
-/

namespace Bitcoboost

open Option Nat

def invertLowestOne (n : Nat) : Nat := n &&& (n - 1)

def getSkipHeight (height : Nat) : Nat :=
  if height < 2 then 0
  else if height % 2 = 1 then invertLowestOne (invertLowestOne (height - 1)) + 1
  else invertLowestOne height

/-- The condition under which `GetAncestor` follows `pskip`, besides that there is one. -/
def FollowsSkip (height heightWalk : Nat) : Prop :=
  let heightSkip := getSkipHeight heightWalk
  let heightSkipPrev := getSkipHeight (heightWalk - 1)
  heightSkip = height ∨ (heightSkip > height ∧
    ¬(heightSkipPrev + 2 < heightSkip ∧ heightSkipPrev ≥ height))

instance (height heightWalk : Nat) : Decidable (FollowsSkip height heightWalk) :=
  inferInstanceAs (Decidable (_ ∨ _))

/-- The entries of a tree of block indexes, with what `GetAncestor` reads of them. -/
structure BlockTree (ι : Type) where
  pprev : ι → Option ι
  pskip : ι → Option ι
  nHeight : ι → Nat

namespace BlockTree

variable {ι : Type}

section Model

variable (tree : BlockTree ι)

/-- The loop of `GetAncestor`, with the number of entries that it goes to. `none` is the
assertion that there is a `pprev`. Each turn goes down. -/
def walkLoop (height : Nat) : Nat → ι → Nat → Option (ι × Nat)
  | 0, pindexWalk, heightWalk => if heightWalk > height then none else some (pindexWalk, 0)
  | fuel + 1, pindexWalk, heightWalk =>
    if heightWalk > height then
      match (if FollowsSkip height heightWalk then tree.pskip pindexWalk else none) with
      | some pskip => (walkLoop height fuel pskip (getSkipHeight heightWalk)).map fun r =>
          (r.1, r.2 + 1)
      | none => (tree.pprev pindexWalk).bind fun pprev =>
        (walkLoop height fuel pprev (heightWalk - 1)).map fun r => (r.1, r.2 + 1)
    else some (pindexWalk, 0)

/-- The loop of `GetAncestor` from an entry. -/
def walk (p : ι) (height : Nat) : Option (ι × Nat) :=
  tree.walkLoop height (tree.nHeight p) p (tree.nHeight p)

def getAncestor (p : ι) (height : Int) : Option ι :=
  if height > tree.nHeight p ∨ height < 0 then none else (tree.walk p height.toNat).map Prod.fst

/-- What `BuildSkip` sets `pskip` to. -/
def buildSkip (p : ι) : Option ι :=
  (tree.pprev p).bind fun pprev => tree.getAncestor pprev (getSkipHeight (tree.nHeight p))

/-- Follow `pprev` a number of times. -/
def back : Nat → ι → Option ι
  | 0, p => some p
  | n + 1, p => (tree.pprev p).bind (back n)

/-- The loop of `LastCommonAncestor`, where the heights are the same. -/
def commonLoop [DecidableEq ι] : Nat → ι → ι → Option ι
  | 0, pa, pb => if pa = pb then some pa else none
  | fuel + 1, pa, pb =>
    if pa = pb then some pa
    else (tree.pprev pa).bind fun pa => (tree.pprev pb).bind fun pb => commonLoop fuel pa pb

def lastCommonAncestor [DecidableEq ι] (pa pb : ι) : Option ι :=
  if tree.nHeight pa > tree.nHeight pb then
    (tree.getAncestor pa (tree.nHeight pb)).bind fun pa => tree.commonLoop (tree.nHeight pb) pa pb
  else if tree.nHeight pb > tree.nHeight pa then
    (tree.getAncestor pb (tree.nHeight pa)).bind fun pb => tree.commonLoop (tree.nHeight pa) pa pb
  else tree.commonLoop (tree.nHeight pa) pa pb

/-- An entry is one higher than its parent. -/
structure Heights : Prop where
  genesis : ∀ p, tree.pprev p = none → tree.nHeight p = 0
  next : ∀ p q, tree.pprev p = some q → tree.nHeight p = tree.nHeight q + 1

/-- `pskip` was set by `BuildSkip`. -/
structure Skips : Prop extends Heights tree where
  skip : ∀ p, tree.pskip p = tree.buildSkip p

/-- A tree of block indexes has one genesis block, and its heights are of type `int`. -/
structure WellFormed : Prop extends Skips tree where
  root : ∀ p q, tree.pprev p = none → tree.pprev q = none → p = q
  int : ∀ p, tree.nHeight p < 2 ^ 31

end Model

variable {tree : BlockTree ι}

/-! ## Following `pprev` -/

theorem back_add (m n : Nat) (p : ι) :
    tree.back (m + n) p = (tree.back m p).bind (tree.back n) := by
  induction m generalizing p with
  | zero => rw [zero_add]; rfl
  | succ m ih =>
    rw [succ_add]
    cases h : tree.pprev p with
    | none => simp [back, h]
    | some q => simp [back, h, ih]

namespace Heights

theorem exists_pprev (hh : tree.Heights) {p : ι} (h : 0 < tree.nHeight p) :
    ∃ q, tree.pprev p = some q := by
  cases hp : tree.pprev p with
  | none => exact absurd (hh.genesis p hp) h.ne'
  | some q => exact ⟨q, rfl⟩

/-- There is an ancestor at every height below. -/
theorem exists_back (hh : tree.Heights) {n : Nat} {p : ι} (h : n ≤ tree.nHeight p) :
    ∃ a, tree.back n p = some a ∧ tree.nHeight a = tree.nHeight p - n := by
  induction n generalizing p with
  | zero => exact ⟨p, rfl, rfl⟩
  | succ n ih =>
    obtain ⟨q, hq⟩ := hh.exists_pprev (lt_of_lt_of_le n.succ_pos h)
    have hheight := hh.next p q hq
    obtain ⟨a, ha, hah⟩ := ih (p := q) (by omega)
    exact ⟨a, by simp [back, hq, ha], by omega⟩

theorem nHeight_back (hh : tree.Heights) {n : Nat} {p a : ι} (h : tree.back n p = some a) :
    tree.nHeight a + n = tree.nHeight p := by
  induction n generalizing p with
  | zero =>
    cases h
    rfl
  | succ n ih =>
    obtain ⟨q, hq, hback⟩ := Option.bind_eq_some_iff.mp h
    have := hh.next p q hq
    have := ih hback
    omega

end Heights

theorem getSkipHeight_lt {h : Nat} (hpos : 0 < h) : getSkipHeight h < h := by
  unfold getSkipHeight
  split
  · exact hpos
  · split
    · have hle : ∀ n, invertLowestOne n ≤ n := fun n => and_le_left
      have hlt : invertLowestOne (h - 1) < h - 1 := LowestOne.clear_lt (by omega)
      have := hle (invertLowestOne (h - 1))
      omega
    · exact LowestOne.clear_lt hpos.ne'

/-- The height that the loop goes to. -/
def nextHeight (height heightWalk : Nat) : Nat :=
  if FollowsSkip height heightWalk then getSkipHeight heightWalk else heightWalk - 1

variable {height heightWalk fuel : Nat}

theorem nextHeight_lt (h : height < heightWalk) : nextHeight height heightWalk < heightWalk := by
  unfold nextHeight
  split
  · exact getSkipHeight_lt (zero_lt_of_lt h)
  · exact sub_one_lt_of_lt h

theorem le_nextHeight (h : height < heightWalk) : height ≤ nextHeight height heightWalk := by
  unfold nextHeight
  split
  · next hfollows =>
    rcases hfollows with heq | ⟨hgt, _⟩
    · exact heq.ge
    · exact le_of_lt hgt
  · omega

/-- The number of entries that the loop goes to. -/
def steps (height heightWalk : Nat) : Nat :=
  if height < heightWalk then steps height (nextHeight height heightWalk) + 1 else 0
termination_by heightWalk
decreasing_by exact nextHeight_lt (by assumption)

/-! ## The loop is exact -/

/-- The skip pointers up to a height lead where they should. -/
def SkipsExact (tree : BlockTree ι) (N : Nat) : Prop :=
  ∀ p, 0 < tree.nHeight p → tree.nHeight p ≤ N →
    tree.pskip p = tree.back (tree.nHeight p - getSkipHeight (tree.nHeight p)) p

theorem walkLoop_eq (hh : tree.Heights) {w a : ι} (hskips : tree.SkipsExact (tree.nHeight w))
    (hheight : height ≤ tree.nHeight w) (hfuel : tree.nHeight w ≤ height + fuel)
    (ha : tree.back (tree.nHeight w - height) w = some a) :
    tree.walkLoop height fuel w (tree.nHeight w) = some (a, steps height (tree.nHeight w)) := by
  induction fuel generalizing w with
  | zero =>
    have heq : tree.nHeight w = height := by omega
    rw [heq, Nat.sub_self] at ha
    cases ha
    rw [walkLoop, heq, if_neg (lt_irrefl _), steps, if_neg (lt_irrefl _)]
  | succ fuel ih =>
    rw [steps]
    unfold walkLoop
    by_cases hgt : tree.nHeight w > height
    · have hpos : 0 < tree.nHeight w := zero_lt_of_lt hgt
      -- the next entry is the ancestor at the next height, and the rest of the way starts there
      have hrest : ∀ v, tree.back (tree.nHeight w - nextHeight height (tree.nHeight w)) w = some v →
          tree.walkLoop height fuel v (nextHeight height (tree.nHeight w))
            = some (a, steps height (nextHeight height (tree.nHeight w))) := by
        intro v hv
        have hlt := nextHeight_lt hgt
        have hle := le_nextHeight hgt
        have hvheight : tree.nHeight v = nextHeight height (tree.nHeight w) := by
          have := hh.nHeight_back hv
          omega
        have hback : tree.back (tree.nHeight v - height) v = some a := by
          have hsplit : tree.nHeight w - height
              = tree.nHeight w - nextHeight height (tree.nHeight w) +
                (tree.nHeight v - height) := by omega
          rw [hsplit, back_add, hv] at ha
          exact ha
        rw [← hvheight] at hle hlt ⊢
        exact ih (fun p hp hle' => hskips p hp (by omega)) hle (by omega) hback
      rw [if_pos hgt, if_pos hgt]
      by_cases hfollows : FollowsSkip height (tree.nHeight w)
      · have hnext : nextHeight height (tree.nHeight w) = getSkipHeight (tree.nHeight w) :=
          if_pos hfollows
        obtain ⟨v, hv, _⟩ :=
          hh.exists_back (p := w) (sub_le (tree.nHeight w) (getSkipHeight (tree.nHeight w)))
        have h := hrest v (by rw [hnext]; exact hv)
        rw [if_pos hfollows, hskips w hpos le_rfl, hv]
        rw [hnext] at h ⊢
        dsimp only
        rw [h]
        rfl
      · have hnext : nextHeight height (tree.nHeight w) = tree.nHeight w - 1 := if_neg hfollows
        obtain ⟨q, hq⟩ := hh.exists_pprev hpos
        have hone : tree.nHeight w - (tree.nHeight w - 1) = 1 := by omega
        have h := hrest q (by rw [hnext, hone]; simp [back, hq])
        rw [if_neg hfollows]
        rw [hnext] at h ⊢
        rw [hq, bind_some, h]
        rfl
    · have heq : tree.nHeight w = height := by omega
      rw [heq, Nat.sub_self] at ha
      cases ha
      rw [if_neg hgt, if_neg hgt]

theorem walk_eq_of_skips (hh : tree.Heights) {p : ι} (hskips : tree.SkipsExact (tree.nHeight p))
    (h : height ≤ tree.nHeight p) :
    ∃ a, tree.back (tree.nHeight p - height) p = some a ∧
    tree.walk p height = some (a, steps height (tree.nHeight p)) := by
  obtain ⟨a, ha, _⟩ := hh.exists_back (p := p) (sub_le (tree.nHeight p) height)
  exact ⟨a, ha, walkLoop_eq hh hskips h (le_add_left _ _) ha⟩

theorem getAncestor_of_skips (hh : tree.Heights) {p : ι} (hskips : tree.SkipsExact (tree.nHeight p))
    (h : height ≤ tree.nHeight p) :
    tree.getAncestor p height = tree.back (tree.nHeight p - height) p := by
  obtain ⟨a, ha, hwalk⟩ := walk_eq_of_skips hh hskips h
  have hrange : ¬((height : Int) > tree.nHeight p ∨ (height : Int) < 0) := by omega
  rw [getAncestor, if_neg hrange, Int.toNat_natCast, hwalk, ha]
  rfl

/-- `BuildSkip` of an entry walks from its parent, so the pointers are right from the genesis
block upwards. -/
theorem Skips.skipsExact (hs : tree.Skips) (N : Nat) : tree.SkipsExact N := by
  induction N with
  | zero => exact fun p hpos hle => absurd hpos (by omega)
  | succ N ih =>
    intro p hpos hle
    obtain ⟨q, hq⟩ := hs.exists_pprev hpos
    have hheight := hs.next p q hq
    have hlt := getSkipHeight_lt hpos
    have hskips : tree.SkipsExact (tree.nHeight q) := fun r hr hrle => ih r hr (by omega)
    have hsplit : tree.nHeight p - getSkipHeight (tree.nHeight p)
        = tree.nHeight q - getSkipHeight (tree.nHeight p) + 1 := by omega
    rw [hs.skip, buildSkip, hq, bind_some, getAncestor_of_skips hs.toHeights hskips (by omega),
      hsplit, back, hq, bind_some]

/-- Pointers that lead where they should are those of `BuildSkip`. -/
theorem Heights.skips (hh : tree.Heights) (h : ∀ p, tree.pskip p = (tree.pprev p).bind
      (tree.back (tree.nHeight p - 1 - getSkipHeight (tree.nHeight p)))) : tree.Skips := by
  have hexact : ∀ N, tree.SkipsExact N := by
    intro N p hpos _
    have hlt := getSkipHeight_lt hpos
    rw [h, show tree.nHeight p - getSkipHeight (tree.nHeight p) =
      tree.nHeight p - 1 - getSkipHeight (tree.nHeight p) + 1 by omega]
    rfl
  refine ⟨hh, fun p => ?_⟩
  rw [h, buildSkip]
  cases hq : tree.pprev p with
  | none => rfl
  | some q =>
    have hheight := hh.next p q hq
    have hlt := getSkipHeight_lt (show 0 < tree.nHeight p by omega)
    rw [bind_some, bind_some, getAncestor_of_skips hh (hexact _) (by omega), hheight,
      Nat.add_sub_cancel]

namespace Skips

variable (hs : tree.Skips) {p : ι} {height : Nat}
include hs

/-- `GetAncestor` follows `pprev` down to the height. -/
theorem getAncestor_eq (h : height ≤ tree.nHeight p) :
    tree.getAncestor p height = tree.back (tree.nHeight p - height) p :=
  getAncestor_of_skips hs.toHeights (hs.skipsExact _) h

end Skips

/-! ## Last common ancestors -/

/-- The first entry is the second one or an ancestor of it. -/
def IsAncestor (tree : BlockTree ι) (a p : ι) : Prop := ∃ n, tree.back n p = some a

theorem isAncestor_pprev {a p q : ι} (hq : tree.pprev p = some q) (ha : tree.IsAncestor a p)
    (hne : a ≠ p) : tree.IsAncestor a q := by
  obtain ⟨n, hn⟩ := ha
  cases n with
  | zero => exact absurd (Option.some.inj hn).symm hne
  | succ n =>
    rw [back, hq] at hn
    exact ⟨n, hn⟩

theorem isAncestor_of_pprev {a p q : ι} (hq : tree.pprev p = some q) (ha : tree.IsAncestor a q) :
    tree.IsAncestor a p := by
  obtain ⟨n, hn⟩ := ha
  exact ⟨n + 1, by rw [back, hq]; exact hn⟩

structure LastCommon (tree : BlockTree ι) (pa pb c : ι) : Prop where
  left : tree.IsAncestor c pa
  right : tree.IsAncestor c pb
  highest : ∀ d, tree.IsAncestor d pa → tree.IsAncestor d pb → tree.nHeight d ≤ tree.nHeight c

namespace WellFormed

variable (hwf : tree.WellFormed)
include hwf

/-- An ancestor of an entry that is not above another ancestor of it is an ancestor of that. -/
theorem isAncestor_of_le {a b p : ι} (ha : tree.IsAncestor a p) (hb : tree.IsAncestor b p)
    (h : tree.nHeight a ≤ tree.nHeight b) : tree.IsAncestor a b := by
  obtain ⟨m, hm⟩ := ha
  obtain ⟨n, hn⟩ := hb
  have hma := hwf.nHeight_back hm
  have hnb := hwf.nHeight_back hn
  refine ⟨m - n, ?_⟩
  rw [show m = n + (m - n) by omega, back_add, hn] at hm
  exact hm

theorem nHeight_le {a p : ι} (ha : tree.IsAncestor a p) : tree.nHeight a ≤ tree.nHeight p := by
  obtain ⟨n, hn⟩ := ha
  have := hwf.nHeight_back hn
  omega

theorem eq_of_nHeight {a p : ι} (ha : tree.IsAncestor a p)
    (h : tree.nHeight a = tree.nHeight p) : a = p := by
  obtain ⟨n, hn⟩ := ha
  have := hwf.nHeight_back hn
  rw [show n = 0 by omega] at hn
  exact (Option.some.inj hn).symm

theorem lastCommon_self (p : ι) : tree.LastCommon p p p :=
  ⟨⟨0, rfl⟩, ⟨0, rfl⟩, fun _ hd _ => hwf.nHeight_le hd⟩

theorem pprev_eq_none {p : ι} (h : tree.nHeight p = 0) : tree.pprev p = none := by
  by_contra hne
  obtain ⟨q, hq⟩ := ne_none_iff_exists'.mp hne
  have := hwf.next p q hq
  omega

/-- Going down to a height that is not below the other entry keeps the common ancestors. -/
theorem lastCommon_of_back {pa a pb c : ι} (ha : tree.IsAncestor a pa)
    (hheight : tree.nHeight pb ≤ tree.nHeight a)
    (h : tree.LastCommon a pb c) : tree.LastCommon pa pb c := by
  obtain ⟨m, hm⟩ := ha
  obtain ⟨n, hn⟩ := h.left
  refine ⟨⟨m + n, by rw [back_add, hm]; exact hn⟩, h.right, fun d hda hdb => ?_⟩
  exact h.highest d (hwf.isAncestor_of_le hda ⟨m, hm⟩ ((hwf.nHeight_le hdb).trans hheight)) hdb

variable [DecidableEq ι]

/-- The loop finds the last common ancestor of two entries of one height. -/
theorem commonLoop_spec {pa pb : ι} (hsame : tree.nHeight pa = tree.nHeight pb)
    (hfuel : tree.nHeight pa ≤ fuel) :
    ∃ c, tree.commonLoop fuel pa pb = some c ∧ tree.LastCommon pa pb c := by
  induction fuel generalizing pa pb with
  | zero =>
    have heq := hwf.root pa pb (hwf.pprev_eq_none (by omega)) (hwf.pprev_eq_none (by omega))
    exact ⟨pa, by rw [commonLoop, if_pos heq], heq ▸ hwf.lastCommon_self pa⟩
  | succ fuel ih =>
    unfold commonLoop
    by_cases heq : pa = pb
    · exact ⟨pa, if_pos heq, heq ▸ hwf.lastCommon_self pa⟩
    · have hpos : 0 < tree.nHeight pa := by
        by_contra hzero
        exact heq (hwf.root pa pb (hwf.pprev_eq_none (by omega)) (hwf.pprev_eq_none (by omega)))
      obtain ⟨qa, hqa⟩ := hwf.exists_pprev hpos
      obtain ⟨qb, hqb⟩ := hwf.exists_pprev (hsame ▸ hpos)
      have hha := hwf.next pa qa hqa
      have hhb := hwf.next pb qb hqb
      obtain ⟨c, hc, hcommon⟩ := ih (show tree.nHeight qa = tree.nHeight qb by omega) (by omega)
      refine ⟨c, by rw [if_neg heq, hqa, bind_some, hqb, bind_some, hc],
        isAncestor_of_pprev hqa hcommon.left, isAncestor_of_pprev hqb hcommon.right,
        fun d hda hdb => ?_⟩
      have hnea : d ≠ pa := by
        rintro rfl
        exact heq (hwf.eq_of_nHeight hdb hsame)
      have hneb : d ≠ pb := by
        rintro rfl
        exact heq (hwf.eq_of_nHeight hda hsame.symm).symm
      exact hcommon.highest d (isAncestor_pprev hqa hda hnea) (isAncestor_pprev hqb hdb hneb)

theorem lastCommonAncestor_lastCommon (pa pb : ι) :
    ∃ c, tree.lastCommonAncestor pa pb = some c ∧ tree.LastCommon pa pb c := by
  have hdown : ∀ {p q : ι}, tree.nHeight q < tree.nHeight p →
      ∃ a, tree.getAncestor p (tree.nHeight q) = some a ∧ tree.nHeight a = tree.nHeight q ∧
      tree.IsAncestor a p := by
    intro p q hlt
    obtain ⟨a, ha, hah⟩ := hwf.exists_back (p := p) (sub_le (tree.nHeight p) (tree.nHeight q))
    exact ⟨a, by rw [hwf.getAncestor_eq hlt.le, ha], by omega, _, ha⟩
  unfold lastCommonAncestor
  split
  · next hgt =>
    obtain ⟨a, ha, hah, hanc⟩ := hdown hgt
    obtain ⟨c, hc, hcommon⟩ := hwf.commonLoop_spec hah hah.le
    exact ⟨c, by rw [ha, bind_some, hc], hwf.lastCommon_of_back hanc hah.ge hcommon⟩
  · split
    · next hgt =>
      obtain ⟨b, hb, hbh, hanc⟩ := hdown hgt
      obtain ⟨c, hc, hcommon⟩ := hwf.commonLoop_spec hbh.symm le_rfl
      have hswap :=
        hwf.lastCommon_of_back hanc hbh.ge ⟨hcommon.right, hcommon.left, fun d hda hdb =>
          hcommon.highest d hdb hda⟩
      exact ⟨c, by rw [hb, bind_some, hc], hswap.right, hswap.left, fun d hda hdb =>
        hswap.highest d hdb hda⟩
    · exact hwf.commonLoop_spec (by omega) le_rfl

end WellFormed

/-! ## The chain of entries -/

/-- The entries of `CBlockIndex`, each with the ancestor that `BuildSkip` sets. -/
def ofChain : BlockTree CBlockIndex where
  pprev := CBlockIndex.pprev
  pskip p := p.pprev.bind fun pprev => pprev.getAncestor (getSkipHeight p.nHeight)
  nHeight := CBlockIndex.nHeight

theorem ofChain_back {p : CBlockIndex} {n : Nat} (h : n ≤ p.nHeight) :
    ofChain.back n p = some (p.walk (p.nHeight - n : Nat)) := by
  induction n generalizing p with
  | zero => exact congrArg some (ChainLemmas.walk_self (p := p)).symm
  | succ n ih =>
    cases p with
    | genesis header => cases h
    | next pprev header =>
      have hle : n ≤ pprev.nHeight := le_of_succ_le_succ h
      have hwalk :
          (CBlockIndex.next pprev header).walk
          ((CBlockIndex.next pprev header).nHeight - (n + 1) : Nat)
          = pprev.walk (pprev.nHeight - n : Nat) := by
        rw [ChainLemmas.nHeight_next, succ_sub_succ]
        exact AncestorLemmas.walk_next_of_le (sub_le _ _)
      rw [hwalk, ← ih hle]
      rfl

theorem ofChain_skips : ofChain.Skips := by
  have hh : ofChain.Heights := by
    refine ⟨fun p hp => ?_, fun p q hq => ?_⟩ <;> cases p
    · rfl
    · cases hp
    · cases hq
    · cases hq
      rfl
  refine hh.skips fun p => ?_
  cases p with
  | genesis header => rfl
  | next pprev header =>
    have hskip : getSkipHeight (pprev.nHeight + 1) ≤ pprev.nHeight :=
      le_of_lt_succ (getSkipHeight_lt (succ_pos _))
    have hback :=
      ofChain_back (p := pprev) (sub_le pprev.nHeight (getSkipHeight (pprev.nHeight + 1)))
    rw [Nat.sub_sub_self hskip] at hback
    exact (AncestorLemmas.getAncestor_of_le hskip).trans hback.symm

/-- `GetAncestor` with skip pointers is the walk over `pprev` that the other modules have. -/
theorem ofChain_getAncestor (p : CBlockIndex) (height : Int) :
    ofChain.getAncestor p height = p.getAncestor height := by
  by_cases hrange : height > p.nHeight ∨ height < 0
  · rw [getAncestor, CBlockIndex.getAncestor, if_pos hrange]
    exact if_pos hrange
  · obtain ⟨n, rfl⟩ : ∃ n : Nat, height = n := ⟨height.toNat, by omega⟩
    have hle : n ≤ p.nHeight := by omega
    rw [ofChain_skips.getAncestor_eq hle, AncestorLemmas.getAncestor_of_le hle]
    have hback := ofChain_back (p := p) (sub_le p.nHeight n)
    rw [Nat.sub_sub_self hle] at hback
    exact hback

end BlockTree

end Bitcoboost
