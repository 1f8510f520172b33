import Bitcoboost.Chain.MedianTime

/-!
# Version bits

`AbstractThresholdConditionChecker` of `versionbits.cpp`: the state of a deployment for the
block after an entry, with its cache. `bip9State` is the state without a cache: the rules are
applied once for every period from the genesis block on. Null pointers that are followed and
assertions that fail have no result.
-/

namespace Bitcoboost

open List Option Function Nat

inductive ThresholdState where
  | defined
  | started
  | lockedIn
  | active
  | failed
deriving DecidableEq, Repr

def alwaysActive : Int := -1

def neverActive : Int := -2

/-- What the virtual functions of `AbstractThresholdConditionChecker` return. -/
structure ThresholdConditionChecker where
  condition : CBlockIndex → Bool
  beginTime : Int
  endTime : Int
  minActivationHeight : Int
  period : Nat
  threshold : Int
  period_pos : 0 < period

structure BIP9Deployment where
  bit : Nat := 28
  nStartTime : Int := neverActive
  nTimeout : Int := neverActive
  minActivationHeight : Int := 0

/-- `VersionBitsConditionChecker`, for a window of `nMinerConfirmationWindow` blocks. -/
def versionBitsConditionChecker (deployment : BIP9Deployment) (nMinerConfirmationWindow : Nat)
    (nRuleChangeActivationThreshold : Int)
    (hwindow : 0 < nMinerConfirmationWindow) : ThresholdConditionChecker where
  condition pindex :=
    pindex.header.nVersion &&& 0xE0000000#32 = 0x20000000#32 &&
      pindex.header.nVersion &&& 1#32 <<< deployment.bit ≠ 0#32
  beginTime := deployment.nStartTime
  endTime := deployment.nTimeout
  minActivationHeight := deployment.minActivationHeight
  period := nMinerConfirmationWindow
  threshold := nRuleChangeActivationThreshold
  period_pos := hwindow

/-- `ThresholdConditionCache`. The null pointer is a key. -/
abbrev ThresholdConditionCache := Option CBlockIndex → Option ThresholdState

namespace ThresholdConditionChecker

variable (checker : ThresholdConditionChecker)

/-- The last entry of the period before the one of the block after `pindexPrev`. -/
def periodParent (pindexPrev : CBlockIndex) : Option CBlockIndex :=
  pindexPrev.getAncestor (pindexPrev.nHeight - ((pindexPrev.nHeight + 1) % checker.period : Nat))

/-- The entry one period earlier. -/
def previousPeriodParent (pindexPrev : CBlockIndex) : Option CBlockIndex :=
  pindexPrev.getAncestor (pindexPrev.nHeight - checker.period)

/-- The loop of `GetStateFor` down to an entry whose state is known, with the entries to compute.
Every turn goes down by a period. -/
def walkBack (cache : ThresholdConditionCache) :
    Nat → Option CBlockIndex → List CBlockIndex →
    Option (Option CBlockIndex × List CBlockIndex × ThresholdConditionCache)
  | 0, _, _ => none
  | fuel + 1, pindexPrev, vToCompute =>
    if cache pindexPrev ≠ none then some (pindexPrev, vToCompute, cache)
    else
      match pindexPrev with
      | none => some (none, vToCompute, update cache none (some .defined))
      | some pindex =>
        if pindex.getMedianTimePast < checker.beginTime then
          some (some pindex, vToCompute, update cache (some pindex) (some .defined))
        else walkBack cache fuel (checker.previousPeriodParent pindex) (pindex :: vToCompute)

/-- The loop that counts the blocks of a period. -/
def countCondition : Nat → Option CBlockIndex → Option Nat
  | 0, _ => some 0
  | _ + 1, none => none
  | i + 1, some pindexCount => do
    let count ← countCondition i pindexCount.pprev
    some (if checker.condition pindexCount then count + 1 else count)

/-- The state of the period after `pindexPrev`. -/
def stateNext (state : ThresholdState) (pindexPrev : CBlockIndex) : Option ThresholdState :=
  match state with
  | .defined => some (if pindexPrev.getMedianTimePast ≥ checker.beginTime then .started
      else .defined)
  | .started => do
    let count ← checker.countCondition checker.period (some pindexPrev)
    some (if (count : Int) ≥ checker.threshold then .lockedIn
      else if pindexPrev.getMedianTimePast ≥ checker.endTime then .failed
      else .started)
  | .lockedIn => some (if (pindexPrev.nHeight + 1 : Int) ≥ checker.minActivationHeight then .active
      else .lockedIn)
  | .failed => some .failed
  | .active => some .active

/-- The loop of `GetStateFor` over the entries to compute. -/
def walkForward : List CBlockIndex → ThresholdState → ThresholdConditionCache →
    Option (ThresholdState × ThresholdConditionCache)
  | [], state, cache => some (state, cache)
  | pindexPrev :: vToCompute, state, cache => do
    let state ← checker.stateNext state pindexPrev
    walkForward vToCompute state (update cache (some pindexPrev) (some state))

variable (pindexPrev : Option CBlockIndex)

/-- `GetStateFor`, from the last entry of a period on. -/
def stateFromParent (cache : ThresholdConditionCache) :
    Option (ThresholdState × ThresholdConditionCache) := do
  let (pindexPrev, vToCompute, cache) ← checker.walkBack cache (pindexPrev.elim 1 fun pindex =>
    pindex.nHeight + 2) pindexPrev []
  let state ← cache pindexPrev
  checker.walkForward vToCompute state cache

def getStateFor (cache : ThresholdConditionCache) :
    Option (ThresholdState × ThresholdConditionCache) :=
  if checker.beginTime = alwaysActive then some (.active, cache)
  else if checker.beginTime = neverActive then some (.failed, cache)
  else checker.stateFromParent (pindexPrev.bind checker.periodParent) cache

def sinceLoop (initialState : ThresholdState) :
    Nat → CBlockIndex → ThresholdConditionCache → Option (CBlockIndex × ThresholdConditionCache)
  | 0, _, _ => none
  | fuel + 1, pindexPrev, cache =>
    match checker.previousPeriodParent pindexPrev with
    | none => some (pindexPrev, cache)
    | some previousPeriodParent => do
      let (state, cache) ← checker.getStateFor (some previousPeriodParent) cache
      if state = initialState then sinceLoop initialState fuel previousPeriodParent cache
      else some (pindexPrev, cache)

def getStateSinceHeightFor (cache : ThresholdConditionCache) :
    Option (Nat × ThresholdConditionCache) :=
  if checker.beginTime = alwaysActive ∨ checker.beginTime = neverActive then some (0, cache)
  else do
    let (initialState, cache) ← checker.getStateFor pindexPrev cache
    if initialState = .defined then some (0, cache)
    else do
      let pindexPrev ← pindexPrev
      let pindexPrev ← checker.periodParent pindexPrev
      let (pindexPrev, cache) ← checker.sinceLoop initialState
        (pindexPrev.nHeight + 1) pindexPrev cache
      some (pindexPrev.nHeight + 1, cache)

/-! ## BIP9 -/

/-- The rules, at the end of the period `k` of a chain. -/
def bip9Step (tip : CBlockIndex) (k : Nat) : ThresholdState → ThresholdState
  | .defined => if (tip.walk ((k + 1) * checker.period - 1 : Nat)).getMedianTimePast ≥
      checker.beginTime then .started else .defined
  | .started =>
    if (((List.range checker.period).countP fun i =>
        checker.condition (tip.walk (k * checker.period + i : Nat)) : Nat) : Int)
        ≥ checker.threshold then .lockedIn
    else if (tip.walk ((k + 1) * checker.period - 1 : Nat)).getMedianTimePast ≥ checker.endTime then
      .failed
    else .started
  | .lockedIn => if (((k + 1) * checker.period : Nat) : Int) ≥
      checker.minActivationHeight then .active else .lockedIn
  | .failed => .failed
  | .active => .active

/-- The state in the period `k` of a chain. -/
def bip9State (tip : CBlockIndex) : Nat → ThresholdState
  | 0 => .defined
  | k + 1 => checker.bip9Step tip k (bip9State tip k)

/-- The period of the block after an entry. -/
def periodAfter : Option CBlockIndex → Nat
  | none => 0
  | some pindexPrev => (pindexPrev.nHeight + 1) / checker.period

/-- The state in the period `k` of the chain that a block after `pindexPrev` ends. -/
def bip9StateAt (k : Nat) : ThresholdState :=
  pindexPrev.elim .defined fun pindexPrev => checker.bip9State pindexPrev k

/-- The start time of the deployment is a time, not one of the special values. -/
def Scheduled : Prop := checker.beginTime ≠ alwaysActive ∧ checker.beginTime ≠ neverActive

/-- The caches that calls of `GetStateFor` leave, on entries whose times obey the rule of
medians. -/
inductive Produced : ThresholdConditionCache → Prop
  | empty : Produced fun _ => none
  | call {cache cache' : ThresholdConditionCache} {pindexPrev : Option CBlockIndex}
      {state : ThresholdState} : Produced cache →
      (∀ pindex, pindexPrev = some pindex → pindex.TimesOrdered) →
        checker.getStateFor pindexPrev cache = some (state, cache') →
      Produced cache'

end ThresholdConditionChecker

namespace VersionBitsLemmas

open ChainLemmas AncestorLemmas MedianTimeLemmas ThresholdConditionChecker

variable {checker : ThresholdConditionChecker} {tip : CBlockIndex} {k h k : Nat}

/-! ## The ends of the periods -/

/-- The last entry before the period `k` of a chain. -/
def boundary (checker : ThresholdConditionChecker) (tip : CBlockIndex) (k : Nat) :
    Option CBlockIndex :=
  tip.getAncestor ((k * checker.period : Nat) - 1 : Int)

theorem boundary_zero : boundary checker tip 0 = none := by
  refine if_pos (.inr ?_)
  omega

theorem period_le (checker : ThresholdConditionChecker) (k : Nat) : 0 < (k + 1) * checker.period :=
  mul_pos (succ_pos k) checker.period_pos

theorem boundary_succ (h : (k + 1) * checker.period ≤ tip.nHeight + 1) :
    boundary checker tip (k + 1) = some (tip.walk ((k + 1) * checker.period - 1 : Nat)) := by
  have hpos := period_le checker k
  have hcast :
    (((k + 1) * checker.period : Nat) - 1 : Int) = ((k + 1) * checker.period - 1 : Nat) := by omega
  rw [boundary, hcast, getAncestor_of_le (by omega)]

theorem periodParent_eq (pindexPrev : CBlockIndex) :
    checker.periodParent pindexPrev = boundary checker pindexPrev
    ((pindexPrev.nHeight + 1) / checker.period) := by
  have hdiv := div_add_mod (pindexPrev.nHeight + 1) checker.period
  rw [mul_comm] at hdiv
  unfold periodParent boundary
  congr 1
  omega

theorem previousPeriodParent_walk (h : (k + 1) * checker.period ≤ tip.nHeight + 1) :
    checker.previousPeriodParent (tip.walk ((k + 1) * checker.period - 1 : Nat)) =
      boundary checker tip k := by
  have hpos := period_le checker k
  have hheight := (walk_spec (show (k + 1) * checker.period - 1 ≤ tip.nHeight by omega)).2.1
  have hsucc : (k + 1) * checker.period = k * checker.period + checker.period :=
    succ_mul k checker.period
  unfold previousPeriodParent boundary
  rw [hheight]
  cases k with
  | zero => rw [CBlockIndex.getAncestor, CBlockIndex.getAncestor, if_pos (.inr (by omega)),
      if_pos (.inr (by omega))]
  | succ k =>
    have hpos' := period_le checker k
    have hcast : (((k + 1 + 1) * checker.period - 1 : Nat) : Int) - checker.period =
      ((k + 1) * checker.period - 1 : Nat) := by omega
    have hcast' : (((k + 1) * checker.period : Nat) - 1 : Int) =
      ((k + 1) * checker.period - 1 : Nat) := by omega
    rw [hcast, hcast', getAncestor_of_le (by omega), getAncestor_of_le (by omega),
      walk_walk (by omega) (by omega)]

/-! ## The rules -/

theorem pprev_walk (hh : h ≤ tip.nHeight) : (tip.walk h).pprev = tip.getAncestor (h - 1 : Int) := by
  obtain ⟨hbelow, hheight, _⟩ := walk_spec hh
  cases hwalk : tip.walk h with
  | genesis header =>
    rw [hwalk] at hheight
    refine (if_pos (.inr ?_)).symm
    rw [← hheight, CBlockIndex.nHeight]
    decide
  | next pprev header =>
    rw [hwalk, nHeight_next] at hheight
    rw [hwalk] at hbelow
    have hcast : ((h : Nat) - 1 : Int) = (pprev.nHeight : Nat) := by omega
    have hpprev : pprev.Below tip := (CBlockIndex.Below.next .refl).trans hbelow
    obtain ⟨hbelow', hheight', _⟩ := walk_spec (nHeight_le_of_below hpprev)
    rw [hcast, getAncestor_of_le (nHeight_le_of_below hpprev),
      eq_of_nHeight hbelow' hpprev hheight']
    rfl

theorem countCondition_eq {start n : Nat} (h : start + n ≤ tip.nHeight + 1) :
    checker.countCondition n (tip.getAncestor (start + n - 1 : Int)) =
      some ((List.range n).countP fun i => checker.condition (tip.walk (start + i : Nat))) := by
  induction n with
  | zero => rfl
  | succ n ih =>
    have hcast : ((start : Int) + (n + 1 : Nat) - 1 : Int) = (start + n : Nat) := by omega
    have hcast' : (((start + n : Nat) : Int) - 1) = (start : Int) + n - 1 := by omega
    rw [hcast, getAncestor_of_le (by omega), countCondition, pprev_walk (by omega), hcast',
      ih (by omega), bind_eq_bind, bind_some, range_succ, countP_append, countP_singleton]
    split <;> rfl

theorem stateNext_eq (h : (k + 1) * checker.period ≤ tip.nHeight + 1) (state : ThresholdState) :
    checker.stateNext state (tip.walk ((k + 1) * checker.period - 1 : Nat)) =
      some (checker.bip9Step tip k state) := by
  have hpos := period_le checker k
  cases state with
  | defined => rfl
  | started =>
    have hsucc : (k + 1) * checker.period = k * checker.period + checker.period :=
      succ_mul k checker.period
    have hcast : (((k + 1) * checker.period - 1 : Nat) : Int) =
      (k * checker.period : Nat) + checker.period - 1 := by omega
    have hcount := @countCondition_eq checker tip (k * checker.period) checker.period (by omega)
    rw [← hcast, getAncestor_of_le (by omega)] at hcount
    rw [stateNext, hcount]
    rfl
  | lockedIn =>
    have hheight := (walk_spec (show (k + 1) * checker.period - 1 ≤ tip.nHeight by omega)).2.1
    have hcast : (((k + 1) * checker.period - 1 : Nat) : Int) + 1 =
      ((k + 1) * checker.period : Nat) := by omega
    rw [stateNext, hheight, hcast]
    rfl
  | active => rfl
  | failed => rfl

/-- The state of a period depends only on the blocks before it. -/
theorem bip9State_walk (hk : k * checker.period ≤ h + 1) (hh : h ≤ tip.nHeight) :
    checker.bip9State (tip.walk h) k = checker.bip9State tip k := by
  induction k with
  | zero => rfl
  | succ k ih =>
    have hsucc : (k + 1) * checker.period = k * checker.period + checker.period :=
      succ_mul k checker.period
    have hlast : (tip.walk h).walk ((k + 1) * checker.period - 1 : Nat) =
      tip.walk ((k + 1) * checker.period - 1 : Nat) := walk_walk (by omega) hh
    have hcount :
        ((List.range checker.period).countP fun i =>
        checker.condition ((tip.walk h).walk (k * checker.period + i : Nat))) =
        (List.range checker.period).countP fun i =>
          checker.condition (tip.walk (k * checker.period + i : Nat)) := by
      refine countP_congr fun i hi => ?_
      rw [walk_walk (by have := List.mem_range.mp hi; omega) hh]
    rw [bip9State, bip9State, ih (by omega)]
    unfold bip9Step
    rw [hlast, hcount]

/-- The entries before the start time. -/
theorem bip9State_defined (htip : tip.TimesOrdered)
    (hk : (k + 1) * checker.period ≤ tip.nHeight + 1)
    (htime : (tip.walk ((k + 1) * checker.period - 1 : Nat)).getMedianTimePast <
    checker.beginTime) : checker.bip9State tip (k + 1) = .defined := by
  induction k with
  | zero => exact if_neg (not_le.mpr htime)
  | succ k ih =>
    have hsucc : (k + 1 + 1) * checker.period = (k + 1) * checker.period + checker.period :=
      succ_mul _ checker.period
    obtain ⟨hbelow, hheight, _⟩ :=
      walk_spec (show (k + 1 + 1) * checker.period - 1 ≤ tip.nHeight by omega)
    obtain ⟨hbelow', hheight', _⟩ :=
      walk_spec (show (k + 1) * checker.period - 1 ≤ tip.nHeight by omega)
    have hmono :=
      getMedianTimePast_mono (below_of_nHeight_le hbelow' hbelow (by omega))
        (timesOrdered_of_below hbelow htip)
    rw [bip9State, ih (by omega) (hmono.trans_lt htime)]
    exact if_neg (not_le.mpr htime)

/-- A deployment that is not started was not started before. -/
theorem defined_of_le {j : Nat} (hjk : j ≤ k) (hk : checker.bip9State tip k = .defined) :
    checker.bip9State tip j = .defined := by
  induction hjk with
  | refl => exact hk
  | @step k _ ih =>
    refine ih ?_
    rw [bip9State] at hk
    cases hstate : checker.bip9State tip k with
    | defined => rfl
    | started =>
      rw [hstate, bip9Step] at hk
      split_ifs at hk
    | lockedIn =>
      rw [hstate, bip9Step] at hk
      split_ifs at hk
    | active =>
      rw [hstate] at hk
      cases hk
    | failed =>
      rw [hstate] at hk
      cases hk

/-! ## The cache -/

def Sound (checker : ThresholdConditionChecker) (cache : ThresholdConditionCache) : Prop :=
  ∀ key state, cache key = some state → state = checker.bip9StateAt key (checker.periodAfter key)

theorem bip9StateAt_boundary (hk : k * checker.period ≤ tip.nHeight + 1) :
    checker.bip9StateAt (boundary checker tip k) (checker.periodAfter (boundary checker tip k)) =
      checker.bip9State tip k := by
  cases k with
  | zero => rw [boundary_zero]; rfl
  | succ k =>
    have hpos := period_le checker k
    have hle : (k + 1) * checker.period - 1 ≤ tip.nHeight := by omega
    have hperiod : ((k + 1) * checker.period - 1 + 1) / checker.period = k + 1 := by
      rw [Nat.sub_add_cancel hpos, Nat.mul_div_cancel _ checker.period_pos]
    rw [boundary_succ hk, periodAfter, (walk_spec hle).2.1, hperiod]
    exact bip9State_walk (by omega) hle

variable {cache : ThresholdConditionCache} {fuel : Nat}

theorem sound_update (hsound : Sound checker cache) (hk : k * checker.period ≤ tip.nHeight + 1)
    {state : ThresholdState} (hstate : state = checker.bip9State tip k) :
    Sound checker (update cache (boundary checker tip k) (some state)) := by
  intro key state' h
  by_cases hkey : key = boundary checker tip k
  · rw [hkey, update_self] at h
    rw [hkey, bip9StateAt_boundary hk, ← hstate, Option.some.inj h]
  · rw [update_of_ne hkey] at h
    exact hsound key state' h

/-- The ends of the periods `j`, …, `j + n - 1` of a chain. -/
def boundaries (checker : ThresholdConditionChecker) (tip : CBlockIndex) (j n : Nat) :
    List CBlockIndex :=
  (List.range' j n).map fun i => tip.walk ((i + 1) * checker.period - 1 : Nat)

/-- The way back ends at a state that is known, and has the ends of periods after it. -/
theorem walkBack_spec (htip : tip.TimesOrdered) (hsound : Sound checker cache)
    (hk : k * checker.period ≤ tip.nHeight + 1) (hfuel : k < fuel) (vToCompute : List CBlockIndex) :
    ∃ j n cache', j + n = k ∧ checker.walkBack cache fuel (boundary checker tip k) vToCompute =
        some (boundary checker tip j, boundaries checker tip j n ++ vToCompute, cache') ∧
      Sound checker cache' ∧ cache' (boundary checker tip j) = some (checker.bip9State tip j) := by
  induction fuel generalizing k vToCompute with
  | zero => exact absurd hfuel (not_lt_zero k)
  | succ fuel ih =>
    unfold walkBack
    cases hkey : cache (boundary checker tip k) with
    | some state =>
      refine ⟨k, 0, cache, rfl, if_pos (some_ne_none state), hsound, ?_⟩
      rw [hkey, hsound _ _ hkey, bip9StateAt_boundary hk]
    | none =>
      rw [if_neg (not_not.mpr rfl)]
      cases k with
      | zero =>
        exact ⟨0, 0, _, rfl, by rw [boundary_zero]; rfl, boundary_zero ▸ sound_update hsound hk rfl,
          by rw [boundary_zero, update_self]⟩
      | succ k =>
        rw [boundary_succ hk]
        dsimp only
        split
        · next htime =>
          have hdefined := bip9State_defined htip hk htime
          refine ⟨k + 1, 0, _, rfl, by rw [boundary_succ hk]; rfl,
            boundary_succ hk ▸ sound_update hsound hk hdefined.symm, ?_⟩
          rw [boundary_succ hk, update_self, hdefined]
        · have hle : k * checker.period ≤ tip.nHeight + 1 :=
            (mul_le_mul_right _ (le_succ k)).trans hk
          obtain ⟨j, n, cache', hj, hback, hsound', hknown⟩ :=
            ih hle (lt_of_succ_lt_succ hfuel)
              (tip.walk ((k + 1) * checker.period - 1 : Nat) :: vToCompute)
          refine ⟨j, n + 1, cache', by omega, ?_, hsound', hknown⟩
          rw [previousPeriodParent_walk hk, hback, boundaries, boundaries, List.range'_concat,
            map_append, append_assoc, one_mul, hj]
          rfl

/-- The way forward applies the rules to one period after the other. -/
theorem walkForward_spec (hsound : Sound checker cache) {j n : Nat}
    (hn : (j + n) * checker.period ≤ tip.nHeight + 1) :
    ∃ cache', checker.walkForward (boundaries checker tip j n) (checker.bip9State tip j) cache =
      some (checker.bip9State tip (j + n), cache') ∧ Sound checker cache' := by
  induction n generalizing j cache with
  | zero => exact ⟨cache, rfl, hsound⟩
  | succ n ih =>
    have hstep : (j + 1) * checker.period ≤ tip.nHeight + 1 :=
      (Nat.mul_le_mul_right _ (by omega)).trans hn
    have hupdate := sound_update hsound hstep rfl
    rw [boundary_succ hstep] at hupdate
    obtain ⟨cache', hforward, hsound'⟩ := @ih _ hupdate (j + 1) (by rwa [add_right_comm])
    refine ⟨cache', ?_, hsound'⟩
    rw [show j + (n + 1) = j + 1 + n from (add_right_comm j n 1)]
    rw [show boundaries checker tip j (n + 1) =
      tip.walk ((j + 1) * checker.period - 1 : Nat) :: boundaries checker tip (j + 1) n from rfl,
      walkForward, stateNext_eq hstep, bind_eq_bind, bind_some]
    exact hforward

theorem stateFromParent_spec (htip : tip.TimesOrdered) (hsound : Sound checker cache)
    (hk : k * checker.period ≤ tip.nHeight + 1) :
    ∃ cache', checker.stateFromParent (boundary checker tip k) cache =
      some (checker.bip9State tip k, cache') ∧ Sound checker cache' := by
  have hfuel : k < (boundary checker tip k).elim 1 fun pindex => pindex.nHeight + 2 := by
    cases k with
    | zero => exact boundary_zero ▸ one_pos
    | succ k =>
      have hle := Nat.le_mul_of_pos_right (k + 1) checker.period_pos
      rw [boundary_succ hk, elim_some, (walk_spec (by omega)).2.1]
      omega
  obtain ⟨j, n, cache₁, rfl, hback, hsound₁, hknown⟩ := walkBack_spec htip hsound hk hfuel []
  obtain ⟨cache₂, hforward, hsound₂⟩ := walkForward_spec hsound₁ hk
  refine ⟨cache₂, ?_, hsound₂⟩
  unfold stateFromParent
  rw [hback, bind_eq_bind, bind_some]
  dsimp only
  rw [hknown, bind_eq_bind, bind_some, append_nil]
  exact hforward

section

variable (hscheduled : checker.Scheduled)
include hscheduled

theorem getStateFor_spec (hsound : Sound checker cache)
    {pindexPrev : Option CBlockIndex} (htimes : ∀ pindex, pindexPrev = some pindex →
    pindex.TimesOrdered) : ∃ cache', checker.getStateFor pindexPrev cache =
      some (checker.bip9StateAt pindexPrev (checker.periodAfter pindexPrev), cache') ∧
        Sound checker cache' := by
  unfold getStateFor
  rw [if_neg hscheduled.1, if_neg hscheduled.2]
  cases pindexPrev with
  | none =>
    -- the null pointer is the end of the period before any genesis block
    have h := stateFromParent_spec (k := 0) (.genesis {}) hsound (by omega)
    rwa [boundary_zero] at h
  | some pindexPrev =>
    rw [bind_some, periodParent_eq]
    exact stateFromParent_spec (htimes pindexPrev rfl) hsound (div_mul_le_self _ _)

theorem sinceLoop_spec (htip : tip.TimesOrdered) {initialState : ThresholdState}
    (hinitial : initialState ≠ .defined) (hk : (k + 1) * checker.period ≤ tip.nHeight + 1)
    (hfuel : k < fuel)
    (hstate : checker.bip9State tip (k + 1) = initialState) (hsound : Sound checker cache) :
    ∃ j cache', checker.sinceLoop initialState fuel
    (tip.walk ((k + 1) * checker.period - 1 : Nat)) cache =
        some (tip.walk ((j + 1) * checker.period - 1 : Nat), cache') ∧ j ≤ k ∧
      (∀ i, j < i → i ≤ k + 1 → checker.bip9State tip i = initialState) ∧
        checker.bip9State tip j ≠ initialState := by
  induction fuel generalizing k cache with
  | zero => exact absurd hfuel (not_lt_zero k)
  | succ fuel ih =>
    have hlast : ∀ i, k < i → i ≤ k + 1 → checker.bip9State tip i = initialState := by
      intro i hlow hhigh
      rwa [le_antisymm hhigh hlow]
    unfold sinceLoop
    rw [previousPeriodParent_walk hk]
    cases k with
    | zero =>
      rw [boundary_zero]
      exact ⟨0, cache, rfl, le_refl 0, hlast, hinitial.symm⟩
    | succ k =>
      have hle : (k + 1) * checker.period ≤ tip.nHeight + 1 :=
        (mul_le_mul_right _ (le_succ _)).trans hk
      have hparent : ∀ pindex, boundary checker tip (k + 1) = some pindex →
          pindex.TimesOrdered := by
        intro pindex hpindex
        rw [boundary_succ hle] at hpindex
        rw [← Option.some.inj hpindex]
        exact timesOrdered_of_below (walk_spec (by omega)).1 htip
      obtain ⟨cache₁, hget, hsound₁⟩ := getStateFor_spec hscheduled hsound hparent
      rw [bip9StateAt_boundary hle, boundary_succ hle] at hget
      rw [boundary_succ hle]
      dsimp only
      rw [hget, bind_eq_bind, bind_some]
      split
      · next heq =>
        obtain ⟨j, cache', hloop, hj, hconstant, hbefore⟩ :=
          ih hle (lt_of_succ_lt_succ hfuel) heq hsound₁
        refine ⟨j, cache', hloop, le_succ_of_le hj, fun i hlow hhigh => ?_, hbefore⟩
        rcases Nat.le_succ_iff.mp hhigh with hle | rfl
        · exact hconstant i hlow hle
        · exact hstate
      · next hne => exact ⟨k + 1, cache₁, rfl, le_refl _, hlast, hne⟩

theorem sound_of_produced (h : checker.Produced cache) : Sound checker cache := by
  induction h with
  | empty => exact nofun
  | call _ htimes hget ih =>
    obtain ⟨cache', hget', hsound⟩ := getStateFor_spec hscheduled ih htimes
    cases hget.symm.trans hget'
    exact hsound

end

end VersionBitsLemmas

open AncestorLemmas VersionBitsLemmas ThresholdConditionChecker

/-- The state of a deployment depends on the chain alone: whatever is cached, it is the one that
BIP9 gives, and it is reported since the first of the periods that have it without a break. -/
theorem getStateFor_bip9 (checker : ThresholdConditionChecker) (hscheduled : checker.Scheduled)
    (cache : ThresholdConditionCache)
    (hcache : checker.Produced cache) (pindexPrev : Option CBlockIndex)
    (htimes : ∀ pindex, pindexPrev = some pindex → pindex.TimesOrdered) :
    (∃ cache', checker.getStateFor pindexPrev cache =
      some (checker.bip9StateAt pindexPrev (checker.periodAfter pindexPrev), cache')) ∧
    ∃ k cache', checker.getStateSinceHeightFor pindexPrev cache =
      some (k * checker.period, cache') ∧
      k ≤ checker.periodAfter pindexPrev ∧
      (∀ i, k ≤ i → i ≤ checker.periodAfter pindexPrev →
        checker.bip9StateAt pindexPrev i = checker.bip9StateAt pindexPrev
          (checker.periodAfter pindexPrev)) ∧
      ∀ i, i + 1 = k → checker.bip9StateAt pindexPrev i ≠
        checker.bip9StateAt pindexPrev (checker.periodAfter pindexPrev) := by
  obtain ⟨cache₁, hget, hsound⟩ :=
    getStateFor_spec hscheduled (sound_of_produced hscheduled hcache) htimes
  refine ⟨⟨cache₁, hget⟩, ?_⟩
  unfold getStateSinceHeightFor
  rw [if_neg (not_or.mpr hscheduled), hget, bind_eq_bind, bind_some]
  dsimp only
  split
  · next hdefined =>
    refine ⟨0, cache₁, by rw [zero_mul], zero_le _, fun i _ hi => ?_, nofun⟩
    cases pindexPrev with
    | none => rfl
    | some pindexPrev => exact (defined_of_le hi hdefined).trans hdefined.symm
  · next hinitial =>
    cases pindexPrev with
    | none => exact absurd rfl hinitial
    | some pindexPrev =>
      have hdiv : (pindexPrev.nHeight + 1) / checker.period * checker.period ≤
        pindexPrev.nHeight + 1 := div_mul_le_self _ _
      have hparent := @periodParent_eq checker pindexPrev
      obtain ⟨k, hk⟩ : ∃ k, (pindexPrev.nHeight + 1) / checker.period = k + 1 := by
        refine exists_eq_succ_of_ne_zero fun hzero => hinitial ?_
        rw [periodAfter, hzero]
        rfl
      rw [hk] at hdiv hparent
      rw [periodAfter, hk] at hinitial ⊢
      have hle := Nat.le_mul_of_pos_right (k + 1) checker.period_pos
      have hheight :=
        (walk_spec (show (k + 1) * checker.period - 1 ≤ pindexPrev.nHeight by omega)).2.1
      rw [boundary_succ hdiv] at hparent
      obtain ⟨j, cache₂, hloop, hj, hconstant, hbefore⟩ :=
          sinceLoop_spec hscheduled (htimes pindexPrev rfl)
        hinitial hdiv (show k < (pindexPrev.walk ((k + 1) * checker.period - 1 : Nat)).nHeight +
          1 by omega) rfl hsound
      refine ⟨j + 1, cache₂, ?_, succ_le_succ hj, fun i hlow hhigh => hconstant i hlow hhigh,
        fun i hi => ?_⟩
      · have hposj := period_le checker j
        have hlej : (j + 1) * checker.period ≤ (k + 1) * checker.period :=
          mul_le_mul_right _ (succ_le_succ hj)
        have hheightj :=
          (walk_spec (show (j + 1) * checker.period - 1 ≤ pindexPrev.nHeight by omega)).2.1
        rw [bind_eq_bind, bind_some, hparent, bind_some, hloop, bind_eq_bind, bind_some,
          hheightj, Nat.sub_add_cancel hposj]
      · rw [Nat.succ.inj hi]
        exact hbefore

/-- The special start times are not part of BIP9: a deployment that is always active is active
in the first period already. -/
theorem alwaysActive_not_bip9 :
    ((versionBitsConditionChecker { nStartTime := alwaysActive } 144 108 (by decide)).getStateFor
      none fun _ => none).map Prod.fst =
      some .active ∧
    (versionBitsConditionChecker { nStartTime := alwaysActive } 144 108 (by decide)).bip9StateAt
    none 0 = .defined :=
  ⟨rfl, rfl⟩

/-- A deployment with a window of two blocks, which both have to signal. -/
def quickDeployment : ThresholdConditionChecker :=
  versionBitsConditionChecker { nStartTime := 0, nTimeout := 600000000 } 2 2 (by decide)

def signallingHeader (nTime : BitVec 32) : CBlockHeader := { nVersion := 0x30000000#32, nTime }

/-- Two periods of blocks that signal. -/
def signallingChain : CBlockIndex :=
  .next (.next (.next (.genesis (signallingHeader 1#32)) (signallingHeader 2#32))
    (signallingHeader 3#32)) (signallingHeader 4#32)

theorem signallingChain_lockedIn :
    ∃ cache, quickDeployment.getStateFor (some signallingChain) (fun _ => none) =
      some (.lockedIn, cache) := by
  have htimes : signallingChain.TimesOrdered := by
    refine .next (.next (.next (.genesis _) ?_) ?_) ?_ <;>
      exact (MedianTimeLemmas.getMedianTimePast_lt_iff _ _).mpr (by decide)
  have hstarted : quickDeployment.bip9State signallingChain 1 = .started :=
    if_pos (MedianTimeLemmas.getMedianTimePast_nonneg _)
  have hlocked : quickDeployment.bip9State signallingChain 2 = .lockedIn := by
    have hcount :
        (((List.range 2).countP fun i => quickDeployment.condition
        (signallingChain.walk (1 * 2 + i : Nat)) : Nat) : Int) ≥ 2 := by
      decide
    rw [bip9State, hstarted, bip9Step]
    exact if_pos hcount
  obtain ⟨⟨cache, hget⟩, _⟩ :=
      getStateFor_bip9 quickDeployment (by constructor <;> decide) (fun _ => none) .empty
        (some signallingChain)
    fun pindex h => by
      cases h
      exact htimes
  exact ⟨cache, hget.trans (by rw [← hlocked]; rfl)⟩

end Bitcoboost
