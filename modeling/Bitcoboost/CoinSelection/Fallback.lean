import Mathlib.Data.List.MinMax
import Mathlib.Data.List.Sort
import Bitcoboost.CoinSelection.Groups

/-!
# Single random draw and knapsack

`SelectCoinsSRD` and `KnapsackSolver` of `wallet/coinselection.cpp`. Every random choice is a
parameter: the shuffled order, and the sequence of random bits. `KnapsackSolver` has exits that
do not look at the weight.
-/

namespace Bitcoboost.CoinSelection

open SelectionResult List

/-! ## Single random draw -/

def changeLower : Int := 50000

/-- The state of the draw. The heap is a list in the order in which it gives its groups. -/
structure Draw where
  heap : List OutputGroup := []
  selectedEffValue : Int := 0
  weight : Int := 0
  maxTxWeightExceeded : Bool := false

namespace Draw

def push (draw : Draw) (heap : Arrangement lessValuable) (group : OutputGroup) : Draw :=
  { draw with
    heap := heap.arrange (group :: draw.heap)
    selectedEffValue := draw.selectedEffValue + group.getSelectionAmount
    weight := draw.weight + group.weight }

/-- The `do` loop that removes the least valuable groups; the heap is not empty. -/
def evict (maxWeight : Int) (exceeded : Bool) : List OutputGroup → Int → Int → Draw
  | [], value, weight => ⟨[], value, weight, exceeded⟩
  | group :: heap, value, weight =>
    if heap ≠ [] ∧ weight - group.weight > maxWeight then
      evict maxWeight exceeded heap (value - group.getSelectionAmount) (weight - group.weight)
    else ⟨heap, value - group.getSelectionAmount, weight - group.weight, exceeded⟩

/-- One round of the loop, up to the check of the target. -/
def add (draw : Draw) (heap : Arrangement lessValuable) (maxWeight : Int) (group : OutputGroup) :
    Draw :=
  let draw := draw.push heap group
  if draw.weight > maxWeight then
    evict maxWeight true draw.heap draw.selectedEffValue draw.weight
  else draw

end Draw

/-- The loop of `SelectCoinsSRD`. With the n-th last group the heap is in the order `heap n`. -/
def srdLoop (heap : Nat → Arrangement lessValuable) (utxoPool : List OutputGroup)
    (targetValue maxWeight : Int) (result : SelectionResult) :
    List Nat → Draw → Except Failure SelectionResult
  | [], draw => .error (if draw.maxTxWeightExceeded then .maxWeightExceeded else .noSolution)
  | i :: indexes, draw =>
    match utxoPool[i]? with
    | none => .error .outOfRange
    | some group =>
      if draw.weight + group.weight ≥ 2 ^ 31 then .error .overflow
      else
        let draw := draw.add (heap indexes.length) maxWeight group
        if draw.selectedEffValue ≥ targetValue then result.addInputs draw.heap
        else srdLoop heap utxoPool targetValue maxWeight result indexes draw

/-- `SelectCoinsSRD`, with the order of the indexes that `Shuffle` gives. -/
def selectCoinsSRD (heap : Nat → Arrangement lessValuable) (utxoPool : List OutputGroup)
    (targetValue changeFee : Int) (indexes : List Nat) (maxWeight : Int) :
    Except Failure SelectionResult :=
  srdLoop heap utxoPool (targetValue + changeLower + changeFee) maxWeight { target := targetValue }
    indexes {}

/-! ## Knapsack -/

/-- The groups with a mark each, `vfIncluded` or `vfBest`. -/
abbrev Marked := List (OutputGroup × Bool)

def Marked.chosen (marked : Marked) : List OutputGroup := (marked.filter (·.2)).map (·.1)

/-- The best approximation so far, and how many random bits are used up. -/
structure Approximation where
  vfBest : Marked
  nBest : Int
  drawn : Nat

/-- What a pass over the groups changes: `nTotal`, `fReachedTarget` and the best approximation. -/
structure Pass where
  nTotal : Int
  fReachedTarget : Bool
  approximation : Approximation

/-- The inner loop of `ApproximateBestSubset`, over the groups after those in `done`, with the
marks. -/
def passLoop (randbool : Nat → Bool) (nTargetValue : Int) (firstPass : Bool) :
    Marked → Marked → Pass → Marked × Pass
  | done, [], pass => (done, pass)
  | done, (group, included) :: todo, pass =>
    let best := pass.approximation
    let best := if firstPass then { best with drawn := best.drawn + 1 } else best
    if if firstPass then randbool pass.approximation.drawn else !included then
      let nTotal := pass.nTotal + group.getSelectionAmount
      if nTotal ≥ nTargetValue then
        let best :=
          if nTotal < best.nBest then
            { best with vfBest := done ++ (group, true) :: todo, nBest := nTotal }
          else best
        passLoop randbool nTargetValue firstPass (done ++ [(group, false)]) todo
          ⟨nTotal - group.getSelectionAmount, true, best⟩
      else
        passLoop randbool nTargetValue firstPass (done ++ [(group, true)]) todo ⟨nTotal,
          pass.fReachedTarget, best⟩
    else passLoop randbool nTargetValue firstPass (done ++ [(group, included)]) todo
      { pass with approximation := best }

/-- One repetition: the second pass is made if the first one did not reach the target. -/
def repetition (randbool : Nat → Bool) (groups : List OutputGroup) (nTargetValue : Int)
    (best : Approximation) : Approximation :=
  let (marked, pass) :=
    passLoop randbool nTargetValue true [] (groups.map (·, false)) ⟨0, false, best⟩
  if pass.fReachedTarget then pass.approximation
  else (passLoop randbool nTargetValue false [] marked pass).2.approximation

def approximateLoop (randbool : Nat → Bool) (groups : List OutputGroup) (nTargetValue : Int) :
    Nat → Approximation → Approximation
  | 0, best => best
  | iterations + 1, best =>
    if best.nBest ≠ nTargetValue then
      approximateLoop randbool groups nTargetValue iterations
        (repetition randbool groups nTargetValue best)
    else best

def approximateBestSubset (randbool : Nat → Bool) (drawn : Nat) (groups : List OutputGroup)
    (nTotalLower nTargetValue : Int) : Approximation :=
  approximateLoop randbool groups nTargetValue 1000 ⟨groups.map (·, true), nTotalLower, drawn⟩

/-- What the first loop of `KnapsackSolver` collects. -/
structure Scan where
  lowestLarger : Option OutputGroup := none
  applicableGroups : List OutputGroup := []
  nTotalLower : Int := 0

/-- Whether `group` replaces the next larger group found so far. -/
def Scan.isLower (scan : Scan) (group : OutputGroup) : Bool :=
  match scan.lowestLarger with
  | none => true
  | some larger => group.getSelectionAmount < larger.getSelectionAmount

/-- The first loop of `KnapsackSolver`; an error is the group whose amount is the target. -/
def scanLoop (nTargetValue changeTarget : Int) : List OutputGroup → Scan → Except OutputGroup Scan
  | [], scan => .ok scan
  | group :: groups, scan =>
    if group.getSelectionAmount = nTargetValue then .error group
    else if group.getSelectionAmount < nTargetValue + changeTarget then
      scanLoop nTargetValue changeTarget groups
        { scan with
          applicableGroups := scan.applicableGroups ++ [group]
          nTotalLower := scan.nTotalLower + group.getSelectionAmount }
    else if scan.isLower group then scanLoop nTargetValue changeTarget groups
      { scan with lowestLarger := some group }
    else scanLoop nTargetValue changeTarget groups scan

/-- The two calls of `ApproximateBestSubset`. -/
def approximate (randbool : Nat → Bool) (groups : List OutputGroup)
    (nTotalLower nTargetValue changeTarget : Int) : Approximation :=
  let best := approximateBestSubset randbool 0 groups nTotalLower nTargetValue
  if best.nBest ≠ nTargetValue ∧ nTotalLower ≥ nTargetValue + changeTarget then
    approximateBestSubset randbool best.drawn groups nTotalLower (nTargetValue + changeTarget)
  else best

/-- The next larger group is returned when the approximation is not good or the group is closer. -/
def prefersLarger (nTargetValue changeTarget nBest : Int) (larger : OutputGroup) : Bool :=
  (nBest ≠ nTargetValue ∧ nBest < nTargetValue + changeTarget) ∨ larger.getSelectionAmount ≤ nBest

/-- `KnapsackSolver`, with the order of the groups that `Shuffle` gives. -/
def knapsackSolver (sort : Arrangement descending) (groups : List OutputGroup)
    (nTargetValue changeTarget : Int) (randbool : Nat → Bool) (maxWeight : Int) :
    Except Failure SelectionResult :=
  let result : SelectionResult := { target := nTargetValue }
  match scanLoop nTargetValue changeTarget groups {} with
  | .error group => result.addInputs [group]
  | .ok scan =>
    if scan.nTotalLower = nTargetValue then result.addInputs scan.applicableGroups
    else if scan.nTotalLower < nTargetValue then
      match scan.lowestLarger with
      | none => .error .noSolution
      | some larger => result.addInputs [larger]
    else
      let applicable := sort.arrange scan.applicableGroups
      let best := approximate randbool applicable scan.nTotalLower nTargetValue changeTarget
      if scan.lowestLarger.any (prefersLarger nTargetValue changeTarget best.nBest) then
        result.addInputs scan.lowestLarger.toList
      else do
        let result ← result.addInputs best.vfBest.chosen
        if result.weight > maxWeight then
          match scan.lowestLarger with
          | none => .error .maxWeightExceeded
          | some larger => result.clear.addInputs [larger]
        else .ok result

/-- The groups that may be combined: with more than this the change would be too large. -/
def smallerGroups (nTargetValue changeTarget : Int) (groups : List OutputGroup) :
    List OutputGroup :=
  groups.filter fun group => group.getSelectionAmount < nTargetValue + changeTarget

/-- The first of the least valuable groups among the others. -/
def nextLarger (nTargetValue changeTarget : Int) (groups : List OutputGroup) : Option OutputGroup :=
  (groups.filter fun group => nTargetValue + changeTarget ≤ group.getSelectionAmount).foldl
    (List.argAux fun a b => a.getSelectionAmount < b.getSelectionAmount) none

/-- The groups of a pool that `KnapsackSolver` may return without a look at their weight are
within the limit: the first group whose amount is the target, else all smaller groups when their
total is the target, else the next larger group. -/
structure UncheckedWithin (groups : List OutputGroup) (nTargetValue changeTarget maxWeight : Int) :
    Prop where
  equal : ∀ group ∈ groups.find? (·.getSelectionAmount = nTargetValue), group.weight ≤ maxWeight
  smaller : (∀ group ∈ groups, group.getSelectionAmount ≠ nTargetValue) →
    totalAmount (smallerGroups nTargetValue changeTarget groups) = nTargetValue →
    totalWeight (smallerGroups nTargetValue changeTarget groups) ≤ maxWeight
  larger : (∀ group ∈ groups, group.getSelectionAmount ≠ nTargetValue) →
    totalAmount (smallerGroups nTargetValue changeTarget groups) ≠ nTargetValue →
    ∀ group ∈ nextLarger nTargetValue changeTarget groups, group.weight ≤ maxWeight

/-! ## The draw -/

/-- The counters of a draw are those of its heap, out of the groups seen, and the limit holds. -/
structure Draw.Within (maxWeight : Int) (seen : List OutputGroup) (draw : Draw) : Prop where
  subperm : draw.heap.Subperm seen
  value : draw.selectedEffValue = totalAmount draw.heap
  weight : draw.weight = totalWeight draw.heap
  limit : draw.heap = [] ∨ draw.weight ≤ maxWeight

variable {maxWeight nTargetValue changeTarget : Int} {seen groups : List OutputGroup}
  {randbool : Nat → Bool}
  {best : Approximation} {draw : Draw}

theorem Draw.evict_within {exceeded : Bool} {heap : List OutputGroup} (h : heap.Subperm seen)
    (hne : heap ≠ []) :
    (evict maxWeight exceeded heap (totalAmount heap) (totalWeight heap)).Within
    maxWeight seen := by
  induction heap with
  | nil => exact absurd rfl hne
  | cons g heap ih =>
    have hvalue : totalAmount (g :: heap) - g.getSelectionAmount = totalAmount heap := by
      rw [totalAmount_cons, add_sub_cancel_left]
    have hweight : totalWeight (g :: heap) - g.weight = totalWeight heap := by
      rw [totalWeight_cons, add_sub_cancel_left]
    have hheap : heap.Subperm seen := (sublist_cons_self g heap).subperm.trans h
    rw [evict, hvalue, hweight]
    split
    · rename_i hmore
      exact ih hheap hmore.1
    · rename_i hdone
      refine ⟨hheap, rfl, rfl, ?_⟩
      by_cases hempty : heap = []
      · exact .inl hempty
      · exact .inr (Int.not_lt.mp fun hlt => hdone ⟨hempty, hlt⟩)

theorem Draw.Within.add (h : draw.Within maxWeight seen)
    (heap : Arrangement lessValuable) (group : OutputGroup) :
    (draw.add heap maxWeight group).Within maxWeight (seen ++ [group]) := by
  have hperm : (draw.push heap group).heap.Perm (group :: draw.heap) := heap.perm _
  have hsub : (draw.push heap group).heap.Subperm (seen ++ [group]) :=
    (hperm.subperm.trans ((subperm_cons group).mpr h.subperm)).trans
      (perm_append_singleton group seen).symm.subperm
  have hvalue : (draw.push heap group).selectedEffValue
      = totalAmount (draw.push heap group).heap := by
    rw [totalAmount_perm hperm, totalAmount_cons, ← h.value, Int.add_comm]
    rfl
  have hweight : (draw.push heap group).weight = totalWeight (draw.push heap group).heap := by
    rw [totalWeight, (hperm.map _).sum_eq, map_cons, sum_cons, ← totalWeight, ← h.weight,
      Int.add_comm]
    rfl
  rw [Draw.add]
  split
  · rw [hvalue, hweight]
    exact evict_within hsub fun hnil => by simpa [hnil] using hperm.length_eq
  · rename_i hle
    exact ⟨hsub, hvalue, hweight, .inr (Int.not_lt.mp hle)⟩

/-- A result of the loop reaches the target, and respects the limit unless nothing is selected. -/
theorem srdLoop_spec {heap : Nat → Arrangement lessValuable} {utxoPool : List OutputGroup}
    {targetValue : Int} {result result' : SelectionResult}
    (hresult : result.selectedInputs = [] ∧ result.weight = 0) (htarget : 0 < targetValue)
    {indexes : List Nat} (hdraw : draw.Within maxWeight seen)
    (h : srdLoop heap utxoPool targetValue maxWeight result indexes draw = .ok result') :
    ∃ selected, result'.Selects (seen ++ indexes.filterMap (utxoPool[·]?)) selected ∧
      targetValue ≤ totalAmount selected ∧ totalWeight selected ≤ maxWeight := by
  induction indexes generalizing draw seen with
  | nil => cases h
  | cons i indexes ih =>
    rw [srdLoop] at h
    cases hi : utxoPool[i]? with
    | none =>
      rw [hi] at h
      cases h
    | some group =>
      simp only [hi] at h
      have hadd := hdraw.add (heap indexes.length) group
      rw [filterMap_cons_some hi, append_cons]
      split_ifs at h with hover hreached
      · rw [hadd.value] at hreached
        have hsub := hadd.subperm.trans
          (sublist_append_left _ (indexes.filterMap (utxoPool[·]?))).subperm
        refine ⟨_, selects_addInputs hsub hresult h, hreached, ?_⟩
        cases hadd.limit with
        | inl hnil =>
          rw [hnil] at hreached
          exact absurd hreached (Int.not_le.mpr htarget)
        | inr hle => exact hadd.weight ▸ hle
      · exact ih hadd h

/-! ## Knapsack -/

theorem Marked.chosen_append (a b : Marked) : (a ++ b).chosen = a.chosen ++ b.chosen := by
  rw [chosen, filter_append, map_append, ← chosen, ← chosen]

theorem Marked.totalAmount_mark (done todo : Marked) (group : OutputGroup) :
    totalAmount (done ++ (group, true) :: todo).chosen =
      totalAmount (done ++ (group, false) :: todo).chosen + group.getSelectionAmount := by
  have htrue : chosen ((group, true) :: todo) = group :: chosen todo := rfl
  have hfalse : chosen ((group, false) :: todo) = chosen todo := rfl
  rw [chosen_append, chosen_append, totalAmount_append, totalAmount_append, htrue, hfalse,
    totalAmount_cons]
  omega

theorem totalAmount_singleton (g : OutputGroup) : totalAmount [g] = g.getSelectionAmount :=
  sum_singleton

theorem totalWeight_singleton (g : OutputGroup) : totalWeight [g] = g.weight := sum_singleton

structure Approximation.Reaches (groups : List OutputGroup) (nTargetValue : Int)
    (best : Approximation) : Prop where
  groups_eq : best.vfBest.map (·.1) = groups
  total : totalAmount best.vfBest.chosen = best.nBest
  target : nTargetValue ≤ best.nBest

theorem Marked.map_fst_mark (groups : List OutputGroup) (b : Bool) :
    (groups.map (·, b)).map (·.1) = groups := by
  rw [map_map]
  exact map_id groups

theorem Marked.chosen_mark (groups : List OutputGroup) (b : Bool) :
    Marked.chosen (groups.map (·, b)) = if b then groups else [] := by
  cases b with
  | true => rw [chosen, List.filter_eq_self.mpr (by simp), map_fst_mark, if_pos rfl]
  | false => rw [chosen, List.filter_eq_nil_iff.mpr (by simp), map_nil, if_neg Bool.false_ne_true]

theorem passLoop_spec {randbool : Nat → Bool} {firstPass : Bool}
    (done : Marked) {todo : Marked} (pass : Pass) (hgroups : (done ++ todo).map (·.1) = groups)
    (htotal : totalAmount (done ++ todo).chosen = pass.nTotal)
    (hfirst : firstPass = true → ∀ m ∈ todo, m.2 = false)
    (hbest : pass.approximation.Reaches groups nTargetValue) :
    (passLoop randbool nTargetValue firstPass done todo pass).1.map (·.1) = groups ∧
      totalAmount (passLoop randbool nTargetValue firstPass done todo pass).1.chosen =
        (passLoop randbool nTargetValue firstPass done todo pass).2.nTotal ∧
      (passLoop randbool nTargetValue firstPass done todo pass).2.approximation.Reaches groups
        nTargetValue := by
  induction todo generalizing done pass with
  | nil =>
    rw [append_nil] at hgroups htotal
    exact ⟨hgroups, htotal, hbest⟩
  | cons m todo ih =>
    obtain ⟨group, included⟩ := m
    rw [passLoop]
    have hdrawn :
        (if firstPass then { pass.approximation with drawn := pass.approximation.drawn + 1 }
        else pass.approximation).Reaches groups nTargetValue := by
      split
      · exact ⟨hbest.groups_eq, hbest.total, hbest.target⟩
      · exact hbest
    dsimp only
    generalize (if firstPass then { pass.approximation with drawn := pass.approximation.drawn + 1 }
        else pass.approximation) = best at hdrawn ⊢
    have hrest : firstPass = true → ∀ m ∈ todo, m.2 = false :=
      fun hf m hm => hfirst hf m (mem_cons_of_mem _ hm)
    have hmarks : ∀ b : Bool, (done ++ [(group, b)] ++ todo).map Prod.fst = groups := by
      intro b
      simpa using hgroups
    by_cases hchoose : (if firstPass then randbool pass.approximation.drawn else !included) = true
    · rw [if_pos hchoose]
      -- a group is taken only if it has no mark yet
      have hincluded : included = false := by
        cases firstPass with
        | true => exact hfirst rfl _ mem_cons_self
        | false => exact (Bool.not_eq_eq_eq_not.mp hchoose)
      rw [hincluded] at htotal
      have hmark := Marked.totalAmount_mark done todo group
      rw [htotal] at hmark
      split
      · rename_i hreached
        refine ih _ _ (hmarks false) ?_ hrest ?_
        · rw [← append_cons, htotal]
          exact (add_sub_cancel_right _ _).symm
        · split
          · refine ⟨?_, hmark, hreached⟩
            rw [append_cons]
            exact hmarks true
          · exact hdrawn
      · refine ih _ _ (hmarks true) ?_ hrest hdrawn
        rw [← append_cons, hmark]
    · rw [if_neg hchoose]
      refine ih _ _ (hmarks included) ?_ hrest hdrawn
      rw [← append_cons, htotal]

theorem approximateLoop_spec {iterations : Nat} (hbest : best.Reaches groups nTargetValue) :
    (approximateLoop randbool groups nTargetValue iterations best).Reaches groups nTargetValue := by
  induction iterations generalizing best with
  | zero => exact hbest
  | succ iterations ih =>
    rw [approximateLoop]
    split
    · refine ih ?_
      obtain ⟨hgroups, htotal, hfirst⟩ := passLoop_spec [] ⟨0, false, best⟩
        (Marked.map_fst_mark groups false) (congrArg totalAmount (Marked.chosen_mark groups false))
          (by simp) hbest
      rw [repetition]
      dsimp only
      split
      · exact hfirst
      · exact (passLoop_spec [] _ hgroups htotal (fun h => Bool.noConfusion h) hfirst).2.2
    · exact hbest

/-- What `ApproximateBestSubset` marks reaches its target, as all groups together do. -/
theorem approximateBestSubset_spec (randbool : Nat → Bool) (drawn : Nat)
    (h : nTargetValue ≤ totalAmount groups) :
    (approximateBestSubset randbool drawn groups (totalAmount groups) nTargetValue).Reaches groups
    nTargetValue :=
  approximateLoop_spec
    ⟨Marked.map_fst_mark groups true, congrArg totalAmount (Marked.chosen_mark groups true), h⟩

theorem approximate_spec (randbool : Nat → Bool) (hchange : 0 ≤ changeTarget)
    (h : nTargetValue ≤ totalAmount groups) :
    (approximate randbool groups (totalAmount groups) nTargetValue changeTarget).Reaches groups
    nTargetValue := by
  rw [approximate]
  split
  · rename_i hagain
    have hsecond := approximateBestSubset_spec randbool
      (approximateBestSubset randbool 0 groups (totalAmount groups) nTargetValue).drawn hagain.2
    exact ⟨hsecond.groups_eq, hsecond.total, Int.le_trans
      (Int.le_add_of_nonneg_right hchange) hsecond.target⟩
  · exact approximateBestSubset_spec randbool 0 h

theorem Scan.argAux_eq (scan : Scan) (group : OutputGroup) :
    List.argAux (fun a b => a.getSelectionAmount < b.getSelectionAmount) scan.lowestLarger group
      = if scan.isLower group then some group else scan.lowestLarger := by
  unfold isLower
  cases scan.lowestLarger with
  | none => rfl
  | some larger => simp [List.argAux]

/-- The first loop stops at a group whose amount is the target, or it has seen the whole pool. -/
theorem scanLoop_eq (scan : Scan) : scanLoop nTargetValue changeTarget groups scan =
    match groups.find? (·.getSelectionAmount = nTargetValue) with
    | some group => .error group
    | none => .ok {
        lowestLarger := (groups.filter fun group =>
          nTargetValue + changeTarget ≤ group.getSelectionAmount).foldl
            (List.argAux fun a b => a.getSelectionAmount < b.getSelectionAmount) scan.lowestLarger
        applicableGroups := scan.applicableGroups ++ smallerGroups nTargetValue changeTarget groups
        nTotalLower :=
          scan.nTotalLower + totalAmount (smallerGroups nTargetValue changeTarget groups) } := by
  fun_induction scanLoop nTargetValue changeTarget groups scan with
  | case1 scan => simp [smallerGroups, totalAmount]
  | case2 group groups scan hequal => simp [hequal]
  | case3 group groups scan hne hsmaller ih =>
    simp [ih, hne, hsmaller, smallerGroups, totalAmount_cons, Int.add_assoc]
  | case4 group groups scan hne hlarger hlower ih =>
    simp [ih, hne, hlarger, Int.not_lt.mp hlarger, smallerGroups, scan.argAux_eq, hlower]
  | case5 group groups scan hne hlarger hlower ih =>
    simp [ih, hne, hlarger, Int.not_lt.mp hlarger, smallerGroups, scan.argAux_eq, hlower]

theorem scanLoop_start : scanLoop nTargetValue changeTarget groups {} =
    match groups.find? (·.getSelectionAmount = nTargetValue) with
    | some group => .error group
    | none => .ok ⟨nextLarger nTargetValue changeTarget groups,
        smallerGroups nTargetValue changeTarget groups,
        totalAmount (smallerGroups nTargetValue changeTarget groups)⟩ := by
  rw [scanLoop_eq, nil_append, Int.zero_add]
  rfl

/-- What the approximation marks are groups of the pool that reach the target. -/
theorem approximate_smaller (sort : Arrangement descending) (randbool : Nat → Bool)
    (hchange : 0 ≤ changeTarget)
    (htotal : nTargetValue ≤ totalAmount (smallerGroups nTargetValue changeTarget groups))
    (hbest : best = approximate randbool
      (sort.arrange (smallerGroups nTargetValue changeTarget groups))
      (totalAmount (smallerGroups nTargetValue changeTarget groups)) nTargetValue changeTarget) :
    best.vfBest.chosen.Subperm groups ∧ nTargetValue ≤ totalAmount best.vfBest.chosen := by
  have hperm := sort.perm (smallerGroups nTargetValue changeTarget groups)
  rw [← totalAmount_perm hperm] at htotal hbest
  have hreaches := approximate_spec randbool hchange htotal
  rw [← hbest] at hreaches
  refine ⟨?_, Int.le_trans hreaches.target (Int.le_of_eq hreaches.total.symm)⟩
  have hsub : best.vfBest.chosen.Sublist (best.vfBest.map (·.1)) := List.filter_sublist.map _
  rw [hreaches.groups_eq] at hsub
  exact (hsub.subperm.trans hperm.subperm).trans List.filter_sublist.subperm

theorem nextLarger_spec (hchange : 0 ≤ changeTarget) {larger : OutputGroup}
    (h : larger ∈ nextLarger nTargetValue changeTarget groups) :
    [larger].Subperm groups ∧ nTargetValue ≤ totalAmount [larger] := by
  have hleast : larger ∈ List.argmin (·.getSelectionAmount) (groups.filter fun group =>
      nTargetValue + changeTarget ≤ group.getSelectionAmount) := h
  obtain ⟨hmem, hamount⟩ := List.mem_filter.mp (argmin_mem hleast)
  refine ⟨List.singleton_subperm_iff.mpr hmem, ?_⟩
  rw [totalAmount_singleton]
  exact Int.le_trans (Int.le_add_of_nonneg_right hchange) (of_decide_eq_true hamount)

/-- A result whose groups reach the target, and are within the limit if the unchecked selections
are. -/
def Solves (groups : List OutputGroup) (nTargetValue changeTarget maxWeight : Int)
    (result : SelectionResult) : Prop :=
  ∃ selected, result.Selects groups selected ∧ nTargetValue ≤ totalAmount selected ∧
    (UncheckedWithin groups nTargetValue changeTarget maxWeight → totalWeight selected ≤ maxWeight)

section

variable {result start : SelectionResult}

theorem solves_equal {group : OutputGroup}
    (hfind : groups.find? (·.getSelectionAmount = nTargetValue) = some group)
    (hempty : start.selectedInputs = [] ∧ start.weight = 0)
    (h : start.addInputs [group] = .ok result) :
    Solves groups nTargetValue changeTarget maxWeight result := by
  have hamount : group.getSelectionAmount = nTargetValue := by simpa using List.find?_some hfind
  have hsub := List.singleton_subperm_iff.mpr (mem_of_find?_eq_some hfind)
  refine ⟨[group], selects_addInputs hsub hempty h, ?_, fun hwithin => ?_⟩
  · rw [totalAmount_singleton, hamount]
  · rw [totalWeight_singleton]
    exact hwithin.equal group hfind

variable (hnone : ∀ group ∈ groups, group.getSelectionAmount ≠ nTargetValue)

include hnone

theorem solves_smaller
    (hequal : totalAmount (smallerGroups nTargetValue changeTarget groups) = nTargetValue)
    (hempty : start.selectedInputs = [] ∧ start.weight = 0)
    (h : start.addInputs (smallerGroups nTargetValue changeTarget groups) = .ok result) :
    Solves groups nTargetValue changeTarget maxWeight result :=
  ⟨_, selects_addInputs List.filter_sublist.subperm hempty h, hequal.ge,
    fun hwithin => hwithin.smaller hnone hequal⟩

theorem solves_larger {larger : OutputGroup} (hchange : 0 ≤ changeTarget)
    (hne : totalAmount (smallerGroups nTargetValue changeTarget groups) ≠ nTargetValue)
    (hmem : nextLarger nTargetValue changeTarget groups = some larger)
    (hempty : start.selectedInputs = [] ∧ start.weight = 0)
    (h : start.addInputs [larger] = .ok result) :
    Solves groups nTargetValue changeTarget maxWeight result := by
  obtain ⟨hsub, hamount⟩ := nextLarger_spec hchange hmem
  refine ⟨[larger], selects_addInputs hsub hempty h, hamount, fun hwithin => ?_⟩
  rw [totalWeight_singleton]
  exact hwithin.larger hnone hne larger hmem

end

/-- `KnapsackSolver` selects groups that reach the target, and within the limit if the unchecked
selections are. -/
theorem knapsackSolver_spec {sort : Arrangement descending} (hchange : 0 ≤ changeTarget)
    {result : SelectionResult}
    (h : knapsackSolver sort groups nTargetValue changeTarget randbool maxWeight = .ok result) :
    Solves groups nTargetValue changeTarget maxWeight result := by
  rw [knapsackSolver, scanLoop_start] at h
  cases hfind : groups.find? (·.getSelectionAmount = nTargetValue) with
  | some group =>
    simp only [hfind] at h
    exact solves_equal hfind ⟨rfl, rfl⟩ h
  | none =>
    simp only [hfind] at h
    have hnone : ∀ group ∈ groups, group.getSelectionAmount ≠ nTargetValue := by
      simpa using List.find?_eq_none.mp hfind
    split_ifs at h with hequal hless hprefers
    · exact solves_smaller hnone hequal ⟨rfl, rfl⟩ h
    · cases hl : nextLarger nTargetValue changeTarget groups with
      | none =>
        rw [hl] at h
        cases h
      | some larger =>
        rw [hl] at h
        exact solves_larger hnone hchange hequal hl ⟨rfl, rfl⟩ h
    · obtain ⟨larger, hl, -⟩ := (Option.any_eq_true _ _).mp hprefers
      rw [hl] at h
      exact solves_larger hnone hchange hequal hl ⟨rfl, rfl⟩ h
    · obtain ⟨first, hfirst, h⟩ := ExceptBind.bind_ok.mp h
      obtain ⟨hchosen, hreaches⟩ :=
        approximate_smaller sort randbool hchange (Int.not_lt.mp hless) rfl
      have hselects := selects_addInputs hchosen ⟨rfl, rfl⟩ hfirst
      split at h
      -- the approximation is too heavy: the next larger group, whatever its weight
      · cases hl : nextLarger nTargetValue changeTarget groups with
        | none =>
          rw [hl] at h
          cases h
        | some larger =>
          rw [hl] at h
          exact solves_larger hnone hchange hequal hl ⟨rfl, rfl⟩ h
      · rename_i hlight
        cases h
        exact ⟨_, hselects, hreaches, fun _ => hselects.weight ▸ Int.not_lt.mp hlight⟩

theorem filterMap_range_getElem (l : List OutputGroup) :
    (List.range l.length).filterMap (l[·]?) = l := by
  induction l with
  | nil => rfl
  | cons a l ih =>
    rw [length_cons, range_succ_eq_map, filterMap_cons_some List.getElem?_cons_zero, filterMap_map]
    exact congrArg (a :: ·) ih

/-- A coin whose input takes 148 bytes. -/
def coin (pointer : Nat) (value : Int) : OutputGroup :=
  ⟨[⟨pointer, value, 148, 0, 0, value⟩], false, by simp [COutput.weight]⟩

def threeCoins : List OutputGroup := [coin 0 30000, coin 1 20000, coin 2 40000]

def insertionArrangement (before : OutputGroup → OutputGroup → Bool)
    (htrans : ∀ a b c, before b a = false → before c b = false → before c a = false)
    (htotal : ∀ a b, before b a = false ∨ before a b = false) : Arrangement before where
  arrange groups := groups.insertionSort fun a b => before b a = false
  perm groups := perm_insertionSort _ groups
  sorted groups :=
    have : IsTrans OutputGroup fun a b => before b a = false := ⟨htrans⟩
    have : Std.Total fun a b => before b a = false := ⟨htotal⟩
    pairwise_insertionSort _ groups

def byValue : Arrangement lessValuable :=
  insertionArrangement _ (by simp only [lessValuable]; grind) (by simp only [lessValuable]; grind)

def byDescending : Arrangement descending :=
  insertionArrangement _ (by simp only [descending]; grind) (by simp only [descending]; grind)

theorem threeCoins_unchecked : UncheckedWithin threeCoins 60000 50000 1200 :=
  ⟨by decide, by decide, by decide⟩

end Bitcoboost.CoinSelection
