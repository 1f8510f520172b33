import Mathlib.Algebra.Ring.Int.Defs
import Mathlib.Algebra.BigOperators.Group.List.Basic
import Bitcoboost.Lib.ExceptBind
import Bitcoboost.Primitives.Transaction

/-!
# Output groups and selection results

`OutputGroup` and `SelectionResult` of `wallet/coinselection.cpp`. A group carries the outputs
that `Insert` put into it, and its amounts are their sums. A result carries the inputs that
`AddInput` put into it. Weights are of type `int`, and a sum that does not fit gives no result.
Amounts are not bounded: those of a wallet add up to at most `MAX_MONEY`.
-/

namespace Bitcoboost.CoinSelection

open List

/-- `COutput`. The outputs of a selection are held by pointers, so that an output has an
identity. -/
structure COutput where
  pointer : Nat
  value : Int
  inputBytes : Int
  fee : Int
  longTermFee : Int
  effectiveValue : Int
deriving DecidableEq

def COutput.weight (output : COutput) : Int :=
  if 0 < output.inputBytes then output.inputBytes * 4 else 0

structure OutputGroup where
  outputs : List COutput
  subtractFeeOutputs : Bool
  weight_lt : (outputs.map (·.weight)).sum < 2 ^ 31
deriving DecidableEq

namespace OutputGroup

variable (group : OutputGroup)

def value : Int := (group.outputs.map (·.value)).sum

def fee : Int := (group.outputs.map (·.fee)).sum

def longTermFee : Int := (group.outputs.map (·.longTermFee)).sum

def effectiveValue : Int := (group.outputs.map (·.effectiveValue)).sum

def weight : Int := (group.outputs.map (·.weight)).sum

def getSelectionAmount : Int :=
  if group.subtractFeeOutputs then group.value else group.effectiveValue

end OutputGroup

def totalAmount (groups : List OutputGroup) : Int := (groups.map (·.getSelectionAmount)).sum

def totalWeight (groups : List OutputGroup) : Int := (groups.map (·.weight)).sum

theorem totalAmount_cons (g : OutputGroup) (gs : List OutputGroup) :
    totalAmount (g :: gs) = g.getSelectionAmount + totalAmount gs := sum_cons

theorem totalWeight_cons (g : OutputGroup) (gs : List OutputGroup) :
    totalWeight (g :: gs) = g.weight + totalWeight gs := sum_cons

theorem totalAmount_append (a b : List OutputGroup) :
    totalAmount (a ++ b) = totalAmount a + totalAmount b := by
  rw [totalAmount, map_append, sum_append, ← totalAmount, ← totalAmount]

theorem totalAmount_perm {gs gs' : List OutputGroup} (h : gs.Perm gs') :
    totalAmount gs = totalAmount gs' :=
  (h.map _).sum_eq

def descending (a b : OutputGroup) : Bool :=
  if a.getSelectionAmount = b.getSelectionAmount then a.fee - a.longTermFee < b.fee - b.longTermFee
  else a.getSelectionAmount > b.getSelectionAmount

/-- The comparison of the heap: `MinOutputGroupComparator` puts the least amount on top. -/
def lessValuable (a b : OutputGroup) : Bool := a.getSelectionAmount < b.getSelectionAmount

/-- What `std::sort` or the heap makes of some groups. The order of equal groups is left open. -/
structure Arrangement (before : OutputGroup → OutputGroup → Bool) where
  arrange : List OutputGroup → List OutputGroup
  perm : ∀ groups, (arrange groups).Perm groups
  sorted : ∀ groups, (arrange groups).Pairwise fun a b => before b a = false

/-- What an algorithm gives in place of a result. -/
inductive Failure where
  /-- `util::Error()` -/
  | noSolution
  | maxWeightExceeded
  /-- "Shared UTXOs among selection results" -/
  | sharedUtxos
  | outOfRange
  | overflow
deriving DecidableEq

/-- `SelectionResult`, without the waste, which is computed later. -/
structure SelectionResult where
  target : Int
  selectedInputs : List COutput := []
  useEffective : Bool := false
  weight : Int := 0
deriving DecidableEq

namespace SelectionResult

def addInput (result : SelectionResult) (group : OutputGroup) : Except Failure SelectionResult :=
  let inputs := result.selectedInputs ++ group.outputs
  -- as large as the two sets together
  if ¬(inputs.map (·.pointer)).Nodup then .error .sharedUtxos
  else if result.weight + group.weight ≥ 2 ^ 31 then .error .overflow
  else .ok { result with
    selectedInputs := inputs
    useEffective := !group.subtractFeeOutputs
    weight := result.weight + group.weight }

/-- `AddInput` of one group after another. -/
def addInputs (result : SelectionResult) (groups : List OutputGroup) :
    Except Failure SelectionResult :=
  groups.foldlM addInput result

def clear (result : SelectionResult) : SelectionResult :=
  { result with selectedInputs := [], weight := 0 }

/-- The groups of a result, out of a pool: each at most as often as the pool has it. -/
structure Selects (pool : List OutputGroup) (result : SelectionResult)
    (selected : List OutputGroup) : Prop where
  subperm : selected.Subperm pool
  inputs : result.selectedInputs = selected.flatMap (·.outputs)
  weight : result.weight = totalWeight selected

variable {result result' : SelectionResult} {pool selected : List OutputGroup}

theorem Selects.of_subperm {pool' : List OutputGroup} (h : result.Selects pool selected)
    (hpool : pool.Subperm pool') : result.Selects pool' selected :=
  ⟨h.subperm.trans hpool, h.inputs, h.weight⟩

theorem addInputs_spec {groups : List OutputGroup} (h : result.addInputs groups = .ok result') :
    result'.selectedInputs = result.selectedInputs ++ groups.flatMap (·.outputs) ∧
      result'.weight = result.weight + totalWeight groups := by
  induction groups generalizing result with
  | nil =>
    cases h
    exact ⟨(append_nil _).symm, (Int.add_zero _).symm⟩
  | cons g groups ih =>
    obtain ⟨mid, hadd, hrest⟩ := ExceptBind.bind_ok.mp h
    rw [addInput] at hadd
    split_ifs at hadd
    cases hadd
    obtain ⟨hinputs, hweight⟩ := ih hrest
    rw [hinputs, hweight, flatMap_cons, append_assoc, totalWeight_cons, Int.add_assoc]
    exact ⟨rfl, rfl⟩

theorem selects_addInputs (hsub : selected.Subperm pool)
    (hresult : result.selectedInputs = [] ∧ result.weight = 0)
    (h : result.addInputs selected = .ok result') : result'.Selects pool selected := by
  obtain ⟨hinputs, hweight⟩ := addInputs_spec h
  rw [hresult.1, nil_append] at hinputs
  rw [hresult.2, Int.zero_add] at hweight
  exact ⟨hsub, hinputs, hweight⟩

end SelectionResult

end Bitcoboost.CoinSelection
