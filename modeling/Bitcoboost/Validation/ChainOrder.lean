import Bitcoboost.Validation.ActivateBestChain

/-!
# Candidates and the blocks between them

`CBlockIndexWorkComparator` is a total order of the entries. Two entries of one tree fork
at their last common ancestor, from which the blocks to connect are a path to the new tip.
-/

namespace Bitcoboost

open ChainLemmas AncestorLemmas Option List

/-! ## The order of the candidates -/

/-- The place of an entry in the order of `CBlockIndexWorkComparator`. -/
def rank (env : ChainEnv) (entry : CBlockIndex → IndexEntry) (pindex : CBlockIndex) :
    Nat ×ₗ Int ×ₗ Int :=
  toLex (pindex.nChainWork.toNat, toLex (-(entry pindex).nSequenceId, -(env.address pindex : Int)))

namespace ChainOrderLemmas

variable {env : ChainEnv} {entry : CBlockIndex → IndexEntry} {l : List CBlockIndex}

theorem rank_injective : Function.Injective (rank env entry) := by
  intro a b h
  obtain ⟨_, hrest⟩ := Prod.mk.inj (toLex.injective h)
  obtain ⟨_, haddress⟩ := Prod.mk.inj (toLex.injective hrest)
  exact env.address_injective (Int.ofNat.inj (neg_injective haddress))

theorem workComparator_iff (a b : CBlockIndex) :
    workComparator env entry a b = true ↔ rank env entry a < rank env entry b := by
  unfold workComparator rank
  simp only [Prod.Lex.toLex_lt_toLex, gt_iff_lt, BitVec.lt_def]
  split_ifs <;> simp only [false_iff, true_iff] <;> omega

theorem not_workComparator_iff (a b : CBlockIndex) :
    workComparator env entry a b = false ↔ rank env entry b ≤ rank env entry a := by
  rw [← Bool.not_eq_true, workComparator_iff, not_lt]

/-- The order does not depend on flags. -/
theorem rank_congr {entry' : CBlockIndex → IndexEntry}
    (h : ∀ b, (entry' b).nSequenceId = (entry b).nSequenceId) :
    rank env entry' = rank env entry := by
  funext b
  rw [rank, h b]
  rfl

/-! ## Ancestors -/

theorem disconnectTo_eq {fork tip : CBlockIndex} (h : fork.Below tip) :
    fork.disconnectTo tip = some fork := by
  induction tip with
  | genesis header => exact if_pos (below_genesis.mp h).symm
  | next pprev header ih =>
    unfold CBlockIndex.disconnectTo
    split
    · rfl
    · next hne =>
      rcases below_next.mp h with rfl | h
      · exact absurd rfl hne
      · exact ih h

/-! ## The blocks to connect -/

/-- The blocks from one entry up to another. -/
inductive Climb : CBlockIndex → List CBlockIndex → CBlockIndex → Prop
  | nil {a : CBlockIndex} : Climb a [] a
  | cons {a b c : CBlockIndex} {l : List CBlockIndex} : b.pprev = some a → Climb b l c →
      Climb a (b :: l) c

theorem Climb.below_last {a c : CBlockIndex} (h : Climb a l c) : a.Below c := by
  induction h with
  | nil => exact .refl
  | cons hprev _ ih => exact (below_of_pprev hprev).trans ih

theorem Climb.append {a b c : CBlockIndex} (h : Climb a l b) (hprev : c.pprev = some b) :
    Climb a (l ++ [c]) c := by
  induction h with
  | nil => exact .cons hprev .nil
  | cons hb _ ih => exact .cons hb (ih hprev)

theorem climb_above {a b : CBlockIndex} (h : a.Below b) : Climb a (b.above a.nHeight) b := by
  induction b with
  | genesis header =>
    rw [below_genesis.mp h]
    exact .nil
  | next pprev header ih =>
    rcases below_next.mp h with rfl | h
    · rw [above_self]
      exact .nil
    · rw [CBlockIndex.above, if_pos (nHeight_le_of_below h)]
      exact (ih h).append rfl

theorem above_walk {a : CBlockIndex} {low high : Nat} (hlow : low ≤ high)
    (hhigh : high ≤ a.nHeight) : (a.walk high).above low ++ a.above high = a.above low := by
  induction a with
  | genesis header => rfl
  | next pprev header ih =>
    rcases Nat.lt_or_eq_of_le hhigh with hlt | rfl
    · have hle := Nat.le_of_lt_succ hlt
      rw [walk_next_of_le hle, CBlockIndex.above, if_pos hle, ← append_assoc, ih hle,
        CBlockIndex.above, if_pos (hlow.trans hle)]
    · rw [walk_self, above_self, append_nil]

theorem connectBlocks_append (old : CBlockIndex) (xs ys : List CBlockIndex) (s : Chainstate) :
    Chainstate.connectBlocks env old (xs ++ ys) s =
      (Chainstate.connectBlocks env old xs s).bind fun r =>
        if r.2.2 then Chainstate.connectBlocks env old ys r.1 else some r := by
  induction xs generalizing s with
  | nil => rfl
  | cons b xs ih =>
    simp only [cons_append, Chainstate.connectBlocks, bind_eq_bind]
    cases s.connectTip env b with
    | none => rfl
    | some r =>
      obtain ⟨s₁, ok⟩ := r
      simp only [bind_some]
      cases ok with
      | false => rfl
      | true =>
        simp only [if_true]
        cases s₁.pruneBlockIndexCandidates env with
        | none => rfl
        | some s₂ =>
          simp only [bind_some]
          split
          · rfl
          · exact ih s₂

/-- Taking the blocks 32 at a time makes no difference. -/
theorem connectWindows_eq (old mostWork : CBlockIndex) {fuel nHeight : Nat}
    (hle : nHeight ≤ mostWork.nHeight)
    (hfuel : mostWork.nHeight - nHeight < fuel) (s : Chainstate) :
    Chainstate.connectWindows env old mostWork fuel nHeight s =
      (Chainstate.connectBlocks env old (mostWork.above nHeight) s).map fun r => (r.1, r.2.1) := by
  induction fuel generalizing nHeight s with
  | zero => exact absurd hfuel (Nat.not_lt_zero _)
  | succ fuel ih =>
    unfold Chainstate.connectWindows
    split
    · next heq =>
      rw [heq, above_self]
      rfl
    · next hne =>
      have htarget : nHeight ≤ min (nHeight + 32) mostWork.nHeight ∧
          min (nHeight + 32) mostWork.nHeight ≤ mostWork.nHeight ∧
          mostWork.nHeight - min (nHeight + 32) mostWork.nHeight < fuel := by omega
      obtain ⟨hlow, hhigh, hfuel⟩ := htarget
      dsimp only
      rw [getAncestor_of_le hhigh, bind_eq_bind, bind_some, ← above_walk hlow hhigh,
        connectBlocks_append]
      cases Chainstate.connectBlocks env old
        ((mostWork.walk (min (nHeight + 32) mostWork.nHeight : Nat)).above nHeight) s with
      | none => rfl
      | some r =>
        obtain ⟨s₁, found, goOn⟩ := r
        cases goOn with
        | false => rfl
        | true => exact ih hhigh hfuel s₁

end ChainOrderLemmas

end Bitcoboost
