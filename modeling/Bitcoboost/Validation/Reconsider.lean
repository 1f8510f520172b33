import Bitcoboost.Validation.BestChain

/-!
# Reconsidering a block

`ResetBlockFailureFlags` takes the failure flags off a block, its descendants and its ancestors,
and makes candidates of descendants that are better than the tip. Blocks on other branches above
an ancestor that had failed stay as they are, as do ancestors and blocks without a flag of their
own that should now be candidates.
-/

namespace Bitcoboost

open ChainLemmas AncestorLemmas ChainOrderLemmas BestChainLemmas IndexEntry Function List

def IndexEntry.unfail (e : IndexEntry) : IndexEntry :=
  { e with failedValid := false, failedChild := false }

namespace Chainstate

variable (env : ChainEnv)

def resetDescendant (pindex : CBlockIndex) (s : Chainstate) (blockIndex : CBlockIndex) :
    Chainstate :=
  if !(s.entry blockIndex).isValid .transactions && blockIndex.getAncestor pindex.nHeight =
      some pindex then
    let s := s.setEntry blockIndex (s.entry blockIndex).unfail
    let s := if (s.entry blockIndex).isValid .transactions && (s.entry blockIndex).haveNumChainTxs
        && workComparator env s.entry s.tip blockIndex then s.insertCandidate blockIndex else s
    { s with failedBlocks := s.failedBlocks.filter (· ≠ blockIndex) }
  else s

/-- The second loop, for one ancestor. -/
def resetAncestor (s : Chainstate) (pindex : CBlockIndex) : Chainstate :=
  if (s.entry pindex).failed then
    { s.setEntry pindex (s.entry pindex).unfail with
      failedBlocks := s.failedBlocks.filter (· ≠ pindex) }
  else s

/-- The second loop of `ResetBlockFailureFlags`. -/
def resetAncestors : CBlockIndex → Chainstate → Chainstate
  | .genesis header, s => s.resetAncestor (.genesis header)
  | .next pprev header, s => resetAncestors pprev (s.resetAncestor (.next pprev header))

def resetBlockFailureFlags (s : Chainstate) (pindex : CBlockIndex) : Chainstate :=
  resetAncestors pindex (s.blockIndex.foldl (resetDescendant env pindex) s)

/-- What should hold after a block was reconsidered. -/
structure Restored (s : Chainstate) : Prop where
  flags : ∀ b ∈ s.blockIndex, (∀ a : CBlockIndex, a.Below b → (s.entry a).failedValid = false) →
    (s.entry b).failed = false
  candidates : ∀ b ∈ s.blockIndex, s.Clean b → (s.entry b).haveNumChainTxs = true →
    workComparator env s.entry s.tip b = true → b ∈ s.setBlockIndexCandidates
  check : s.CheckBlockIndex env

end Chainstate

/-- One of two blocks is an ancestor of the other. -/
def CBlockIndex.OnLine (a b : CBlockIndex) : Prop := a.Below b ∨ b.Below a

/-- A block has an invalid ancestor that is not taken back with `pindex`. -/
def Chainstate.StaysInvalid (s : Chainstate) (pindex b : CBlockIndex) : Prop :=
  ∃ a : CBlockIndex, a.Below b ∧ (s.entry a).failedValid = true ∧ ¬a.OnLine pindex

/-- When a block can be reconsidered: no block is left behind with a flag, as one that should be a
candidate, or as one that should wait for an ancestor. -/
structure Chainstate.Reconsiderable (env : ChainEnv) (s : Chainstate)
    (pindex : CBlockIndex) : Prop where
  flagged : ∀ b ∈ s.blockIndex, (s.entry b).failed = true → ¬b.OnLine pindex →
    s.StaysInvalid pindex b
  candidate : ∀ b ∈ s.blockIndex, workComparator env s.entry b s.tip = false →
    (s.entry b).haveNumChainTxs = true →
    b ∉ s.setBlockIndexCandidates → s.StaysInvalid pindex b ∨ pindex.Below b ∧
      (s.entry b).failed = true ∧ b ≠ s.tip
  unlinked : ∀ b ∈ s.blockIndex, ∀ pprev, b.pprev = some pprev → (s.entry b).haveData = true →
    (s.entry b).haveNumChainTxs = false → (pprev, b) ∉ s.blocksUnlinked → s.StaysInvalid pindex b

namespace ReconsiderLemmas

variable {env : ChainEnv} {s s' s₀ : Chainstate} {pindex a : CBlockIndex}
  {done inserted : CBlockIndex → Prop}
  {entry : CBlockIndex → IndexEntry} {l : List CBlockIndex}

theorem unfail_of_not_failed {e : IndexEntry} (h : e.failed = false) : e.unfail = e := by
  obtain ⟨hvalid, hchild⟩ := Bool.or_eq_false_iff.mp h
  cases e
  cases hvalid
  cases hchild
  rfl

/-- A descendant that is made a candidate. -/
def Admitted (env : ChainEnv) (s : Chainstate) (b : CBlockIndex) : Prop :=
  (s.entry b).unfail.isValid .transactions = true ∧ (s.entry b).haveNumChainTxs = true ∧
    workComparator env s.entry s.tip b = true

/-- The entries in `done` have had their flags taken off, those in `inserted` were made
candidates. -/
structure Reset (done inserted : CBlockIndex → Prop) (s₀ s : Chainstate) : Prop where
  blockIndex : s.blockIndex = s₀.blockIndex
  tip : s.tip = s₀.tip
  blocksUnlinked : s.blocksUnlinked = s₀.blocksUnlinked
  cleared : ∀ b, done b → s.entry b = (s₀.entry b).unfail
  kept : ∀ b, ¬done b → s.entry b = s₀.entry b
  candidates : ∀ c, c ∈ s.setBlockIndexCandidates ↔ c ∈ s₀.setBlockIndexCandidates ∨ inserted c

theorem mem_insertCandidate {b c : CBlockIndex} :
    c ∈ (s.insertCandidate b).setBlockIndexCandidates ↔ c ∈ s.setBlockIndexCandidates ∨ c = b := by
  unfold Chainstate.insertCandidate
  split
  · next hmem =>
    refine ⟨.inl, fun h => h.elim id fun hcb => ?_⟩
    rw [hcb]
    exact hmem
  · rw [mem_cons, or_comm]

theorem insertCandidate_eq (s : Chainstate) (b : CBlockIndex) :
    s.insertCandidate b = { s with setBlockIndexCandidates :=
      (s.insertCandidate b).setBlockIndexCandidates } := by
  unfold Chainstate.insertCandidate
  split <;> rfl

section Reset

variable (h : Reset done inserted s₀ s)
include h

theorem Reset.unfail (b : CBlockIndex) : (s.entry b).unfail = (s₀.entry b).unfail := by
  by_cases hb : done b
  · rw [h.cleared b hb]
    rfl
  · rw [h.kept b hb]

theorem Reset.congr {done' inserted' : CBlockIndex → Prop} (hdone : ∀ b, done' b ↔ done b)
    (hinserted : ∀ b, inserted' b ↔ inserted b) : Reset done' inserted' s₀ s where
  blockIndex := h.blockIndex
  tip := h.tip
  blocksUnlinked := h.blocksUnlinked
  cleared b hb := h.cleared b ((hdone b).mp hb)
  kept b hb := h.kept b fun hb' => hb ((hdone b).mpr hb')
  candidates c := (h.candidates c).trans (or_congr_right (hinserted c).symm)

theorem Reset.clear {b : CBlockIndex} {new : CBlockIndex → Prop}
    (hindex : s'.blockIndex = s.blockIndex)
    (htip : s'.tip = s.tip) (hunlinked : s'.blocksUnlinked = s.blocksUnlinked)
    (hentry : s'.entry = update s.entry b (s.entry b).unfail)
    (hcandidates : ∀ c, c ∈ s'.setBlockIndexCandidates ↔ c ∈ s.setBlockIndexCandidates ∨ new c) :
    Reset (fun c => done c ∨ c = b) (fun c => inserted c ∨ new c) s₀ s' := by
  refine ⟨hindex.trans h.blockIndex, htip.trans h.tip, hunlinked.trans h.blocksUnlinked, fun c hc =>
    ?_, fun c hc => ?_, fun c => ?_⟩
  · rw [hentry]
    by_cases hcb : c = b
    · rw [hcb, update_self, h.unfail]
    · rw [update_of_ne hcb, h.cleared c (hc.resolve_right hcb)]
  · obtain ⟨hnot, hcb⟩ := not_or.mp hc
    rw [hentry, update_of_ne hcb, h.kept c hnot]
  · rw [hcandidates, h.candidates, or_assoc]

theorem Reset.workComparator (a b : CBlockIndex) :
    workComparator env s.entry a b = Bitcoboost.workComparator env s₀.entry a b :=
  workComparator_congr (fun c => congrArg nSequenceId (h.unfail c)) a b

theorem Reset.field {α : Type} {f : IndexEntry → α} (hf : ∀ e : IndexEntry, f e.unfail = f e)
    (b : CBlockIndex) : f (s.entry b) = f (s₀.entry b) := by
  rw [← hf (s.entry b), h.unfail, hf]

theorem Reset.first {p : IndexEntry → Bool} (hp : ∀ e : IndexEntry, p e.unfail = p e)
    (b : CBlockIndex) : s.first p b = s₀.first p b := by
  unfold Chainstate.first
  congr 1
  funext a
  exact h.field hp a

theorem Reset.firstNotValid (level : BlockValid) (b : CBlockIndex) :
    s.firstNotValid level b = s₀.firstNotValid level b := by
  unfold Chainstate.firstNotValid
  congr 1
  funext a
  rw [h.field (f := valid) fun _ => rfl]

end Reset

/-! ## The two loops -/

/-- The descendants among some entries that are not valid. -/
def Failing (s : Chainstate) (pindex : CBlockIndex) (l : List CBlockIndex)
    (b : CBlockIndex) : Prop :=
  b ∈ l ∧ pindex.Below b ∧ (s.entry b).isValid .transactions = false

/-- Descendants of `l` are cleared, and inserted if they are better than the tip. -/
abbrev ResetTo (env : ChainEnv) (pindex : CBlockIndex) (l : List CBlockIndex)
    (s₀ s : Chainstate) : Prop :=
  Reset (Failing s₀ pindex l) (fun b => Failing s₀ pindex l b ∧ Admitted env s₀ b) s₀ s

theorem failing_append (b c : CBlockIndex) (l : List CBlockIndex) :
    Failing s pindex (l ++ [b]) c ↔ Failing s pindex l c ∨ c = b ∧ pindex.Below b ∧
    (s.entry b).isValid .transactions = false := by
  unfold Failing
  rw [mem_append, mem_singleton, or_and_right]
  refine or_congr_right (and_congr_right fun hcb => ?_)
  rw [hcb]

theorem reset_descendant (h : ResetTo env pindex l s₀ s) (b : CBlockIndex) :
    ResetTo env pindex (l ++ [b]) s₀ (s.resetDescendant env pindex b) := by
  have hancestor : b.getAncestor pindex.nHeight = some pindex ↔ pindex.Below b := by
    rw [← contains_iff, CBlockIndex.contains, decide_eq_true_eq]
  unfold Chainstate.resetDescendant
  split
  · next hfires =>
    obtain ⟨hinvalid, hbelow⟩ := Bool.and_eq_true_iff.mp hfires
    have hbelow := hancestor.mp (of_decide_eq_true hbelow)
    have hinvalid₀ : (s₀.entry b).isValid .transactions = false := by
      by_cases hdone : Failing s₀ pindex l b
      · exact hdone.2.2
      · rw [← h.kept b hdone]
        simpa using hinvalid
    have hfailing (c : CBlockIndex) :
        Failing s₀ pindex (l ++ [b]) c ↔ Failing s₀ pindex l c ∨ c = b := by
      rw [failing_append, and_iff_left ⟨hbelow, hinvalid₀⟩]
    set s₁ := s.setEntry b (s.entry b).unfail
    have hentry : s₁.entry b = (s₀.entry b).unfail := by
      rw [← h.unfail]
      exact update_self ..
    have hcleared := @Reset.clear _ s₁ s₀ _ _ h b (fun _ => False) rfl rfl rfl rfl fun _ =>
      (or_false _).to_iff.symm
    have hadmitted : ((s₁.entry b).isValid .transactions && (s₁.entry b).haveNumChainTxs &&
        workComparator env s₁.entry s₁.tip b) = true ↔ Admitted env s₀ b := by
      rw [hentry, hcleared.workComparator, hcleared.tip, Bool.and_eq_true_iff,
        Bool.and_eq_true_iff, and_assoc]
      rfl
    obtain ⟨candidates, hinsert, hmem⟩ : ∃ candidates, (if (s₁.entry b).isValid .transactions &&
        (s₁.entry b).haveNumChainTxs && workComparator env s₁.entry s₁.tip b then s₁.insertCandidate
        b else s₁) = { s₁ with setBlockIndexCandidates := candidates } ∧
        ∀ c, c ∈ candidates ↔ c ∈ s.setBlockIndexCandidates ∨ c = b ∧ Admitted env s₀ b := by
      split
      · next hyes =>
        refine ⟨_, insertCandidate_eq _ b, fun c => mem_insertCandidate.trans ?_⟩
        rw [and_iff_left (hadmitted.mp hyes)]
        rfl
      · next hno => exact ⟨_, rfl, fun c => (or_iff_left fun hc => hno (hadmitted.mpr hc.2)).symm⟩
    dsimp only
    rw [hinsert]
    have hreset : Reset _ _ s₀ { s₁ with
        setBlockIndexCandidates := candidates
        failedBlocks := s.failedBlocks.filter (· ≠ b) } := h.clear rfl rfl rfl rfl hmem
    refine hreset.congr hfailing fun c => ?_
    rw [hfailing, or_and_right]
    refine or_congr_right (and_congr_right fun hcb => ?_)
    rw [hcb]
  · next hskips =>
    -- the entry is not a descendant, was valid before, or has been cleared already
    have hfailing (c : CBlockIndex) : Failing s₀ pindex (l ++ [b]) c ↔ Failing s₀ pindex l c := by
      rw [failing_append]
      refine or_iff_left_of_imp ?_
      rintro ⟨rfl, hbelow, hinvalid⟩
      by_contra hnot
      refine hskips (Bool.and_eq_true_iff.mpr ⟨?_, decide_eq_true (hancestor.mpr hbelow)⟩)
      rw [h.kept c hnot, hinvalid]
      rfl
    exact h.congr hfailing fun c => and_congr_left fun _ => hfailing c

theorem reset_descendants (h : ResetTo env pindex l s₀ s) {rest : List CBlockIndex} :
    ResetTo env pindex (l ++ rest) s₀ (rest.foldl (Chainstate.resetDescendant env pindex) s) := by
  induction rest generalizing l s with
  | nil =>
    rw [append_nil]
    exact h
  | cons b rest ih =>
    rw [foldl_cons, append_cons]
    exact ih (reset_descendant h b)

theorem reset_ancestor (h : Reset done inserted s₀ s) :
    Reset (fun c => done c ∨ c = a) inserted s₀ (s.resetAncestor a) := by
  unfold Chainstate.resetAncestor
  split
  · have hreset : Reset _ _ s₀
        { s.setEntry a (s.entry a).unfail with failedBlocks := s.failedBlocks.filter (· ≠ a) } :=
      @Reset.clear _ _ s₀ _ _ h a (fun _ => False) rfl rfl rfl rfl fun _ => (or_false _).to_iff.symm
    exact hreset.congr (fun _ => .rfl) fun _ => (or_false _).to_iff.symm
  · next hfailed =>
    refine ⟨h.blockIndex, h.tip, h.blocksUnlinked, fun c hc => ?_, fun c hc => h.kept c fun hdone =>
      hc (.inl hdone), h.candidates⟩
    rcases hc with hc | rfl
    · exact h.cleared c hc
    · rw [← h.unfail, unfail_of_not_failed (Bool.eq_false_iff.mpr hfailed)]

theorem reset_ancestors (h : Reset done inserted s₀ s) (pindex : CBlockIndex) :
    Reset (fun c => done c ∨ c.Below pindex) inserted s₀ (Chainstate.resetAncestors pindex s) := by
  induction pindex generalizing s done with
  | genesis header => exact (reset_ancestor h).congr (fun c =>
      or_congr_right below_genesis) fun _ => .rfl
  | next pprev header ih =>
    refine (ih (reset_ancestor h)).congr (fun c => ?_) fun _ => .rfl
    rw [below_next, or_assoc]

theorem resetBlockFailureFlags_spec (env : ChainEnv) (s : Chainstate) (pindex : CBlockIndex) :
    Reset (fun c => Failing s pindex s.blockIndex c ∨ c.Below pindex) (fun c =>
      Failing s pindex s.blockIndex c ∧ Admitted env s c) s
      (s.resetBlockFailureFlags env pindex) := by
  have hstart : ResetTo env pindex [] s s :=
    ⟨rfl, rfl, rfl, fun b hb => absurd hb.1 not_mem_nil, fun _ _ => rfl, fun c =>
      (or_iff_left fun hc => not_mem_nil hc.1.1).symm⟩
  exact reset_ancestors (reset_descendants hstart) pindex

/-! ## Which blocks stay invalid -/

/-- A flag that an entry keeps: it is neither an ancestor nor a descendant. -/
theorem flag_iff {flag : IndexEntry → Bool} (hunfail : ∀ e : IndexEntry, flag e.unfail = false)
    (hflag : ∀ e : IndexEntry, flag e = true → e.failed = true) {b : CBlockIndex}
    (hb : b ∈ s.blockIndex) :
    flag ((s.resetBlockFailureFlags env pindex).entry b) = true ↔ flag (s.entry b) = true ∧
    ¬b.OnLine pindex := by
  have hreset := resetBlockFailureFlags_spec env s pindex
  by_cases hdone : Failing s pindex s.blockIndex b ∨ b.Below pindex
  · rw [hreset.cleared b hdone, hunfail]
    refine iff_of_false Bool.false_ne_true fun h => h.2 ?_
    exact hdone.elim (fun hfailing => .inr hfailing.2.1) .inl
  · rw [hreset.kept b hdone]
    obtain ⟨hfailing, hbelow⟩ := not_or.mp hdone
    refine (and_iff_left_of_imp fun hset hline => ?_).symm
    rcases hline with hline | hline
    · exact hbelow hline
    · refine hfailing ⟨hb, hline, ?_⟩
      rw [isValid, hflag _ hset]
      rfl

theorem failed_iff {b : CBlockIndex} (hb : b ∈ s.blockIndex) :
    ((s.resetBlockFailureFlags env pindex).entry b).failed = true ↔ (s.entry b).failed = true ∧
    ¬b.OnLine pindex :=
  flag_iff (fun _ => rfl) (fun _ h => h) hb

theorem failedValid_iff {b : CBlockIndex} (hb : b ∈ s.blockIndex) :
    ((s.resetBlockFailureFlags env pindex).entry b).failedValid = true ↔
    (s.entry b).failedValid = true ∧ ¬b.OnLine pindex :=
  flag_iff (fun _ => rfl) (fun _ h => Bool.or_eq_true_iff.mpr (.inl h)) hb

theorem firstInvalid_eq_none (hcheck : s.CheckBlockIndex env) {b : CBlockIndex}
    (hb : b ∈ s.blockIndex) :
    (s.resetBlockFailureFlags env pindex).firstInvalid b = none ↔ ¬s.StaysInvalid pindex b := by
  rw [Chainstate.firstInvalid, first_eq_none]
  constructor
  · rintro hnone ⟨a, ha, hinvalid⟩
    refine Bool.false_ne_true ((hnone a ha).symm.trans ?_)
    exact (failedValid_iff (closed_of_check hcheck hb ha)).mpr hinvalid
  · intro hstays a ha
    refine Bool.eq_false_iff.mpr fun hset => hstays ⟨a, ha, ?_⟩
    exact (failedValid_iff (closed_of_check hcheck hb ha)).mp hset

/-! ## What the assertions are about otherwise -/

/-- The assertions about an entry that has its flags, or had them taken off: those that speak of
flags or of candidates have to be shown again. -/
theorem Reset.checkEntry (h : Reset done inserted s₀ s) {b : CBlockIndex}
    (hentry : s₀.CheckEntry env b) (hfailed : s.firstInvalid b = none → (s.entry b).failed = false)
    (hcandidate : Bitcoboost.workComparator env s₀.entry b s₀.tip = false →
      (s₀.entry b).haveNumChainTxs = true → s.firstInvalid b = none → b ∈ s.setBlockIndexCandidates)
    (hnotCandidate : Bitcoboost.workComparator env s₀.entry b s₀.tip = true ∨
      (s₀.entry b).haveNumChainTxs = false → b ∉ s.setBlockIndexCandidates)
    (hunlinked : ∀ pprev, b.pprev = some pprev → (s₀.entry b).haveData = true →
      (s₀.entry b).haveNumChainTxs = false →
      s.firstInvalid b = none → (pprev, b) ∈ s₀.blocksUnlinked) : s.CheckEntry env b := by
  have hnTx := h.field (f := nTx) fun _ => rfl
  have hchainTx := h.field (f := nChainTx) fun _ => rfl
  have hnum := h.field (f := haveNumChainTxs) fun _ => rfl
  have hdata := h.field (f := haveData) fun _ => rfl
  have hundo := h.field (f := haveUndo) fun _ => rfl
  have hvalid := h.field (f := valid) fun _ => rfl
  have hsequence := h.field (f := nSequenceId) fun _ => rfl
  have hmissing : s.firstMissing = s₀.firstMissing := funext (h.first fun _ => rfl)
  have hprocessed : s.firstNeverProcessed = s₀.firstNeverProcessed := funext (h.first fun _ => rfl)
  have hlinked : s₀.firstNeverProcessed b ≠ none ↔ (s₀.entry b).haveNumChainTxs = false := by
    rw [ne_eq, hentry.processed, Bool.not_eq_true]
  refine
    { genesisHash := hentry.genesisHash
      genesisChain := ?_
      sequenceId := ?_
      haveData := ?_
      missing := ?_
      haveUndo := ?_
      transactions := ?_
      processed := ?_
      transactionsValid := ?_
      chainWork := hentry.chainWork
      treeValid := ?_
      chainValid := ?_
      scriptsValid := ?_
      failed := hfailed
      chainTx := ?_
      candidate := ?_
      notCandidate := ?_
      unlinked := ?_
      unlinkedData := ?_
      unlinkedMissing := ?_
      neverPruned := ?_ }
  · rw [h.tip]
    exact hentry.genesisChain
  · rw [hnum, hsequence]
    exact hentry.sequenceId
  · rw [hdata, hnTx]
    exact hentry.haveData
  · rw [hmissing, hprocessed]
    exact hentry.missing
  · rw [hundo, hdata]
    exact hentry.haveUndo
  · rw [hvalid, hnTx]
    exact hentry.transactions
  · rw [hprocessed, hnum]
    exact hentry.processed
  · rw [h.firstNotValid, hnum]
    exact hentry.transactionsValid
  · rw [h.firstNotValid]
    exact hentry.treeValid
  · rw [h.firstNotValid, hvalid]
    exact hentry.chainValid
  · rw [h.firstNotValid, hvalid]
    exact hentry.scriptsValid
  · simp only [hchainTx, hnTx]
    exact hentry.chainTx
  · rw [h.workComparator, h.tip, hprocessed]
    exact fun hbest hall hinvalid _ => hcandidate hbest (hentry.processed.mp hall) hinvalid
  · rw [h.workComparator, h.tip, hprocessed, hlinked]
    exact hnotCandidate
  · rw [hdata, hprocessed, h.blocksUnlinked, hlinked]
    exact hunlinked
  · rw [hdata, h.blocksUnlinked]
    exact hentry.unlinkedData
  · rw [hmissing, h.blocksUnlinked]
    exact hentry.unlinkedMissing
  · rw [hdata, hprocessed, hmissing]
    exact hentry.neverPruned

/-! ## Which blocks become candidates -/

theorem workComparator_asymm {b : CBlockIndex} (h : workComparator env entry a b = true) :
    workComparator env entry b a = false :=
  (not_workComparator_iff _ _).mpr ((workComparator_iff _ _).mp h).le

theorem workComparator_of_ne {b : CBlockIndex} (h : workComparator env entry b a = false)
    (hne : b ≠ a) : workComparator env entry a b = true :=
  (workComparator_iff _ _).mpr (((not_workComparator_iff _ _).mp h).lt_of_ne fun heq =>
    hne (rank_injective heq).symm)

theorem failed_of_admitted {b : CBlockIndex} (hfailing : Failing s pindex s.blockIndex b)
    (hadmitted : Admitted env s b) : (s.entry b).failed = true := by
  refine Bool.eq_false_imp_eq_true.mp fun hfailed => ?_
  have hvalid := hadmitted.1
  rw [unfail_of_not_failed hfailed, isValid, hfailed, Bool.not_false, Bool.true_and,
    decide_eq_true_eq] at hvalid
  have hnot := hfailing.2.2
  rw [isValid, hfailed, Bool.not_false, Bool.true_and, decide_eq_false_iff_not] at hnot
  exact absurd hvalid hnot

section

variable (hcheck : s.CheckBlockIndex env)
include hcheck

theorem admitted_of_check {b : CBlockIndex} (hb : b ∈ s.blockIndex)
    (hnum : (s.entry b).haveNumChainTxs = true)
    (hbetter : workComparator env s.entry s.tip b = true) : Admitted env s b := by
  refine ⟨decide_eq_true ((hcheck.entries b hb).transactions.mpr (Nat.pos_of_ne_zero ?_)),
    hnum, hbetter⟩
  have hprocessed := first_eq_none.mp ((hcheck.entries b hb).processed.mpr hnum) b .refl
  exact of_decide_eq_false hprocessed

theorem missing_of_processed {b : CBlockIndex} (hb : b ∈ s.blockIndex)
    (hnum : (s.entry b).haveNumChainTxs = true) : s.firstMissing b = none :=
  (hcheck.entries b hb).missing.trans ((hcheck.entries b hb).processed.mpr hnum)

/-- The assertions say what should hold. -/
theorem restored_of_check : s.Restored env where
  flags b hb hvalid := (hcheck.entries b hb).failed (first_eq_none.mpr hvalid)
  candidates b hb hclean hnum hbetter := by
    refine (hcheck.entries b hb).candidate (workComparator_asymm hbetter)
        ((hcheck.entries b hb).processed.mpr hnum) ?_
      (.inl (missing_of_processed hcheck hb hnum))
    exact first_eq_none.mpr fun a ha => (Bool.or_eq_false_iff.mp (hclean a ha)).1
  check := hcheck

theorem check_of_reconsiderable (h : s.Reconsiderable env pindex) :
    (s.resetBlockFailureFlags env pindex).CheckBlockIndex env := by
  have hreset := resetBlockFailureFlags_spec env s pindex
  refine ⟨by rw [hreset.blockIndex]; exact hcheck.oneGenesis,
    by rw [hreset.blockIndex]; exact hcheck.traversed, fun b hb => ?_⟩
  rw [hreset.blockIndex] at hb
  refine hreset.checkEntry (hcheck.entries b hb) (fun hvalid => ?_) (fun hbest hnum hvalid => ?_)
      (fun hworse hmem => ?_)
    fun pprev hprev hdata hnum hvalid => ?_
  · refine Bool.eq_false_iff.mpr fun hset => ?_
    obtain ⟨hfailed, hline⟩ := (failed_iff hb).mp hset
    exact (firstInvalid_eq_none hcheck hb).mp hvalid (h.flagged b hb hfailed hline)
  · refine (hreset.candidates b).mpr (or_iff_not_imp_left.mpr fun hnot => ?_)
    rcases h.candidate b hb hbest hnum hnot with hstays | ⟨hbelow, hfailed, htip⟩
    · exact absurd hstays ((firstInvalid_eq_none hcheck hb).mp hvalid)
    · refine ⟨⟨hb, hbelow, ?_⟩, admitted_of_check hcheck hb hnum (workComparator_of_ne hbest htip)⟩
      rw [isValid, hfailed]
      rfl
  · rcases (hreset.candidates b).mp hmem with hmem | ⟨_, _, hnum, hbetter⟩
    · refine (hcheck.entries b hb).notCandidate (hworse.imp_right fun hnum => ?_) hmem
      rw [ne_eq, (hcheck.entries b hb).processed, hnum]
      exact Bool.false_ne_true
    · rcases hworse with hworse | hworse
      · exact Bool.false_ne_true ((workComparator_asymm hbetter).symm.trans hworse)
      · exact Bool.false_ne_true (hworse.symm.trans hnum)
  · by_contra hnot
    exact (firstInvalid_eq_none hcheck hb).mp hvalid (h.unlinked b hb pprev hprev hdata hnum hnot)

theorem reconsiderable_of_check
    (hcheck' : (s.resetBlockFailureFlags env pindex).CheckBlockIndex env) :
    s.Reconsiderable env pindex := by
  have hreset := resetBlockFailureFlags_spec env s pindex
  have hnum (b : CBlockIndex) := hreset.field (f := haveNumChainTxs) (fun _ => rfl) b
  have hentries : ∀ b ∈ s.blockIndex, (s.resetBlockFailureFlags env pindex).CheckEntry env b := by
    rw [← hreset.blockIndex]
    exact hcheck'.entries
  refine ⟨fun b hb hfailed hline => ?_, fun b hb hbest hlinked hnot => ?_,
    fun b hb pprev hprev hdata hlinked hnot => ?_⟩
  · by_contra hstays
    have hclear := (hentries b hb).failed ((firstInvalid_eq_none hcheck hb).mpr hstays)
    exact Bool.false_ne_true (hclear.symm.trans ((failed_iff hb).mpr ⟨hfailed, hline⟩))
  · refine or_iff_not_imp_left.mpr fun hstays => ?_
    have hlinked' := (hnum b).trans hlinked
    have hmem :=
        (hentries b hb).candidate (by rw [hreset.workComparator, hreset.tip]; exact hbest)
          ((hentries b hb).processed.mpr hlinked')
      ((firstInvalid_eq_none hcheck hb).mpr hstays)
        (.inl ((hentries b hb).missing.trans ((hentries b hb).processed.mpr hlinked')))
    rcases (hreset.candidates b).mp hmem with hmem | ⟨hfailing, hadmitted⟩
    · exact absurd hmem hnot
    · refine ⟨hfailing.2.1, failed_of_admitted hfailing hadmitted, fun htip => ?_⟩
      have hbetter := hadmitted.2.2
      rw [htip] at hbetter
      exact lt_irrefl _ ((workComparator_iff _ _).mp hbetter)
  · by_contra hstays
    refine hnot ?_
    rw [← hreset.blocksUnlinked]
    refine (hentries b hb).unlinked pprev hprev ?_ (fun hprocessed => ?_)
      ((firstInvalid_eq_none hcheck hb).mpr hstays)
    · rw [hreset.field (f := haveData) fun _ => rfl]
      exact hdata
    · have := (hentries b hb).processed.mp hprocessed
      rw [hnum, hlinked] at this
      exact Bool.false_ne_true this

end

end ReconsiderLemmas

open ReconsiderLemmas

/-- After a block was reconsidered, flags and candidates are what they should be and
`CheckBlockIndex` passes, if and only if no other branch was left behind. -/
theorem resetBlockFailureFlags_restored_iff (env : ChainEnv) (s : Chainstate) (pindex : CBlockIndex)
    (hcheck : s.CheckBlockIndex env) :
    (s.resetBlockFailureFlags env pindex).Restored env ↔ s.Reconsiderable env pindex :=
  ⟨fun h => reconsiderable_of_check hcheck h.check, fun h =>
    restored_of_check (check_of_reconsiderable hcheck h)⟩

def invalidBlock : CBlockIndex := goodTip

def firstChild : CBlockIndex := .next invalidBlock { nBits := 0x207fffff#32, nNonce := 3#32 }
def secondChild : CBlockIndex := .next invalidBlock { nBits := 0x207fffff#32, nNonce := 4#32 }

/-- A node at the genesis block, with some blocks above the invalid one. -/
def familyNode (children : List CBlockIndex) : Chainstate where
  blockIndex := forkRoot :: invalidBlock :: children
  entry b := {
    nTx := 1
    nChainTx := b.nHeight + 1
    valid := .transactions
    haveData := true
    failedValid := b = invalidBlock
    failedChild := b = firstChild || b = secondChild }
  tip := forkRoot
  setBlockIndexCandidates := [forkRoot]

/-- Everything above the invalid block is on its line. -/
theorem reconsider_invalidBlock :
    (familyNode [firstChild, secondChild]).Reconsiderable forkEnv invalidBlock :=
  (resetBlockFailureFlags_restored_iff forkEnv (familyNode [firstChild, secondChild]) invalidBlock
      (by decide +kernel)).mp
    (restored_of_check (by decide +kernel))

/-- When one of two siblings is reconsidered, the other keeps its flag though no invalid block is
below it, and the block below both is not made a candidate. -/
theorem reconsider_sibling : let s := familyNode [firstChild, secondChild]
    let s' := s.resetBlockFailureFlags forkEnv firstChild
    s.CheckBlockIndex forkEnv ∧ firstChild ∈ s.blockIndex ∧
      (s'.firstInvalid secondChild = none ∧ (s'.entry secondChild).failed = true) ∧
      (workComparator forkEnv s'.entry s'.tip invalidBlock = true ∧
        invalidBlock ∉ s'.setBlockIndexCandidates) ∧
      ¬s'.Restored forkEnv := by
  refine ⟨by decide +kernel, by decide, by decide +kernel, by decide +kernel, fun h => ?_⟩
  exact absurd h.check (by decide +kernel)

end Bitcoboost
