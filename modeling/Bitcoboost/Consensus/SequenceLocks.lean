import Bitcoboost.Chain.MedianTime

/-!
# Relative lock times

What the sequence locks of `tx_verify.cpp` mean: every input whose sequence number is a
relative lock time has its own condition on the block, counted in blocks or in units of 512
seconds from the coin that it spends.
-/

namespace Bitcoboost

open ChainLemmas AncestorLemmas List

/-- The sequence number of an input is a relative lock time. -/
def CTxIn.hasLock (txin : CTxIn) : Bool := txin.nSequence &&& sequenceLocktimeDisableFlag = 0#32

/-- The condition of an input, for a block after `pprev`. Times are medians: the one before the
block, and the one before the block of the coin. -/
def CTxIn.LockMet (txin : CTxIn) (nCoinHeight : Int) (pprev : CBlockIndex) : Prop :=
  let value : Int := (txin.nSequence &&& sequenceLocktimeMask).toNat
  if txin.nSequence &&& sequenceLocktimeTypeFlag ≠ 0#32 then
    ∃ before : CBlockIndex, before.Below pprev ∧ before.nHeight = nCoinHeight.toNat - 1 ∧
      pprev.getMedianTimePast ≥ before.getMedianTimePast + 512 * value
  else (pprev.nHeight : Int) + 1 ≥ nCoinHeight + value

namespace SequenceLocksLemmas

/-- The locks are satisfied for the block after `pprev`. -/
def Satisfied (pprev : CBlockIndex) (locks : Int × Int) : Prop :=
  locks.1 < pprev.nHeight + 1 ∧ locks.2 < pprev.getMedianTimePast

variable {pprev : CBlockIndex} {header : CBlockHeader} {nCoinHeight : Int} {txin : CTxIn}

theorem getAncestor_coin (h : nCoinHeight ≤ pprev.nHeight) :
    ∃ before, (CBlockIndex.next pprev header).getAncestor (max (nCoinHeight - 1) 0) = some before ∧
    before.Below pprev ∧
      before.nHeight = nCoinHeight.toNat - 1 := by
  have hmax : max (nCoinHeight - 1) 0 = ((nCoinHeight.toNat - 1 : Nat) : Int) := by omega
  have hle : nCoinHeight.toNat - 1 ≤ pprev.nHeight := by omega
  rw [hmax, getAncestor_of_le (Nat.le_succ_of_le hle), walk_next_of_le hle]
  obtain ⟨hbelow, hheight, _⟩ := walk_spec hle
  exact ⟨_, rfl, hbelow, hheight⟩

theorem satisfied_max_height (nMinHeight nMinTime nHeight : Int) :
    Satisfied pprev (max nMinHeight nHeight, nMinTime) ↔ Satisfied pprev (nMinHeight, nMinTime) ∧
    nHeight < pprev.nHeight + 1 := by
  unfold Satisfied
  rw [max_lt_iff, and_right_comm]

theorem satisfied_max_time (nMinHeight nMinTime nTime : Int) :
    Satisfied pprev (nMinHeight, max nMinTime nTime) ↔ Satisfied pprev (nMinHeight, nMinTime) ∧
    nTime < pprev.getMedianTimePast := by
  unfold Satisfied
  rw [max_lt_iff, and_assoc]

theorem satisfied_none {pprev : CBlockIndex} : Satisfied pprev (-1, -1) := by
  have := MedianTimeLemmas.getMedianTimePast_nonneg pprev
  constructor <;> dsimp only <;> omega

/-- The lock of an input is the last time that does not meet its condition. -/
theorem lockMet_time {before : CBlockIndex}
    (htype : txin.nSequence &&& sequenceLocktimeTypeFlag ≠ 0#32)
    (hbelow : before.Below pprev) (hheight : before.nHeight = nCoinHeight.toNat - 1) :
    txin.LockMet nCoinHeight pprev ↔
      before.getMedianTimePast + (txin.nSequence &&& sequenceLocktimeMask).toNat * 2 ^ 9 - 1 <
        pprev.getMedianTimePast := by
  unfold CTxIn.LockMet
  rw [if_pos htype]
  constructor
  · rintro ⟨before', hbelow', hheight', htime⟩
    rw [eq_of_nHeight hbelow' hbelow (hheight'.trans hheight.symm)] at htime
    omega
  · intro htime
    exact ⟨before, hbelow, hheight, by omega⟩

theorem lockMet_height (htype : ¬txin.nSequence &&& sequenceLocktimeTypeFlag ≠ 0#32) :
    txin.LockMet nCoinHeight pprev ↔ nCoinHeight + (txin.nSequence &&& sequenceLocktimeMask).toNat -
      1 < pprev.nHeight + 1 := by
  unfold CTxIn.LockMet
  rw [if_neg htype]
  omega

/-- The loop collects the conditions of the inputs. -/
theorem sequenceLocksLoop_spec {l : List (CTxIn × Int)} (hheights : ∀ p ∈ l, p.2 ≤ pprev.nHeight)
    (locks : Int × Int) : ∃ locks', sequenceLocksLoop (.next pprev header) locks l = some locks' ∧
      (Satisfied pprev locks' ↔ Satisfied pprev locks ∧ ∀ p ∈ l, p.1.hasLock = true →
        p.1.LockMet p.2 pprev) := by
  induction l generalizing locks with
  | nil => exact ⟨locks, rfl, by simp⟩
  | cons p l ih =>
    obtain ⟨txin, nCoinHeight⟩ := p
    obtain ⟨hheight, hheights⟩ := List.forall_mem_cons.mp hheights
    obtain ⟨nMinHeight, nMinTime⟩ := locks
    simp only [forall_mem_cons]
    unfold sequenceLocksLoop
    by_cases hlock : txin.hasLock = true
    · rw [if_neg (not_not.mpr (of_decide_eq_true hlock))]
      by_cases htype : txin.nSequence &&& sequenceLocktimeTypeFlag ≠ 0#32
      · obtain ⟨before, hancestor, hbelow, hbefore⟩ :=
          @getAncestor_coin pprev header nCoinHeight hheight
        obtain ⟨locks', hloop, hiff⟩ := ih hheights
          (nMinHeight, max nMinTime (before.getMedianTimePast +
            (txin.nSequence &&& sequenceLocktimeMask).toNat * 2 ^ 9 - 1))
        rw [if_pos htype, hancestor, Option.bind_eq_bind, Option.bind_some]
        refine ⟨locks', hloop, hiff.trans ?_⟩
        rw [satisfied_max_time, ← lockMet_time htype hbelow hbefore, and_assoc,
          forall_prop_of_true hlock]
      · obtain ⟨locks', hloop, hiff⟩ := ih hheights
          (max nMinHeight (nCoinHeight + (txin.nSequence &&& sequenceLocktimeMask).toNat - 1),
            nMinTime)
        rw [if_neg htype]
        refine ⟨locks', hloop, hiff.trans ?_⟩
        rw [satisfied_max_height, ← lockMet_height htype, and_assoc, forall_prop_of_true hlock]
    · have hdisabled : txin.nSequence &&& sequenceLocktimeDisableFlag ≠ 0#32 :=
        fun h => hlock (decide_eq_true h)
      obtain ⟨locks', hloop, hiff⟩ := ih hheights (nMinHeight, nMinTime)
      rw [if_pos hdisabled]
      refine ⟨locks', hloop, hiff.trans ?_⟩
      simp [hlock]

theorem sequenceLocksLoop_filter (block : CBlockIndex) (l : List (CTxIn × Int))
    (locks : Int × Int) :
    sequenceLocksLoop block locks (l.filter fun p => p.1.hasLock) =
      sequenceLocksLoop block locks l := by
  induction l generalizing locks with
  | nil => rfl
  | cons p l ih =>
    obtain ⟨txin, nCoinHeight⟩ := p
    by_cases hlock : txin.hasLock = true
    · rw [filter_cons, if_pos hlock]
      unfold sequenceLocksLoop
      simp only [ih]
    · have hdisabled : txin.nSequence &&& sequenceLocktimeDisableFlag ≠ 0#32 :=
        fun h => hlock (decide_eq_true h)
      rw [filter_cons, if_neg hlock, ih]
      exact (if_pos hdisabled).symm

end SequenceLocksLemmas

open SequenceLocksLemmas

/-- The inputs of a transaction that have a lock, with the heights of their coins. -/
def CTransaction.locks (tx : CTransaction) (prevHeights : List Int) : List (CTxIn × Int) :=
  (tx.vin.zip prevHeights).filter fun p => p.1.hasLock

/-- Relative lock times mean BIP68: the locks are satisfied for a block if they are not enforced,
or each input that has one meets its own condition. The other inputs can be left out. -/
theorem sequenceLocks_iff (tx : CTransaction) (verifySequence : Bool) (prevHeights : List Int)
    (block pprev : CBlockIndex)
    (hprev : block.pprev = some pprev) (hlength : prevHeights.length = tx.vin.length)
    (hheights : ∀ h ∈ prevHeights, h ≤ pprev.nHeight) :
    (∃ ok, sequenceLocks tx verifySequence prevHeights block = some ok ∧
      (ok = true ↔ tx.nVersion.toNat < 2 ∨ verifySequence = false ∨
        ∀ p ∈ tx.vin.zip prevHeights, p.1.hasLock = true → p.1.LockMet p.2 pprev)) ∧
    calculateSequenceLocks tx verifySequence prevHeights block =
      calculateSequenceLocks { tx with vin := (tx.locks prevHeights).map Prod.fst } verifySequence
        ((tx.locks prevHeights).map Prod.snd) block := by
  cases block with
  | genesis => cases hprev
  | next pprev' header =>
    cases hprev
    have hzip : ((tx.locks prevHeights).map Prod.fst).zip ((tx.locks prevHeights).map Prod.snd) =
      tx.locks prevHeights := (zip_of_prod rfl rfl).symm
    have hevaluate (locks : Int × Int) :
        ∃ ok, evaluateSequenceLocks (.next pprev header) locks = some ok ∧
        (ok = true ↔ Satisfied pprev locks) := by
      refine ⟨_, rfl, ?_⟩
      simp [Satisfied]
    unfold sequenceLocks calculateSequenceLocks
    rw [if_neg (not_not.mpr hlength), if_neg (not_not.mpr (by rw [length_map, length_map]))]
    cases henforce : decide (tx.nVersion.toNat ≥ 2) && verifySequence with
    | false =>
      obtain ⟨ok, hok, hiff⟩ := hevaluate (-1, -1)
      refine ⟨⟨ok, hok, hiff.trans (iff_of_true satisfied_none ?_)⟩, rfl⟩
      rcases Bool.and_eq_false_iff.mp henforce with hversion | hflag
      · exact .inl (not_le.mp (of_decide_eq_false hversion))
      · exact .inr (.inl hflag)
    | true =>
      obtain ⟨hversion, hflag⟩ := Bool.and_eq_true_iff.mp henforce
      have hpairs : ∀ p ∈ tx.vin.zip prevHeights, p.2 ≤ pprev.nHeight :=
        fun p hp => hheights p.2 (of_mem_zip hp).2
      obtain ⟨locks, hloop, hmet⟩ := @sequenceLocksLoop_spec pprev header _ hpairs (-1, -1)
      obtain ⟨ok, hok, hiff⟩ := hevaluate locks
      constructor
      · refine ⟨ok, ?_, hiff.trans (hmet.trans ?_)⟩
        · rw [Bool.not_true, if_neg Bool.false_ne_true, hloop]
          exact hok
        · rw [and_iff_right satisfied_none, hflag,
            or_iff_right (not_lt.mpr (of_decide_eq_true hversion)),
            or_iff_right Bool.false_ne_true.symm]
      · rw [hzip, Bool.not_true, if_neg Bool.false_ne_true, if_neg Bool.false_ne_true]
        exact (sequenceLocksLoop_filter _ _ _).symm

/-- A transaction with an input that must wait two blocks, and one that has no lock. -/
def waitingTx : CTransaction where
  vin := [⟨⟨nullUint256, 0#32⟩, [], 2#32, []⟩, ⟨⟨nullUint256, 1#32⟩, [], 0x80000005#32, []⟩]
  vout := []
  nVersion := 2#32
  nLockTime := 0#32

theorem waitingTx_locks : sequenceLocks waitingTx true [1, 2] unevenTimes = some true := by
  obtain ⟨⟨ok, hok, hiff⟩, _⟩ :=
    sequenceLocks_iff waitingTx true [1, 2] unevenTimes _ rfl rfl (by decide)
  rw [hok, hiff.mpr (.inr (.inr fun p hp hlock => ?_))]
  rcases List.mem_cons.mp hp with rfl | hp
  · exact (lockMet_height (by decide)).mpr (by decide)
  · rw [List.mem_singleton.mp hp] at hlock
    cases hlock

end Bitcoboost
