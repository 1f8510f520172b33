import Bitcoboost.Validation.BlockIndex

/-!
# Activating the best chain

`ActivateBestChain` of `validation.cpp` with what it calls, for a chain that has its genesis
block and without interruptions or system errors. `ConnectBlock` either connects a block or
finds it invalid, and not mutated. An assertion that fails has no result. That the fuel of the
loops suffices is part of what is proved about them.
-/

namespace Bitcoboost

/-- The entry of a block that `ConnectBlock` has connected, with its undo data written. -/
def IndexEntry.connected (e : IndexEntry) : IndexEntry :=
  { e with haveUndo := true }.raiseValidity .scripts

namespace Chainstate

variable (env : ChainEnv)

/-! ## Selecting a candidate -/

/-- The walk of `FindMostWorkChain` from a candidate down to the active chain, to an entry
that is not usable. The result says which of the two reasons it is. -/
def findUnusable (s : Chainstate) : CBlockIndex → Option (Option (CBlockIndex × Bool))
  | .genesis header =>
    if s.tip.contains (.genesis header) then some none
    else
      let e := s.entry (.genesis header)
      if e.failed || !e.haveData then some (some (.genesis header, e.failed)) else some none
  | .next pprev header =>
    if s.tip.contains (.next pprev header) then some none
    else
      let e := s.entry (.next pprev header)
      if e.haveNumChainTxs then
        if e.failed || !e.haveData then some (some (.next pprev header, e.failed))
        else findUnusable s pprev
      else none

variable (s : Chainstate)

/-- An entry above one that is not usable: it fails with it, or waits for its data. -/
def setAside (fFailedChain : Bool) (pindexFailed pprev : CBlockIndex) : Chainstate :=
  let s :=
    if fFailedChain then s.setEntry pindexFailed { s.entry pindexFailed with failedChild := true }
    else { s with blocksUnlinked := s.blocksUnlinked ++ [(pprev, pindexFailed)] }
  s.eraseCandidate pindexFailed

/-- Remove a chain from the set, down to the entry that is not usable. -/
def removeChain (pindexTest : CBlockIndex) (fFailedChain : Bool) :
    CBlockIndex → Chainstate → Option Chainstate
  | .genesis header, s => if pindexTest = .genesis header then some (s.eraseCandidate pindexTest)
      else none
  | .next pprev header, s =>
    if pindexTest = .next pprev header then some (s.eraseCandidate pindexTest)
    else removeChain pindexTest fFailedChain pprev
      (s.setAside fFailedChain (.next pprev header) pprev)

def findMostWorkLoop : Nat → Chainstate → Option (Chainstate × Option CBlockIndex)
  | 0, _ => none
  | fuel + 1, s =>
    match Greatest.greatest (workComparator env s.entry) s.setBlockIndexCandidates with
    | none => some (s, none)
    | some pindexNew => do
      match ← s.findUnusable pindexNew with
      | none => some (s, some pindexNew)
      | some (pindexTest, fFailedChain) => do
        let s ← removeChain pindexTest fFailedChain pindexNew s
        findMostWorkLoop fuel s

/-- `FindMostWorkChain`. Every turn removes a candidate. -/
def findMostWorkChain : Option (Chainstate × Option CBlockIndex) :=
  findMostWorkLoop env (s.setBlockIndexCandidates.length + 1) s

def pruneBlockIndexCandidates : Option Chainstate :=
  let candidates := s.setBlockIndexCandidates.filter fun c => !workComparator env s.entry c s.tip
  if candidates = [] then none else some { s with setBlockIndexCandidates := candidates }

/-! ## Connecting -/

/-- `InvalidBlockFound`, for a block that is not mutated. -/
def invalidBlockFound (pindex : CBlockIndex) : Chainstate :=
  ({ s.setEntry pindex { s.entry pindex with failedValid := true } with
    failedBlocks := if pindex ∈ s.failedBlocks then s.failedBlocks
      else pindex :: s.failedBlocks }).eraseCandidate pindex

/-- `ConnectTip`, with whether the block was connected. -/
def connectTip (pindexNew : CBlockIndex) : Option (Chainstate × Bool) :=
  if pindexNew.pprev ≠ some s.tip then none
  else
    let ok := env.connectBlock pindexNew
    let s := { s with blockChecked := s.blockChecked ++ [(pindexNew, ok)] }
    if ok then
      some ({ s.setEntry pindexNew (s.entry pindexNew).connected with tip := pindexNew }, true)
    else some (s.invalidBlockFound pindexNew, false)

/-- The loop of `ActivateBestChainStep` over blocks to connect, the lowest one first. It ends
with a block that is found invalid, or (as the second result says) when it need not go on. -/
def connectBlocks (pindexOldTip : CBlockIndex) :
    List CBlockIndex → Chainstate → Option (Chainstate × Bool × Bool)
  | [], s => some (s, false, true)
  | pindexConnect :: rest, s => do
    let (s, ok) ← s.connectTip env pindexConnect
    if ok then do
      let s ← s.pruneBlockIndexCandidates env
      if s.tip.nChainWork > pindexOldTip.nChainWork then some (s, false, false)
      else connectBlocks pindexOldTip rest s
    else some (s, true, false)

/-- The loop of `ActivateBestChainStep` over 32 blocks at a time. -/
def connectWindows (pindexOldTip pindexMostWork : CBlockIndex) :
    Nat → Nat → Chainstate → Option (Chainstate × Bool)
  | 0, _, _ => none
  | fuel + 1, nHeight, s =>
    if nHeight = pindexMostWork.nHeight then some (s, false)
    else do
      let nTargetHeight := min (nHeight + 32) pindexMostWork.nHeight
      let pindexIter ← pindexMostWork.getAncestor nTargetHeight
      let (s, fInvalidFound, fContinue) ← connectBlocks env pindexOldTip
        (pindexIter.above nHeight) s
      if fContinue then connectWindows pindexOldTip pindexMostWork fuel nTargetHeight s
      else some (s, fInvalidFound)

end Chainstate

/-- `DisconnectTip` until the tip is the fork. The genesis block is not disconnected. -/
def CBlockIndex.disconnectTo (pindexFork : CBlockIndex) : CBlockIndex → Option CBlockIndex
  | .genesis header => if .genesis header = pindexFork then some pindexFork else none
  | .next pprev header => if .next pprev header = pindexFork then some pindexFork
      else disconnectTo pindexFork pprev

namespace Chainstate

variable (env : ChainEnv)

/-- `ActivateBestChainStep`, with whether it found an invalid block. Without a fork the genesis
block would be disconnected. -/
def activateBestChainStep (s : Chainstate) (pindexMostWork : CBlockIndex) :
    Option (Chainstate × Bool) := do
  let pindexFork ← s.tip.findFork pindexMostWork
  let tip ← pindexFork.disconnectTo s.tip
  connectWindows env s.tip pindexMostWork (pindexMostWork.nHeight + 1) pindexFork.nHeight
    { s with tip }

/-- What the loops of `ActivateBestChain` keep: the tip at the start of the inner loop, the
candidate and the last tip, and whether the inner loop has made a step. -/
structure Progress where
  startingTip : CBlockIndex
  pindexMostWork : Option CBlockIndex
  pindexNewTip : Option CBlockIndex
  blocksConnected : Bool

/-- The candidate of a turn: the one it has, or else a new one. -/
def mostWorkOf (s : Chainstate) : Option CBlockIndex → Option (Chainstate × Option CBlockIndex)
  | none => s.findMostWorkChain env
  | some pindexMostWork => some (s, some pindexMostWork)

/-- `ActivateBestChain`, from a turn of its inner loop on. -/
def activateLoop : Nat → Chainstate → Progress → Option Chainstate
  | 0, _, _ => none
  | fuel + 1, s, p => do
    let (s, pindexMostWork) ← s.mostWorkOf env p.pindexMostWork
    match pindexMostWork with
    | none =>
      if p.blocksConnected && p.pindexNewTip ≠ none then
        activateLoop fuel s ⟨s.tip, none, p.pindexNewTip, false⟩
      else some s
    | some pindexMostWork =>
      if pindexMostWork = s.tip then
        if p.blocksConnected && p.pindexNewTip ≠ some pindexMostWork then
          activateLoop fuel s ⟨s.tip, some pindexMostWork, p.pindexNewTip, false⟩
        else some s
      else do
        let (s, fInvalidFound) ← s.activateBestChainStep env pindexMostWork
        let next := if fInvalidFound then none else some pindexMostWork
        if workComparator env s.entry s.tip p.startingTip then
          activateLoop fuel s ⟨p.startingTip, next, some s.tip, true⟩
        else if some s.tip ≠ next then activateLoop fuel s ⟨s.tip, next, some s.tip, false⟩
        else some s

def activateBestChain (s : Chainstate) : Option Chainstate :=
  activateLoop env ((s.blockIndex.length + 1) * (s.blockIndex.length + 2)) s
    ⟨s.tip, none, none, false⟩

end Chainstate

end Bitcoboost
