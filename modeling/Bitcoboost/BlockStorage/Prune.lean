import Bitcoboost.Lib.Reachable
import Mathlib.Algebra.Ring.Nat
import Mathlib.Data.List.Nodup
import Mathlib.Data.List.Range

/-!
# Pruning block files

The block files of `node/blockstorage.cpp`: `FindBlockPos` chooses the file of a block and
updates the heights of the file, `FindFilesToPrune` and `FindFilesToPruneManual` remove whole
files by these heights. Blocks come in any order, so one file mixes heights.

A block is a value of any type. The disk, with `undo_height` that says what to flush, the sets of
dirty entries and `m_blocks_unlinked` are left out. A failed assertion, an access outside a vector
and a null pointer that is followed are `none`.
Positions have 32 bits and a block takes more than 80 bytes, so `nBlocks` does not wrap.
-/

namespace Bitcoboost.BlockStorage

open List Function Option Bool

/-! ## The code -/

structure CBlockFileInfo where
  nBlocks : Nat := 0
  nSize : Nat := 0
  nUndoSize : Nat := 0
  nHeightFirst : Nat := 0
  nHeightLast : Nat := 0
  nTimeFirst : Nat := 0
  nTimeLast : Nat := 0
deriving DecidableEq, Repr

namespace CBlockFileInfo

def addBlock (info : CBlockFileInfo) (nHeightIn nTimeIn : Nat) : CBlockFileInfo :=
  { info with
    nHeightFirst := if info.nBlocks = 0 ∨ info.nHeightFirst > nHeightIn then nHeightIn
      else info.nHeightFirst
    nTimeFirst := if info.nBlocks = 0 ∨ info.nTimeFirst > nTimeIn then nTimeIn else info.nTimeFirst
    nBlocks := info.nBlocks + 1
    nHeightLast := if nHeightIn > info.nHeightLast then nHeightIn else info.nHeightLast
    nTimeLast := if nTimeIn > info.nTimeLast then nTimeIn else info.nTimeLast }

/-- `nSize + nUndoSize`, two values of type `unsigned int`. -/
def bytes (info : CBlockFileInfo) : Nat := (info.nSize + info.nUndoSize) % 0x100000000

end CBlockFileInfo

/-- `CBlockIndex`, with the two flags of `nStatus`. -/
structure CBlockIndex where
  nHeight : Nat
  nFile : Nat := 0
  nDataPos : Nat := 0
  nUndoPos : Nat := 0
  haveData : Bool := false
  haveUndo : Bool := false
deriving DecidableEq, Repr

structure FlatFilePos where
  nFile : Nat
  nPos : Nat
deriving DecidableEq, Repr

inductive BlockfileType where
  | normal
  | assumed
deriving DecidableEq, Repr

/-- `BlockManager`: the block index, the files, `file_num` of the two cursors, the height of
a snapshot and the option `fast_prune`. -/
structure BlockManager (β : Type) where
  index : β → Option CBlockIndex
  blockfileInfo : List CBlockFileInfo
  cursors : BlockfileType → Option Nat
  snapshotHeight : Option Nat
  fastPrune : Bool

def maxBlockfileSize : Nat := 0x8000000

def minBlocksToKeep : Int := 288

namespace BlockManager

variable {β : Type}

def empty (β : Type) (fastPrune : Bool) : BlockManager β :=
  ⟨fun _ => none, [], fun type => if type = .normal then some 0 else none, none, fastPrune⟩

variable (s : BlockManager β)

def maxBlockfileNum : Nat := max ((s.cursors .normal).getD 0) ((s.cursors .assumed).getD 0)

def blockfileTypeForHeight (height : Nat) : BlockfileType :=
  match s.snapshotHeight with
  | none => .normal
  | some snapshotHeight => if height ≥ snapshotHeight then .assumed else .normal

def setCursor (chainType : BlockfileType) (nFile : Nat) : BlockManager β :=
  { s with cursors := update s.cursors chainType (some nFile) }

/-- `if (m_blockfile_info.size() <= nFile) m_blockfile_info.resize(nFile + 1)`. -/
def resize (nFile : Nat) : BlockManager β :=
  { s with blockfileInfo := s.blockfileInfo ++
    List.replicate (nFile + 1 - s.blockfileInfo.length) {} }

/-- The start of `FindBlockPos`: the cursor, which may not be there yet. -/
def initCursor (chainType : BlockfileType) : Option (BlockManager β × Nat) :=
  match s.cursors chainType with
  | some nFile => some (s, nFile)
  | none =>
    if chainType = .assumed then
      some (s.setCursor chainType (s.maxBlockfileNum + 1), s.maxBlockfileNum + 1)
    else none

/-- The largest file that `FindBlockPos` makes. -/
def maxFileSize (nAddSize : Nat) : Nat :=
  if s.fastPrune then if nAddSize ≥ 0x10000 then nAddSize + 1 else 0x10000 else maxBlockfileSize

/-- The loop of `FindBlockPos` for the first file with room, with a bound on its rounds. -/
def findFile (chainType : BlockfileType) (nAddSize maxSize : Nat) :
    Nat → BlockManager β → Nat → Option (BlockManager β × FlatFilePos)
  | 0, _, _ => none
  | rounds + 1, s, nFile =>
    match s.blockfileInfo[nFile]? with
    | none => none
    | some info =>
      if (info.nSize + nAddSize) % 0x100000000 ≥ maxSize then
        let next := s.maxBlockfileNum + 1
        findFile chainType nAddSize maxSize rounds ((s.setCursor chainType next).resize next) next
      else some (s, ⟨nFile, info.nSize⟩)

/-- The call of `FlushBlockFile` in `FindBlockPos` for a file that is left: its assertion. -/
def leaveFile (lastBlockfile nFile : Nat) : Option Unit :=
  if nFile = lastBlockfile ∨ s.blockfileInfo.length < 1 ∨
      lastBlockfile < s.blockfileInfo.length then
    some ()
  else none

/-- The end of `FindBlockPos`: the cursor moves to the file, and the block counts there. -/
def enterFile (chainType : BlockfileType) (lastBlockfile nFile nHeight nTime : Nat)
    (size : Nat → Nat) : BlockManager β :=
  let moved := if nFile ≠ lastBlockfile then s.setCursor chainType nFile else s
  { moved with
    blockfileInfo := moved.blockfileInfo.modify nFile fun info =>
      { info.addBlock nHeight nTime with nSize := size info.nSize } }

/-- `FindBlockPos`, with the position if it is known. -/
def findBlockPos (known : Option FlatFilePos) (nAddSize nHeight nTime : Nat) :
    Option (BlockManager β × FlatFilePos) := do
  let chainType := s.blockfileTypeForHeight nHeight
  let (s, lastBlockfile) ← s.initCursor chainType
  match known with
  | some pos => do
    let s := s.resize pos.nFile
    s.leaveFile lastBlockfile pos.nFile
    some (s.enterFile chainType lastBlockfile pos.nFile nHeight nTime fun nSize =>
      max ((pos.nPos + nAddSize) % 0x100000000) nSize, pos)
  | none =>
    let s := s.resize lastBlockfile
    if nAddSize < s.maxFileSize nAddSize then do
      let (s, pos) ← findFile chainType nAddSize (s.maxFileSize nAddSize)
        (s.blockfileInfo.length + 1) s lastBlockfile
      s.leaveFile lastBlockfile pos.nFile
      some (s.enterFile chainType lastBlockfile pos.nFile nHeight nTime fun nSize =>
        (nSize + nAddSize) % 0x100000000, pos)
    else none

def calculateCurrentUsage : Nat := (s.blockfileInfo.map CBlockFileInfo.bytes).sum

end BlockManager

/-- The part of `PruneOneBlockFile` for one entry of the index. -/
def CBlockIndex.clear (pindex : CBlockIndex) : CBlockIndex :=
  { pindex with haveData := false, haveUndo := false, nFile := 0, nDataPos := 0, nUndoPos := 0 }

/-- The chainstate that is pruned: the height of its chain and, if it is the one of a
snapshot, the height of the base block. -/
structure Chainstate where
  height : Int
  snapshotBaseHeight : Option Nat
  snapshotBaseHeight_lt : ∀ base ∈ snapshotBaseHeight, base < 0x7fffffff

/-- What is read of `ChainstateManager` and the options: the number of chainstates, the
height of the best header, `IsInitialBlockDownload`, `PruneAfterHeight` and
`GetPruneTarget`. -/
structure ChainstateManager where
  chainstates : Nat
  bestHeaderHeight : Nat
  isInitialBlockDownload : Bool
  pruneAfterHeight : Nat
  pruneTarget : Nat

def getPruneRange (chainman : ChainstateManager) (chain : Chainstate) (lastHeightCanPrune : Int) :
    Int × Int :=
  if chain.height ≤ 0 then (0, 0)
  else
    let pruneStart :=
      if chainman.chainstates > 1 then (chain.snapshotBaseHeight.map fun base =>
        (base + 1 : Int)).getD 0 else 0
    (pruneStart, min lastHeightCanPrune (max 0 (chain.height - minBlocksToKeep)))

/-- `(unsigned)x` of an `int`. -/
def toUnsigned (x : Int) : Nat := (x % 0x100000000).toNat

def CBlockFileInfo.inRange (info : CBlockFileInfo) (range : Int × Int) : Bool :=
  !(info.nHeightLast > toUnsigned range.2 || info.nHeightFirst < toUnsigned range.1)

/-- `target` of `FindFilesToPrune`. -/
def ChainstateManager.target (chainman : ChainstateManager) : Nat :=
  max (550 * 1024 * 1024) (chainman.pruneTarget / chainman.chainstates)

def chunkSizes : Nat := 0x1000000 + 0x100000

/-- `nBuffer` in the loop of `FindFilesToPrune`. -/
def ChainstateManager.buffer (chainman : ChainstateManager) (chain : Chainstate) : Nat :=
  if chainman.isInitialBlockDownload ∧ (chainman.bestHeaderHeight : Int) > chain.height then
    chunkSizes + 1000000 * (chainman.bestHeaderHeight - chain.height).toNat
  else chunkSizes

/-- `nCurrentUsage + nBuffer < target`. -/
def ChainstateManager.enough (chainman : ChainstateManager) (chain : Chainstate)
    (nCurrentUsage : Nat) : Bool :=
  nCurrentUsage + chainman.buffer chain < chainman.target

namespace BlockManager

variable {β : Type} (s : BlockManager β)

def pruneOneBlockFile (fileNumber : Nat) : BlockManager β :=
  { s with
    index := fun block => (s.index block).map fun pindex =>
      if pindex.nFile = fileNumber then pindex.clear else pindex
    blockfileInfo := s.blockfileInfo.set fileNumber {} }

/-- The loop of the two functions over the file numbers: the manager after it and the
files that are removed. `enough` is the test of the usage that ends the loop. -/
def pruneLoop (range : Int × Int) (enough : Nat → Bool) :
    List Nat → Nat → BlockManager β → Option (BlockManager β × List Nat)
  | [], _, s => some (s, [])
  | fileNumber :: fileNumbers, nCurrentUsage, s =>
    match s.blockfileInfo[fileNumber]? with
    | none => none
    | some fileinfo =>
      if fileinfo.nSize = 0 then pruneLoop range enough fileNumbers nCurrentUsage s
      else if enough nCurrentUsage then some (s, [])
      else if !fileinfo.inRange range then pruneLoop range enough fileNumbers nCurrentUsage s
      else
        (pruneLoop range enough fileNumbers (nCurrentUsage - fileinfo.bytes)
            (s.pruneOneBlockFile fileNumber)).map
          fun result => (result.1, fileNumber :: result.2)

/-- `FindFilesToPruneManual`, in prune mode. The usage is not looked at. -/
def findFilesToPruneManual (chainman : ChainstateManager) (chain : Chainstate)
    (nManualPruneHeight : Int) : Option (BlockManager β × List Nat) :=
  if nManualPruneHeight ≤ 0 then none
  else if chain.height < 0 then some (s, [])
  else
    pruneLoop (getPruneRange chainman chain nManualPruneHeight) (fun _ => false)
        (List.range s.maxBlockfileNum)
      s.calculateCurrentUsage s

def findFilesToPrune (chainman : ChainstateManager) (chain : Chainstate) (lastPrune : Int) :
    Option (BlockManager β × List Nat) :=
  if chain.height < 0 ∨ chainman.target = 0 then some (s, [])
  else if chain.height ≤ chainman.pruneAfterHeight then some (s, [])
  else if s.calculateCurrentUsage + chunkSizes ≥ chainman.target then
    pruneLoop (getPruneRange chainman chain lastPrune) (chainman.enough chain)
        (List.range s.maxBlockfileNum)
      s.calculateCurrentUsage s
  else some (s, [])

end BlockManager

/-- A call of one of the two functions, with the caller's limit. -/
inductive PruneCall where
  | manual (nManualPruneHeight : Int)
  | automatic (lastPrune : Int)
deriving DecidableEq, Repr

def PruneCall.limit : PruneCall → Int
  | .manual limit => limit
  | .automatic limit => limit

inductive Action (β : Type) where
  /-- `AddToBlockIndex` -/
  | addHeader (block : β) (nHeight : Nat)
  /-- `SaveBlockToDisk`, which may fail to write, and `ReceivedBlockTransactions` -/
  | saveBlock (block : β) (known : Option FlatFilePos) (nBlockSize nTime : Nat) (saved : Bool)
  /-- `WriteUndoDataForBlock`, which may fail to write -/
  | writeUndo (block : β) (nAddSize : Nat) (written : Bool)
  /-- a snapshot is loaded or done with -/
  | setSnapshotHeight (height : Option Nat)
  | prune (chainman : ChainstateManager) (chain : Chainstate) (call : PruneCall)

namespace BlockManager

variable {β : Type} [DecidableEq β] (s : BlockManager β)

def saveBlock (block : β) (known : Option FlatFilePos) (nBlockSize nTime : Nat) (saved : Bool) :
    Option (BlockManager β) := do
  let pindex ← s.index block
  let (s, pos) ← s.findBlockPos known nBlockSize pindex.nHeight nTime
  if saved then
    let received :=
      { pindex with nFile := pos.nFile, nDataPos := pos.nPos, nUndoPos := 0, haveData := true }
    some { s with index := update s.index block (some received) }
  else some s

def writeUndo (block : β) (nAddSize : Nat) (written : Bool) : Option (BlockManager β) := do
  let pindex ← s.index block
  let _ ← s.cursors (s.blockfileTypeForHeight pindex.nHeight)
  if pindex.haveUndo then some s
  -- the genesis block has no `pprev`
  else if pindex.nHeight = 0 then none
  else do
    let info ← s.blockfileInfo[pindex.nFile]?
    let undone :=
      if written then { pindex with nUndoPos := info.nUndoSize, haveUndo := true } else pindex
    some { s with
      index := update s.index block (some undone)
      blockfileInfo := s.blockfileInfo.set pindex.nFile
        { info with nUndoSize := (info.nUndoSize + nAddSize) % 0x100000000 } }

def prune (chainman : ChainstateManager) (chain : Chainstate) :
    PruneCall → Option (BlockManager β × List Nat)
  | .manual limit => s.findFilesToPruneManual chainman chain limit
  | .automatic limit => s.findFilesToPrune chainman chain limit

def next : Action β → Option (BlockManager β)
  | .addHeader block nHeight =>
    match s.index block with
    | some _ => some s
    | none => some { s with index := update s.index block (some { nHeight }) }
  | .saveBlock block known nBlockSize nTime saved => s.saveBlock block known nBlockSize nTime saved
  | .writeUndo block nAddSize written => s.writeUndo block nAddSize written
  | .setSnapshotHeight height => some { s with snapshotHeight := height }
  | .prune chainman chain call => (s.prune chainman chain call).map Prod.fst

end BlockManager

/-! ## The summaries -/

/-- The summary of a file takes a block of height `h` into account. -/
structure CBlockFileInfo.Covers (info : CBlockFileInfo) (h : Nat) : Prop where
  count : info.nBlocks ≠ 0
  first : info.nHeightFirst ≤ h
  last : h ≤ info.nHeightLast

namespace CBlockFileInfo

variable {info : CBlockFileInfo} {h : Nat}

theorem covers_addBlock (info : CBlockFileInfo) (h nTime : Nat) :
    (info.addBlock h nTime).Covers h := by
  refine ⟨Nat.succ_ne_zero _, ?_, ?_⟩ <;> simp only [addBlock] <;> split <;> omega

theorem Covers.addBlock (hcovers : info.Covers h) (nHeight nTime : Nat) :
    (info.addBlock nHeight nTime).Covers h := by
  obtain ⟨hcount, hfirst, hlast⟩ := hcovers
  refine ⟨Nat.succ_ne_zero _, ?_, ?_⟩ <;> simp only [CBlockFileInfo.addBlock] <;> split <;> omega

theorem Covers.setSize (hcovers : info.Covers h) (nSize : Nat) : { info with nSize }.Covers h :=
  ⟨hcovers.count, hcovers.first, hcovers.last⟩

end CBlockFileInfo

namespace BlockManager

section Files

variable {β : Type} {s s' s : BlockManager β} {chainType chainType : BlockfileType}
  {nFile nFile : Nat}

/-- The file `f` takes a block of height `h` into account. -/
def FileCovers (s : BlockManager β) (f h : Nat) : Prop :=
  ∃ info, s.blockfileInfo[f]? = some info ∧ info.Covers h

/-- What every part of `FindBlockPos` does: files are added and their summaries grow, and at
most the cursor of one type moves. -/
structure Grows (chainType : BlockfileType) (s s' : BlockManager β) : Prop where
  index_eq : s'.index = s.index
  length_le : s.blockfileInfo.length ≤ s'.blockfileInfo.length
  covers : ∀ f h, s.FileCovers f h → s'.FileCovers f h
  cursors_eq : ∀ type, type ≠ chainType → s'.cursors type = s.cursors type

theorem Grows.trans {s'' : BlockManager β} (h : Grows chainType s s')
    (h' : Grows chainType s' s'') : Grows chainType s s'' where
  index_eq := h'.index_eq.trans h.index_eq
  length_le := Nat.le_trans h.length_le h'.length_le
  covers f height hcovers := h'.covers f height (h.covers f height hcovers)
  cursors_eq type hne := (h'.cursors_eq type hne).trans (h.cursors_eq type hne)

theorem grows_setCursor :
    Grows chainType s (s.setCursor chainType nFile) where
  index_eq := rfl
  length_le := Nat.le_refl _
  covers _ _ hcovers := hcovers
  cursors_eq _ hne := update_of_ne hne _ _

theorem grows_resize :
    Grows chainType s (s.resize nFile) where
  index_eq := rfl
  length_le := by simp [resize]
  covers f h hcovers := by
    obtain ⟨info, hinfo, hheight⟩ := hcovers
    obtain ⟨hlt, _⟩ := List.getElem?_eq_some_iff.mp hinfo
    exact ⟨info, (List.getElem?_append_left hlt).trans hinfo, hheight⟩
  cursors_eq _ _ := rfl

theorem lt_length_resize : nFile < (s.resize nFile).blockfileInfo.length := by
  simp only [resize, length_append, length_replicate]
  omega

theorem getElem?_resize (hnew : s.blockfileInfo.length ≤ nFile) :
    (s.resize nFile).blockfileInfo[nFile]? = some {} := by
  rw [resize, List.getElem?_append_right hnew, List.getElem?_replicate, if_pos (by omega)]

theorem grows_enterFile (chainType : BlockfileType) (s : BlockManager β)
    (lastBlockfile nFile nHeight nTime : Nat) (size : Nat → Nat) :
    Grows chainType s (s.enterFile chainType lastBlockfile nFile nHeight nTime size) := by
  have hmoved :
      Grows chainType s (if nFile ≠ lastBlockfile then s.setCursor chainType nFile else s) := by
    split
    · exact grows_setCursor
    · exact ⟨rfl, Nat.le_refl _, fun _ _ hcovers => hcovers, fun _ _ => rfl⟩
  refine hmoved.trans ⟨rfl, by simp [enterFile], fun f h hcovers => ?_, fun _ _ => rfl⟩
  obtain ⟨info, hinfo, hheight⟩ := hcovers
  refine ⟨_, by rw [enterFile, List.getElem?_modify, hinfo]; rfl, ?_⟩
  split
  · exact (hheight.addBlock nHeight nTime).setSize _
  · exact hheight

theorem enterFile_covers (hlt : nFile < s.blockfileInfo.length) (lastBlockfile nHeight nTime : Nat)
    (size : Nat → Nat) :
    (s.enterFile chainType lastBlockfile nFile nHeight nTime size).FileCovers nFile nHeight := by
  have hinfo :
      (if nFile ≠ lastBlockfile then s.setCursor chainType nFile else s).blockfileInfo[nFile]?
      = some s.blockfileInfo[nFile] := by
    split <;> exact List.getElem?_eq_getElem hlt
  refine ⟨_, by rw [enterFile, List.getElem?_modify, hinfo]; rfl, ?_⟩
  simp only [if_true]
  exact (CBlockFileInfo.covers_addBlock _ _ _).setSize _

theorem enterFile_cursors {lastBlockfile : Nat}
    (hcursor : nFile = lastBlockfile → s.cursors chainType = some nFile)
    (nHeight nTime : Nat) (size : Nat → Nat) :
    (s.enterFile chainType lastBlockfile nFile nHeight nTime size).cursors chainType =
      some nFile := by
  rcases eq_or_ne nFile lastBlockfile with heq | hne
  · simpa [enterFile, heq] using heq ▸ hcursor heq
  · simp [enterFile, hne, setCursor]

section

variable (hcursor : s.cursors chainType = some nFile) {nAddSize maxSize rounds : Nat}
include hcursor

theorem findFile_spec {pos : FlatFilePos}
    (h : findFile chainType nAddSize maxSize rounds s nFile = some (s', pos)) :
    Grows chainType s s' ∧ s'.cursors chainType = some pos.nFile ∧
    pos.nFile < s'.blockfileInfo.length := by
  induction rounds generalizing s nFile with
  | zero => cases h
  | succ rounds ih =>
    rw [findFile] at h
    cases hinfo : s.blockfileInfo[nFile]? with
    | none => simp [hinfo] at h
    | some info =>
      simp only [hinfo] at h
      split at h
      · obtain ⟨hgrows, hrest⟩ := ih (update_self ..) h
        exact ⟨(grows_setCursor.trans grows_resize).trans hgrows, hrest⟩
      · cases h
        exact ⟨⟨rfl, Nat.le_refl _, fun _ _ hcovers => hcovers, fun _ _ => rfl⟩, hcursor,
          (List.getElem?_eq_some_iff.mp hinfo).1⟩

theorem le_maxBlockfileNum : nFile ≤ s.maxBlockfileNum := by
  cases chainType with
  | normal => exact (by rw [hcursor]; rfl : nFile = (s.cursors .normal).getD 0) ▸
      Nat.le_max_left _ _
  | assumed => exact (by rw [hcursor]; rfl : nFile = (s.cursors .assumed).getD 0) ▸
      Nat.le_max_right _ _

/-- A round of the loop goes to a higher file number, and a new file has room. -/
theorem findFile_isSome (hlt : nFile < s.blockfileInfo.length) (hsize : nAddSize < maxSize)
    (hrounds : s.blockfileInfo[nFile]? = some {} ∧ 0 < rounds ∨ s.blockfileInfo.length <
    nFile + rounds) : (findFile chainType nAddSize maxSize rounds s nFile).isSome := by
  induction rounds generalizing s nFile with
  | zero => omega
  | succ rounds ih =>
    have hinfo : s.blockfileInfo[nFile]? = some s.blockfileInfo[nFile] :=
      List.getElem?_eq_getElem hlt
    rw [findFile, hinfo]
    dsimp only
    split
    · next hfull =>
      have hroom : s.blockfileInfo.length < nFile + (rounds + 1) := by
        refine hrounds.resolve_left fun hempty => ?_
        rw [Option.some.inj (hinfo.symm.trans hempty.1), Nat.zero_add] at hfull
        exact Nat.not_lt.mpr hfull (Nat.lt_of_le_of_lt (Nat.mod_le _ _) hsize)
      have hmax := le_maxBlockfileNum hcursor
      refine ih (update_self ..) lt_length_resize ?_
      rcases Nat.lt_or_ge (s.maxBlockfileNum + 1) s.blockfileInfo.length with hold | hnew
      · refine .inr ?_
        simp only [resize, setCursor, length_append, length_replicate]
        omega
      · exact .inl ⟨getElem?_resize hnew, by omega⟩
    · rfl

end

end Files

/-! ## The invariant -/

section Invariant

variable {β : Type} {s s' : BlockManager β} {nAddSize : Nat}

/-- The cursors are at files that are there, and an entry with data is counted in its file. -/
structure Consistent (s : BlockManager β) : Prop where
  normal : (s.cursors .normal).isSome
  cursor : ∀ type n, s.cursors type = some n → n = 0 ∨ n < s.blockfileInfo.length
  stored : ∀ block pindex, s.index block = some pindex → pindex.haveData →
    s.FileCovers pindex.nFile pindex.nHeight

theorem initCursor_spec {chainType : BlockfileType} {s₁ : BlockManager β} {last : Nat}
    (h : s.initCursor chainType = some (s₁, last)) :
    Grows chainType s s₁ ∧ s₁.cursors chainType = some last := by
  unfold initCursor at h
  cases hcursor : s.cursors chainType with
  | some n =>
    simp only [hcursor, Option.some.injEq, Prod.mk.injEq] at h
    obtain ⟨rfl, rfl⟩ := h
    exact ⟨⟨rfl, Nat.le_refl _, fun _ _ hcovers => hcovers, fun _ _ => rfl⟩, hcursor⟩
  | none =>
    simp only [hcursor] at h
    split at h
    · cases h
      exact ⟨grows_setCursor, update_self ..⟩
    · cases h

theorem Consistent.initCursor_isSome (h : s.Consistent) (chainType : BlockfileType) :
    (s.initCursor chainType).isSome := by
  unfold initCursor
  cases hcursor : s.cursors chainType with
  | some n => rfl
  | none =>
    cases chainType with
    | assumed => rfl
    | normal => cases hcursor ▸ h.normal

theorem findBlockPos_spec {known : Option FlatFilePos} {nHeight nTime : Nat} {pos : FlatFilePos}
    (h : s.findBlockPos known nAddSize nHeight nTime = some (s', pos)) :
    ∃ chainType, Grows chainType s s' ∧ s'.FileCovers pos.nFile nHeight ∧
    s'.cursors chainType = some pos.nFile := by
  obtain ⟨⟨s₁, last⟩, hinit, h⟩ := Option.bind_eq_some_iff.mp h
  obtain ⟨hgrows, hcursor⟩ := initCursor_spec hinit
  refine ⟨s.blockfileTypeForHeight nHeight, ?_⟩
  cases known with
  | some pos' =>
    obtain ⟨_, -, h⟩ := Option.bind_eq_some_iff.mp h
    cases h
    refine ⟨(hgrows.trans grows_resize).trans (grows_enterFile ..),
      enterFile_covers lt_length_resize .., enterFile_cursors (fun heq => ?_) ..⟩
    exact heq ▸ hcursor
  | none =>
    dsimp only at h
    split at h
    · obtain ⟨⟨s₂, pos₂⟩, hfind, h⟩ := Option.bind_eq_some_iff.mp h
      obtain ⟨_, -, h⟩ := Option.bind_eq_some_iff.mp h
      cases h
      have hcursor₁ : (s₁.resize last).cursors (s.blockfileTypeForHeight nHeight) = some last :=
        hcursor
      obtain ⟨hgrows₂, hcursor₂, hlt⟩ := findFile_spec hcursor₁ hfind
      exact ⟨((hgrows.trans grows_resize).trans hgrows₂).trans (grows_enterFile ..),
        enterFile_covers hlt .., enterFile_cursors (fun _ => hcursor₂) ..⟩
    · cases h

theorem leaveFile_eq {lastBlockfile : Nat} (h : lastBlockfile < s.blockfileInfo.length)
    (nFile : Nat) : s.leaveFile lastBlockfile nFile = some () := if_pos (.inr (.inr h))

/-- A block for which there is room in an empty file finds its place. The cursor has to be there
if the position is known: a new cursor may be at a file that is not. -/
theorem findBlockPos_isSome (h : s.Consistent) (known : Option FlatFilePos)
    (hsize : nAddSize < s.maxFileSize nAddSize) (nHeight nTime : Nat)
    (hknown : known.isSome → (s.cursors (s.blockfileTypeForHeight nHeight)).isSome) :
    (s.findBlockPos known nAddSize nHeight nTime).isSome := by
  obtain ⟨⟨s₁, last⟩, hinit⟩ :=
    Option.isSome_iff_exists.mp (h.initCursor_isSome (s.blockfileTypeForHeight nHeight))
  have hprune : s₁.fastPrune = s.fastPrune := by
    unfold initCursor at hinit
    split at hinit
    · cases hinit
      rfl
    · split at hinit
      · cases hinit
        rfl
      · cases hinit
  simp only [findBlockPos, hinit, bind_eq_bind, bind_some]
  cases known with
  | some pos =>
    obtain ⟨n, hn⟩ := Option.isSome_iff_exists.mp (hknown rfl)
    rw [initCursor, hn] at hinit
    cases hinit
    have hlast : last < (s.resize pos.nFile).blockfileInfo.length := by
      have hresize : pos.nFile < (s.resize pos.nFile).blockfileInfo.length := lt_length_resize
      have hgrows : Grows .normal s (s.resize pos.nFile) := grows_resize
      rcases h.cursor _ last hn with rfl | hlt
      · omega
      · exact Nat.lt_of_lt_of_le hlt hgrows.length_le
    dsimp only
    rw [leaveFile_eq hlast]
    rfl
  | none =>
    have hsize₁ : nAddSize < (s₁.resize last).maxFileSize nAddSize := by
      rw [maxFileSize] at hsize ⊢
      exact hprune ▸ hsize
    have hcursor₁ : (s₁.resize last).cursors (s.blockfileTypeForHeight nHeight) = some last :=
      (initCursor_spec hinit).2
    simp only [if_pos hsize₁]
    obtain ⟨result, hresult⟩ :=
      Option.isSome_iff_exists.mp (findFile_isSome hcursor₁ lt_length_resize hsize₁
      (.inr (by omega : _ < last + ((s₁.resize last).blockfileInfo.length + 1))))
    have hlast : last < result.1.blockfileInfo.length :=
      Nat.lt_of_lt_of_le lt_length_resize (findFile_spec hcursor₁ hresult).1.length_le
    rw [hresult, bind_some, leaveFile_eq hlast]
    rfl

/-! ### Removing files -/

theorem sum_map_set {α : Type} {g : α → Nat} {l : List α} {i : Nat} {a b : α} (h : l[i]? = some a) :
    ((l.set i b).map g).sum + g a = (l.map g).sum + g b := by
  induction l generalizing i with
  | nil => cases h
  | cons c l ih =>
    cases i with
    | zero =>
      cases h
      simp only [set_cons_zero, map_cons, sum_cons]
      omega
    | succ i =>
      simp only [set_cons_succ, map_cons, sum_cons, Nat.add_assoc, ih h]

theorem calculateCurrentUsage_pruneOneBlockFile {f : Nat} {info : CBlockFileInfo}
    (h : s.blockfileInfo[f]? = some info) :
    (s.pruneOneBlockFile f).calculateCurrentUsage = s.calculateCurrentUsage - info.bytes :=
  Nat.eq_sub_of_add_eq (sum_map_set h)

theorem clear_clear (pindex : CBlockIndex) : pindex.clear.clear = pindex.clear := rfl

/-- Removing files clears the entries with data in them. -/
theorem index_foldl_prune (files : List Nat) (s : BlockManager β) (block : β) :
    (files.foldl pruneOneBlockFile s).index block
      = (s.index block).map fun pindex => if pindex.nFile ∈ files then pindex.clear
        else pindex := by
  induction files generalizing s with
  | nil => simp
  | cons f files ih =>
    rw [foldl_cons, ih]
    cases hindex : s.index block with
    | none => simp [pruneOneBlockFile, hindex]
    | some pindex =>
      rcases eq_or_ne pindex.nFile f with heq | hne
      · simp [pruneOneBlockFile, hindex, heq, clear_clear]
      · simp [pruneOneBlockFile, hindex, hne]

theorem Consistent.pruneOneBlockFile (h : s.Consistent) (f : Nat) :
    (s.pruneOneBlockFile f).Consistent where
  normal := h.normal
  cursor type n hcursor := by simpa [BlockManager.pruneOneBlockFile] using h.cursor type n hcursor
  stored block pindex' hindex hdata := by
    obtain ⟨pindex, hpindex, rfl⟩ := Option.map_eq_some_iff.mp hindex
    rcases eq_or_ne pindex.nFile f with heq | hne
    · simp [heq, CBlockIndex.clear] at hdata
    · rw [if_neg hne] at hdata ⊢
      obtain ⟨info, hinfo, hcovers⟩ := h.stored block pindex hpindex hdata
      exact ⟨info, (List.getElem?_set_ne (Ne.symm hne)).trans hinfo, hcovers⟩

theorem Consistent.foldl_prune (h : s.Consistent) (files : List Nat) :
    (files.foldl BlockManager.pruneOneBlockFile s).Consistent := by
  induction files generalizing s with
  | nil => exact h
  | cons f files ih => exact ih (h.pruneOneBlockFile f)

/-- What a call does: it removes files with heights in the range, and one only while
the usage is not low enough. -/
structure Prunes (range : Int × Int) (enough : Nat → Bool) (s : BlockManager β)
    (files : List Nat) : Prop where
  inRange : ∀ f ∈ files, ∃ info, s.blockfileInfo[f]? = some info ∧ info.inRange range
  usage : ∀ before f after, files = before ++ f :: after →
    enough (before.foldl BlockManager.pruneOneBlockFile s).calculateCurrentUsage = false

theorem prunes_nil {range : Int × Int} (enough : Nat → Bool) (s : BlockManager β) :
    s.Prunes range enough [] where
  inRange _ hmem := by cases hmem
  usage before f after heq := by simp at heq

theorem pruneLoop_spec (range : Int × Int) (enough : Nat → Bool) {fileNumbers : List Nat}
    (hlt : ∀ f ∈ fileNumbers, f < s.blockfileInfo.length) (hnodup : fileNumbers.Nodup) :
    ∃ files, pruneLoop range enough fileNumbers s.calculateCurrentUsage s
        = some (files.foldl BlockManager.pruneOneBlockFile s, files)
      ∧ files ⊆ fileNumbers ∧ s.Prunes range enough files := by
  induction fileNumbers generalizing s with
  | nil => exact ⟨[], rfl, nil_subset _, prunes_nil enough s⟩
  | cons f fileNumbers ih =>
    obtain ⟨hf, hrest⟩ := List.forall_mem_cons.mp hlt
    obtain ⟨hfresh, hnodup⟩ := List.nodup_cons.mp hnodup
    have hinfo : s.blockfileInfo[f]? = some s.blockfileInfo[f] := List.getElem?_eq_getElem hf
    have hskip : ∃ files, pruneLoop range enough fileNumbers s.calculateCurrentUsage s
        = some (files.foldl pruneOneBlockFile s, files)
        ∧ files ⊆ f :: fileNumbers ∧ s.Prunes range enough files := by
      obtain ⟨files, hloop, hsub, hprunes⟩ := ih hrest hnodup
      exact ⟨files, hloop, subset_cons_of_subset f hsub, hprunes⟩
    simp only [pruneLoop, hinfo]
    split
    · exact hskip
    · split
      · exact ⟨[], rfl, nil_subset _, prunes_nil enough s⟩
      · next henough =>
        split
        · exact hskip
        · next hrange =>
          obtain ⟨files, hloop, hsub, hprunes⟩ := ih (s := s.pruneOneBlockFile f)
            (by simpa [pruneOneBlockFile] using hrest) hnodup
          rw [calculateCurrentUsage_pruneOneBlockFile hinfo] at hloop
          refine ⟨f :: files, by rw [hloop]; rfl, cons_subset_cons f hsub, ?_, ?_⟩
          · refine List.forall_mem_cons.mpr ⟨⟨_, hinfo, by simpa using hrange⟩, fun g hg => ?_⟩
            obtain ⟨info, hginfo, hginRange⟩ := hprunes.inRange g hg
            have hne : f ≠ g := fun heq => hfresh (heq ▸ hsub hg)
            exact ⟨info, (List.getElem?_set_ne hne).symm.trans hginfo, hginRange⟩
          · intro before g after heq
            cases before with
            | nil => exact Bool.eq_false_iff.mpr henough
            | cons f' before =>
              cases heq
              exact hprunes.usage before g after rfl

theorem Consistent.lt_length_of_range (h : s.Consistent) :
    ∀ f ∈ List.range s.maxBlockfileNum, f < s.blockfileInfo.length := by
  intro f hf
  have hlt : f < s.maxBlockfileNum := List.mem_range.mp hf
  have hcursor : ∀ type, (s.cursors type).getD 0 = 0 ∨
      (s.cursors type).getD 0 < s.blockfileInfo.length := by
    intro type
    cases hsome : s.cursors type with
    | none => exact .inl rfl
    | some n => exact h.cursor type n hsome
  have hnormal := hcursor .normal
  have hassumed := hcursor .assumed
  rw [maxBlockfileNum] at hlt
  omega

/-- Both functions return, with the files that they remove. -/
theorem prune_spec (h : s.Consistent) {chainman : ChainstateManager} {chain : Chainstate}
    (call : PruneCall) (hmanual : ∀ limit, call = .manual limit → 0 < limit) :
    ∃ files enough, s.prune chainman chain call =
      some (files.foldl BlockManager.pruneOneBlockFile s, files)
      ∧ s.Prunes (getPruneRange chainman chain call.limit) enough files
      ∧ ∀ limit, call = .automatic limit → enough = chainman.enough chain := by
  have hloop := fun enough => pruneLoop_spec (getPruneRange chainman chain call.limit) enough
    h.lt_length_of_range nodup_range
  cases call with
  | manual limit =>
    rw [prune, findFilesToPruneManual, if_neg (Int.not_le.mpr (hmanual limit rfl))]
    split
    · exact ⟨[], _, rfl, prunes_nil (fun _ => false) s, fun _ heq => (by cases heq)⟩
    · obtain ⟨files, heq, _, hprunes⟩ := hloop fun _ => false
      exact ⟨files, _, heq, hprunes, fun _ heq => (by cases heq)⟩
  | automatic limit =>
    rw [prune, findFilesToPrune]
    have hnone :
        ∃ files enough, some (s, ([] : List Nat)) = some (files.foldl pruneOneBlockFile s, files)
        ∧ s.Prunes (getPruneRange chainman chain limit) enough files
        ∧ ∀ limit', PruneCall.automatic limit = .automatic limit' →
          enough = chainman.enough chain :=
      ⟨[], _, rfl, prunes_nil _ s, fun _ _ => rfl⟩
    split
    · exact hnone
    · split
      · exact hnone
      · split
        · obtain ⟨files, heq, _, hprunes⟩ := hloop (chainman.enough chain)
          exact ⟨files, _, heq, hprunes, fun _ _ => rfl⟩
        · exact hnone

theorem consistent_empty {β : Type} {fastPrune : Bool} : (empty β fastPrune).Consistent where
  normal := rfl
  cursor type n hcursor := by
    cases type <;> cases hcursor
    exact .inl rfl
  stored block pindex hindex _ := by cases hindex

end Invariant

section Steps

variable {β : Type} [DecidableEq β] {s s' : BlockManager β} {block : β}

theorem Consistent.saveBlock (h : s.Consistent) {known : Option FlatFilePos}
    {nBlockSize nTime : Nat}
    {saved : Bool} (hstep : s.saveBlock block known nBlockSize nTime saved = some s') :
    s'.Consistent := by
  obtain ⟨pindex, hpindex, hstep⟩ := Option.bind_eq_some_iff.mp hstep
  obtain ⟨⟨s₁, pos⟩, hfind, hstep⟩ := Option.bind_eq_some_iff.mp hstep
  obtain ⟨chainType, hgrows, hcovers, hcursor⟩ := findBlockPos_spec hfind
  have hlt : pos.nFile < s₁.blockfileInfo.length := by
    obtain ⟨info, hinfo, _⟩ := hcovers
    exact (List.getElem?_eq_some_iff.mp hinfo).1
  have h₁ : s₁.Consistent := by
    have hcursors : ∀ type n, s₁.cursors type = some n → n = 0 ∨ n < s₁.blockfileInfo.length := by
      intro type n hn
      rcases eq_or_ne type chainType with rfl | hne
      · cases hcursor.symm.trans hn
        exact .inr hlt
      · exact (h.cursor type n ((hgrows.cursors_eq type hne).symm.trans hn)).imp_right fun hn =>
          Nat.lt_of_lt_of_le hn hgrows.length_le
    refine ⟨?_, hcursors, fun other pindex' hindex hdata =>
      hgrows.covers _ _ (h.stored other pindex' (hgrows.index_eq ▸ hindex) hdata)⟩
    rcases eq_or_ne .normal chainType with rfl | hne
    · rw [hcursor]
      rfl
    · rw [hgrows.cursors_eq .normal hne]
      exact h.normal
  dsimp only at hstep
  split at hstep
  · cases hstep
    refine ⟨h₁.normal, h₁.cursor, fun other pindex' hindex hdata => ?_⟩
    rcases eq_or_ne other block with rfl | hne
    · cases (update_self ..).symm.trans hindex
      exact hcovers
    · exact h₁.stored other pindex' ((update_of_ne hne ..).symm.trans hindex) hdata
  · cases hstep
    exact h₁

theorem Consistent.writeUndo (h : s.Consistent) {nAddSize : Nat} {written : Bool}
    (hstep : s.writeUndo block nAddSize written = some s') : s'.Consistent := by
  obtain ⟨pindex, hpindex, hstep⟩ := Option.bind_eq_some_iff.mp hstep
  obtain ⟨_, -, hstep⟩ := Option.bind_eq_some_iff.mp hstep
  split at hstep
  · cases hstep
    exact h
  split at hstep
  · cases hstep
  · obtain ⟨info, hinfo, hstep⟩ := Option.bind_eq_some_iff.mp hstep
    cases hstep
    have hcovers : ∀ f height, s.FileCovers f height → FileCovers { s with
        blockfileInfo := s.blockfileInfo.set pindex.nFile
          { info with nUndoSize := (info.nUndoSize + nAddSize) % 0x100000000 } } f height := by
      rintro f height ⟨info', hinfo', hheight⟩
      rcases eq_or_ne pindex.nFile f with rfl | hne
      · cases hinfo.symm.trans hinfo'
        exact ⟨_, List.getElem?_set_self (List.getElem?_eq_some_iff.mp hinfo).1, hheight.count,
          hheight.first, hheight.last⟩
      · exact ⟨info', (List.getElem?_set_ne hne).trans hinfo', hheight⟩
    refine ⟨h.normal, fun type n hn => by simpa using h.cursor type n hn,
      fun other pindex' hindex hdata => ?_⟩
    rcases eq_or_ne other block with rfl | hne
    · cases (update_self ..).symm.trans hindex
      cases written with
      | false => exact hcovers _ _ (h.stored other pindex hpindex hdata)
      | true => exact hcovers _ _ (h.stored other pindex hpindex hdata)
    · exact hcovers _ _ (h.stored other pindex' ((update_of_ne hne ..).symm.trans hindex) hdata)

/-- Every step keeps the summaries right. -/
theorem consistent_next (h : s.Consistent) {a : Action β} (hstep : s.next a = some s') :
    s'.Consistent := by
  cases a with
  | addHeader block nHeight =>
    simp only [next] at hstep
    split at hstep
    · cases hstep
      exact h
    · cases hstep
      refine ⟨h.normal, h.cursor, fun other pindex hindex hdata => ?_⟩
      rcases eq_or_ne other block with rfl | hne
      · cases (update_self ..).symm.trans hindex
        cases hdata
      · exact h.stored other pindex ((update_of_ne hne ..).symm.trans hindex) hdata
  | saveBlock block known nBlockSize nTime saved => exact h.saveBlock hstep
  | writeUndo block nAddSize written => exact h.writeUndo hstep
  | setSnapshotHeight height =>
    cases hstep
    exact ⟨h.normal, h.cursor, h.stored⟩
  | prune chainman chain call =>
    obtain ⟨result, hresult, rfl⟩ := Option.map_eq_some_iff.mp hstep
    obtain ⟨files, _, hprune, _, _⟩ := prune_spec h call (by
      rintro limit rfl
      by_contra hle
      rw [prune, findFilesToPruneManual, if_pos (Int.not_lt.mp hle)] at hresult
      cases hresult)
    cases hprune.symm.trans hresult
    exact h.foldl_prune files

end Steps

end BlockManager

/-! ## What a call can remove -/

theorem toUnsigned_le {x : Int} (h : 0 ≤ x) : (toUnsigned x : Int) ≤ x := by
  simp only [toUnsigned]
  omega

theorem toUnsigned_eq {x : Int} (h : 0 ≤ x) (hlt : x < 0x100000000) : (toUnsigned x : Int) = x := by
  simp only [toUnsigned]
  omega

theorem getPruneRange_spec (chainman : ChainstateManager) (chain : Chainstate) {limit : Int}
    (hlimit : 0 ≤ limit) :
    (0 ≤ (getPruneRange chainman chain limit).1 ∧
      (getPruneRange chainman chain limit).1 < 0x100000000) ∧
    (0 ≤ (getPruneRange chainman chain limit).2 ∧ (getPruneRange chainman chain limit).2 ≤ limit) ∧
    ((getPruneRange chainman chain limit).2 = 0 ∨
      (getPruneRange chainman chain limit).2 + minBlocksToKeep ≤ chain.height) ∧
    (0 < chain.height → 1 < chainman.chainstates → ∀ base ∈ chain.snapshotBaseHeight,
      (getPruneRange chainman chain limit).1 = base + 1) := by
  rcases Int.lt_or_le 0 chain.height with hpos | hle
  · rw [getPruneRange, if_neg (Int.not_le.mpr hpos)]
    refine ⟨?_, by simp only [minBlocksToKeep]; omega, by simp only [minBlocksToKeep]; omega,
      fun _ hmany base hbase => ?_⟩
    · dsimp only
      split
      · cases hbase : chain.snapshotBaseHeight with
        | none => decide
        | some base =>
          have hlt := chain.snapshotBaseHeight_lt base hbase
          exact (⟨by omega, by omega⟩ : 0 ≤ (base + 1 : Int) ∧ (base + 1 : Int) < 0x100000000)
      · omega
    · dsimp only
      rw [if_pos hmany, Option.mem_def.mp hbase]
      rfl
  · rw [getPruneRange, if_pos hle]
    exact ⟨by decide, ⟨Int.le_refl _, hlimit⟩, .inl rfl, fun hpos =>
      absurd hpos (Int.not_lt.mpr hle)⟩

namespace BlockManager

variable {β : Type}

/-- The chain is long enough for the genesis block to be pruned, or another block is in its file. -/
def GenesisKept (s : BlockManager β) (chain : Chainstate) : Prop :=
  minBlocksToKeep ≤ chain.height ∨
    ∀ block pindex, s.index block = some pindex → pindex.haveData = true → pindex.nHeight = 0 →
      ∃ other pindex', s.index other = some pindex' ∧ pindex'.haveData = true ∧
        pindex'.nFile = pindex.nFile ∧ 0 < pindex'.nHeight

variable {s : BlockManager β} {chainman : ChainstateManager} {chain : Chainstate} {limit : Int}
  {files : List Nat} {block : β} {pindex pindex' : CBlockIndex}

theorem mem_of_cleared (hindex : s.index block = some pindex)
    (hindex' : (files.foldl pruneOneBlockFile s).index block = some pindex')
    (hdata : pindex.haveData = true) (hcleared : pindex'.haveData = false) :
    pindex.nFile ∈ files := by
  rw [index_foldl_prune, hindex, map_some, Option.some.injEq] at hindex'
  by_contra hnot
  rw [if_neg hnot] at hindex'
  exact false_ne_true (hcleared.symm.trans (hindex' ▸ hdata))

theorem notMem_of_haveData (hindex : (files.foldl pruneOneBlockFile s).index block = some pindex)
    (hdata : pindex.haveData = true) : pindex.nFile ∉ files := by
  rw [index_foldl_prune] at hindex
  obtain ⟨before, -, heq⟩ := Option.map_eq_some_iff.mp hindex
  intro hmem
  split at heq
  · cases heq ▸ hdata
  · next hnot => exact hnot (heq ▸ hmem)

/-- The heights of the blocks in a file that the range allows to remove are in the range. -/
theorem covers_inRange {info : CBlockFileInfo} {height : Nat} (hlimit : 0 ≤ limit)
    (hinRange : info.inRange (getPruneRange chainman chain limit)) (hcovers : info.Covers height) :
    (getPruneRange chainman chain limit).1 ≤ height ∧
      height ≤ (getPruneRange chainman chain limit).2 := by
  obtain ⟨hstart, hend, -, -⟩ := getPruneRange_spec chainman chain hlimit
  have hfirst := toUnsigned_eq hstart.1 hstart.2
  have hlast := toUnsigned_le hend.1
  simp only [CBlockFileInfo.inRange, not_eq_true', or_eq_false_iff,
    decide_eq_false_iff_not] at hinRange
  have hlo := hcovers.first
  have hhi := hcovers.last
  omega

/-- The range is `[0, 0]` on a short chain, and then it has no block but the genesis block. -/
theorem GenesisKept.far (hgenesis : s.GenesisKept chain) (hlimit : 0 ≤ limit)
    (hindex : s.index block = some pindex) (hdata : pindex.haveData = true)
    (hfile : ∀ other pindex', s.index other = some pindex' → pindex'.haveData = true →
      pindex'.nFile = pindex.nFile → pindex'.nHeight ≤ (getPruneRange chainman chain limit).2) :
    pindex.nHeight + minBlocksToKeep ≤ chain.height := by
  obtain ⟨-, -, hkeep, -⟩ := getPruneRange_spec chainman chain hlimit
  have hle := hfile block pindex hindex hdata rfl
  rcases hgenesis with hlong | hother
  · omega
  · rcases Nat.eq_zero_or_pos pindex.nHeight with hzero | hpos
    · obtain ⟨other, pindex', hindex', hdata', hsame, hpos⟩ :=
        hother block pindex hindex hdata hzero
      have := hfile other pindex' hindex' hdata' hsame
      omega
    · omega

variable [DecidableEq β]

/-- In every state that stores and calls lead to, a call removes the data of a block only if its
height is in the range. Such a block is not near the tip, is not above the limit and is above the
base of a snapshot. No entry has data in a removed file, and a file is removed automatically only
while the usage with the buffer reaches the target. -/
theorem prune_keeps (fastPrune : Bool) (s : BlockManager β)
    (hreach : Reachable BlockManager.next (fun _ => True) (empty β fastPrune) s)
    (chainman : ChainstateManager) (chain : Chainstate) (call : PruneCall) (hlimit : 0 ≤ call.limit)
    (hmanual : ∀ limit, call = .manual limit → 0 < limit) (hgenesis : s.GenesisKept chain) :
    ∃ s' files, s.prune chainman chain call = some (s', files) ∧
      (∀ block pindex pindex', s.index block = some pindex → s'.index block = some pindex' →
        pindex.haveData = true → pindex'.haveData = false →
        (getPruneRange chainman chain call.limit).1 ≤ pindex.nHeight ∧
        pindex.nHeight ≤ (getPruneRange chainman chain call.limit).2 ∧
        pindex.nHeight + minBlocksToKeep ≤ chain.height ∧ pindex.nHeight ≤ call.limit ∧
        (1 < chainman.chainstates → ∀ base ∈ chain.snapshotBaseHeight, base < pindex.nHeight)) ∧
      (∀ block pindex, s'.index block = some pindex → pindex.haveData = true →
        pindex.nFile ∉ files) ∧
      ∀ limit, call = .automatic limit → ∀ before f after, files = before ++ f :: after →
        chainman.target ≤
          (before.foldl pruneOneBlockFile s).calculateCurrentUsage + chainman.buffer chain := by
  have hconsistent : s.Consistent := hreach.invariant Consistent consistent_empty
    fun _ _ _ h hstep _ => consistent_next h hstep
  obtain ⟨files, enough, hprune, hprunes, henough⟩ := prune_spec hconsistent call hmanual
  refine ⟨_, files, hprune, fun block pindex pindex' hindex hindex' hdata hcleared => ?_,
    fun block pindex' => notMem_of_haveData, fun limit hcall before f after heq => ?_⟩
  · have hmem := mem_of_cleared hindex hindex' hdata hcleared
    obtain ⟨info, hinfo, hinRange⟩ := hprunes.inRange _ hmem
    have hfile : ∀ other pindex', s.index other = some pindex' → pindex'.haveData = true →
        pindex'.nFile = pindex.nFile →
        (getPruneRange chainman chain call.limit).1 ≤ pindex'.nHeight ∧
          pindex'.nHeight ≤ (getPruneRange chainman chain call.limit).2 := by
      intro other pindex' hindex' hdata' hsame
      obtain ⟨info', hinfo', hcovers⟩ := hconsistent.stored other pindex' hindex' hdata'
      cases (hsame ▸ hinfo').symm.trans hinfo
      exact covers_inRange hlimit hinRange hcovers
    have hfar : pindex.nHeight + minBlocksToKeep ≤ chain.height :=
      hgenesis.far hlimit hindex hdata fun other pindex' hindex' hdata' hsame =>
        (hfile other pindex' hindex' hdata' hsame).2
    obtain ⟨hlo, hhi⟩ := hfile block pindex hindex hdata rfl
    obtain ⟨-, hend, -, hbase⟩ := getPruneRange_spec chainman chain hlimit
    refine ⟨hlo, hhi, hfar, Int.le_trans hhi hend.2, fun hmany base hmem => ?_⟩
    rw [minBlocksToKeep] at hfar
    have := hbase (by omega) hmany base hmem
    omega
  · have husage := hprunes.usage before f after heq
    rw [henough limit hcall, ChainstateManager.enough, decide_eq_false_iff_not] at husage
    exact Nat.not_lt.mp husage

/-- The state after some actions, where one that is not possible is passed over. -/
def run (s : BlockManager β) (actions : List (Action β)) : BlockManager β :=
  actions.foldl (fun s a => (s.next a).getD s) s

theorem reachable_run {init s : BlockManager β}
    (h : Reachable BlockManager.next (fun _ => True) init s) (actions : List (Action β)) :
    Reachable BlockManager.next (fun _ => True) init (s.run actions) := by
  induction actions generalizing s with
  | nil => exact h
  | cons a actions ih =>
    have hnext : Reachable BlockManager.next (fun _ => True) init ((s.next a).getD s) := by
      cases hstep : s.next a with
      | none => exact h
      | some s' => exact h.step hstep trivial
    exact ih hnext

/-- A run that stores the blocks of a chain from the genesis block on. -/
def storeChain (sizes : List Nat) : List (Action Nat) :=
  sizes.zipIdx.flatMap fun (size, n) => [.addHeader n n, .saveBlock n none size n true]

def sixFiles : BlockManager Nat := (empty Nat false).run (storeChain (List.replicate 6 0x7ffffff))

/-- 151 blocks of regtest with `-fastprune`: the block after the genesis block does not fit in its
file. -/
def genesisAlone : BlockManager Nat :=
  (empty Nat true).run (storeChain (293 :: 70008 :: List.replicate 149 250))

/-- A chainstate without a snapshot. -/
def chainOfHeight (height : Int) : Chainstate := ⟨height, none, by simp⟩

def regtest : ChainstateManager := ⟨1, 1001, false, 100, 0⟩

/-- The block `n` has data in the first state and none after the call. -/
def removes (s : BlockManager Nat) (chain : Chainstate) (call : PruneCall) (n : Nat) : Bool :=
  (s.index n).map CBlockIndex.haveData = some true ∧
    ((s.prune regtest chain call).map fun result =>
      (result.1.index n).map CBlockIndex.haveData) = some (some false)

/-- Two of six full files are removed. -/
theorem prune_keeps_recent : removes sixFiles (chainOfHeight 1001) (.automatic 1000) 1 = true ∧
    ∃ s' files, sixFiles.prune regtest (chainOfHeight 1001) (.automatic 1000) = some (s', files) ∧
      ∀ block pindex, s'.index block = some pindex → pindex.haveData = true →
        pindex.nFile ∉ files := by
  obtain ⟨s', files, hprune, -, hgone, -⟩ := prune_keeps false sixFiles (reachable_run .init _)
    regtest (chainOfHeight 1001) (.automatic 1000) (by decide) (fun _ h => (by cases h))
    (.inl (by decide))
  exact ⟨by decide +kernel, s', files, hprune, hgone⟩

/-- The genesis block loses its data with the tip at height 150, where the range ends at 0. With a
negative limit the comparison as `unsigned` lets everything pass. -/
theorem genesis_removed :
    Reachable BlockManager.next (fun _ => True) (empty Nat true) genesisAlone ∧
      ((genesisAlone.index 0).map CBlockIndex.nHeight = some 0 ∧
        (genesisAlone.index 150).map CBlockIndex.nHeight = some 150) ∧
      removes genesisAlone (chainOfHeight 150) (.manual 1) 0 = true ∧
      ¬0 + minBlocksToKeep ≤ (chainOfHeight 150).height ∧
      Reachable BlockManager.next (fun _ => True) (empty Nat false) sixFiles ∧
      removes sixFiles (chainOfHeight 1001) (.automatic (-1)) 1 = true :=
  ⟨reachable_run .init _, by decide +kernel, by decide +kernel, by decide, reachable_run .init _,
    by decide +kernel⟩

/-! ## No call fails -/

/-- The block is known and fits in a file, one at a known position or with undo data has the cursor
of its type, undo data is for a block with data that is not the genesis block, and a manual call
has a limit. -/
def Proper (s : BlockManager β) : Action β → Prop
  | .saveBlock block known nBlockSize _ _ => nBlockSize < s.maxFileSize nBlockSize ∧
    ∃ pindex, s.index block = some pindex ∧
      (known.isSome → (s.cursors (s.blockfileTypeForHeight pindex.nHeight)).isSome)
  | .writeUndo block _ _ => ∃ pindex, s.index block = some pindex ∧ pindex.haveData = true ∧
    0 < pindex.nHeight ∧ (s.cursors (s.blockfileTypeForHeight pindex.nHeight)).isSome
  | .prune _ _ call => ∀ limit, call = .manual limit → 0 < limit
  | _ => True

/-- Whatever happened to the files, no proper call fails an assertion, goes on for ever or
looks for a file that is not there. -/
theorem next_isSome_of_proper (fastPrune : Bool) (s : BlockManager β)
    (hreach : Reachable BlockManager.next (fun _ => True) (empty β fastPrune) s) (a : Action β)
    (ha : s.Proper a) : (s.next a).isSome := by
  have hconsistent : s.Consistent := hreach.invariant Consistent consistent_empty
    fun _ _ _ h hstep _ => consistent_next h hstep
  cases a with
  | addHeader block => cases hindex : s.index block <;> simp [next, hindex]
  | saveBlock block known nBlockSize nTime saved =>
    obtain ⟨hsize, pindex, hindex, hknown⟩ := ha
    obtain ⟨⟨s', pos⟩, hpos⟩ := Option.isSome_iff_exists.mp
      (findBlockPos_isSome hconsistent known hsize pindex.nHeight nTime hknown)
    cases saved <;> simp [next, saveBlock, hindex, hpos]
  | writeUndo block =>
    obtain ⟨pindex, hindex, hdata, hheight, hcursor⟩ := ha
    obtain ⟨n, hn⟩ := Option.isSome_iff_exists.mp hcursor
    obtain ⟨info, hinfo, -⟩ := hconsistent.stored block pindex hindex hdata
    by_cases hundo : pindex.haveUndo <;>
      simp [next, writeUndo, hindex, hn, hinfo, hundo, hheight.ne']
  | setSnapshotHeight => rfl
  | prune chainman chain call =>
    obtain ⟨_, _, hprune, -⟩ := @prune_spec _ _ hconsistent chainman chain call ha
    simp [next, hprune]

/-- Undo data of a block whose file is full. -/
theorem next_isSome_of_proper_undo : (sixFiles.next (.writeUndo 3 1000 true)).isSome := by
  have hproper : sixFiles.Proper (.writeUndo 3 1000 true) :=
    ⟨⟨3, 3, 0, 0, true, false⟩, by decide +kernel, rfl, Nat.succ_pos 2, by decide +kernel⟩
  exact next_isSome_of_proper false sixFiles (reachable_run .init _) _ hproper

end BlockManager

end Bitcoboost.BlockStorage
