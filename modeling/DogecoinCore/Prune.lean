import DogecoinCore.BlockArchive
import DogecoinCore.Snapshot
import Mathlib.Algebra.BigOperators.Group.List.Basic
import Mathlib.Data.UInt

/-! Pruning: which block files `FindFilesToPrune` and `FindFilesToPruneManual` pick, what
`PruneOneBlockFile` does to the index, and the flush that deletes the files. Heights and
sizes are compared without sign, as the source does. -/
namespace DogecoinCore
/-- `height - MIN_BLOCKS_TO_KEEP`, an `int` less an `unsigned int`. -/
def lastBlockWeCanPrune (height : UInt32) : UInt32 := height - MIN_BLOCKS_TO_KEEP.toUInt32

/-- `BLOCKFILE_CHUNK_SIZE + UNDOFILE_CHUNK_SIZE`: room for the next allocation. -/
def pruneBuffer : UInt64 := 0x1000000 + 0x100000

/-- The fields of a `CBlockFileInfo` that pruning reads. -/
structure CBlockFileInfo where
  nSize : UInt32
  nUndoSize : UInt32
  nHeightLast : UInt32
  deriving DecidableEq, Repr

namespace CBlockFileInfo
def null : CBlockFileInfo where
  nSize := 0
  nUndoSize := 0
  nHeightLast := 0

def bytes (info : CBlockFileInfo) : UInt64 := (info.nSize + info.nUndoSize).toUInt64

end CBlockFileInfo

structure BlockPos where
  nDataPos : UInt32
  nUndoPos : UInt32
  deriving DecidableEq, Repr

structure PruneState (C : Type) where
  node : NodeState C
  pos : UInt256 → BlockPos
  vinfoBlockFile : List CBlockFileInfo
  setDirtyFileInfo : List ℕ
  /-- The file records of the index database. -/
  fileInfoDb : ℕ → CBlockFileInfo
  dirs : BlockDirs

namespace PruneState
variable {C : Type}

/-- `vinfoBlockFile[nFile]`. -/
def info (st : PruneState C) (nFile : ℕ) : CBlockFileInfo := st.vinfoBlockFile.getD nFile .null

/-- `chainActive.Height()`, where there is a tip. -/
def chainHeight (st : PruneState C) : Option ℕ :=
  st.node.chain.chainActive.map st.node.chain.tree.height

def pruneOneBlockFile (nFile : ℕ) (st : PruneState C) : PruneState C :=
  let chain := st.node.chain
  let pruned := chain.tree.blocks.filter fun b => (chain.data b).nFile = nFile
  { st with
    node := { st.node with
      chain := { chain.modifyAll pruned
          fun d => { d with haveData := false, haveUndo := false, nFile := 0 } with
        setDirtyBlockIndex := pruned ∪ chain.setDirtyBlockIndex
        mapBlocksUnlinked := chain.mapBlocksUnlinked.filter fun entry =>
          !(entry.2 ∈ pruned && chain.tree.parent entry.2 = some entry.1) } }
    pos := fun b => if b ∈ pruned then ⟨0, 0⟩ else st.pos b
    vinfoBlockFile := st.vinfoBlockFile.set nFile .null
    setDirtyFileInfo := st.setDirtyFileInfo.insert nFile }

def calculateCurrentUsage (st : PruneState C) : UInt64 := (st.vinfoBlockFile.map (·.bytes)).sum

/-- The loop of `FindFilesToPrune`: it stops below the target and passes over files that are empty
or too recent. -/
def pruneLoop (nPruneTarget : UInt64) (nLastBlockWeCanPrune : UInt32) :
    List ℕ → (nCurrentUsage : UInt64) → PruneState C → List ℕ × PruneState C
  | [], _, st => ([], st)
  | fileNumber :: rest, nCurrentUsage, st =>
    let info := st.info fileNumber
    if info.nSize = 0 then pruneLoop nPruneTarget nLastBlockWeCanPrune rest nCurrentUsage st
    else if nCurrentUsage + pruneBuffer < nPruneTarget then ([], st)
    else if info.nHeightLast > nLastBlockWeCanPrune then
      pruneLoop nPruneTarget nLastBlockWeCanPrune rest nCurrentUsage st
    else
      let (others, st) := pruneLoop nPruneTarget nLastBlockWeCanPrune rest
        (nCurrentUsage - info.bytes) (st.pruneOneBlockFile fileNumber)
      (fileNumber :: others, st)

def findFilesToPrune (nPruneTarget nPruneAfterHeight : UInt64) (st : PruneState C) :
    List ℕ × PruneState C :=
  match st.chainHeight with
  | none => ([], st)
  | some height =>
    if nPruneTarget = 0 then ([], st)
    else if height.toUInt64 ≤ nPruneAfterHeight then ([], st)
    else
      let nLastBlockWeCanPrune := lastBlockWeCanPrune height.toUInt32
      let nCurrentUsage := st.calculateCurrentUsage
      if nCurrentUsage + pruneBuffer ≥ nPruneTarget then
        st.pruneLoop nPruneTarget nLastBlockWeCanPrune
          (List.range st.node.chain.files.nLastBlockFile) nCurrentUsage
      else ([], st)

/-- The loop of `FindFilesToPruneManual`. -/
def pruneManualLoop (nLastBlockWeCanPrune : UInt32) : List ℕ → PruneState C → List ℕ × PruneState C
  | [], st => ([], st)
  | fileNumber :: rest, st =>
    let info := st.info fileNumber
    if info.nSize = 0 || info.nHeightLast > nLastBlockWeCanPrune then
      pruneManualLoop nLastBlockWeCanPrune rest st
    else
      let (others, st) :=
        pruneManualLoop nLastBlockWeCanPrune rest (st.pruneOneBlockFile fileNumber)
      (fileNumber :: others, st)

def findFilesToPruneManual (nManualPruneHeight : Int32) (st : PruneState C) :
    List ℕ × PruneState C :=
  match st.chainHeight with
  | none => ([], st)
  | some height =>
    let nLastBlockWeCanPrune :=
      min nManualPruneHeight.toUInt32 (lastBlockWeCanPrune height.toUInt32)
    st.pruneManualLoop nLastBlockWeCanPrune (List.range st.node.chain.files.nLastBlockFile)

/-- How a call of `FlushStateToDisk` comes to prune. -/
inductive PruneRequest where
  | automatic (nPruneTarget nPruneAfterHeight : UInt64)
  | manual (nManualPruneHeight : Int32)

def selectFiles (st : PruneState C) : PruneRequest → List ℕ × PruneState C
  | .automatic nPruneTarget nPruneAfterHeight => st.findFilesToPrune nPruneTarget nPruneAfterHeight
  | .manual nManualPruneHeight => st.findFilesToPruneManual nManualPruneHeight

/-- The dirty file records go to the index database with the dirty index entries. -/
def writeFileInfo (st : PruneState C) : PruneState C :=
  { st with
    fileInfoDb := fun nFile =>
      if nFile ∈ st.setDirtyFileInfo then st.info nFile else st.fileInfoDb nFile
    setDirtyFileInfo := [] }

/-- `FlushStateToDisk` in prune mode, with an archive: the index is written before the files are
copied and deleted, then the coins are flushed. -/
def flushAndPrune (hex : List UInt8 → String) (archive : ArchiveIo) (io : FlushIo)
    (request : PruneRequest) (st : PruneState C) : Outcome (PruneState C) (PruneState C) :=
  let (setFilesToPrune, st) := st.selectFiles request
  let fFlushForPrune := !setFilesToPrune.isEmpty
  let io := { io with fCacheFull := io.fCacheFull || fFlushForPrune }
  let written := fFlushForPrune && io.diskSpace && io.writeBatchSync
  let st :=
    if written then
      { st.writeFileInfo with dirs := (st.dirs.unlinkPrunedFiles hex archive setFilesToPrune).2 }
    else st
  match st.node.chain.flushStateToDisk .ifNeeded io with
  | .ok chain => .ok { st with node := { st.node with chain := chain } }
  | .fail chain => .fail { st with node := { st.node with chain := chain } }
  | .abort => .abort

/-- The RPC `pruneblockchain`: the height it prunes to, given what `FindEarliestAtLeast` finds for a
time. The chain has to be long enough, and no background validation may be under way. -/
def pruneblockchain (nPruneAfterHeight : UInt64) (findEarliestAtLeast : Int32 → Option Int32)
    (heightParam : Int32) (st : PruneState C) : Except String Int32 :=
  if st.node.chain.snapshotActive && !st.node.assumeutxoValidated then
    .error "Cannot prune while AssumeUTXO background validation is in progress"
  else if heightParam < 0 then .error "Negative block height."
  else do
    let heightParam ← (if heightParam > 1000000000 then
        match findEarliestAtLeast (heightParam - 7200) with
        | none => .error "Could not find block with at least the specified timestamp."
        | some height => .ok height
      else .ok heightParam : Except String Int32)
    let height := heightParam.toUInt32
    let chainHeight := (st.chainHeight.elim (-1 : Int32) fun h => Int32.ofNat h).toUInt32
    if chainHeight.toUInt64 < nPruneAfterHeight then .error "Blockchain is too short for pruning."
    else if height > chainHeight then
      .error "Blockchain is shorter than the attempted prune height."
    else if height > lastBlockWeCanPrune chainHeight then
      .ok (lastBlockWeCanPrune chainHeight).toInt32
    else .ok height.toInt32

end PruneState

end DogecoinCore
