import DogecoinCore.Activation

/-! How the block index changes outside `ActivateBestChain`: headers and blocks
arriving, the operator's `invalidateblock`, `reconsiderblock` and `preciousblock`,
and loading the index from disk. -/
namespace DogecoinCore
/-- What `CheckBlock` and `ContextualCheckBlock` say of a block body. A corrupt body has the
block's hash but is not the block's. -/
inductive BlockCheck where
  | valid | invalid | corrupt
  deriving DecidableEq, Repr

structure CBlock extends CBlockHeader where
  nTx : ℕ
  check : BlockCheck
  /-- `CheckBlock` refuses a block without transactions. -/
  nTx_pos : check = .valid → 0 < nTx

/-- The circumstances in which a block arrives: whether it was requested, and where it is stored. -/
structure AcceptIo where
  fRequested : Bool := true
  /-- How many block files `FindBlockPos` passes over because they are full. -/
  filesFull : ℕ := 0
  findBlockPos : Bool := true

/-- Unrequested blocks further ahead of the tip than this are not stored. -/
def MIN_BLOCKS_TO_KEEP : ℕ := 1440

namespace ChainState
variable {C : Type}

def addToBlockIndex (st : ChainState C) (block : CBlockHeader) : ChainState C :=
  if known : block.hash ∈ st.tree.blocks then st
  else
    { st with
      tree := st.tree.insert block known
      data := Function.update st.data block.hash (BlockData.null.raiseValidity .tree) }.markDirty
        block.hash

/-- The walk of `AcceptBlockHeader` from the rejected header's parent to the failed block. -/
def markFailedChildren (st : ChainState C) (pindexPrev failedit : UInt256) : ChainState C :=
  let walk := st.tree.down (st.tree.height pindexPrev - st.tree.height failedit) pindexPrev
  let st := st.modifyAll walk fun d => { d with failedChild := true }
  { st with setDirtyBlockIndex := walk ∪ st.setDirtyBlockIndex }

def acceptBlockHeader (rules : Consensus C) (st : ChainState C) (block : CBlockHeader) :
    Outcome (ChainState C) (ChainState C) :=
  if block.hash = rules.hashGenesisBlock then .ok (st.addToBlockIndex block)
  else if block.hash ∈ st.tree.blocks then
    if (st.data block.hash).failed then .fail st else .ok st
  else if !block.checked || block.hashPrevBlock ∉ st.tree.blocks then .fail st
  else if (st.data block.hashPrevBlock).failed then .fail st
  else if (st.data block.hashPrevBlock).isValid .scripts then .ok (st.addToBlockIndex block)
  else
    -- `gFailedBlocks` is searched in the order of the pointers.
    match (st.gFailedBlocks.filter (st.tree.Le · block.hashPrevBlock)).argmin st.addr with
    | none => .ok (st.addToBlockIndex block)
    | some failedit =>
      if (st.data failedit).failedValid then
        .fail (st.markFailedChildren block.hashPrevBlock failedit)
      else .abort

/-- Give a block whose ancestors all have their transactions its `nChainTx` and sequence id. -/
def link (st : ChainState C) (pindex : UInt256) : ChainState C :=
  let before := (st.tree.parent pindex).elim 0 fun p => (st.data p).nChainTx
  let st := st.modify pindex fun d =>
    { d with nChainTx := before + d.nTx, nSequenceId := st.nBlockSequenceId }
  let st := { st with nBlockSequenceId := st.nBlockSequenceId + 1 }
  if st.chainActive.all fun tip => !st.blockIndexWorkComparator pindex tip then
    st.insertCandidate pindex
  else st

/-- The queue of `ReceivedBlockTransactions`. Every entry but the first comes out of
`mapBlocksUnlinked`, which bounds the turns. -/
def linkQueue : (n : ℕ) → List UInt256 → ChainState C → ChainState C
  | n + 1, pindex :: queue, st =>
    let st := st.link pindex
    let range := st.mapBlocksUnlinked.filter fun e => e.1 = pindex
    linkQueue n (queue ++ range.map (·.2))
      { st with mapBlocksUnlinked := st.mapBlocksUnlinked.filter fun e => e.1 ≠ pindex }
  | _, _, st => st

def storeBody (st : ChainState C) (pindexNew : UInt256) (nTx nFile : ℕ) : ChainState C :=
  ({ st with files := { st.files with
      unsyncedBlk := st.files.unsyncedBlk.insert pindexNew } }.modify pindexNew fun d =>
    { d with nTx := nTx, nChainTx := 0, nFile := nFile, haveData := true }.raiseValidity
      .transactions).markDirty pindexNew

def receivedBlockTransactions (st : ChainState C) (pindexNew : UInt256) (nTx nFile : ℕ) :
    ChainState C :=
  let st := st.storeBody pindexNew nTx nFile
  match st.tree.parent pindexNew with
  | none => linkQueue (st.mapBlocksUnlinked.length + 1) [pindexNew] st
  | some pprev =>
    if (st.data pprev).nChainTx ≠ 0 then
      linkQueue (st.mapBlocksUnlinked.length + 1) [pindexNew] st
    else if (st.data pprev).isValid .tree then
      { st with mapBlocksUnlinked := st.mapBlocksUnlinked ++ [(pprev, pindexNew)] }
    else st

def findBlockPos (st : ChainState C) (filesFull : ℕ) : ChainState C :=
  if filesFull = 0 then st
  else
    let st := st.flushBlockFile
    { st with files := { st.files with nLastBlockFile := st.files.nLastBlockFile + filesFull } }

def acceptBlock (rules : Consensus C) (io : AcceptIo) (st : ChainState C) (block : CBlock) :
    Outcome (ChainState C) (ChainState C) := do
  let st ← st.acceptBlockHeader rules block.toCBlockHeader
  let pindex := block.hash
  let fHasMoreWork := st.chainActive.all fun tip => st.tree.nChainWork tip < st.tree.nChainWork pindex
  -- `chainActive.Height()` is -1 without a tip.
  let fTooFarAhead : Bool := match st.chainActive with
    | none => MIN_BLOCKS_TO_KEEP ≤ st.tree.height pindex
    | some tip => st.tree.height tip + MIN_BLOCKS_TO_KEEP < st.tree.height pindex
  if (st.data pindex).haveData then .ok st
  else if !io.fRequested && ((st.data pindex).nTx ≠ 0 || !fHasMoreWork || fTooFarAhead) then .ok st
  else
    match block.check with
    | .corrupt => .fail st
    | .invalid => .fail ((st.modify pindex fun d => { d with failedValid := true }).markDirty pindex)
    | .valid =>
      if !io.findBlockPos then .fail st
      else
        let st := st.findBlockPos io.filesFull
        .ok (st.receivedBlockTransactions pindex block.nTx st.files.nLastBlockFile)

/-- The first loop of `InvalidateBlock`. -/
def disconnectPast (rules : Consensus C) (io : ChainIo) (pindex : UInt256) :
    (n : ℕ) → ChainState C → Outcome (ChainState C) (ChainState C)
  | 0, st => .ok st
  | n + 1, st =>
    if st.contains pindex then do
      let st ← disconnectTip rules io st
      disconnectPast rules io pindex n st
    else .ok st

/-- The marking of `InvalidateBlock`: the blocks just disconnected above `pindex`, then `pindex`. -/
def markInvalid (st : ChainState C) (disconnected : List UInt256) (pindex : UInt256) :
    ChainState C :=
  let st := st.modifyAll disconnected fun d => { d with failedChild := true }
  let st := st.modify pindex fun d => { d with failedValid := true }
  { st with
    setDirtyBlockIndex := pindex :: (disconnected ∪ st.setDirtyBlockIndex)
    setBlockIndexCandidates :=
      st.setBlockIndexCandidates.filter fun b => b ∉ disconnected ∧ b ≠ pindex
    gFailedBlocks := st.gFailedBlocks.insert pindex }

/-- The blocks that may serve as a tip: all their transactions are there and none is known bad. -/
def linkable (st : ChainState C) (b : UInt256) : Bool :=
  (st.data b).isValid .transactions && (st.data b).nChainTx ≠ 0

/-- The loop over `mapBlockIndex` that ends `InvalidateBlock`. -/
def reinsertCandidates (st : ChainState C) (tip : UInt256) : ChainState C :=
  let found := st.tree.blocks.filter fun b => st.linkable b && !st.blockIndexWorkComparator b tip
  { st with
    setBlockIndexCandidates := found ∪ st.setBlockIndexCandidates
    gFailedBlocks := st.gFailedBlocks.filter (· ∉ found) }

def invalidateBlock (rules : Consensus C) (io : ChainIo) (st : ChainState C) (pindex : UInt256) :
    Outcome (ChainState C) (ChainState C) := do
  let n := st.chainActive.elim 0 fun tip => st.tree.height tip + 1
  let disconnected :=
    if st.contains pindex then
      st.chainActive.elim [] fun tip =>
        st.tree.down (st.tree.height tip - st.tree.height pindex) tip
    else []
  let st ← disconnectPast rules io pindex n st
  let st := st.markInvalid disconnected pindex
  match st.chainActive with
  | none => .abort
  | some tip => .ok (st.reinsertCandidates tip)

def resetBlockFailureFlags (st : ChainState C) (pindex : UInt256) : ChainState C :=
  let cleared := st.tree.blocks.filter fun b =>
    !(st.data b).isValid .transactions && st.tree.ancestorAt b (st.tree.height pindex) = some pindex
  let st := st.modifyAll cleared BlockData.clearFailed
  let found := cleared.filter fun b =>
    st.linkable b && st.chainActive.any fun tip => st.blockIndexWorkComparator tip b
  let st := { st with
    setBlockIndexCandidates := found ∪ st.setBlockIndexCandidates
    setDirtyBlockIndex := cleared ∪ st.setDirtyBlockIndex }
  let ancestors := (st.tree.down (st.tree.height pindex + 1) pindex).filter fun b =>
    (st.data b).failed
  let st := st.modifyAll ancestors BlockData.clearFailed
  { st with setDirtyBlockIndex := ancestors ∪ st.setDirtyBlockIndex }

/-- `PreciousBlock` up to its call of `ActivateBestChain`; none when there is nothing to do. -/
def preciousBlock (st : ChainState C) (pindex : UInt256) :
    Outcome (ChainState C) (Option (ChainState C)) :=
  match st.chainActive with
  | none => .abort
  | some tip =>
    if st.tree.nChainWork pindex < st.tree.nChainWork tip then .ok none
    else
      let reverse :=
        if st.nLastPreciousChainwork < st.tree.nChainWork tip then -1 else st.nBlockReverseSequenceId
      let st := (st.eraseCandidate pindex).modify pindex fun d => { d with nSequenceId := reverse }
      let st := { st with
        nLastPreciousChainwork := st.tree.nChainWork tip
        nBlockReverseSequenceId := if -2 ^ 31 < reverse then reverse - 1 else reverse }
      if st.linkable pindex then do
        let st ← pruneBlockIndexCandidates (st.insertCandidate pindex)
        .ok (some st)
      else .ok (some st)

end ChainState

/-- What the loop of `LoadBlockIndexDB` makes of one stored entry, given its loaded parent. -/
def loadEntry (stored : BlockData) (pprev : Option BlockData) : BlockData :=
  let d := { stored with nChainTx := 0, nSequenceId := 0 }
  if 0 < d.nTx then
    let d := { d with nChainTx := match pprev with
      | none => d.nTx
      | some p => if p.nChainTx ≠ 0 then p.nChainTx + d.nTx else 0 }
    if !d.failed && pprev.any BlockData.failed then { d with failedChild := true } else d
  else d

/-- The loop of `LoadBlockIndexDB`: entries are taken by height, so a parent comes first. -/
def BlockTreeDB.loaded (db : BlockTreeDB) : (n : ℕ) → UInt256 → BlockData
  | 0, b => loadEntry (db.data b) none
  | n + 1, b => loadEntry (db.data b) ((db.tree.parent b).map (db.loaded n))

namespace ChainState
variable {C : Type}

/-- `LoadBlockIndexDB` in a fresh process over the databases a node left behind. -/
def loadBlockIndexDB (blocktree : BlockTreeDB) (coins : CoinsView C) (addr : UInt256 ↪ ℕ) :
    Outcome (ChainState C) (ChainState C) :=
  let tree := blocktree.tree
  let data := fun b => blocktree.loaded (tree.height b) b
  let st : ChainState C :=
    { tree := tree
      data := data
      addr := addr
      chainActive := none
      setBlockIndexCandidates := tree.blocks.filter fun b =>
        (data b).isValid .transactions && ((data b).nChainTx ≠ 0 || tree.parent b = none)
      mapBlocksUnlinked := (tree.blocks.filter fun b => 0 < (data b).nTx).filterMap fun b =>
        ((tree.parent b).filter fun p => (data p).nChainTx = 0).map (·, b)
      nBlockSequenceId := 1
      nBlockReverseSequenceId := -1
      nLastPreciousChainwork := 0
      gFailedBlocks := []
      setDirtyBlockIndex := tree.blocks.filter fun b =>
        (data b).failedChild && !(blocktree.data b).failedChild
      pcoinsTip := { db := coins, view := coins }
      snapshotActive := false
      blocktree := blocktree
      files :=
        { nLastBlockFile := blocktree.nLastBlockFile, unsyncedBlk := [], unsyncedRev := [] } }
  match coins.hashBlock with
  | none => .ok st
  | some best =>
    if best ∈ tree.blocks then pruneBlockIndexCandidates { st with chainActive := some best }
    else .ok st

end ChainState
end DogecoinCore
