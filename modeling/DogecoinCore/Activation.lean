import DogecoinCore.ChainState

/-! Connecting and disconnecting blocks, and the loop of `ActivateBestChain`.
Notifications, the mempool, `pindexBestInvalid` and the fork warnings are left
out: nothing here reads them. Files are never pruned. -/
namespace DogecoinCore
/-- The modes of `FlushStateToDisk`. -/
inductive FlushStateMode where
  | ifNeeded | periodic | always
  deriving DecidableEq, Repr

/-- What one call of `FlushStateToDisk` finds: cache pressure, elapsed time, and how its writes end. -/
structure FlushIo where
  fCacheFull : Bool := false
  fPeriodicWrite : Bool := false
  diskSpace : Bool := true
  writeBatchSync : Bool := true
  diskSpaceCoins : Bool := true
  flushCoins : Bool := true

/-- The input and output outcomes of one operation, by the block they concern. -/
structure ChainIo where
  readBlock : UInt256 → Bool := fun _ => true
  writeUndo : UInt256 → Bool := fun _ => true
  flush : UInt256 → FlushIo := fun _ => {}
  flushPeriodic : FlushIo := {}

namespace ChainState
variable {C : Type}

def flushBlockFile (st : ChainState C) : ChainState C :=
  let elsewhere := fun b => (st.data b).nFile ≠ st.files.nLastBlockFile
  { st with files := { st.files with
      unsyncedBlk := st.files.unsyncedBlk.filter elsewhere
      unsyncedRev := st.files.unsyncedRev.filter elsewhere } }

/-- `WriteBatchSync` of every dirty index entry. -/
def writeBlockIndex (st : ChainState C) : ChainState C :=
  { st with
    blocktree :=
      { tree := st.tree
        data := fun b => if b ∈ st.setDirtyBlockIndex then st.data b else st.blocktree.data b
        nLastBlockFile := st.files.nLastBlockFile }
    setDirtyBlockIndex := [] }

/-- `pcoinsTip->Flush()`. -/
def flushCoinsTip (written : Bool) (st : ChainState C) : ChainState C :=
  { st with pcoinsTip := st.pcoinsTip.flush written }

def flushStateToDisk (mode : FlushStateMode) (io : FlushIo) (st : ChainState C) :
    Outcome (ChainState C) (ChainState C) :=
  let fDoFullFlush := mode = .always ∨ io.fCacheFull
  let fPeriodicWrite := mode = .periodic ∧ io.fPeriodicWrite
  if fDoFullFlush ∨ fPeriodicWrite then
    if !io.diskSpace then .fail st
    else if !io.writeBatchSync then .fail { st.flushBlockFile with setDirtyBlockIndex := [] }
    else
      let written := st.flushBlockFile.writeBlockIndex
      if fDoFullFlush then
        if !io.diskSpaceCoins then .fail written
        else if !io.flushCoins then .fail (written.flushCoinsTip false)
        else .ok (written.flushCoinsTip true)
      else .ok written
  else .ok st

def disconnectTip (rules : Consensus C) (io : ChainIo) (st : ChainState C) :
    Outcome (ChainState C) (ChainState C) :=
  match st.chainActive with
  | none => .abort
  | some pindexDelete =>
    if !((st.data pindexDelete).haveData && io.readBlock pindexDelete) then .fail st
    else if st.pcoinsTip.view.hashBlock ≠ some pindexDelete then .abort
    else if !(st.data pindexDelete).haveUndo then .fail st
    else
      match rules.disconnect st.pcoinsTip.view.coins pindexDelete with
      | none => .fail st
      | some coins => do
        let pprev := st.tree.parent pindexDelete
        let view := { hashBlock := pprev, coins := coins }
        let st ← flushStateToDisk .ifNeeded (io.flush pindexDelete)
          { st with pcoinsTip := { st.pcoinsTip with view := view } }
        .ok { st with chainActive := pprev }

/-- How `ConnectBlock` judges a block, with the view it leaves. -/
inductive Verdict (C : Type) where
  | valid (st : ChainState C) (view : CoinsView C)
  | invalid (leftover : CoinsView C)

def writeUndo (st : ChainState C) (pindex : UInt256) : ChainState C :=
  if (st.data pindex).haveUndo && (st.data pindex).isValid .scripts then st
  else
    let rev := if (st.data pindex).haveUndo then st.files.unsyncedRev
      else st.files.unsyncedRev.insert pindex
    ({ st with files := { st.files with unsyncedRev := rev } }.modify pindex fun d =>
      { d with haveUndo := true }.raiseValidity .scripts).markDirty pindex

/-- `ConnectBlock` on the given view. -/
def connectBlock (rules : Consensus C) (io : ChainIo) (st : ChainState C) (view : CoinsView C)
    (pindex : UInt256) : Outcome (ChainState C) (Verdict C) :=
  if view.hashBlock ≠ st.tree.parent pindex then .abort
  else if pindex = rules.hashGenesisBlock then
    .ok (.valid st { view with hashBlock := some pindex })
  else
    match rules.connect view.coins pindex with
    | none => .ok (.invalid { view with coins := rules.leftover view.coins pindex })
    | some coins =>
      if !(st.data pindex).haveUndo && !io.writeUndo pindex then .fail st
      else .ok (.valid (st.writeUndo pindex) { hashBlock := some pindex, coins := coins })

def invalidBlockFound (st : ChainState C) (pindex : UInt256) : ChainState C :=
  let st := st.modify pindex fun d => { d with failedValid := true }
  ({ st with gFailedBlocks := st.gFailedBlocks.insert pindex }.markDirty pindex).eraseCandidate pindex

/-- How `ConnectTip` ends when no system error occurs. -/
inductive TipVerdict (C : Type) where
  | connected (st : ChainState C)
  | invalid (st : ChainState C)

/-- The block is connected on a scratch view, so a rejected one leaves no coins behind. -/
def connectTip (rules : Consensus C) (io : ChainIo) (st : ChainState C) (pindexNew : UInt256) :
    Outcome (ChainState C) (TipVerdict C) :=
  if st.tree.parent pindexNew ≠ st.chainActive then .abort
  else if !((st.data pindexNew).haveData && io.readBlock pindexNew) then .fail st
  else do
    match ← connectBlock rules io st st.pcoinsTip.view pindexNew with
    | .invalid _ =>
      -- `InvalidChainFound` asserts that there is a tip.
      if st.chainActive = none then .abort else .ok (.invalid (st.invalidBlockFound pindexNew))
    | .valid st view =>
      let st ← flushStateToDisk .ifNeeded (io.flush pindexNew)
        { st with pcoinsTip := { st.pcoinsTip with view := view } }
      .ok (.connected { st with chainActive := some pindexNew })

def pruneBlockIndexCandidates (st : ChainState C) : Outcome (ChainState C) (ChainState C) :=
  match st.chainActive with
  | none => .abort
  | some tip =>
    let kept := st.setBlockIndexCandidates.filter fun b => !st.blockIndexWorkComparator b tip
    if kept = [] then .abort else .ok { st with setBlockIndexCandidates := kept }

/-- What the walk of `FindMostWorkChain` down from a candidate finds. -/
inductive Walk where
  | usable
  | unusable (pindexTest : UInt256)
  | assertFailed
  deriving DecidableEq

/-- The inner loop of `FindMostWorkChain`, at most `n` blocks further down. -/
def walk (st : ChainState C) : (n : ℕ) → UInt256 → Walk
  | n, pindexTest =>
    if st.contains pindexTest then .usable
    else if (st.data pindexTest).nChainTx = 0 ∧ st.tree.height pindexTest ≠ 0 then .assertFailed
    else if (st.data pindexTest).failed || !(st.data pindexTest).haveData then .unusable pindexTest
    else
      match n, st.tree.parent pindexTest with
      | n + 1, some pprev => st.walk n pprev
      | _, _ => .usable

/-- Take the chain from `pindexNew` down to the unusable block out of the candidates. -/
def removeChain (st : ChainState C) (pindexNew pindexTest : UInt256) : ChainState C :=
  let above := st.tree.down (st.tree.height pindexNew - st.tree.height pindexTest) pindexNew
  let st :=
    if (st.data pindexTest).failed then st.modifyAll above fun d => { d with failedChild := true }
    else { st with mapBlocksUnlinked :=
      st.mapBlocksUnlinked ++ above.filterMap fun b => (st.tree.parent b).map (·, b) }
  { st with setBlockIndexCandidates :=
    st.setBlockIndexCandidates.filter fun b => b ∉ above ∧ b ≠ pindexTest }

/-- The outer loop of `FindMostWorkChain`. Each turn removes a candidate, so as many
turns as there are candidates are enough. -/
def findMostWorkChainLoop : (n : ℕ) → ChainState C →
    Outcome (ChainState C) (ChainState C × Option UInt256)
  | n, st =>
    match st.bestCandidate with
    | none => .ok (st, none)
    | some pindexNew =>
      match st.walk (st.tree.height pindexNew) pindexNew, n with
      | .usable, _ => .ok (st, some pindexNew)
      | .assertFailed, _ => .abort
      | .unusable pindexTest, n + 1 => findMostWorkChainLoop n (st.removeChain pindexNew pindexTest)
      | .unusable _, 0 => .abort

def findMostWorkChain (st : ChainState C) :
    Outcome (ChainState C) (ChainState C × Option UInt256) :=
  findMostWorkChainLoop st.setBlockIndexCandidates.length st

/-- The first loop of `ActivateBestChainStep`. The flag says that a reorganisation off a
snapshot tip without a body was refused. -/
def disconnectToFork (rules : Consensus C) (io : ChainIo) (pindexFork : Option UInt256) :
    (n : ℕ) → ChainState C → Outcome (ChainState C) (ChainState C × Bool)
  | 0, st => .ok (st, false)
  | n + 1, st =>
    match st.chainActive with
    | none => .ok (st, false)
    | some tip =>
      if pindexFork = some tip then .ok (st, false)
      else if st.snapshotActive && !(st.data tip).haveData then .ok (st, true)
      else do
        let st ← disconnectTip rules io st
        disconnectToFork rules io pindexFork n st

/-- The blocks to connect, from the fork up. The source takes them 32 at a time. -/
def toConnect (tree : HeaderTree) (pindexFork : Option UInt256) (pindexMostWork : UInt256) :
    List UInt256 :=
  let n := match pindexFork with
    | none => tree.height pindexMostWork + 1
    | some fork => tree.height pindexMostWork - tree.height fork
  (tree.down n pindexMostWork).reverse

/-- The second loop of `ActivateBestChainStep`. The flag is `fInvalidFound`. -/
def connectBlocks (rules : Consensus C) (io : ChainIo) (pindexOldTip : Option UInt256) :
    List UInt256 → ChainState C → Outcome (ChainState C) (ChainState C × Bool)
  | [], st => .ok (st, false)
  | pindexConnect :: rest, st => do
    match ← connectTip rules io st pindexConnect with
    | .invalid st => .ok (st, true)
    | .connected st =>
      let st ← pruneBlockIndexCandidates st
      -- In a better position than before: return to release the lock.
      if pindexOldTip.all fun old => st.tree.nChainWork old < st.tree.nChainWork pindexConnect then
        .ok (st, false)
      else connectBlocks rules io pindexOldTip rest st

def activateBestChainStep (rules : Consensus C) (io : ChainIo) (st : ChainState C)
    (pindexMostWork : UInt256) : Outcome (ChainState C) (ChainState C × Bool) := do
  let pindexFork := st.findFork pindexMostWork
  let n := st.chainActive.elim 0 fun tip => st.tree.height tip + 1
  let (forked, refused) ← disconnectToFork rules io pindexFork n st
  if refused then .ok (forked, false)
  else connectBlocks rules io st.chainActive (toConnect st.tree pindexFork pindexMostWork) forked

/-- The variables of the loop of `ActivateBestChain`. -/
structure BestChainLoop (C : Type) where
  st : ChainState C
  pindexMostWork : Option UInt256

/-- Where `ActivateBestChain` leaves its loop: with nothing to do, or at `pindexMostWork`. -/
inductive LoopExit (C : Type) where
  | nothingToDo (st : ChainState C)
  | reached (st : ChainState C)

def LoopExit.st : LoopExit C → ChainState C
  | nothingToDo st => st
  | reached st => st

/-- The body of the loop once `pindexMostWork` is chosen. -/
def bestChainStep (rules : Consensus C) (io : ChainIo) (st : ChainState C)
    (pindexMostWork : Option UInt256) :
    Turn (BestChainLoop C) (Outcome (ChainState C) (LoopExit C)) :=
  match pindexMostWork with
  | none => .leave (.ok (.nothingToDo st))
  | some mostWork =>
    if st.chainActive = some mostWork then .leave (.ok (.nothingToDo st))
    else
      match activateBestChainStep rules io st mostWork with
      | .fail st => .leave (.fail st)
      | .abort => .leave .abort
      | .ok (st, fInvalidFound) =>
        let pindexMostWork := if fInvalidFound then none else some mostWork
        if st.chainActive = pindexMostWork then .leave (.ok (.reached st))
        else .again { st := st, pindexMostWork := pindexMostWork }

/-- One turn of the loop of `ActivateBestChain`, with no shutdown requested. -/
def bestChainTurn (rules : Consensus C) (io : ChainIo) (s : BestChainLoop C) :
    Turn (BestChainLoop C) (Outcome (ChainState C) (LoopExit C)) :=
  match s.pindexMostWork with
  | some mostWork => bestChainStep rules io s.st (some mostWork)
  | none =>
    match s.st.findMostWorkChain with
    | .fail st => .leave (.fail st)
    | .abort => .leave .abort
    | .ok (st, pindexMostWork) => bestChainStep rules io st pindexMostWork

/-- The loop of `ActivateBestChain`, at most `fuel` turns of it. -/
def activateBestChainLoop (rules : Consensus C) (io : ChainIo) (fuel : ℕ) (st : ChainState C) :
    Option (Outcome (ChainState C) (LoopExit C)) :=
  iterate (bestChainTurn rules io) fuel { st := st, pindexMostWork := none }

end ChainState
end DogecoinCore
