import DogecoinCore.Acceptance

/-! The AssumeUTXO state machine of node/chainstate.cpp over the chain state:
loading a snapshot, swapping it in, validating history behind it, and what
survives in the data directory. Log lines, message boxes and the progress
figures shown to users are left out. -/
namespace DogecoinCore
inductive BackgroundValidationStatus where
  | none | running | waitingBlocks | completed | failed
  deriving DecidableEq, Repr

def statusToDisk : BackgroundValidationStatus → ℕ
  | .none => 0
  | .running => 1
  | .waitingBlocks => 2
  | .completed => 3
  | .failed => 4

def statusFromDisk : ℕ → BackgroundValidationStatus
  | 1 => .running
  | 2 => .waitingBlocks
  | 3 => .completed
  | 4 => .failed
  | _ => .none

@[simp] theorem statusFromDisk_statusToDisk (s : BackgroundValidationStatus) :
    statusFromDisk (statusToDisk s) = s := by
  cases s <;> rfl

structure AssumeUtxoDiskState where
  base_blockhash : UInt256
  coins_hash : UInt256
  coins_count : ℕ
  status : ℕ
  bg_height : ℤ
  deriving DecidableEq

structure Params (C : Type) extends Consensus C where
  /-- The digest `ComputeCoinsHashSerialized` takes of a coins database. -/
  hashSerialized : CoinsView C → UInt256
  /-- Regtest or `-assumeutxodev`. -/
  fAssumeUtxoDev : Bool
  /-- `AssumeutxoForHeight`: the attested digest of a height. -/
  assumeutxoForHeight : ℕ → Option UInt256

def Params.assumeUtxoActivationAllowed {C : Type} (params : Params C) (height : ℕ)
    (coinsHash : UInt256) : Bool :=
  params.fAssumeUtxoDev || (coinsHash ≠ 0 && params.assumeutxoForHeight height = some coinsHash)

structure SnapshotInfo where
  baseHash : UInt256
  coinsCount : ℕ
  coinsHash : UInt256
  deriving DecidableEq

/-- `g_background_chainstate`: idle, a loaded snapshot, or the parked IBD chainstate whose
coins are `NodeState.parkedCoins`. -/
inductive BackgroundSlot (C : Type) where
  | idle
  | loaded (coins : CCoinsViewCache C) (tip : Option UInt256) (info : SnapshotInfo)
  | parked (tip : Option UInt256)

/-- The node: chain state, AssumeUTXO globals and files. `g_snapshot_is_active` is
`chain.snapshotActive`, and while it is set `chain.pcoinsTip` is the snapshot's view. -/
structure NodeState (C : Type) where
  chain : ChainState C
  background : BackgroundSlot C
  /-- `g_original_pcoins_tip` while a snapshot is active. -/
  parkedCoins : CCoinsViewCache C
  bgStatus : BackgroundValidationStatus
  bgHeight : ℤ
  bgTargetHeight : ℤ
  assumeutxoValidated : Bool
  assumeutxoFailed : Bool
  expectedCoinsHash : UInt256
  snapshotBaseHash : UInt256
  snapshotCoinsCount : ℕ
  /-- assumeutxo.dat. -/
  stateFile : Option AssumeUtxoDiskState
  /-- chainstate_snapshot/ while no view of this process has it open. -/
  snapshotDir : Option (CoinsView C)

/-- How a write of assumeutxo.dat ends: the old file is removed before the new one is renamed. -/
inductive WriteOutcome where
  | written | unchanged | removed
  deriving DecidableEq

/-- The input and output outcomes of the AssumeUTXO operations, by the block the background
tip is at. -/
structure SnapshotIo where
  chain : ChainIo := {}
  flush : FlushIo := {}
  flushView : Option UInt256 → Bool := fun _ => true
  cursor : Bool := true
  persist : Option UInt256 → BackgroundValidationStatus → WriteOutcome := fun _ _ => .written
  openDir : Bool := true
  readState : Bool := true
  removeState : Bool := true
  /-- Whether a call of background validation that has connected so many blocks finds a shutdown
  requested. -/
  shutdownRequested : ℕ → Bool := fun _ => false

/-- The snapshot file as `LoadUTXOSnapshot` reads it. `partialDir` is what a load that breaks
off leaves in chainstate_snapshot/. -/
structure SnapshotFile (C : Type) where
  metadataOk : Bool
  base_blockhash : UInt256
  coins_count : ℕ
  coins : C
  coinsOk : Bool
  partialDir : CoinsView C

/-- A snapshot header that announces more records than this is corrupt. -/
def maxSnapshotCoins : ℕ := 500000000

inductive SnapshotError where
  | alreadyActive | notIdle | badMetadata | allocate | readCoins | flushCoins | hashCoins
  | noSnapshot | baseNotInIndex | noCoinsHash | notAllowed | behindTip
  | readState | nullHash | sessionFailed | openCoins | nullBest | tipNotInIndex | notOnBase
  deriving DecidableEq, Repr

namespace NodeState
variable {C : Type}

/-- `Tip()` of the background slot. -/
def bgTip (st : NodeState C) : Option UInt256 :=
  match st.background with
  | .idle => none
  | .loaded _ tip _ => tip
  | .parked tip => tip

def heightOf (st : NodeState C) (tip : Option UInt256) : ℤ :=
  tip.elim (-1) fun b => st.chain.tree.height b

def diskState (st : NodeState C) : AssumeUtxoDiskState where
  base_blockhash := st.snapshotBaseHash
  coins_hash := st.expectedCoinsHash
  coins_count := st.snapshotCoinsCount
  status := statusToDisk st.bgStatus
  bg_height := st.bgHeight

def persist (w : WriteOutcome) (st : NodeState C) : NodeState C :=
  if !st.chain.snapshotActive && st.stateFile.isNone then st
  else
    match w with
    | .written => { st with stateFile := some st.diskState }
    | .unchanged => st
    | .removed => { st with stateFile := none }

def failBackgroundValidation (io : SnapshotIo) (st : NodeState C) : NodeState C :=
  { st with bgStatus := .failed, assumeutxoFailed := true, assumeutxoValidated := false }.persist
    (io.persist st.bgTip .failed)

def completeBackgroundValidation (io : SnapshotIo) (st : NodeState C) : NodeState C :=
  { st with
    bgStatus := .completed
    assumeutxoValidated := true
    assumeutxoFailed := false
    background := .idle }.persist (io.persist st.bgTip .completed)

/-- Flush the parked view, hash its database and settle the validation. -/
def checkCoinsHash (params : Params C) (io : SnapshotIo) (st : NodeState C) : NodeState C :=
  let flushed := io.flushView st.bgTip
  let st := { st with parkedCoins := st.parkedCoins.flush flushed }
  if !flushed then st.failBackgroundValidation io
  else if !io.cursor then st.failBackgroundValidation io
  else if params.hashSerialized st.parkedCoins.db ≠ st.expectedCoinsHash then
    st.failBackgroundValidation io
  else st.completeBackgroundValidation io

/-- The coins database is LevelDB, which refuses to wipe a directory that is open, as it is while a
snapshot is active. What MDBX does then is `Coins.LoadLeavesAlone`. -/
def loadUTXOSnapshot (params : Params C) (io : SnapshotIo) (file : SnapshotFile C)
    (st : NodeState C) : Outcome (NodeState C × SnapshotError) (NodeState C) :=
  match st.background with
  | .loaded .. | .parked _ => .fail (st, .notIdle)
  | .idle =>
    if !file.metadataOk || file.base_blockhash = 0 || maxSnapshotCoins < file.coins_count then
      .fail (st, .badMetadata)
    else if st.chain.snapshotActive || !io.openDir then .fail (st, .allocate)
    else if !file.coinsOk then .fail ({ st with snapshotDir := some file.partialDir }, .readCoins)
    else
      let view : CoinsView C := { hashBlock := some file.base_blockhash, coins := file.coins }
      if !io.flushView none then
        .fail ({ st with snapshotDir := some file.partialDir }, .flushCoins)
      else if !io.cursor then .fail ({ st with snapshotDir := some view }, .hashCoins)
      else
        let tip := if file.base_blockhash ∈ st.chain.tree.blocks then some file.base_blockhash
          else none
        .ok { st with
          snapshotDir := none
          background := .loaded { db := view, view := view } tip
            { baseHash := file.base_blockhash
              coinsCount := file.coins_count
              coinsHash := params.hashSerialized view } }

/-- The swap of `ActivateLoadedSnapshot`: the chain and the coins of the loaded snapshot become
active and the IBD chainstate is parked. -/
def swapIn (st : NodeState C) (coins : CCoinsViewCache C) (snapTip : UInt256)
    (info : SnapshotInfo) : NodeState C :=
  { st with
    expectedCoinsHash := info.coinsHash
    snapshotBaseHash := info.baseHash
    snapshotCoinsCount := info.coinsCount
    bgTargetHeight := st.chain.tree.height snapTip
    bgHeight := st.heightOf st.chain.chainActive
    bgStatus := .running
    assumeutxoValidated := false
    assumeutxoFailed := false
    background := .parked st.chain.chainActive
    parkedCoins := st.chain.pcoinsTip
    chain := { st.chain with
      chainActive := some snapTip
      pcoinsTip := { coins with view := { coins.view with hashBlock := some snapTip } }
      snapshotActive := true } }

/-- The end of `ActivateLoadedSnapshot`: a snapshot of the current tip is settled at once. A
coins hash that cannot be computed settles nothing. -/
def settleAtTip (params : Params C) (io : SnapshotIo) (st : NodeState C) : NodeState C :=
  if st.bgHeight = st.bgTargetHeight ∧ st.bgTip = some st.snapshotBaseHash then
    let st := { st with parkedCoins := st.parkedCoins.flush (io.flushView st.bgTip) }
    if !io.cursor then st
    else if params.hashSerialized st.parkedCoins.db = st.expectedCoinsHash then
      st.completeBackgroundValidation io
    else st.failBackgroundValidation io
  else st

/-- The result of its `FlushStateToDisk` is ignored. -/
def activateLoadedSnapshot (params : Params C) (io : SnapshotIo) (st : NodeState C) :
    Outcome (NodeState C × SnapshotError) (NodeState C) :=
  if st.chain.snapshotActive then .fail (st, .alreadyActive)
  else
    match st.background with
    | .idle | .parked _ => .fail (st, .noSnapshot)
    | .loaded _ none _ => .fail (st, .baseNotInIndex)
    | .loaded coins (some snapTip) info =>
      if info.coinsHash = 0 then .fail (st, .noCoinsHash)
      else if !params.assumeUtxoActivationAllowed (st.chain.tree.height snapTip) info.coinsHash then
        .fail (st, .notAllowed)
      else if st.chain.chainActive.any fun tip =>
          st.chain.tree.height snapTip < st.chain.tree.height tip then
        .fail (st, .behindTip)
      else
        match st.chain.flushStateToDisk .always io.flush with
        | .abort => .abort
        | .ok chain | .fail chain =>
          let st := { st with chain := chain }.swapIn coins snapTip info
          let st := st.settleAtTip params io
          .ok (st.persist (io.persist st.bgTip st.bgStatus))

/-- The tip `MaybeRestoreAssumeUtxo` gives the parked chainstate: the best block of the IBD coins
where the index knows it, else the active tip. -/
def restoredBgTip (st : NodeState C) : Option UInt256 :=
  match st.chain.pcoinsTip.view.hashBlock with
  | none => st.chain.chainActive
  | some best => if best ∈ st.chain.tree.blocks then some best else st.chain.chainActive

/-- The swap of `MaybeRestoreAssumeUtxo`. -/
def restoreSwap (st : NodeState C) (saved : AssumeUtxoDiskState) (dir : CoinsView C)
    (snapTip : UInt256) : NodeState C :=
  let status := statusFromDisk saved.status
  let status := if status = .none then .running else status
  { st with
    expectedCoinsHash := saved.coins_hash
    snapshotBaseHash := saved.base_blockhash
    snapshotCoinsCount := saved.coins_count
    bgTargetHeight := st.chain.tree.height saved.base_blockhash
    bgHeight := st.restoredBgTip.elim saved.bg_height fun b => st.chain.tree.height b
    bgStatus := status
    assumeutxoValidated := status = .completed
    assumeutxoFailed := false
    background := .parked st.restoredBgTip
    parkedCoins := st.chain.pcoinsTip
    snapshotDir := none
    chain := { st.chain with
      chainActive := some snapTip
      pcoinsTip := { db := dir, view := dir }
      snapshotActive := true } }

/-- The end of `MaybeRestoreAssumeUtxo`: validation that had reached the base may complete, and a
mismatch is left to the next step. -/
def settleRestored (params : Params C) (io : SnapshotIo) (st : NodeState C) : NodeState C :=
  if st.bgStatus ≠ .completed ∧ st.bgTargetHeight ≤ st.bgHeight ∧
      st.bgTip = some st.snapshotBaseHash then
    let flushed := io.flushView st.bgTip
    let st := { st with parkedCoins := st.parkedCoins.flush flushed }
    if flushed && io.cursor && params.hashSerialized st.parkedCoins.db = st.expectedCoinsHash then
      st.completeBackgroundValidation io
    else st
  else st

def maybeRestoreAssumeUtxo (params : Params C) (io : SnapshotIo) (st : NodeState C) :
    Outcome (NodeState C × SnapshotError) (NodeState C) :=
  if st.chain.snapshotActive then .ok st
  else
    match st.stateFile, st.snapshotDir with
    | none, _ => .ok st
    | some _, none => .ok (if io.removeState then { st with stateFile := none } else st)
    | some saved, some dir =>
      if !io.readState then .fail (st, .readState)
      else if saved.base_blockhash = 0 || saved.coins_hash = 0 then .fail (st, .nullHash)
      else if saved.status = statusToDisk .failed then .fail (st, .sessionFailed)
      else if saved.base_blockhash ∉ st.chain.tree.blocks then .fail (st, .baseNotInIndex)
      else if !io.openDir then .fail (st, .openCoins)
      else
        match dir.hashBlock with
        | none => .fail (st, .nullBest)
        | some snapTip =>
          if snapTip ∉ st.chain.tree.blocks then .fail (st, .tipNotInIndex)
          else if st.chain.tree.ancestorAt snapTip (st.chain.tree.height saved.base_blockhash) ≠
              some saved.base_blockhash then .fail (st, .notOnBase)
          else .ok ((st.restoreSwap saved dir snapTip).settleRestored params io)

/-- The background coins after `ConnectBlock` ran on them and rejected the block. -/
def leaveLeftover (st : NodeState C) (leftover : CoinsView C) : NodeState C :=
  { st with parkedCoins := { st.parkedCoins with view := leftover } }

def advance (st : NodeState C) (chain : ChainState C) (view : CoinsView C) (next : UInt256) :
    NodeState C :=
  { st with
    chain := chain
    parkedCoins := { st.parkedCoins with view := view }
    background := .parked (some next)
    bgHeight := chain.tree.height next
    bgStatus := .running }

def periodicFlush (io : SnapshotIo) (connected : ℕ) (st : NodeState C) :
    Turn (NodeState C × ℕ) (NodeState C × ℕ) :=
  if connected % 100 = 0 then
    let flushed := io.flushView st.bgTip
    let st := { st with parkedCoins := st.parkedCoins.flush flushed }
    if flushed then .again (st.persist (io.persist st.bgTip .running), connected)
    else .leave (st.failBackgroundValidation io, connected)
  else .again (st, connected)

def connectNext (params : Params C) (io : SnapshotIo) (next : UInt256) (connected : ℕ)
    (st : NodeState C) : Turn (NodeState C × ℕ) (NodeState C × ℕ) :=
  let pprev := st.chain.tree.parent next
  if pprev ≠ st.bgTip then .leave (st.failBackgroundValidation io, connected)
  else if !(st.chain.data next).haveData then
    let st := { st with bgStatus := .waitingBlocks }
    .leave (st.persist (io.persist st.bgTip .waitingBlocks), connected)
  else if !io.chain.readBlock next then .leave (st.failBackgroundValidation io, connected)
  else if st.parkedCoins.view.hashBlock ≠ pprev then
    .leave (st.failBackgroundValidation io, connected)
  else
    match st.chain.connectBlock params.toConsensus io.chain st.parkedCoins.view next with
    | .abort => .leave (st, connected)
    | .fail _ =>
      -- The undo record could not be written: the coins are changed, the best block is not.
      let view := st.parkedCoins.view
      let coins := (params.connect view.coins next).getD view.coins
      .leave ((st.leaveLeftover { view with coins := coins }).failBackgroundValidation io, connected)
    | .ok (.invalid leftover) =>
      .leave ((st.leaveLeftover leftover).failBackgroundValidation io, connected)
    | .ok (.valid chain view) => (st.advance chain view next).periodicFlush io (connected + 1)

/-- The check after the loop of `StepBackgroundValidation`. -/
def stepFinish (params : Params C) (io : SnapshotIo) (st : NodeState C) : NodeState C :=
  if st.bgTip.isSome ∧ st.bgTargetHeight ≤ st.heightOf st.bgTip ∧
      st.bgTip = some st.snapshotBaseHash then
    st.checkCoinsHash params io
  else st

/-- One turn of the loop of `StepBackgroundValidation`. -/
def stepTurn (params : Params C) (io : SnapshotIo) (target : UInt256) (s : NodeState C × ℕ) :
    Turn (NodeState C × ℕ) (NodeState C × ℕ) :=
  let (st, connected) := s
  -- `break` goes to the check after the loop
  if io.shutdownRequested connected then .leave (st.stepFinish params io, connected)
  else
    let bgHeight := st.heightOf st.bgTip
    let st := { st with bgHeight := bgHeight }
    if (st.chain.tree.height target : ℤ) ≤ bgHeight then
      if st.bgTip ≠ some st.snapshotBaseHash then
        .leave (st.failBackgroundValidation io, connected)
      else .leave (st.checkCoinsHash params io, connected)
    else
      match st.chain.tree.ancestorAt target (bgHeight + 1).toNat with
      | none => .leave (st.failBackgroundValidation io, connected)
      | some next => st.connectNext params io next connected

/-- `StepBackgroundValidation`, with the number of blocks it connected. -/
def stepBackgroundValidation (params : Params C) (io : SnapshotIo) (maxBlocks : ℕ)
    (st : NodeState C) : NodeState C × ℕ :=
  if maxBlocks = 0 || !st.chain.snapshotActive then (st, 0)
  else if st.bgStatus ≠ .running ∧ st.bgStatus ≠ .waitingBlocks then (st, 0)
  else
    match st.background with
    | .idle => (st.failBackgroundValidation io, 0)
    | .loaded .. | .parked _ =>
      if st.snapshotBaseHash ∉ st.chain.tree.blocks then (st.failBackgroundValidation io, 0)
      else
        match loopFor (stepTurn params io st.snapshotBaseHash) maxBlocks (st, 0) with
        | .leave r => r
        | .again (st, connected) => (st.stepFinish params io, connected)

def maybeStepBackgroundValidation (params : Params C) (io : SnapshotIo) (maxBlocks : ℕ)
    (st : NodeState C) : NodeState C :=
  if !st.chain.snapshotActive then st
  else if st.bgStatus ≠ .running ∧ st.bgStatus ≠ .waitingBlocks then st
  else (st.stepBackgroundValidation params io maxBlocks).1

/-- The blocks `ActivateBestChain` lets the background connect each time. -/
def autoStepBlocks : ℕ := 32

/-- `ActivateBestChain`, none while its loop has not ended after `fuel` turns. -/
def activateBestChain (params : Params C) (io : SnapshotIo) (fuel : ℕ) (st : NodeState C) :
    Option (Outcome (NodeState C) (NodeState C)) :=
  (st.chain.activateBestChainLoop params.toConsensus io.chain fuel).map fun
    | .abort => .abort
    | .fail chain => .fail { st with chain := chain }
    | .ok (.nothingToDo chain) => .ok { st with chain := chain }
    | .ok (.reached chain) =>
      match chain.flushStateToDisk .periodic io.chain.flushPeriodic with
      | .abort => .abort
      | .fail chain => .fail { st with chain := chain }
      | .ok chain =>
        .ok ({ st with chain := chain }.maybeStepBackgroundValidation params io autoStepBlocks)

end NodeState

structure Datadir (C : Type) where
  blocktree : BlockTreeDB
  chainstate : CoinsView C
  chainstateSnapshot : Option (CoinsView C)
  stateFile : Option AssumeUtxoDiskState

namespace NodeState
variable {C : Type}

def datadir (st : NodeState C) : Datadir C where
  blocktree := st.chain.blocktree
  chainstate := if st.chain.snapshotActive then st.parkedCoins.db else st.chain.pcoinsTip.db
  chainstateSnapshot :=
    if st.chain.snapshotActive then some st.chain.pcoinsTip.db
    else
      match st.background with
      | .loaded coins _ _ => some coins.db
      | .idle | .parked _ => st.snapshotDir
  stateFile := st.stateFile

/-- `FlushStateToDisk`, then `ShutdownChainstates`. The parked IBD view is deleted
without a flush. -/
def shutdown (io : SnapshotIo) (st : NodeState C) : Datadir C :=
  let chain := match st.chain.flushStateToDisk .always io.flush with
    | .ok chain | .fail chain => chain
    | .abort => st.chain
  let st := { st with chain := chain }
  if st.chain.snapshotActive then
    let chain := st.chain.flushCoinsTip (io.flushView st.bgTip)
    ({ st with chain := chain }.persist (io.persist st.bgTip st.bgStatus)).datadir
  else st.datadir

/-- Start-up up to `MaybeRestoreAssumeUtxo`. -/
def load (dir : Datadir C) (addr : UInt256 ↪ ℕ) : Outcome (ChainState C) (NodeState C) := do
  let chain ← ChainState.loadBlockIndexDB dir.blocktree dir.chainstate addr
  .ok
    { chain := chain
      background := .idle
      parkedCoins := chain.pcoinsTip
      bgStatus := .none
      bgHeight := -1
      bgTargetHeight := -1
      assumeutxoValidated := false
      assumeutxoFailed := false
      expectedCoinsHash := 0
      snapshotBaseHash := 0
      snapshotCoinsCount := 0
      stateFile := dir.stateFile
      snapshotDir := dir.chainstateSnapshot }

/-- Start-up over a data directory; none if the node refuses to start. -/
def startup (params : Params C) (io : SnapshotIo) (dir : Datadir C) (addr : UInt256 ↪ ℕ) :
    Option (NodeState C) :=
  match load dir addr with
  | .ok st =>
    match st.maybeRestoreAssumeUtxo params io with
    | .ok st => some st
    | _ => none
  | _ => none

end NodeState
end DogecoinCore
