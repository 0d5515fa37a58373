import DogecoinCore.Snapshot

/-! The node as a machine: the operations that reach the chain state from outside,
and the runs they make up from a freshly initialised data directory. -/
namespace DogecoinCore
/-- The index entry of the genesis block once `InitBlockIndex` stored and connected it. -/
def genesisData : BlockData :=
  { BlockData.null with
    nTx := 1, nChainTx := 1, nSequenceId := 1, validity := .transactions, haveData := true }

def genesisTree (hash : UInt256) : HeaderTree :=
  HeaderTree.empty.insert { hash := hash, hashPrevBlock := 0, proof := 1, proof_pos := Nat.one_pos }
    (by simp [HeaderTree.empty])

/-- The chain state after first start-up: the genesis block is connected and flushed. -/
def ChainState.genesis {C : Type} (rules : Consensus C) (coins : C) (addr : UInt256 ↪ ℕ) :
    ChainState C :=
  let hash := rules.hashGenesisBlock
  let data := Function.update (fun _ => BlockData.null) hash genesisData
  let view := { hashBlock := some hash, coins := coins }
  { tree := genesisTree hash
    data := data
    addr := addr
    chainActive := some hash
    setBlockIndexCandidates := [hash]
    mapBlocksUnlinked := []
    nBlockSequenceId := 2
    nBlockReverseSequenceId := -1
    nLastPreciousChainwork := 0
    gFailedBlocks := []
    setDirtyBlockIndex := []
    pcoinsTip := { db := view, view := view }
    snapshotActive := false
    blocktree := { tree := genesisTree hash, data := data, nLastBlockFile := 0 }
    files := { nLastBlockFile := 0, unsyncedBlk := [], unsyncedRev := [] } }

def NodeState.genesis {C : Type} (params : Params C) (coins : C) (addr : UInt256 ↪ ℕ) :
    NodeState C :=
  let chain := ChainState.genesis params.toConsensus coins addr
  { chain := chain
    background := .idle
    parkedCoins := chain.pcoinsTip
    bgStatus := .none
    bgHeight := -1
    bgTargetHeight := -1
    assumeutxoValidated := false
    assumeutxoFailed := false
    expectedCoinsHash := 0
    snapshotBaseHash := 0
    snapshotCoinsCount := 0
    stateFile := none
    snapshotDir := none }

/-- The operations on a node. `fuel` bounds the turns of `ActivateBestChain`, and `addr` is where
the next process allocates its index entries. -/
inductive Event (C : Type) where
  | header (block : CBlockHeader)
  | block (io : AcceptIo) (block : CBlock)
  | activateBestChain (io : SnapshotIo) (fuel : ℕ)
  | invalidateBlock (io : ChainIo) (pindex : UInt256)
  | resetBlockFailureFlags (pindex : UInt256)
  | preciousBlock (io : SnapshotIo) (fuel : ℕ) (pindex : UInt256)
  | flush (mode : FlushStateMode) (io : FlushIo)
  | loadSnapshot (io : SnapshotIo) (file : SnapshotFile C)
  | activateSnapshot (io : SnapshotIo)
  | stepBackground (io : SnapshotIo) (maxBlocks : ℕ)
  | restart (io : SnapshotIo) (addr : UInt256 ↪ ℕ)
  | crash (io : SnapshotIo) (addr : UInt256 ↪ ℕ)

namespace NodeState
variable {C : Type}

/-- The completed operations of a node. A refused header, block or snapshot leaves the node
running; a failed write, a failed assertion, a loop still going after `fuel` turns and a failed
start-up do not, and none is the result. -/
def apply (params : Params C) (st : NodeState C) : Event C → Option (NodeState C)
  | .header block =>
    match st.chain.acceptBlockHeader params.toConsensus block with
    | .ok chain | .fail chain => some { st with chain := chain }
    | .abort => none
  | .block io block =>
    match st.chain.acceptBlock params.toConsensus io block with
    | .ok chain | .fail chain => some { st with chain := chain }
    | .abort => none
  | .activateBestChain io fuel =>
    match st.activateBestChain params io fuel with
    | some (.ok st) => some st
    | _ => none
  | .invalidateBlock io pindex =>
    if pindex ∈ st.chain.tree.blocks then
      match st.chain.invalidateBlock params.toConsensus io pindex with
      | .ok chain => some { st with chain := chain }
      | _ => none
    else some st
  | .resetBlockFailureFlags pindex =>
    if pindex ∈ st.chain.tree.blocks then
      some { st with chain := st.chain.resetBlockFailureFlags pindex }
    else some st
  | .preciousBlock io fuel pindex =>
    if pindex ∈ st.chain.tree.blocks then
      match st.chain.preciousBlock pindex with
      | .ok none => some st
      | .ok (some chain) =>
        match { st with chain := chain }.activateBestChain params io fuel with
        | some (.ok st) => some st
        | _ => none
      | _ => none
    else some st
  | .flush mode io =>
    match st.chain.flushStateToDisk mode io with
    | .ok chain => some { st with chain := chain }
    | _ => none
  | .loadSnapshot io file =>
    match st.loadUTXOSnapshot params io file with
    | .ok st => some st
    | .fail (st, _) => some st
    | .abort => none
  | .activateSnapshot io =>
    match st.activateLoadedSnapshot params io with
    | .ok st => some st
    | .fail (st, _) => some st
    | .abort => none
  | .stepBackground io maxBlocks => some (st.stepBackgroundValidation params io maxBlocks).1
  | .restart io addr => startup params io (st.shutdown io) addr
  | .crash io addr => startup params io st.datadir addr

def run (params : Params C) : List (Event C) → NodeState C → Option (NodeState C)
  | [], st => some st
  | event :: events, st => (st.apply params event).bind (run params events)

end NodeState

/-- Rules that accept every block and keep no coins: enough to exhibit a run. -/
def Params.permissive : Params Unit where
  hashGenesisBlock := 1
  connect _ _ := some ()
  leftover _ _ := ()
  disconnect _ _ := some ()
  disconnect_iff := by simp
  hashSerialized view := view.hashBlock.getD 0 + 1
  fAssumeUtxoDev := true
  assumeutxoForHeight _ := none

def CBlockHeader.child (hash parent : UInt256) : CBlockHeader where
  hash := hash
  hashPrevBlock := parent
  proof := 1
  proof_pos := Nat.one_pos

def CBlock.child (hash parent : UInt256) : CBlock where
  toCBlockHeader := .child hash parent
  nTx := 1
  check := .valid
  nTx_pos _ := Nat.one_pos

def hashOrder : UInt256 ↪ ℕ := ⟨BitVec.toNat, fun _ _ same => BitVec.eq_of_toNat_eq same⟩

def SnapshotFile.of (base : UInt256) : SnapshotFile Unit where
  metadataOk := true
  base_blockhash := base
  coins_count := 1
  coins := ()
  coinsOk := true
  partialDir := { hashBlock := none, coins := () }

end DogecoinCore
