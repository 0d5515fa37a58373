import DogecoinCore.Snapshot
import Mathlib.Data.List.AList

/-! Block download in net_processing.cpp: which blocks are requested from which peer, and the books
kept on the blocks in flight. A routine that ends in an assertion or follows a null pointer or a
dangling iterator has no result. Log lines and the counters of the statistics are left out. -/
namespace DogecoinCore
abbrev NodeId := ℤ

/-- `QueuedBlock`, in the list node `node`, which is what an iterator points to. -/
structure QueuedBlock where
  node : ℕ
  hash : UInt256
  pindex : Option UInt256
  fValidatedHeaders : Bool
  partialBlock : Bool
  deriving DecidableEq, Repr

/-- `CNodeState`, as far as block download reads it. -/
structure CNodeState where
  fPreferredDownload : Bool
  fHaveWitness : Bool
  fSupportsDesiredCmpctVersion : Bool
  pindexBestKnownBlock : Option UInt256
  hashLastUnknownBlock : UInt256
  pindexLastCommonBlock : Option UInt256
  nStallingSince : ℤ
  nDownloadingSince : ℤ
  vBlocksInFlight : List QueuedBlock
  nBlocksInFlight : ℤ
  nBlocksInFlightValidHeaders : ℤ
  deriving DecidableEq, Repr

/-- The constructor of `CNodeState`. -/
def CNodeState.new : CNodeState where
  fPreferredDownload := false
  fHaveWitness := false
  fSupportsDesiredCmpctVersion := false
  pindexBestKnownBlock := none
  hashLastUnknownBlock := 0
  pindexLastCommonBlock := none
  nStallingSince := 0
  nDownloadingSince := 0
  vBlocksInFlight := []
  nBlocksInFlight := 0
  nBlocksInFlightValidHeaders := 0

/-- The variables guarded by `cs_main` that block download uses. -/
structure NetProcessing where
  mapNodeState : AList fun _ : NodeId => CNodeState
  mapBlocksInFlight : AList fun _ : UInt256 => NodeId × ℕ
  nPreferredDownload : ℤ
  nPeersWithValidatedDownloads : ℤ
  /-- The announcements `g_txrequest` keeps, each by its peer. -/
  txrequest : List (NodeId × UInt256)
  /-- The list node allocated next. -/
  nextNode : ℕ

namespace NetProcessing
def new : NetProcessing := ⟨∅, ∅, 0, 0, [], 0⟩

def state (s : NetProcessing) (pnode : NodeId) : Option CNodeState := s.mapNodeState.lookup pnode

def setState (s : NetProcessing) (pnode : NodeId) (st : CNodeState) : NetProcessing :=
  { s with mapNodeState := s.mapNodeState.insert pnode st }

/-- `mapBlocksInFlight.count`. -/
def inFlight (s : NetProcessing) (hash : UInt256) : Bool := (s.mapBlocksInFlight.lookup hash).isSome

/-- `UpdatePreferredDownload`, for a peer that now is or is not preferred. -/
def updatePreferredDownload (s : NetProcessing) (pnode : NodeId) (preferred : Bool) :
    Option NetProcessing := do
  let st ← s.state pnode
  let nPreferredDownload := s.nPreferredDownload - st.fPreferredDownload.toNat + preferred.toNat
  some { s.setState pnode { st with fPreferredDownload := preferred } with
    nPreferredDownload := nPreferredDownload }

def initializeNode (s : NetProcessing) (nodeid : NodeId) : Option NetProcessing :=
  let s := if nodeid ∈ s.mapNodeState then s else s.setState nodeid .new
  if s.txrequest.any (·.1 = nodeid) then none else some s

def finalizeNode (s : NetProcessing) (nodeid : NodeId) : Option NetProcessing := do
  let st ← s.state nodeid
  let s' : NetProcessing := { s with
    mapNodeState := s.mapNodeState.erase nodeid
    mapBlocksInFlight := st.vBlocksInFlight.foldl (fun m entry => m.erase entry.hash) s.mapBlocksInFlight
    txrequest := s.txrequest.filter (·.1 ≠ nodeid)
    nPreferredDownload := s.nPreferredDownload - st.fPreferredDownload.toNat
    nPeersWithValidatedDownloads :=
      s.nPeersWithValidatedDownloads - if st.nBlocksInFlightValidHeaders ≠ 0 then 1 else 0 }
  if s'.nPeersWithValidatedDownloads < 0 then none
  else if s'.mapNodeState.entries = [] ∧ ¬ (s'.mapBlocksInFlight.entries = [] ∧
      s'.nPreferredDownload = 0 ∧ s'.nPeersWithValidatedDownloads = 0 ∧ s'.txrequest = []) then none
  else some s'

/-- A peer's state once the block in one of its list nodes is not expected from it any more. -/
def takeOff (now : ℤ) (st : CNodeState) (entry : QueuedBlock) : CNodeState :=
  { st with
    nBlocksInFlightValidHeaders := st.nBlocksInFlightValidHeaders - entry.fValidatedHeaders.toNat
    nDownloadingSince :=
      if st.vBlocksInFlight.head?.map (·.node) = some entry.node then max st.nDownloadingSince now
      else st.nDownloadingSince
    vBlocksInFlight := st.vBlocksInFlight.filter (·.node ≠ entry.node)
    nBlocksInFlight := st.nBlocksInFlight - 1
    nStallingSince := 0 }

/-- The body of `MarkBlockAsReceived`. -/
def removeInFlight (now : ℤ) (s : NetProcessing) (peer : NodeId) (st : CNodeState) (entry : QueuedBlock)
    (hash : UInt256) : NetProcessing :=
  { s.setState peer (takeOff now st entry) with
    mapBlocksInFlight := s.mapBlocksInFlight.erase hash
    nPeersWithValidatedDownloads := s.nPeersWithValidatedDownloads -
      if (takeOff now st entry).nBlocksInFlightValidHeaders = 0 ∧ entry.fValidatedHeaders then 1 else 0 }

def markBlockAsReceived (now : ℤ) (s : NetProcessing) (hash : UInt256) :
    Option (NetProcessing × Bool) :=
  match s.mapBlocksInFlight.lookup hash with
  | none => some (s, false)
  | some (peer, it) => do
    let st ← s.state peer
    let entry ← st.vBlocksInFlight.find? (·.node = it)
    some (s.removeInFlight now peer st entry hash, true)

def putOn (now : ℤ) (st : CNodeState) (it : QueuedBlock) : CNodeState :=
  { st with
    vBlocksInFlight := st.vBlocksInFlight ++ [it]
    nBlocksInFlight := st.nBlocksInFlight + 1
    nBlocksInFlightValidHeaders := st.nBlocksInFlightValidHeaders + it.fValidatedHeaders.toNat
    nDownloadingSince := if st.nBlocksInFlight + 1 = 1 then now else st.nDownloadingSince }

/-- The end of `MarkBlockAsInFlight`. -/
def enterInFlight (now : ℤ) (s : NetProcessing) (nodeid : NodeId) (st : CNodeState) (hash : UInt256)
    (pindex : Option UInt256) (pit : Bool) : NetProcessing :=
  let st' := putOn now st ⟨s.nextNode, hash, pindex, pindex.isSome, pit⟩
  { s.setState nodeid st' with
    mapBlocksInFlight := s.mapBlocksInFlight.insert hash (nodeid, s.nextNode)
    nPeersWithValidatedDownloads := s.nPeersWithValidatedDownloads +
      if st'.nBlocksInFlightValidHeaders = 1 ∧ pindex ≠ none then 1 else 0
    nextNode := s.nextNode + 1 }

/-- `pit` says whether the caller passed one. -/
def markBlockAsInFlight (now : ℤ) (s : NetProcessing) (nodeid : NodeId) (hash : UInt256)
    (pindex : Option UInt256) (pit : Bool) : Option (NetProcessing × Bool) := do
  let _ ← s.state nodeid
  if (s.mapBlocksInFlight.lookup hash).map (·.1) = some nodeid then
    -- `*pit` is written without looking at `pit`
    if pit then some (s, false) else none
  else
    let (s, _) ← s.markBlockAsReceived now hash
    let st ← s.state nodeid
    some (s.enterInFlight now nodeid st hash pindex pit, true)

end NetProcessing

section Peer
variable {C : Type}

def processBlockAvailability (chain : ChainState C) (st : CNodeState) : CNodeState :=
  let old := st.hashLastUnknownBlock
  if old ≠ 0 ∧ old ∈ chain.tree.blocks ∧ 0 < chain.tree.nChainWork old then
    { st with
      pindexBestKnownBlock :=
        match st.pindexBestKnownBlock with
        | none => some old
        | some best =>
          if chain.tree.nChainWork best ≤ chain.tree.nChainWork old then some old else some best
      hashLastUnknownBlock := 0 }
  else st

def updateBlockAvailability (chain : ChainState C) (st : CNodeState) (hash : UInt256) : CNodeState :=
  let st := processBlockAvailability chain st
  if hash ∈ chain.tree.blocks ∧ 0 < chain.tree.nChainWork hash then
    { st with
      pindexBestKnownBlock :=
        match st.pindexBestKnownBlock with
        | none => some hash
        | some best =>
          if chain.tree.nChainWork best ≤ chain.tree.nChainWork hash then some hash else some best }
  else { st with hashLastUnknownBlock := hash }

/-- The loop of `LastCommonAncestor`, for blocks of one height. -/
def meetingPoint (t : HeaderTree) : (fuel : ℕ) → (pa pb : UInt256) → Option UInt256
  | 0, pa, pb => if pa = pb then some pa else none
  | fuel + 1, pa, pb =>
    if pa = pb then some pa
    else (t.parent pa).bind fun pa => (t.parent pb).bind fun pb => meetingPoint t fuel pa pb

def lastCommonAncestor (t : HeaderTree) (pa pb : UInt256) : Option UInt256 :=
  let height := min (t.height pa) (t.height pb)
  (t.ancestorAt pa height).bind fun pa => (t.ancestorAt pb height).bind fun pb =>
    meetingPoint t height pa pb

end Peer

/-- What `FindNextBlocksToDownload` changes on its way. -/
structure FetchWalk where
  vBlocks : List UInt256
  pindexLastCommonBlock : UInt256
  waitingfor : NodeId
  nodeStaller : NodeId
  deriving DecidableEq

/-- What the walk of `FindNextBlocksToDownload` reads: the chain, the blocks in flight, the peer,
and its own limits. -/
structure FetchWindow (C : Type) where
  chain : ChainState C
  net : NetProcessing
  nodeid : NodeId
  fHaveWitness : Bool
  /-- `IsWitnessEnabled` at the parent of a block. -/
  isWitnessEnabled : UInt256 → Bool
  pindexBestKnownBlock : UInt256
  nWindowEnd : ℕ
  nMaxHeight : ℕ
  count : ℕ

namespace FetchWindow
variable {C : Type} (f : FetchWindow C)

/-- The turn of the inner loop; a `return` ends the walk. -/
def visit (pindex : UInt256) (w : FetchWalk) : Turn FetchWalk FetchWalk :=
  let data := f.chain.data pindex
  if !data.isValid .tree then .leave w
  else if !f.fHaveWitness && f.isWitnessEnabled pindex then .leave w
  else if data.haveData || f.chain.contains pindex then
    .again (if data.nChainTx ≠ 0 then { w with pindexLastCommonBlock := pindex } else w)
  else
    match f.net.mapBlocksInFlight.lookup pindex with
    | none =>
      if f.nWindowEnd < f.chain.tree.height pindex then
        .leave (if w.vBlocks.length = 0 ∧ w.waitingfor ≠ f.nodeid then
          { w with nodeStaller := w.waitingfor } else w)
      else
        let w := { w with vBlocks := w.vBlocks ++ [pindex] }
        if w.vBlocks.length = f.count then .leave w else .again w
    | some (peer, _) => .again (if w.waitingfor = -1 then { w with waitingfor := peer } else w)

def visitAll : List UInt256 → FetchWalk → Turn FetchWalk FetchWalk
  | [], w => .again w
  | pindex :: vToFetch, w => (f.visit pindex w).andThen (visitAll vToFetch)

/-- `max<int>(count - vBlocks.size(), 128)` as the difference comes out of `size_t`. -/
def chunk (w : FetchWalk) : ℕ :=
  max (Int32.ofInt ((f.count : ℤ) - (w.vBlocks.length : ℤ))).toInt.toNat 128

/-- The outer loop, from a block `remaining` levels below `nMaxHeight`. Each turn reads at least one
block, so that as many turns are enough. -/
def walk : (fuel remaining : ℕ) → FetchWalk → FetchWalk
  | 0, _, w => w
  | fuel + 1, remaining, w =>
    if remaining = 0 then w
    else
      let nToFetch := min remaining (f.chunk w)
      let pindexWalk := f.chain.tree.ancestorAt f.pindexBestKnownBlock
        (f.nMaxHeight - remaining + nToFetch)
      let vToFetch := pindexWalk.elim [] fun b => (f.chain.tree.down nToFetch b).reverse
      match f.visitAll vToFetch w with
      | .leave w => w
      | .again w => walk fuel (remaining - nToFetch) w

end FetchWindow

def blockDownloadWindow : ℕ := 1024

def maxBlocksInTransitPerPeer (isInitialBlockDownload : Bool) : ℤ :=
  if isInitialBlockDownload then 32 else 16

section Download
variable {C : Type}

/-- The last common block `FindNextBlocksToDownload` starts from. -/
def startOfFetch (chain : ChainState C) (st : CNodeState) (tip best : UInt256) : Option UInt256 :=
  let guess :=
    match st.pindexLastCommonBlock with
    | some common => some common
    | none => chain.tree.ancestorAt tip (min (chain.tree.height best) (chain.tree.height tip))
  guess.bind fun common => lastCommonAncestor chain.tree common best

/-- The walk of `FindNextBlocksToDownload` behind the block `common`. It never looks further than the
best block the peer is known to have, or more than one block behind the end of the window. -/
def fetchWindow (chain : ChainState C) (isWitnessEnabled : UInt256 → Bool) (s : NetProcessing)
    (nodeid : NodeId) (st : CNodeState) (best common : UInt256) (count : ℕ) : FetchWindow C where
  chain := chain
  net := s
  nodeid := nodeid
  fHaveWitness := st.fHaveWitness
  isWitnessEnabled := isWitnessEnabled
  pindexBestKnownBlock := best
  nWindowEnd := chain.tree.height common + blockDownloadWindow
  nMaxHeight := min (chain.tree.height best) (chain.tree.height common + blockDownloadWindow + 1)
  count := count

def findNextBlocksToDownload (chain : ChainState C) (isWitnessEnabled : UInt256 → Bool)
    (s : NetProcessing) (nodeid : NodeId) (count : ℕ) (vBlocks : List UInt256) (nodeStaller : NodeId) :
    Option (NetProcessing × List UInt256 × NodeId) :=
  if count = 0 then some (s, vBlocks, nodeStaller)
  else do
    let st ← s.state nodeid
    let st := processBlockAvailability chain st
    match st.pindexBestKnownBlock with
    | none => some (s.setState nodeid st, vBlocks, nodeStaller)
    | some best =>
      let tip ← chain.chainActive
      if chain.tree.nChainWork best < chain.tree.nChainWork tip then
        some (s.setState nodeid st, vBlocks, nodeStaller)
      else
        let common ← startOfFetch chain st tip best
        if common = best then
          some (s.setState nodeid { st with pindexLastCommonBlock := some common }, vBlocks, nodeStaller)
        else
          let f := fetchWindow chain isWitnessEnabled s nodeid st best common count
          let remaining := f.nMaxHeight - chain.tree.height common
          let w := f.walk remaining remaining ⟨vBlocks, common, -1, nodeStaller⟩
          some (s.setState nodeid { st with pindexLastCommonBlock := some w.pindexLastCommonBlock },
            w.vBlocks, w.nodeStaller)

/-- `GetBackgroundValidationMissingBlocks`, its loop over the heights of the base's chain. -/
def missingFrom (chain : ChainState C) (target : UInt256) (max_count : ℕ) :
    (heights : List ℕ) → (out : List UInt256) → List UInt256
  | [], out => out
  | h :: heights, out =>
    if out.length < max_count then
      match chain.tree.ancestorAt target h with
      | none => out
      | some pindex =>
        missingFrom chain target max_count heights
          (if (chain.data pindex).haveData then out else out ++ [pindex])
    else out

def getBackgroundValidationMissingBlocks (st : NodeState C) (max_count : ℕ) : List UInt256 :=
  if max_count = 0 ∨ st.chain.snapshotActive = false then []
  else if st.bgStatus ≠ .running ∧ st.bgStatus ≠ .waitingBlocks then []
  else if st.snapshotBaseHash = 0 ∨ st.snapshotBaseHash ∉ st.chain.tree.blocks then []
  else
    let start := (st.bgHeight + 1).toNat
    missingFrom st.chain st.snapshotBaseHash max_count
      (List.range' start (st.chain.tree.height st.snapshotBaseHash + 1 - start)) []

/-- What `SendMessages` knows about the peer and the time. -/
structure SendContext where
  pto : NodeId
  fClient : Bool
  fOneShot : Bool
  isInitialBlockDownload : Bool
  /-- `-ibdrescue`. -/
  ibdRescue : Bool
  isWitnessEnabled : UInt256 → Bool
  nNow : ℤ

namespace NetProcessing
def preferredDownloadersNeedRescue (s : NetProcessing) (ibdRescue isInitialBlockDownload : Bool) : Bool :=
  let preferred := s.mapNodeState.entries.filter (·.2.fPreferredDownload)
  ibdRescue && decide (0 < s.nPreferredDownload) && (preferred.any (·.2.nStallingSince ≠ 0) ||
      (!preferred.any (fun e => e.2.nBlocksInFlight < maxBlocksInTransitPerPeer isInitialBlockDownload) &&
        !s.mapBlocksInFlight.entries.isEmpty))

def canDownloadBlocks (s : NetProcessing) (c : SendContext) (st : CNodeState) : Bool :=
  let fFetch := st.fPreferredDownload || (s.nPreferredDownload = 0 && !c.fClient && !c.fOneShot)
  fFetch || !c.isInitialBlockDownload || (!c.fClient && !c.fOneShot &&
      s.preferredDownloadersNeedRescue c.ibdRescue c.isInitialBlockDownload)

/-- The historical blocks that are put into `vToDownload` first. -/
def historicalBlocks (node : NodeState C) (s : NetProcessing) (nSlots : ℕ) : List UInt256 :=
  if node.chain.snapshotActive ∧ (node.bgStatus = .waitingBlocks ∨ node.bgStatus = .running) then
    ((getBackgroundValidationMissingBlocks node nSlots).filter fun b => !s.inFlight b).take nSlots
  else []

/-- Request a list of blocks from a peer, without a `pit`. -/
def requestBlocks (now : ℤ) (nodeid : NodeId) : NetProcessing → List UInt256 → Option NetProcessing
  | s, [] => some s
  | s, pindex :: vToDownload => do
    let (s, _) ← s.markBlockAsInFlight now nodeid pindex (some pindex) false
    requestBlocks now nodeid s vToDownload

def noteStaller (now : ℤ) (s : NetProcessing) (nodeid staller : NodeId) : Option NetProcessing := do
  let st ← s.state nodeid
  if st.nBlocksInFlight = 0 ∧ staller ≠ -1 then
    let other ← s.state staller
    some (if other.nStallingSince = 0 then s.setState staller { other with nStallingSince := now } else s)
  else some s

/-- The block download section of `SendMessages`, with the blocks it puts into `vGetData`. -/
def sendGetData (node : NodeState C) (c : SendContext) (s : NetProcessing) :
    Option (NetProcessing × List UInt256) := do
  let st ← s.state c.pto
  let nMaxInTransit := maxBlocksInTransitPerPeer c.isInitialBlockDownload
  if !c.fClient && s.canDownloadBlocks c st && st.nBlocksInFlight < nMaxInTransit then
    let nSlots := (nMaxInTransit - st.nBlocksInFlight).toNat
    let historical := s.historicalBlocks node nSlots
    let (s, vToDownload, staller) ←
      if historical.length < nSlots then
        findNextBlocksToDownload node.chain c.isWitnessEnabled s c.pto (nSlots - historical.length)
          historical (-1)
      else some (s, historical, -1)
    let s ← requestBlocks c.nNow c.pto s vToDownload
    let s ← s.noteStaller c.nNow c.pto staller
    some (s, vToDownload)
  else some (s, [])

/-- What the handlers of `headers` and `cmpctblock` know about the sender and the time. -/
structure MessageContext where
  pfrom : NodeId
  fCanDirectFetch : Bool
  isInitialBlockDownload : Bool
  isWitnessEnabled : UInt256 → Bool
  now : ℤ

/-- The walk of the `headers` handler from the last header to the active chain: the blocks to fetch,
the last of them first, and where the walk ends. -/
def directFetchWalk (chain : ChainState C) (s : NetProcessing) (c : MessageContext) (st : CNodeState) :
    (fuel : ℕ) → (pindexWalk : Option UInt256) → (vToFetch : List UInt256) →
      List UInt256 × Option UInt256
  | 0, pindexWalk, vToFetch => (vToFetch, pindexWalk)
  | _ + 1, none, vToFetch => (vToFetch, none)
  | fuel + 1, some pindex, vToFetch =>
    if !chain.contains pindex && (vToFetch.length : ℤ) ≤
        maxBlocksInTransitPerPeer c.isInitialBlockDownload then
      let wanted := !(chain.data pindex).haveData && !s.inFlight pindex &&
        (!c.isWitnessEnabled pindex || st.fHaveWitness)
      directFetchWalk chain s c st fuel (chain.tree.parent pindex)
        (if wanted then vToFetch ++ [pindex] else vToFetch)
    else (vToFetch, some pindex)

def requestWithin (nMaxInTransit now : ℤ) (nodeid : NodeId) :
    NetProcessing → List UInt256 → Option NetProcessing
  | s, [] => some s
  | s, pindex :: vToFetch => do
    let st ← s.state nodeid
    if nMaxInTransit ≤ st.nBlocksInFlight then some s
    else
      let (s, _) ← s.markBlockAsInFlight now nodeid pindex (some pindex) false
      requestWithin nMaxInTransit now nodeid s vToFetch

/-- The direct fetch of the `headers` handler, up to the header `pindexLast`. -/
def directFetch (chain : ChainState C) (c : MessageContext) (s : NetProcessing) (pindexLast : UInt256) :
    Option NetProcessing := do
  let st ← s.state c.pfrom
  let st := updateBlockAvailability chain st pindexLast
  let s := s.setState c.pfrom st
  let tip ← chain.chainActive
  if c.fCanDirectFetch && (chain.data pindexLast).isValid .tree &&
      chain.tree.nChainWork tip ≤ chain.tree.nChainWork pindexLast then
    let (vToFetch, pindexWalk) :=
      directFetchWalk chain s c st (chain.tree.height pindexLast + 2) (some pindexLast) []
    -- `Contains` follows the pointer
    let pindexWalk ← pindexWalk
    if chain.contains pindexWalk then
      requestWithin (maxBlocksInTransitPerPeer c.isInitialBlockDownload) c.now c.pfrom s vToFetch.reverse
    else some s
  else some s

/-- Give the block in a peer's list node a `partialBlock`. -/
def startPartial (st : CNodeState) (it : ℕ) : CNodeState :=
  { st with vBlocksInFlight := st.vBlocksInFlight.map fun entry =>
      if entry.node = it then { entry with partialBlock := true } else entry }

/-- The `cmpctblock` handler, as far as it touches the blocks in flight. `initInvalid` says whether
`InitData` returns `READ_STATUS_INVALID`. -/
def cmpctBlock (chain : ChainState C) (c : MessageContext) (initInvalid : Bool) (s : NetProcessing)
    (pindex : UInt256) : Option NetProcessing := do
  let st ← s.state c.pfrom
  let st := updateBlockAvailability chain st pindex
  let s := s.setState c.pfrom st
  let blockInFlightIt := s.mapBlocksInFlight.lookup pindex
  let fAlreadyInFlight := blockInFlightIt.isSome
  if (chain.data pindex).haveData then some s
  else
    let tip ← chain.chainActive
    if chain.tree.nChainWork pindex ≤ chain.tree.nChainWork tip ∨ (chain.data pindex).nTx ≠ 0 then some s
    else if !fAlreadyInFlight && !c.fCanDirectFetch then some s
    else if c.isWitnessEnabled pindex && !st.fSupportsDesiredCmpctVersion then some s
    else if chain.tree.height pindex ≤ chain.tree.height tip + 2 ∧
        ((!fAlreadyInFlight ∧ st.nBlocksInFlight < maxBlocksInTransitPerPeer c.isInitialBlockDownload) ∨
          blockInFlightIt.map (·.1) = some c.pfrom) then do
      let (s, fresh) ← s.markBlockAsInFlight c.now c.pfrom pindex (some pindex) true
      -- `*queuedBlockIt` is followed
      let (_, it) ← s.mapBlocksInFlight.lookup pindex
      let st ← s.state c.pfrom
      let entry ← st.vBlocksInFlight.find? (·.node = it)
      if !fresh && entry.partialBlock then some s
      else
        let s := if fresh then s else s.setState c.pfrom (startPartial st it)
        if initInvalid then (s.markBlockAsReceived c.now pindex).map (·.1) else some s
    else some s

end NetProcessing

end Download
end DogecoinCore
