import DogecoinCore.BackgroundRestart
import DogecoinCore.CandidateSet

/-! The candidate set and the failure flags over whole runs of a node. Restarts find the chain of the
stored coins in the stored index, and a snapshot may be swapped in where it holds what the node has
already. -/
namespace DogecoinCore
variable {C : Type} {params : Params C} {io : SnapshotIo} {base : C} {addr : UInt256 ↪ ℕ}

namespace ChainState
variable {rules : Consensus C} {b t x : UInt256} {st st' : ChainState C}

/-- Index, flags, databases and candidates of a node between operations. -/
structure Sound (rules : Consensus C) (base : C) (st : ChainState C) : Prop where
  index : Recorded rules st
  flags : Flagged rules st
  durable : Durable rules.hashGenesisBlock st
  faithful : Faithful rules base st
  settled : Settled rules base st

namespace Sound
section
variable (sound : Sound rules base st)
include sound

theorem header (ended : HeaderLeft rules st block st') : Sound rules base st' where
  index := sound.index.header ended
  flags := sound.flags.header sound.index ended
  durable := sound.durable.edited (.header ended)
  faithful := sound.faithful.edited sound.index.toIndexInv (.header ended)
  settled := sound.settled.header sound.index.toIndexInv ended

theorem block {block : CBlock} (ended : BlockLeft rules st block st') : Sound rules base st' where
  index := sound.index.block ended
  flags := sound.flags.block sound.index ended
  durable := sound.durable.edited (.block ended)
  faithful := sound.faithful.edited sound.index.toIndexInv (.block ended)
  settled := sound.settled.block sound.index ended

theorem activateBestChainLoop {io : ChainIo}
    (ran : st.activateBestChainLoop rules io fuel = some (.ok exit)) : Sound rules base exit.st := by
  have steps := bestChainLoop_steps ran
  exact ⟨sound.index.steps steps, sound.flags.steps sound.index steps,
    sound.durable.steps sound.index steps, sound.faithful.steps sound.index steps,
    sound.settled.activateBestChainLoop sound.index sound.flags ran⟩

private theorem invalidated_ne {io : ChainIo}
    (ran : st.invalidateBlock rules io b = .ok st') : b ≠ rules.hashGenesisBlock := by
  rintro rfl
  obtain ⟨_, found, -⟩ := sound.settled.tip
  obtain ⟨_, tip, _, bound, past, -, -⟩ := invalidate_ok ran
  have anchored := Settled.disconnectPast_anchored
    (sound.settled.anchored sound.index.toIndexInv found) sound.faithful.genesis past
  exact disconnectPast_off bound past anchored.contains_anchor

theorem invalidateBlock {io : ChainIo}
    (ran : st.invalidateBlock rules io b = .ok st') : Sound rules base st' where
  index := sound.index.invalidateBlock ran
  flags := sound.flags.invalidateBlock sound.index (sound.invalidated_ne ran) ran
  durable := sound.durable.invalidateBlock sound.index ran
  faithful := sound.faithful.invalidateBlock sound.index ran
  settled := sound.settled.invalidateBlock sound.index sound.flags sound.faithful.genesis ran

theorem resetBlockFailureFlags (mem : b ∈ st.tree.blocks)
    (clean : Flagged.CleanBelow st b) : Sound rules base (st.resetBlockFailureFlags b) where
  index := sound.index.resetBlockFailureFlags mem
  flags := sound.flags.resetBlockFailureFlags mem clean
  durable := sound.durable.edited (.resetBlockFailureFlags mem)
  faithful := sound.faithful.edited sound.index.toIndexInv (.resetBlockFailureFlags mem)
  settled := sound.settled.resetBlockFailureFlags sound.index.toIndexInv mem clean

theorem preciousBlock
    (mild : st.chainActive = some b → st.preciousSequenceId b ≤ (st.data b).nSequenceId)
    (ran : st.preciousBlock b = .ok (some st')) : Sound rules base st' where
  index := sound.index.preciousBlock ran
  flags := sound.flags.preciousBlock ran
  durable := sound.durable.edited (.preciousBlock ran)
  faithful := sound.faithful.edited sound.index.toIndexInv (.preciousBlock ran)
  settled := sound.settled.preciousBlock sound.index.toIndexInv mild ran

theorem flushed (wrote : Flushed st st') : Sound rules base st' where
  index := sound.index.flushed wrote
  flags := sound.flags.flushed sound.index wrote
  durable := sound.durable.flushed sound.index wrote
  faithful := sound.faithful.flushed sound.index wrote
  settled := sound.settled.flushed wrote

theorem snapshot (active : Bool) : Sound rules base { st with snapshotActive := active } where
  index := sound.index.of_data rfl rfl rfl rfl rfl rfl
  flags := sound.flags.of_same rfl rfl fun _ => ⟨rfl, rfl⟩
  durable := ⟨sound.durable.memory, sound.durable.disk⟩
  faithful := ⟨sound.faithful.memory, sound.faithful.disk, sound.faithful.genesis⟩
  settled := sound.settled.of_data rfl rfl rfl rfl rfl rfl

end

end Sound

private theorem flushState_disk {io : FlushIo}
    (ended : st.flushStateToDisk mode io = .ok st' ∨ st.flushStateToDisk mode io = .fail st') :
    ∃ mid, Flushed st mid ∧ st'.blocktree = mid.blocktree ∧
      st'.pcoinsTip.db = mid.pcoinsTip.db := by
  rcases ended with done | failed
  · exact ⟨st', flushState_ok done, rfl, rfl⟩
  cases written : io.writeBatchSync with
  | true =>
    cases flushState_fail written failed with
    | space => exact ⟨_, .skip, rfl, rfl⟩
    | index | coins => exact ⟨_, .index, rfl, rfl⟩
  | false =>
    refine ⟨st, .skip, ?_⟩
    simp only [flushStateToDisk, written] at failed
    split at failed
    · split at failed
      · cases failed
        exact ⟨rfl, rfl⟩
      · cases failed
        exact ⟨rfl, rfl⟩
    · cases failed

end ChainState

open ChainState Moved CCoinsViewCache Option List NodeState

structure Datadir.Sound (rules : Consensus C) (base : C) (dir : Datadir C) : Prop where
  stored : Stored rules dir.blocktree.tree dir.blocktree.data
  rooted : Rooted dir.blocktree.tree dir.blocktree.data
  genesis_clean : (dir.blocktree.data rules.hashGenesisBlock).failed = false
  genesis : (dir.blocktree.data rules.hashGenesisBlock).haveUndo = false
  applied : Applied rules.hashGenesisBlock dir.blocktree.tree dir.blocktree.data
    dir.chainstate.hashBlock
  replays : Replays rules base dir.blocktree.tree dir.chainstate

variable {rules : Consensus C} {chain : ChainState C} {dir : Datadir C}

theorem Datadir.Sound.of_chain
    (sound : ChainState.Sound rules base chain) (blocktree : dir.blocktree = chain.blocktree)
    (applied : Applied rules.hashGenesisBlock chain.blocktree.tree chain.blocktree.data
      dir.chainstate.hashBlock)
    (replays : Replays rules base chain.blocktree.tree dir.chainstate) : dir.Sound rules base := by
  have disk := sound.index.disk
  refine ⟨blocktree ▸ disk.stored, blocktree ▸ sound.flags.disk, blocktree ▸ sound.flags.genesis_disk,
    ?_, blocktree ▸ applied, blocktree ▸ replays⟩
  rw [Bool.eq_false_iff, blocktree]
  intro undo
  have held := disk.haveUndo _ disk.stored.genesis_known undo
  rw [sound.faithful.genesis] at held
  cases held

def Datadir.Unflagged (dir : Datadir C) : Prop :=
  ∀ t x, dir.chainstate.hashBlock = some t → dir.blocktree.tree.Le x t →
    (dir.blocktree.data x).failed = false

/-- What a new process finds: no flag on the chain of the IBD coins, and no snapshot but one that
holds the very coins of the IBD chainstate. -/
structure Datadir.Clean (dir : Datadir C) : Prop where
  flags : dir.Unflagged
  snapshot : ∀ saved coins, dir.stateFile = some saved → dir.chainstateSnapshot = some coins →
    coins = dir.chainstate

theorem Datadir.Sound.loaded (sound : dir.Sound rules base) (clean : dir.Clean)
    (loaded : Loaded dir.blocktree dir.chainstate addr chain) : ChainState.Sound rules base chain where
  index := loaded.recorded sound.stored
  flags := .loaded loaded sound.stored sound.rooted sound.genesis_clean
  durable := .loaded loaded sound.applied
  faithful := .loaded loaded sound.replays sound.genesis
  settled := .loaded loaded sound.stored sound.replays sound.applied clean.flags

namespace NodeState
variable {st st' : NodeState C}

inductive Ran (params : Params C) (st : NodeState C) : Event C → NodeState C → Prop
  | idle {event : Event C} : Ran params st event st
  | header {block : CBlockHeader} {chain : ChainState C} :
      HeaderOutcome params.toConsensus st.chain block (.ok chain) ∨
        HeaderOutcome params.toConsensus st.chain block (.fail chain) → st.chain.Moved chain →
      Ran params st (.header block) { st with chain := chain }
  | block {io : AcceptIo} {block : CBlock} {chain : ChainState C} :
      BlockOutcome params.toConsensus st.chain block (.ok chain) ∨
        BlockOutcome params.toConsensus st.chain block (.fail chain) → st.chain.Moved chain →
      Ran params st (.block io block) { st with chain := chain }
  | activated {io : SnapshotIo} {fuel : ℕ} {st' : NodeState C} :
      st.activateBestChain params io fuel = some (.ok st') →
      Ran params st (.activateBestChain io fuel) st'
  | invalidated {io : ChainIo} {b : UInt256} {chain : ChainState C} :
      st.chain.invalidateBlock params.toConsensus io b = .ok chain →
      Ran params st (.invalidateBlock io b) { st with chain := chain }
  | reset {b : UInt256} : b ∈ st.chain.tree.blocks → Ran params st (.resetBlockFailureFlags b)
        { st with chain := st.chain.resetBlockFailureFlags b }
  | precious {io : SnapshotIo} {fuel : ℕ} {b : UInt256} {chain : ChainState C} {st' : NodeState C} :
      st.chain.preciousBlock b = .ok (some chain) →
      { st with chain := chain }.activateBestChain params io fuel = some (.ok st') →
      Ran params st (.preciousBlock io fuel b) st'
  | flushed {mode : FlushStateMode} {io : FlushIo} {chain : ChainState C} :
      Flushed st.chain chain → Ran params st (.flush mode io) { st with chain := chain }
  | loaded {io : SnapshotIo} {file : SnapshotFile C} {e : SnapshotError} {st' : NodeState C} :
      st.loadUTXOSnapshot params io file = .ok st' ∨
        st.loadUTXOSnapshot params io file = .fail (st', e) →
      Ran params st (.loadSnapshot io file) st'
  | swapped {io : SnapshotIo} {st' : NodeState C} : st.activateLoadedSnapshot params io = .ok st' →
      Ran params st (.activateSnapshot io) st'
  | background {io : SnapshotIo} {n : ℕ} :
      Ran params st (.stepBackground io n) (st.stepBackgroundValidation params io n).1
  | restarted {io : SnapshotIo} {addr : UInt256 ↪ ℕ} {st' : NodeState C} :
      startup params io (st.shutdown io) addr = some st' → Ran params st (.restart io addr) st'
  | crashed {io : SnapshotIo} {addr : UInt256 ↪ ℕ} {st' : NodeState C} :
      startup params io st.datadir addr = some st' → Ran params st (.crash io addr) st'

/-- **What a completed operation can have been.** -/
theorem apply_ran (index : IndexInv params.toConsensus st.chain)
    (ran : st.apply params event = some st') : Ran params st event st' := by
  cases event with
  | header block =>
    obtain ⟨chain, rfl, accepted⟩ := apply_header ran
    have outcome := acceptHeader_outcome block index.genesis_known
    refine .header ?_ ((Moved.acceptBlockHeader _ st.chain block).moved accepted)
    rcases accepted with passed | refused
    · exact .inl (passed ▸ outcome)
    · exact .inr (refused ▸ outcome)
  | block io block =>
    obtain ⟨chain, rfl, accepted⟩ := apply_block ran
    have outcome := acceptBlock_outcome io block index
    refine .block ?_ ((Moved.acceptBlock _ io st.chain block).moved accepted)
    rcases accepted with passed | refused
    · exact .inl (passed ▸ outcome)
    · exact .inr (refused ▸ outcome)
  | activateBestChain io fuel => exact .activated (apply_activateBestChain ran)
  | invalidateBlock io pindex =>
    obtain rfl | ⟨chain, _, done, rfl⟩ := apply_invalidateBlock ran
    · exact .idle
    · exact .invalidated done
  | resetBlockFailureFlags pindex =>
    obtain rfl | ⟨mem, rfl⟩ := apply_resetFlags ran
    · exact .idle
    · exact .reset mem
  | preciousBlock io fuel pindex =>
    obtain rfl | ⟨chain, done, active⟩ := apply_preciousBlock ran
    · exact .idle
    · exact .precious done active
  | flush _ io =>
    obtain ⟨chain, wrote, rfl⟩ := apply_flush ran
    exact .flushed wrote
  | loadSnapshot io _ =>
    obtain ⟨_, ended⟩ := apply_loadSnapshot ran
    exact .loaded ended
  | activateSnapshot io =>
    obtain rfl | done := apply_activateSnapshot ran
    · exact .idle
    · exact .swapped done
  | stepBackground io _ =>
    cases ran
    exact .background
  | restart io addr => exact .restarted ran
  | crash io addr => exact .crashed ran

/-- The parked chainstate of a snapshot that put nothing new in place: its coins are on disk, and
background validation is at its end. -/
structure Parked (rules : Consensus C) (base : C) (st : NodeState C) : Prop where
  view : st.parkedCoins.view = st.parkedCoins.db
  applied : Applied rules.hashGenesisBlock st.chain.blocktree.tree st.chain.blocktree.data
    st.parkedCoins.db.hashBlock
  replays : Replays rules base st.chain.blocktree.tree st.parkedCoins.db
  base_known : st.snapshotBaseHash ∈ st.chain.tree.blocks
  slot : st.background = .idle ∨ ∃ t, st.background = .parked (some t) ∧ t ∈ st.chain.tree.blocks ∧
    st.chain.tree.height st.snapshotBaseHash ≤ st.chain.tree.height t

/-- A node whose chain state is sound, and whose snapshot, if one is loaded, is as it was read. -/
structure Steady (rules : Consensus C) (base : C) (st : NodeState C) : Prop where
  chain : Sound rules base st.chain
  loaded : ∀ coins tip info, st.background = .loaded coins tip info →
    coins.db = coins.view ∧ ∀ t, tip = some t → t = info.baseHash
  parked : st.chain.snapshotActive → Parked rules base st

namespace Steady
variable {rules : Consensus C} {chain : ChainState C}

section
variable (steady : Steady rules base st)
include steady

theorem moved (sound : Sound rules base chain) (tree : st.chain.tree.Extends chain.tree)
    (outlasts : Outlasts st.chain.blocktree chain.blocktree)
    (active : chain.snapshotActive = st.chain.snapshotActive) :
    Steady rules base { st with chain := chain } := by
  refine ⟨sound, steady.loaded, fun on => ?_⟩
  obtain ⟨view, applied, replays, known, slot⟩ := steady.parked (active ▸ on)
  refine ⟨view, applied.outlast outlasts, replays.grow outlasts.tree, tree.blocks _ known, ?_⟩
  refine slot.imp_right ?_
  rintro ⟨t, parked, mem, _⟩
  refine ⟨t, parked, tree.blocks t mem, ?_⟩
  rwa [tree.height _ known, tree.height t mem]

theorem edited (sound : Sound rules base chain) (edited : Edited st.chain chain)
    (active : chain.snapshotActive = st.chain.snapshotActive) :
    Steady rules base { st with chain := chain } :=
  steady.moved sound edited.tree (edited.blocktree ▸ .refl _) active

private theorem of_chain (chain : st'.chain = st.chain) (hash : st'.snapshotBaseHash = st.snapshotBaseHash)
    (parked : st.parkedCoins.view = st.parkedCoins.db →
      st'.parkedCoins.view = st'.parkedCoins.db ∧ st'.parkedCoins.db = st.parkedCoins.db)
    (slot : st'.background = st.background ∨ st'.background = .idle) : Steady rules base st' := by
  refine ⟨chain ▸ steady.chain, fun coins tip info found => ?_, fun on => ?_⟩
  · rcases slot with same | idle
    · exact steady.loaded coins tip info (same.symm.trans found)
    · cases idle.symm.trans found
  have before := steady.parked (chain ▸ on)
  obtain ⟨view, db⟩ := parked before.view
  refine ⟨view, ?_, ?_, ?_, ?_⟩
  · rw [chain, db]
    exact before.applied
  · rw [chain, db]
    exact before.replays
  · rw [chain, hash]
    exact before.base_known
  rw [chain, hash]
  rcases slot with same | idle
  · rw [same]
    exact before.slot
  · exact .inl idle

theorem persist (w : WriteOutcome) : Steady rules base (st.persist w) := by
  obtain ⟨_, shape, -⟩ := persist_eq st
  rw [shape]
  exact steady.of_chain rfl rfl (fun same => ⟨same, rfl⟩) (.inl rfl)

theorem failBackgroundValidation
    (io : SnapshotIo) : Steady rules base (st.failBackgroundValidation io) := by
  refine persist ?_ _
  exact steady.of_chain rfl rfl (fun same => ⟨same, rfl⟩) (.inl rfl)

private theorem flushParked : Steady rules base { st with parkedCoins := st.parkedCoins.flush f } := by
  refine steady.of_chain rfl rfl (fun same => ?_) (.inl rfl)
  cases f with
  | false | true => simp [flush, same]

theorem settles (settles : Settles params io st st') : Steady rules base st' := by
  cases settles with
  | kept => exact steady
  | flushed f => exact steady.flushParked
  | failed f => exact (steady.flushParked).failBackgroundValidation io
  | completed f _ _ =>
    refine persist ?_ _
    exact (steady.flushParked).of_chain rfl rfl (fun same => ⟨same, rfl⟩) (.inr rfl)

private theorem not_above {next : UInt256}
    (active : st.chain.snapshotActive) (busy : st.background ≠ .idle) :
    ¬ st.Above st.snapshotBaseHash next := by
  intro above
  rcases (steady.parked active).slot with idle | ⟨t, parked, -, le⟩
  · exact busy idle
  have lower := above.le.height_le
  have higher := above.height
  have tip : st.bgTip = some t := by rw [bgTip, parked]
  rw [tip] at higher
  simp only [heightOf, elim_some] at higher
  omega

end

theorem background (steady : Steady params.toConsensus base st) :
    Steady params.toConsensus base (st.stepBackgroundValidation params io n).1 := by
  have seen : ∀ {s : NodeState C}, Steady params.toConsensus base s →
      Steady params.toConsensus base s.seen :=
    fun held => held.of_chain rfl rfl (fun same => ⟨same, rfl⟩) (.inl rfl)
  refine stepBackground_rule
    (I := fun _ s => Steady params.toConsensus base s.1 ∧ s.1.chain.snapshotActive ∧
      s.1.background ≠ .idle ∧ s.1.snapshotBaseHash = st.snapshotBaseHash)
    (Q := fun r => Steady params.toConsensus base r.1) ?_ ?_ ?_ ?_ ?_ ?_
  · exact fun _ => steady
  · exact fun _ _ _ => steady.failBackgroundValidation io
  · exact fun active _ busy _ => ⟨steady, active, busy, rfl⟩
  · rintro k s _ ⟨held, active, busy, same⟩ turn
    cases turn with
    | connected joins _ | flushed joins _ _ =>
      exact absurd joins.toAbove (same ▸ held.not_above active busy)
  · rintro k s r ⟨held, active, busy, same⟩ turn
    cases turn with
    | offBase _ _ => exact (seen held).failBackgroundValidation io
    | atBase _ atBase => exact (seen held).settles (checkCoinsHash_settles atBase)
    | forked above _ | waits above _ _ | unread above _ | misplaced above _
    | undoFailed _ above _ | rejected _ above _ _ _ =>
      exact absurd above (same ▸ held.not_above active busy)
    | flushFailed joins _ => exact absurd joins.toAbove (same ▸ held.not_above active busy)
  · rintro _ s ⟨held, -⟩
    exact held.settles (stepFinish_settles)

theorem activateBestChain (steady : Steady params.toConsensus base st)
    (ran : st.activateBestChain params io fuel = some (.ok st')) :
    Steady params.toConsensus base st' := by
  obtain ⟨_, loop, ended⟩ := activateBest_ok ran
  have steps := bestChainLoop_steps loop
  have reached := steady.moved (steady.chain.activateBestChainLoop loop) (Moved.steps steps).tree
      (.steps steady.chain.index steps) (Moved.steps steps).snapshotActive
  rcases ended with rfl | ⟨flushed, wrote, rfl⟩
  · exact reached
  rw [maybeStep_eq]
  have after := reached.moved (reached.chain.flushed wrote) (Moved.flushed wrote).tree
      (.flushed reached.chain.index wrote) (Moved.flushed wrote).snapshotActive
  exact after.background

theorem loadUTXOSnapshot (steady : Steady rules base st)
    (ran : st.loadUTXOSnapshot params io file = .ok st' ∨
      st.loadUTXOSnapshot params io file = .fail (st', e)) : Steady rules base st' := by
  rcases loadUTXOSnapshot_cases ran with rfl | ⟨-, inactive, ⟨_, rfl⟩ | ⟨-, rfl⟩⟩
  · exact steady
  · exact steady.of_chain rfl rfl (fun same => ⟨same, rfl⟩) (.inl rfl)
  refine ⟨steady.chain, fun _ _ _ found => ?_, fun on => ?_⟩
  · obtain ⟨rfl, rfl, rfl⟩ := found
    refine ⟨rfl, fun _ known => ?_⟩
    split at known
    · exact (some.inj known).symm
    · cases known
  · rw [inactive] at on
    cases on

theorem activateLoadedSnapshot (steady : Steady params.toConsensus base st) (fine : io.flush.Fine)
    (own : ∀ coins t info, st.background = .loaded coins (some t) info →
      st.chain.chainActive = some t ∧ coins.view = st.chain.pcoinsTip.view)
    (ran : st.activateLoadedSnapshot params io = .ok st') :
    Steady params.toConsensus base st' := by
  obtain ⟨coins, snapTip, info, chain, activates, rfl⟩ := activateLoaded_ok ran
  obtain ⟨active, view⟩ := own coins snapTip info activates.loaded
  obtain ⟨onDisk, baseHash⟩ := steady.loaded coins (some snapTip) info activates.loaded
  have tip := baseHash snapTip rfl
  have wrote : chain = st.chain.flushBlockFile.writeBlockIndex.flushCoinsTip true := by
    have done := flushState_always fine st.chain
    rcases activates.flushed with ok | failed
    · exact Outcome.ok.inj (ok.symm.trans done)
    · cases failed.symm.trans done
  have flushed : Flushed st.chain chain := wrote ▸ .full
  have sound := steady.chain.flushed flushed
  have best := steady.chain.settled.best
  have same : ({ st with chain := chain }.swapIn coins snapTip info).chain =
      { chain with snapshotActive := true } := by
    subst wrote
    simp [swapIn, onDisk, view, flushCoinsTip, flush, writeBlockIndex, flushBlockFile, ← active, ←
      best, ↓reduceIte]
  refine persist (settles ⟨?_, ?_, fun _ => ?_⟩ (settleAtTip_settles params io _)) _
  · rw [same]
    exact sound.snapshot true
  · intro coins tip info found
    cases found
  have tipActive : chain.chainActive = some snapTip := by
    rw [wrote]
    exact active
  have known : snapTip ∈ chain.tree.blocks := by
    obtain ⟨-, linked, -⟩ := sound.settled.active snapTip (Settled.contains_tip tipActive)
    exact sound.index.known snapTip (sound.index.linked_tx snapTip linked)
  refine ⟨?_, sound.durable.disk, sound.faithful.disk, ?_, .inr ⟨snapTip, ?_, known, ?_⟩⟩
  · rw [wrote]
    rfl
  · exact tip ▸ known
  · rw [← tipActive]
    rfl
  · exact (congrArg chain.tree.height tip.symm).le

/-! ### Restarts -/

theorem datadir (steady : Steady rules base st) : st.datadir.Sound rules base := by
  cases on : st.chain.snapshotActive with
  | false =>
    have coins : st.datadir.chainstate = st.chain.pcoinsTip.db := by simp [NodeState.datadir, on]
    exact .of_chain steady.chain rfl (coins ▸ steady.chain.durable.disk)
      (coins ▸ steady.chain.faithful.disk)
  | true =>
    have coins : st.datadir.chainstate = st.parkedCoins.db := by simp [NodeState.datadir, on]
    have parked := steady.parked on
    exact .of_chain steady.chain rfl (coins ▸ parked.applied) (coins ▸ parked.replays)

theorem shutdown (steady : Steady rules base st) (io : SnapshotIo) :
    (st.shutdown io).Sound rules base := by
  obtain ⟨chain, ended, shape⟩ := shutdown_eq
  obtain ⟨mid, wrote, blocktree, db⟩ := flushState_disk ended
  have active := (flushState_ended ended).2.2.1
  have sound := steady.chain.flushed wrote
  rw [shape]
  split
  · rename_i on
    have parked := steady.parked on
    have outlasts := Outlasts.flushed steady.chain.index wrote
    obtain ⟨file, persisted, -⟩ := persist_eq
      { st with chain := chain.flushCoinsTip (io.flushView st.bgTip) }
    rw [persisted]
    have coins : ({ st with
        chain := chain.flushCoinsTip (io.flushView st.bgTip), stateFile := file } :
          NodeState C).datadir.chainstate = st.parkedCoins.db := by
      simp [NodeState.datadir, flushCoinsTip, active, on]
    exact .of_chain sound blocktree (coins ▸ parked.applied.outlast outlasts)
      (coins ▸ parked.replays.grow outlasts.tree)
  rename_i off
  have coins : ({ st with chain := chain } : NodeState C).datadir.chainstate =
      mid.pcoinsTip.db := by
    simp [NodeState.datadir, active, off, db]
  exact .of_chain sound blocktree (coins ▸ sound.durable.disk) (coins ▸ sound.faithful.disk)

/-- **A new process on a clean data directory is a steady node.** -/
theorem startup (sound : dir.Sound params.toConsensus base)
    (clean : dir.Clean) (ran : startup params io dir addr = some st') :
    Steady params.toConsensus base st' := by
  obtain ⟨chain, loaded, restored⟩ := startup_ok ran
  have made := sound.loaded clean loaded
  have inactive := loaded.snapshotActive
  have start : Steady params.toConsensus base (fresh dir chain) := by
    refine ⟨made, fun coins tip info found => ?_, fun on => ?_⟩
    · cases found
    · rw [show (fresh dir chain).chain = chain from rfl, inactive] at on
      cases on
  rcases maybeRestore_ok inactive restored with
    ⟨-, rfl | rfl⟩ | ⟨saved, view, snapTip, restores, rfl⟩
  · exact start
  · exact start.of_chain rfl rfl (fun same => ⟨same, rfl⟩) (.inl rfl)
  -- The snapshot holds the coins that were just loaded, so the swap puts the same tip in place.
  obtain rfl := clean.snapshot saved view restores.stateFile
    restores.snapshotDir
  have best := restores.best
  have known : snapTip ∈ chain.tree.blocks := restores.known
  have tip : chain.chainActive = some snapTip := by
    rw [loaded.tip, best]
    simpa [filter] using loaded.tree ▸ known
  have coins := loaded.pcoinsTip
  have same : ((fresh dir chain).restoreSwap saved dir.chainstate snapTip).chain =
      { chain with snapshotActive := true } := by
    simp [restoreSwap, fresh, ← tip, ← coins]
  have bgTip : (fresh dir chain).restoredBgTip = some snapTip := by
    simp [restoredBgTip, fresh, coins, best, known, ↓reduceIte]
  refine settles ⟨?_, fun coins tip info found => ?_, fun _ => ?_⟩ (settleRestored_settles)
  · rw [same]
    exact made.snapshot true
  · cases found
  refine ⟨?_, ?_, ?_, restores.base, .inr ⟨snapTip, ?_, known, restores.onBase.height_le⟩⟩
  · simp [restoreSwap, fresh, coins]
  · rw [same]
    exact made.durable.disk
  · rw [same]
    exact made.faithful.disk
  · rw [← bgTip]
    rfl

end Steady

/-- The operations after which the candidates stay in order. `ResetBlockFailureFlags` is applied to
blocks on clean chains only, `PreciousBlock` does not raise the sequence id of the tip, a snapshot is
activated where it is of the tip and holds its coins, and a new process finds a clean directory. -/
def Careful (st : NodeState C) : Event C → Prop
  | .resetBlockFailureFlags b => Flagged.CleanBelow st.chain b
  | .preciousBlock _ _ b => st.chain.chainActive = some b →
      st.chain.preciousSequenceId b ≤ (st.chain.data b).nSequenceId
  | .activateSnapshot io => io.flush.Fine ∧ ∀ coins t info,
      st.background = .loaded coins (some t) info →
        st.chain.chainActive = some t ∧ coins.view = st.chain.pcoinsTip.view
  | .restart io _ => (st.shutdown io).Clean
  | .crash _ _ => st.datadir.Clean
  | _ => True

namespace Steady
/-- **A careful operation leaves a steady node.** -/
theorem apply (steady : Steady params.toConsensus base st)
    (careful : st.Careful event) (ran : st.apply params event = some st') :
    Steady params.toConsensus base st' := by
  cases apply_ran steady.chain.index.toIndexInv ran with
  | idle => exact steady
  | header ended moved =>
    exact steady.edited (steady.chain.header ended) (.header ended) moved.snapshotActive
  | block ended moved =>
    exact steady.edited (steady.chain.block ended) (.block ended) moved.snapshotActive
  | activated done => exact steady.activateBestChain done
  | invalidated done =>
    exact steady.moved (steady.chain.invalidateBlock done) (invalidateBlock done).tree
      (.invalidateBlock steady.chain.index done) (invalidateBlock done).snapshotActive
  | reset mem =>
    exact steady.edited (steady.chain.resetBlockFailureFlags mem careful)
      (.resetBlockFailureFlags mem) rfl
  | @precious _ _ _ chain _ done active =>
    have placed := steady.edited (steady.chain.preciousBlock careful done) (.preciousBlock done)
        (preciousBlock done).snapshotActive
    exact placed.activateBestChain active
  | flushed wrote =>
    exact steady.moved (steady.chain.flushed wrote) (flushed wrote).tree
      (.flushed steady.chain.index wrote) (flushed wrote).snapshotActive
  | loaded done => exact steady.loadUTXOSnapshot done
  | swapped done => exact steady.activateLoadedSnapshot careful.1 careful.2 done
  | background => exact steady.background
  | restarted started => exact startup (steady.shutdown _) careful started
  | crashed started => exact startup steady.datadir careful started

end Steady
end NodeState

namespace ChainState
variable {rules : Consensus C}

private theorem genesis_sound : Sound rules coins (genesis rules coins addr) := by
  have index := genesis_recorded rules coins addr
  have root : (genesis rules coins addr).data rules.hashGenesisBlock = genesisData := by
    simp [genesis]
  have other : ∀ x, x ≠ rules.hashGenesisBlock →
      (genesis rules coins addr).data x = BlockData.null := fun x ne => by simp [genesis, ne]
  have clean : ∀ x, ((genesis rules coins addr).data x).failed = false := by
    intro x
    by_cases same : x = rules.hashGenesisBlock
    · rw [same, root]
      rfl
    · rw [other x same]
      rfl
  have below : ∀ x, (genesis rules coins addr).tree.Le x rules.hashGenesisBlock →
      x = rules.hashGenesisBlock := fun x le => le.eq_root index.genesis_root
  have rooted : Rooted (genesis rules coins addr).tree (genesis rules coins addr).data := by
    intro x _ bad
    rw [clean x] at bad
    cases bad
  have applied : Applied rules.hashGenesisBlock (genesis rules coins addr).tree
      (genesis rules coins addr).data (some rules.hashGenesisBlock) := by
    refine ⟨index.genesis_known, fun t found => ?_, fun t x found le off => ?_⟩
    · cases found
      exact index.genesis_known
    · cases found
      exact absurd le off
  have replays : Replays rules coins (genesis rules coins addr).tree
      { hashBlock := some rules.hashGenesisBlock, coins := coins } :=
    ⟨_, rfl, index.genesis_known, .anchor⟩
  refine ⟨index, ⟨rooted, rooted, clean _, clean _⟩, ⟨applied, applied⟩,
    ⟨replays, replays, by rw [root]; rfl⟩,
    ⟨⟨_, rfl, .anchor⟩, rfl, fun x held => ?_, fun _ mem t found => ?_, fun x linked _ _ => ?_⟩⟩
  · obtain ⟨t, found, le⟩ := contains_iff.1 held
    cases found
    obtain rfl := below x le
    refine ⟨clean _, index.genesis_linked, fun ne => absurd rfl ne⟩
  · cases found
    rw [mem_singleton.1 mem]
  by_contra missing
  rw [other x fun same => missing (mem_singleton.2 same)] at linked
  exact linked rfl

/-- The tip is a candidate, no candidate sorts before it, and no chain of less work is proposed. -/
structure Led (st : ChainState C) : Prop where
  tip : ∃ t, st.chainActive = some t ∧ t ∈ st.setBlockIndexCandidates
  first : ∀ t c, st.chainActive = some t → c ∈ st.setBlockIndexCandidates →
    st.blockIndexWorkComparator c t = false
  proposed : ∀ t m st', st.chainActive = some t → st.findMostWorkChain = .ok (st', some m) →
    st.tree.nChainWork t ≤ st.tree.nChainWork m

theorem Settled.led (settled : Settled rules base st) : st.Led := by
  obtain ⟨t, found, -⟩ := settled.tip
  refine ⟨⟨t, found, settled.tip_mem found⟩, fun u c active mem => ?_, fun u m st' active ran => ?_⟩
  · rw [comparator_eq_false]
    exact settled.least c mem u active
  have steps : Steps rules {} st st' := mostWorkLoop_steps ran
  have chosen := bestCandidate_mem (mostWorkLoop_found ran).1
  exact st.work_le_of_sortKey_le (settled.least m (steps.kept.candidates m chosen) u active)

end ChainState

namespace NodeState
variable {st : NodeState C}

theorem genesis_steady : Steady params.toConsensus coins (genesis params coins addr) := by
  refine ⟨genesis_sound, fun _ _ _ found => ?_, fun on => ?_⟩
  · cases found
  · cases on

theorem Reach.steady (reach : Reach params Careful (genesis params coins addr) st) :
    Steady params.toConsensus coins st :=
  reach.invariant (genesis_steady)
    fun _ _ _ steady careful ran => steady.apply careful ran

/-- **In every run of careful operations the tip leads the candidates.** -/
theorem candidates_led {coins : C} {addr : UInt256 ↪ ℕ}
    (reach : Reach params Careful (genesis params coins addr) st) : st.chain.Led :=
  reach.steady.chain.settled.led

/-- A block is connected and a snapshot of it, with its coins, is loaded. -/
def ownTipSnapshot : List (Event Unit) :=
  [.block {} (.child 2 1), .activateBestChain {} 3, .loadSnapshot {} (.of 2)]

def tipLoadedNode : NodeState Unit :=
  ((genesis .permissive () hashOrder).run .permissive ownTipSnapshot).get rfl

private theorem reach_tipLoadedNode :
    Reach .permissive Careful (genesis .permissive () hashOrder) tipLoadedNode := by
  refine Reach.of_run ownTipSnapshot (fun _ member st => ?_) rfl
  simp only [ownTipSnapshot, mem_cons, not_mem_nil, or_false] at member
  rcases member with rfl | rfl | rfl <;> trivial

private theorem tipLoadedNode_careful : tipLoadedNode.Careful (.activateSnapshot {}) := by
  refine ⟨⟨rfl, rfl, rfl, rfl⟩, fun _ _ _ slot => ?_⟩
  cases slot
  exact ⟨rfl, rfl⟩

theorem candidates_led_ownTipSnapshot :
    ∃ st, tipLoadedNode.run .permissive [.activateSnapshot {}, .activateBestChain {} 3] = some st ∧
      st.chain.snapshotActive ∧ st.chain.Led := by
  have last : ∀ st : NodeState Unit, st.Careful (.activateBestChain {} 3) := fun _ => trivial
  exact ⟨_, rfl, rfl, candidates_led
    (.step (.step reach_tipLoadedNode tipLoadedNode_careful rfl) (last _) rfl)⟩

/-- A block arrives that is not connected yet, and a snapshot of it is activated. -/
def snapshotOfCandidate : List (Event Unit) :=
  [.block {} (.child 2 1), .loadSnapshot {} (.of 2), .activateSnapshot {}, .activateBestChain {} 3]

/-- After the swap the old tip stays a candidate and sorts before the new one. -/
theorem candidates_not_led :
    ∃ st, (genesis .permissive () hashOrder).run .permissive snapshotOfCandidate = some st ∧
      st.chain.chainActive = some 2 ∧ 1 ∈ st.chain.setBlockIndexCandidates ∧
      st.chain.blockIndexWorkComparator 1 2 ∧ ¬ st.chain.Led := by
  refine ⟨_, rfl, rfl, by decide, by decide, fun led => ?_⟩
  have before := led.first 2 1 rfl (by decide)
  revert before
  decide

end NodeState
end DogecoinCore
