import DogecoinCore.NodeSteps

/-! Background validation across a clean restart. A call flushes the parked coins
after every hundredth block it connects, and a shutdown does not flush them, so the
progress that a restart finds is that of the last hundred. -/
namespace DogecoinCore
open ChainState HeaderOutcome ParentTree Option
variable {C : Type} {params : Params C} {io : SnapshotIo}

namespace ChainState
variable {st st' : ChainState C} {b : UInt256}

theorem HeaderOutcome.haveData (ended : HeaderLeft rules st block st')
    (known : b ∈ st.tree.blocks) : (st'.data b).haveData = (st.data b).haveData := by
  obtain rfl | ⟨fresh, -, rfl⟩ | ⟨_, -, -, rfl⟩ := HeaderOutcome.left ended
  · rfl
  · obtain ⟨_, _, shape⟩ := addToBlockIndex_eq fresh
    have other : b ≠ block.hash := by
      rintro rfl
      exact fresh known
    simp [shape, other]
  · simp only [markFailedChildren, modifyAll]
    split <;> rfl

theorem BlockOutcome.haveData (index : IndexInv rules st) (ended : BlockLeft rules st block st')
    (body : (st.data b).haveData) : (st'.data b).haveData := by
  have known := index.known b ((index.body b).1 body)
  obtain left | ⟨_, passed, arrived | ⟨-, rfl⟩⟩ := BlockOutcome.left ended
  · exact HeaderOutcome.haveData left known ▸ body
  · exact (arrived.grown b).haveData (HeaderOutcome.haveData (.inl passed) known ▸ body)
  rw [bodyInvalid_data]
  have held := (haveData (.inl passed) known).trans body
  split <;> exact held

theorem flushState_always {io : FlushIo} (fine : io.Fine) (st : ChainState C) :
    st.flushStateToDisk .always io =
      .ok (st.flushBlockFile.writeBlockIndex.flushCoinsTip true) := by
  simp [flushStateToDisk, fine.diskSpace, fine.writeBatchSync, fine.diskSpaceCoins, fine.flushCoins]

structure SameBodies (st st' : ChainState C) : Prop where
  tree : st'.tree = st.tree
  chainActive : st'.chainActive = st.chainActive
  snapshotActive : st'.snapshotActive = st.snapshotActive
  haveData : ∀ b, (st'.data b).haveData = (st.data b).haveData

theorem Accepted.sameBodies (accepted : Accepted rules st coins b st' coins') :
    SameBodies st st' := by
  rcases accepted.chain with rfl | rfl
  · exact ⟨rfl, rfl, rfl, fun _ => rfl⟩
  obtain ⟨_, _, _, advanced, _, _, shape⟩ := writeUndo_eq
  rw [shape]
  refine ⟨rfl, rfl, rfl, fun x => ?_⟩
  by_cases same : x = b
  · subst same
    simp [advanced.haveData]
  · simp [same]

end ChainState

namespace NodeState
variable {st st' : NodeState C} {t t' next base : UInt256} {n last : ℕ}

def Going (st : NodeState C) : Prop := st.bgStatus = .running ∨ st.bgStatus = .waitingBlocks

theorem failBackground_stops : ¬ (st.failBackgroundValidation io).Going := by
  simp [Going, failBackgroundValidation]

theorem checkCoinsHash_stops : ¬ (st.checkCoinsHash params io).Going := by
  simp only [checkCoinsHash]
  split
  · exact failBackground_stops
  split
  · exact failBackground_stops
  split
  · exact failBackground_stops
  · simp [Going, completeBackgroundValidation]

/-- A node that validates the history of an active snapshot, with the background tip at `t`. -/
structure Validating (params : Params C) (st : NodeState C) (t : UInt256) : Prop where
  recorded : ChainState.Recorded params.toConsensus st.chain
  aligned : ChainState.Aligned st.chain
  active : st.chain.snapshotActive
  base_ne : st.snapshotBaseHash ≠ 0
  hash_ne : st.expectedCoinsHash ≠ 0
  base_known : st.snapshotBaseHash ∈ st.chain.tree.blocks
  onBase : st.chain.contains st.snapshotBaseHash
  tip_known : ∀ tip, st.chain.chainActive = some tip → tip ∈ st.chain.tree.blocks
  target : st.bgTargetHeight = st.chain.tree.height st.snapshotBaseHash
  parked : st.background = .parked (some t)
  best : st.parkedCoins.view.hashBlock = some t
  known : t ∈ st.chain.tree.blocks
  bodies : ∀ x, st.chain.tree.Le x t → (st.chain.data x).haveData
  behind : ∀ d, st.parkedCoins.db.hashBlock = some d →
    d ∈ st.chain.tree.blocks ∧ st.chain.tree.height d ≤ st.chain.tree.height t

namespace Validating
section
variable (inv : Validating params st t)
include inv

theorem bgTip : st.bgTip = some t := by
  rw [NodeState.bgTip, inv.parked]

theorem heightOf : st.heightOf st.bgTip = st.chain.tree.height t := by
  rw [inv.bgTip]
  rfl

theorem joined {chain : ChainState C}
    (joins : Joins params st st.snapshotBaseHash next chain coins) :
    Validating params (st.joined next chain coins) next := by
  have same := joins.accepted.sameBodies
  have edge := joins.parent.trans inv.bgTip
  have recorded : ChainState.Recorded params.toConsensus chain := by
    rcases joins.accepted.chain with rfl | rfl
    · exact inv.recorded
    · exact inv.recorded.writeUndo next
  refine { recorded := recorded
           aligned := joins.moved.aligned inv.aligned
           active := same.snapshotActive.trans inv.active
           base_ne := inv.base_ne, hash_ne := inv.hash_ne
           base_known := joins.moved.tree.blocks _ inv.base_known
           onBase := ?_, tip_known := ?_, target := ?_, parked := rfl, best := rfl, known := ?_
           bodies := ?_, behind := ?_ }
  · obtain ⟨tip, active, le⟩ := contains_iff.1 inv.onBase
    exact contains_iff.2 ⟨tip, same.chainActive.trans active, same.tree ▸ le⟩
  · intro tip active
    exact joins.moved.tree.blocks tip (inv.tip_known tip (same.chainActive ▸ active))
  · change st.bgTargetHeight = _
    rw [inv.target, NodeState.joined, advance, same.tree]
    rfl
  · exact joins.moved.tree.blocks next (st.chain.tree.parent_mem edge).1
  · intro x le
    change chain.tree.Le x next at le
    change (chain.data x).haveData
    rw [same.haveData]
    rw [same.tree, le_iff_parent] at le
    rcases le with rfl | ⟨_, edge', le⟩
    · exact joins.body
    rw [edge] at edge'
    cases edge'
    exact inv.bodies x le
  intro d saved
  obtain ⟨known, height⟩ := inv.behind d saved
  change d ∈ chain.tree.blocks ∧ chain.tree.height d ≤ chain.tree.height next
  rw [same.tree, st.chain.tree.height_parent edge]
  exact ⟨known, height.trans (Nat.le_succ _)⟩

theorem flushed : Validating params { st with parkedCoins := st.parkedCoins.flush true } t where
  __ := inv
  behind d saved := by
    have same := saved.symm.trans inv.best
    cases same
    exact ⟨inv.known, le_rfl⟩

theorem height_next (above : st.Above base next) :
    st.chain.tree.height next = st.chain.tree.height t + 1 := by
  have height := above.height
  rw [inv.heightOf] at height
  omega

end

end Validating

/-- A node that validates the history of a snapshot whose base is still ahead. Its parked database
is at the background tip just if `last` is a number of whole hundreds. -/
structure Progress (params : Params C) (last : ℕ) (st : NodeState C) (t : UInt256) : Prop
    extends Validating params st t where
  short : st.chain.tree.height t < st.chain.tree.height st.snapshotBaseHash
  saved : st.parkedCoins.db.hashBlock = some t ↔ 100 ∣ last

/-- Before a turn of the loop, with the blocks `connected` so far. -/
structure Midway (params : Params C) (base : UInt256) (last connected : ℕ) (st : NodeState C)
    (t : UInt256) : Prop extends Validating params st t where
  baseHash : st.snapshotBaseHash = base
  place : st.chain.tree.height t < st.chain.tree.height base ∨ t = base
  saved : st.parkedCoins.db.hashBlock = some t ↔ 100 ∣ if connected = 0 then last else connected

namespace Midway
variable {connected : ℕ} (inv : Midway params base last connected st t)
include inv

theorem joined {chain : ChainState C} (joins : Joins params st base next chain coins) :
    Validating params (st.joined next chain coins) next ∧
      (chain.tree.height next < chain.tree.height base ∨ next = base) ∧
      st.parkedCoins.db.hashBlock ≠ some next := by
  refine ⟨inv.toValidating.joined (inv.baseHash ▸ joins), ?_, fun saved => ?_⟩
  · rw [joins.accepted.sameBodies.tree]
    by_cases reached : st.chain.tree.height next = st.chain.tree.height base
    · exact .inr (joins.le.eq_of_height (.refl base) reached)
    · exact .inl (lt_of_le_of_ne joins.le.height_le reached)
  have height := inv.height_next joins.toAbove
  obtain ⟨_, behind⟩ := inv.behind next saved
  omega

theorem persist (w : WriteOutcome) : Midway params base last connected (st.persist w) t := by
  obtain ⟨_, shape, _⟩ := persist_eq st
  rw [shape]
  exact { inv with }

theorem progress (short : st.chain.tree.height t < st.chain.tree.height base) :
    Progress params (if connected = 0 then last else connected) st t where
  __ := inv.toValidating
  short := inv.baseHash ▸ short
  saved := inv.saved

end Midway

/-- **What a call that leaves validation going has done.** The parked database is at the new tip just
if a flush came after the last block it connected. -/
theorem Progress.background (inv : Progress params last st t)
    (going : (st.stepBackgroundValidation params io n).1.Going) :
    ∃ t', Progress params (if (st.stepBackgroundValidation params io n).2 = 0 then last
      else (st.stepBackgroundValidation params io n).2)
      (st.stepBackgroundValidation params io n).1 t' := by
  refine stepBackground_rule
    (I := fun _ s => ∃ t', Midway params st.snapshotBaseHash last s.2 s.1 t')
    (Q := fun r => r.1.Going → ∃ t', Progress params (if r.2 = 0 then last else r.2) r.1 t')
    ?_ ?_ ?_ ?_ ?_ ?_ going
  · intro stopped going
    rcases stopped with rfl | inactive | ⟨running, waiting⟩
    · exact ⟨t, inv⟩
    · rw [inv.active] at inactive
      cases inactive
    · exact absurd going (not_or.2 ⟨running, waiting⟩)
  · exact fun _ _ _ going => absurd going (failBackground_stops)
  · exact fun _ _ _ _ => ⟨t, inv.toValidating, rfl, .inl inv.short, inv.saved⟩
  · rintro _ ⟨s, connected⟩ _ ⟨tip, held⟩ turned
    cases turned with
    | connected joins other =>
      obtain ⟨validating, place, apart⟩ := held.joined joins
      refine ⟨_, validating, held.baseHash, place, ?_⟩
      rw [if_neg (Nat.succ_ne_zero _), Nat.dvd_iff_mod_eq_zero]
      exact iff_of_false apart other
    | @flushed next chain coins joins hundred _ =>
      obtain ⟨validating, place, _⟩ := held.joined joins
      have synced : Midway params st.snapshotBaseHash last (connected + 1)
          { s.joined next chain coins with
            parkedCoins := (s.joined next chain coins).parkedCoins.flush true } next := by
        refine ⟨validating.flushed, held.baseHash, place, ?_⟩
        rw [if_neg (Nat.succ_ne_zero _)]
        exact iff_of_true rfl (Nat.dvd_of_mod_eq_zero hundred)
      exact ⟨_, synced.persist _⟩
  · rintro _ ⟨s, connected⟩ r ⟨tip, held⟩ turned going
    cases turned with
    | waits above _ missing =>
      have waiting : Midway params st.snapshotBaseHash last connected
          { s.seen with bgStatus := .waitingBlocks } tip := { held with }
      refine ⟨tip, (waiting.persist _).progress ?_⟩
      rw [persist_chain]
      exact lt_of_lt_of_le (held.height_next above ▸ Nat.lt_succ_self _) above.le.height_le
    | atBase _ _ => exact absurd going (checkCoinsHash_stops)
    | _ => exact absurd going (failBackground_stops)
  · rintro _ ⟨s, connected⟩ ⟨tip, held⟩ going
    have finished : tip = st.snapshotBaseHash →
        s.stepFinish params io = s.checkCoinsHash params io := by
      rintro rfl
      refine if_pos ⟨by simp [held.bgTip], ?_, by rw [held.bgTip, held.baseHash]⟩
      rw [held.target, held.heightOf, held.baseHash]
    rcases held.place with short | reached
    · have apart : tip ≠ st.snapshotBaseHash := by
        rintro rfl
        exact lt_irrefl _ short
      have kept : s.stepFinish params io = s := by
        refine if_neg fun reached => apart ?_
        have same := reached.2.2
        rw [held.bgTip, held.baseHash] at same
        exact some.inj same
      simp only [kept]
      exact ⟨tip, held.progress short⟩
    · rw [finished reached] at going
      exact absurd going (checkCoinsHash_stops)

theorem Progress.moved {chain : ChainState C} (inv : Progress params last st t)
    (moved : st.chain.Moved chain) (same : ChainState.SameTip st.chain chain)
    (recorded : ChainState.Recorded params.toConsensus chain)
    (bodies : ∀ b, (st.chain.data b).haveData → (chain.data b).haveData) :
    Progress params last { st with chain := chain } t := by
  have height := moved.tree.height
  refine { inv with
    recorded := recorded
    aligned := moved.aligned inv.aligned
    active := moved.snapshotActive.trans inv.active
    base_known := moved.tree.blocks _ inv.base_known
    onBase := ?_
    tip_known := fun tip active =>
      moved.tree.blocks tip (inv.tip_known tip (same.chainActive ▸ active))
    target := inv.target.trans (by rw [height _ inv.base_known])
    known := moved.tree.blocks t inv.known
    bodies := fun x le => bodies x (inv.bodies x ((moved.tree.le_iff inv.known).1 le))
    behind := ?_
    short := ?_
    saved := inv.saved }
  · obtain ⟨tip, active, le⟩ := contains_iff.1 inv.onBase
    exact contains_iff.2 ⟨tip, same.chainActive.trans active,
      (moved.tree.le_iff (inv.tip_known tip active)).2 le⟩
  · intro d saved
    obtain ⟨known, behind⟩ := inv.behind d saved
    refine ⟨moved.tree.blocks d known, ?_⟩
    rw [height d known, height t inv.known]
    exact behind
  · rw [height t inv.known, height _ inv.base_known]
    exact inv.short

end NodeState

/-- The operations of a node that validates history: calls of `StepBackgroundValidation`, and of
`MaybeStepBackgroundValidation` by `maybeStep_eq`, and what the network delivers
between them. -/
def Event.isHistory : Event C → Bool
  | .header _ => true
  | .block _ _ => true
  | .stepBackground _ _ => true
  | _ => false

namespace NodeState
variable {st st' : NodeState C} {t : UInt256} {last : ℕ}

/-- The blocks connected by the last call that connects any, if the operation comes after `last`. -/
def connectedAfter (params : Params C) (st : NodeState C) (last : ℕ) : Event C → ℕ
  | .stepBackground io n =>
    let connected := (st.stepBackgroundValidation params io n).2
    if connected = 0 then last else connected
  | _ => last

def lastConnected (params : Params C) : List (Event C) → NodeState C → ℕ → ℕ
  | [], _, last => last
  | event :: events, st, last =>
    match st.apply params event with
    | none => last
    | some st' => lastConnected params events st' (st.connectedAfter params last event)

variable {event : Event C} {events : List (Event C)}
  {saved : AssumeUtxoDiskState}

private theorem going_of_apply (history : event.isHistory)
    (ran : st.apply params event = some st') (going : st'.Going) : st.Going := by
  cases event with
  | header block =>
    obtain ⟨chain, rfl, _⟩ := apply_header ran
    exact going
  | block io block =>
    obtain ⟨chain, rfl, _⟩ := apply_block ran
    exact going
  | stepBackground io _ =>
    cases ran
    by_contra ended
    rw [stepBackgroundValidation, if_pos (not_or.1 ended), ite_self] at going
    exact ended going
  | _ => cases history

theorem going_of_run (history : ∀ event ∈ events, event.isHistory)
    (ran : st.run params events = some st') (going : st'.Going) : st.Going := by
  induction events generalizing st with
  | nil =>
    cases ran
    exact going
  | cons event events ih =>
    obtain ⟨_, first, rest⟩ := bind_eq_some_iff.1 ran
    rw [List.forall_mem_cons] at history
    exact going_of_apply history.1 first (ih history.2 rest)

theorem Progress.apply (inv : Progress params last st t)
    (history : event.isHistory) (ran : st.apply params event = some st') (going : st'.Going) :
    ∃ t', Progress params (st.connectedAfter params last event) st' t' := by
  have index := inv.recorded.toIndexInv
  have recorded := inv.recorded.chainSteps
    (apply_steps index (by cases event <;> first | rfl | cases history) ran)
  cases event with
  | header block =>
    obtain ⟨chain, rfl, ended⟩ := apply_header ran
    have outcome := acceptHeader_outcome block index.genesis_known
    have arrived := ended.imp (· ▸ outcome) (· ▸ outcome)
    refine ⟨t, inv.moved ((ChainState.Moved.acceptBlockHeader _ _ _).moved ended)
      (ChainState.HeaderOutcome.sameTip arrived) recorded fun b body => ?_⟩
    have known := index.known b ((index.body b).1 body)
    exact (ChainState.HeaderOutcome.haveData arrived known).trans body
  | block io block =>
    obtain ⟨chain, rfl, ended⟩ := apply_block ran
    have outcome := acceptBlock_outcome io block index
    have arrived := ended.imp (· ▸ outcome) (· ▸ outcome)
    exact ⟨t, inv.moved ((ChainState.Moved.acceptBlock _ _ _ _).moved ended)
      (ChainState.BlockOutcome.sameTip arrived) recorded
      fun _ => ChainState.BlockOutcome.haveData index arrived⟩
  | stepBackground io _ =>
    cases ran
    exact inv.background going
  | _ => cases history

theorem Progress.run (inv : Progress params last st t)
    (history : ∀ event ∈ events, event.isHistory) (ran : st.run params events = some st')
    (going : st'.Going) : ∃ t', Progress params (lastConnected params events st last) st' t' := by
  induction events generalizing st last t with
  | nil =>
    cases ran
    exact ⟨t, inv⟩
  | cons event events ih =>
    obtain ⟨_, first, rest⟩ := bind_eq_some_iff.1 ran
    rw [List.forall_mem_cons] at history
    obtain ⟨t', next⟩ := inv.apply history.1 first (going_of_run history.2 rest going)
    simp only [lastConnected, first]
    exact ih next history.2 rest

private theorem shutdown_fine (fine : io.Fine) (active : st.chain.snapshotActive) : st.shutdown io =
      { blocktree := st.chain.flushBlockFile.writeBlockIndex.blocktree
        chainstate := st.parkedCoins.db
        chainstateSnapshot := some st.chain.pcoinsTip.view
        stateFile := some st.diskState } := by
  have wrote := flushState_always fine.flush st.chain
  simp only [shutdown, wrote, fine.flushView, fine.persist, persist]
  simp [datadir, flushCoinsTip, CCoinsViewCache.flush, diskState, active,
    writeBlockIndex, flushBlockFile]

theorem Settles.hashBlock (settled : Settles params io st st') :
    st'.parkedCoins.view.hashBlock = st.parkedCoins.view.hashBlock := by
  cases settled with
  | kept => rfl
  | flushed f => exact flush_hashBlock
  | failed f => simp [failBackgroundValidation]
  | completed f _ _ => simp

private theorem startup_parked {addr : UInt256 ↪ ℕ} (ran : startup params io dir addr = some st) :
    st.parkedCoins.view.hashBlock = dir.chainstate.hashBlock := by
  obtain ⟨chain, loaded, restored⟩ := startup_ok ran
  have best : chain.pcoinsTip.view.hashBlock = dir.chainstate.hashBlock := by rw [loaded.pcoinsTip]
  rcases maybeRestore_ok loaded.snapshotActive restored with
    ⟨_, rfl | rfl⟩ | ⟨saved, coins, snapTip, _, rfl⟩
  · exact best
  · exact best
  · exact (settleRestored_settles).hashBlock.trans best

theorem Restores.restored (restores : Restores st saved coins snapTip) (fine : io.Fine)
    (inactive : st.chain.snapshotActive = false) : st.maybeRestoreAssumeUtxo params io =
      .ok ((st.restoreSwap saved coins snapTip).settleRestored params io) := by
  have found := ancestorAt_eq_some.2 ⟨restores.onBase, rfl⟩
  have hashes : (decide (saved.base_blockhash = 0) || decide (saved.coins_hash = 0)) = false := by
    rw [Bool.or_eq_false_iff, decide_eq_false_iff_not, decide_eq_false_iff_not]
    exact restores.hashes
  simp only [maybeRestoreAssumeUtxo, inactive, restores.stateFile, restores.snapshotDir,
    fine.readState, hashes, restores.status, restores.base, fine.openDir, restores.best,
    restores.known, found, not_true_eq_false, ne_eq, Bool.not_true, Bool.false_eq_true, ↓reduceIte]

private theorem startup_restores (addr : UInt256 ↪ ℕ) (fine : io.Fine)
    (stored : ChainState.Stored params.toConsensus dir.blocktree.tree dir.blocktree.data)
    (best : dir.chainstate.hashBlock = some t) (known : t ∈ dir.blocktree.tree.blocks)
    (chain : ∀ x, dir.blocktree.tree.Le x t →
      0 < (dir.blocktree.data x).nTx ∧ (dir.blocktree.data x).failed = false)
    (file : dir.stateFile = some saved) (snapshot : dir.chainstateSnapshot = some coins)
    (hashes : saved.base_blockhash ≠ 0 ∧ saved.coins_hash ≠ 0)
    (status : saved.status ≠ statusToDisk .failed)
    (snapBest : coins.hashBlock = some snapTip) (snapKnown : snapTip ∈ dir.blocktree.tree.blocks)
    (onBase : dir.blocktree.tree.Le saved.base_blockhash snapTip)
    (short : dir.blocktree.tree.height t < dir.blocktree.tree.height saved.base_blockhash) :
    ∃ st, startup params io dir addr = some st ∧ st.bgTip = some t ∧
      st.parkedCoins.view.hashBlock = some t := by
  obtain ⟨loaded, ran⟩ := loadBlockIndexDB_succeeds addr stored best known chain
  have shape := loadBlockIndexDB_ok ran
  have restores : Restores (fresh dir loaded) saved coins snapTip :=
    { stateFile := file, snapshotDir := snapshot, hashes := hashes, status := status
      base := shape.tree ▸ HeaderTree.mem_of_le onBase snapKnown
      best := snapBest
      known := shape.tree ▸ snapKnown
      onBase := shape.tree ▸ onBase }
  have bgTip : (fresh dir loaded).restoredBgTip = some t := by
    simp [restoredBgTip, fresh, shape.pcoinsTip, best, shape.tree, known]
  -- The tip is below the base, so there is nothing to settle yet.
  have unsettled : ((fresh dir loaded).restoreSwap saved coins snapTip).settleRestored params io =
      (fresh dir loaded).restoreSwap saved coins snapTip := by
    refine if_neg fun reached => ?_
    have height : ((fresh dir loaded).chain.tree.height saved.base_blockhash : ℤ) ≤
        (fresh dir loaded).restoredBgTip.elim saved.bg_height
          fun b => (fresh dir loaded).chain.tree.height b := reached.2.1
    rw [bgTip, elim_some] at height
    simp only [fresh, shape.tree] at height
    omega
  refine ⟨(fresh dir loaded).restoreSwap saved coins snapTip, ?_, bgTip, ?_⟩
  · have built : load dir addr = .ok (fresh dir loaded) := by
      rw [load, ran]
      rfl
    simp [startup, built, restores.restored fine shape.snapshotActive, unsettled]
  change loaded.pcoinsTip.view.hashBlock = some t
  rw [shape.pcoinsTip]
  exact best

theorem Progress.activated {coins : CCoinsViewCache C} {base : UInt256}
    (recorded : ChainState.Recorded params.toConsensus st.chain)
    (aligned : ChainState.Aligned st.chain) (active : st.chain.chainActive = some t)
    (linked : (st.chain.data t).nChainTx ≠ 0) (slot : st.background = .loaded coins (some base) info)
    (baseHash : info.baseHash = base) (base_ne : base ≠ 0) (known : base ∈ st.chain.tree.blocks)
    (short : st.chain.tree.height t < st.chain.tree.height base) (fine : io.Fine)
    (ran : st.activateLoadedSnapshot params io = .ok st') : Progress params 0 st' t := by
  obtain ⟨_, _, _, chain, activates, rfl⟩ := activateLoaded_ok ran
  cases slot.symm.trans activates.loaded
  have wrote := flushState_always fine.flush st.chain
  have shape : chain = st.chain.flushBlockFile.writeBlockIndex.flushCoinsTip true := by
    rcases activates.flushed with ended | ended <;> rw [wrote] at ended <;> cases ended
    rfl
  have unsettled : swapped params io st coins base info chain =
      { st with chain := chain }.swapIn coins base info := by
    refine if_neg fun reached => ?_
    have same : chain.chainActive = some info.baseHash := reached.2
    rw [shape, baseHash] at same
    cases active.symm.trans same
    exact lt_irrefl _ short
  have flushed := recorded.flushed (.full)
  have start : Progress params 0 ({ st with chain := chain }.swapIn coins base info) t := by
    subst shape baseHash
    exact
      { recorded := flushed.of_data rfl rfl rfl rfl rfl rfl
        aligned := fun tip same => same
        active := rfl
        base_ne := base_ne
        hash_ne := activates.coinsHash
        base_known := known
        onBase := contains_iff.2 ⟨_, rfl, .refl _⟩
        tip_known := fun tip same => some.inj same ▸ known
        target := rfl
        parked := congrArg BackgroundSlot.parked active
        best := aligned t active
        known := recorded.known t (recorded.linked_tx t linked)
        bodies := fun x le => (recorded.body x).2 (recorded.linked_tx x
          (recorded.toLinked.linked_of_le le linked))
        behind := fun _ saved => by
          cases (aligned t active).symm.trans saved
          exact ⟨recorded.known t (recorded.linked_tx t linked), le_rfl⟩
        short := short
        saved := iff_of_true (aligned t active) (Nat.dvd_zero 100) }
  rw [unsettled]
  obtain ⟨_, persisted, _⟩ := persist_eq
    ({ st with chain := chain }.swapIn coins base info)
  rw [persisted]
  exact { start with }

/-- **A clean restart restores the background tip just when the last call that connected blocks
connected whole hundreds of them.** The run starts with the background tip saved; the outcomes of its
input and output are arbitrary, those of the restart are fine. -/
theorem progress_survives_iff {events : List (Event C)} {addr : UInt256 ↪ ℕ}
    (start : Progress params 0 st t) (history : ∀ event ∈ events, event.isHistory)
    (ran : st.run params events = some st') (going : st'.Going) (fine : io.Fine)
    (sound : ∀ b, st'.bgTip = some b → ∀ x, st'.chain.tree.Le x b →
      (st'.chain.data x).failed = false) :
    (∃ st'', startup params io (st'.shutdown io) addr = some st'' ∧ st''.bgTip = st'.bgTip ∧
      st''.parkedCoins.view.hashBlock = st'.bgTip) ↔
    100 ∣ lastConnected params events st 0 := by
  obtain ⟨t', inv⟩ := start.run history ran going
  rw [inv.bgTip, ← inv.saved, shutdown_fine fine inv.active]
  constructor
  · rintro ⟨st'', started, _, best⟩
    exact (startup_parked started).symm.trans best
  intro saved
  have written := inv.recorded.flushed .index
  obtain ⟨tip, active, onBase⟩ := contains_iff.1 inv.onBase
  refine startup_restores addr fine written.disk.stored saved inv.known ?_ rfl rfl
    ⟨inv.base_ne, inv.hash_ne⟩ ?_ (inv.aligned tip active) (inv.tip_known tip active) onBase
    inv.short
  · intro x le
    have member := HeaderTree.mem_of_le (show st'.chain.tree.Le x t' from le) inv.known
    obtain ⟨_, persisted⟩ := written.disk.clean x member List.not_mem_nil
    refine ⟨?_, ?_⟩
    · rw [persisted.nTx]
      exact (inv.recorded.body x).1 (inv.bodies x le)
    rw [Bool.eq_false_iff]
    intro bad
    have failed := persisted.failed bad
    rw [show st'.chain.flushBlockFile.writeBlockIndex.data = st'.chain.data from rfl,
      sound t' inv.bgTip x le] at failed
    cases failed
  · rcases going with status | status <;> simp [diskState, status, statusToDisk]

/-- A hundred blocks arrive, a header above them, and a snapshot of it is loaded. -/
def hundredRun : List (Event Unit) :=
  (List.range 100).map (fun i =>
    .block {} (.child (BitVec.ofNat 256 (i + 2)) (BitVec.ofNat 256 (i + 1)))) ++
    [.header (.child 102 101), .loadSnapshot {} (.of 102)]

/-- What is computed of that run, of the activation and of a call for a hundred blocks. -/
def hundredConnected : Bool :=
  match (genesis .permissive () hashOrder).run .permissive hundredRun with
  | none => false
  | some st =>
    match st.background, st.activateLoadedSnapshot .permissive {} with
    | .loaded _ tip info, .ok st' =>
      let r := st'.stepBackgroundValidation .permissive {} 100
      st.chain.chainActive = some 1 && (st.chain.data 1).nChainTx ≠ 0 && tip = some 102 &&
        info.baseHash = 102 && 102 ∈ st.chain.tree.blocks &&
        st.chain.tree.height 1 < st.chain.tree.height 102 && r.2 = 100 && r.1.bgStatus = .running &&
        r.1.bgTip = some 101 && 101 ∈ r.1.chain.tree.blocks &&
        r.1.chain.tree.blocks.all fun x => !(r.1.chain.data x).failed
    | _, _ => false

theorem progress_survives_hundred : ∃ st st₁ st₂,
    (genesis .permissive () hashOrder).run .permissive hundredRun = some st ∧
      st.run .permissive [.activateSnapshot {}] = some st₁ ∧
      st₁.run .permissive [.stepBackground {} 100] = some st₂ ∧ st₂.bgTip = some 101 ∧
      ∃ st₃, startup .permissive {} (st₂.shutdown {}) hashOrder = some st₃ ∧
        st₃.bgTip = st₂.bgTip ∧ st₃.parkedCoins.view.hashBlock = st₂.bgTip := by
  have computed : hundredConnected = true := by decide +kernel
  unfold hundredConnected at computed
  split at computed
  · cases computed
  rename_i st ran
  split at computed
  · rename_i coins tip info st₁ slot activated
    simp only [Bool.and_eq_true, decide_eq_true_eq, List.all_eq_true, Bool.not_eq_true'] at computed
    obtain ⟨⟨⟨⟨⟨⟨⟨⟨⟨⟨active, linked⟩, tip⟩, baseHash⟩, known⟩, short⟩, hundred⟩, running⟩, bgTip⟩,
      bgKnown⟩, clean⟩ := computed
    subst tip
    have fine := SnapshotIo.fine_default
    have reach : Reach .permissive (fun _ event => event.indexWritten)
        (genesis .permissive () hashOrder) st :=
      .of_run hundredRun (fun event mem _ => by
        simp only [hundredRun, List.mem_append, List.mem_map, List.mem_cons] at mem
        obtain ⟨_, -, rfl⟩ | rfl | rfl | none := mem <;> first | rfl | cases none) ran
    obtain ⟨recorded, aligned⟩ := reach.recorded
    have start : Progress .permissive 0 st₁ 1 :=
      .activated recorded aligned active linked slot baseHash (by decide) known short fine activated
    have history : ∀ event ∈ [(.stepBackground {} 100 : Event Unit)], event.isHistory := by
      simp [Event.isHistory]
    refine ⟨st, st₁, _, ran, ?_, rfl, bgTip,
      (progress_survives_iff start history rfl (.inl running) fine ?_).2 ?_⟩
    · simp [run, apply, activated]
    · intro b tip x le
      cases bgTip.symm.trans tip
      exact clean x (HeaderTree.mem_of_le le bgKnown)
    · simp [lastConnected, apply, connectedAfter, hundred]
  · cases computed

def headersRun : List (Event Unit) :=
  [.header (.child 2 1), .header (.child 3 2), .loadSnapshot {} (.of 3)]

def headersNode : NodeState Unit :=
  ((genesis .permissive () hashOrder).run .permissive headersRun).get rfl

/-- The snapshot is activated with no history beyond the genesis block. -/
def historyNode : NodeState Unit := (headersNode.run .permissive [.activateSnapshot {}]).get rfl

/-- The snapshot is activated, the first block arrives and is connected behind it, and the node is
restarted: the background tip is at the genesis block again. -/
theorem progress_lost_by_restart :
    ∃ st' st'', historyNode.run .permissive [.block {} (.child 2 1), .stepBackground {} 32] =
        some st' ∧
      st'.bgStatus = .waitingBlocks ∧ st'.bgTip = some 2 ∧
      startup .permissive {} (st'.shutdown {}) hashOrder = some st'' ∧
      st''.bgStatus = .waitingBlocks ∧ st''.bgTip = some 1 ∧
      st''.parkedCoins.view.hashBlock = some 1 :=
  ⟨_, _, rfl, rfl, rfl, rfl, rfl, rfl, rfl⟩

end NodeState
end DogecoinCore
