import DogecoinCore.NodeInvariant

/-! What one operation does to the whole node, whatever its input and output outcomes.
The chain state moves on a growing header tree; a call of background validation is a
sequence of turns with one way out each; and the AssumeUTXO fields change in a load,
an activation and a restart only. -/
namespace DogecoinCore
open ChainState
variable {C : Type}

structure SnapshotIo.Fine (io : SnapshotIo) : Prop where
  chain : io.chain.Fine
  flush : io.flush.Fine
  flushView : ∀ b, io.flushView b
  cursor : io.cursor
  persist : ∀ b status, io.persist b status = .written
  openDir : io.openDir
  readState : io.readState

theorem SnapshotIo.fine_default : ({} : SnapshotIo).Fine := by
  have flush : ({} : FlushIo).Fine := ⟨rfl, rfl, rfl, rfl⟩
  exact ⟨⟨fun _ => rfl, fun _ => rfl, fun _ => flush, flush⟩, flush, fun _ => rfl, rfl, fun _ _ => rfl,
    rfl, rfl⟩

namespace HeaderTree
variable {t t' t'' : HeaderTree} {a b : UInt256}

/-- The tree `t'` has the headers of `t` where they were, and perhaps more. -/
structure Extends (t t' : HeaderTree) : Prop where
  blocks : ∀ b ∈ t.blocks, b ∈ t'.blocks
  parent : ∀ b ∈ t.blocks, t'.parent b = t.parent b
  height : ∀ b ∈ t.blocks, t'.height b = t.height b

namespace Extends
theorem refl (t : HeaderTree) : t.Extends t := ⟨fun _ => id, fun _ _ => rfl, fun _ _ => rfl⟩

theorem trans (first : t.Extends t') (second : t'.Extends t'') : t.Extends t'' where
  blocks b known := second.blocks b (first.blocks b known)
  parent b known := (second.parent b (first.blocks b known)).trans (first.parent b known)
  height b known := (second.height b (first.blocks b known)).trans (first.height b known)

theorem insert (fresh : block.hash ∉ t.blocks) : t.Extends (t.insert block fresh) := by
  have other : ∀ b ∈ t.blocks, b ≠ block.hash := by
    rintro b known rfl
    exact fresh known
  refine ⟨fun b known => List.mem_cons_of_mem _ known, fun b known => ?_, fun b known => ?_⟩
  · exact insert_parent_of_ne fresh (other b known)
  · exact insert_height_of_ne fresh (other b known)

theorem le_iff (extends' : t.Extends t') (known : b ∈ t.blocks) : t'.Le a b ↔ t.Le a b := by
  induction b using t.parent_induction with
  | step b ih =>
    rw [ParentTree.le_iff_parent, ParentTree.le_iff_parent, extends'.parent b known]
    refine or_congr_right (exists_congr fun p => and_congr_right fun edge => ?_)
    exact ih p edge (t.parent_mem edge).2

theorem connects (extends' : t.Extends t') (known : b ∈ t.blocks)
    (connects : Connects rules t a base b c) : Connects rules t' a base b c := by
  induction connects with
  | anchor => exact .anchor
  | block edge _ connected ih =>
    exact .block ((extends'.parent _ known).trans edge) (ih (t.parent_mem edge).2) connected

end Extends
end HeaderTree

namespace ChainState
variable {st st' : ChainState C}

structure Moved (st st' : ChainState C) : Prop where
  snapshotActive : st'.snapshotActive = st.snapshotActive
  aligned : Aligned st → Aligned st'
  tree : st.tree.Extends st'.tree

inductive EndsMoved (st : ChainState C) : Outcome (ChainState C) (ChainState C) → Prop
  | ok {st' : ChainState C} : Moved st st' → EndsMoved st (.ok st')
  | fail {st' : ChainState C} : Moved st st' → EndsMoved st (.fail st')
  | abort : EndsMoved st .abort

theorem EndsMoved.moved (ends : EndsMoved st out)
    (ended : out = .ok st' ∨ out = .fail st') : Moved st st' := by
  cases ends with
  | ok moved | fail moved => rcases ended with ⟨⟨⟩⟩ | ⟨⟨⟩⟩; exact moved
  | abort => rcases ended with ⟨⟨⟩⟩ | ⟨⟨⟩⟩

namespace Moved
theorem refl (st : ChainState C) : Moved st st := ⟨rfl, id, .refl _⟩

theorem trans (first : Moved st st') (second : Moved st' st'') : Moved st st'' :=
  ⟨second.snapshotActive.trans first.snapshotActive, second.aligned ∘ first.aligned,
    first.tree.trans second.tree⟩

theorem of_same (tree : st'.tree = st.tree) (snapshotActive : st'.snapshotActive = st.snapshotActive)
    (chainActive : st'.chainActive = st.chainActive)
    (best : st'.pcoinsTip.view.hashBlock = st.pcoinsTip.view.hashBlock) : Moved st st' := by
  refine ⟨snapshotActive, fun aligned t active => ?_, tree ▸ .refl _⟩
  rw [best]
  exact aligned t (chainActive ▸ active)

theorem addToBlockIndex (block : CBlockHeader) : Moved st (st.addToBlockIndex block) := by
  by_cases known : block.hash ∈ st.tree.blocks
  · rw [ChainState.addToBlockIndex, dif_pos known]
    exact .refl st
  obtain ⟨_, _, shape⟩ := addToBlockIndex_eq known
  rw [shape]
  exact ⟨rfl, fun aligned => aligned, .insert known⟩

theorem acceptBlockHeader (rules : Consensus C) (st : ChainState C) (block : CBlockHeader) :
    EndsMoved st (st.acceptBlockHeader rules block) := by
  unfold ChainState.acceptBlockHeader
  have added : EndsMoved st (.ok (st.addToBlockIndex block)) := .ok (.addToBlockIndex block)
  split
  · exact added
  split
  · split
    · exact .fail (.refl st)
    · exact .ok (.refl st)
  split
  · exact .fail (.refl st)
  split
  · exact .fail (.refl st)
  split
  · exact added
  split
  · exact added
  split
  · exact .fail (.of_same rfl rfl rfl rfl)
  · exact .abort

theorem linkQueue (n : ℕ) (queue : List UInt256) (st : ChainState C) :
    Moved st (linkQueue n queue st) := by
  induction n generalizing queue st with
  | zero => exact .refl st
  | succ n ih =>
    cases queue with
    | nil => exact .refl st
    | cons q queue =>
      obtain ⟨_, shape, _⟩ := link_eq
      have first : Moved st (st.release q) := by
        rw [release, shape]
        exact .of_same rfl rfl rfl rfl
      rw [linkQueue_cons]
      exact first.trans (ih _ _)

theorem receivedBlockTransactions (st : ChainState C) (b : UInt256) (nTx nFile : ℕ) :
    Moved st (st.receivedBlockTransactions b nTx nFile) := by
  have stored : Moved st (st.storeBody b nTx nFile) := .of_same rfl rfl rfl rfl
  unfold ChainState.receivedBlockTransactions
  simp only
  split
  · exact stored.trans (.linkQueue _ _ _)
  split
  · exact stored.trans (.linkQueue _ _ _)
  split
  · exact stored.trans (.of_same rfl rfl rfl rfl)
  · exact stored

theorem acceptBlock (rules : Consensus C) (io : AcceptIo) (st : ChainState C) (block : CBlock) :
    EndsMoved st (st.acceptBlock rules io block) := by
  have header := acceptBlockHeader rules st block.toCBlockHeader
  unfold ChainState.acceptBlock
  cases ended : st.acceptBlockHeader rules block.toCBlockHeader with
  | abort => exact .abort
  | fail mid =>
    rw [ended] at header
    exact header
  | ok mid =>
    rw [ended] at header
    obtain ⟨first⟩ := header
    refine iteInduction (fun _ => .ok first) fun _ => ?_
    refine iteInduction (fun _ => .ok first) fun _ => ?_
    cases block.check with
    | corrupt => exact .fail first
    | invalid => exact .fail (first.trans (.of_same rfl rfl rfl rfl))
    | valid =>
      refine iteInduction (fun _ => .fail first) fun _ => ?_
      obtain ⟨files, shape⟩ := findBlockPos_eq mid io.filesFull
      rw [shape]
      have found : Moved mid { mid with files := files } := .of_same rfl rfl rfl rfl
      exact .ok ((first.trans found).trans (.receivedBlockTransactions _ _ _ _))

variable {b : UInt256}

theorem steps (steps : Steps rules io st st') : Moved st st' :=
  ⟨steps.kept.snapshotActive, fun aligned => aligned.steps steps, steps.kept.tree ▸ .refl _⟩

theorem invalidateBlock (ran : st.invalidateBlock rules io b = .ok st') : Moved st st' := by
  obtain ⟨_, _, made, rfl⟩ := invalidate_steps ran
  exact (Moved.steps made).trans (.of_same rfl rfl rfl rfl)

theorem preciousBlock (ran : st.preciousBlock b = .ok (some st')) : Moved st st' := by
  obtain ⟨_, _, _, _, rfl, _⟩ := Recorded.preciousBlock_same ran
  exact .of_same rfl rfl rfl rfl

theorem flushed (wrote : Flushed st st') : Moved st st' := by
  obtain ⟨_, _, _, _, rfl⟩ := wrote.memory
  exact .of_same rfl rfl rfl rfl

theorem writeUndo (st : ChainState C) (b : UInt256) : Moved st (st.writeUndo b) := by
  obtain ⟨_, _, _, _, _, _, shape⟩ := writeUndo_eq
  rw [shape]
  exact .of_same rfl rfl rfl rfl

end Moved

theorem flushState_ended {io : FlushIo}
    (ended : st.flushStateToDisk mode io = .ok st' ∨ st.flushStateToDisk mode io = .fail st') :
    st'.tree = st.tree ∧ st'.data = st.data ∧ st'.snapshotActive = st.snapshotActive ∧
      st'.chainActive = st.chainActive ∧
      st'.pcoinsTip.view.hashBlock = st.pcoinsTip.view.hashBlock := by
  rcases ended with ended | ended
  · obtain ⟨_, _, _, _, rfl⟩ := (flushState_ok ended).memory
    exact ⟨rfl, rfl, rfl, rfl, rfl⟩
  cases written : io.writeBatchSync with
  | true => cases flushState_fail written ended <;> exact ⟨rfl, rfl, rfl, rfl, rfl⟩
  | false =>
    simp only [flushStateToDisk, written] at ended
    split at ended
    · split at ended
      all_goals
        cases ended
        exact ⟨rfl, rfl, rfl, rfl, rfl⟩
    · cases ended

end ChainState

namespace NodeState
variable {st st' : NodeState C} {connected n : ℕ}

@[simp] theorem flush_hashBlock {written : Bool} {cache : CCoinsViewCache C} :
    (cache.flush written).view.hashBlock = cache.view.hashBlock := by
  cases written <;> rfl

theorem persist_eq (st : NodeState C) : ∃ file, st.persist w = { st with stateFile := file } ∧
      (file = st.stateFile ∨ file = some st.diskState ∨ file = none) := by
  unfold persist
  split
  · exact ⟨_, rfl, .inl rfl⟩
  cases w with
  | written => exact ⟨_, rfl, .inr (.inl rfl)⟩
  | unchanged => exact ⟨_, rfl, .inl rfl⟩
  | removed => exact ⟨_, rfl, .inr (.inr rfl)⟩

@[simp] theorem persist_parkedCoins : (st.persist w).parkedCoins = st.parkedCoins := by
  obtain ⟨_, shape, _⟩ := persist_eq st
  rw [shape]

@[simp] theorem persist_bgStatus : (st.persist w).bgStatus = st.bgStatus := by
  obtain ⟨_, shape, _⟩ := persist_eq st
  rw [shape]

@[simp] theorem completeBackground_parkedCoins :
    (st.completeBackgroundValidation io).parkedCoins = st.parkedCoins := by
  simp [completeBackgroundValidation]

/-- How a comparison of the background coins with the snapshot leaves the node. The coins are
flushed first; validation completes only at the base and with the expected hash. -/
inductive Settles (params : Params C) (io : SnapshotIo) (st : NodeState C) : NodeState C → Prop
  | kept : Settles params io st st
  | flushed (f : Bool) : Settles params io st { st with parkedCoins := st.parkedCoins.flush f }
  | failed (f : Bool) : Settles params io st
      ({ st with parkedCoins := st.parkedCoins.flush f }.failBackgroundValidation io)
  | completed (f : Bool) : st.bgTip = some st.snapshotBaseHash →
      params.hashSerialized (st.parkedCoins.flush f).db = st.expectedCoinsHash →
      Settles params io st
        ({ st with parkedCoins := st.parkedCoins.flush f }.completeBackgroundValidation io)

theorem checkCoinsHash_settles (atBase : st.bgTip = some st.snapshotBaseHash) :
    Settles params io st (st.checkCoinsHash params io) := by
  simp only [checkCoinsHash]
  split
  · exact .failed _
  split
  · exact .failed _
  split
  · exact .failed _
  · rename_i same
    exact .completed _ atBase (not_not.1 same)

theorem stepFinish_settles : Settles params io st (st.stepFinish params io) := by
  unfold stepFinish
  split
  · rename_i reached
    exact checkCoinsHash_settles reached.2.2
  · exact .kept

theorem settleAtTip_settles (params : Params C) (io : SnapshotIo) (st : NodeState C) :
    Settles params io st (st.settleAtTip params io) := by
  simp only [settleAtTip]
  split
  · rename_i reached
    split
    · exact .flushed _
    split
    · rename_i same
      exact .completed _ reached.2 same
    · exact .failed _
  · exact .kept

theorem settleRestored_settles : Settles params io st (st.settleRestored params io) := by
  simp only [settleRestored]
  split
  · rename_i reached
    split
    · rename_i same
      simp only [Bool.and_eq_true, decide_eq_true_eq] at same
      exact .completed _ reached.2.2 same.2
    · exact .flushed _
  · exact .kept

theorem Joins.moved {chain : ChainState C}
    (joins : Joins params st target next chain coins) : st.chain.Moved chain := by
  rcases joins.accepted.chain with rfl | rfl
  · exact .refl _
  · exact .writeUndo _ _

theorem shutdown_eq : ∃ chain, (st.chain.flushStateToDisk .always io.flush = .ok chain ∨
        st.chain.flushStateToDisk .always io.flush = .fail chain) ∧
      st.shutdown io = if st.chain.snapshotActive then
          ({ st with chain := chain.flushCoinsTip (io.flushView st.bgTip) }.persist
            (io.persist st.bgTip st.bgStatus)).datadir
        else { st with chain := chain }.datadir := by
  cases ended : st.chain.flushStateToDisk .always io.flush with
  | abort => exact absurd ended flushState_ne_abort
  | ok chain =>
    obtain ⟨_, _, active, _⟩ := flushState_ended (.inl ended)
    refine ⟨chain, .inl rfl, ?_⟩
    simp only [shutdown, ended, active]
    rfl
  | fail chain =>
    obtain ⟨_, _, active, _⟩ := flushState_ended (.inr ended)
    refine ⟨chain, .inr rfl, ?_⟩
    simp only [shutdown, ended, active]
    rfl

/-- What one operation does to the node. `fine` holds of the outcomes of its input and output, and
`restarts` says whether it may end the process. -/
inductive NodeStep (params : Params C) (fine : SnapshotIo → Prop) (restarts : Bool)
    (st : NodeState C) : NodeState C → Prop
  | chain {chain : ChainState C} : st.chain.Moved chain →
      NodeStep params fine restarts st { st with chain := chain }
  | background {chain : ChainState C} {io : SnapshotIo} {n : ℕ} : st.chain.Moved chain → fine io →
      NodeStep params fine restarts st ({ st with chain := chain }.stepBackgroundValidation params io n).1
  | partialLoad (dir : CoinsView C) : st.background = .idle → st.chain.snapshotActive = false →
      NodeStep params fine restarts st { st with snapshotDir := some dir }
  | load {file : SnapshotFile C} : st.background = .idle → st.chain.snapshotActive = false →
      file.base_blockhash ≠ 0 →
      NodeStep params fine restarts st { st with
        snapshotDir := none, background := st.loadedSlot params file }
  | activate {io : SnapshotIo} {st' : NodeState C} : fine io →
      st.activateLoadedSnapshot params io = .ok st' → NodeStep params fine restarts st st'
  | restart {io : SnapshotIo} {addr : UInt256 ↪ ℕ} {st' : NodeState C} : restarts → fine io →
      startup params io (st.shutdown io) addr = some st' → NodeStep params fine restarts st st'
  | crash {io : SnapshotIo} {addr : UInt256 ↪ ℕ} {st' : NodeState C} : restarts → fine io →
      startup params io st.datadir addr = some st' → NodeStep params fine restarts st st'

end NodeState

def Event.snapshotIo : Event C → Option SnapshotIo
  | .activateBestChain io _ => some io
  | .preciousBlock io _ _ => some io
  | .loadSnapshot io _ => some io
  | .activateSnapshot io => some io
  | .stepBackground io _ => some io
  | .restart io _ => some io
  | .crash io _ => some io
  | _ => none

def Event.Fine (event : Event C) : Prop := ∀ io, event.snapshotIo = some io → io.Fine

def Event.restarts : Event C → Bool
  | .restart _ _ => true
  | .crash _ _ => true
  | _ => false

namespace NodeState
variable {st st' : NodeState C} {restarts : Bool}

theorem activateBest_step {chain : ChainState C} (moved : st.chain.Moved chain)
    (held : fine io)
    (ran : { st with chain := chain }.activateBestChain params io fuel = some (.ok st')) :
    NodeStep params fine restarts st st' := by
  obtain ⟨_, looped, ended⟩ := activateBest_ok ran
  have reached := moved.trans (.steps (bestChainLoop_steps looped))
  rcases ended with rfl | ⟨flushed, wrote, rfl⟩
  · exact .chain reached
  · rw [maybeStep_eq]
    exact .background (reached.trans (.flushed wrote)) held

/-- **Every completed operation is one step of the node.** -/
theorem apply_step (fine : SnapshotIo → Prop) (held : ∀ io, event.snapshotIo = some io → fine io)
    (ran : st.apply params event = some st') : NodeStep params fine event.restarts st st' := by
  have unchanged : NodeStep params fine event.restarts st st := .chain (.refl _)
  cases event with
  | header block =>
    obtain ⟨chain, rfl, ended⟩ := apply_header ran
    exact .chain ((ChainState.Moved.acceptBlockHeader _ _ _).moved ended)
  | block io block =>
    obtain ⟨chain, rfl, ended⟩ := apply_block ran
    exact .chain ((ChainState.Moved.acceptBlock _ _ _ _).moved ended)
  | activateBestChain io fuel =>
    exact activateBest_step (.refl _) (held io rfl) (apply_activateBestChain ran)
  | invalidateBlock io b =>
    obtain rfl | ⟨chain, _, done, rfl⟩ := apply_invalidateBlock ran
    · exact unchanged
    · exact .chain (.invalidateBlock done)
  | resetBlockFailureFlags b =>
    obtain rfl | ⟨_, rfl⟩ := apply_resetFlags ran
    · exact unchanged
    · exact .chain (.of_same rfl rfl rfl rfl)
  | preciousBlock io fuel b =>
    obtain rfl | ⟨chain, done, active⟩ := apply_preciousBlock ran
    · exact unchanged
    · exact activateBest_step (.preciousBlock done) (held io rfl) active
  | flush _ io =>
    obtain ⟨chain, wrote, rfl⟩ := apply_flush ran
    exact .chain (.flushed wrote)
  | loadSnapshot io _ =>
    obtain ⟨_, ended⟩ := apply_loadSnapshot ran
    rcases loadUTXOSnapshot_cases ended with rfl | ⟨idle, inactive, ⟨dir, rfl⟩ | ⟨base, rfl⟩⟩
    · exact unchanged
    · exact .partialLoad dir idle inactive
    · exact .load idle inactive base
  | activateSnapshot io =>
    obtain rfl | done := apply_activateSnapshot ran
    · exact unchanged
    · exact .activate (held io rfl) done
  | stepBackground io _ =>
    cases ran
    exact .background (.refl _) (held io rfl)
  | restart io addr => exact .restart rfl (held io rfl) ran
  | crash io addr => exact .crash rfl (held io rfl) ran

end NodeState
end DogecoinCore
