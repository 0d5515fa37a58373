import DogecoinCore.NodeSteps

/-! Which chain a snapshot puts in place. Activating a snapshot and restoring one both
compare heights only: neither asks whether a block of the snapshot's chain is known to
be bad, nor whether the chain has the work of the one it replaces. -/
namespace DogecoinCore
open Option ChainState
variable {C : Type}

namespace ChainState
variable {base : UInt256} {st st' : ChainState C}

/-- The tip moved to a chain without flagged blocks that has at least the old tip's work. -/
structure Improved (st st' : ChainState C) : Prop where
  sound : ∀ b, st'.contains b → (st'.data b).failed = false
  work : ∀ old new, st.chainActive = some old → st'.chainActive = some new →
    st'.tree.nChainWork old ≤ st'.tree.nChainWork new

/-- A block the node could be moved to: neither it nor a block below it is flagged, and it has the
work of the tip. -/
structure Admissible (st : ChainState C) (base : UInt256) : Prop where
  clean : ∀ b, st.tree.Le b base → (st.data b).failed = false
  work : ∀ tip, st.chainActive = some tip → st.tree.nChainWork tip ≤ st.tree.nChainWork base

private theorem improved_iff (tree : st'.tree = st.tree) (data : st'.data = st.data)
    (active : st'.chainActive = some base) : Improved st st' ↔ st.Admissible base := by
  have held : ∀ b, st'.contains b ↔ st.tree.Le b base := by
    intro b
    rw [contains_iff, tree]
    constructor
    · rintro ⟨tip, found, below⟩
      rw [active] at found
      cases found
      exact below
    · exact fun below => ⟨base, active, below⟩
  constructor
  · intro improved
    refine ⟨fun b below => ?_, fun tip old => ?_⟩
    · rw [← data]
      exact improved.sound b ((held b).2 below)
    rw [← tree]
    exact improved.work tip base old active
  intro admissible
  constructor
  · intro b new
    rw [data]
    exact admissible.clean b ((held b).1 new)
  intro old new replaced found
  rw [active] at found
  cases found
  rw [tree]
  exact admissible.work old replaced

end ChainState

namespace NodeState
variable {st : NodeState C}

/-- **A snapshot moves the node to a good chain just when its tip is admissible**, both when it is
activated and when it is restored at start-up. -/
theorem snapshot_improves_iff (params : Params C) (st : NodeState C) :
    (∀ io st', st.activateLoadedSnapshot params io = .ok st' →
      (st.chain.Improved st'.chain ↔ ∀ base, st.bgTip = some base → st.chain.Admissible base)) ∧
    ∀ io st', st.chain.snapshotActive = false → st.maybeRestoreAssumeUtxo params io = .ok st' →
      st'.chain.snapshotActive →
      (st.chain.Improved st'.chain ↔
        ∀ base, st.snapshotDir.bind CoinsView.hashBlock = some base → st.chain.Admissible base) := by
  constructor
  · intro io st' ran
    obtain ⟨_, snapTip, _, chain, activates, rfl⟩ := activateLoaded_ok ran
    obtain ⟨tree, data, _⟩ := flushState_ended activates.flushed
    have tip : st.bgTip = some snapTip := by rw [bgTip, activates.loaded]
    rw [tip]
    simp only [some.injEq, forall_eq']
    apply improved_iff
    · simpa [swapped, swapIn] using tree
    · simpa [swapped, swapIn] using data
    · simp [swapped, swapIn]
  intro io st' inactive ran active
  rcases maybeRestore_ok inactive ran with
    ⟨_, rfl | rfl⟩ | ⟨saved, dir, snapTip, restores, rfl⟩
  · rw [inactive] at active
    cases active
  · rw [inactive] at active
    cases active
  rw [restores.snapshotDir, bind_some, restores.best]
  simp only [some.injEq, forall_eq']
  apply improved_iff
  · simp [restoreSwap]
  · simp [restoreSwap]
  · simp [restoreSwap]

/-- A block is connected on the genesis block and a snapshot of its child's header is loaded. -/
def snapshotAhead : List (Event Unit) :=
  [.block {} (.child 2 1), .activateBestChain {} 3, .header (.child 3 2), .loadSnapshot {} (.of 3)]

def loadedNode : NodeState Unit :=
  ((genesis .permissive () hashOrder).run .permissive snapshotAhead).get rfl

def activatedNode : NodeState Unit := (loadedNode.apply .permissive (.activateSnapshot {})).get rfl

/-- The index and coins a new process loads before it restores the snapshot. -/
def reloadedNode : NodeState Unit :=
  match load activatedNode.datadir hashOrder with
  | .ok st => st
  | _ => activatedNode

theorem snapshot_improves_loadedNode :
    loadedNode.activateLoadedSnapshot .permissive {} = .ok activatedNode ∧
      loadedNode.chain.Improved activatedNode.chain ∧
      ∃ st', reloadedNode.maybeRestoreAssumeUtxo .permissive {} = .ok st' ∧
        st'.chain.chainActive = some 3 ∧ reloadedNode.chain.Improved st'.chain := by
  have admissible : ∀ st : ChainState Unit, st.tree.blocks = [3, 2, 1] →
      (st.data 3).failed = false → (st.data 2).failed = false → (st.data 1).failed = false →
      st.chainActive = some 2 → st.tree.nChainWork 2 ≤ st.tree.nChainWork 3 → st.Admissible 3 := by
    intro st blocks third second first active work
    refine ⟨fun b below => ?_, fun tip found => ?_⟩
    · have known := HeaderTree.mem_of_le below (by simp [blocks])
      rw [blocks] at known
      simp only [List.mem_cons, List.not_mem_nil, or_false] at known
      rcases known with rfl | rfl | rfl
      · exact third
      · exact second
      · exact first
    rw [active] at found
    cases found
    exact work
  have activated : loadedNode.activateLoadedSnapshot .permissive {} = .ok activatedNode := rfl
  refine ⟨activated, ?_, _, rfl, rfl, ?_⟩
  · apply ((snapshot_improves_iff .permissive loadedNode).1 {} _ activated).2
    intro base tip
    have same := (some.inj tip).symm
    subst same
    exact admissible loadedNode.chain rfl rfl rfl rfl rfl (by decide)
  apply ((snapshot_improves_iff .permissive reloadedNode).2 {} _ rfl rfl rfl).2
  intro base tip
  have same := (some.inj tip).symm
  subst same
  exact admissible reloadedNode.chain rfl rfl rfl rfl rfl (by decide)

def snapshotOfInvalid : List (Event Unit) :=
  [.header (.child 2 1), .invalidateBlock {} 2, .loadSnapshot {} (.of 2)]

/-- A block of five units of work is connected and a snapshot of a header of one unit is loaded. -/
def snapshotOfWeaker : List (Event Unit) :=
  [.block {} { CBlock.child 2 1 with proof := 5, proof_pos := by decide }, .activateBestChain {} 3,
    .header (.child 3 1), .loadSnapshot {} (.of 3)]

/-- A snapshot of an invalidated block is activated and restored, and one of a block with less work
than the tip is activated. -/
theorem snapshot_moves_to_rejected_or_weaker :
    (∃ st st' st'', (genesis .permissive () hashOrder).run .permissive snapshotOfInvalid = some st ∧
      st.activateLoadedSnapshot .permissive {} = .ok st' ∧ st'.chain.chainActive = some 2 ∧
      (st'.chain.data 2).failedValid ∧ startup .permissive {} st'.datadir hashOrder = some st'' ∧
      st''.chain.snapshotActive ∧ st''.chain.chainActive = some 2 ∧
      (st''.chain.data 2).failedValid) ∧
    ∃ st st', (genesis .permissive () hashOrder).run .permissive snapshotOfWeaker = some st ∧
      st.chain.chainActive = some 2 ∧ st.activateLoadedSnapshot .permissive {} = .ok st' ∧
      st'.chain.chainActive = some 3 ∧
      st'.chain.tree.nChainWork 3 < st'.chain.tree.nChainWork 2 := by
  refine ⟨⟨_, _, _, rfl, rfl, rfl, rfl, rfl, rfl, rfl, rfl⟩, _, _, rfl, rfl, rfl, rfl, ?_⟩
  decide

end NodeState
end DogecoinCore
