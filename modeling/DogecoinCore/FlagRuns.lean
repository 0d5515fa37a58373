import DogecoinCore.CandidateRuns

/-! Failure flags and candidates over whole runs. A body without a linked parent waits in
`mapBlocksUnlinked`, so a block with the bodies of its whole chain is linked, and a linked block
without a failed ancestor is a candidate unless it sorts before the tip. -/
namespace DogecoinCore
variable {C : Type} {params : Params C}

namespace ChainState
variable {st st' : ChainState C}

def Waits (st : ChainState C) : Prop :=
  ∀ b p, st.tree.parent b = some p → 0 < (st.data b).nTx →
    (st.data b).nChainTx ≠ 0 ∨ (p, b) ∈ st.mapBlocksUnlinked

namespace Waits
section
variable (waits : Waits st)
include waits

theorem linked (inv : IndexInv rules st)
    (bodies : ∀ x, st.tree.Le x b → (st.data x).haveData) : (st.data b).nChainTx ≠ 0 := by
  induction b using st.tree.parent_induction with
  | step b ih =>
    have stored := (inv.body b).1 (bodies b (.refl b))
    cases edge : st.tree.parent b with
    | none => exact inv.only_root b (inv.known b stored) edge ▸ inv.genesis_linked
    | some p =>
      have below := ih p edge fun x le => bodies x (le.trans (ParentTree.le_of_parent edge))
      exact (waits b p edge stored).resolve_right fun waiting =>
        below (inv.unlinked_waits p b waiting).2.2

theorem of_links (tree : st'.tree = st.tree)
    (data : ∀ x, (st'.data x).nTx = (st.data x).nTx ∧ (st'.data x).nChainTx = (st.data x).nChainTx)
    (unlinked : st'.mapBlocksUnlinked = st.mapBlocksUnlinked) : Waits st' := by
  intro b p edge stored
  rw [(data b).2, unlinked]
  exact waits b p (tree ▸ edge) ((data b).1 ▸ stored)

theorem header (ended : HeaderLeft rules st block st') : Waits st' := by
  obtain rfl | ⟨fresh, -, rfl⟩ | ⟨_, -, -, rfl⟩ := HeaderOutcome.left ended
  · exact waits
  · obtain ⟨_, -, shape⟩ := addToBlockIndex_eq fresh
    rw [shape]
    intro b p edge stored
    dsimp only at edge stored ⊢
    by_cases same : b = block.hash
    · subst same
      simp [BlockData.null] at stored
    rw [Function.update_of_ne same] at stored ⊢
    rw [HeaderTree.insert_parent_of_ne fresh same] at edge
    exact waits b p edge stored
  · refine waits.of_links rfl (fun _ => ?_) rfl
    simp only [markFailedChildren, modifyAll]
    split <;> exact ⟨rfl, rfl⟩

theorem received (arrived : Received rules st b st')
    (sound : ∀ p, st.tree.parent b = some p → (st.data p).failed → (st.data p).nChainTx ≠ 0) :
    Waits st' := by
  intro x p edge stored
  rw [arrived.toRelinked.tree] at edge
  by_cases same : x = b
  · subst same
    by_cases counted : (st'.data x).nChainTx = 0
    · refine .inr ((arrived.waits p edge counted).resolve_right fun bad => ?_)
      exact arrived.linked p edge (sound p edge bad) counted
    · exact .inl counted
  rw [arrived.others x same] at stored
  rcases waits x p edge stored with counted | waiting
  · exact .inl (arrived.counted x counted ▸ counted)
  · exact (arrived.moved (p, x) waiting).symm

theorem block {block : CBlock}
    (sound : ∀ p, st.tree.parent block.hash = some p → (st.data p).failed →
      (st.data p).nChainTx ≠ 0)
    (ended : BlockLeft rules st block st') :
    Waits st' := by
  obtain left | ⟨_, passed, arrived | ⟨-, rfl⟩⟩ := BlockOutcome.left ended
  · exact waits.header left
  · refine (waits.header (.inl passed)).received arrived ?_
    cases passed with
    | known => exact sound
    | added fresh known clean =>
      -- The parent of a new header is not flagged.
      obtain ⟨_, -, shape⟩ := addToBlockIndex_eq fresh
      rw [shape]
      intro p edge bad
      dsimp only at edge bad
      rw [HeaderTree.insert_parent_self fresh, HeaderTree.newParent, if_pos known] at edge
      obtain rfl := Option.some.inj edge
      have ne : block.hashPrevBlock ≠ block.hash := fun same => fresh (same ▸ known)
      rw [Function.update_of_ne ne, clean] at bad
      cases bad
  refine (waits.header (.inl passed)).of_links rfl (fun _ => ?_) rfl
  rw [bodyInvalid_data]
  split <;> exact ⟨rfl, rfl⟩

theorem step (inv : Recorded rules st) (step : Step rules io st st') : Waits st' := by
  cases step with
  | @drop m x best walked =>
    have failed := (inv.dropped best walked).1
    obtain ⟨data, unlinked, shape, -, marked⟩ := removeChain_eq st m x
    obtain ⟨rfl, rfl⟩ := marked failed
    rw [shape]
    refine waits.of_links rfl (fun _ => ?_) rfl
    dsimp only
    split <;> exact ⟨rfl, rfl⟩
  | disconnect ran =>
    obtain ⟨_, moved⟩ := disconnectTip_moves ran
    exact waits.of_links moved.kept.tree (fun x => by rw [moved.data]; exact ⟨rfl, rfl⟩)
      moved.unlinked
  | connect ran pruned =>
    have moved := connectTip_connects ran pruned
    exact waits.of_links moved.kept.tree
      (fun x => ⟨(moved.data x).nTx, (moved.data x).nChainTx⟩) moved.unlinked
  | invalid ran =>
    have rejected := connectTip_rejected ran
    refine waits.of_links rejected.kept.tree (fun x => ?_) rejected.unlinked
    rw [rejected.data]
    split <;> exact ⟨rfl, rfl⟩

theorem steps (inv : Recorded rules st) (steps : Steps rules io st st') : Waits st' := by
  induction steps with
  | refl => exact waits
  | tail before step ih => exact ih.step (inv.steps before) step

theorem invalidateBlock (inv : Recorded rules st)
    (ran : st.invalidateBlock rules io b = .ok st') : Waits st' := by
  obtain ⟨mid, _, steps, rfl⟩ := invalidate_steps ran
  refine (waits.steps inv steps).of_links rfl (fun x => ?_) rfl
  change ((mid.markInvalid (st.disconnectedBy b) b).data x).nTx = _ ∧
    ((mid.markInvalid (st.disconnectedBy b) b).data x).nChainTx = _
  rw [Recorded.markInvalid_data]
  exact ⟨rfl, rfl⟩

theorem resetBlockFailureFlags (mem : b ∈ st.tree.blocks) :
    Waits (st.resetBlockFailureFlags b) := by
  refine waits.of_links rfl (fun _ => ?_) rfl
  rw [Recorded.resetFlags_data mem]
  split <;> exact ⟨rfl, rfl⟩

theorem preciousBlock (ran : st.preciousBlock b = .ok (some st')) : Waits st' := by
  obtain ⟨_, _, _, _, rfl, same⟩ := Recorded.preciousBlock_same ran
  refine waits.of_links rfl (fun x => ?_) rfl
  obtain ⟨_, is⟩ := same x
  simp [is]

theorem flushed (wrote : Flushed st st') : Waits st' := by
  obtain ⟨_, _, _, _, rfl⟩ := wrote.memory
  exact waits.of_links rfl (fun _ => ⟨rfl, rfl⟩) rfl

end

theorem loaded {coins : CoinsView C} {addr : UInt256 ↪ ℕ}
    (loaded : Loaded db coins addr st) : Waits st := by
  intro b p edge stored
  rw [loaded.tree] at edge
  rw [loaded.data] at stored ⊢
  by_cases below : (db.entry p).nChainTx = 0
  · exact .inr ((loaded.unlinked p b).2 ⟨edge, stored, below⟩)
  refine .inl (entry_counted.2 ⟨(persisted_entry).nTx ▸ stored, fun _ other => ?_⟩)
  obtain rfl := Option.mem_unique edge other
  exact below

end Waits

/-- The flags describe the tree: a flag goes back to a block marked `BLOCK_FAILED_VALID`, and a block
under which none is, with the bodies of its whole chain, is a candidate unless it sorts before the
tip. -/
structure Described (st : ChainState C) : Prop where
  flags : ∀ b ∈ st.tree.blocks, (st.data b).failed → ∃ v, st.tree.Le v b ∧ (st.data v).failedValid
  candidates : ∀ b, (∀ x, st.tree.Le x b → (st.data x).failedValid = false ∧ (st.data x).haveData) →
    (∀ t, st.chainActive = some t → st.blockIndexWorkComparator b t = false) →
    b ∈ st.setBlockIndexCandidates

theorem Sound.described (sound : Sound rules base st) (waits : Waits st) : st.Described := by
  refine ⟨sound.flags.memory, fun b chain order => ?_⟩
  have linked := waits.linked sound.index.toIndexInv fun x le => (chain x le).2
  refine sound.settled.complete b linked ?_ fun t active => ?_
  · rw [Bool.eq_false_iff]
    intro bad
    obtain ⟨v, le, invalid⟩ := sound.flags.memory b
      (sound.index.known b (sound.index.linked_tx b linked)) bad
    rw [(chain v le).1] at invalid
    cases invalid
  · have after := order t active
    rwa [comparator_eq_false] at after

end ChainState

open ChainState Option Moved Bool ParentTree

namespace NodeState
variable {st st' : NodeState C}

/-- The operations of a node without snapshots after which the flags describe the tree.
`ResetBlockFailureFlags` is applied to blocks on clean chains only, no body is stored over a flagged
parent that is not linked, `PreciousBlock` does not raise the sequence id of the tip, and a new
process finds no flag on the chain of its coins. -/
def Orderly (st : NodeState C) : Event C → Prop
  | .block _ block => ∀ p, st.chain.tree.parent block.hash = some p → (st.chain.data p).failed →
      (st.chain.data p).nChainTx ≠ 0
  | .resetBlockFailureFlags b => Flagged.CleanBelow st.chain b
  | .preciousBlock _ _ b => st.chain.chainActive = some b →
      st.chain.preciousSequenceId b ≤ (st.chain.data b).nSequenceId
  | .loadSnapshot _ _ => False
  | .activateSnapshot _ => False
  | .restart io _ => (st.shutdown io).Unflagged
  | .crash _ _ => st.datadir.Unflagged
  | _ => True

structure Plain (st : NodeState C) : Prop where
  inactive : st.chain.snapshotActive = false
  stateFile : st.stateFile = none

/-- A node without snapshots that is steady and whose bodies are linked or wait. -/
structure Tidy (rules : Consensus C) (base : C) (st : NodeState C) : Prop extends Plain st where
  steady : Steady rules base st
  waits : Waits st.chain

namespace Plain
theorem background (plain : Plain st) : (st.stepBackgroundValidation params io n).1 = st := by
  simp [stepBackgroundValidation, plain.inactive]

theorem datadir (plain : Plain st) : st.datadir.stateFile = none := plain.stateFile

theorem shutdown (plain : Plain st) (io : SnapshotIo) : (st.shutdown io).stateFile = none := by
  obtain ⟨_, -, shape⟩ := shutdown_eq
  rw [shape, plain.inactive]
  exact plain.stateFile

theorem startup {dir : Datadir C} {addr : UInt256 ↪ ℕ}
    (none : dir.stateFile = none) (started : startup params io dir addr = some st') :
    Plain st' ∧ Waits st'.chain := by
  obtain ⟨chain, loaded, restored⟩ := startup_ok started
  have waits : Waits chain := .loaded loaded
  have inactive := loaded.snapshotActive
  rcases maybeRestore_ok inactive restored with
    ⟨-, rfl | rfl⟩ | ⟨saved, view, snapTip, restores, -⟩
  · exact ⟨⟨loaded.snapshotActive, none⟩, waits⟩
  · exact ⟨⟨loaded.snapshotActive, rfl⟩, waits⟩
  · cases none.symm.trans restores.stateFile

end Plain

namespace Tidy
theorem activateBestChain (plain : Plain st)
    (index : Recorded params.toConsensus st.chain) (waits : Waits st.chain)
    (ran : st.activateBestChain params io fuel = some (.ok st')) : Plain st' ∧ Waits st'.chain := by
  obtain ⟨exit, loop, ended⟩ := activateBest_ok ran
  have steps := bestChainLoop_steps loop
  have reached : Plain { st with chain := exit.st } :=
    ⟨(Moved.steps steps).snapshotActive.trans plain.inactive, plain.stateFile⟩
  have waiting := waits.steps index steps
  rcases ended with rfl | ⟨flushed, wrote, rfl⟩
  · exact ⟨reached, waiting⟩
  have after : Plain { st with chain := flushed } :=
    ⟨(Moved.flushed wrote).snapshotActive.trans reached.inactive, plain.stateFile⟩
  rw [maybeStep_eq, after.background]
  exact ⟨after, waiting.flushed wrote⟩

theorem careful (plain : Plain st) (orderly : st.Orderly event) : st.Careful event := by
  cases event with
  | resetBlockFailureFlags b | preciousBlock io _ b => exact orderly
  | loadSnapshot io file | activateSnapshot io => exact orderly.elim
  | restart io addr =>
    refine ⟨orderly, fun saved coins file _ => ?_⟩
    cases (plain.shutdown io).symm.trans file
  | crash io addr =>
    refine ⟨orderly, fun saved coins file _ => ?_⟩
    cases plain.datadir.symm.trans file
  | _ => trivial

/-- **An orderly operation leaves a tidy node.** -/
theorem apply (tidy : Tidy params.toConsensus base st) (orderly : st.Orderly event)
    (ran : st.apply params event = some st') : Tidy params.toConsensus base st' := by
  have plain := tidy.toPlain
  have index := tidy.steady.chain.index
  have steady := tidy.steady.apply (careful plain orderly) ran
  suffices Plain st' ∧ Waits st'.chain from ⟨this.1, steady, this.2⟩
  cases apply_ran index.toIndexInv ran with
  | idle => exact ⟨plain, tidy.waits⟩
  | header ended moved =>
    exact ⟨⟨moved.snapshotActive.trans plain.inactive, plain.stateFile⟩, tidy.waits.header ended⟩
  | block ended moved =>
    exact ⟨⟨moved.snapshotActive.trans plain.inactive, plain.stateFile⟩,
      tidy.waits.block orderly ended⟩
  | activated done => exact activateBestChain plain index tidy.waits done
  | invalidated done =>
    exact ⟨⟨(invalidateBlock done).snapshotActive.trans plain.inactive, plain.stateFile⟩,
      tidy.waits.invalidateBlock index done⟩
  | reset mem =>
    exact ⟨⟨plain.inactive, plain.stateFile⟩, tidy.waits.resetBlockFailureFlags mem⟩
  | @precious _ _ _ chain _ done active =>
    have placed : Plain { st with chain := chain } :=
      ⟨(preciousBlock done).snapshotActive.trans plain.inactive, plain.stateFile⟩
    exact activateBestChain placed (index.preciousBlock done) (tidy.waits.preciousBlock done) active
  | flushed wrote =>
    exact ⟨⟨(flushed wrote).snapshotActive.trans plain.inactive, plain.stateFile⟩,
      tidy.waits.flushed wrote⟩
  | loaded _ | swapped _ => exact orderly.elim
  | background =>
    rw [plain.background]
    exact ⟨plain, tidy.waits⟩
  | restarted started => exact Plain.startup (plain.shutdown _) started
  | crashed started => exact Plain.startup plain.datadir started

end Tidy

theorem genesis_tidy {params : Params C} {coins : C} {addr : UInt256 ↪ ℕ} :
    Tidy params.toConsensus coins (genesis params coins addr) := by
  refine ⟨⟨rfl, rfl⟩, genesis_steady, fun _ _ edge _ => ?_⟩
  -- The genesis block is the only block and has no parent.
  have index := genesis_recorded params.toConsensus coins addr
  have known := ((genesis params coins addr).chain.tree.parent_mem edge).1
  rw [List.mem_singleton.1 known] at edge
  cases index.genesis_root.symm.trans edge

/-- **In every run of orderly operations the failure flags describe the tree.** -/
theorem flags_described {coins : C} {addr : UInt256 ↪ ℕ}
    (reach : Reach params Orderly (genesis params coins addr) st) : st.chain.Described := by
  have tidy := reach.invariant (genesis_tidy)
    fun _ _ _ tidy orderly ran => tidy.apply orderly ran
  exact tidy.steady.chain.described tidy.waits

/-- Whether an operation is orderly, as far as it takes no new process. -/
def orderly (st : NodeState C) : Event C → Bool
  | .block _ block => (st.chain.tree.parent block.hash).all fun p =>
      !(st.chain.data p).failed || (st.chain.data p).nChainTx ≠ 0
  | .resetBlockFailureFlags b => (st.chain.tree.down (st.chain.tree.height b + 1) b).all fun q =>
      q = b || !(st.chain.data q).failed
  | .header _ | .activateBestChain _ _ | .invalidateBlock _ _ | .flush _ _ => true
  | _ => false

theorem orderly_sound (checked : st.orderly event) : st.Orderly event := by
  cases event with
  | block io block =>
    intro _ edge bad
    simpa [orderly, edge, bad] using checked
  | resetBlockFailureFlags b =>
    intro q le ne
    have walked : q ∈ st.chain.tree.down (st.chain.tree.height b + 1) b := mem_down.2 ⟨le, by omega⟩
    simpa [ne] using List.all_eq_true.1 checked q walked
  | header block | activateBestChain io _ | invalidateBlock io b | flush _ io => trivial
  | _ => cases checked

def orderlyRun (params : Params C) : List (Event C) → NodeState C → Option (NodeState C)
  | [], st => some st
  | event :: events, st =>
    if st.orderly event then (st.apply params event).bind (orderlyRun params events) else none

theorem Reach.of_orderlyRun {start : NodeState C}
    (reach : Reach params Orderly start st) (ran : orderlyRun params events st = some st') :
    Reach params Orderly start st' := by
  induction events generalizing st with
  | nil =>
    cases ran
    exact reach
  | cons _ events ih =>
    rw [orderlyRun] at ran
    split at ran
    · rename_i checked
      obtain ⟨_, applied, rest⟩ := bind_eq_some_iff.1 ran
      exact ih (.step reach (orderly_sound checked) applied) rest
    · cases ran

/-- A block with two children is connected with the first of them, and the operator invalidates it:
the node is back at the genesis block. -/
def invalidatedRun : List (Event Unit) :=
  [.block {} (.child 2 1), .block {} (.child 3 2), .block {} (.child 4 2), .activateBestChain {} 5,
    .invalidateBlock {} 2]

theorem flags_described_reconsidered :
    ∃ st, orderlyRun .permissive (invalidatedRun ++ [.resetBlockFailureFlags 2])
        (genesis .permissive () hashOrder) = some st ∧
      (3 ∈ st.chain.setBlockIndexCandidates ∧ 4 ∈ st.chain.setBlockIndexCandidates) ∧
      st.chain.Described := by
  have checked : (orderlyRun .permissive (invalidatedRun ++ [.resetBlockFailureFlags 2])
      (genesis .permissive () hashOrder)).any (fun st =>
        3 ∈ st.chain.setBlockIndexCandidates ∧ 4 ∈ st.chain.setBlockIndexCandidates) := by
    decide
  rw [any_eq_true] at checked
  obtain ⟨st, ran, members⟩ := checked
  exact ⟨st, ran, of_decide_eq_true members, flags_described (.of_orderlyRun .start ran)⟩

/-- The first child is marked, no block at or under it is found invalid, and it is no candidate. -/
def firstChildLost (st : NodeState Unit) : Bool :=
  3 ∈ st.chain.tree.blocks && (st.chain.data 3).failedChild &&
    ((st.chain.tree.down (st.chain.tree.height 3 + 1) 3).all fun v => !(st.chain.data v).failedValid) &&
      3 ∉ st.chain.setBlockIndexCandidates

/-- Reconsidering the second child takes the mark off the block under the fork. The first keeps
`BLOCK_FAILED_CHILD` with no block found invalid at or under it, and is no candidate. -/
theorem flags_not_described : ∃ st, (genesis .permissive () hashOrder).run .permissive
        (invalidatedRun ++ [.resetBlockFailureFlags 4]) = some st ∧
      (st.chain.data 3).failedChild ∧
      (∀ v, st.chain.tree.Le v 3 → (st.chain.data v).failedValid = false) ∧
      3 ∉ st.chain.setBlockIndexCandidates ∧ ¬ st.chain.Described := by
  have checked : ((genesis .permissive () hashOrder).run .permissive
      (invalidatedRun ++ [.resetBlockFailureFlags 4])).any firstChildLost := by
    decide
  rw [any_eq_true] at checked
  obtain ⟨st, ran, lost⟩ := checked
  simp only [firstChildLost, and_eq_true, decide_eq_true_eq, List.all_eq_true, not_eq_true'] at lost
  obtain ⟨⟨⟨known, marked⟩, walked⟩, missing⟩ := lost
  have clean : ∀ v, st.chain.tree.Le v 3 → (st.chain.data v).failedValid = false :=
    fun v le => walked v (mem_down.2 ⟨le, by omega⟩)
  refine ⟨st, ran, marked, clean, missing, fun described => ?_⟩
  obtain ⟨v, le, invalid⟩ := described.flags 3 known (by rw [BlockData.failed, marked, Bool.or_true])
  cases (clean v le).symm.trans invalid

end NodeState
end DogecoinCore
