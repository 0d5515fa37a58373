import DogecoinCore.NodeSteps

/-! Failure flags and the tree. A flag goes back to a block that was itself found invalid: every
operation that sets one keeps it so, in memory and on disk. Clearing flags keeps it so when no
strict ancestor of the block to reconsider carries one. -/
namespace DogecoinCore.ChainState
open BlockData Recorded HeaderTree Outcome ParentTree
variable {C : Type} {rules : Consensus C} {b m p x : UInt256} {st st' : ChainState C}

/-- Every flagged block has a block marked `BLOCK_FAILED_VALID` at or under it. -/
def Rooted (tree : HeaderTree) (data : UInt256 → BlockData) : Prop :=
  ∀ b ∈ tree.blocks, (data b).failed → ∃ v, tree.Le v b ∧ (data v).failedValid

theorem Rooted.marks {tree : HeaderTree} {data data' : UInt256 → BlockData}
    (rooted : Rooted tree data) (keeps : ∀ v, (data v).failedValid → (data' v).failedValid)
    (new : ∀ b, (data' b).failed → (data b).failed ∨ ∃ v, tree.Le v b ∧ (data' v).failedValid) :
    Rooted tree data' := by
  intro b mem bad
  obtain old | found := new b bad
  · obtain ⟨v, le, invalid⟩ := rooted b mem old
    exact ⟨v, le, keeps v invalid⟩
  · exact found

/-- The flags of a node: rooted in memory and on disk, and the genesis block has none. -/
structure Flagged (rules : Consensus C) (st : ChainState C) : Prop where
  memory : Rooted st.tree st.data
  disk : Rooted st.blocktree.tree st.blocktree.data
  genesis : (st.data rules.hashGenesisBlock).failed = false
  genesis_disk : (st.blocktree.data rules.hashGenesisBlock).failed = false

theorem connectTip_invalid_ne (ran : st.connectTip rules io b = .ok (.invalid st')) :
    b ≠ rules.hashGenesisBlock := by
  unfold connectTip at ran
  split at ran
  · cases ran
  split at ran
  · cases ran
  obtain ⟨verdict, judged, rest⟩ := bind_eq_ok.1 ran
  cases verdict with
  | invalid _ => exact (connectBlock_leftover judged).1
  | valid _ _ =>
    obtain ⟨_, _, done⟩ := bind_eq_ok.1 rest
    injection (ok.inj done)

theorem mem_disconnectedBy :
    x ∈ st.disconnectedBy b ↔ st.tree.Le b x ∧ x ≠ b ∧ st.contains b ∧ st.contains x := by
  unfold disconnectedBy
  split
  · rename_i held
    obtain ⟨tip, active, below⟩ := contains_iff.1 held
    rw [active, Option.elim_some, mem_down_above below]
    constructor
    · rintro ⟨above, le, ne⟩
      exact ⟨above, ne, held, contains_iff.2 ⟨tip, active, le⟩⟩
    rintro ⟨above, ne, -, on⟩
    obtain ⟨_, same, le⟩ := contains_iff.1 on
    obtain rfl := Option.mem_unique active same
    exact ⟨above, le, ne⟩
  · rename_i off
    exact ⟨fun mem => absurd mem List.not_mem_nil, fun held => absurd held.2.2.1 off⟩

theorem disconnectPast_off (bound : ∀ t, st.chainActive = some t → st.tree.height t < n)
    (ran : disconnectPast rules io b n st = .ok st') : ¬ st'.contains b := by
  induction n generalizing st with
  | zero =>
    cases ran
    rw [contains_iff]
    rintro ⟨t, active, -⟩
    exact absurd (bound t active) (Nat.not_lt_zero _)
  | succ n ih =>
    rw [disconnectPast] at ran
    split at ran
    · obtain ⟨_, disconnected, rest⟩ := bind_eq_ok.1 ran
      obtain ⟨tip, moved⟩ := disconnectTip_moves disconnected
      refine ih (fun t active => ?_) rest
      rw [moved.tip] at active
      have lower := st.tree.height_parent active
      have above := bound tip moved.active
      rw [moved.kept.tree]
      omega
    rename_i off
    cases ran
    exact off

namespace Flagged
section
variable (flags : Flagged rules st)
include flags

theorem of_same (tree : st'.tree = st.tree) (blocktree : st'.blocktree = st.blocktree)
    (data : ∀ b, (st'.data b).failedValid = (st.data b).failedValid ∧
      (st'.data b).failedChild = (st.data b).failedChild) : Flagged rules st' := by
  have failed : ∀ b, (st'.data b).failed = (st.data b).failed := fun b => by
    rw [failed, failed, (data b).1, (data b).2]
  refine ⟨?_, blocktree ▸ flags.disk, (failed _).trans flags.genesis, blocktree ▸ flags.genesis_disk⟩
  rw [tree]
  refine flags.memory.marks (fun v _ => ?_) (fun b _ => .inl ?_)
  · rwa [(data v).1]
  · rwa [← failed b]

private theorem of_marks (tree : st'.tree = st.tree) (blocktree : st'.blocktree = st.blocktree)
    (keeps : ∀ v, (st.data v).failedValid → (st'.data v).failedValid)
    (new : ∀ b, (st'.data b).failed → (st.data b).failed ∨
      b ≠ rules.hashGenesisBlock ∧ ∃ v, st.tree.Le v b ∧ (st'.data v).failedValid) :
    Flagged rules st' := by
  refine ⟨?_, blocktree ▸ flags.disk, ?_, blocktree ▸ flags.genesis_disk⟩
  · rw [tree]
    exact flags.memory.marks keeps fun b bad => (new b bad).imp_right And.right
  rw [Bool.eq_false_iff]
  intro bad
  obtain old | ⟨other, -⟩ := new _ bad
  · rw [flags.genesis] at old
    cases old
  · exact other rfl

theorem writeBlockIndex (inv : Recorded rules st) : Flagged rules st.writeBlockIndex := by
  have agrees : ∀ x ∈ st.tree.blocks, Persisted (st.data x) (st.writeBlockIndex.blocktree.data x) :=
    fun x known => (inv.writeBlockIndex.clean x known List.not_mem_nil).2
  refine ⟨flags.memory, fun b mem bad => ?_, flags.genesis, ?_⟩
  · obtain ⟨v, le, _⟩ := flags.memory b mem ((agrees b mem).failed bad)
    refine ⟨v, le, ?_⟩
    rwa [(agrees v (mem_of_le le mem)).failedValid]
  rw [Bool.eq_false_iff]
  intro bad
  have failed := (agrees _ inv.genesis_known).failed bad
  rw [flags.genesis] at failed
  cases failed

theorem flushed (inv : Recorded rules st) (wrote : Flushed st st') : Flagged rules st' := by
  have index :=
    (flags.of_same rfl rfl fun _ => ⟨rfl, rfl⟩ : Flagged rules st.flushBlockFile).writeBlockIndex
      (inv.of_data rfl rfl rfl rfl rfl rfl)
  cases wrote with
  | skip => exact flags
  | index => exact index
  | full => exact index.of_same rfl rfl fun _ => ⟨rfl, rfl⟩

theorem writeUndo (b : UInt256) : Flagged rules (st.writeUndo b) := by
  obtain ⟨_, _, _, advanced, -, -, shape⟩ := writeUndo_eq
  rw [shape]
  refine flags.of_same rfl rfl fun x => ?_
  by_cases same : x = b
  · subst same
    simp [advanced.failedValid, advanced.failedChild]
  · simp [same]

/-! ### Headers and blocks -/

theorem addToBlockIndex {block : CBlockHeader} (inv : Recorded rules st)
    (fresh : block.hash ∉ st.tree.blocks) : Flagged rules (st.addToBlockIndex block) := by
  obtain ⟨_, -, shape⟩ := addToBlockIndex_eq fresh
  rw [shape]
  refine ⟨fun b mem bad => ?_, flags.disk, ?_, flags.genesis_disk⟩
  · dsimp only at mem bad ⊢
    by_cases same : b = block.hash
    · subst same
      simp [failed, null] at bad
    have known := (List.mem_cons.1 mem).resolve_left same
    rw [Function.update_of_ne same] at bad
    obtain ⟨w, le, _⟩ := flags.memory b known bad
    refine ⟨w, (insert_le_iff fresh known).2 le, ?_⟩
    rwa [Function.update_of_ne]
    rintro rfl
    exact fresh (mem_of_le le known)
  dsimp only
  rw [Function.update_of_ne]
  · exact flags.genesis
  · rintro same
    exact fresh (same ▸ inv.genesis_known)

theorem marksAbove (inv : Recorded rules st)
    (invalid : (st.data v).failedValid) (tree : st'.tree = st.tree)
    (blocktree : st'.blocktree = st.blocktree)
    (data : ∀ x, st'.data x = st.data x ∨ st.tree.Le v x ∧ x ≠ v ∧
      st'.data x = { st.data x with failedChild := true }) : Flagged rules st' := by
  have keeps : ∀ x, (st.data x).failedValid → (st'.data x).failedValid := by
    intro x _
    obtain same | ⟨-, -, marked⟩ := data x
    · rwa [same]
    · rwa [marked]
  refine flags.of_marks tree blocktree keeps fun x bad => ?_
  obtain same | ⟨above, ne, -⟩ := data x
  · exact .inl (same ▸ bad)
  refine .inr ⟨?_, v, above, keeps v invalid⟩
  rintro rfl
  exact ne (above.eq_root inv.genesis_root).symm

theorem header {block : CBlockHeader} (inv : Recorded rules st)
    (ended : HeaderLeft rules st block st') : Flagged rules st' := by
  obtain rfl | ⟨fresh, -, rfl⟩ | ⟨_, below, invalid, rfl⟩ := HeaderOutcome.left ended
  · exact flags
  · exact flags.addToBlockIndex inv fresh
  · refine flags.marksAbove inv invalid rfl rfl fun _ => ?_
    simp only [markFailedChildren, modifyAll]
    split
    · rename_i walked
      obtain ⟨above, -, ne⟩ := (mem_down_above below).1 walked
      exact .inr ⟨above, ne, rfl⟩
    · exact .inl rfl

theorem invalidates (other : b ≠ rules.hashGenesisBlock)
    (tree : st'.tree = st.tree) (blocktree : st'.blocktree = st.blocktree)
    (data : ∀ x, st'.data x = if x = b then { st.data x with failedValid := true } else st.data x) :
    Flagged rules st' := by
  refine flags.of_marks tree blocktree (fun x held => ?_) fun x bad => ?_
  · rw [data]
    split
    · rfl
    · exact held
  rw [data] at bad
  split at bad
  · rename_i same
    subst same
    exact .inr ⟨other, x, .refl x, by rw [data, if_pos rfl]⟩
  · exact .inl bad

theorem received (arrived : Received rules st b st') : Flagged rules st' := by
  obtain ⟨_, _, _, _, _, _, frame⟩ := arrived.frame
  refine flags.of_same arrived.toRelinked.tree (by rw [frame]) fun x => ?_
  exact ⟨(arrived.grown x).failedValid, (arrived.grown x).failedChild⟩

section
variable (inv : Recorded rules st)
include inv

theorem block {block : CBlock} (ended : BlockLeft rules st block st') : Flagged rules st' := by
  obtain left | ⟨_, passed, arrived | ⟨bare, rfl⟩⟩ := BlockOutcome.left ended
  · exact flags.header inv left
  · exact (flags.header inv (.inl passed)).received arrived
  refine (flags.header inv (.inl passed)).invalidates ?_ rfl rfl
    fun _ => bodyInvalid_data
  intro same
  rw [same, (inv.header (.inl passed)).toIndexInv.genesis_body] at bare
  cases bare

/-! ### Moves of `ActivateBestChain` -/

theorem disconnectTip (ran : st.disconnectTip rules io = .ok st') : Flagged rules st' := by
  obtain ⟨tip, coins, flushed, _, _, _, _, _, wrote, rfl⟩ := disconnectTip_ok ran
  have without : Flagged rules (st.withoutTip tip coins) := flags.of_same rfl rfl fun _ => ⟨rfl, rfl⟩
  exact (without.flushed (inv.of_data rfl rfl rfl rfl rfl rfl) wrote).of_same rfl rfl
    fun _ => ⟨rfl, rfl⟩

theorem connectTip (ran : st.connectTip rules io b = .ok (.connected st')) : Flagged rules st' := by
  obtain ⟨accepted, coins, flushed, _, _, _, accept, wrote, rfl⟩ := connectTip_connected ran
  have written : Flagged rules accepted ∧ Recorded rules accepted := by
    cases accept with
    | genesis _ => exact ⟨flags, inv⟩
    | block _ _ => exact ⟨flags.writeUndo b, inv.writeUndo b⟩
  have viewed : Flagged rules (accepted.withTip b coins) :=
    written.1.of_same rfl rfl fun _ => ⟨rfl, rfl⟩
  exact (viewed.flushed (written.2.of_data rfl rfl rfl rfl rfl rfl) wrote).of_same rfl rfl
    fun _ => ⟨rfl, rfl⟩

theorem dropped
    (best : st.bestCandidate = some m) (walked : st.walk (st.tree.height m) m = .unusable x) :
    Flagged rules (st.removeChain m x) := by
  obtain ⟨below, -, -⟩ := walk_unusable walked
  have failed := (inv.dropped best walked).1
  obtain ⟨_, _, shape, -, marked⟩ := removeChain_eq st m x
  obtain ⟨-, rfl⟩ := marked failed
  have mem := mem_of_le below
    (inv.known m (inv.linked_tx m (inv.candidate_linked m (bestCandidate_mem best))))
  obtain ⟨_, under, invalid⟩ := flags.memory x mem failed
  rw [shape]
  refine flags.marksAbove inv invalid rfl rfl fun _ => ?_
  dsimp only
  split
  · rename_i removed
    obtain ⟨above, -, ne⟩ := (mem_down_above below).1 removed
    refine .inr ⟨under.trans above, ?_, rfl⟩
    rintro rfl
    exact ne (above.antisymm under).symm
  · exact .inl rfl

theorem step (step : Step rules io st st') : Flagged rules st' := by
  cases step with
  | drop best walked => exact flags.dropped inv best walked
  | disconnect ran => exact flags.disconnectTip inv ran
  | connect ran pruned =>
    obtain ⟨_, -, rfl⟩ := pruneCandidates_ok pruned
    exact (flags.connectTip inv ran).of_same rfl rfl fun _ => ⟨rfl, rfl⟩
  | invalid ran =>
    have other := connectTip_invalid_ne ran
    have rejected := connectTip_rejected ran
    obtain ⟨-, -, -, -, rfl⟩ := connectTip_invalid ran
    exact flags.invalidates other rejected.kept.tree rfl rejected.data

theorem steps (steps : Steps rules io st st') : Flagged rules st' := by
  induction steps with
  | refl => exact flags
  | tail before step ih => exact ih.step (inv.steps before) step

/-! ### `InvalidateBlock`, `ResetBlockFailureFlags` and `PreciousBlock` -/

theorem invalidateBlock (other : b ≠ rules.hashGenesisBlock)
    (ran : st.invalidateBlock rules io b = .ok st') : Flagged rules st' := by
  obtain ⟨mid, _, steps, rfl⟩ := invalidate_steps ran
  have marked : ∀ v, ((mid.markInvalid (st.disconnectedBy b) b).data v).failedValid =
      ((mid.data v).failedValid || decide (v = b)) := fun v => by
    rw [markInvalid_data]
  refine (flags.steps inv steps).of_marks rfl rfl (fun v held => ?_) fun x bad => ?_
  · exact (marked v).trans (by rw [held, Bool.true_or])
  have root : ((mid.markInvalid (st.disconnectedBy b) b).data b).failedValid :=
    (marked b).trans (by simp)
  change ((mid.markInvalid (st.disconnectedBy b) b).data x).failed at bad
  rw [markInvalid_data] at bad
  simp only [failed, Bool.or_eq_true, decide_eq_true_eq, mem_disconnectedBy] at bad ⊢
  rcases bad with (old | rfl) | old | ⟨above, ne, -, -⟩
  · exact .inl (.inl old)
  · exact .inr ⟨other, x, .refl x, root⟩
  · exact .inl (.inr old)
  refine .inr ⟨?_, b, steps.kept.tree ▸ above, root⟩
  rintro rfl
  exact ne (above.eq_root inv.genesis_root).symm

end

end

def CleanBelow (st : ChainState C) (b : UInt256) : Prop :=
  ∀ q, st.tree.Le q b → q ≠ b → (st.data q).failed = false

theorem resetBlockFailureFlags (flags : Flagged rules st) (mem : b ∈ st.tree.blocks)
    (clean : CleanBelow st b) : Flagged rules (st.resetBlockFailureFlags b) := by
  have data : ∀ x, ((st.resetBlockFailureFlags b).data x).failed →
      ¬ st.tree.Le b x ∧ (st.data x).failed := by
    intro x bad
    rw [resetFlags_data mem] at bad
    split at bad
    · cases bad
    · rename_i apart
      exact ⟨fun above => apart (.inl above), bad⟩
  refine ⟨fun x known bad => ?_, flags.disk, ?_, flags.genesis_disk⟩
  · obtain ⟨off, old⟩ := data x bad
    obtain ⟨v, le, invalid⟩ := flags.memory x known old
    refine ⟨v, le, ?_⟩
    have failed : (st.data v).failed := by rw [failed, invalid, Bool.true_or]
    rw [resetFlags_data mem, if_neg]
    · exact invalid
    rintro (above | below)
    · exact off (above.trans le)
    by_cases same : v = b
    · exact off (same ▸ le)
    · rw [clean v below same] at failed
      cases failed
  rw [Bool.eq_false_iff]
  intro bad
  have failed := (data _ bad).2
  rw [flags.genesis] at failed
  cases failed

theorem preciousBlock (flags : Flagged rules st) (ran : st.preciousBlock b = .ok (some st')) :
    Flagged rules st' := by
  obtain ⟨_, _, _, _, rfl, same⟩ := preciousBlock_same ran
  refine flags.of_same rfl rfl fun x => ?_
  obtain ⟨_, is⟩ := same x
  simp [is]

theorem loaded {coins : CoinsView C} {addr : UInt256 ↪ ℕ}
    (loaded : Loaded db coins addr st) (stored : Stored rules db.tree db.data)
    (rooted : Rooted db.tree db.data) (genesis : (db.data rules.hashGenesisBlock).failed = false) :
    Flagged rules st := by
  have memory : ∀ b ∈ db.tree.blocks, (db.entry b).failed →
      ∃ v, db.tree.Le v b ∧ (db.data v).failedValid := by
    intro b
    induction b using db.tree.parent_induction with
    | step b ih =>
      intro known bad
      rw [db.entry_eq, loadEntry_failed] at bad
      rcases bad with own | ⟨-, d, found, parent⟩
      · exact rooted b known own
      obtain ⟨p, edge, rfl⟩ := Option.map_eq_some_iff.1 found
      obtain ⟨v, le, invalid⟩ := ih p edge (db.tree.parent_mem edge).2 parent
      exact ⟨v, le.trans (le_of_parent edge), invalid⟩
  refine ⟨?_, loaded.blocktree ▸ rooted, ?_, loaded.blocktree ▸ genesis⟩
  · rw [loaded.tree, loaded.data]
    intro b known bad
    obtain ⟨v, le, invalid⟩ := memory b known bad
    exact ⟨v, le, (persisted_entry).failedValid ▸ invalid⟩
  rw [loaded.data, Bool.eq_false_iff, db.entry_eq, ne_eq, loadEntry_failed, stored.genesis_root]
  rintro (own | ⟨-, d, found, -⟩)
  · rw [genesis] at own
    cases own
  · cases found

end Flagged
end DogecoinCore.ChainState
