import DogecoinCore.AcceptanceProofs

/-! The block index on disk against the one in memory. Entries that are not dirty
agree, and a flush writes the dirty ones all at once, so the database is always an
index some earlier state had. The exception is `BLOCK_FAILED_CHILD`, which
`FindMostWorkChain` sets without marking the entry dirty. -/
namespace DogecoinCore.ChainState
open Function List ParentTree BlockData
variable {C : Type} {rules : Consensus C} {b c p q x : UInt256}
  {st st' st'' : ChainState C}

structure Persisted (d stored : BlockData) : Prop where
  nTx : stored.nTx = d.nTx
  haveData : stored.haveData = d.haveData
  haveUndo : stored.haveUndo = d.haveUndo
  validity : stored.validity = d.validity
  failedValid : stored.failedValid = d.failedValid
  failedChild : stored.failedChild → d.failedChild

namespace Persisted
theorem refl (d : BlockData) : Persisted d d := ⟨rfl, rfl, rfl, rfl, rfl, id⟩

theorem of_link (n : ℕ) (s : ℤ) : Persisted { d with nChainTx := n, nSequenceId := s } d :=
  ⟨rfl, rfl, rfl, rfl, rfl, id⟩

theorem trans (newer : Persisted d d') (older : Persisted d' d'') : Persisted d d'' :=
  ⟨older.nTx.trans newer.nTx, older.haveData.trans newer.haveData,
    older.haveUndo.trans newer.haveUndo, older.validity.trans newer.validity,
    older.failedValid.trans newer.failedValid, fun child => newer.failedChild (older.failedChild child)⟩

theorem failed (persisted : Persisted d d') (bad : d'.failed) : d.failed := by
  simp only [BlockData.failed, Bool.or_eq_true] at bad ⊢
  exact bad.imp (persisted.failedValid ▸ ·) persisted.failedChild

end Persisted

structure Stored (rules : Consensus C) (tree : HeaderTree) (data : UInt256 → BlockData) : Prop where
  genesis_known : rules.hashGenesisBlock ∈ tree.blocks
  genesis_root : tree.parent rules.hashGenesisBlock = none
  genesis_body : 0 < (data rules.hashGenesisBlock).nTx
  only_root : ∀ b ∈ tree.blocks, tree.parent b = none → b = rules.hashGenesisBlock
  body : ∀ b, (data b).haveData ↔ 0 < (data b).nTx
  known : ∀ b, 0 < (data b).nTx → b ∈ tree.blocks
  known_valid : ∀ b ∈ tree.blocks, BlockValidity.tree.toNat ≤ (data b).validity.toNat
  valid : ∀ b, 0 < (data b).nTx → BlockValidity.transactions.toNat ≤ (data b).validity.toNat

theorem IndexInv.toStored (inv : IndexInv rules st) : Stored rules st.tree st.data where
  genesis_known := inv.genesis_known
  genesis_root := inv.genesis_root
  genesis_body := inv.linked_tx _ inv.genesis_linked
  only_root := inv.only_root
  body := inv.body
  known := inv.known
  known_valid := inv.known_valid
  valid := inv.valid

theorem Stored.genesis_le {tree : HeaderTree} {data : UInt256 → BlockData}
    (stored : Stored rules tree data) (mem : b ∈ tree.blocks) :
    tree.Le rules.hashGenesisBlock b := by
  induction b using tree.parent_induction with
  | step b ih =>
    cases edge : tree.parent b with
    | none => exact stored.only_root b mem edge ▸ .refl b
    | some p => exact (ih p edge (tree.parent_mem edge).2).trans (le_of_parent edge)

structure DiskInv (rules : Consensus C) (st : ChainState C) : Prop where
  stored : Stored rules st.blocktree.tree st.blocktree.data
  blocks : ∀ b ∈ st.blocktree.tree.blocks, b ∈ st.tree.blocks
  parent : ∀ b ∈ st.blocktree.tree.blocks, st.blocktree.tree.parent b = st.tree.parent b
  clean : ∀ b ∈ st.tree.blocks, b ∉ st.setDirtyBlockIndex →
    b ∈ st.blocktree.tree.blocks ∧ Persisted (st.data b) (st.blocktree.data b)
  nTx : ∀ b ∈ st.blocktree.tree.blocks, 0 < (st.blocktree.data b).nTx → 0 < (st.data b).nTx
  haveUndo : ∀ b ∈ st.blocktree.tree.blocks, (st.blocktree.data b).haveUndo →
    (st.data b).haveUndo

/-- A change in memory that marks as dirty what the database will need. -/
structure Touched (st st' : ChainState C) : Prop where
  tree : st'.tree = st.tree
  blocktree : st'.blocktree = st.blocktree
  dirty : ∀ b ∈ st.setDirtyBlockIndex, b ∈ st'.setDirtyBlockIndex
  clean : ∀ b, b ∈ st'.setDirtyBlockIndex ∨ Persisted (st'.data b) (st.data b)
  nTx : ∀ b, 0 < (st.data b).nTx → 0 < (st'.data b).nTx
  haveUndo : ∀ b, (st.data b).haveUndo → (st'.data b).haveUndo

namespace Touched
private theorem of_persisted (tree : st'.tree = st.tree) (blocktree : st'.blocktree = st.blocktree)
    (dirty : st'.setDirtyBlockIndex = st.setDirtyBlockIndex)
    (data : ∀ b, Persisted (st'.data b) (st.data b)) : Touched st st' where
  tree := tree
  blocktree := blocktree
  dirty _ mem := dirty ▸ mem
  clean b := .inr (data b)
  nTx b stored := (data b).nTx ▸ stored
  haveUndo b undo := (data b).haveUndo ▸ undo

end Touched

private theorem Touched.of_update (tree : st'.tree = st.tree) (blocktree : st'.blocktree = st.blocktree)
    (dirty : ∀ x ∈ st.setDirtyBlockIndex, x ∈ st'.setDirtyBlockIndex)
    (data : st'.data = Function.update st.data b d) (marked : b ∈ st'.setDirtyBlockIndex)
    (nTx : d.nTx = (st.data b).nTx) (haveUndo : (st.data b).haveUndo → d.haveUndo) :
    Touched st st' where
  tree := tree
  blocktree := blocktree
  dirty := dirty
  clean x := by
    by_cases same : x = b
    · exact .inl (same ▸ marked)
    · rw [data, update_of_ne same]
      exact .inr (.refl _)
  nTx x stored := by
    by_cases same : x = b
    · subst same
      simpa [data, nTx] using stored
    · simpa [data, same] using stored
  haveUndo x undo := by
    by_cases same : x = b
    · subst same
      simpa [data] using haveUndo undo
    · simpa [data, same] using undo

theorem Relinked.touched (relinked : Relinked st st') : Touched st st' where
  tree := relinked.tree
  blocktree := by
    obtain ⟨_, _, _, _, _, _, rfl⟩ := relinked.frame
    rfl
  dirty := relinked.dirty
  clean b := by
    refine (relinked.clean b).imp_right ?_
    rintro ⟨n, s, entry⟩
    rw [entry]
    exact .of_link n s
  nTx b stored := by
    rw [(relinked.grown b).nTx stored]
    exact stored
  haveUndo b undo := by
    rw [(relinked.grown b).haveUndo]
    exact undo

theorem DiskInv.touched (disk : DiskInv rules st) (touched : Touched st st') :
    DiskInv rules st' where
  stored := touched.blocktree ▸ disk.stored
  blocks b mem := by
    rw [touched.blocktree] at mem
    rw [touched.tree]
    exact disk.blocks b mem
  parent b mem := by
    rw [touched.blocktree] at mem ⊢
    rw [touched.tree]
    exact disk.parent b mem
  clean b mem fresh := by
    rw [touched.tree] at mem
    rw [touched.blocktree]
    have unmarked : b ∉ st.setDirtyBlockIndex := fun old => fresh (touched.dirty b old)
    obtain ⟨held, persisted⟩ := disk.clean b mem unmarked
    exact ⟨held, ((touched.clean b).resolve_left fresh).trans persisted⟩
  nTx b mem stored := by
    rw [touched.blocktree] at mem stored
    exact touched.nTx b (disk.nTx b mem stored)
  haveUndo b mem undo := by
    rw [touched.blocktree] at mem undo
    exact touched.haveUndo b (disk.haveUndo b mem undo)

structure Recorded (rules : Consensus C) (st : ChainState C) : Prop extends IndexInv rules st where
  disk : DiskInv rules st

theorem Recorded.writeBlockIndex (inv : Recorded rules st) : DiskInv rules st.writeBlockIndex := by
  have agrees : ∀ b ∈ st.tree.blocks, Persisted (st.data b)
      (if b ∈ st.setDirtyBlockIndex then st.data b else st.blocktree.data b) := by
    intro b mem
    split
    · exact .refl _
    · exact (inv.disk.clean b mem ‹_›).2
  have unknown : ∀ b, 0 < (if b ∈ st.setDirtyBlockIndex then st.data b
      else st.blocktree.data b).nTx → b ∈ st.tree.blocks := by
    intro b stored
    split at stored
    · exact inv.known b stored
    · exact inv.disk.blocks b (inv.disk.stored.known b stored)
  refine ⟨?_, fun _ => id, fun _ _ => rfl, ?_, ?_, ?_⟩
  · refine ⟨inv.genesis_known, inv.genesis_root, ?_, inv.only_root, ?_, unknown, ?_, ?_⟩
    · change 0 < (if _ then _ else _ : BlockData).nTx
      rw [(agrees _ inv.genesis_known).nTx]
      exact inv.linked_tx _ inv.genesis_linked
    · intro b
      change (if _ then _ else _ : BlockData).haveData ↔ 0 < (if _ then _ else _ : BlockData).nTx
      split
      · exact inv.body b
      · exact inv.disk.stored.body b
    · intro b mem
      change _ ≤ (if _ then _ else _ : BlockData).validity.toNat
      rw [(agrees b mem).validity]
      exact inv.known_valid b mem
    intro b stored
    have same := agrees b (unknown b stored)
    change _ ≤ (if _ then _ else _ : BlockData).validity.toNat
    rw [same.validity]
    exact inv.valid b (same.nTx ▸ stored)
  · intro b mem _
    exact ⟨mem, agrees b mem⟩
  · intro b mem stored
    exact (agrees b mem).nTx ▸ stored
  · intro b mem undo
    exact (agrees b mem).haveUndo ▸ undo

theorem IndexInv.of_data (inv : IndexInv rules st) (tree : st'.tree = st.tree)
    (data : st'.data = st.data)
    (candidates : st'.setBlockIndexCandidates = st.setBlockIndexCandidates)
    (unlinked : st'.mapBlocksUnlinked = st.mapBlocksUnlinked) : IndexInv rules st' :=
  inv.of_same tree (fun _ => by rw [data]) (fun _ => by rw [data]) (fun _ => by rw [data])
    (fun _ => by rw [data]) (by rw [candidates]; exact inv.candidate_linked) unlinked

theorem IndexInv.linkable_iff (inv : IndexInv rules st) :
    st.linkable b ↔ (st.data b).failed = false ∧ (st.data b).nChainTx ≠ 0 := by
  simp only [linkable, Bool.and_eq_true, isValid_iff, decide_eq_true_eq]
  constructor
  · rintro ⟨⟨clean, _⟩, counted⟩
    exact ⟨clean, counted⟩
  · rintro ⟨clean, counted⟩
    exact ⟨⟨clean, inv.valid b (inv.linked_tx b counted)⟩, counted⟩

/-- The sequence id that `PreciousBlock` gives on this tip. -/
def preciousSequenceId (st : ChainState C) (tip : UInt256) : ℤ :=
  if st.nLastPreciousChainwork < st.tree.nChainWork tip then -1 else st.nBlockReverseSequenceId

/-- The blocks of the active chain over `b`, which `InvalidateBlock` marks. -/
def disconnectedBy (st : ChainState C) (b : UInt256) : List UInt256 :=
  if st.contains b then
    st.chainActive.elim [] fun tip => st.tree.down (st.tree.height tip - st.tree.height b) tip
  else []

theorem invalidate_ok (ran : st.invalidateBlock rules io b = .ok st') :
    ∃ mid tip n, (∀ t, st.chainActive = some t → st.tree.height t < n) ∧
      disconnectPast rules io b n st = .ok mid ∧ mid.chainActive = some tip ∧
      st' = (mid.markInvalid (st.disconnectedBy b) b).reinsertCandidates tip := by
  obtain ⟨mid, past, rest⟩ := Outcome.bind_eq_ok.1 ran
  simp only at rest
  split at rest
  · cases rest
  rename_i tip active
  cases rest
  refine ⟨mid, tip, _, fun t found => ?_, past, active, rfl⟩
  rw [found, Option.elim_some]
  exact Nat.lt_succ_self _

theorem disconnectPast_steps (ran : disconnectPast rules io b n st = .ok st') :
    Steps rules io st st' := by
  induction n generalizing st with
  | zero =>
    cases ran
    exact .refl
  | succ n ih =>
    rw [disconnectPast] at ran
    split at ran
    · obtain ⟨_, disconnected, rest⟩ := Outcome.bind_eq_ok.1 ran
      exact .head (.disconnect disconnected) (ih rest)
    · cases ran
      exact .refl

theorem invalidate_steps (ran : st.invalidateBlock rules io b = .ok st') :
    ∃ mid tip, Steps rules io st mid ∧
      st' = (mid.markInvalid (st.disconnectedBy b) b).reinsertCandidates tip := by
  obtain ⟨mid, tip, _, -, past, -, is⟩ := invalidate_ok ran
  exact ⟨mid, tip, disconnectPast_steps past, is⟩

namespace Recorded
section
variable (inv : Recorded rules st)
include inv

theorem flushed (flushed : Flushed st st') : Recorded rules st' := by
  have files : Recorded rules st.flushBlockFile := ⟨inv.of_data rfl rfl rfl rfl,
      inv.disk.touched (.of_persisted rfl rfl rfl fun _ => .refl _)⟩
  have index : Recorded rules st.flushBlockFile.writeBlockIndex :=
    ⟨inv.of_data rfl rfl rfl rfl, files.writeBlockIndex⟩
  cases flushed with
  | skip => exact inv
  | index => exact index
  | full =>
    exact ⟨inv.of_data rfl rfl rfl rfl,
      index.disk.touched (.of_persisted rfl rfl rfl fun _ => .refl _)⟩

theorem of_data (tree : st'.tree = st.tree) (data : st'.data = st.data)
    (candidates : st'.setBlockIndexCandidates = st.setBlockIndexCandidates)
    (unlinked : st'.mapBlocksUnlinked = st.mapBlocksUnlinked)
    (blocktree : st'.blocktree = st.blocktree)
    (dirty : st'.setDirtyBlockIndex = st.setDirtyBlockIndex) : Recorded rules st' :=
  ⟨inv.toIndexInv.of_data tree data candidates unlinked,
    inv.disk.touched (.of_persisted tree blocktree dirty fun _ => by rw [data]; exact .refl _)⟩

theorem addToBlockIndex
    (fresh : block.hash ∉ st.tree.blocks) (parent : block.hashPrevBlock ∈ st.tree.blocks) :
    Recorded rules (st.addToBlockIndex block) := by
  refine ⟨inv.toIndexInv.addToBlockIndex fresh parent, ?_⟩
  obtain ⟨_, _, shape⟩ := addToBlockIndex_eq fresh
  have known : ∀ x, x ∈ st.blocktree.tree.blocks → x ≠ block.hash := by
    rintro x mem rfl
    exact fresh (inv.disk.blocks _ mem)
  rw [shape]
  refine ⟨inv.disk.stored, ?_, ?_, ?_, ?_, ?_⟩
  · intro x mem
    exact mem_cons_of_mem _ (inv.disk.blocks x mem)
  · intro x mem
    rw [HeaderTree.insert_parent_of_ne fresh (known x mem)]
    exact inv.disk.parent x mem
  · intro x mem unmarked
    simp only [mem_insert_iff, not_or] at unmarked
    have old := (mem_cons.1 mem).resolve_left unmarked.1
    simpa [unmarked.1] using inv.disk.clean x old unmarked.2
  · intro x mem stored
    simpa [known x mem] using inv.disk.nTx x mem stored
  · intro x mem undo
    simpa [known x mem] using inv.disk.haveUndo x mem undo

theorem received (received : Received rules st b st') : Recorded rules st' :=
  ⟨received.index, inv.disk.touched received.toRelinked.touched⟩

end

section
variable (inv : Recorded rules st)
include inv

private theorem of_flags (tree : st'.tree = st.tree) (blocktree : st'.blocktree = st.blocktree)
    (dirty : ∀ b ∈ st.setDirtyBlockIndex, b ∈ st'.setDirtyBlockIndex)
    (data : ∀ b, ∃ v c s, st'.data b =
      { st.data b with failedValid := v, failedChild := c, nSequenceId := s })
    (marked : ∀ b, b ∈ st'.setDirtyBlockIndex ∨ (st'.data b).failedValid = (st.data b).failedValid ∧
        ((st.data b).failedChild → (st'.data b).failedChild))
    (candidates : ∀ b ∈ st'.setBlockIndexCandidates, (st.data b).nChainTx ≠ 0)
    (unlinked : st'.mapBlocksUnlinked = st.mapBlocksUnlinked) : Recorded rules st' := by
  have index : IndexInv rules st' := by
    refine inv.toIndexInv.of_same tree ?_ ?_ ?_ ?_ candidates unlinked
    all_goals
      intro b
      obtain ⟨_, _, _, entry⟩ := data b
      rw [entry]
  refine ⟨index, inv.disk.touched ⟨tree, blocktree, dirty, fun b => ?_, fun b _ => ?_,
    fun b _ => ?_⟩⟩
  · obtain ⟨_, _, _, entry⟩ := data b
    refine (marked b).imp_right ?_
    rintro ⟨valid, child⟩
    refine ⟨?_, ?_, ?_, ?_, valid.symm, child⟩ <;> rw [entry]
  · obtain ⟨_, _, _, entry⟩ := data b
    rwa [entry]
  · obtain ⟨_, _, _, entry⟩ := data b
    rwa [entry]

theorem markFailedChildren (prev failedit : UInt256) :
    Recorded rules (st.markFailedChildren prev failedit) := by
  refine inv.of_flags rfl rfl ?_ ?_ ?_ inv.candidate_linked rfl
  · intro b mem
    exact mem_union_iff.2 (.inr mem)
  · intro b
    simp only [ChainState.markFailedChildren, modifyAll]
    split <;> exact ⟨_, _, _, rfl⟩
  intro b
  simp only [ChainState.markFailedChildren, modifyAll]
  split
  · exact .inl (mem_union_iff.2 (.inl ‹_›))
  · exact .inr ⟨rfl, id⟩

private theorem bodyInvalid (b : UInt256) :
    Recorded rules ((st.modify b fun d => { d with failedValid := true }).markDirty b) := by
  refine inv.of_flags rfl rfl ?_ ?_ ?_ inv.candidate_linked rfl
  · intro x mem
    exact mem_insert_of_mem mem
  · intro x
    by_cases same : x = b
    · subst same
      exact ⟨_, _, _, update_self x _ st.data⟩
    · exact ⟨_, _, _, update_of_ne same _ st.data⟩
  intro x
  by_cases same : x = b
  · exact .inl (same ▸ mem_insert_self)
  · simp [modify, markDirty, same]

theorem header (ended : HeaderLeft rules st block st') : Recorded rules st' := by
  obtain rfl | ⟨fresh, parent, rfl⟩ | ⟨failedit, -, -, rfl⟩ := HeaderOutcome.left ended
  · exact inv
  · exact inv.addToBlockIndex fresh parent
  · exact inv.markFailedChildren _ failedit

theorem block {block : CBlock} (ended : BlockLeft rules st block st') : Recorded rules st' := by
  obtain left | ⟨_, passed, arrived | ⟨-, rfl⟩⟩ := BlockOutcome.left ended
  · exact inv.header left
  · exact (inv.header (.inl passed)).received arrived
  · exact (inv.header (.inl passed)).bodyInvalid block.hash

theorem writeUndo (b : UInt256) : Recorded rules (st.writeUndo b) := by
  obtain ⟨_, _, _, advanced, _, _, shape⟩ := writeUndo_eq
  have entries : ∀ x, Advanced (st.data x) ((st.writeUndo b).data x) := by
    intro x
    rw [shape]
    by_cases same : x = b
    · simpa [same] using advanced
    · simpa [same] using Advanced.refl (st.data x)
  have index : IndexInv rules (st.writeUndo b) := by
    refine inv.toIndexInv.of_same ?_ (fun x => (entries x).nTx) (fun x => (entries x).nChainTx)
      (fun x => (entries x).haveData) (fun x => (entries x).validity) ?_ ?_
    · rw [shape]
    · rw [shape]
      exact inv.candidate_linked
    · rw [shape]
  refine ⟨index, inv.disk.touched ?_⟩
  unfold ChainState.writeUndo
  split
  · exact .of_persisted rfl rfl rfl fun _ => .refl _
  obtain ⟨_, _, _, raised⟩ := raiseValidity_eq { st.data b with haveUndo := true } .scripts
  simp only [modify, raised]
  refine Touched.of_update rfl rfl ?_ rfl mem_insert_self rfl fun _ => rfl
  intro x mem
  exact mem_insert_of_mem mem

theorem invalidBlockFound (b : UInt256) : Recorded rules (st.invalidBlockFound b) := by
  have marked := inv.bodyInvalid b
  refine marked.of_flags rfl rfl (fun _ => id) (fun _ => ⟨_, _, _, rfl⟩)
    (fun _ => .inr ⟨rfl, id⟩) ?_ rfl
  intro x mem
  exact marked.candidate_linked x (mem_of_mem_filter mem)

theorem dropped (best : st.bestCandidate = some m)
    (walked : st.walk (st.tree.height m) m = .unusable x) :
    (st.data x).failed ∧ Recorded rules (st.removeChain m x) := by
  obtain ⟨below, _, bad⟩ := walk_unusable walked
  have counted := inv.toLinked.linked_of_le below
    (inv.candidate_linked m (bestCandidate_mem best))
  have failed : (st.data x).failed := by
    refine bad.resolve_right fun missing => ?_
    have body := inv.toLinked.linked_body x counted
    rw [missing] at body
    cases body
  obtain ⟨data, _, shape, _, marked⟩ := removeChain_eq st m x
  obtain ⟨rfl, rfl⟩ := marked failed
  rw [shape]
  refine ⟨failed, inv.of_flags rfl rfl (fun _ => id) ?_ ?_ ?_ rfl⟩
  · intro b
    dsimp only
    split <;> exact ⟨_, _, _, rfl⟩
  · intro b
    refine .inr ?_
    dsimp only
    split <;> simp
  · intro b mem
    exact inv.candidate_linked b (mem_of_mem_filter mem)

theorem disconnectTip (ran : st.disconnectTip rules io = .ok st') : Recorded rules st' := by
  obtain ⟨tip, coins, flushed, _, _, _, _, _, wrote, rfl⟩ := disconnectTip_ok ran
  have without : Recorded rules (st.withoutTip tip coins) := inv.of_data rfl rfl rfl rfl rfl rfl
  exact (without.flushed wrote).of_data rfl rfl rfl rfl rfl rfl

theorem connectTip
    (ran : st.connectTip rules io b = .ok (.connected st')) : Recorded rules st' := by
  obtain ⟨accepted, coins, flushed, _, _, _, accept, wrote, rfl⟩ := connectTip_connected ran
  have written : Recorded rules accepted := by
    cases accept with
    | genesis _ => exact inv
    | block _ _ => exact inv.writeUndo b
  have viewed : Recorded rules (accepted.withTip b coins) := written.of_data rfl rfl rfl rfl rfl rfl
  exact (viewed.flushed wrote).of_data rfl rfl rfl rfl rfl rfl

theorem prune (ran : st.pruneBlockIndexCandidates = .ok st') : Recorded rules st' := by
  obtain ⟨_, _, rfl⟩ := pruneCandidates_ok ran
  refine inv.of_flags rfl rfl (fun _ => id) (fun _ => ⟨_, _, _, rfl⟩) (fun _ => .inr ⟨rfl, id⟩) ?_ rfl
  intro x mem
  exact inv.candidate_linked x (mem_of_mem_filter mem)

/-- **Every move of `ActivateBestChain` keeps index and database.** -/
theorem step (step : Step rules io st st') : Recorded rules st' := by
  cases step with
  | drop best walked => exact (inv.dropped best walked).2
  | disconnect ran => exact inv.disconnectTip ran
  | connect ran pruned => exact (inv.connectTip ran).prune pruned
  | invalid ran =>
    obtain ⟨_, _, _, _, rfl⟩ := connectTip_invalid ran
    exact inv.invalidBlockFound _

theorem steps (steps : Steps rules io st st') : Recorded rules st' := by
  induction steps with
  | refl => exact inv
  | tail _ step ih => exact ih.step step

end

theorem markInvalid_data (st : ChainState C) (disconnected : List UInt256) (b x : UInt256) :
    (st.markInvalid disconnected b).data x = { st.data x with
      failedValid := (st.data x).failedValid || decide (x = b)
      failedChild := (st.data x).failedChild || decide (x ∈ disconnected) } := by
  simp only [markInvalid, modify, modifyAll]
  by_cases same : x = b
  · subst same
    by_cases mem : x ∈ disconnected <;> simp [mem]
  · by_cases mem : x ∈ disconnected <;> simp [mem, same]

section
variable (inv : Recorded rules st)
include inv

theorem markInvalid (disconnected : List UInt256) (b : UInt256) :
    Recorded rules (st.markInvalid disconnected b) := by
  refine inv.of_flags rfl rfl ?_ (fun x => ⟨_, _, _, markInvalid_data st disconnected b x⟩) ?_ ?_ rfl
  · intro x mem
    exact mem_cons_of_mem _ (mem_union_iff.2 (.inr mem))
  · intro x
    by_cases marked : x ∈ (st.markInvalid disconnected b).setDirtyBlockIndex
    · exact .inl marked
    have apart : x ≠ b ∧ x ∉ disconnected := by
      simp only [ChainState.markInvalid, mem_cons, mem_union_iff, not_or] at marked
      exact ⟨marked.1, marked.2.1⟩
    refine .inr ⟨?_, ?_⟩
    · simp [markInvalid_data, apart.1]
    · simp [markInvalid_data, apart.2]
  · intro x mem
    exact inv.candidate_linked x (mem_of_mem_filter mem)

theorem reinsertCandidates (tip : UInt256) :
    Recorded rules (st.reinsertCandidates tip) := by
  refine inv.of_flags rfl rfl (fun _ => id) (fun _ => ⟨_, _, _, rfl⟩) (fun _ => .inr ⟨rfl, id⟩) ?_ rfl
  intro x mem
  rcases mem_union_iff.1 mem with found | old
  · have linkable := (mem_filter.1 found).2
    rw [Bool.and_eq_true] at linkable
    exact (inv.linkable_iff.1 linkable.1).2
  · exact inv.candidate_linked x old

theorem invalidateBlock
    (ran : st.invalidateBlock rules io pindex = .ok st') : Recorded rules st' := by
  obtain ⟨_, _, steps, rfl⟩ := invalidate_steps ran
  exact ((inv.steps steps).markInvalid _ pindex).reinsertCandidates _

end

theorem clearFailed_eq {d : BlockData} (clean : d.failed = false) : d.clearFailed = d := by
  simp only [failed, Bool.or_eq_false_iff] at clean
  obtain ⟨_, _, _, _, _, _, _, _, _⟩ := d
  simp_all [clearFailed]

theorem resetFlags_data (mem : b ∈ st.tree.blocks) (x : UInt256) :
    (st.resetBlockFailureFlags b).data x =
      if st.tree.Le b x ∨ st.tree.Le x b then (st.data x).clearFailed else st.data x := by
  have above : st.tree.ancestorAt x (st.tree.height b) = some b ↔ st.tree.Le b x := by
    rw [ancestorAt_eq_some, and_iff_left rfl]
  have below : x ∈ st.tree.down (st.tree.height b + 1) b ↔ st.tree.Le x b := by
    rw [mem_down]
    exact and_iff_left_of_imp fun _ => by omega
  have known : st.tree.Le b x → x ∈ st.tree.blocks := by
    intro le
    rcases le_iff_parent.1 le with rfl | ⟨_, edge, _⟩
    · exact mem
    · exact (st.tree.parent_mem edge).1
  simp only [resetBlockFailureFlags, modifyAll, mem_filter, Bool.and_eq_true,
    Bool.not_eq_true', decide_eq_true_eq, above, below]
  by_cases descends : st.tree.Le b x
  · by_cases valid : (st.data x).isValid .transactions
    · have clean := (isValid_iff.1 valid).1
      simp [descends, valid, clean, clearFailed_eq clean]
    · simp [descends, valid, known descends]
  by_cases ancestor : st.tree.Le x b
  · cases flag : (st.data x).failed with
    | false => simp [descends, ancestor, flag, clearFailed_eq flag]
    | true => simp [descends, ancestor, flag]
  · simp [descends, ancestor]

theorem mem_resetFlags (inv : IndexInv rules st) (c : UInt256) :
    c ∈ (st.resetBlockFailureFlags b).setBlockIndexCandidates ↔ c ∈ st.setBlockIndexCandidates ∨
      st.tree.Le b c ∧ (st.data c).failed ∧ (st.data c).nChainTx ≠ 0 ∧
        ∃ t, st.chainActive = some t ∧ st.sortKey t < st.sortKey c := by
  have above : st.tree.ancestorAt c (st.tree.height b) = some b ↔ st.tree.Le b c := by
    rw [ancestorAt_eq_some, and_iff_left rfl]
  have key : ∀ bs, (st.modifyAll bs clearFailed).sortKey = st.sortKey := by
    intro bs
    funext x
    simp only [sortKey, modifyAll]
    split <;> rfl
  have after : ∀ bs t, (st.modifyAll bs clearFailed).blockIndexWorkComparator t c ↔
      st.sortKey t < st.sortKey c := by
    intro bs t
    rw [comparator_iff, key]
  have linked : (st.data c).nChainTx ≠ 0 → c ∈ st.tree.blocks ∧
      BlockValidity.transactions.toNat ≤ (st.data c).validity.toNat := by
    intro counted
    have stored := inv.linked_tx c counted
    exact ⟨inv.known c stored, inv.valid c stored⟩
  change c ∈ filter _ _ ∪ st.setBlockIndexCandidates ↔ _
  rw [mem_union_iff, or_comm, mem_filter]
  refine or_congr_right ?_
  constructor
  · rintro ⟨cleared, found⟩
    simp only [Bool.and_eq_true, Option.any_eq_true] at found
    obtain ⟨usable, t, active, order⟩ := found
    have counted : (st.data c).nChainTx ≠ 0 := by
      simp only [linkable, modifyAll, Bool.and_eq_true] at usable
      have counted := of_decide_eq_true usable.2
      split at counted <;> exact counted
    simp only [mem_filter, Bool.and_eq_true, Bool.not_eq_true', decide_eq_true_eq, above] at cleared
    refine ⟨cleared.2.2, ?_, counted, t, active, (after _ t).1 order⟩
    by_contra clean
    have valid := isValid_iff.2 ⟨by simpa using clean, (linked counted).2⟩
    rw [valid] at cleared
    cases cleared.2.1
  rintro ⟨descends, failed, counted, t, active, order⟩
  have cleared : c ∈ st.tree.blocks.filter fun x => !(st.data x).isValid .transactions &&
      decide (st.tree.ancestorAt x (st.tree.height b) = some b) := by
    simp [(linked counted).1, above, descends, isValid, failed]
  refine ⟨cleared, ?_⟩
  simp only [Bool.and_eq_true, Option.any_eq_true]
  refine ⟨?_, t, active, (after _ t).2 order⟩
  simp only [linkable, modifyAll, cleared, ↓reduceIte, Bool.and_eq_true, isValid_iff,
    failed_clearFailed, decide_eq_true_eq, true_and]
  exact ⟨(linked counted).2, counted⟩

theorem resetFlags_dirty (mem : b ∈ st.tree.blocks) (x : UInt256) :
    x ∈ (st.resetBlockFailureFlags b).setDirtyBlockIndex ∨
      (st.resetBlockFailureFlags b).data x = st.data x := by
  have above : st.tree.ancestorAt x (st.tree.height b) = some b ↔ st.tree.Le b x := by
    rw [ancestorAt_eq_some, and_iff_left rfl]
  rw [resetFlags_data mem]
  cases flag : (st.data x).failed with
  | false => exact .inr (by simp [clearFailed_eq flag])
  | true =>
    by_cases descends : st.tree.Le b x
    · left
      have known : x ∈ st.tree.blocks := by
        rcases le_iff_parent.1 descends with rfl | ⟨_, edge, _⟩
        · exact mem
        · exact (st.tree.parent_mem edge).1
      have cleared : x ∈ st.tree.blocks.filter fun y => !(st.data y).isValid .transactions &&
          decide (st.tree.ancestorAt y (st.tree.height b) = some b) := by
        simp [known, above, descends, isValid, flag]
      exact mem_union_iff.2 (.inr (mem_union_iff.2 (.inl cleared)))
    by_cases ancestor : st.tree.Le x b
    · left
      refine mem_union_iff.2 (.inl (mem_filter.2 ⟨?_, ?_⟩))
      · rw [mem_down]
        exact ⟨ancestor, by omega⟩
      · simp [modifyAll, above, descends, flag]
    · exact .inr (by simp [descends, ancestor])

theorem resetBlockFailureFlags (inv : Recorded rules st) (mem : b ∈ st.tree.blocks) :
    Recorded rules (st.resetBlockFailureFlags b) := by
  refine inv.of_flags rfl rfl ?_ ?_ ?_ ?_ rfl
  · intro x dirty
    exact mem_union_iff.2 (.inr (mem_union_iff.2 (.inr dirty)))
  · intro x
    rw [resetFlags_data mem]
    split <;> exact ⟨_, _, _, rfl⟩
  · intro x
    refine (resetFlags_dirty mem x).imp_right fun same => ?_
    rw [same]
    exact ⟨rfl, id⟩
  intro x candidate
  rcases (mem_resetFlags inv.toIndexInv x).1 candidate with old | ⟨_, _, counted, _⟩
  · exact inv.candidate_linked x old
  · exact counted

theorem preciousBlock_ok (ran : st.preciousBlock b = .ok (some st')) :
    ∃ tip r w mid, st.chainActive = some tip ∧
      st.tree.nChainWork tip ≤ st.tree.nChainWork b ∧
      mid = { (st.eraseCandidate b).modify b
          (fun d => { d with nSequenceId := st.preciousSequenceId tip }) with
        nLastPreciousChainwork := w, nBlockReverseSequenceId := r } ∧
      (mid.linkable b ∧ (mid.insertCandidate b).pruneBlockIndexCandidates = .ok st' ∨
        ¬ mid.linkable b ∧ st' = mid) := by
  simp only [preciousBlock] at ran
  split at ran
  · cases ran
  rename_i tip active
  split at ran
  · cases ran
  rename_i enough
  generalize given : (if st.nLastPreciousChainwork < st.tree.nChainWork tip then -1
    else st.nBlockReverseSequenceId : ℤ) = s at ran
  obtain rfl : st.preciousSequenceId tip = s := given
  generalize (if -2 ^ 31 < st.preciousSequenceId tip then st.preciousSequenceId tip - 1
    else st.preciousSequenceId tip : ℤ) = r at ran
  split at ran
  · rename_i usable
    obtain ⟨_, wrote, done⟩ := Outcome.bind_eq_ok.1 ran
    cases done
    exact ⟨tip, _, _, _, active, not_lt.1 enough, rfl, .inl ⟨usable, wrote⟩⟩
  rename_i unusable
  cases ran
  exact ⟨tip, _, _, _, active, not_lt.1 enough, rfl, .inr ⟨unusable, rfl⟩⟩

theorem preciousBlock_same (ran : st.preciousBlock b = .ok (some st')) :
    ∃ data candidates r w, st' = { st with
        data := data, setBlockIndexCandidates := candidates
        nLastPreciousChainwork := w, nBlockReverseSequenceId := r } ∧
      ∀ x, ∃ q, data x = { st.data x with nSequenceId := q } := by
  obtain ⟨tip, r, w, _, _, _, rfl, ended⟩ := preciousBlock_ok ran
  have given : ∀ x, ∃ q, ((st.eraseCandidate b).modify b
      (fun d => { d with nSequenceId := st.preciousSequenceId tip })).data x =
        { st.data x with nSequenceId := q } := by
    intro x
    by_cases same : x = b
    · subst same
      exact ⟨_, update_self x _ st.data⟩
    · exact ⟨_, update_of_ne same _ st.data⟩
  rcases ended with ⟨_, pruned⟩ | ⟨_, rfl⟩
  · obtain ⟨_, _, rfl⟩ := pruneCandidates_ok pruned
    exact ⟨_, _, r, w, rfl, given⟩
  · exact ⟨_, _, r, w, rfl, given⟩

theorem preciousBlock (inv : Recorded rules st) (ran : st.preciousBlock b = .ok (some st')) :
    Recorded rules st' := by
  obtain ⟨tip, r, w, _, _, _, rfl, ended⟩ := preciousBlock_ok ran
  have changed : Recorded rules { (st.eraseCandidate b).modify b
      (fun d => { d with nSequenceId := st.preciousSequenceId tip }) with
        nLastPreciousChainwork := w, nBlockReverseSequenceId := r } := by
    refine inv.of_flags rfl rfl (fun _ => id) ?_ ?_ ?_ rfl
    · intro x
      by_cases same : x = b
      · subst same
        exact ⟨_, _, _, update_self x _ st.data⟩
      · exact ⟨_, _, _, update_of_ne same _ st.data⟩
    · intro x
      by_cases same : x = b
      · subst same
        exact .inr (by simp [modify, eraseCandidate])
      · exact .inr (by simp [modify, eraseCandidate, same])
    · intro x mem
      exact inv.candidate_linked x (mem_of_mem_filter mem)
  rcases ended with ⟨usable, pruned⟩ | ⟨_, rfl⟩
  · refine Recorded.prune ?_ pruned
    refine changed.of_flags rfl rfl (fun _ => id) (fun _ => ⟨_, _, _, rfl⟩)
      (fun _ => .inr ⟨rfl, id⟩) ?_ rfl
    intro x mem
    rcases mem_insert_iff.1 mem with rfl | old
    · exact (changed.toIndexInv.linkable_iff.1 usable).2
    · exact changed.candidate_linked x old
  · exact changed

end Recorded

end DogecoinCore.ChainState
