import DogecoinCore.NodeInvariant

/-! Following the chain past a snapshot. A block on the active tip becomes the tip
if the tip counts its transactions: only then does `ReceivedBlockTransactions` make
the block a candidate. A tip that was swapped in over headers without bodies counts
none, and the node stays where it is. -/
namespace DogecoinCore
open List ParentTree ChainState HeaderTree BlockData Params
variable {C : Type}

namespace ChainState
variable {b c r t x : UInt256} {st st' : ChainState C}

/-- A tip the node can build on: its transactions are counted, nothing speaks against it, and the
candidates ahead of it are the usable blocks above it. -/
structure Followable (st : ChainState C) (t : UInt256) : Prop where
  tip : st.chainActive = some t
  counted : (st.data t).nChainTx ≠ 0
  sound : (st.data t).failed = false
  trusted : (st.data t).isValid .scripts ∨ ∀ f ∈ st.gFailedBlocks, ¬ st.tree.Le f t
  ahead : ∀ x ∈ st.setBlockIndexCandidates, st.sortKey t < st.sortKey x → st.tree.Le t x
  complete : ∀ x, st.tree.Le t x → x ≠ t → (st.data x).nChainTx ≠ 0 → (st.data x).failed = false →
    x ∈ st.setBlockIndexCandidates

/-- A consensus-valid block on the tip. The index may know its header already, and its body if
that is linked; no other candidate may have the work of this block. -/
structure Child (rules : Consensus C) (st : ChainState C) (t : UInt256) (block : CBlock) : Prop where
  parent : block.hashPrevBlock = t
  checked : block.checked = true
  check : block.check = .valid
  connects : ∃ after, rules.connect st.pcoinsTip.view.coins block.hash = some after
  known : block.hash ∈ st.tree.blocks → st.tree.parent block.hash = some t ∧
    st.tree.nChainWork block.hash = st.tree.nChainWork t + block.proof ∧
    (st.data block.hash).failed = false ∧
    ((st.data block.hash).haveData → (st.data block.hash).nChainTx ≠ 0)
  untied : ∀ x ∈ st.setBlockIndexCandidates, x ≠ block.hash →
    st.tree.nChainWork x ≠ st.tree.nChainWork t + block.proof

structure Offered (rules : Consensus C) (st : ChainState C) (t b : UInt256) : Prop where
  parent : st.tree.parent b = some t
  connects : ∃ after, rules.connect st.pcoinsTip.view.coins b = some after
  sound : (st.data b).failed = false
  linked : (st.data b).haveData → (st.data b).nChainTx ≠ 0
  untied : ∀ x ∈ st.setBlockIndexCandidates, x ≠ b → st.tree.nChainWork x ≠ st.tree.nChainWork b

theorem Followable.known (follow : Followable st t) (inv : IndexInv rules st) :
    t ∈ st.tree.blocks :=
  inv.known t (inv.linked_tx t follow.counted)

theorem Followable.addToBlockIndex (follow : Followable st t)
    (inv : IndexInv rules st) (fresh : block.hash ∉ st.tree.blocks) :
    Followable (st.addToBlockIndex block) t := by
  obtain ⟨_, _, shape⟩ := addToBlockIndex_eq fresh
  have other : ∀ x ∈ st.tree.blocks, x ≠ block.hash := by
    rintro x mem rfl
    exact fresh mem
  have mem := follow.known inv
  have key : ∀ x ∈ st.tree.blocks, (st.addToBlockIndex block).sortKey x = st.sortKey x := by
    intro x known
    simp [sortKey, shape, insert_work_of_ne fresh (other x known), other x known]
  have candidate : ∀ x ∈ st.setBlockIndexCandidates, x ∈ st.tree.blocks := by
    intro x held
    exact inv.known x (inv.linked_tx x (inv.candidate_linked x held))
  rw [shape] at key ⊢
  refine ⟨follow.tip, ?_, ?_, ?_, ?_, ?_⟩
  · simpa [other t mem] using follow.counted
  · simpa [other t mem] using follow.sound
  · refine follow.trusted.imp (fun valid => ?_) fun clear f held le => ?_
    · simpa [other t mem] using valid
    · exact clear f held ((insert_le_iff fresh mem).1 le)
  · intro x held order
    rw [key t mem, key x (candidate x held)] at order
    exact (insert_le_iff fresh (candidate x held)).2 (follow.ahead x held order)
  intro x le ne counted sound
  by_cases same : x = block.hash
  · simp [same, null] at counted
  simp only [Function.update_of_ne same] at counted sound
  have known := inv.known x (inv.linked_tx x counted)
  exact follow.complete x ((insert_le_iff fresh known).1 le) ne counted sound

variable {block : CBlock}

theorem Child.acceptBlockHeader (child : Child rules st t block)
    (follow : Followable st t) (inv : IndexInv rules st) :
    ∃ mid, st.acceptBlockHeader rules block.toCBlockHeader = .ok mid ∧
      HeaderOutcome rules st block.toCBlockHeader (.ok mid) ∧
      Followable mid t ∧ Offered rules mid t block.hash := by
  have mem := follow.known inv
  have outcome := acceptHeader_outcome block.toCBlockHeader inv.genesis_known
  by_cases known : block.hash ∈ st.tree.blocks
  · obtain ⟨edge, work, sound, linked⟩ := child.known known
    have notFirst : block.hash ≠ rules.hashGenesisBlock := by
      intro first
      rw [first, inv.genesis_root] at edge
      cases edge
    have accepted : st.acceptBlockHeader rules block.toCBlockHeader = .ok st := by
      simp [ChainState.acceptBlockHeader, notFirst, known, sound]
    refine ⟨st, accepted, accepted ▸ outcome, follow, edge, child.connects, sound, linked, ?_⟩
    rw [work]
    exact child.untied
  have notFirst : block.hash ≠ rules.hashGenesisBlock := by
    intro first
    exact known (first ▸ inv.genesis_known)
  have accepted : st.acceptBlockHeader rules block.toCBlockHeader =
      .ok (st.addToBlockIndex block.toCBlockHeader) := by
    unfold ChainState.acceptBlockHeader
    rw [if_neg notFirst, if_neg known, child.parent]
    simp only [child.checked, mem, follow.sound, Bool.not_true, not_true_eq_false,
      decide_false, Bool.or_self, Bool.false_eq_true, ↓reduceIte]
    rcases follow.trusted with valid | clear
    · rw [if_pos valid]
    have none : st.gFailedBlocks.filter (st.tree.Le · t) = [] := by
      rw [filter_eq_nil_iff]
      intro f held
      simpa using clear f held
    simp [none]
  obtain ⟨_, _, shape⟩ := addToBlockIndex_eq known
  have edge : (st.tree.insert block.toCBlockHeader known).parent block.hash = some t := by
    simp [HeaderTree.newParent, child.parent, mem]
  have other : ∀ x ∈ st.setBlockIndexCandidates, x ≠ block.hash := by
    rintro x held rfl
    exact known (inv.known _ (inv.linked_tx _ (inv.candidate_linked _ held)))
  refine ⟨_, accepted, accepted ▸ outcome, follow.addToBlockIndex inv known, ?_⟩
  rw [shape]
  refine ⟨edge, child.connects, ?_, ?_, ?_⟩
  · simp [BlockData.failed, BlockData.null]
  · simp [BlockData.null]
  intro x held ne
  rw [HeaderTree.insert_work_of_ne known (other x held)]
  have work : (st.tree.insert block.toCBlockHeader known).nChainWork block.hash =
      st.tree.nChainWork t + block.proof := by
    simp [HeaderTree.insert, HeaderTree.newParent, child.parent, mem]
  rw [work]
  exact child.untied x held ne

theorem Followable.received (follow : Followable st t) (inv : IndexInv rules st)
    (received : Received rules st b st') (above : st.tree.Le t b) : Followable st' t := by
  have relinked := received.toRelinked
  have same := relinked.counted t follow.counted
  have order : ∀ x, st'.tree.Le t x → st'.NotBefore x := by
    intro x le tip active
    rw [relinked.chainActive, follow.tip] at active
    cases active
    exact st'.sortKey_le_of_le le
  refine ⟨relinked.chainActive.trans follow.tip, same ▸ follow.counted, same ▸ follow.sound, ?_, ?_, ?_⟩
  · have queue : st'.gFailedBlocks = st.gFailedBlocks := by
      obtain ⟨_, _, _, _, _, _, rfl⟩ := relinked.frame
      rfl
    rw [same, queue, relinked.tree]
    exact follow.trusted
  · intro x held later
    rw [relinked.tree]
    rcases relinked.fresh x held with old | ⟨zero, new⟩
    · rw [relinked.sortKey follow.counted, relinked.sortKey (inv.candidate_linked x old)] at later
      exact follow.ahead x old later
    · exact above.trans (received.descends x zero new)
  intro x le ne counted sound
  by_cases before : (st.data x).nChainTx = 0
  · refine (relinked.ordered ?_ x before counted).2 (.inr (order x le))
    intro tip active
    rw [follow.tip] at active
    cases active
    exact follow.counted
  · rw [relinked.counted x before] at sound
    exact relinked.candidates x (follow.complete x (relinked.tree ▸ le) ne before sound)

theorem Offered.received (offered : Offered rules st t b) (received : Received rules st b st')
    (counted : (st.data t).nChainTx ≠ 0) :
    Offered rules st' t b ∧ (st'.data b).nChainTx ≠ 0 := by
  have relinked := received.toRelinked
  have linked := received.linked t offered.parent counted
  refine ⟨⟨relinked.tree ▸ offered.parent, ?_, ?_, fun _ => linked, ?_⟩, linked⟩
  · rw [relinked.sameTip.pcoinsTip]
    exact offered.connects
  · rw [(relinked.grown b).failed]
    exact offered.sound
  intro x held ne
  rw [relinked.tree]
  rcases relinked.fresh x held with old | ⟨zero, new⟩
  · exact offered.untied x old ne
  · exact (work_lt (received.descends x zero new) ne.symm).ne'

/-- **A child of the tip is stored and linked.** -/
theorem Child.acceptBlock {io : AcceptIo} (child : Child rules st t block)
    (follow : Followable st t) (inv : IndexInv rules st) (stored : io.findBlockPos) :
    ∃ next, st.acceptBlock rules io block = .ok next ∧
      BlockOutcome rules st block (.ok next) ∧ Followable next t ∧
      Offered rules next t block.hash ∧ (next.data block.hash).nChainTx ≠ 0 := by
  obtain ⟨mid, accepted, header, follow', offered⟩ := child.acceptBlockHeader follow inv
  obtain ⟨index, mem, _⟩ := header.passed inv
  have outcome := acceptBlock_outcome io block inv
  cases body : (mid.data block.hash).haveData with
  | true =>
    have done : st.acceptBlock rules io block = .ok mid := by
      simp [ChainState.acceptBlock, accepted, body]
    exact ⟨mid, done, done ▸ outcome, follow', offered, offered.linked body⟩
  | false =>
    -- The child has more work than the tip and is the next height, so it is stored unasked.
    have work := mid.tree.work_parent offered.parent
    have height := mid.tree.height_parent offered.parent
    have near : ¬ mid.tree.height t + MIN_BLOCKS_TO_KEEP < mid.tree.height block.hash := by
      rw [height, MIN_BLOCKS_TO_KEEP]
      omega
    obtain ⟨files, moved⟩ := mid.findBlockPos_eq io.filesFull
    have done : st.acceptBlock rules io block = .ok (({ mid with files := files } :
        ChainState C).receivedBlockTransactions block.hash block.nTx files.nLastBlockFile) := by
      simp [ChainState.acceptBlock, accepted, body, index.bare_nTx body, follow'.tip, work, near,
        child.check, stored, moved]
    have index' : IndexInv rules { mid with files := files } := index.of_data rfl rfl rfl rfl
    have received := (index'.receivedBlockTransactions files.nLastBlockFile mem body
      offered.sound (block.nTx_pos child.check)).of_files
    obtain ⟨offered', linked⟩ := offered.received received follow'.counted
    exact ⟨_, done, done ▸ outcome,
      follow'.received index received (ParentTree.le_of_parent offered.parent), offered', linked⟩

theorem Offered.anchored (offered : Offered rules st t b) (follow : Followable st t)
    (linked : Linked rules st) (aligned : st.Aligned) (counted : (st.data b).nChainTx ≠ 0) :
    Anchored rules (fun _ => True) t st.pcoinsTip.view.coins b st := by
  have above := le_of_parent offered.parent
  have apart : t ≠ b := by
    rintro rfl
    exact not_le_parent offered.parent (.refl t)
  have order := st.sortKey_lt_of_le above apart
  obtain ⟨after, connected⟩ := offered.connects
  refine { linked with
           tip := ⟨t, follow.tip, .anchor⟩, best := ?_, active := ?_,
           ref_mem := follow.complete b above apart.symm counted offered.sound, ref_clean := ?_,
           ref_connects := ⟨after, .block offered.parent .anchor connected⟩, tip_le := ?_,
           above := ?_, complete := ?_, lower := fun _ _ _ => trivial }
  · rw [follow.tip]
    exact aligned t follow.tip
  · intro x held le ne
    obtain ⟨tip, active, below⟩ := contains_iff.1 held
    rw [follow.tip] at active
    cases active
    exact absurd (below.antisymm le) ne
  · intro x le ne below
    rcases le_iff_parent.1 below with rfl | ⟨_, edge, lower⟩
    · exact offered.sound
    rw [offered.parent] at edge
    cases edge
    exact absurd (lower.antisymm le) ne
  · intro tip active
    rw [follow.tip] at active
    cases active
    exact order.le
  · intro x held later
    exact follow.ahead x held (order.trans_le later)
  intro x le counted sound later
  refine follow.complete x le ?_ counted sound
  rintro rfl
  exact absurd later (not_le.2 order)

/-- The blocks connected above `a` had their scripts checked. -/
def Scripted (a : UInt256) (st : ChainState C) : Prop :=
  ∀ x, st.contains x → st.tree.Le a x → x ≠ a → (st.data x).failed = false →
    BlockValidity.scripts.toNat ≤ (st.data x).validity.toNat

theorem Scripted.step (root : st.tree.parent rules.hashGenesisBlock = none)
    (scripted : Scripted a st) (step : Step rules io st st') : Scripted a st' := by
  have unmoved : Kept st st' → st'.chainActive = st.chainActive → Scripted a st' := by
    intro kept tip x held le ne sound
    exact (scripted x ((kept.contains_congr tip).1 held) (kept.tree ▸ le) ne
      (kept.sound sound)).trans (kept.validity x)
  rcases step.cases with ⟨_, _, moved⟩ | ⟨old, moved⟩ | ⟨_, moved⟩ | ⟨_, moved⟩
  · exact unmoved moved.kept moved.tip
  · intro x held le ne sound
    obtain ⟨p, active, below⟩ := contains_iff.1 held
    rw [moved.tip] at active
    rw [moved.kept.tree] at below le
    have held' := contains_iff.2 ⟨old, moved.active, below.trans (le_of_parent active)⟩
    rw [moved.data] at sound ⊢
    exact scripted x held' le ne sound
  · intro x held le ne sound
    obtain ⟨tip, active, below⟩ := contains_iff.1 held
    rw [moved.tip] at active
    cases active
    rw [moved.kept.tree] at below le
    rw [(moved.data x).failed] at sound
    rcases le_iff_parent.1 below with rfl | ⟨p, edge, lower⟩
    · refine moved.scripts ?_ sound
      rintro rfl
      exact ne (le.eq_root root).symm
    rw [moved.parent] at edge
    exact (scripted x (contains_iff.2 ⟨p, edge, lower⟩) le ne sound).trans (moved.data x).validity
  · exact unmoved moved.kept moved.tip

theorem Scripted.steps
    (root : st.tree.parent rules.hashGenesisBlock = none) (scripted : Scripted a st)
    (steps : Steps rules io st st') : Scripted a st' := by
  induction steps with
  | refl => exact scripted
  | tail made step ih =>
    refine ih.step ?_ step
    rw [Steps.kept made |>.tree]
    exact root

theorem Followable.of_advanced (follow : Followable st t) (tree : st'.tree = st.tree)
    (addr : st'.addr = st.addr) (tip : st'.chainActive = st.chainActive)
    (candidates : st'.setBlockIndexCandidates = st.setBlockIndexCandidates)
    (queue : st'.gFailedBlocks = st.gFailedBlocks)
    (data : ∀ x, Advanced (st.data x) (st'.data x)) : Followable st' t := by
  have key : st'.sortKey = st.sortKey := by
    funext x
    simp [sortKey, tree, addr, (data x).nSequenceId]
  refine ⟨tip.trans follow.tip, ?_, ?_, ?_, ?_, ?_⟩
  · rw [(data t).nChainTx]
    exact follow.counted
  · rw [(data t).failed]
    exact follow.sound
  · rw [queue, tree]
    refine follow.trusted.imp_left fun valid => ?_
    obtain ⟨sound, scripts⟩ := isValid_iff.1 valid
    exact isValid_iff.2 ⟨(data t).failed ▸ sound, scripts.trans (data t).validity⟩
  · rw [candidates, key, tree]
    exact follow.ahead
  intro x le ne counted sound
  rw [candidates]
  rw [(data x).nChainTx] at counted
  rw [(data x).failed] at sound
  exact follow.complete x (tree ▸ le) ne counted sound

theorem Followable.writeUndo (follow : Followable st t) (b : UInt256) :
    Followable (st.writeUndo b) t := by
  obtain ⟨_, _, _, advanced, _, _, shape⟩ := writeUndo_eq
  rw [shape]
  refine follow.of_advanced rfl rfl rfl rfl rfl fun x => ?_
  by_cases same : x = b
  · simpa [same] using advanced
  · simpa [same] using Advanced.refl (st.data x)

theorem Followable.flushed (follow : Followable st t) (wrote : Flushed st st') :
    Followable st' t := by
  obtain ⟨_, _, _, _, rfl⟩ := wrote.memory
  exact follow.of_advanced rfl rfl rfl rfl rfl fun _ => .refl _

/-- **Activation follows the child.** With nothing failing, the loop ends on the child or on a
valid chain above the old tip that has more work, and that tip can be built on again. -/
theorem Offered.activate (offered : Offered rules st t b)
    (follow : Followable st t) (linked : Linked rules st) (aligned : st.Aligned)
    (counted : (st.data b).nChainTx ≠ 0) (fine : io.Fine) :
    ∃ fuel exit r, st.activateBestChainLoop rules io fuel = some (.ok exit) ∧
      Followable exit.st r ∧ (r = b ∨ exit.st.tree.nChainWork b < exit.st.tree.nChainWork r ∧
        ∃ after, Connects rules exit.st.tree t st.pcoinsTip.view.coins r after) := by
  have anchored := offered.anchored follow linked aligned counted
  obtain ⟨fuel, exit, r, ran, arrived⟩ := anchored.bestChainLoop_fine fine
  have steps := bestChainLoop_steps ran
  have kept := steps.kept
  have inv := arrived.anchored
  have apart : t ≠ b := by
    rintro rfl
    exact not_le_parent offered.parent (.refl t)
  have order := (st.sortKey_lt_of_le (le_of_parent offered.parent) apart).trans_le arrived.better
  have ne : r ≠ t := by
    rintro rfl
    exact lt_irrefl _ order
  have held := contains_iff.2 ⟨r, arrived.tip, .refl r⟩
  have sound := inv.ref_clean r inv.ref_above ne (.refl r)
  have scripted : Scripted t exit.st := by
    refine Scripted.steps linked.root ?_ steps
    intro x within le ne'
    obtain ⟨tip, active, below⟩ := contains_iff.1 within
    rw [follow.tip] at active
    cases active
    exact absurd (below.antisymm le) ne'
  refine ⟨fuel, exit, r, ran, ⟨arrived.tip, inv.candidate_linked r inv.ref_mem, sound, ?_, ?_, ?_⟩, ?_⟩
  · exact .inl (isValid_iff.2 ⟨sound, scripted r held inv.ref_above ne sound⟩)
  · intro x mem later
    exact absurd (arrived.top x mem) (not_le.2 later)
  · intro x le _ counted' sound'
    exact inv.complete x (inv.ref_above.trans le) counted' sound' (exit.st.sortKey_le_of_le le)
  by_cases same : r = b
  · exact .inl same
  refine .inr ⟨?_, inv.ref_connects⟩
  have work := st.work_le_of_sortKey_le arrived.better
  have untied := offered.untied r (kept.candidates r inv.ref_mem) same
  rw [kept.tree]
  omega

end ChainState

/-- A block on its way to the node, with the outcomes of the input and output it causes. -/
structure Arrival where
  block : CBlock
  accept : AcceptIo := {}
  io : SnapshotIo := {}

/-- No read or write fails while the block is stored and the best chain activated. -/
structure Arrival.Fine (a : Arrival) : Prop where
  stored : a.accept.findBlockPos = true
  chain : a.io.chain.Fine

namespace NodeState
variable {st st' : NodeState C} {t : UInt256}

/-- The block became the tip, unless a valid chain on the old tip has more work. -/
def TipAfter (params : Params C) (st : NodeState C) (t : UInt256) (block : CBlock)
    (st' : NodeState C) : Prop :=
  st'.chain.chainActive = some block.hash ∨ ∃ r after, st'.chain.chainActive = some r ∧
    st'.chain.tree.nChainWork block.hash < st'.chain.tree.nChainWork r ∧
    Connects params.toConsensus st'.chain.tree t st.chain.pcoinsTip.view.coins r after

/-- A run of blocks, each a valid child of the tip when it arrives: each is stored, the best chain
is activated, and it becomes the tip. -/
def Followed (params : Params C) : List Arrival → NodeState C → Prop
  | [], _ => True
  | a :: rest, st => ∀ t, st.chain.chainActive = some t →
      st.chain.Child params.toConsensus t a.block → a.Fine →
      ∃ chain fuel st', st.chain.acceptBlock params.toConsensus a.accept a.block = .ok chain ∧
        { st with chain := chain }.activateBestChain params a.io fuel = some (.ok st') ∧
        TipAfter params st t a.block st' ∧ Followed params rest st'

private theorem activateBest_of_loop (st : NodeState C) {P : ChainState C → Prop} {io : SnapshotIo}
    (ran : st.chain.activateBestChainLoop params.toConsensus io.chain fuel = some (.ok exit))
    (fine : io.chain.flushPeriodic.Fine)
    (flushed : ∀ c c', P c → ChainState.Flushed c c' → P c')
    (closed : ∀ c b, P c → P (c.writeUndo b)) (start : P exit.st) :
    ∃ st', st.activateBestChain params io fuel = some (.ok st') ∧ P st'.chain := by
  cases exit with
  | nothingToDo chain => exact ⟨{ st with chain := chain }, by simp [activateBestChain, ran], start⟩
  | reached chain =>
    obtain ⟨chain', wrote⟩ := flushState_fine .periodic fine chain
    refine ⟨{ st with chain := chain' }.maybeStepBackgroundValidation params io autoStepBlocks,
      by simp only [activateBestChain, ran, Option.map_some, wrote], ?_⟩
    rw [maybeStep_eq]
    exact stepBackground_chain closed (flushed _ _ start (flushState_ok wrote))

private theorem follow_child {a : Arrival} (inv : ChainState.Recorded params.toConsensus st.chain)
    (aligned : st.chain.Aligned) (follow : st.chain.Followable t)
    (child : st.chain.Child params.toConsensus t a.block) (fine : a.Fine) :
    ∃ chain fuel st' r, st.chain.acceptBlock params.toConsensus a.accept a.block = .ok chain ∧
      { st with chain := chain }.activateBestChain params a.io fuel = some (.ok st') ∧
      TipAfter params st t a.block st' ∧ ChainState.Recorded params.toConsensus st'.chain ∧
      st'.chain.Aligned ∧ st'.chain.Followable r := by
  obtain ⟨chain, stored, outcome, follow', offered, counted⟩ :=
    child.acceptBlock follow inv.toIndexInv fine.stored
  have first : ChainState.ChainStep params.toConsensus st.chain chain := .block (.inl outcome)
  have inv' := inv.chainStep first
  have aligned' := aligned.chainStep first
  have same := ChainState.BlockOutcome.sameTip (.inl outcome)
  obtain ⟨fuel, exit, r, ran, next, tip⟩ :=
    offered.activate follow' inv'.toLinked aligned' counted fine.chain
  rw [same.pcoinsTip] at tip
  have flushed : ∀ c c' : ChainState C, c.Followable r ∧ c.tree = exit.st.tree → ChainState.Flushed c c' →
      c'.Followable r ∧ c'.tree = exit.st.tree := by
    rintro c c' ⟨held, tree⟩ wrote
    refine ⟨held.flushed wrote, ?_⟩
    obtain ⟨_, _, _, _, rfl⟩ := wrote.memory
    exact tree
  have undone : ∀ (c : ChainState C) b, c.Followable r ∧ c.tree = exit.st.tree →
      (c.writeUndo b).Followable r ∧ (c.writeUndo b).tree = exit.st.tree := by
    rintro c b ⟨held, tree⟩
    obtain ⟨_, _, _, _, _, _, shape⟩ := writeUndo_eq
    exact ⟨held.writeUndo b, by rw [shape]; exact tree⟩
  obtain ⟨st', done, followed, tree⟩ := activateBest_of_loop { st with chain := chain }
    ran fine.chain.flushPeriodic flushed undone ⟨next, rfl⟩
  have steps := activateBest_steps done
  refine ⟨chain, fuel, st', r, stored, done, ?_, inv'.chainSteps steps, aligned'.chainSteps steps,
    followed⟩
  rcases tip with rfl | ⟨more, after, connects⟩
  · exact .inl followed.tip
  · exact .inr ⟨r, after, followed.tip, tree ▸ more, tree ▸ connects⟩

/-- **The node follows the chain.** In every reachable state whose tip counts its transactions and
has the usable blocks above it as the candidates ahead of it, every finite run of valid children of
the tip is followed block by block. -/
theorem follows_children {coins : C} {addr : UInt256 ↪ ℕ}
    (reach : Reach params (fun _ event => event.indexWritten) (genesis params coins addr) st)
    (follow : st.chain.Followable t) (arrivals : List Arrival) : Followed params arrivals st := by
  obtain ⟨inv, aligned⟩ := reach.recorded
  clear reach
  -- The invariant of the run: the index is sound and the current tip can be built on.
  induction arrivals generalizing st t with
  | nil => trivial
  | cons _ _ ih =>
    intro tip active child fine
    rw [follow.tip] at active
    cases active
    obtain ⟨chain, fuel, st', _, stored, done, tip, inv', aligned', follow'⟩ :=
      follow_child inv aligned follow child fine
    exact ⟨chain, fuel, st', stored, done, tip, ih follow' inv' aligned'⟩

/-- A block is connected on the genesis block and a snapshot of the tip is activated. -/
def snapshotOfTip : List (Event Unit) :=
  [.block {} (.child 2 1), .activateBestChain {} 3, .loadSnapshot {} (.of 2), .activateSnapshot {}]

def snapshotNode : NodeState Unit :=
  ((genesis .permissive () hashOrder).run .permissive snapshotOfTip).get rfl

theorem follows_children_snapshotNode : snapshotNode.chain.snapshotActive ∧
    snapshotNode.chain.Child permissive.toConsensus 2 (.child 3 2) ∧
    Followed .permissive [{ block := .child 3 2 }, { block := .child 4 3 }] snapshotNode := by
  have reach : Reach .permissive (fun _ event => event.indexWritten)
      (genesis .permissive () hashOrder) snapshotNode :=
    .of_run snapshotOfTip (by simp [snapshotOfTip, Event.indexWritten]) rfl
  have inv := reach.recorded.1
  have candidates : snapshotNode.chain.setBlockIndexCandidates = [2] := by decide
  refine ⟨rfl, ⟨rfl, rfl, rfl, ⟨(), rfl⟩, fun member => absurd member (by decide), ?_⟩,
    follows_children reach ⟨rfl, by decide, by decide, .inl (by decide), ?_, ?_⟩ _⟩
  · intro x member
    rw [candidates, mem_singleton] at member
    subst member
    decide
  · intro x member
    rw [candidates, mem_singleton] at member
    subst member
    exact fun less => absurd less (lt_irrefl _)
  intro x le ne counted _
  have known := inv.known x (inv.linked_tx x counted)
  rcases mem_cons.1 known with rfl | rest
  · exact absurd rfl ne
  · rw [mem_singleton.1 rest] at le
    exact absurd le (by decide)

/-- The node of `snapshotOnHeaders`, whose tip has no body. -/
def bodylessNode : NodeState Unit :=
  ((genesis .permissive () hashOrder).run .permissive snapshotOnHeaders).get rfl

/-- On a snapshot tip that counts no transactions a valid child waits in `mapBlocksUnlinked`, and
`ActivateBestChain` never returns to make it the tip. -/
theorem bodyless_tip_not_followed :
    (genesis .permissive () hashOrder).run .permissive snapshotOnHeaders = some bodylessNode ∧
      bodylessNode.chain.chainActive = some 3 ∧
      bodylessNode.chain.Child permissive.toConsensus 3 (.child 4 3) ∧
      ¬ Followed .permissive [{ block := .child 4 3 }] bodylessNode := by
  have child : bodylessNode.chain.Child permissive.toConsensus 3 (.child 4 3) := by
    refine ⟨rfl, rfl, rfl, ⟨(), rfl⟩, fun member => absurd member (by decide), ?_⟩
    intro _ member
    have candidates : bodylessNode.chain.setBlockIndexCandidates = [1] := by decide
    rw [candidates, mem_singleton] at member
    subst member
    decide
  have flush : ({} : FlushIo).Fine := ⟨rfl, rfl, rfl, rfl⟩
  have fine : Arrival.Fine { block := .child 4 3 } :=
    ⟨rfl, fun _ => rfl, fun _ => rfl, fun _ => flush, flush⟩
  refine ⟨rfl, rfl, child, fun followed => ?_⟩
  obtain ⟨chain, fuel, _, stored, done, _⟩ := followed 3 rfl child fine
  -- The child is stored, and the genesis block is still the best candidate.
  have best : chain.bestCandidate = some 1 ∧ chain.walk (chain.tree.height 1) 1 = .usable ∧
      chain.snapshotActive ∧ chain.chainActive = some 3 ∧ (chain.data 3).haveData = false ∧
      ¬ chain.tree.Le 3 1 := by
    cases stored
    decide
  obtain ⟨best, usable, snapshot, active, missing, off⟩ := best
  have hangs := bestChainLoop_diverges permissive.toConsensus {} snapshot
    active missing best usable off fuel
  simp [activateBestChain, hangs] at done

end NodeState
end DogecoinCore
