import DogecoinCore.DurableCoins

/-! The candidate set between operations. The tip is a candidate and sorts first among them, and
every block that could be a tip and does not sort before it is a candidate. From there
`ActivateBestChain` ends in such a state again, because the tip it starts from is a chain to fall
back on. -/
namespace DogecoinCore.ChainState
open List BlockData Recorded
variable {C : Type} {rules : Consensus C} {base : C}
  {st st' : ChainState C}

/-- The active chain is valid and clean, and the candidates are the unflagged linked blocks that do
not sort before the tip, besides flagged ones. -/
structure Settled (rules : Consensus C) (base : C) (st : ChainState C) : Prop where
  tip : ∃ t, st.chainActive = some t ∧
    Connects rules st.tree rules.hashGenesisBlock base t st.pcoinsTip.view.coins
  best : st.pcoinsTip.view.hashBlock = st.chainActive
  active : ∀ x, st.contains x → (st.data x).failed = false ∧ (st.data x).nChainTx ≠ 0 ∧
    (x ≠ rules.hashGenesisBlock → (st.data x).haveUndo)
  least : ∀ c ∈ st.setBlockIndexCandidates, st.NotBefore c
  complete : ∀ x, (st.data x).nChainTx ≠ 0 → (st.data x).failed = false → st.NotBefore x →
    x ∈ st.setBlockIndexCandidates

theorem IndexInv.above (inv : IndexInv rules st) (linked : (st.data x).nChainTx ≠ 0) :
    st.tree.Le rules.hashGenesisBlock x :=
  inv.toStored.genesis_le (inv.known x (inv.linked_tx x linked))

namespace Settled
theorem contains_tip (found : st.chainActive = some t) : st.contains t :=
  contains_iff.2 ⟨t, found, .refl t⟩

theorem tip_mem (settled : Settled rules base st) (found : st.chainActive = some t) :
    t ∈ st.setBlockIndexCandidates := by
  obtain ⟨clean, linked, -⟩ := settled.active t (contains_tip found)
  refine settled.complete t linked clean fun _ also => ?_
  obtain rfl := Option.mem_unique found also
  exact le_rfl

theorem anchored (settled : Settled rules base st) (inv : IndexInv rules st)
    (found : st.chainActive = some t) :
    Anchored rules (fun _ => False) rules.hashGenesisBlock base t st := by
  have same : ∀ u, st.chainActive = some u → u = t := fun u also => Option.mem_unique also found
  refine ⟨inv.toLinked, settled.tip, settled.best, ?_, settled.tip_mem found, ?_, ?_, ?_,
    fun x mem _ => inv.above (inv.candidate_linked x mem), ?_, ?_⟩
  · intro x held _ other
    obtain ⟨clean, linked, undo⟩ := settled.active x held
    exact ⟨undo other, clean, linked⟩
  · intro x _ _ below
    exact (settled.active x (contains_iff.2 ⟨t, found, below⟩)).1
  · obtain ⟨u, also, connects⟩ := settled.tip
    exact ⟨_, same u also ▸ connects⟩
  · intro u also
    rw [same u also]
  · intro x _ linked clean order
    exact settled.complete x linked clean fun u also => same u also ▸ order
  · intro x mem before
    exact absurd before (not_lt.2 (settled.least x mem t found))

theorem of_arrived
    (arrived : Arrived rules (fun _ => False) rules.hashGenesisBlock base first start t st)
    (inv : IndexInv rules st) (genesis : (st.data rules.hashGenesisBlock).failed = false) :
    Settled rules base st := by
  have anchored := arrived.anchored
  have same : ∀ u, st.chainActive = some u → u = t :=
    fun u also => Option.mem_unique also arrived.tip
  refine ⟨anchored.tip, anchored.best, fun x held => ?_, fun c mem u also => ?_,
    fun x linked clean order => ?_⟩
  · have linked := anchored.active_linked held
    by_cases root : x = rules.hashGenesisBlock
    · subst root
      exact ⟨genesis, linked, fun other => absurd rfl other⟩
    · obtain ⟨undo, clean, _⟩ := anchored.active x held (inv.above linked) root
      exact ⟨clean, linked, fun _ => undo⟩
  · rw [same u also]
    exact not_lt.1 (anchored.lower c mem)
  · exact anchored.complete x (inv.above linked) linked clean (order t arrived.tip)

section
variable (settled : Settled rules base st)
include settled

theorem activateBestChainLoop (inv : Recorded rules st) (flags : Flagged rules st)
    (ran : st.activateBestChainLoop rules io fuel = some (.ok exit)) :
    Settled rules base exit.st := by
  obtain ⟨_, found, -⟩ := settled.tip
  have steps := bestChainLoop_steps ran
  obtain ⟨_, arrived⟩ := (settled.anchored inv.toIndexInv found).activateBestChainLoop ran
  exact of_arrived arrived (inv.steps steps).toIndexInv (flags.steps inv steps).genesis

section
variable (tree : st'.tree = st.tree) (addr : st'.addr = st.addr)
  (chainActive : st'.chainActive = st.chainActive) (view : st'.pcoinsTip.view = st.pcoinsTip.view)
  (candidates : st'.setBlockIndexCandidates = st.setBlockIndexCandidates)
include tree addr chainActive view candidates

private theorem of_entries (nChainTx : ∀ x, (st'.data x).nChainTx = (st.data x).nChainTx)
    (nSequenceId : ∀ x, (st'.data x).nSequenceId = (st.data x).nSequenceId)
    (haveUndo : ∀ x, (st.data x).haveUndo → (st'.data x).haveUndo)
    (failed : ∀ x, (st.data x).failed → (st'.data x).failed)
    (clean : ∀ x, st.contains x → (st'.data x).failed = false) : Settled rules base st' := by
  have key : st'.sortKey = st.sortKey := by
    funext x
    unfold sortKey
    rw [tree, addr, nSequenceId]
  have order : ∀ x, st'.NotBefore x ↔ st.NotBefore x := fun x => by
    unfold NotBefore
    rw [key, chainActive]
  have held : ∀ x, st'.contains x ↔ st.contains x := fun x => by
    rw [contains_iff, contains_iff, chainActive, tree]
  refine ⟨?_, ?_, fun x on => ?_, fun c mem => ?_, fun x linked sound notBefore => ?_⟩
  · rw [tree, chainActive, view]
    exact settled.tip
  · rw [view, chainActive]
    exact settled.best
  · obtain ⟨-, linked, undo⟩ := settled.active x ((held x).1 on)
    exact ⟨clean x ((held x).1 on), nChainTx x ▸ linked, fun other => haveUndo x (undo other)⟩
  · exact (order c).2 (settled.least c (candidates ▸ mem))
  rw [candidates]
  refine settled.complete x (nChainTx x ▸ linked) ?_ ((order x).1 notBefore)
  rw [Bool.eq_false_iff]
  intro bad
  rw [failed x bad] at sound
  cases sound

theorem of_data (data : st'.data = st.data) : Settled rules base st' :=
  settled.of_entries tree addr chainActive view candidates (fun _ => by rw [data])
    (fun _ => by rw [data]) (fun _ => by rw [data]; exact id) (fun _ => by rw [data]; exact id)
    fun x held => by rw [data]; exact (settled.active x held).1

theorem marked (data : ∀ x, st'.data x = st.data x ∨ ¬ st.contains x ∧
      (st'.data x = { st.data x with failedValid := true } ∨
        st'.data x = { st.data x with failedChild := true })) : Settled rules base st' := by
  have each : ∀ x, (st'.data x).nChainTx = (st.data x).nChainTx ∧
      (st'.data x).nSequenceId = (st.data x).nSequenceId ∧
      (st'.data x).haveUndo = (st.data x).haveUndo ∧
      ((st.data x).failed → (st'.data x).failed) := by
    intro x
    obtain same | ⟨-, same | same⟩ := data x
    · exact same ▸ ⟨rfl, rfl, rfl, id⟩
    · exact same ▸ ⟨rfl, rfl, rfl, fun _ => rfl⟩
    · exact same ▸ ⟨rfl, rfl, rfl, fun _ => Bool.or_true _⟩
  refine settled.of_entries tree addr chainActive view candidates (fun x => (each x).1)
    (fun x => (each x).2.1) (fun x => (each x).2.2.1 ▸ id) (fun x => (each x).2.2.2)
    fun x held => ?_
  obtain same | ⟨off, -⟩ := data x
  · rw [same]
    exact (settled.active x held).1
  · exact absurd held off

end

theorem flushed (wrote : Flushed st st') : Settled rules base st' := by
  obtain ⟨_, _, _, _, rfl⟩ := wrote.memory
  exact settled.of_data rfl rfl rfl rfl rfl rfl

/-! ### Headers and blocks -/

theorem addToBlockIndex {block : CBlockHeader}
    (inv : IndexInv rules st) (fresh : block.hash ∉ st.tree.blocks) :
    Settled rules base (st.addToBlockIndex block) := by
  obtain ⟨t, found, connects⟩ := settled.tip
  have tipKnown := inv.known t (inv.linked_tx t (settled.active t (contains_tip found)).2.1)
  obtain ⟨v, -, shape⟩ := addToBlockIndex_eq fresh
  rw [shape]
  have key : ∀ x, x ≠ block.hash → ({ st with
      tree := st.tree.insert block fresh
      data := Function.update st.data block.hash { null with validity := v }
      setDirtyBlockIndex := st.setDirtyBlockIndex.insert block.hash } : ChainState C).sortKey x =
        st.sortKey x := by
    intro x ne
    simp [sortKey, HeaderTree.insert_work_of_ne fresh ne, Function.update_of_ne ne]
  have other : ∀ x ∈ st.tree.blocks, x ≠ block.hash := by
    rintro x known rfl
    exact fresh known
  refine ⟨⟨t, found, ?_⟩, settled.best, fun x held => ?_, fun c mem u also => ?_,
    fun x linked clean order => ?_⟩
  · exact (HeaderTree.Extends.insert fresh).connects tipKnown connects
  · obtain ⟨u, also, le⟩ := contains_iff.1 held
    obtain rfl := Option.mem_unique found also
    have below := (HeaderTree.insert_le_iff fresh tipKnown).1 le
    dsimp only
    rw [Function.update_of_ne (other x (HeaderTree.mem_of_le below tipKnown))]
    exact settled.active x (contains_iff.2 ⟨t, found, below⟩)
  · obtain rfl := Option.mem_unique found also
    have known := inv.known c (inv.linked_tx c (inv.candidate_linked c mem))
    rw [key _ (other t tipKnown), key _ (other c known)]
    exact settled.least c mem t found
  by_cases same : x = block.hash
  · subst same
    simp [null] at linked
  dsimp only at linked clean
  rw [Function.update_of_ne same] at linked clean
  refine settled.complete x linked clean fun u also => ?_
  obtain rfl := Option.mem_unique found also
  have notBefore := order t found
  rwa [key _ (other t tipKnown), key _ same] at notBefore

private theorem off_of_failed (le : st.tree.Le p x) (bad : (st.data p).failed) : ¬ st.contains x := by
  intro held
  rw [(settled.active p (contains_of_le le held)).1] at bad
  cases bad

theorem header {block : CBlockHeader} (inv : IndexInv rules st)
    (ended : HeaderLeft rules st block st') : Settled rules base st' := by
  obtain rfl | ⟨fresh, -, rfl⟩ | ⟨failedit, below, invalid, rfl⟩ := HeaderOutcome.left ended
  · exact settled
  · exact settled.addToBlockIndex inv fresh
  · have bad : (st.data failedit).failed := by rw [BlockData.failed, invalid, Bool.true_or]
    refine settled.marked rfl rfl rfl rfl rfl fun _ => ?_
    simp only [markFailedChildren, modifyAll]
    split
    · rename_i walked
      have above := ((ParentTree.mem_down_above below).1 walked).1
      exact .inr ⟨settled.off_of_failed above bad, .inr rfl⟩
    · exact .inl rfl

end

theorem relinked (settled : Settled rules base st) (inv : IndexInv rules st)
    (relinked : Relinked st st') : Settled rules base st' := by
  have active : ∀ u, st.chainActive = some u → (st.data u).nChainTx ≠ 0 :=
    fun u also => (settled.active u (contains_tip also)).2.1
  have view : st'.pcoinsTip = st.pcoinsTip := by
    obtain ⟨_, _, _, _, _, _, frame⟩ := relinked.frame
    rw [frame]
  have held : ∀ x, st'.contains x ↔ st.contains x := fun x => by
    rw [contains_iff, contains_iff, relinked.chainActive, relinked.tree]
  have order : ∀ x, (st.data x).nChainTx ≠ 0 → (st'.NotBefore x ↔ st.NotBefore x) := by
    intro x linked
    unfold NotBefore
    rw [relinked.chainActive]
    refine forall_congr' fun u => forall_congr' fun also => ?_
    rw [relinked.sortKey (active u also), relinked.sortKey linked]
  refine ⟨?_, ?_, fun x on => ?_, fun c mem => ?_, fun x linked clean notBefore => ?_⟩
  · rw [relinked.tree, relinked.chainActive, view]
    exact settled.tip
  · rw [relinked.chainActive, view]
    exact settled.best
  · have was := settled.active x ((held x).1 on)
    rwa [relinked.counted x was.2.1]
  · obtain old | ⟨zero, counted⟩ := relinked.fresh c mem
    · exact (order c (inv.candidate_linked c old)).2 (settled.least c old)
    obtain old | after := (relinked.ordered active c zero counted).1 mem
    · exact absurd zero (inv.candidate_linked c old)
    · exact after
  rw [(relinked.grown x).failed] at clean
  by_cases zero : (st.data x).nChainTx = 0
  · exact (relinked.ordered active x zero linked).2 (.inr notBefore)
  · exact relinked.candidates x (settled.complete x zero clean ((order x zero).1 notBefore))

theorem block {block : CBlock} (settled : Settled rules base st) (inv : Recorded rules st)
    (ended : BlockLeft rules st block st') : Settled rules base st' := by
  obtain left | ⟨_, passed, arrived | ⟨bare, rfl⟩⟩ := BlockOutcome.left ended
  · exact settled.header inv.toIndexInv left
  · exact (settled.header inv.toIndexInv (.inl passed)).relinked
      (inv.header (.inl passed)).toIndexInv arrived.toRelinked
  have before := settled.header inv.toIndexInv (.inl passed)
  have index := (inv.header (.inl passed)).toIndexInv
  refine before.marked rfl rfl rfl rfl rfl fun _ => ?_
  rw [bodyInvalid_data]
  split
  · rename_i same
    -- a block without its body is not linked, so it is not active
    exact .inr ⟨fun held => (before.active _ held).2.1 (index.bare_uncounted (same ▸ bare)),
      .inl rfl⟩
  · exact .inl rfl

/-! ### `InvalidateBlock`, `ResetBlockFailureFlags` and `PreciousBlock` -/

theorem disconnectPast_anchored (anchored : Anchored rules low rules.hashGenesisBlock base t st)
    (root : (st.data rules.hashGenesisBlock).haveUndo = false)
    (ran : disconnectPast rules io b n st = .ok st') :
    Anchored rules low rules.hashGenesisBlock base t st' := by
  induction n generalizing st with
  | zero =>
    cases ran
    exact anchored
  | succ n ih =>
    rw [disconnectPast] at ran
    split at ran
    · obtain ⟨_, disconnected, rest⟩ := Outcome.bind_eq_ok.1 ran
      obtain ⟨tip, moved⟩ := disconnectTip_moves disconnected
      have other : tip ≠ rules.hashGenesisBlock := by
        obtain ⟨_, _, _, _, _, _, active, undo, -⟩ := disconnectTip_memory disconnected
        obtain rfl := Option.mem_unique active moved.active
        rintro rfl
        rw [root] at undo
        cases undo
      exact ih (anchored.disconnect moved other) (moved.data ▸ root) rest
    · cases ran
      exact anchored

section
variable (settled : Settled rules base st)
include settled

theorem invalidateBlock (inv : Recorded rules st)
    (flags : Flagged rules st) (root : (st.data rules.hashGenesisBlock).haveUndo = false)
    (ran : st.invalidateBlock rules io b = .ok st') : Settled rules base st' := by
  obtain ⟨_, found, -⟩ := settled.tip
  obtain ⟨mid, tip, _, bound, past, active, rfl⟩ := invalidate_ok ran
  have steps := disconnectPast_steps past
  have off := disconnectPast_off bound past
  have anchored := disconnectPast_anchored (settled.anchored inv.toIndexInv found) root past
  have index := (inv.steps steps).toIndexInv
  have marked := ((inv.steps steps).markInvalid (st.disconnectedBy b) b).toIndexInv
  have genesis := (flags.steps inv steps).genesis
  have data := markInvalid_data mid (st.disconnectedBy b) b
  have key : ((mid.markInvalid (st.disconnectedBy b) b).reinsertCandidates tip).sortKey =
      mid.sortKey := by
    funext x
    change (mid.markInvalid (st.disconnectedBy b) b).sortKey x = mid.sortKey x
    unfold sortKey
    rw [data]
    rfl
  have same : ∀ u, mid.chainActive = some u → u = tip := fun u also => Option.mem_unique also active
  refine ⟨anchored.tip, anchored.best, fun x held => ?_, fun c mem u also => ?_,
    fun x linked clean order => ?_⟩
  · have linked := anchored.active_linked held
    have apart : x ≠ b ∧ x ∉ st.disconnectedBy b := by
      refine ⟨fun same => off (same ▸ held), fun removed => off ?_⟩
      have le := (mem_disconnectedBy.1 removed).1
      exact contains_of_le (steps.kept.tree ▸ le) held
    change ((mid.markInvalid (st.disconnectedBy b) b).data x).failed = false ∧
      ((mid.markInvalid (st.disconnectedBy b) b).data x).nChainTx ≠ 0 ∧
      (_ → ((mid.markInvalid (st.disconnectedBy b) b).data x).haveUndo)
    rw [data]
    simp only [failed, apart.1, apart.2, decide_false, Bool.or_false]
    by_cases root : x = rules.hashGenesisBlock
    · exact ⟨root ▸ genesis, linked, fun other => absurd root other⟩
    · obtain ⟨undo, clean, -⟩ := anchored.active x held (index.above linked) root
      exact ⟨clean, linked, fun _ => undo⟩
  · rw [key, same u also]
    rcases mem_union_iff.1 mem with refound | old
    · have after := (mem_filter.1 refound).2
      simp only [Bool.and_eq_true, Bool.not_eq_true', comparator_eq_false] at after
      have order := after.2
      have keyMarked : (mid.markInvalid (st.disconnectedBy b) b).sortKey = mid.sortKey := key
      rwa [keyMarked] at order
    · have candidate := mem_of_mem_filter old
      exact (anchored.tip_le tip active).trans (not_lt.1 (anchored.lower c candidate))
  · have usable := marked.linkable_iff.2 ⟨clean, linked⟩
    have known := marked.known x (marked.linked_tx x linked)
    refine mem_union_iff.2 (.inl (mem_filter.2 ⟨known, ?_⟩))
    simp only [Bool.and_eq_true, Bool.not_eq_true', comparator_eq_false]
    exact ⟨usable, order tip active⟩

theorem resetBlockFailureFlags (inv : IndexInv rules st)
    (mem : b ∈ st.tree.blocks) (clean : Flagged.CleanBelow st b) :
    Settled rules base (st.resetBlockFailureFlags b) := by
  obtain ⟨t, found, -⟩ := settled.tip
  have data := resetFlags_data mem
  have key : (st.resetBlockFailureFlags b).sortKey = st.sortKey := by
    funext x
    unfold sortKey
    rw [data]
    split <;> rfl
  have same : ∀ u, st.chainActive = some u → u = t := fun u also => Option.mem_unique also found
  refine ⟨settled.tip, settled.best, fun x held => ?_, fun c mem u also => ?_,
    fun x linked sound order => ?_⟩
  · rw [data]
    split
    · obtain ⟨-, linked, undo⟩ := settled.active x held
      exact ⟨failed_clearFailed, linked, undo⟩
    · exact settled.active x held
  · rw [key, same u also]
    rcases (mem_resetFlags inv c).1 mem with old | ⟨-, -, -, v, active, lt⟩
    · exact settled.least c old t found
    · exact same v active ▸ lt.le
  rw [mem_resetFlags inv]
  have counted : (st.data x).nChainTx ≠ 0 := by
    rw [data] at linked
    split at linked <;> exact linked
  have notBefore : st.NotBefore x := fun u also => by
    have after := order u also
    rwa [key] at after
  cases flag : (st.data x).failed with
  | false => exact .inl (settled.complete x counted flag notBefore)
  | true =>
    right
    have line : st.tree.Le b x ∨ st.tree.Le x b := by
      by_contra apart
      rw [data, if_neg apart, flag] at sound
      cases sound
    have above : st.tree.Le b x := by
      rcases line with above | below
      · exact above
      by_cases same : x = b
      · exact same ▸ .refl x
      · rw [clean x below same] at flag
        cases flag
    refine ⟨above, rfl, counted, t, found, lt_of_le_of_ne (notBefore t found) fun same => ?_⟩
    obtain rfl := st.sortKey_injective same
    rw [(settled.active t (contains_tip found)).1] at flag
    cases flag

private theorem reordered (tree : st'.tree = st.tree)
    (chainActive : st'.chainActive = st.chainActive) (coins : st'.pcoinsTip = st.pcoinsTip)
    (entries : ∀ x, (st'.data x).failed = (st.data x).failed ∧
      (st'.data x).nChainTx = (st.data x).nChainTx ∧ (st'.data x).haveUndo = (st.data x).haveUndo)
    (least : ∀ c ∈ st'.setBlockIndexCandidates, st'.NotBefore c)
    (complete : ∀ x, (st.data x).nChainTx ≠ 0 → (st.data x).failed = false → st'.NotBefore x →
      x ∈ st'.setBlockIndexCandidates) : Settled rules base st' := by
  refine ⟨?_, ?_, fun x held => ?_, least, fun x linked clean order => ?_⟩
  · rw [tree, chainActive, coins]
    exact settled.tip
  · rw [chainActive, coins]
    exact settled.best
  · rw [contains_iff, chainActive, tree, ← contains_iff] at held
    rw [(entries x).1, (entries x).2.1, (entries x).2.2]
    exact settled.active x held
  rw [(entries x).2.1] at linked
  rw [(entries x).1] at clean
  exact complete x linked clean order

theorem preciousBlock (inv : IndexInv rules st)
    (mild : st.chainActive = some b → st.preciousSequenceId b ≤ (st.data b).nSequenceId)
    (ran : st.preciousBlock b = .ok (some st')) : Settled rules base st' := by
  obtain ⟨t, _, _, mid, found, -, shape, ended⟩ := preciousBlock_ok ran
  have key : ∀ x, x ≠ b → mid.sortKey x = st.sortKey x := fun x ne => by
    rw [shape]
    simp [sortKey, modify, eraseCandidate, Function.update_of_ne ne]
  have entries : ∀ x, (mid.data x).failed = (st.data x).failed ∧
      (mid.data x).nChainTx = (st.data x).nChainTx ∧
      (mid.data x).haveUndo = (st.data x).haveUndo := fun x => by
    rw [shape]
    by_cases same : x = b
    · subst same
      simp [modify, eraseCandidate, failed]
    · simp [modify, eraseCandidate, same]
  have active : mid.chainActive = some t := by rw [shape]; exact found
  have tree : mid.tree = st.tree := by rw [shape]; rfl
  have coins : mid.pcoinsTip = st.pcoinsTip := by rw [shape]; rfl
  have candidates : ∀ c, c ∈ mid.setBlockIndexCandidates ↔
      c ∈ st.setBlockIndexCandidates ∧ c ≠ b := fun c => by
    rw [shape]
    simp [modify, eraseCandidate]
  have usable : mid.linkable b ↔ (st.data b).failed = false ∧ (st.data b).nChainTx ≠ 0 := by
    rw [← inv.linkable_iff, shape]
    simp [linkable, modify, eraseCandidate, isValid, failed]
  have tipLe : st.sortKey t ≤ mid.sortKey t := by
    by_cases same : t = b
    · subst same
      have lower := mild found
      rw [shape]
      simp only [sortKey, modify, eraseCandidate, Function.update_self]
      exact SortKey.of_le_of lower
    · rw [key t same]
  -- No block but `b` moves, so what follows the tip now followed it before.
  have kept : ∀ x, x ≠ b → (st.data x).nChainTx ≠ 0 → (st.data x).failed = false →
      mid.NotBefore x → x ∈ mid.setBlockIndexCandidates := by
    intro x ne linked clean notBefore
    refine (candidates x).2 ⟨settled.complete x linked clean fun u also => ?_, ne⟩
    obtain rfl := Option.mem_unique found also
    exact tipLe.trans (key x ne ▸ notBefore t active)
  rcases ended with ⟨-, pruned⟩ | ⟨unusable, rfl⟩
  · obtain ⟨u, also, rfl⟩ := pruneCandidates_ok pruned
    obtain rfl := Option.mem_unique active also
    refine settled.reordered tree (active.trans found.symm) coins entries (fun c mem _ held => ?_)
      fun x linked clean notBefore => ?_
    · obtain rfl := Option.mem_unique active held
      have after := (mem_filter.1 mem).2
      rw [Bool.not_eq_true', comparator_eq_false] at after
      exact after
    refine mem_filter.2 ⟨mem_insert_iff.2 ?_, ?_⟩
    · by_cases same : x = b
      · exact .inl same
      · exact .inr (kept x same linked clean notBefore)
    · rw [Bool.not_eq_true', comparator_eq_false]
      exact notBefore t active
  have bad : ∀ x, (st.data x).nChainTx ≠ 0 → (st.data x).failed = false → x ≠ b := by
    rintro x linked clean rfl
    exact unusable (usable.2 ⟨clean, linked⟩)
  obtain ⟨clean, linked, -⟩ := settled.active t (contains_tip found)
  refine settled.reordered tree (active.trans found.symm) coins entries (fun c mem u also => ?_)
    fun x linked clean notBefore => kept x (bad x linked clean) linked clean notBefore
  obtain ⟨old, ne⟩ := (candidates c).1 mem
  obtain rfl := Option.mem_unique active also
  rw [key t (bad t linked clean), key c ne]
  exact settled.least c old t found

end

theorem loaded {coins : CoinsView C} {addr : UInt256 ↪ ℕ}
    (loaded : Loaded db coins addr st) (stored : Stored rules db.tree db.data)
    (replays : Replays rules base db.tree coins)
    (applied : Applied rules.hashGenesisBlock db.tree db.data coins.hashBlock)
    (clean : ∀ t x, coins.hashBlock = some t → db.tree.Le x t → (db.data x).failed = false) :
    Settled rules base st := by
  obtain ⟨t, best, known, connects⟩ := replays
  have found : st.chainActive = some t := by
    rw [loaded.tip, best]
    simp [Option.filter, known]
  have body : ∀ x, db.tree.Le x t → 0 < (db.data x).nTx ∧
      (x ≠ rules.hashGenesisBlock → (db.data x).haveUndo) := by
    intro x le
    by_cases root : x = rules.hashGenesisBlock
    · exact ⟨root ▸ stored.genesis_body, fun other => absurd root other⟩
    obtain ⟨tx, undo⟩ := applied.recorded t x best le
      fun under => root (under.eq_root stored.genesis_root)
    exact ⟨tx, fun _ => undo⟩
  have entry : ∀ x, db.tree.Le x t → (db.entry x).nChainTx ≠ 0 ∧ (db.entry x).failed = false :=
    fun x le => entry_clean fun y under =>
      ⟨(body y (under.trans le)).1, clean t y best (under.trans le)⟩
  have recorded := loaded.recorded stored
  refine ⟨⟨t, found, ?_⟩, ?_, fun x held => ?_, fun c mem => ?_, fun x linked sound order => ?_⟩
  · rw [loaded.tree, loaded.pcoinsTip]
    exact connects
  · rw [loaded.pcoinsTip, found]
    exact best
  · obtain ⟨_, also, le⟩ := contains_iff.1 held
    obtain rfl := Option.mem_unique found also
    rw [loaded.tree] at le
    rw [loaded.data, ← (persisted_entry).haveUndo]
    exact ⟨(entry x le).2, (entry x le).1, (body x le).2⟩
  · exact ((loaded.candidates c).1 mem).2.2.2
  have tx := recorded.linked_tx x linked
  have valid := recorded.valid x tx
  have mem := recorded.known x tx
  rw [loaded.data] at linked sound valid
  rw [loaded.tree] at mem
  exact (loaded.candidates x).2 ⟨mem, isValid_iff.2 ⟨sound, valid⟩, .inl linked, order⟩

end Settled
end DogecoinCore.ChainState
