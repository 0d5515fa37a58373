import DogecoinCore.IndexInvariant

/-! Headers and blocks arriving: what `AcceptBlockHeader` and `AcceptBlock` do to the
index. A stored body links the block, or makes it wait for its parent, or leaves it
alone when the parent is known to be bad. -/
namespace DogecoinCore.ChainState
open List Function BlockData HeaderTree
variable {C : Type} {rules : Consensus C} {b c p q x : UInt256} {st st' : ChainState C}

namespace IndexInv
section
variable (inv : IndexInv rules st)
include inv

theorem bare_nTx (bare : (st.data b).haveData = false) : (st.data b).nTx = 0 := by
  have stored := inv.body b
  simp only [bare, Bool.false_eq_true, false_iff] at stored
  omega

theorem bare_uncounted (bare : (st.data b).haveData = false) : (st.data b).nChainTx = 0 := by
  by_contra counted
  have stored := inv.linked_tx b counted
  rw [inv.bare_nTx bare] at stored
  omega

theorem genesis_body : (st.data rules.hashGenesisBlock).haveData :=
  (inv.body _).2 (inv.linked_tx _ inv.genesis_linked)

private theorem bare_parent (mem : b ∈ st.tree.blocks)
    (bare : (st.data b).haveData = false) : ∃ p, st.tree.parent b = some p := by
  cases edge : st.tree.parent b with
  | some p => exact ⟨p, rfl⟩
  | none =>
    have root := inv.only_root b mem edge
    rw [root, inv.genesis_body] at bare
    cases bare

end

end IndexInv

private theorem storeBody_eq (st : ChainState C) (b : UInt256) (nTx nFile : ℕ)
    (sound : (st.data b).failed = false) :
    ∃ v dirty files, (st.data b).validity.toNat ≤ v.toNat ∧
      BlockValidity.transactions.toNat ≤ v.toNat ∧
      b ∈ dirty ∧ (∀ x ∈ st.setDirtyBlockIndex, x ∈ dirty) ∧
      st.storeBody b nTx nFile = { st with
        data := update st.data b { st.data b with
          nTx := nTx, nChainTx := 0, nFile := nFile, haveData := true, validity := v }
        setDirtyBlockIndex := dirty
        files := files } := by
  obtain ⟨v, le, valid, shape⟩ := raiseValidity_eq { st.data b with
    nTx := nTx, nChainTx := 0, nFile := nFile, haveData := true } .transactions
  refine ⟨v, st.setDirtyBlockIndex.insert b,
    { st.files with unsyncedBlk := st.files.unsyncedBlk.insert b },
    le, valid sound, by simp, ?_, ?_⟩
  · intro x mem
    exact mem_insert_of_mem mem
  · simp [storeBody, modify, markDirty, shape]

theorem IndexInv.storeBody {nTx : ℕ} (inv : IndexInv rules st) (nFile : ℕ)
    (mem : b ∈ st.tree.blocks)
    (bare : (st.data b).haveData = false) (sound : (st.data b).failed = false) (body : 0 < nTx) :
    IndexInv rules (st.storeBody b nTx nFile) ∧ Relinked st (st.storeBody b nTx nFile) := by
  obtain ⟨v, _, _, raised, valid, marked, kept, shape⟩ := st.storeBody_eq b nTx nFile sound
  have zero := inv.bare_uncounted bare
  have empty := inv.bare_nTx bare
  rw [shape]
  constructor
  · have nChainTx : ∀ x, (update st.data b { st.data b with
        nTx := nTx, nChainTx := 0, nFile := nFile, haveData := true, validity := v } x).nChainTx =
          (st.data x).nChainTx := by
      intro x
      by_cases same : x = b
      · simp [same, zero]
      · simp [same]
    refine ⟨inv.genesis_known, inv.genesis_root, ?_, inv.only_root, ?_, ?_, ?_, ?_, ?_, ?_, ?_, ?_,
      inv.unlinked_nodup⟩
    · rw [nChainTx]
      exact inv.genesis_linked
    · intro x
      by_cases same : x = b
      · simp [same, body]
      · simpa [same] using inv.body x
    · intro x stored
      by_cases same : x = b
      · exact same ▸ mem
      · exact inv.known x (by simpa [same] using stored)
    · intro x known
      by_cases same : x = b
      · subst same
        simpa using (inv.known_valid x known).trans raised
      · simpa [same] using inv.known_valid x known
    · intro x stored
      by_cases same : x = b
      · simpa [same] using valid
      · simpa [same] using inv.valid x (by simpa [same] using stored)
    · intro x counted
      rw [nChainTx] at counted
      by_cases same : x = b
      · simp [same, body]
      · simpa [same] using inv.linked_tx x counted
    · intro x p edge counted
      rw [nChainTx] at counted ⊢
      exact inv.linked_parent x p edge counted
    · intro x candidate
      rw [nChainTx]
      exact inv.candidate_linked x candidate
    intro p x waiting
    obtain ⟨edge, stored, parentZero⟩ := inv.unlinked_waits p x waiting
    refine ⟨edge, ?_, ?_⟩
    · by_cases same : x = b
      · simp [same, body]
      · simpa [same] using stored
    · rw [nChainTx]
      exact parentZero
  · refine ⟨⟨_, _, _, _, _, _, rfl⟩, fun x => ?_, kept, fun x => ?_, fun x counted => ?_,
      fun _ => id, fun _ => .inl, fun _ x before after => ?_⟩
    · by_cases same : x = b
      · subst same
        simp only [update_self]
        exact ⟨rfl, rfl, rfl, fun _ => rfl, fun stored => by omega, raised⟩
      · simp only [update_of_ne same]
        exact .refl _
    · by_cases same : x = b
      · exact .inl (same ▸ marked)
      · exact .inr ⟨_, _, update_of_ne same _ _⟩
    · apply update_of_ne
      rintro rfl
      exact counted zero
    exfalso
    apply after
    by_cases same : x = b
    · simp [same]
    · simpa [same] using before

/-- A body was received for `b`: it is stored, and the block is counted, waits for its parent or
has a bad one. -/
structure Received (rules : Consensus C) (st : ChainState C) (b : UInt256) (st' : ChainState C) :
    Prop extends Relinked st st' where
  index : IndexInv rules st'
  stored : 0 < (st'.data b).nTx
  others : ∀ x, x ≠ b → (st'.data x).nTx = (st.data x).nTx
  linked : ∀ p, st.tree.parent b = some p → (st.data p).nChainTx ≠ 0 → (st'.data b).nChainTx ≠ 0
  waits : ∀ p, st.tree.parent b = some p → (st'.data b).nChainTx = 0 →
    (p, b) ∈ st'.mapBlocksUnlinked ∨ (st.data p).failed
  moved : ∀ e ∈ st.mapBlocksUnlinked, e ∈ st'.mapBlocksUnlinked ∨ (st'.data e.2).nChainTx ≠ 0
  descends : ∀ x, (st.data x).nChainTx = 0 → (st'.data x).nChainTx ≠ 0 → st.tree.Le b x

private theorem IndexInv.bare_not_waiting (inv : IndexInv rules st) (bare : (st.data b).haveData = false) :
    b ∉ st.mapBlocksUnlinked.map Prod.snd := by
  intro mem
  obtain ⟨⟨p, _⟩, waiting, rfl⟩ := List.mem_map.1 mem
  have stored := (inv.unlinked_waits p _ waiting).2.1
  rw [inv.bare_nTx bare] at stored
  omega

/-- **A received body is linked or waits.** -/
theorem IndexInv.receivedBlockTransactions {nTx : ℕ} (inv : IndexInv rules st) (nFile : ℕ)
    (mem : b ∈ st.tree.blocks) (bare : (st.data b).haveData = false)
    (sound : (st.data b).failed = false) (body : 0 < nTx) :
    Received rules st b (st.receivedBlockTransactions b nTx nFile) := by
  obtain ⟨index, stored⟩ := inv.storeBody nFile mem bare sound body
  obtain ⟨_, _, _, _, _, _, _, shape⟩ := st.storeBody_eq b nTx nFile sound
  obtain ⟨p, edge⟩ := inv.bare_parent mem bare
  have unlinked : (st.storeBody b nTx nFile).mapBlocksUnlinked = st.mapBlocksUnlinked := by
    rw [shape]
  have own : 0 < ((st.storeBody b nTx nFile).data b).nTx := by simpa [shape] using body
  have zero : ((st.storeBody b nTx nFile).data b).nChainTx = 0 := by simp [shape]
  have others : ∀ x, x ≠ b → (st.storeBody b nTx nFile).data x = st.data x := by
    intro x ne
    simp [shape, ne]
  have above : p ≠ b := by
    rintro rfl
    exact ParentTree.not_le_parent edge (.refl p)
  have edge' : (st.storeBody b nTx nFile).tree.parent b = some p := by rw [stored.tree, edge]
  simp only [ChainState.receivedBlockTransactions, edge']
  split
  · rename_i counted
    have queued : Queued rules [b] (st.storeBody b nTx nFile) := by
      refine { index with stored := ?_, uncounted := ?_, parents := ?_, distinct := ?_ }
      · simpa using own
      · simp [zero]
      · intro q single
        obtain rfl := mem_singleton.1 single
        exact ⟨p, edge', counted⟩
      · rw [singleton_append, nodup_cons]
        exact ⟨unlinked ▸ inv.bare_not_waiting bare, index.unlinked_nodup⟩
    obtain ⟨kept, relinked, linked, moved⟩ := queued.linkQueue
      (n := (st.storeBody b nTx nFile).mapBlocksUnlinked.length + 1) (by simp; omega)
    have sameTx : ∀ x, ((linkQueue ((st.storeBody b nTx nFile).mapBlocksUnlinked.length + 1) [b]
        (st.storeBody b nTx nFile)).data x).nTx = ((st.storeBody b nTx nFile).data x).nTx := by
      intro x
      obtain ⟨_, _, entry⟩ := linkQueue_entry
        ((st.storeBody b nTx nFile).mapBlocksUnlinked.length + 1) [b] (st.storeBody b nTx nFile) x
      rw [entry]
    refine { stored.trans relinked with
             index := kept, stored := ?_, others := ?_, linked := ?_, waits := ?_, moved := ?_,
             descends := ?_ }
    · rw [sameTx]
      exact own
    · intro x ne
      rw [sameTx, others x ne]
    · intro _ _ _
      exact linked b (by simp)
    · intro _ _ none
      exact absurd none (linked b (by simp))
    · intro e waiting
      exact moved e (unlinked ▸ waiting)
    intro x before after
    have single : ∀ q ∈ [b], (st.storeBody b nTx nFile).tree.Le b q := by
      intro q mem
      rw [mem_singleton.1 mem]
      exact .refl b
    rcases linkQueue_descends
      (fun p y waiting => (index.unlinked_waits p y waiting).1) single x with same | descends
    · exfalso
      apply after
      rw [same]
      by_cases own : x = b
      · rw [own, zero]
      · rw [others x own, before]
    · exact stored.tree ▸ descends
  · rename_i uncounted
    rw [ne_eq, not_not] at uncounted
    have absent := others p above ▸ uncounted
    have alone : ∀ p', st.tree.parent b = some p' → (st.data p').nChainTx = 0 :=
      fun p' edge'' => Option.mem_unique edge edge'' ▸ absent
    split
    · refine { stored.trans (.of_unlinked _ _ _) with
               index := ?_, stored := ?_, others := ?_, linked := ?_, waits := ?_, moved := ?_,
               descends := ?_ }
      · refine { index with unlinked_waits := ?_, unlinked_nodup := ?_ }
        · intro p' x waiting
          rcases mem_append.1 waiting with old | new
          · exact index.unlinked_waits p' x old
          · obtain ⟨rfl, rfl⟩ := Prod.mk.inj (mem_singleton.1 new)
            exact ⟨edge', own, uncounted⟩
        rw [map_append, map_singleton, nodup_append]
        refine ⟨index.unlinked_nodup, nodup_singleton _, ?_⟩
        rintro x old _ single rfl
        rw [mem_singleton.1 single, unlinked] at old
        exact inv.bare_not_waiting bare old
      · exact own
      · intro x ne
        simp [others x ne]
      · exact fun p' edge'' counted => absurd (alone p' edge'') counted
      · intro p' edge'' _
        rw [edge] at edge''
        cases edge''
        exact .inl (by simp)
      · intro e waiting
        exact .inl (mem_append_left _ (unlinked ▸ waiting))
      intro x before after
      by_cases own : x = b
      · exact own ▸ .refl x
      · exact absurd (by simp only [others x own]; exact before) after
    · rename_i bad
      refine { stored with
               index := index, stored := ?_, others := ?_, linked := ?_, waits := ?_, moved := ?_,
               descends := ?_ }
      · exact own
      · intro x ne
        simp [others x ne]
      · exact fun p' edge'' counted => absurd (alone p' edge'') counted
      · intro p' edge'' _
        rw [edge] at edge''
        cases edge''
        rw [others p above, isValid_iff] at bad
        have level := inv.known_valid p (st.tree.parent_mem edge).2
        by_contra clean
        exact bad ⟨by simpa using fun failed => clean (.inr failed), level⟩
      · intro e waiting
        exact .inl (unlinked ▸ waiting)
      intro x before after
      by_cases own : x = b
      · exact own ▸ .refl x
      · exact absurd (by rw [others x own]; exact before) after

section Headers
variable {block : CBlockHeader}

/-- How `AcceptBlockHeader` ends. -/
inductive HeaderOutcome (rules : Consensus C) (st : ChainState C) (block : CBlockHeader) :
    Outcome (ChainState C) (ChainState C) → Prop
  | known : block.hash ∈ st.tree.blocks →
      ((st.data block.hash).failed = false ∨ block.hash = rules.hashGenesisBlock) →
      HeaderOutcome rules st block (.ok st)
  | added : block.hash ∉ st.tree.blocks → block.hashPrevBlock ∈ st.tree.blocks →
      (st.data block.hashPrevBlock).failed = false →
      HeaderOutcome rules st block (.ok (st.addToBlockIndex block))
  | refused : HeaderOutcome rules st block (.fail st)
  | marked (failedit : UInt256) : block.hashPrevBlock ∈ st.tree.blocks →
      st.tree.Le failedit block.hashPrevBlock → (st.data failedit).failedValid →
      HeaderOutcome rules st block (.fail (st.markFailedChildren block.hashPrevBlock failedit))
  | stale (failedit : UInt256) : failedit ∈ st.gFailedBlocks →
      (st.data failedit).failedValid = false → HeaderOutcome rules st block .abort

theorem acceptHeader_outcome (block : CBlockHeader)
    (genesis : rules.hashGenesisBlock ∈ st.tree.blocks) :
    HeaderOutcome rules st block (st.acceptBlockHeader rules block) := by
  unfold acceptBlockHeader
  split
  · rename_i first
    have mem := first ▸ genesis
    simp only [addToBlockIndex, mem, ↓reduceDIte]
    exact .known mem (.inr first)
  split
  · rename_i mem
    split
    · exact .refused
    · rename_i sound
      exact .known mem (.inl (by simpa using sound))
  rename_i fresh
  split
  · exact .refused
  rename_i linked
  simp only [Bool.or_eq_true, decide_eq_true_eq, not_or, not_not] at linked
  split
  · exact .refused
  rename_i sound
  have clean : (st.data block.hashPrevBlock).failed = false := by simpa using sound
  split
  · exact .added fresh linked.2 clean
  split
  · exact .added fresh linked.2 clean
  rename_i failedit found
  have held := mem_filter.1 (argmin_mem found)
  split
  · rename_i bad
    exact .marked failedit linked.2 (by simpa using held.2) bad
  · rename_i cleared
    exact .stale failedit held.1 (by simpa using cleared)

theorem addToBlockIndex_eq (fresh : block.hash ∉ st.tree.blocks) :
    ∃ v, BlockValidity.tree.toNat ≤ v.toNat ∧ st.addToBlockIndex block = { st with
      tree := st.tree.insert block fresh
      data := update st.data block.hash { null with validity := v }
      setDirtyBlockIndex := st.setDirtyBlockIndex.insert block.hash } := by
  obtain ⟨v, _, raised, shape⟩ := raiseValidity_eq null .tree
  refine ⟨v, raised rfl, ?_⟩
  simp [addToBlockIndex, fresh, ↓reduceDIte, shape, markDirty]

theorem IndexInv.unknown (inv : IndexInv rules st) (fresh : b ∉ st.tree.blocks) :
    (st.data b).nTx = 0 ∧ (st.data b).nChainTx = 0 ∧ b ∉ st.setBlockIndexCandidates ∧
      ∀ x, st.tree.parent x ≠ some b := by
  have empty : (st.data b).nTx = 0 := by
    by_contra stored
    exact fresh (inv.known b (Nat.pos_of_ne_zero stored))
  have zero : (st.data b).nChainTx = 0 := by
    by_contra counted
    have stored := inv.linked_tx b counted
    omega
  refine ⟨empty, zero, fun candidate => inv.candidate_linked b candidate zero, fun x edge => ?_⟩
  exact fresh (st.tree.parent_mem edge).2

theorem IndexInv.addToBlockIndex (inv : IndexInv rules st) (fresh : block.hash ∉ st.tree.blocks)
    (parent : block.hashPrevBlock ∈ st.tree.blocks) : IndexInv rules (st.addToBlockIndex block) := by
  obtain ⟨v, raised, shape⟩ := addToBlockIndex_eq fresh
  obtain ⟨empty, zero, _, _⟩ := inv.unknown fresh
  rw [shape]
  have known : ∀ x, x ∈ st.tree.blocks → x ≠ block.hash := by
    rintro x mem rfl
    exact fresh mem
  have counts : ∀ x, (update st.data block.hash { null with validity := v } x).nTx = (st.data x).nTx ∧
      (update st.data block.hash { null with validity := v } x).nChainTx = (st.data x).nChainTx := by
    intro x
    by_cases same : x = block.hash
    · simp [same, empty, zero, null]
    · simp [same]
  obtain ⟨nTx, nChainTx⟩ := forall_and.1 counts
  have parents : ∀ x p, (st.tree.insert block fresh).parent x = some p →
      x = block.hash ∨ st.tree.parent x = some p := by
    intro x p edge
    by_cases same : x = block.hash
    · exact .inl same
    · exact .inr (by rwa [insert_parent_of_ne fresh same] at edge)
  refine ⟨?_, ?_, ?_, ?_, ?_, ?_, ?_, ?_, ?_, ?_, ?_, ?_, inv.unlinked_nodup⟩
  · exact mem_cons_of_mem _ inv.genesis_known
  · rw [insert_parent_of_ne fresh (known _ inv.genesis_known)]
    exact inv.genesis_root
  · rw [nChainTx]
    exact inv.genesis_linked
  · intro x mem root
    rcases mem_cons.1 mem with rfl | old
    · simp [newParent, parent] at root
    · rw [insert_parent_of_ne fresh (known x old)] at root
      exact inv.only_root x old root
  · intro x
    rw [nTx]
    by_cases same : x = block.hash
    · simp [same, empty, null]
    · simpa [same] using inv.body x
  · intro x stored
    rw [nTx] at stored
    exact mem_cons_of_mem _ (inv.known x stored)
  · intro x mem
    by_cases same : x = block.hash
    · simpa [same] using raised
    · have old := (mem_cons.1 mem).resolve_left same
      simpa [same] using inv.known_valid x old
  · intro x stored
    rw [nTx] at stored
    have same := known x (inv.known x stored)
    simpa [same] using inv.valid x stored
  · intro x counted
    rw [nTx]
    exact inv.linked_tx x (nChainTx x ▸ counted)
  · intro x p edge counted
    rw [nChainTx] at counted ⊢
    rcases parents x p edge with rfl | old
    · exact absurd zero counted
    · exact inv.linked_parent x p old counted
  · intro x candidate
    rw [nChainTx]
    exact inv.candidate_linked x candidate
  intro p x waiting
  obtain ⟨edge, stored, parentZero⟩ := inv.unlinked_waits p x waiting
  rw [nTx, nChainTx, insert_parent_of_ne fresh (known x (inv.known x stored))]
  exact ⟨edge, stored, parentZero⟩

end Headers

theorem findBlockPos_eq (st : ChainState C) (n : ℕ) :
    ∃ files, st.findBlockPos n = { st with files := files } := by
  unfold findBlockPos
  split
  · exact ⟨_, rfl⟩
  · exact ⟨_, rfl⟩

theorem Received.of_files {files : BlockFiles}
    (received : Received rules { st with files := files } b st') : Received rules st b st' :=
  { (Relinked.of_unlinked st st.mapBlocksUnlinked files).trans received.toRelinked with
    index := received.index
    stored := received.stored
    others := received.others
    linked := received.linked
    waits := received.waits
    moved := received.moved
    descends := received.descends }

section Blocks
/-- How `AcceptBlock` ends. -/
inductive BlockOutcome (rules : Consensus C) (st : ChainState C) (block : CBlock) :
    Outcome (ChainState C) (ChainState C) → Prop
  | header {out : Outcome (ChainState C) (ChainState C)} : (∀ st', out ≠ .ok st') →
      HeaderOutcome rules st block.toCBlockHeader out → BlockOutcome rules st block out
  | ignored {st' : ChainState C} : HeaderOutcome rules st block.toCBlockHeader (.ok st') →
      BlockOutcome rules st block (.ok st')
  | unstored {st' : ChainState C} : HeaderOutcome rules st block.toCBlockHeader (.ok st') →
      BlockOutcome rules st block (.fail st')
  | invalid {st' : ChainState C} : HeaderOutcome rules st block.toCBlockHeader (.ok st') →
      (st'.data block.hash).haveData = false →
      BlockOutcome rules st block (.fail
        ((st'.modify block.hash fun d => { d with failedValid := true }).markDirty block.hash))
  | received {mid st' : ChainState C} : HeaderOutcome rules st block.toCBlockHeader (.ok mid) →
      Received rules mid block.hash st' → BlockOutcome rules st block (.ok st')

/-- The states a header or a block can leave behind without an abort. -/
def HeaderLeft (rules : Consensus C) (st : ChainState C) (block : CBlockHeader)
    (st' : ChainState C) : Prop :=
  HeaderOutcome rules st block (.ok st') ∨ HeaderOutcome rules st block (.fail st')

@[inherit_doc HeaderLeft]
def BlockLeft (rules : Consensus C) (st : ChainState C) (block : CBlock)
    (st' : ChainState C) : Prop :=
  BlockOutcome rules st block (.ok st') ∨ BlockOutcome rules st block (.fail st')

theorem HeaderOutcome.left (ended : HeaderLeft rules st block st') : st' = st ∨
    (block.hash ∉ st.tree.blocks ∧ block.hashPrevBlock ∈ st.tree.blocks ∧
      st' = st.addToBlockIndex block) ∨
    ∃ failedit, st.tree.Le failedit block.hashPrevBlock ∧ (st.data failedit).failedValid ∧
      st' = st.markFailedChildren block.hashPrevBlock failedit := by
  rcases ended with passed | rejected
  · cases passed with
    | known => exact .inl rfl
    | added fresh parent _ => exact .inr (.inl ⟨fresh, parent, rfl⟩)
  cases rejected with
  | refused => exact .inl rfl
  | marked _ _ below invalid => exact .inr (.inr ⟨_, below, invalid, rfl⟩)

theorem BlockOutcome.left
    (ended : BlockLeft rules st block st') : HeaderLeft rules st block.toCBlockHeader st' ∨
    ∃ mid, HeaderOutcome rules st block.toCBlockHeader (.ok mid) ∧
      (Received rules mid block.hash st' ∨ (mid.data block.hash).haveData = false ∧ st' =
        (mid.modify block.hash fun d => { d with failedValid := true }).markDirty block.hash) := by
  rcases ended with stored | rejected
  · cases stored with
    | header noState _ => exact absurd rfl (noState st')
    | ignored passed => exact .inl (.inl passed)
    | received passed arrived => exact .inr ⟨_, passed, .inl arrived⟩
  cases rejected with
  | header _ rejected => exact .inl (.inr rejected)
  | unstored passed => exact .inl (.inl passed)
  | invalid passed bare => exact .inr ⟨_, passed, .inr ⟨bare, rfl⟩⟩

theorem bodyInvalid_data {mid : ChainState C} {b x : UInt256} :
    ((mid.modify b fun d => { d with failedValid := true }).markDirty b).data x =
      if x = b then { mid.data x with failedValid := true } else mid.data x := by
  by_cases same : x = b
  · subst same
    simp [modify, markDirty]
  · simp [modify, markDirty, same]

theorem HeaderOutcome.passed (inv : IndexInv rules st)
    (outcome : HeaderOutcome rules st header (.ok st')) :
    IndexInv rules st' ∧ header.hash ∈ st'.tree.blocks ∧
      ((st'.data header.hash).haveData = false → (st'.data header.hash).failed = false) := by
  cases outcome with
  | known mem sound =>
    refine ⟨inv, mem, fun bare => sound.resolve_right fun first => ?_⟩
    rw [first, inv.genesis_body] at bare
    cases bare
  | added fresh parent _ =>
    refine ⟨inv.addToBlockIndex fresh parent, ?_, fun _ => ?_⟩
    · obtain ⟨v, _, shape⟩ := addToBlockIndex_eq fresh
      rw [shape]
      exact mem_cons_self
    · obtain ⟨v, _, shape⟩ := addToBlockIndex_eq fresh
      simp [shape, failed, null]

theorem acceptBlock_outcome (io : AcceptIo) (block : CBlock) (inv : IndexInv rules st) :
    BlockOutcome rules st block (st.acceptBlock rules io block) := by
  have header := acceptHeader_outcome block.toCBlockHeader inv.genesis_known
  unfold acceptBlock
  cases ended : st.acceptBlockHeader rules block.toCBlockHeader with
  | fail _ | abort =>
    rw [ended] at header
    exact .header (by simp) header
  | ok mid =>
    rw [ended] at header
    obtain ⟨index, mem, clean⟩ := header.passed inv
    refine iteInduction (fun _ => .ignored header) fun noBody => ?_
    have bare : (mid.data block.hash).haveData = false := by simpa using noBody
    refine iteInduction (fun _ => .ignored header) fun _ => ?_
    cases verdict : block.check with
    | corrupt => exact .unstored header
    | invalid => exact .invalid header bare
    | valid =>
      refine iteInduction (fun _ => .unstored header) fun _ => ?_
      refine .received header ?_
      obtain ⟨files, moved⟩ := mid.findBlockPos_eq io.filesFull
      rw [moved]
      have index' : IndexInv rules { mid with files := files } :=
        index.of_same rfl (fun _ => rfl) (fun _ => rfl) (fun _ => rfl) (fun _ => le_rfl)
          index.candidate_linked rfl
      exact (index'.receivedBlockTransactions _ mem bare (clean bare)
        (block.nTx_pos verdict)).of_files

end Blocks

end DogecoinCore.ChainState
