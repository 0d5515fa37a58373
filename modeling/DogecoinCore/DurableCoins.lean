import DogecoinCore.FailureFlags

/-! What the two databases hold together. The index is written before the coins, so the chain that
the stored coins were connected along is stored with its bodies and undo records, and the stored
coins are those of that chain. -/
namespace DogecoinCore.ChainState
variable {C : Type} {rules : Consensus C} {a b m p t x : UInt256} {base : C}
  {best : Option UInt256} {tree tree' : HeaderTree} {data data' : UInt256 → BlockData}
  {st st' : ChainState C}

theorem DiskInv.extends (disk : DiskInv rules st) : st.blocktree.tree.Extends st.tree := by
  refine ⟨disk.blocks, fun b known => (disk.parent b known).symm, fun b known => ?_⟩
  induction b using st.blocktree.tree.parent_induction with
  | step b ih =>
    have same := disk.parent b known
    cases edge : st.blocktree.tree.parent b with
    | none => rw [st.blocktree.tree.height_root edge, st.tree.height_root (same.symm.trans edge)]
    | some p =>
      rw [st.blocktree.tree.height_parent edge, st.tree.height_parent (same.symm.trans edge),
        ih p edge (st.blocktree.tree.parent_mem edge).2]

/-- What an operation that moves neither the tip nor the database leaves as it was: headers may come,
bodies may come, undo records stay. -/
structure Edited (st st' : ChainState C) : Prop where
  tree : st.tree.Extends st'.tree
  blocktree : st'.blocktree = st.blocktree
  coins : st'.pcoinsTip = st.pcoinsTip
  nTx : ∀ x ∈ st.tree.blocks, 0 < (st.data x).nTx → 0 < (st'.data x).nTx
  haveUndo : ∀ x ∈ st.tree.blocks, (st'.data x).haveUndo = (st.data x).haveUndo

namespace Edited
theorem refl (st : ChainState C) : Edited st st :=
  ⟨.refl _, rfl, rfl, fun _ _ => id, fun _ _ => rfl⟩

theorem trans (first : Edited st st') (second : Edited st' st'') : Edited st st'' where
  tree := first.tree.trans second.tree
  blocktree := second.blocktree.trans first.blocktree
  coins := second.coins.trans first.coins
  nTx x known stored := second.nTx x (first.tree.blocks x known) (first.nTx x known stored)
  haveUndo x known := (second.haveUndo x (first.tree.blocks x known)).trans (first.haveUndo x known)

theorem of_same (tree : st'.tree = st.tree) (blocktree : st'.blocktree = st.blocktree)
    (coins : st'.pcoinsTip = st.pcoinsTip)
    (data : ∀ x, (st'.data x).nTx = (st.data x).nTx ∧ (st'.data x).haveUndo = (st.data x).haveUndo) :
    Edited st st' where
  tree := tree ▸ .refl _
  blocktree := blocktree
  coins := coins
  nTx x _ stored := (data x).1 ▸ stored
  haveUndo x _ := (data x).2

theorem header (ended : HeaderLeft rules st block st') : Edited st st' := by
  obtain rfl | ⟨fresh, -, rfl⟩ | ⟨_, -, -, rfl⟩ := HeaderOutcome.left ended
  · exact .refl _
  · obtain ⟨_, -, shape⟩ := addToBlockIndex_eq fresh
    rw [shape]
    have other : ∀ x ∈ st.tree.blocks, x ≠ block.hash := by
      rintro x known rfl
      exact fresh known
    refine ⟨.insert fresh, rfl, rfl, fun x known _ => ?_, fun x known => ?_⟩
    · dsimp only
      rwa [Function.update_of_ne (other x known)]
    · dsimp only
      rw [Function.update_of_ne (other x known)]
  · refine .of_same rfl rfl rfl fun x => ?_
    simp only [markFailedChildren, modifyAll]
    split <;> exact ⟨rfl, rfl⟩

theorem relinked (relinked : Relinked st st') : Edited st st' where
  tree := relinked.tree ▸ .refl _
  blocktree := relinked.touched.blocktree
  coins := relinked.sameTip.pcoinsTip
  nTx x _ := relinked.touched.nTx x
  haveUndo x _ := (relinked.grown x).haveUndo

theorem block {block : CBlock} (ended : BlockLeft rules st block st') : Edited st st' := by
  obtain left | ⟨_, passed, arrived | ⟨-, rfl⟩⟩ := BlockOutcome.left ended
  · exact header left
  · exact (header (.inl passed)).trans (relinked arrived.toRelinked)
  refine (header (.inl passed)).trans (.of_same rfl rfl rfl fun _ => ?_)
  rw [bodyInvalid_data]
  split <;> exact ⟨rfl, rfl⟩

theorem dropped (st : ChainState C) (m x : UInt256) : Edited st (st.removeChain m x) := by
  obtain ⟨data, _, shape, unmarked, marked⟩ := removeChain_eq st m x
  rw [shape]
  cases bad : (st.data x).failed with
  | false =>
    rw [unmarked bad]
    exact .of_same rfl rfl rfl fun _ => ⟨rfl, rfl⟩
  | true =>
    rw [(marked bad).2]
    refine .of_same rfl rfl rfl fun _ => ?_
    dsimp only
    split <;> exact ⟨rfl, rfl⟩

theorem rejected (ran : st.connectTip rules io b = .ok (.invalid st')) : Edited st st' := by
  have rejected := connectTip_rejected ran
  obtain ⟨-, -, -, -, rfl⟩ := connectTip_invalid ran
  refine .of_same rejected.kept.tree rfl rejected.view fun _ => ?_
  rw [rejected.data]
  split <;> exact ⟨rfl, rfl⟩

theorem markInvalid (st : ChainState C) (disconnected : List UInt256) (b tip : UInt256) :
    Edited st ((st.markInvalid disconnected b).reinsertCandidates tip) := by
  refine .of_same rfl rfl rfl fun x => ?_
  change ((st.markInvalid disconnected b).data x).nTx = _ ∧
    ((st.markInvalid disconnected b).data x).haveUndo = _
  rw [Recorded.markInvalid_data]
  exact ⟨rfl, rfl⟩

theorem resetBlockFailureFlags (mem : b ∈ st.tree.blocks) :
    Edited st (st.resetBlockFailureFlags b) := by
  refine .of_same rfl rfl rfl fun _ => ?_
  rw [Recorded.resetFlags_data mem]
  split <;> exact ⟨rfl, rfl⟩

theorem prune (ran : st.pruneBlockIndexCandidates = .ok st') : Edited st st' := by
  obtain ⟨_, _, rfl⟩ := pruneCandidates_ok ran
  exact .of_same rfl rfl rfl fun _ => ⟨rfl, rfl⟩

theorem preciousBlock (ran : st.preciousBlock b = .ok (some st')) : Edited st st' := by
  obtain ⟨_, _, _, _, rfl, same⟩ := Recorded.preciousBlock_same ran
  refine .of_same rfl rfl rfl fun x => ?_
  obtain ⟨_, is⟩ := same x
  simp [is]

end Edited

/-! ### Recorded chains -/

/-- The chain of the best block is in the index, and where it has left the chain of `a` with bodies
and undo records. -/
structure Applied (a : UInt256) (tree : HeaderTree) (data : UInt256 → BlockData)
    (best : Option UInt256) : Prop where
  base : a ∈ tree.blocks
  known : ∀ t, best = some t → t ∈ tree.blocks
  recorded : ∀ t x, best = some t → tree.Le x t → ¬ tree.Le x a →
    0 < (data x).nTx ∧ (data x).haveUndo

theorem Applied.grow (applied : Applied a tree data best) (grown : tree.Extends tree')
    (nTx : ∀ x ∈ tree.blocks, 0 < (data x).nTx → 0 < (data' x).nTx)
    (haveUndo : ∀ x ∈ tree.blocks, (data x).haveUndo → (data' x).haveUndo) :
    Applied a tree' data' best := by
  refine ⟨grown.blocks a applied.base, fun t found => grown.blocks t (applied.known t found),
    fun t x found le off => ?_⟩
  have known := applied.known t found
  have below := (grown.le_iff known).1 le
  have here := HeaderTree.mem_of_le below known
  obtain ⟨stored, undo⟩ := applied.recorded t x found below
    fun under => off ((grown.le_iff applied.base).2 under)
  exact ⟨nTx x here stored, haveUndo x here undo⟩

/-- The coins in memory and those on disk stand on chains that the index there records. -/
structure Durable (a : UInt256) (st : ChainState C) : Prop where
  memory : Applied a st.tree st.data st.pcoinsTip.view.hashBlock
  disk : Applied a st.blocktree.tree st.blocktree.data st.pcoinsTip.db.hashBlock

/-- The later database has the blocks of the earlier one, with their bodies and undo records. -/
structure Outlasts (db db' : BlockTreeDB) : Prop where
  tree : db.tree.Extends db'.tree
  nTx : ∀ x ∈ db.tree.blocks, 0 < (db.data x).nTx → 0 < (db'.data x).nTx
  haveUndo : ∀ x ∈ db.tree.blocks, (db.data x).haveUndo → (db'.data x).haveUndo

theorem Applied.outlast (applied : Applied a db.tree db.data best)
    (outlasts : Outlasts db db') : Applied a db'.tree db'.data best :=
  applied.grow outlasts.tree outlasts.nTx outlasts.haveUndo

theorem Recorded.agrees (inv : Recorded rules st) (known : x ∈ st.tree.blocks) :
    Persisted (st.data x) (st.writeBlockIndex.blocktree.data x) :=
  (inv.writeBlockIndex.clean x known List.not_mem_nil).2

theorem Applied.written (inv : Recorded rules st) (applied : Applied a st.tree st.data best) :
    Applied a st.writeBlockIndex.blocktree.tree st.writeBlockIndex.blocktree.data best := by
  refine applied.grow (.refl _) (fun x mem _ => ?_) fun x mem _ => ?_
  · rwa [(inv.agrees mem).nTx]
  · rwa [(inv.agrees mem).haveUndo]

namespace Outlasts
theorem refl (db : BlockTreeDB) : Outlasts db db := ⟨.refl _, fun _ _ => id, fun _ _ => id⟩

theorem trans (first : Outlasts db db') (second : Outlasts db' db'') : Outlasts db db'' where
  tree := first.tree.trans second.tree
  nTx x known stored := second.nTx x (first.tree.blocks x known) (first.nTx x known stored)
  haveUndo x known undo :=
    second.haveUndo x (first.tree.blocks x known) (first.haveUndo x known undo)

section
variable (inv : Recorded rules st)
include inv

theorem writeBlockIndex : Outlasts st.blocktree st.writeBlockIndex.blocktree := by
  refine ⟨inv.disk.extends, fun x mem stored => ?_, fun x mem undo => ?_⟩
  · rw [(inv.agrees (inv.disk.blocks x mem)).nTx]
    exact inv.disk.nTx x mem stored
  · rw [(inv.agrees (inv.disk.blocks x mem)).haveUndo]
    exact inv.disk.haveUndo x mem undo

theorem flushed (wrote : Flushed st st') : Outlasts st.blocktree st'.blocktree := by
  have files := inv.of_data rfl rfl rfl rfl rfl rfl
  have written := writeBlockIndex files
  cases wrote with
  | skip => exact .refl _
  | index | full => exact written

theorem step (step : Step rules io st st') : Outlasts st.blocktree st'.blocktree := by
  cases step with
  | drop _ _ => exact (Edited.dropped st _ _).blocktree ▸ .refl _
  | disconnect ran =>
    obtain ⟨tip, coins, after, _, _, _, _, _, wrote, rfl⟩ := disconnectTip_ok ran
    have lower : Recorded rules (st.withoutTip tip coins) := inv.of_data rfl rfl rfl rfl rfl rfl
    have done := flushed lower wrote
    exact done
  | @connect next _ _ ran pruned =>
    obtain ⟨accepted, coins, after, _, _, _, accept, wrote, rfl⟩ := connectTip_connected ran
    rw [(Edited.prune pruned).blocktree]
    have written : Recorded rules accepted ∧ accepted.blocktree = st.blocktree := by
      cases accept with
      | genesis _ => exact ⟨inv, rfl⟩
      | block _ _ =>
        obtain ⟨_, _, _, _, _, _, shape⟩ := writeUndo_eq
        exact ⟨inv.writeUndo next, by rw [shape]⟩
    have viewed : Recorded rules { accepted with pcoinsTip := { accepted.pcoinsTip with
        view := { hashBlock := some next, coins := coins } } } :=
      written.1.of_data rfl rfl rfl rfl rfl rfl
    have done := flushed viewed wrote
    rw [← written.2]
    exact done
  | invalid ran => exact (Edited.rejected ran).blocktree ▸ .refl _

theorem steps (steps : Steps rules io st st') : Outlasts st.blocktree st'.blocktree := by
  induction steps with
  | refl => exact .refl _
  | tail before last ih => exact ih.trans (step (inv.steps before) last)

theorem invalidateBlock (ran : st.invalidateBlock rules io b = .ok st') :
    Outlasts st.blocktree st'.blocktree := by
  obtain ⟨_, _, made, rfl⟩ := invalidate_steps ran
  have done := steps inv made
  exact done

end

end Outlasts

namespace Durable
section
variable (durable : Durable a st)
include durable

theorem edited (edited : Edited st st') : Durable a st' := by
  refine ⟨?_, ?_⟩
  · rw [edited.coins]
    exact durable.memory.grow edited.tree edited.nTx fun x known undo =>
      (edited.haveUndo x known).trans undo
  · rw [edited.coins, edited.blocktree]
    exact durable.disk

/-- **A flush writes the index before the coins.** -/
theorem flushed (inv : Recorded rules st) (wrote : Flushed st st') : Durable a st' := by
  have files : Recorded rules st.flushBlockFile := inv.of_data rfl rfl rfl rfl rfl rfl
  have index := Outlasts.writeBlockIndex files
  cases wrote with
  | skip => exact durable
  | index => exact ⟨durable.memory, durable.disk.outlast index⟩
  | full => exact ⟨durable.memory, Applied.written files durable.memory⟩

theorem writeUndo (b : UInt256) : Durable a (st.writeUndo b) := by
  obtain ⟨_, _, _, advanced, -, -, shape⟩ := writeUndo_eq
  rw [shape]
  refine ⟨durable.memory.grow (.refl _) (fun x _ stored => ?_) fun x _ undo => ?_, durable.disk⟩
  · by_cases same : x = b
    · subst same
      simpa [advanced.nTx] using stored
    · simpa [same] using stored
  by_cases same : x = b
  · subst same
    simpa using advanced.haveUndo undo
  · simpa [same] using undo

section
variable (inv : Recorded rules st)
include inv

theorem disconnectTip (ran : st.disconnectTip rules io = .ok st') : Durable a st' := by
  obtain ⟨tip, coins, flushed, _, _, _, best, _, wrote, rfl⟩ := disconnectTip_ok ran
  have without : Durable a (st.withoutTip tip coins) := by
    refine ⟨⟨durable.memory.base, fun t edge => ?_, fun t x edge le off => ?_⟩, durable.disk⟩
    · exact (st.tree.parent_mem edge).2
    · exact durable.memory.recorded tip x best (le.trans (ParentTree.le_of_parent edge)) off
  have done := without.flushed (inv.of_data rfl rfl rfl rfl rfl rfl) wrote
  exact ⟨done.memory, done.disk⟩

theorem connectTip (ran : st.connectTip rules io b = .ok (.connected st')) : Durable a st' := by
  obtain ⟨accepted, coins, flushed, _, body, best, accept, wrote, rfl⟩ := connectTip_connected ran
  have stored := (inv.body b).1 body
  have written : Durable a accepted ∧ Recorded rules accepted ∧ accepted.tree = st.tree ∧
      (st.tree.Le b a ∨ 0 < (accepted.data b).nTx ∧ (accepted.data b).haveUndo) ∧
      accepted.pcoinsTip = st.pcoinsTip := by
    cases accept with
    | genesis root =>
      exact ⟨durable, inv, rfl, .inl (root ▸ inv.toStored.genesis_le durable.memory.base), rfl⟩
    | block _ _ =>
      obtain ⟨_, _, _, advanced, undo, -, shape⟩ := writeUndo_eq
      refine ⟨durable.writeUndo b, inv.writeUndo b, by rw [shape], .inr ?_, by rw [shape]⟩
      rw [shape]
      simpa [advanced.nTx, stored] using undo
  obtain ⟨lasting, kept, tree, entry, same⟩ := written
  have viewed : Durable a (accepted.withTip b coins) := by
    refine ⟨⟨lasting.memory.base, fun t found => ?_, fun t x found le off => ?_⟩, lasting.disk⟩
    · cases found
      exact tree ▸ inv.known b stored
    cases found
    rcases ParentTree.le_iff_parent.1 le with rfl | ⟨p, edge, below⟩
    · exact entry.resolve_left (tree ▸ off)
    refine lasting.memory.recorded p x ?_ below off
    rw [same, best, ← tree]
    exact edge
  have done := viewed.flushed (kept.of_data rfl rfl rfl rfl rfl rfl) wrote
  exact ⟨done.memory, done.disk⟩

theorem step (step : Step rules io st st') : Durable a st' := by
  cases step with
  | drop _ _ => exact durable.edited (.dropped st _ _)
  | disconnect ran => exact durable.disconnectTip inv ran
  | connect ran pruned => exact (durable.connectTip inv ran).edited (.prune pruned)
  | invalid ran => exact durable.edited (.rejected ran)

theorem steps (steps : Steps rules io st st') : Durable a st' := by
  induction steps with
  | refl => exact durable
  | tail before step ih => exact ih.step (inv.steps before) step

theorem invalidateBlock (ran : st.invalidateBlock rules io b = .ok st') : Durable a st' := by
  obtain ⟨mid, tip, steps, rfl⟩ := invalidate_steps ran
  exact (durable.steps inv steps).edited (.markInvalid mid _ b tip)

end

end

theorem loaded {coins : CoinsView C} {addr : UInt256 ↪ ℕ}
    (loaded : Loaded db coins addr st) (applied : Applied a db.tree db.data coins.hashBlock) :
    Durable a st := by
  refine ⟨?_, ?_⟩
  · rw [loaded.tree, loaded.data, loaded.pcoinsTip]
    refine applied.grow (.refl _) (fun x _ _ => ?_) fun x _ _ => ?_
    · rwa [← (persisted_entry).nTx]
    · rwa [← (persisted_entry).haveUndo]
  · rw [loaded.blocktree, loaded.pcoinsTip]
    exact applied

end Durable

/-! ### Coins of a chain -/

/-- The view holds the coins of a known block: those of its chain, from `base` at the genesis
block. -/
def Replays (rules : Consensus C) (base : C) (tree : HeaderTree) (view : CoinsView C) : Prop :=
  ∃ t, view.hashBlock = some t ∧ t ∈ tree.blocks ∧
    Connects rules tree rules.hashGenesisBlock base t view.coins

theorem Replays.grow (replays : Replays rules base tree view)
    (grown : tree.Extends tree') : Replays rules base tree' view := by
  obtain ⟨t, found, known, connects⟩ := replays
  exact ⟨t, found, grown.blocks t known, grown.connects known connects⟩

/-- The coins in memory and those on disk are those of their best blocks, and the genesis block, for
want of an undo record, is never disconnected. -/
structure Faithful (rules : Consensus C) (base : C) (st : ChainState C) : Prop where
  memory : Replays rules base st.tree st.pcoinsTip.view
  disk : Replays rules base st.blocktree.tree st.pcoinsTip.db
  genesis : (st.data rules.hashGenesisBlock).haveUndo = false

namespace Faithful
section
variable (faithful : Faithful rules base st)
include faithful

theorem edited (inv : IndexInv rules st) (edited : Edited st st') : Faithful rules base st' := by
  refine ⟨?_, ?_, ?_⟩
  · rw [edited.coins]
    exact faithful.memory.grow edited.tree
  · rw [edited.coins, edited.blocktree]
    exact faithful.disk
  · rw [edited.haveUndo _ inv.genesis_known]
    exact faithful.genesis

theorem flushed (inv : Recorded rules st) (wrote : Flushed st st') : Faithful rules base st' := by
  cases wrote with
  | skip => exact faithful
  | index => exact ⟨faithful.memory, faithful.disk.grow inv.disk.extends, faithful.genesis⟩
  | full => exact ⟨faithful.memory, faithful.memory, faithful.genesis⟩

theorem writeUndo (other : b ≠ rules.hashGenesisBlock) : Faithful rules base (st.writeUndo b) := by
  obtain ⟨_, _, _, _, -, -, shape⟩ := writeUndo_eq
  rw [shape]
  refine ⟨faithful.memory, faithful.disk, ?_⟩
  dsimp only
  rw [Function.update_of_ne other.symm]
  exact faithful.genesis

section
variable (inv : Recorded rules st)
include inv

theorem disconnectTip (ran : st.disconnectTip rules io = .ok st') : Faithful rules base st' := by
  obtain ⟨_, coins, flushed, _, _, undo, best, undone, wrote, rfl⟩ := disconnectTip_ok ran
  obtain ⟨t, found, _, connects⟩ := faithful.memory
  obtain rfl := Option.mem_unique found best
  have other : t ≠ rules.hashGenesisBlock := by
    rintro rfl
    rw [faithful.genesis] at undo
    cases undo
  obtain ⟨p, edge, below⟩ := connects.undo other undone
  have without : Faithful rules base (st.withoutTip t coins) :=
    ⟨⟨p, edge, (st.tree.parent_mem edge).2, below⟩, faithful.disk, faithful.genesis⟩
  have done := without.flushed (inv.of_data rfl rfl rfl rfl rfl rfl) wrote
  exact ⟨done.memory, done.disk, done.genesis⟩

theorem connectTip
    (ran : st.connectTip rules io b = .ok (.connected st')) : Faithful rules base st' := by
  obtain ⟨accepted, coins, flushed, _, _, best, accept, wrote, rfl⟩ := connectTip_connected ran
  obtain ⟨_, found, _, connects⟩ := faithful.memory
  have edge := best.symm.trans found
  have written : Faithful rules base accepted ∧ Recorded rules accepted ∧
      accepted.tree = st.tree ∧ rules.connect st.pcoinsTip.view.coins b = some coins := by
    cases accept with
    | genesis root =>
      rw [root, inv.genesis_root] at edge
      cases edge
    | block other connected =>
      obtain ⟨_, _, _, _, _, _, shape⟩ := writeUndo_eq
      exact ⟨faithful.writeUndo other, inv.writeUndo b, by rw [shape], connected⟩
  obtain ⟨lasting, kept, tree, connected⟩ := written
  have viewed : Faithful rules base (accepted.withTip b coins) := by
    refine ⟨⟨b, rfl, ?_, ?_⟩, lasting.disk, lasting.genesis⟩
    · exact tree ▸ (st.tree.parent_mem edge).1
    rw [withTip, tree]
    exact .block edge connects connected
  have done := viewed.flushed (kept.of_data rfl rfl rfl rfl rfl rfl) wrote
  exact ⟨done.memory, done.disk, done.genesis⟩

theorem step (step : Step rules io st st') : Faithful rules base st' := by
  cases step with
  | drop _ _ => exact faithful.edited inv.toIndexInv (.dropped st _ _)
  | disconnect ran => exact faithful.disconnectTip inv ran
  | connect ran pruned =>
    exact (faithful.connectTip inv ran).edited (inv.connectTip ran).toIndexInv (.prune pruned)
  | invalid ran => exact faithful.edited inv.toIndexInv (.rejected ran)

theorem steps (steps : Steps rules io st st') : Faithful rules base st' := by
  induction steps with
  | refl => exact faithful
  | tail before step ih => exact ih.step (inv.steps before) step

theorem invalidateBlock
    (ran : st.invalidateBlock rules io b = .ok st') : Faithful rules base st' := by
  obtain ⟨mid, tip, steps, rfl⟩ := invalidate_steps ran
  exact (faithful.steps inv steps).edited (inv.steps steps).toIndexInv (.markInvalid mid _ b tip)

end

end

theorem loaded {coins : CoinsView C} {addr : UInt256 ↪ ℕ}
    (loaded : Loaded db coins addr st) (replays : Replays rules base db.tree coins)
    (genesis : (db.data rules.hashGenesisBlock).haveUndo = false) : Faithful rules base st := by
  refine ⟨?_, ?_, ?_⟩
  · rw [loaded.tree, loaded.pcoinsTip]
    exact replays
  · rw [loaded.blocktree, loaded.pcoinsTip]
    exact replays
  · rw [loaded.data, ← (persisted_entry).haveUndo]
    exact genesis

end Faithful
end DogecoinCore.ChainState
