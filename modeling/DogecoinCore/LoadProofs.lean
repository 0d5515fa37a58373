import DogecoinCore.DiskIndex

/-! Starting over from the databases: `LoadBlockIndexDB` recomputes the links and
passes failure on from parent to child, and the index it builds is one the
operations could have left. -/
namespace DogecoinCore
open Option List BlockData
variable {C : Type} {b p x : UInt256}

namespace BlockTreeDB
def entry (db : BlockTreeDB) (b : UInt256) : BlockData := db.loaded (db.tree.height b) b

theorem entry_eq (db : BlockTreeDB) (b : UInt256) :
    db.entry b = loadEntry (db.data b) ((db.tree.parent b).map db.entry) := by
  cases edge : db.tree.parent b with
  | none => rw [entry, db.tree.height_root edge, loaded, map_none]
  | some _ => rw [entry, db.tree.height_parent edge, loaded, edge, map_some, map_some, entry]

end BlockTreeDB

section Entry
variable {stored : BlockData}

/-- The transactions counted at a block: none without a body or on an uncounted parent. -/
def loadCount (stored : BlockData) : Option BlockData → ℕ
  | none => stored.nTx
  | some p => if 0 < stored.nTx ∧ p.nChainTx ≠ 0 then p.nChainTx + stored.nTx else 0

private theorem loadEntry_eq : loadEntry stored pprev = { stored with
      nChainTx := loadCount stored pprev
      nSequenceId := 0
      failedChild := stored.failedChild ||
        (decide (0 < stored.nTx) && !stored.failed && pprev.any failed) } := by
  by_cases body : 0 < stored.nTx
  · cases pprev with
    | none => simp [loadEntry, loadCount, body]
    | some p =>
      cases own : stored.failed with
      | true =>
        simp only [failed, Bool.or_eq_true] at own
        rcases own with flag | flag <;> simp [loadEntry, loadCount, failed, body, flag]
      | false => cases bad : p.failed <;> simp_all [loadEntry, loadCount, failed]
  have empty : stored.nTx = 0 := by omega
  cases pprev with
  | none | some p => simp [loadEntry, loadCount, empty]

private theorem loadCount_ne_zero : loadCount stored pprev ≠ 0 ↔
    0 < stored.nTx ∧ ∀ d, pprev = some d → d.nChainTx ≠ 0 := by
  cases pprev with
  | none => simp [loadCount, Nat.pos_iff_ne_zero]
  | some _ =>
    simp only [loadCount, some.injEq, forall_eq']
    split
    · rename_i held
      exact ⟨fun _ => held, fun _ => by omega⟩
    · rename_i missing
      exact ⟨fun zero => absurd rfl zero, fun held => absurd held missing⟩

theorem loadEntry_failed : (loadEntry stored pprev).failed ↔
    stored.failed ∨ 0 < stored.nTx ∧ ∃ d, pprev = some d ∧ d.failed := by
  rw [loadEntry_eq]
  simp only [failed, Bool.or_eq_true, Bool.and_eq_true, decide_eq_true_eq,
    Bool.not_eq_true', Bool.or_eq_false_iff, Option.any_eq_true]
  constructor
  · rintro (valid | child | ⟨⟨body, _⟩, parent⟩)
    · exact .inl (.inl valid)
    · exact .inl (.inr child)
    · exact .inr ⟨body, parent⟩
  rintro ((valid | child) | ⟨body, parent⟩)
  · exact .inl valid
  · exact .inr (.inl child)
  cases valid : stored.failedValid with
  | true => exact .inl rfl
  | false =>
    cases child : stored.failedChild with
    | true => exact .inr (.inl rfl)
    | false => exact .inr (.inr ⟨⟨body, rfl, rfl⟩, parent⟩)

end Entry

namespace ChainState
variable {st : ChainState C} {db : BlockTreeDB} {coins : CoinsView C} {addr : UInt256 ↪ ℕ}

structure Loaded (db : BlockTreeDB) (coins : CoinsView C) (addr : UInt256 ↪ ℕ)
    (st : ChainState C) : Prop where
  tree : st.tree = db.tree
  data : st.data = db.entry
  addr : st.addr = addr
  blocktree : st.blocktree = db
  pcoinsTip : st.pcoinsTip = { db := coins, view := coins }
  snapshotActive : st.snapshotActive = false
  gFailedBlocks : st.gFailedBlocks = []
  tip : st.chainActive = coins.hashBlock.filter (· ∈ db.tree.blocks)
  unlinked : ∀ p b, (p, b) ∈ st.mapBlocksUnlinked ↔
    db.tree.parent b = some p ∧ 0 < (db.entry b).nTx ∧ (db.entry p).nChainTx = 0
  unlinked_nodup : (st.mapBlocksUnlinked.map Prod.snd).Nodup
  candidates : ∀ b, b ∈ st.setBlockIndexCandidates ↔ b ∈ db.tree.blocks ∧
    (db.entry b).isValid .transactions ∧
      ((db.entry b).nChainTx ≠ 0 ∨ db.tree.parent b = none) ∧ st.NotBefore b

theorem filterMap_snd_sublist (f : β → Option α) (l : List β) :
    ((l.filterMap fun b => (f b).map (·, b)).map Prod.snd).Sublist l := by
  induction l with
  | nil => exact .slnil
  | cons b l ih =>
    cases found : f b with
    | none => simpa [filterMap_cons, found] using ih.cons b
    | some _ => simpa [filterMap_cons, found] using ih

theorem loadBlockIndexDB_ok (ran : loadBlockIndexDB db coins addr = .ok st) :
    Loaded db coins addr st := by
  have waiting : ∀ p b, (p, b) ∈ (db.tree.blocks.filter fun b => 0 < (db.entry b).nTx).filterMap
      (fun b => ((db.tree.parent b).filter fun p => (db.entry p).nChainTx = 0).map (·, b)) ↔
        db.tree.parent b = some p ∧ 0 < (db.entry b).nTx ∧ (db.entry p).nChainTx = 0 := by
    intro p b
    simp only [mem_filterMap, mem_filter, decide_eq_true_eq, map_eq_some_iff,
      filter_eq_some_iff, Prod.mk.injEq]
    constructor
    · rintro ⟨_, ⟨_, body⟩, _, ⟨edge, zero⟩, rfl, rfl⟩
      exact ⟨edge, body, zero⟩
    · rintro ⟨edge, body, zero⟩
      exact ⟨b, ⟨(db.tree.parent_mem edge).1, body⟩, p, ⟨edge, zero⟩, rfl, rfl⟩
  have distinct : (((db.tree.blocks.filter fun b => 0 < (db.entry b).nTx).filterMap
      (fun b => ((db.tree.parent b).filter fun p => (db.entry p).nChainTx = 0).map (·, b))).map
        Prod.snd).Nodup :=
    (db.tree.nodup.filter _).sublist (filterMap_snd_sublist _ _)
  simp only [loadBlockIndexDB] at ran
  split at ran
  · rename_i none
    cases ran
    refine ⟨rfl, rfl, rfl, rfl, rfl, rfl, rfl, by simp [none], waiting, distinct, fun b => ?_⟩
    simp [NotBefore, BlockTreeDB.entry]
  rename_i best found
  split at ran
  · rename_i known
    obtain ⟨_, active, rfl⟩ := pruneCandidates_ok ran
    cases active
    refine ⟨rfl, rfl, rfl, rfl, rfl, rfl, rfl, by simp [found, Option.filter, known], waiting, distinct,
      fun b => ?_⟩
    simp only [mem_filter, Bool.not_eq_true', comparator_eq_false, NotBefore, some.injEq, forall_eq',
      Bool.and_eq_true, Bool.or_eq_true, decide_eq_true_eq]
    rw [and_assoc, and_assoc]
    rfl
  rename_i unknown
  cases ran
  refine ⟨rfl, rfl, rfl, rfl, rfl, rfl, rfl, by simp [found, Option.filter, unknown], waiting, distinct,
    fun b => ?_⟩
  simp [NotBefore, BlockTreeDB.entry]

theorem persisted_entry {db : BlockTreeDB} {b : UInt256} : Persisted (db.entry b) (db.data b) := by
  rw [db.entry_eq, loadEntry_eq]
  exact ⟨rfl, rfl, rfl, rfl, rfl, fun child => by simp [child]⟩

theorem entry_counted : (db.entry b).nChainTx ≠ 0 ↔
    0 < (db.data b).nTx ∧ ∀ p, db.tree.parent b = some p → (db.entry p).nChainTx ≠ 0 := by
  rw [db.entry_eq, loadEntry_eq]
  rw [loadCount_ne_zero]
  simp

theorem entry_clean (chain : ∀ x, db.tree.Le x b →
    0 < (db.data x).nTx ∧ (db.data x).failed = false) :
    (db.entry b).nChainTx ≠ 0 ∧ (db.entry b).failed = false := by
  induction b using db.tree.parent_induction with
  | step b ih =>
    obtain ⟨body, sound⟩ := chain b (.refl b)
    have below : ∀ p, db.tree.parent b = some p →
        (db.entry p).nChainTx ≠ 0 ∧ (db.entry p).failed = false := by
      intro p edge
      exact ih p edge fun x le => chain x (le.trans (ParentTree.le_of_parent edge))
    refine ⟨entry_counted.2 ⟨body, fun p edge => (below p edge).1⟩, ?_⟩
    rw [Bool.eq_false_iff, db.entry_eq, ne_eq, loadEntry_failed]
    rintro (bad | ⟨_, _, found, bad⟩)
    · rw [sound] at bad
      cases bad
    obtain ⟨p, edge, rfl⟩ := map_eq_some_iff.1 found
    rw [(below p edge).2] at bad
    cases bad

theorem loadBlockIndexDB_succeeds (addr : UInt256 ↪ ℕ)
    (stored : Stored rules db.tree db.data) (best : coins.hashBlock = some t)
    (known : t ∈ db.tree.blocks)
    (chain : ∀ x, db.tree.Le x t → 0 < (db.data x).nTx ∧ (db.data x).failed = false) :
    ∃ st : ChainState C, loadBlockIndexDB db coins addr = .ok st := by
  obtain ⟨counted, sound⟩ := entry_clean chain
  have valid : (db.entry t).isValid .transactions := by
    rw [isValid_iff, ← (persisted_entry).validity]
    exact ⟨sound, stored.valid t (chain t (.refl t)).1⟩
  simp only [loadBlockIndexDB, best, known, ↓reduceIte, pruneBlockIndexCandidates]
  rw [if_neg]
  · exact ⟨_, rfl⟩
  -- The tip itself stays a candidate.
  apply ne_nil_of_mem
  rw [mem_filter, mem_filter]
  refine ⟨⟨known, ?_⟩, ?_⟩
  · have counted : (db.loaded (db.tree.height t) t).nChainTx ≠ 0 := counted
    have valid : (db.loaded (db.tree.height t) t).isValid .transactions := valid
    simp [counted, valid]
  · rw [Bool.not_eq_true', Bool.eq_false_iff, ne_eq, comparator_iff]
    exact lt_irrefl _

/-- **A loaded index is sound**, and its database is the one it was loaded from. -/
theorem Loaded.recorded (loaded : Loaded db coins addr st)
    (stored : Stored rules db.tree db.data) : Recorded rules st := by
  have nTx : ∀ b, (db.entry b).nTx = (db.data b).nTx := fun b => ((persisted_entry).nTx).symm
  have genesis : (db.entry rules.hashGenesisBlock).nChainTx ≠ 0 := by
    rw [entry_counted]
    refine ⟨stored.genesis_body, fun p edge => ?_⟩
    rw [stored.genesis_root] at edge
    cases edge
  refine ⟨⟨?_, ?_, ?_, ?_, ?_, ?_, ?_, ?_, ?_, ?_, ?_, ?_, loaded.unlinked_nodup⟩, ?_⟩
  · exact loaded.tree ▸ stored.genesis_known
  · exact loaded.tree ▸ stored.genesis_root
  · rw [loaded.data]
    exact genesis
  · exact loaded.tree ▸ stored.only_root
  · intro b
    rw [loaded.data, nTx, ← (persisted_entry).haveData]
    exact stored.body b
  · intro b body
    rw [loaded.data, nTx] at body
    rw [loaded.tree]
    exact stored.known b body
  · intro b mem
    rw [loaded.tree] at mem
    rw [loaded.data, ← (persisted_entry).validity]
    exact stored.known_valid b mem
  · intro b body
    rw [loaded.data, nTx] at body
    rw [loaded.data, ← (persisted_entry).validity]
    exact stored.valid b body
  · intro b counted
    rw [loaded.data] at counted ⊢
    rw [nTx]
    exact (entry_counted.1 counted).1
  · intro b p edge counted
    rw [loaded.data] at counted ⊢
    rw [loaded.tree] at edge
    exact (entry_counted.1 counted).2 p edge
  · intro b candidate
    obtain ⟨mem, _, linked, _⟩ := (loaded.candidates b).1 candidate
    rw [loaded.data]
    rcases linked with counted | root
    · exact counted
    · exact stored.only_root b mem root ▸ genesis
  · intro p b waiting
    rw [loaded.tree, loaded.data]
    exact (loaded.unlinked p b).1 waiting
  refine ⟨loaded.blocktree ▸ stored, ?_, ?_, ?_, ?_, ?_⟩
  · intro b mem
    rwa [loaded.blocktree, ← loaded.tree] at mem
  · intro b _
    rw [loaded.blocktree, loaded.tree]
  · intro b mem _
    rw [loaded.tree] at mem
    rw [loaded.blocktree, loaded.data]
    exact ⟨mem, persisted_entry⟩
  · intro b _ body
    rw [loaded.blocktree] at body
    rwa [loaded.data, nTx]
  intro b _ undo
  rw [loaded.blocktree] at undo
  rwa [loaded.data, ← (persisted_entry).haveUndo]

end ChainState
end DogecoinCore
