import DogecoinCore.Activation

/-! What each step of `ActivateBestChain` does to the chain state. Every function
gets one inversion lemma; `Step` collects the moves the loop is made of, so that
an invariant is checked on four moves and holds of the whole loop. -/
namespace DogecoinCore.ChainState
open Function List ParentTree Outcome BlockData BlockValidity
variable {C : Type} {st st' : ChainState C}

/-- What a successful `FlushStateToDisk` may have done. -/
inductive Flushed (st : ChainState C) : ChainState C → Prop
  | skip : Flushed st st
  | index : Flushed st st.flushBlockFile.writeBlockIndex
  | full : Flushed st (st.flushBlockFile.writeBlockIndex.flushCoinsTip true)

theorem flushState_ok {io : FlushIo}
    (ran : st.flushStateToDisk mode io = .ok st') : Flushed st st' := by
  simp only [flushStateToDisk] at ran
  split at ran
  · split at ran
    · cases ran
    split at ran
    · cases ran
    split at ran
    · split at ran
      · cases ran
      split at ran
      · cases ran
      · cases ran
        exact .full
    · cases ran
      exact .index
  · cases ran
    exact .skip

theorem Flushed.memory (flushed : Flushed st st') : ∃ blocktree dirty files db, st' = { st with
      blocktree := blocktree
      setDirtyBlockIndex := dirty
      files := files
      pcoinsTip := { st.pcoinsTip with db := db } } := by
  cases flushed with
  | skip | index | full => exact ⟨_, _, _, _, rfl⟩

/-- The state after the tip was taken off, before it is written anywhere. -/
def withoutTip (st : ChainState C) (tip : UInt256) (coins : C) : ChainState C :=
  { st with pcoinsTip := { st.pcoinsTip with
      view := { hashBlock := st.tree.parent tip, coins := coins } } }

/-- The state after a block was connected, before it is written anywhere. -/
def withTip (st : ChainState C) (b : UInt256) (coins : C) : ChainState C :=
  { st with pcoinsTip := { st.pcoinsTip with view := { hashBlock := some b, coins := coins } } }

theorem disconnectTip_ok (ran : st.disconnectTip rules io = .ok st') :
    ∃ tip coins flushed, st.chainActive = some tip ∧ (st.data tip).haveData ∧
      (st.data tip).haveUndo ∧ st.pcoinsTip.view.hashBlock = some tip ∧
      rules.disconnect st.pcoinsTip.view.coins tip = some coins ∧
      Flushed (st.withoutTip tip coins) flushed ∧
      st' = { flushed with chainActive := st.tree.parent tip } := by
  unfold disconnectTip at ran
  split at ran
  · cases ran
  rename_i tip active
  split at ran
  · cases ran
  rename_i readable
  split at ran
  · cases ran
  rename_i best
  split at ran
  · cases ran
  rename_i undo
  split at ran
  · cases ran
  rename_i coins undone
  obtain ⟨flushed, wrote, done⟩ := bind_eq_ok.1 ran
  simp only [Bool.not_eq_true', Bool.and_eq_false_iff, not_or, Bool.not_eq_false,
    not_not] at readable best undo
  exact ⟨tip, coins, flushed, active, readable.1, undo, best, undone,
    flushState_ok wrote, (ok.inj done).symm⟩

/-- An index entry whose undo record and validity may have advanced, with nothing else changed. -/
structure Advanced (d d' : BlockData) : Prop where
  nTx : d'.nTx = d.nTx
  nChainTx : d'.nChainTx = d.nChainTx
  nSequenceId : d'.nSequenceId = d.nSequenceId
  haveData : d'.haveData = d.haveData
  haveUndo : d.haveUndo → d'.haveUndo
  failedValid : d'.failedValid = d.failedValid
  failedChild : d'.failedChild = d.failedChild
  nFile : d'.nFile = d.nFile
  validity : d.validity.toNat ≤ d'.validity.toNat

theorem Advanced.refl (d : BlockData) : Advanced d d :=
  ⟨rfl, rfl, rfl, rfl, id, rfl, rfl, rfl, le_refl _⟩

theorem Advanced.failed (advanced : Advanced d d') : d'.failed = d.failed := by
  simp [BlockData.failed, advanced.failedValid, advanced.failedChild]

theorem writeUndo_eq : ∃ d dirty files, Advanced (st.data b) d ∧ d.haveUndo ∧
      ((st.data b).failed = false → scripts.toNat ≤ d.validity.toNat) ∧
      st.writeUndo b = { st with
        data := update st.data b d
        setDirtyBlockIndex := dirty
        files := files } := by
  unfold writeUndo
  split
  · rename_i present
    simp only [Bool.and_eq_true] at present
    refine ⟨st.data b, st.setDirtyBlockIndex, st.files, Advanced.refl _, present.1, ?_, ?_⟩
    · intro
      exact (isValid_iff.1 present.2).2
    · rw [update_eq_self]
  obtain ⟨v, le, scripts, shape⟩ := raiseValidity_eq { st.data b with haveUndo := true } .scripts
  have advanced : Advanced (st.data b) { st.data b with haveUndo := true, validity := v } :=
    ⟨rfl, rfl, rfl, rfl, fun _ => rfl, rfl, rfl, rfl, le⟩
  simp only [modify, markDirty, shape]
  exact ⟨_, _, _, advanced, rfl, scripts, rfl⟩

/-- The block index after `ConnectBlock` accepted a block. -/
inductive Accepted (rules : Consensus C) (st : ChainState C) (coins : C) (b : UInt256) :
    ChainState C → C → Prop
  | genesis : b = rules.hashGenesisBlock → Accepted rules st coins b st coins
  | block {coins' : C} : b ≠ rules.hashGenesisBlock → rules.connect coins b = some coins' →
      Accepted rules st coins b (st.writeUndo b) coins'

theorem connectBlock_valid (ran : st.connectBlock rules io view b = .ok (.valid st' view')) :
    view.hashBlock = st.tree.parent b ∧ view'.hashBlock = some b ∧
      Accepted rules st view.coins b st' view'.coins := by
  unfold connectBlock at ran
  split at ran
  · cases ran
  rename_i best
  refine ⟨not_not.1 best, ?_⟩
  split at ran
  · cases ran
    exact ⟨rfl, .genesis ‹_›⟩
  split at ran
  · cases ran
  split at ran
  · cases ran
  · cases ran
    exact ⟨rfl, .block ‹_› ‹_›⟩

theorem connectBlock_invalid (ran : st.connectBlock rules io view b = .ok (.invalid leftover)) :
    view.hashBlock = st.tree.parent b ∧ rules.connect view.coins b = none := by
  unfold connectBlock at ran
  split at ran
  · cases ran
  rename_i best
  refine ⟨not_not.1 best, ?_⟩
  split at ran
  · cases ran
  split at ran
  · assumption
  · split at ran <;> cases ran

theorem connectTip_connected (ran : st.connectTip rules io b = .ok (.connected st')) :
    ∃ accepted coins flushed, st.tree.parent b = st.chainActive ∧ (st.data b).haveData ∧
      st.pcoinsTip.view.hashBlock = st.tree.parent b ∧
      Accepted rules st st.pcoinsTip.view.coins b accepted coins ∧
      Flushed (accepted.withTip b coins) flushed ∧
      st' = { flushed with chainActive := some b } := by
  unfold connectTip at ran
  split at ran
  · cases ran
  rename_i onTip
  split at ran
  · cases ran
  rename_i readable
  obtain ⟨verdict, judged, rest⟩ := bind_eq_ok.1 ran
  simp only [Bool.not_eq_true', Bool.and_eq_false_iff, not_or, Bool.not_eq_false] at readable
  cases verdict with
  | invalid _ =>
    simp only at rest
    split at rest <;> cases rest
  | valid accepted view =>
    obtain ⟨flushed, wrote, done⟩ := bind_eq_ok.1 rest
    obtain ⟨best, moved, accept⟩ := connectBlock_valid judged
    refine ⟨accepted, view.coins, flushed, not_not.1 onTip, readable.1, best, accept, ?_, ?_⟩
    · rw [withTip, ← moved]
      exact flushState_ok wrote
    · injection (ok.inj done) with same
      exact same.symm

theorem connectTip_invalid (ran : st.connectTip rules io b = .ok (.invalid st')) :
    st.tree.parent b = st.chainActive ∧ (st.data b).haveData ∧
      st.pcoinsTip.view.hashBlock = st.tree.parent b ∧
      rules.connect st.pcoinsTip.view.coins b = none ∧ st' = st.invalidBlockFound b := by
  unfold connectTip at ran
  split at ran
  · cases ran
  rename_i onTip
  split at ran
  · cases ran
  rename_i readable
  obtain ⟨verdict, judged, rest⟩ := bind_eq_ok.1 ran
  simp only [Bool.not_eq_true', Bool.and_eq_false_iff, not_or, Bool.not_eq_false] at readable
  cases verdict with
  | invalid _ =>
    obtain ⟨best, rejected⟩ := connectBlock_invalid judged
    simp only at rest
    split at rest
    · cases rest
    · injection (ok.inj rest) with same
      exact ⟨not_not.1 onTip, readable.1, best, rejected, same.symm⟩
  | valid _ view =>
    obtain ⟨_, _, done⟩ := bind_eq_ok.1 rest
    injection (ok.inj done)

theorem pruneCandidates_ok (ran : st.pruneBlockIndexCandidates = .ok st') :
    ∃ tip, st.chainActive = some tip ∧ st' = { st with
      setBlockIndexCandidates := st.setBlockIndexCandidates.filter fun b =>
        !st.blockIndexWorkComparator b tip } := by
  unfold pruneBlockIndexCandidates at ran
  split at ran
  · cases ran
  rename_i tip active
  simp only at ran
  split at ran
  · cases ran
  · exact ⟨tip, active, (ok.inj ran).symm⟩

theorem contains_of_le (le : st.tree.Le a b) (held : st.contains b) : st.contains a := by
  obtain ⟨tip, active, below⟩ := contains_iff.1 held
  exact contains_iff.2 ⟨tip, active, le.trans below⟩

theorem walk_usable (bound : st.tree.height b ≤ n) (walked : st.walk n b = .usable)
    (le : st.tree.Le x b) (off : ¬ st.contains x) :
    (st.data x).failed = false ∧ (st.data x).haveData := by
  induction n generalizing b with
  | zero =>
    unfold walk at walked
    split at walked
    · exact absurd (contains_of_le le ‹_›) off
    split at walked
    · cases walked
    split at walked
    · cases walked
    rename_i usable
    have root : st.tree.parent b = none := by
      cases edge : st.tree.parent b with
      | none => rfl
      | some p =>
        have := st.tree.height_parent edge
        omega
    rw [le.eq_root root]
    simpa using usable
  | succ n ih =>
    unfold walk at walked
    split at walked
    · exact absurd (contains_of_le le ‹_›) off
    split at walked
    · cases walked
    split at walked
    · cases walked
    rename_i usable
    rcases le_iff_parent.1 le with rfl | ⟨p, edge, below⟩
    · simpa using usable
    have := st.tree.height_parent edge
    simp only [edge] at walked
    exact ih (by omega) walked below

theorem walk_unusable (walked : st.walk n b = .unusable x) :
    st.tree.Le x b ∧ ¬ st.contains x ∧ ((st.data x).failed ∨ (st.data x).haveData = false) := by
  induction n generalizing b with
  | zero =>
    unfold walk at walked
    split at walked
    · cases walked
    split at walked
    · cases walked
    split at walked
    · rename_i off _ bad
      cases walked
      exact ⟨ParentTree.Le.refl _, off, by simpa using bad⟩
    · cases walked
  | succ n ih =>
    unfold walk at walked
    split at walked
    · cases walked
    split at walked
    · cases walked
    split at walked
    · rename_i off _ bad
      cases walked
      exact ⟨ParentTree.Le.refl _, off, by simpa using bad⟩
    cases edge : st.tree.parent b with
    | none => simp [edge] at walked
    | some _ =>
      simp only [edge] at walked
      obtain ⟨le, off, bad⟩ := ih walked
      exact ⟨le.trans (le_of_parent edge), off, bad⟩

theorem walk_ne_assertFailed (linked : ∀ y, st.tree.Le y b → (st.data y).nChainTx ≠ 0) :
    st.walk n b ≠ .assertFailed := by
  induction n generalizing b with
  | zero =>
    unfold walk
    split
    · simp
    · simp only [linked b (ParentTree.Le.refl b), false_and, ↓reduceIte]
      split <;> simp
  | succ n ih =>
    unfold walk
    split
    · simp
    simp only [linked b (ParentTree.Le.refl b), false_and, ↓reduceIte]
    split
    · simp
    cases edge : st.tree.parent b with
    | none => simp
    | some _ => exact ih fun y le => linked y (le.trans (le_of_parent edge))

/-- The moves `ActivateBestChain` is made of. -/
inductive Step (rules : Consensus C) (io : ChainIo) (st : ChainState C) : ChainState C → Prop
  | drop {pindexNew pindexTest : UInt256} : st.bestCandidate = some pindexNew →
      st.walk (st.tree.height pindexNew) pindexNew = .unusable pindexTest →
      Step rules io st (st.removeChain pindexNew pindexTest)
  | disconnect {st' : ChainState C} : st.disconnectTip rules io = .ok st' → Step rules io st st'
  | connect {b : UInt256} {mid st' : ChainState C} :
      st.connectTip rules io b = .ok (.connected mid) →
      mid.pruneBlockIndexCandidates = .ok st' → Step rules io st st'
  | invalid {b : UInt256} {st' : ChainState C} :
      st.connectTip rules io b = .ok (.invalid st') → Step rules io st st'

abbrev Steps (rules : Consensus C) (io : ChainIo) : ChainState C → ChainState C → Prop :=
  Relation.ReflTransGen (Step rules io)

open Relation

theorem mostWorkLoop_ok {P : ChainState C → Prop}
    (drop : ∀ st m x, P st → st.bestCandidate = some m →
      st.walk (st.tree.height m) m = .unusable x → P (st.removeChain m x))
    (start : P st) (ran : findMostWorkChainLoop n st = .ok (st', r)) :
    P st' ∧ st'.bestCandidate = r ∧ ∀ m, r = some m → st'.walk (st'.tree.height m) m = .usable := by
  induction n generalizing st with
  | zero =>
    unfold findMostWorkChainLoop at ran
    split at ran
    · cases ran
      exact ⟨start, ‹_›, by simp⟩
    split at ran
    · cases ran
      exact ⟨start, ‹_›, by rintro _ ⟨⟩; assumption⟩
    · cases ran
    · rename_i same
      cases same
    · cases ran
  | succ n ih =>
    unfold findMostWorkChainLoop at ran
    split at ran
    · cases ran
      exact ⟨start, ‹_›, by simp⟩
    rename_i m best
    split at ran
    · cases ran
      exact ⟨start, best, by rintro _ ⟨⟩; assumption⟩
    · cases ran
    · rename_i x turns walked same
      cases same
      exact ih (drop st m x start best walked) ran
    · cases ran

theorem mostWorkLoop_steps
    (ran : findMostWorkChainLoop n st = .ok (st', r)) : Steps rules io st st' :=
  (mostWorkLoop_ok
    (fun _ _ _ made best walked => made.tail (.drop best walked)) .refl ran).1

theorem disconnectToFork_steps
    (ran : disconnectToFork rules io fork n st = .ok (st', refused)) : Steps rules io st st' := by
  induction n generalizing st with
  | zero =>
    cases ran
    exact .refl
  | succ n ih =>
    unfold disconnectToFork at ran
    split at ran
    · cases ran
      exact .refl
    split at ran
    · cases ran
      exact .refl
    split at ran
    · cases ran
      exact .refl
    · obtain ⟨_, disconnected, rest⟩ := bind_eq_ok.1 ran
      exact .head (.disconnect disconnected) (ih rest)

theorem connectBlocks_steps (ran : connectBlocks rules io old path st = .ok (st', fInvalidFound)) :
    Steps rules io st st' := by
  induction path generalizing st with
  | nil =>
    cases ran
    exact .refl
  | cons _ _ ih =>
    obtain ⟨verdict, judged, next⟩ := bind_eq_ok.1 ran
    cases verdict with
    | invalid mid =>
      cases next
      exact .single (.invalid judged)
    | connected mid =>
      obtain ⟨pruned, kept, next⟩ := bind_eq_ok.1 next
      have step : Step rules io st pruned := .connect judged kept
      split at next
      · cases next
        exact .single step
      · exact .head step (ih next)

theorem activateStep_steps
    (ran : st.activateBestChainStep rules io m = .ok (st', fInvalidFound)) :
    Steps rules io st st' := by
  obtain ⟨⟨_, _⟩, disconnected, next⟩ := bind_eq_ok.1 ran
  have down := disconnectToFork_steps disconnected
  simp only at next
  split at next
  · cases next
    exact down
  · exact down.trans (connectBlocks_steps next)

/-- The state and `pindexMostWork` a turn works with: cached, or found by `FindMostWorkChain`. -/
inductive Chosen (s : BestChainLoop C) : ChainState C → Option UInt256 → Prop
  | cached {m : UInt256} : s.pindexMostWork = some m → Chosen s s.st (some m)
  | found {st : ChainState C} {r : Option UInt256} : s.pindexMostWork = none →
      s.st.findMostWorkChain = .ok (st, r) → Chosen s st r

theorem bestChainTurn_of_chosen
    (chosen : Chosen s st r) : bestChainTurn rules io s = bestChainStep rules io st r := by
  unfold bestChainTurn
  cases chosen with
  | cached held => rw [held]
  | found held ran => simp only [held, ran]

theorem mostWorkLoop_ne_fail : findMostWorkChainLoop n st ≠ .fail st' := by
  induction n generalizing st with
  | zero =>
    unfold findMostWorkChainLoop
    split
    · simp
    · split <;> simp_all
  | succ n ih =>
    unfold findMostWorkChainLoop
    split
    · simp
    split
    · simp
    · simp
    · rename_i same
      cases same
      exact ih
    · simp

theorem bestChainTurn_chosen (rules : Consensus C) (io : ChainIo) (s : BestChainLoop C) :
    (∃ st r, Chosen s st r) ∨ s.pindexMostWork = none ∧ s.st.findMostWorkChain = .abort ∧
        bestChainTurn rules io s = .leave .abort := by
  cases held : s.pindexMostWork with
  | some _ => exact .inl ⟨_, _, .cached held⟩
  | none =>
    cases ran : s.st.findMostWorkChain with
    | ok found => exact .inl ⟨_, _, .found held ran⟩
    | fail st => exact absurd ran mostWorkLoop_ne_fail
    | abort => exact .inr ⟨rfl, rfl, by simp only [bestChainTurn, held, ran]⟩

theorem Chosen.steps (chosen : Chosen s st r) : Steps rules io s.st st := by
  cases chosen with
  | cached _ => exact .refl
  | found _ ran => exact mostWorkLoop_steps ran

theorem bestChainStep_again (turned : bestChainStep rules io st r = .again s') :
    ∃ m fInvalidFound, r = some m ∧ st.chainActive ≠ some m ∧
      st.activateBestChainStep rules io m = .ok (s'.st, fInvalidFound) ∧
      s'.pindexMostWork = (if fInvalidFound then none else some m) ∧
      s'.st.chainActive ≠ s'.pindexMostWork := by
  unfold bestChainStep at turned
  split at turned
  · cases turned
  rename_i m
  split at turned
  · cases turned
  rename_i apart
  split at turned
  · cases turned
  · cases turned
  rename_i next fInvalidFound ran
  by_cases arrived : next.chainActive = if fInvalidFound then none else some m
  · rw [if_pos arrived] at turned
    cases turned
  rw [if_neg arrived] at turned
  cases turned
  exact ⟨m, fInvalidFound, rfl, apart, ran, rfl, arrived⟩

inductive Exit (rules : Consensus C) (io : ChainIo) (st : ChainState C) :
    Option UInt256 → LoopExit C → Prop
  | noCandidate : Exit rules io st none (.nothingToDo st)
  | atTip {m : UInt256} : st.chainActive = some m → Exit rules io st (some m) (.nothingToDo st)
  | reached {m : UInt256} {fInvalidFound : Bool} {st' : ChainState C} :
      st.chainActive ≠ some m → st.activateBestChainStep rules io m = .ok (st', fInvalidFound) →
      st'.chainActive = (if fInvalidFound then none else some m) →
      Exit rules io st (some m) (.reached st')

theorem bestChainStep_leave
    (turned : bestChainStep rules io st r = .leave (.ok exit)) : Exit rules io st r exit := by
  unfold bestChainStep at turned
  split at turned
  · cases turned
    exact .noCandidate
  rename_i m
  split at turned
  · cases turned
    exact .atTip ‹_›
  split at turned
  · cases turned
  · cases turned
  rename_i next fInvalidFound ran
  by_cases arrived : next.chainActive = if fInvalidFound then none else some m
  · rw [if_pos arrived] at turned
    cases turned
    exact .reached ‹_› ran arrived
  · rw [if_neg arrived] at turned
    cases turned

theorem Exit.steps (left : Exit rules io st r exit) : Steps rules io st exit.st := by
  cases left with
  | noCandidate | atTip _ => exact .refl
  | reached _ ran _ => exact activateStep_steps ran

theorem bestChainLoop_steps
    (ran : st.activateBestChainLoop rules io fuel = some (.ok exit)) :
    Steps rules io st exit.st := by
  refine iterate.invariant (I := fun s => Steps rules io st s.st)
    (Q := fun r => ∀ exit, r = .ok exit → Steps rules io st exit.st) ?_ ?_ .refl ran exit rfl
  · intro s _ made turned
    rcases bestChainTurn_chosen rules io s with ⟨mid, r, chosen⟩ | ⟨_, _, stuck⟩
    · rw [bestChainTurn_of_chosen chosen] at turned
      obtain ⟨_, _, _, _, stepped, _⟩ := bestChainStep_again turned
      exact (made.trans chosen.steps).trans (activateStep_steps stepped)
    · simp [stuck] at turned
  rintro s _ made turned exit rfl
  rcases bestChainTurn_chosen rules io s with ⟨mid, r, chosen⟩ | ⟨_, _, stuck⟩
  · rw [bestChainTurn_of_chosen chosen] at turned
    exact (made.trans chosen.steps).trans (bestChainStep_leave turned).steps
  · simp [stuck] at turned

/-- What no move of `ActivateBestChain` changes: the tree, the bodies and their order. Undo
records and failure flags are only added, candidates only removed. -/
structure Kept (st st' : ChainState C) : Prop where
  tree : st'.tree = st.tree
  addr : st'.addr = st.addr
  snapshotActive : st'.snapshotActive = st.snapshotActive
  nTx : ∀ b, (st'.data b).nTx = (st.data b).nTx
  nChainTx : ∀ b, (st'.data b).nChainTx = (st.data b).nChainTx
  nSequenceId : ∀ b, (st'.data b).nSequenceId = (st.data b).nSequenceId
  haveData : ∀ b, (st'.data b).haveData = (st.data b).haveData
  nFile : ∀ b, (st'.data b).nFile = (st.data b).nFile
  validity : ∀ b, (st.data b).validity.toNat ≤ (st'.data b).validity.toNat
  haveUndo : ∀ b, (st.data b).haveUndo → (st'.data b).haveUndo
  failedValid : ∀ b, (st.data b).failedValid → (st'.data b).failedValid
  failedChild : ∀ b, (st.data b).failedChild → (st'.data b).failedChild
  candidates : ∀ b ∈ st'.setBlockIndexCandidates, b ∈ st.setBlockIndexCandidates

namespace Kept
theorem refl (st : ChainState C) : Kept st st where
  tree := rfl
  addr := rfl
  snapshotActive := rfl
  nTx _ := rfl
  nChainTx _ := rfl
  nSequenceId _ := rfl
  haveData _ := rfl
  nFile _ := rfl
  validity _ := le_rfl
  haveUndo _ := id
  failedValid _ := id
  failedChild _ := id
  candidates _ := id

theorem trans (first : Kept st st') (second : Kept st' st'') : Kept st st'' where
  tree := second.tree.trans first.tree
  addr := second.addr.trans first.addr
  snapshotActive := second.snapshotActive.trans first.snapshotActive
  nTx b := (second.nTx b).trans (first.nTx b)
  nChainTx b := (second.nChainTx b).trans (first.nChainTx b)
  nSequenceId b := (second.nSequenceId b).trans (first.nSequenceId b)
  haveData b := (second.haveData b).trans (first.haveData b)
  nFile b := (second.nFile b).trans (first.nFile b)
  validity b := (first.validity b).trans (second.validity b)
  haveUndo b held := second.haveUndo b (first.haveUndo b held)
  failedValid b held := second.failedValid b (first.failedValid b held)
  failedChild b held := second.failedChild b (first.failedChild b held)
  candidates b mem := first.candidates b (second.candidates b mem)

section
variable (kept : Kept st st')
include kept

theorem sortKey : st'.sortKey = st.sortKey := by
  funext b
  simp [ChainState.sortKey, kept.tree, kept.addr, kept.nSequenceId]

theorem contains_congr (tip : st'.chainActive = st.chainActive) :
    st'.contains x ↔ st.contains x := by
  rw [contains_iff, contains_iff, tip, kept.tree]

theorem failed (bad : (st.data b).failed) : (st'.data b).failed := by
  simp only [BlockData.failed, Bool.or_eq_true] at bad ⊢
  exact bad.imp (kept.failedValid b) (kept.failedChild b)

theorem sound (sound : (st'.data x).failed = false) :
    (st.data x).failed = false := by
  by_contra bad
  have still := kept.failed (by simpa using bad)
  rw [sound] at still
  cases still

end

theorem of_advanced (tree : st'.tree = st.tree) (addr : st'.addr = st.addr)
    (snapshotActive : st'.snapshotActive = st.snapshotActive)
    (data : ∀ b, Advanced (st.data b) (st'.data b))
    (candidates : ∀ b ∈ st'.setBlockIndexCandidates, b ∈ st.setBlockIndexCandidates) :
    Kept st st' where
  tree := tree
  addr := addr
  snapshotActive := snapshotActive
  nTx b := (data b).nTx
  nChainTx b := (data b).nChainTx
  nSequenceId b := (data b).nSequenceId
  haveData b := (data b).haveData
  nFile b := (data b).nFile
  validity b := (data b).validity
  haveUndo b := (data b).haveUndo
  failedValid b held := (data b).failedValid ▸ held
  failedChild b held := (data b).failedChild ▸ held
  candidates := candidates

end Kept

theorem disconnectTip_memory (ran : st.disconnectTip rules io = .ok st') :
    ∃ tip coins blocktree dirty files db, st.chainActive = some tip ∧ (st.data tip).haveUndo ∧
      rules.disconnect st.pcoinsTip.view.coins tip = some coins ∧
      st' = { st with
        chainActive := st.tree.parent tip
        pcoinsTip := { db := db, view := { hashBlock := st.tree.parent tip, coins := coins } }
        blocktree := blocktree
        setDirtyBlockIndex := dirty
        files := files } := by
  obtain ⟨tip, coins, _, active, _, undo, _, undone, wrote, rfl⟩ := disconnectTip_ok ran
  obtain ⟨blocktree, dirty, files, db, rfl⟩ := wrote.memory
  exact ⟨tip, coins, blocktree, dirty, files, db, active, undo, undone, rfl⟩

theorem connectTip_memory (ran : st.connectTip rules io b = .ok (.connected st')) :
    ∃ d coins blocktree dirty files db, st.tree.parent b = st.chainActive ∧
      (st.data b).haveData ∧ Advanced (st.data b) d ∧
      (b ≠ rules.hashGenesisBlock → (st.data b).failed = false →
        scripts.toNat ≤ d.validity.toNat) ∧
      (b = rules.hashGenesisBlock ∧ coins = st.pcoinsTip.view.coins ∨
        b ≠ rules.hashGenesisBlock ∧ d.haveUndo ∧
          rules.connect st.pcoinsTip.view.coins b = some coins) ∧
      st' = { st with
        data := update st.data b d
        chainActive := some b
        pcoinsTip := { db := db, view := { hashBlock := some b, coins := coins } }
        blocktree := blocktree
        setDirtyBlockIndex := dirty
        files := files } := by
  obtain ⟨_, coins, _, onTip, body, _, accept, wrote, rfl⟩ := connectTip_connected ran
  obtain ⟨blocktree, dirty, files, db, rfl⟩ := wrote.memory
  cases accept with
  | genesis first =>
    refine ⟨st.data b, _, blocktree, dirty, files, db, onTip, body, .refl _,
      fun notFirst => absurd first notFirst, .inl ⟨first, rfl⟩, ?_⟩
    rw [update_eq_self]
    rfl
  | block notFirst connected =>
    obtain ⟨d, _, _, advanced, undo, scripts, shape⟩ := writeUndo_eq
    rw [shape]
    exact ⟨d, coins, blocktree, dirty, files, db, onTip, body, advanced, fun _ => scripts,
      .inr ⟨notFirst, undo, connected⟩, rfl⟩

theorem removeChain_eq (st : ChainState C) (pindexNew pindexTest : UInt256) :
    ∃ data unlinked, st.removeChain pindexNew pindexTest = { st with
        data := data
        mapBlocksUnlinked := unlinked
        setBlockIndexCandidates := st.setBlockIndexCandidates.filter fun b =>
          b ∉ st.tree.down (st.tree.height pindexNew - st.tree.height pindexTest) pindexNew ∧
            b ≠ pindexTest } ∧
      ((st.data pindexTest).failed = false → data = st.data) ∧
      ((st.data pindexTest).failed → unlinked = st.mapBlocksUnlinked ∧ data = fun b =>
        if b ∈ st.tree.down (st.tree.height pindexNew - st.tree.height pindexTest) pindexNew then
          { st.data b with failedChild := true } else st.data b) := by
  cases bad : (st.data pindexTest).failed with
  | false =>
    simp only [removeChain, bad, Bool.false_eq_true, ↓reduceIte]
    exact ⟨st.data, _, rfl, fun _ => rfl, by simp⟩
  | true =>
    simp only [removeChain, bad, ↓reduceIte, modifyAll]
    exact ⟨_, st.mapBlocksUnlinked, rfl, by simp, fun _ => ⟨rfl, rfl⟩⟩

theorem removeChain_kept (st : ChainState C) (m x : UInt256) : Kept st (st.removeChain m x) := by
  obtain ⟨data, _, shape, clean, bad⟩ := removeChain_eq st m x
  rw [shape]
  cases failed : (st.data x).failed with
  | false =>
    obtain rfl := clean failed
    exact .of_advanced rfl rfl rfl (fun _ => .refl _) fun b => mem_of_mem_filter
  | true =>
    obtain ⟨-, rfl⟩ := bad failed
    constructor <;> try rfl
    all_goals intro b
    all_goals first
      | exact mem_of_mem_filter
      | (dsimp only; split <;> simp)

theorem Step.kept (step : Step rules io st st') : Kept st st' := by
  cases step with
  | drop _ _ => exact removeChain_kept st _ _
  | disconnect ran =>
    obtain ⟨tip, coins, blocktree, dirty, files, db, _, _, _, rfl⟩ := disconnectTip_memory ran
    exact .of_advanced rfl rfl rfl (fun _ => .refl _) fun _ => id
  | connect ran pruned =>
    obtain ⟨tip, _, rfl⟩ := pruneCandidates_ok pruned
    obtain ⟨_, coins, blocktree, dirty, files, db, _, _, advanced, _, _, rfl⟩ :=
      connectTip_memory ran
    refine .of_advanced rfl rfl rfl (fun x => ?_) fun _ => mem_of_mem_filter
    dsimp only
    rw [update_apply]
    split
    · rename_i same
      exact same ▸ advanced
    · exact .refl _
  | @invalid b _ ran =>
    obtain ⟨_, _, _, _, rfl⟩ := connectTip_invalid ran
    constructor <;> try rfl
    all_goals intro x
    all_goals first
      | exact mem_of_mem_filter
      | (simp only [invalidBlockFound, eraseCandidate, markDirty, modify]
         by_cases same : x = b
         · subst same
           simp
         · simp [same])

theorem Steps.kept (steps : Steps rules io st st') : Kept st st' := by
  induction steps with
  | refl => exact .refl st
  | tail _ step ih => exact ih.trans step.kept

structure Disconnected (rules : Consensus C) (st : ChainState C) (old : UInt256)
    (st' : ChainState C) : Prop where
  kept : Kept st st'
  active : st.chainActive = some old
  tip : st'.chainActive = st.tree.parent old
  best : st'.pcoinsTip.view.hashBlock = st.tree.parent old
  coins : rules.disconnect st.pcoinsTip.view.coins old = some st'.pcoinsTip.view.coins
  data : st'.data = st.data
  candidates : st'.setBlockIndexCandidates = st.setBlockIndexCandidates
  unlinked : st'.mapBlocksUnlinked = st.mapBlocksUnlinked

theorem disconnectTip_moves (ran : st.disconnectTip rules io = .ok st') :
    ∃ tip, Disconnected rules st tip st' := by
  have kept := (Step.disconnect ran).kept
  obtain ⟨tip, _, _, _, _, _, active, _, undone, rfl⟩ := disconnectTip_memory ran
  exact ⟨tip, kept, active, rfl, rfl, undone, rfl, rfl, rfl⟩

/-- The block `b` became the tip and the candidates that sort before it are gone. -/
structure Connected (rules : Consensus C) (st : ChainState C) (b : UInt256)
    (st' : ChainState C) : Prop where
  kept : Kept st st'
  parent : st.tree.parent b = st.chainActive
  body : (st.data b).haveData
  tip : st'.chainActive = some b
  best : st'.pcoinsTip.view.hashBlock = some b
  coins : b = rules.hashGenesisBlock ∧ st'.pcoinsTip.view.coins = st.pcoinsTip.view.coins ∨
    b ≠ rules.hashGenesisBlock ∧ (st'.data b).haveUndo ∧
      rules.connect st.pcoinsTip.view.coins b = some st'.pcoinsTip.view.coins
  data : ∀ x, Advanced (st.data x) (st'.data x)
  scripts : b ≠ rules.hashGenesisBlock → (st.data b).failed = false →
    scripts.toNat ≤ (st'.data b).validity.toNat
  candidates : ∀ c, c ∈ st'.setBlockIndexCandidates ↔
    c ∈ st.setBlockIndexCandidates ∧ st.sortKey b ≤ st.sortKey c
  unlinked : st'.mapBlocksUnlinked = st.mapBlocksUnlinked

theorem connectTip_connects (ran : st.connectTip rules io b = .ok (.connected mid))
    (pruned : mid.pruneBlockIndexCandidates = .ok st') : Connected rules st b st' := by
  have kept := (Step.connect ran pruned).kept
  obtain ⟨_, _, _, _, _, _, onTip, body, advanced, scripts, moved, rfl⟩ := connectTip_memory ran
  obtain ⟨_, active, rfl⟩ := pruneCandidates_ok pruned
  cases active
  refine ⟨kept, onTip, body, rfl, rfl, ?_, fun _ => ?_, ?_, fun c => ?_, rfl⟩
  · simpa using moved
  · dsimp only
    rw [update_apply]
    split
    · rename_i same
      exact same ▸ advanced
    · exact .refl _
  · simpa using scripts
  have same := congrFun kept.sortKey
  simp only [mem_filter, Bool.not_eq_true', comparator_eq_false]
  exact and_congr_right fun _ => by rw [← same b, ← same c]; rfl

/-- The block `b` was found invalid on top of the tip. -/
structure Rejected (rules : Consensus C) (st : ChainState C) (b : UInt256)
    (st' : ChainState C) : Prop where
  kept : Kept st st'
  parent : st.tree.parent b = st.chainActive
  verdict : rules.connect st.pcoinsTip.view.coins b = none
  tip : st'.chainActive = st.chainActive
  view : st'.pcoinsTip = st.pcoinsTip
  data : ∀ x, st'.data x = if x = b then { st.data x with failedValid := true } else st.data x
  candidates : ∀ c, c ∈ st'.setBlockIndexCandidates ↔ c ∈ st.setBlockIndexCandidates ∧ c ≠ b
  unlinked : st'.mapBlocksUnlinked = st.mapBlocksUnlinked

theorem connectTip_rejected (ran : st.connectTip rules io b = .ok (.invalid st')) :
    Rejected rules st b st' := by
  have kept := (Step.invalid ran).kept
  obtain ⟨onTip, _, _, verdict, rfl⟩ := connectTip_invalid ran
  refine ⟨kept, onTip, verdict, rfl, rfl, fun _ => ?_, fun _ => ?_, rfl⟩
  · simp only [invalidBlockFound, eraseCandidate, markDirty, modify, update_apply]
    split
    · rename_i same
      rw [same]
    · rfl
  · simp [invalidBlockFound, eraseCandidate, markDirty, modify]

/-- The candidate `m` was given up for the unusable block `x` of its chain. -/
structure Dropped (st : ChainState C) (m x : UInt256) (st' : ChainState C) : Prop where
  kept : Kept st st'
  best : st.bestCandidate = some m
  below : st.tree.Le x m
  off : ¬ st.contains x
  bad : (st.data x).failed ∨ (st.data x).haveData = false
  tip : st'.chainActive = st.chainActive
  view : st'.pcoinsTip = st.pcoinsTip
  candidates : ∀ c, c ∈ st'.setBlockIndexCandidates ↔
    c ∈ st.setBlockIndexCandidates ∧ ¬ (st.tree.Le x c ∧ st.tree.Le c m)
  data_clean : (st.data x).failed = false → st'.data = st.data
  data_failed : (st.data x).failed → ∀ y, st'.data y =
    if st.tree.Le x y ∧ st.tree.Le y m ∧ y ≠ x then { st.data y with failedChild := true }
    else st.data y
  unlinked : (st.data x).failed → st'.mapBlocksUnlinked = st.mapBlocksUnlinked

theorem removeChain_dropped (best : st.bestCandidate = some m)
    (walked : st.walk (st.tree.height m) m = .unusable x) :
    Dropped st m x (st.removeChain m x) := by
  have kept := removeChain_kept st m x
  obtain ⟨below, off, bad⟩ := walk_unusable walked
  obtain ⟨_, _, shape, clean, failed⟩ := removeChain_eq st m x
  rw [shape] at kept ⊢
  refine ⟨kept, best, below, off, bad, rfl, rfl, fun c => ?_, clean, fun flagged _ => ?_,
    fun flagged => (failed flagged).1⟩
  · simp only [mem_filter, decide_eq_true_eq, mem_down_above below]
    refine and_congr_right fun _ => ?_
    by_cases same : c = x
    · subst same
      simp [below, ParentTree.Le.refl]
    · simp [same]
  · obtain ⟨-, rfl⟩ := failed flagged
    simp [mem_down_above below]

theorem Step.cases (step : Step rules io st st') :
    (∃ m x, Dropped st m x st') ∨ (∃ tip, Disconnected rules st tip st') ∨
      (∃ b, Connected rules st b st') ∨ ∃ b, Rejected rules st b st' := by
  cases step with
  | drop best walked => exact .inl ⟨_, _, removeChain_dropped best walked⟩
  | disconnect ran => exact .inr (.inl (disconnectTip_moves ran))
  | connect ran pruned => exact .inr (.inr (.inl ⟨_, connectTip_connects ran pruned⟩))
  | invalid ran => exact .inr (.inr (.inr ⟨_, connectTip_rejected ran⟩))

end DogecoinCore.ChainState
