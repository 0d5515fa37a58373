import DogecoinCore.BestChain

/-! `ActivateBestChain` over an anchored state returns true when no input or output
fails: the undo records, bodies and candidates it relies on are there. -/
namespace DogecoinCore
open List Outcome Bool ChainState ParentTree

structure FlushIo.Fine (io : FlushIo) : Prop where
  diskSpace : io.diskSpace
  writeBatchSync : io.writeBatchSync
  diskSpaceCoins : io.diskSpaceCoins
  flushCoins : io.flushCoins

structure ChainIo.Fine (io : ChainIo) : Prop where
  readBlock : ∀ b, io.readBlock b
  writeUndo : ∀ b, io.writeUndo b
  flush : ∀ b, (io.flush b).Fine
  flushPeriodic : io.flushPeriodic.Fine

namespace ChainState
variable {C : Type} {rules : Consensus C} {io : ChainIo} {low : UInt256 → Prop} {base : C}
  {a b m r t x : UInt256} {st st' : ChainState C}

theorem flushState_fine (mode : FlushStateMode) {io : FlushIo} (fine : io.Fine)
    (st : ChainState C) : ∃ st', st.flushStateToDisk mode io = .ok st' := by
  simp only [flushStateToDisk, fine.diskSpace, fine.writeBatchSync, fine.diskSpaceCoins,
    fine.flushCoins, Bool.not_true, Bool.false_eq_true, ↓reduceIte]
  split
  · split
    · exact ⟨_, rfl⟩
    · exact ⟨_, rfl⟩
  · exact ⟨_, rfl⟩

namespace Anchored
section
variable (inv : Anchored rules low a base r st)
include inv

theorem disconnectTip_fine (fine : io.Fine) (active : st.chainActive = some t) (ne : t ≠ a) :
    ∃ st', st.disconnectTip rules io = .ok st' := by
  obtain ⟨_, active', connects⟩ := inv.tip
  rw [active] at active'
  cases active'
  have held := contains_iff.2 ⟨t, active, .refl t⟩
  obtain ⟨undo, _, linked⟩ := inv.active t held connects.le ne
  obtain ⟨_, before, _, _, connected⟩ := connects.before ne
  have undone := rules.disconnect_iff.2 connected
  obtain ⟨_, wrote⟩ := flushState_fine .ifNeeded (fine.flush t) (st.withoutTip t before)
  simp only [withoutTip, active] at wrote
  simp [disconnectTip, active, inv.linked_body t linked, fine.readBlock, inv.best, undo, undone,
    wrote]

theorem connectTip_fine (fine : io.Fine)
    (onTip : st.tree.parent b = st.chainActive) (body : (st.data b).haveData) :
    ∃ verdict, st.connectTip rules io b = .ok verdict := by
  obtain ⟨_, active, _⟩ := inv.tip
  have notFirst : b ≠ rules.hashGenesisBlock := by
    rintro rfl
    rw [inv.root, active] at onTip
    cases onTip
  have best : st.pcoinsTip.view.hashBlock = st.tree.parent b := by rw [inv.best, onTip]
  unfold connectTip
  rw [if_neg (not_not.2 onTip)]
  simp only [body, fine.readBlock, Bool.and_self, Bool.not_true, Bool.false_eq_true, ↓reduceIte]
  cases connected : rules.connect st.pcoinsTip.view.coins b with
  | none => simp [connectBlock, best, notFirst, connected, active]
  | some coins =>
    obtain ⟨_, wrote⟩ := flushState_fine .ifNeeded (fine.flush b)
      { st.writeUndo b with pcoinsTip := { (st.writeUndo b).pcoinsTip with
        view := { hashBlock := some b, coins := coins } } }
    simp [connectBlock, best, notFirst, connected, fine.writeUndo, wrote]

private theorem prune_fine (clean : (st.data b).failed = false) (linked : (st.data b).nChainTx ≠ 0)
    (ran : st.connectTip rules io b = .ok (.connected mid)) :
    ∃ st', mid.pruneBlockIndexCandidates = .ok st' := by
  obtain ⟨_, _, _, _, _, _, onTip, _, advanced, _, _, shape⟩ := connectTip_memory ran
  have key : mid.sortKey = st.sortKey := by
    funext y
    rw [shape]
    simp only [sortKey, Function.update_apply]
    split
    · rename_i same
      rw [same, advanced.nSequenceId]
    · rfl
  obtain ⟨_, active, connects⟩ := inv.tip
  have above := connects.le.trans (le_of_parent (onTip.trans active))
  obtain ⟨c, mem, order⟩ : ∃ c ∈ st.setBlockIndexCandidates, st.sortKey b ≤ st.sortKey c := by
    rcases le_or_gt (st.sortKey b) (st.sortKey r) with behind | ahead
    · exact ⟨r, inv.ref_mem, behind⟩
    · exact ⟨b, inv.complete b above linked clean ahead.le, le_refl _⟩
  have stays : c ∈ mid.setBlockIndexCandidates.filter
      fun y => !mid.blockIndexWorkComparator y b := by
    simp only [mem_filter, not_eq_true', comparator_eq_false, key]
    exact ⟨shape ▸ mem, order⟩
  have tip : mid.chainActive = some b := by rw [shape]
  unfold pruneBlockIndexCandidates
  simp only [tip]
  rw [if_neg (ne_nil_of_mem stays)]
  exact ⟨_, rfl⟩

theorem disconnectToFork_fine (fine : io.Fine) (held : st.contains f) (anchored : st.tree.Le a f) :
    ∃ result, ChainState.disconnectToFork rules io (some f) n st = .ok result := by
  induction n generalizing st with
  | zero => exact ⟨_, rfl⟩
  | succ n ih =>
    obtain ⟨t, active, under⟩ := contains_iff.1 held
    simp only [ChainState.disconnectToFork, active]
    split
    · exact ⟨_, rfl⟩
    rename_i apart
    split
    · exact ⟨_, rfl⟩
    have ne : f ≠ t := fun h => apart (congrArg some h)
    have notAnchor : t ≠ a := by
      rintro rfl
      exact ne (under.antisymm anchored)
    obtain ⟨mid, disconnected⟩ := inv.disconnectTip_fine fine active notAnchor
    obtain ⟨_, moved⟩ := disconnectTip_moves disconnected
    have same := moved.active
    rw [active] at same
    cases same
    have heldNext : mid.contains f := by
      rcases le_iff_parent.1 under with h | ⟨p, edge, le⟩
      · exact absurd h ne
      · exact contains_iff.2 ⟨p, moved.tip.trans edge, moved.kept.tree ▸ le⟩
    obtain ⟨result, rest⟩ := ih (inv.disconnect moved notAnchor) heldNext
      (moved.kept.tree ▸ anchored)
    exact ⟨result, by simp only [disconnected, ok_bind, rest]⟩

theorem connectBlocks_fine (fine : io.Fine)
    (usable : ∀ x ∈ path, (st.data x).failed = false ∧ (st.data x).nChainTx ≠ 0)
    (climbs : st.tree.Climbs st.chainActive path) :
    ∃ result, ChainState.connectBlocks rules io old path st = .ok result := by
  induction path generalizing st r with
  | nil => exact ⟨_, rfl⟩
  | cons y _ ih =>
    obtain ⟨clean, linked⟩ := usable y mem_cons_self
    obtain ⟨verdict, judged⟩ := inv.connectTip_fine fine climbs.1 (inv.linked_body y linked)
    simp only [ChainState.connectBlocks, judged, ok_bind]
    cases verdict with
    | invalid mid => exact ⟨_, rfl⟩
    | connected mid =>
      obtain ⟨_, cut⟩ := inv.prune_fine clean linked judged
      simp only [cut, ok_bind]
      have moved := connectTip_connects judged cut
      obtain ⟨_, _, inv'⟩ := inv.connect moved clean linked
      split
      · exact ⟨_, rfl⟩
      refine ih inv' (fun x later => ?_) ?_
      · rw [(moved.data x).failed, (moved.data x).nChainTx]
        exact usable x (mem_cons_of_mem _ later)
      · rw [moved.kept.tree, moved.tip]
        exact climbs.2

theorem activateStep_fine (fine : io.Fine)
    (mem : m ∈ st.setBlockIndexCandidates) (anchored : st.tree.Le a m) (clean : st.Clean m) :
    ∃ result, st.activateBestChainStep rules io m = .ok result := by
  obtain ⟨f, fork, forkAbove⟩ := inv.fork_above anchored
  obtain ⟨forkBelow, forkHeld, _⟩ := findFork_eq_some fork
  obtain ⟨t, active, _⟩ := contains_iff.1 forkHeld
  obtain ⟨⟨_, _⟩, disconnected⟩ :=
    inv.disconnectToFork_fine (n := st.tree.height t + 1) fine forkHeld forkAbove
  simp only [ChainState.activateBestChainStep, fork, active, Option.elim_some, disconnected,
    ok_bind]
  have heldFork : ∀ f', some f = some f' → ∃ tip, st.chainActive = some tip ∧ st.tree.Le f' tip := by
    rintro _ ⟨⟩
    exact contains_iff.1 forkHeld
  obtain ⟨lowered, arrived, _⟩ := disconnectToFork_spec heldFork
    (by intro tip active'; rw [active] at active'; cases active'; omega) disconnected
  split
  · exact ⟨_, rfl⟩
  rename_i went
  refine (inv.disconnectToFork forkHeld forkAbove disconnected).connectBlocks_fine fine ?_ ?_
  · rw [lowered.data]
    exact inv.usable mem clean fork
  · rw [arrived (by simpa using went), lowered.tree]
    exact (climbs_down forkBelow).1

end

end Anchored

private theorem Linked.mostWorkLoop_fine (linked : Linked rules st)
    (bound : st.setBlockIndexCandidates.length ≤ n) :
    ∃ result, findMostWorkChainLoop n st = .ok result := by
  induction n generalizing st with
  | zero =>
    have empty : st.setBlockIndexCandidates = [] := eq_nil_of_length_eq_zero (by omega)
    unfold findMostWorkChainLoop
    rw [bestCandidate_eq_none.2 empty]
    exact ⟨_, rfl⟩
  | succ n ih =>
    unfold findMostWorkChainLoop
    cases best : st.bestCandidate with
    | none => exact ⟨_, rfl⟩
    | some m =>
      have mem := bestCandidate_mem best
      simp only
      cases walked : st.walk (st.tree.height m) m with
      | usable => exact ⟨_, rfl⟩
      | assertFailed =>
        refine absurd walked (walk_ne_assertFailed fun _ le => ?_)
        exact linked.linked_of_le le (linked.candidate_linked m mem)
      | unusable x =>
        refine ih (linked.of_kept (removeChain_kept st m x)) ?_
        have dropped := removeChain_dropped best walked
        have fewer : (st.removeChain m x).setBlockIndexCandidates.length <
            st.setBlockIndexCandidates.length := by
          obtain ⟨_, _, shape, _⟩ := removeChain_eq st m x
          rw [shape]
          refine length_filter_lt_length_iff_exists.2 ⟨m, mem, ?_⟩
          have gone := (dropped.candidates m).not.2
            fun h => h.2 ⟨dropped.below, ParentTree.Le.refl m⟩
          rw [shape] at gone
          simpa [mem] using gone
        omega

private theorem Tracked.turn_fine (tracked : Tracked rules low a base first start s) (fine : io.Fine)
    (turned : bestChainTurn rules io s = .leave result) : ∃ exit, result = .ok exit := by
  rcases bestChainTurn_chosen rules io s with ⟨st, _, chosen⟩ | ⟨_, aborted, _⟩
  · rw [bestChainTurn_of_chosen chosen] at turned
    obtain ⟨m, r, rfl, kept, _, inv, mem, top, clean⟩ := tracked.chosen chosen
    obtain ⟨⟨next, fInvalidFound⟩, ran⟩ :=
      inv.activateStep_fine fine mem (inv.top_above kept mem top) clean
    unfold bestChainStep at turned
    simp only [ran] at turned
    split at turned
    · cases turned
      exact ⟨_, rfl⟩
    by_cases arrived : next.chainActive = if fInvalidFound then none else some m
    · rw [if_pos arrived] at turned
      cases turned
      exact ⟨_, rfl⟩
    · rw [if_neg arrived] at turned
      cases turned
  obtain ⟨r, _, inv⟩ := tracked.ref
  obtain ⟨result, ran⟩ := inv.toLinked.mostWorkLoop_fine (le_refl _)
  rw [findMostWorkChain, ran] at aborted
  cases aborted

/-- **With no failing input or output, `ActivateBestChain` ends its loop without an error**, on a
valid tip above the anchor that does not sort before the reference. -/
theorem Anchored.bestChainLoop_fine (inv : Anchored rules low a base r st)
    (fine : io.Fine) :
    ∃ fuel exit r', st.activateBestChainLoop rules io fuel = some (.ok exit) ∧
      Arrived rules low a base r st r' exit.st := by
  obtain ⟨fuel, result, ran⟩ := bestChainLoop_ends rules io inv.full
  obtain ⟨exit, rfl⟩ := iterate.invariant (I := Tracked rules low a base r st)
      (Q := fun result => ∃ exit, result = .ok exit)
      (fun _ _ tracked turned => tracked.again turned)
      (fun _ _ tracked turned => tracked.turn_fine fine turned)
      ⟨.refl st, ⟨r, le_refl _, inv⟩, by simp⟩ ran
  obtain ⟨r', arrived⟩ := inv.activateBestChainLoop ran
  exact ⟨fuel, exit, r', ran, arrived⟩

end ChainState
end DogecoinCore
