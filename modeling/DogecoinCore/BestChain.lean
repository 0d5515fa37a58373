import DogecoinCore.ActivationTermination

/-! Which chain `ActivateBestChain` ends on. The loop is followed from an anchor
block whose coins are known: the active chain stays above the anchor, and a
reference block, valid and among the candidates, never gets worse. When the loop
is left the reference is the tip. -/
namespace DogecoinCore
open ParentTree Outcome ChainState

/-- The coins after connecting the blocks above `a`, from coins `base` at `a`, up to a block. -/
inductive Connects {C : Type} (rules : Consensus C) (tree : HeaderTree) (a : UInt256) (base : C) :
    UInt256 → C → Prop
  | anchor : Connects rules tree a base a base
  | block {b p : UInt256} {before after : C} : tree.parent b = some p →
      Connects rules tree a base p before → rules.connect before b = some after →
      Connects rules tree a base b after

namespace Connects
variable {C : Type} {rules : Consensus C} {tree : HeaderTree} {a b x : UInt256} {base c c' : C}

theorem le (connects : Connects rules tree a base b c) : tree.Le a b := by
  induction connects with
  | anchor => exact .refl a
  | block edge _ _ ih => exact ih.trans (le_of_parent edge)

theorem before (connects : Connects rules tree a base b c) (ne : b ≠ a) :
    ∃ p d, tree.parent b = some p ∧ Connects rules tree a base p d ∧ rules.connect d b = some c := by
  cases connects with
  | anchor => exact absurd rfl ne
  | block edge below connected => exact ⟨_, _, edge, below, connected⟩

theorem unique (first : Connects rules tree a base b c) (second : Connects rules tree a base b c') :
    c = c' := by
  induction first generalizing c' with
  | anchor =>
    cases second with
    | anchor => rfl
    | block edge below _ => exact absurd below.le (not_le_parent edge)
  | @block b p before after edge below connected ih =>
    have ne : b ≠ a := by
      rintro rfl
      exact not_le_parent edge below.le
    obtain ⟨p, _, edge', below', connected'⟩ := second.before ne
    rw [edge] at edge'
    cases edge'
    rw [ih below', connected'] at connected
    exact (Option.some.inj connected).symm

theorem of_le (connects : Connects rules tree a base b c) (low : tree.Le a x) (le : tree.Le x b) :
    ∃ d, Connects rules tree a base x d := by
  induction connects with
  | anchor =>
    rw [le.antisymm low]
    exact ⟨base, .anchor⟩
  | @block b p before after edge below connected ih =>
    by_cases same : x = b
    · rw [same]
      exact ⟨_, .block edge below connected⟩
    · exact ih (le.parent edge same)

theorem undo (connects : Connects rules tree a base b c) (ne : b ≠ a)
    (undone : rules.disconnect c b = some c') :
    ∃ p, tree.parent b = some p ∧ Connects rules tree a base p c' := by
  obtain ⟨p, _, edge, below, connected⟩ := connects.before ne
  have same := rules.disconnect_iff.2 connected
  rw [undone] at same
  cases same
  exact ⟨p, edge, below⟩

end Connects

namespace ChainState
variable {C : Type} {rules : Consensus C} {low : UInt256 → Prop} {base : C}
  {a b m r t x : UInt256} {st st' : ChainState C}

/-- How bodies are linked: a block counts transactions only on top of a parent that does, and then
its body is there. Every candidate counts them. -/
structure Linked (rules : Consensus C) (st : ChainState C) : Prop where
  root : st.tree.parent rules.hashGenesisBlock = none
  linked_body : ∀ b, (st.data b).nChainTx ≠ 0 → (st.data b).haveData
  linked_parent : ∀ b p, st.tree.parent b = some p → (st.data b).nChainTx ≠ 0 →
    (st.data p).nChainTx ≠ 0
  candidate_linked : ∀ b ∈ st.setBlockIndexCandidates, (st.data b).nChainTx ≠ 0

theorem Linked.of_kept (linked : Linked rules st) (kept : Kept st st') : Linked rules st' where
  root := kept.tree ▸ linked.root
  linked_body b counted := by
    rw [kept.nChainTx] at counted
    rw [kept.haveData]
    exact linked.linked_body b counted
  linked_parent b p edge counted := by
    rw [kept.nChainTx] at counted ⊢
    exact linked.linked_parent b p (kept.tree ▸ edge) counted
  candidate_linked b candidate := by
    rw [kept.nChainTx]
    exact linked.candidate_linked b (kept.candidates b candidate)

theorem Linked.linked_of_le (linked : Linked rules st) (le : st.tree.Le x b)
    (counted : (st.data b).nChainTx ≠ 0) : (st.data x).nChainTx ≠ 0 := by
  induction b using st.tree.parent_induction with
  | step b ih =>
    rcases le_iff_parent.1 le with rfl | ⟨p, edge, below⟩
    · exact counted
    · exact ih p edge below (linked.linked_parent b p edge counted)

/-- The facts `ActivateBestChain` keeps about its anchor `a` and its reference block `r`. The
blocks that may sort before the reference are those of `low`. -/
structure Anchored (rules : Consensus C) (low : UInt256 → Prop) (a : UInt256) (base : C)
    (r : UInt256) (st : ChainState C) : Prop extends Linked rules st where
  tip : ∃ t, st.chainActive = some t ∧ Connects rules st.tree a base t st.pcoinsTip.view.coins
  best : st.pcoinsTip.view.hashBlock = st.chainActive
  active : ∀ x, st.contains x → st.tree.Le a x → x ≠ a →
    (st.data x).haveUndo ∧ (st.data x).failed = false ∧ (st.data x).nChainTx ≠ 0
  ref_mem : r ∈ st.setBlockIndexCandidates
  ref_clean : ∀ x, st.tree.Le a x → x ≠ a → st.tree.Le x r → (st.data x).failed = false
  ref_connects : ∃ c, Connects rules st.tree a base r c
  tip_le : ∀ t, st.chainActive = some t → st.sortKey t ≤ st.sortKey r
  above : ∀ x ∈ st.setBlockIndexCandidates, st.sortKey r ≤ st.sortKey x → st.tree.Le a x
  complete : ∀ x, st.tree.Le a x → (st.data x).nChainTx ≠ 0 → (st.data x).failed = false →
    st.sortKey r ≤ st.sortKey x → x ∈ st.setBlockIndexCandidates
  lower : ∀ x ∈ st.setBlockIndexCandidates, st.sortKey x < st.sortKey r → low x

namespace Anchored
section
variable (inv : Anchored rules low a base r st)
include inv

theorem ref_above : st.tree.Le a r := by
  obtain ⟨_, connects⟩ := inv.ref_connects
  exact connects.le

theorem contains_anchor : st.contains a := by
  obtain ⟨t, active, connects⟩ := inv.tip
  exact contains_iff.2 ⟨t, active, connects.le⟩

private theorem above_anchor (le : st.tree.Le x m)
    (anchored : st.tree.Le a m) (off : ¬ st.contains x) : st.tree.Le a x ∧ x ≠ a := by
  rcases le.comparable anchored with low | high
  · exact absurd (contains_of_le low inv.contains_anchor) off
  refine ⟨high, ?_⟩
  rintro rfl
  exact off inv.contains_anchor

theorem above_of_kept (kept : Kept st st') :
    ∀ y ∈ st'.setBlockIndexCandidates, st'.sortKey r ≤ st'.sortKey y → st'.tree.Le a y := by
  intro y candidate order
  rw [kept.sortKey] at order
  rw [kept.tree]
  exact inv.above y (kept.candidates y candidate) order

theorem lower_of_kept (kept : Kept st st') :
    ∀ y ∈ st'.setBlockIndexCandidates, st'.sortKey y < st'.sortKey r → low y := by
  intro y candidate order
  rw [kept.sortKey] at order
  exact inv.lower y (kept.candidates y candidate) order

theorem drop (dropped : Dropped st m x st') : Anchored rules low a base r st' := by
  have kept := dropped.kept
  have key := kept.sortKey
  have mem := bestCandidate_mem dropped.best
  have refLe := le_bestCandidate dropped.best inv.ref_mem
  have bad : (st.data x).failed := by
    rcases dropped.bad with failed | missing
    · exact failed
    · have linked := inv.linked_of_le dropped.below (inv.candidate_linked m mem)
      simp [inv.linked_body x linked] at missing
  obtain ⟨anchored, ne⟩ := inv.above_anchor dropped.below (inv.above m mem refLe) dropped.off
  have marked := dropped.data_failed bad
  -- The given-up part of the chain is above `x`, and `x` is neither under the reference nor active.
  have notRef : ∀ y, st.tree.Le y r → ¬ st.tree.Le x y := by
    intro y le above
    have := inv.ref_clean x anchored ne (above.trans le)
    simp [bad] at this
  have sameFlags : ∀ y, ¬ st.tree.Le x y → st'.data y = st.data y := by
    intro y off
    rw [marked y, if_neg (fun h => off h.1)]
  have held y := kept.contains_congr (x := y) dropped.tip
  refine
    { toLinked := inv.toLinked.of_kept kept
      tip := ?_
      best := by rw [dropped.view, dropped.tip, inv.best]
      active := fun y onChain le apart => ?_
      ref_mem := (dropped.candidates r).2 ⟨inv.ref_mem, fun h => notRef r (.refl r) h.1⟩
      ref_clean := fun y le apart under => ?_
      ref_connects := kept.tree ▸ inv.ref_connects
      tip_le := fun t active => ?_
      above := inv.above_of_kept kept
      complete := fun y le linked good order => ?_
      lower := inv.lower_of_kept kept }
  · rw [dropped.tip, dropped.view, kept.tree]
    exact inv.tip
  · rw [kept.tree] at le
    rw [held] at onChain
    have off : ¬ st.tree.Le x y := fun above => dropped.off (contains_of_le above onChain)
    rw [sameFlags y off]
    exact inv.active y onChain le apart
  · rw [kept.tree] at le under
    rw [sameFlags y (notRef y under)]
    exact inv.ref_clean y le apart under
  · rw [key]
    exact inv.tip_le t (dropped.tip ▸ active)
  rw [kept.tree] at le
  rw [kept.nChainTx] at linked
  rw [key] at order
  refine (dropped.candidates y).2 ⟨inv.complete y le linked (kept.sound good) order, ?_⟩
  rintro ⟨higher, under⟩
  by_cases same : y = x
  · have := kept.sound good
    simp [same, bad] at this
  · rw [marked y, if_pos ⟨higher, under, same⟩] at good
    simp [BlockData.failed] at good

theorem disconnect (moved : Disconnected rules st t st')
    (ne : t ≠ a) : Anchored rules low a base r st' := by
  have kept := moved.kept
  have key := kept.sortKey
  obtain ⟨t', active, connects⟩ := inv.tip
  rw [moved.active] at active
  cases active
  obtain ⟨p, edge, lower⟩ := connects.undo ne moved.coins
  have tip' := moved.tip.trans edge
  have held : ∀ y, st'.contains y → st.contains y := by
    intro y onChain
    obtain ⟨t', active', le⟩ := contains_iff.1 onChain
    rw [tip'] at active'
    cases active'
    rw [kept.tree] at le
    exact contains_iff.2 ⟨t, moved.active, le.trans (le_of_parent edge)⟩
  refine
    { toLinked := inv.toLinked.of_kept kept
      tip := ⟨p, tip', kept.tree ▸ lower⟩
      best := moved.best.trans moved.tip.symm
      active := fun y onChain le apart => ?_
      ref_mem := moved.candidates ▸ inv.ref_mem
      ref_clean := fun y le apart under => ?_
      ref_connects := kept.tree ▸ inv.ref_connects
      tip_le := fun t' active => ?_
      above := inv.above_of_kept kept
      complete := fun y le linked good order => ?_
      lower := inv.lower_of_kept kept }
  · rw [moved.data]
    exact inv.active y (held y onChain) (kept.tree ▸ le) apart
  · rw [moved.data]
    exact inv.ref_clean y (kept.tree ▸ le) apart (kept.tree ▸ under)
  · rw [tip'] at active
    cases active
    rw [key]
    exact (st.sortKey_le_of_le (le_of_parent edge)).trans (inv.tip_le t moved.active)
  rw [moved.candidates]
  rw [moved.data] at linked good
  exact inv.complete y (kept.tree ▸ le) linked good (key ▸ order)

private theorem reject (rejected : Rejected rules st b st') : Anchored rules low a base r st' := by
  have kept := rejected.kept
  have key := kept.sortKey
  obtain ⟨_, active, connects⟩ := inv.tip
  have edge := rejected.parent.trans active
  have aboveAnchor := connects.le.trans (le_of_parent edge)
  have notRef : ∀ y, st.tree.Le y r → y ≠ b := by
    rintro y under rfl
    obtain ⟨_, valid⟩ := inv.ref_connects
    obtain ⟨_, here⟩ := valid.of_le aboveAnchor under
    have ne : y ≠ a := by
      rintro rfl
      exact not_le_parent edge connects.le
    obtain ⟨_, _, edge', before, connected⟩ := here.before ne
    rw [edge] at edge'
    cases edge'
    rw [before.unique connects, rejected.verdict] at connected
    cases connected
  have sameData : ∀ y, y ≠ b → st'.data y = st.data y := fun y ne => by
    rw [rejected.data, if_neg ne]
  have held y := kept.contains_congr (x := y) rejected.tip
  have flagged : (st'.data b).failed := by
    rw [rejected.data, if_pos rfl]
    rfl
  refine
    { toLinked := inv.toLinked.of_kept kept
      tip := by rw [rejected.tip, rejected.view, kept.tree]; exact inv.tip
      best := by rw [rejected.view, rejected.tip, inv.best]
      active := fun y onChain le apart => ?_
      ref_mem := (rejected.candidates r).2 ⟨inv.ref_mem, notRef r (.refl r)⟩
      ref_clean := fun y le apart under => ?_
      ref_connects := kept.tree ▸ inv.ref_connects
      tip_le := fun t' active' => ?_
      above := inv.above_of_kept kept
      complete := fun y le linked good order => ?_
      lower := inv.lower_of_kept kept }
  · rw [held] at onChain
    have ne : y ≠ b := by
      rintro rfl
      obtain ⟨t', active', le'⟩ := contains_iff.1 onChain
      rw [active] at active'
      cases active'
      exact not_le_parent edge le'
    rw [sameData y ne]
    exact inv.active y onChain (kept.tree ▸ le) apart
  · rw [kept.tree] at le under
    rw [sameData y (notRef y under)]
    exact inv.ref_clean y le apart under
  · rw [key]
    exact inv.tip_le t' (rejected.tip ▸ active')
  have ne : y ≠ b := by
    rintro rfl
    simp [flagged] at good
  rw [sameData y ne] at linked good
  exact (rejected.candidates y).2 ⟨inv.complete y (kept.tree ▸ le) linked good (key ▸ order), ne⟩

theorem connect (moved : Connected rules st b st')
    (clean : (st.data b).failed = false) (linked : (st.data b).nChainTx ≠ 0) :
    ∃ r', st.sortKey r ≤ st.sortKey r' ∧ Anchored rules low a base r' st' := by
  have kept := moved.kept
  have key := kept.sortKey
  obtain ⟨t, active, connects⟩ := inv.tip
  have edge := moved.parent.trans active
  have aboveAnchor := connects.le.trans (le_of_parent edge)
  have notFirst : b ≠ rules.hashGenesisBlock := by
    rintro rfl
    rw [inv.root] at edge
    cases edge
  obtain ⟨undo, connected⟩ := (moved.coins.resolve_left fun h => notFirst h.1).2
  have valid : Connects rules st.tree a base b st'.pcoinsTip.view.coins :=
    .block edge connects connected
  have flags : ∀ y, (st'.data y).failed = (st.data y).failed := fun y => (moved.data y).failed
  have onChain : ∀ y, st'.contains y → y = b ∨ st.contains y := by
    intro y held
    obtain ⟨t', active', le⟩ := contains_iff.1 held
    rw [moved.tip] at active'
    cases active'
    rw [kept.tree] at le
    by_cases same : y = b
    · exact .inl same
    · exact .inr (contains_iff.2 ⟨t, active, le.parent edge same⟩)
  have activeAbove : ∀ y, st'.contains y → st'.tree.Le a y → y ≠ a →
      (st'.data y).haveUndo ∧ (st'.data y).failed = false ∧ (st'.data y).nChainTx ≠ 0 := by
    intro y held le apart
    rw [flags, kept.nChainTx]
    rcases onChain y held with rfl | was
    · exact ⟨undo, clean, linked⟩
    · obtain ⟨h, good, counted⟩ := inv.active y was (kept.tree ▸ le) apart
      exact ⟨kept.haveUndo y h, good, counted⟩
  -- Candidates that do not sort before the new tip are kept.
  have stays : ∀ y, st.sortKey r ≤ st.sortKey y → st.sortKey b ≤ st.sortKey y →
      st.tree.Le a y → (st.data y).nChainTx ≠ 0 → (st.data y).failed = false →
      y ∈ st'.setBlockIndexCandidates := fun y refLe tipLe le counted good =>
    (moved.candidates y).2 ⟨inv.complete y le counted good refLe, tipLe⟩
  rcases le_or_gt (st.sortKey b) (st.sortKey r) with behind | ahead
  · refine ⟨r, le_refl _,
      { toLinked := inv.toLinked.of_kept kept
        tip := ⟨b, moved.tip, kept.tree ▸ valid⟩
        best := moved.best.trans moved.tip.symm
        active := activeAbove
        ref_mem := (moved.candidates r).2 ⟨inv.ref_mem, behind⟩
        ref_clean := fun y le apart under => ?_
        ref_connects := kept.tree ▸ inv.ref_connects
        tip_le := fun t' active' => ?_
        above := inv.above_of_kept kept
        complete := fun y le counted good order => ?_
        lower := inv.lower_of_kept kept }⟩
    · rw [flags]
      exact inv.ref_clean y (kept.tree ▸ le) apart (kept.tree ▸ under)
    · rw [moved.tip] at active'
      cases active'
      rw [key]
      exact behind
    rw [flags] at good
    rw [kept.nChainTx] at counted
    rw [key] at order
    exact stays y order (behind.trans order) (kept.tree ▸ le) counted good
  refine ⟨b, ahead.le,
    { toLinked := inv.toLinked.of_kept kept
      tip := ⟨b, moved.tip, kept.tree ▸ valid⟩
      best := moved.best.trans moved.tip.symm
      active := activeAbove
      ref_mem := stays b ahead.le (le_refl _) aboveAnchor linked clean
      ref_clean := fun y le apart under => ?_
      ref_connects := ⟨_, kept.tree ▸ valid⟩
      tip_le := fun t' active' => ?_
      above := fun y candidate order => ?_
      complete := fun y le counted good order => ?_
      lower := fun y candidate order => ?_ }⟩
  · have held := contains_iff.2 ⟨b, moved.tip, under⟩
    exact (activeAbove y held le apart).2.1
  · rw [moved.tip] at active'
    cases active'
    exact le_refl _
  · rw [kept.tree]
    rw [key] at order
    exact inv.above y (kept.candidates y candidate) (ahead.le.trans order)
  · rw [flags] at good
    rw [kept.nChainTx] at counted
    rw [key] at order
    exact stays y (ahead.le.trans order) order (kept.tree ▸ le) counted good
  · rw [key] at order
    exact absurd ((moved.candidates y).1 candidate).2 (not_le.2 order)

theorem fork_above (anchored : st.tree.Le a m) : ∃ f, st.findFork m = some f ∧ st.tree.Le a f := by
  cases fork : st.findFork m with
  | none => exact absurd inv.contains_anchor (not_contains_of_findFork fork anchored)
  | some f => exact ⟨f, rfl, le_of_findFork fork anchored inv.contains_anchor⟩

theorem disconnectToFork (held : st.contains f) (anchored : st.tree.Le a f)
    (ran : disconnectToFork rules io (some f) n st = .ok (st', refused)) :
    Anchored rules low a base r st' := by
  induction n generalizing st with
  | zero =>
    cases ran
    exact inv
  | succ n ih =>
    unfold disconnectToFork at ran
    split at ran
    · cases ran
      exact inv
    rename_i t active
    split at ran
    · cases ran
      exact inv
    rename_i apart
    split at ran
    · cases ran
      exact inv
    obtain ⟨_, disconnected, rest⟩ := bind_eq_ok.1 ran
    obtain ⟨t', moved⟩ := disconnectTip_moves disconnected
    have same := moved.active
    rw [active] at same
    cases same
    obtain ⟨t', active', under⟩ := contains_iff.1 held
    rw [active] at active'
    cases active'
    have ne : f ≠ t := fun h => apart (congrArg some h)
    have notAnchor : t ≠ a := by
      rintro rfl
      exact ne (under.antisymm anchored)
    refine ih (inv.disconnect moved notAnchor) ?_ (moved.kept.tree ▸ anchored) rest
    rcases le_iff_parent.1 under with h | ⟨p, edge, le⟩
    · exact absurd h ne
    · exact contains_iff.2 ⟨p, moved.tip.trans edge, moved.kept.tree ▸ le⟩

theorem connectBlocks (usable : ∀ x ∈ path, (st.data x).failed = false ∧ (st.data x).nChainTx ≠ 0)
    (ran : connectBlocks rules io old path st = .ok (st', fInvalidFound)) :
    ∃ r', st.sortKey r ≤ st.sortKey r' ∧ Anchored rules low a base r' st' := by
  induction path generalizing st r with
  | nil =>
    cases ran
    exact ⟨r, le_refl _, inv⟩
  | cons y rest ih =>
    obtain ⟨verdict, judged, next⟩ := bind_eq_ok.1 ran
    obtain ⟨clean, linked⟩ := usable y List.mem_cons_self
    cases verdict with
    | invalid mid =>
      cases next
      exact ⟨r, le_refl _, inv.reject (connectTip_rejected judged)⟩
    | connected mid =>
      obtain ⟨pruned, cut, next⟩ := bind_eq_ok.1 next
      have moved := connectTip_connects judged cut
      obtain ⟨r', better, inv'⟩ := inv.connect moved clean linked
      split at next
      · cases next
        exact ⟨r', better, inv'⟩
      have later : ∀ x ∈ rest, (pruned.data x).failed = false ∧ (pruned.data x).nChainTx ≠ 0 := by
        intro x inRest
        rw [(moved.data x).failed, (moved.data x).nChainTx]
        exact usable x (List.mem_cons_of_mem _ inRest)
      obtain ⟨r'', more, done⟩ := ih inv' later next
      rw [moved.kept.sortKey] at more
      exact ⟨r'', better.trans more, done⟩

theorem active_linked (held : st.contains x) : (st.data x).nChainTx ≠ 0 := by
  obtain ⟨_, active, connects⟩ := inv.tip
  obtain ⟨_, active', le⟩ := contains_iff.1 held
  rw [active] at active'
  cases active'
  have refLinked := inv.candidate_linked r inv.ref_mem
  rcases le.comparable connects.le with under | higher
  · exact inv.linked_of_le (under.trans inv.ref_above) refLinked
  by_cases same : x = a
  · exact same ▸ inv.linked_of_le inv.ref_above refLinked
  · exact (inv.active x held higher same).2.2

theorem full : st.Full := fun x held => inv.linked_body x (inv.active_linked held)

theorem top_above (kept : Kept start st) (mem : m ∈ st.setBlockIndexCandidates)
    (top : ∀ c ∈ st.setBlockIndexCandidates, start.sortKey c ≤ start.sortKey m) : st.tree.Le a m := by
  refine inv.above m mem ?_
  rw [kept.sortKey]
  exact top r inv.ref_mem

theorem usable (mem : m ∈ st.setBlockIndexCandidates) (clean : st.Clean m)
    (fork : st.findFork m = some f) (x) (inPath : x ∈ toConnect st.tree (some f) m) :
    (st.data x).failed = false ∧ (st.data x).nChainTx ≠ 0 := by
  obtain ⟨le, above⟩ := (mem_toConnect (by rintro _ ⟨⟩; exact (findFork_eq_some fork).1)).1 inPath
  obtain ⟨higher, ne⟩ := above f rfl
  have off : ¬ st.contains x := fun held => ne ((le_of_findFork fork le held).antisymm higher)
  exact ⟨(clean x le off).1, inv.linked_of_le le (inv.candidate_linked m mem)⟩

theorem activateBestChainStep
    (mem : m ∈ st.setBlockIndexCandidates) (anchored : st.tree.Le a m) (clean : st.Clean m)
    (ran : st.activateBestChainStep rules io m = .ok (st', fInvalidFound)) :
    ∃ r', st.sortKey r ≤ st.sortKey r' ∧ Anchored rules low a base r' st' := by
  obtain ⟨f, fork, forkAbove⟩ := inv.fork_above anchored
  have forkHeld := (findFork_eq_some fork).2.1
  obtain ⟨⟨forked, _⟩, disconnected, next⟩ := bind_eq_ok.1 ran
  rw [fork] at disconnected next
  have inv' := inv.disconnectToFork forkHeld forkAbove disconnected
  have heldFork : ∀ f', some f = some f' → ∃ tip, st.chainActive = some tip ∧ st.tree.Le f' tip := by
    rintro _ ⟨⟩
    exact contains_iff.1 forkHeld
  have lowered := (disconnectToFork_spec heldFork (by intro tip active; simp [active])
    disconnected).1
  simp only at next
  split at next
  · cases next
    exact ⟨r, le_refl _, inv'⟩
  have usable : ∀ x ∈ toConnect st.tree (some f) m,
      (forked.data x).failed = false ∧ (forked.data x).nChainTx ≠ 0 := by
    rw [lowered.data]
    exact inv.usable mem clean fork
  obtain ⟨r', better, done⟩ := inv'.connectBlocks usable next
  have key := (disconnectToFork_steps disconnected).kept.sortKey
  rw [key] at better
  exact ⟨r', better, done⟩

theorem findMostWorkChain
    (ran : st.findMostWorkChain = .ok (st', q)) : Anchored rules low a base r st' :=
  (mostWorkLoop_ok
    (fun _ _ _ inv best walked => inv.drop (removeChain_dropped best walked)) inv ran).1

end

end Anchored

theorem mostWorkLoop_none (ran : findMostWorkChainLoop n st = .ok (st', none)) :
    st'.setBlockIndexCandidates = [] :=
  bestCandidate_eq_none.1 (mostWorkLoop_ok (P := fun _ => True)
    (fun _ _ _ _ _ _ => trivial) trivial ran).2.1

/-- What the loop of `ActivateBestChain` keeps: a reference no worse than the first one, and a
cached chain that is the best candidate and clean. -/
structure Tracked (rules : Consensus C) (low : UInt256 → Prop) (a : UInt256) (base : C)
    (first : UInt256) (start : ChainState C) (s : BestChainLoop C) : Prop where
  kept : Kept start s.st
  ref : ∃ r, start.sortKey first ≤ start.sortKey r ∧ Anchored rules low a base r s.st
  cached : ∀ m, s.pindexMostWork = some m → m ∈ s.st.setBlockIndexCandidates ∧
    (∀ c ∈ s.st.setBlockIndexCandidates, start.sortKey c ≤ start.sortKey m) ∧ s.st.Clean m

/-- Where the loop ends: on a reference no worse than the first one, with no candidate better. -/
structure Arrived (rules : Consensus C) (low : UInt256 → Prop) (a : UInt256) (base : C)
    (first : UInt256) (start : ChainState C) (r : UInt256) (st : ChainState C) : Prop where
  better : start.sortKey first ≤ start.sortKey r
  anchored : Anchored rules low a base r st
  tip : st.chainActive = some r
  top : ∀ c ∈ st.setBlockIndexCandidates, st.sortKey c ≤ st.sortKey r

namespace Tracked
variable {first : UInt256} {start : ChainState C} {s s' : BestChainLoop C}

section
variable (tracked : Tracked rules low a base first start s)
include tracked

theorem chosen (chosen : Chosen s st q) :
    ∃ m r, q = some m ∧ Kept start st ∧ start.sortKey first ≤ start.sortKey r ∧
      Anchored rules low a base r st ∧ m ∈ st.setBlockIndexCandidates ∧
      (∀ c ∈ st.setBlockIndexCandidates, start.sortKey c ≤ start.sortKey m) ∧ st.Clean m := by
  obtain ⟨r, better, inv⟩ := tracked.ref
  cases chosen with
  | cached held =>
    obtain ⟨mem, top, clean⟩ := tracked.cached _ held
    exact ⟨_, r, rfl, tracked.kept, better, inv, mem, top, clean⟩
  | found none ran =>
    have kept := tracked.kept.trans (Chosen.found none ran).kept.1
    have inv' := inv.findMostWorkChain ran
    cases q with
    | none =>
      have := inv'.ref_mem
      rw [mostWorkLoop_none ran] at this
      cases this
    | some m =>
      obtain ⟨best, clean⟩ := mostWorkLoop_found ran
      refine ⟨m, r, rfl, kept, better, inv', bestCandidate_mem best, fun c mem => ?_, clean⟩
      rw [← kept.sortKey]
      exact le_bestCandidate best mem

theorem again
    (turned : bestChainTurn rules io s = .again s') : Tracked rules low a base first start s' := by
  rcases bestChainTurn_chosen rules io s with ⟨st, _, chosen⟩ | ⟨_, _, stuck⟩
  · rw [bestChainTurn_of_chosen chosen] at turned
    obtain ⟨m, r, rfl, kept, better, inv, mem, top, clean⟩ := tracked.chosen chosen
    obtain ⟨_, fInvalidFound, same, _, ran, next, _⟩ := bestChainStep_again turned
    cases same
    have anchored := inv.top_above kept mem top
    have step := (activateStep_steps ran).kept
    obtain ⟨r', more, inv'⟩ := inv.activateBestChainStep mem anchored clean ran
    rw [kept.sortKey] at more
    refine ⟨kept.trans step, ⟨r', better.trans more, inv'⟩, fun _ same => ?_⟩
    cases fInvalidFound with
    | true => simp [next] at same
    | false =>
      rw [next] at same
      cases same
      obtain ⟨_, moved⟩ := inv.full.forked ran
      exact ⟨moved.valid.2.1 mem, fun d later => top d (step.candidates d later),
        moved.clean step clean⟩
  · simp [stuck] at turned

theorem leave (turned : bestChainTurn rules io s = .leave (.ok exit)) :
    ∃ r, Arrived rules low a base first start r exit.st := by
  -- The tip is no better than the reference, and the best candidate no worse.
  have atTop : ∀ {st : ChainState C} {m r : UInt256}, Kept start st →
      start.sortKey first ≤ start.sortKey r → Anchored rules low a base r st →
      (∀ c ∈ st.setBlockIndexCandidates, start.sortKey c ≤ start.sortKey m) →
      st.chainActive = some m → Arrived rules low a base first start r st := by
    intro st m r kept better inv top active
    have under := inv.tip_le m active
    rw [kept.sortKey] at under
    have same := start.sortKey_injective (le_antisymm under (top r inv.ref_mem))
    subst same
    exact ⟨better, inv, active, by rw [kept.sortKey]; exact top⟩
  rcases bestChainTurn_chosen rules io s with ⟨st, _, chosen⟩ | ⟨_, _, stuck⟩
  · rw [bestChainTurn_of_chosen chosen] at turned
    obtain ⟨m, r, rfl, kept, better, inv, mem, top, clean⟩ := tracked.chosen chosen
    cases bestChainStep_leave turned with
    | atTip active => exact ⟨r, atTop kept better inv top active⟩
    | @reached _ fInvalidFound _ _ ran active =>
      have step := (activateStep_steps ran).kept
      obtain ⟨r', more, inv'⟩ :=
        inv.activateBestChainStep mem (inv.top_above kept mem top) clean ran
      rw [kept.sortKey] at more
      refine ⟨r', ?_⟩
      cases fInvalidFound with
      | true =>
        obtain ⟨_, held, _⟩ := inv'.tip
        simp [active] at held
      | false =>
        exact atTop (kept.trans step) (better.trans more) inv'
          (fun c later => top c (step.candidates c later)) active
  · simp [stuck] at turned

end

end Tracked

theorem Anchored.activateBestChainLoop (inv : Anchored rules low a base r st)
    (ran : st.activateBestChainLoop rules io fuel = some (.ok exit)) :
    ∃ r', Arrived rules low a base r st r' exit.st :=
  iterate.invariant (I := Tracked rules low a base r st)
    (Q := fun result => ∀ exit, result = .ok exit → ∃ r', Arrived rules low a base r st r' exit.st)
    (fun _ _ tracked turned => tracked.again turned)
    (by rintro s _ tracked turned exit rfl; exact tracked.leave turned)
    ⟨.refl st, ⟨r, le_refl _, inv⟩, by simp⟩ ran exit rfl

end ChainState
end DogecoinCore
