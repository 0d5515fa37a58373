import DogecoinCore.ActivationSteps
import DogecoinCore.Node
import Mathlib.Order.Lattice.Nat

/-! When the loop of `ActivateBestChain` ends. A turn either finds an invalid block,
which leaves fewer unflagged ones, or reaches a tip with more work. The one turn
that does neither is the refused reorganisation off a snapshot tip without a body,
and it is made again for ever. -/
namespace DogecoinCore.ChainState
open List ParentTree Outcome Finset Option
variable {C : Type} {st st' : ChainState C}

/-- What disconnecting leaves alone: everything in memory but the tip and the coins. -/
structure Lowered (st st' : ChainState C) : Prop where
  tree : st'.tree = st.tree
  data : st'.data = st.data
  candidates : st'.setBlockIndexCandidates = st.setBlockIndexCandidates
  snapshotActive : st'.snapshotActive = st.snapshotActive

theorem Lowered.refl (st : ChainState C) : Lowered st st := ⟨rfl, rfl, rfl, rfl⟩

theorem Lowered.trans (first : Lowered st st') (second : Lowered st' st'') : Lowered st st'' :=
  ⟨second.tree.trans first.tree, second.data.trans first.data,
    second.candidates.trans first.candidates, second.snapshotActive.trans first.snapshotActive⟩

theorem disconnectTip_lowered (active : st.chainActive = some tip)
    (ran : st.disconnectTip rules io = .ok st') :
    Lowered st st' ∧ st'.chainActive = st.tree.parent tip := by
  obtain ⟨_, moved⟩ := disconnectTip_moves ran
  have same := moved.active
  rw [active] at same
  cases same
  exact ⟨⟨moved.kept.tree, moved.data, moved.candidates, moved.kept.snapshotActive⟩, moved.tip⟩

variable {path : List UInt256}
  {tree : HeaderTree} {start : ChainState C}

theorem disconnectToFork_spec
    (below : ∀ f, fork = some f → ∃ tip, st.chainActive = some tip ∧ st.tree.Le f tip)
    (bound : ∀ tip, st.chainActive = some tip → st.tree.height tip < n)
    (ran : disconnectToFork rules io fork n st = .ok (st', refused)) :
    Lowered st st' ∧ (refused = false → st'.chainActive = fork) ∧
      (refused → st.snapshotActive ∧ ∃ t, st'.chainActive = some t ∧ st.contains t ∧
        (st.data t).haveData = false ∧ fork ≠ some t ∧ ∀ f, fork = some f → st.tree.Le f t) := by
  induction n generalizing st with
  | zero =>
    cases active : st.chainActive with
    | some tip => exact absurd (bound tip active) (by omega)
    | none =>
      cases ran
      refine ⟨.refl _, fun _ => ?_, by simp⟩
      cases fork with
      | none => exact active
      | some f => simpa [active] using below f rfl
  | succ n ih =>
    cases active : st.chainActive with
    | none =>
      simp only [disconnectToFork, active] at ran
      cases ran
      refine ⟨.refl _, fun _ => ?_, by simp⟩
      cases fork with
      | none => exact active
      | some f => simpa [active] using below f rfl
    | some tip =>
      have fBelow : ∀ f, fork = some f → st.tree.Le f tip := by
        intro f same
        obtain ⟨_, active', le⟩ := below f same
        rw [active] at active'
        cases active'
        exact le
      simp only [disconnectToFork, active] at ran
      split at ran
      · rename_i same
        cases ran
        exact ⟨.refl _, fun _ => active.trans same.symm, by simp⟩
      rename_i apart
      split at ran
      · rename_i refusal
        simp only [Bool.and_eq_true, Bool.not_eq_true'] at refusal
        cases ran
        exact ⟨.refl _, by simp, fun _ => ⟨refusal.1, tip, active,
          contains_iff.2 ⟨tip, active, .refl tip⟩, refusal.2, apart, fBelow⟩⟩
      obtain ⟨mid, disconnected, rest⟩ := bind_eq_ok.1 ran
      obtain ⟨lowered, next⟩ := disconnectTip_lowered active disconnected
      have belowNext : ∀ f, fork = some f → ∃ p, mid.chainActive = some p ∧ mid.tree.Le f p := by
        intro f same
        have ne : f ≠ tip := fun h => apart (h ▸ same)
        rcases le_iff_parent.1 (fBelow f same) with h | ⟨p, edge, le⟩
        · exact absurd h ne
        · exact ⟨p, next.trans edge, lowered.tree ▸ le⟩
      have boundNext : ∀ p, mid.chainActive = some p → mid.tree.height p < n := by
        intro p active'
        rw [next] at active'
        have := st.tree.height_parent active'
        have := bound tip active
        rw [lowered.tree]
        omega
      obtain ⟨lower, arrived, stopped⟩ := ih belowNext boundNext rest
      refine ⟨lowered.trans lower, arrived, fun refusal => ?_⟩
      obtain ⟨snapshot, t, low, held, missing, apart', above⟩ := stopped refusal
      obtain ⟨p, active', le⟩ := contains_iff.1 held
      rw [next] at active'
      rw [lowered.tree] at le
      refine ⟨lowered.snapshotActive ▸ snapshot, t, low,
        contains_iff.2 ⟨tip, active, le.trans (le_of_parent active')⟩,
        lowered.data ▸ missing, apart', ?_⟩
      rw [← lowered.tree]
      exact above

private theorem connectBlocks_tip (ran : connectBlocks rules io old path st = .ok (st', fInvalidFound)) :
    st'.chainActive = st.chainActive ∨ ∃ x ∈ path, st'.chainActive = some x := by
  induction path generalizing st with
  | nil =>
    cases ran
    exact .inl rfl
  | cons y _ ih =>
    obtain ⟨verdict, judged, next⟩ := bind_eq_ok.1 ran
    cases verdict with
    | invalid mid =>
      cases next
      exact .inl (connectTip_rejected judged).tip
    | connected mid =>
      obtain ⟨_, cut, next⟩ := bind_eq_ok.1 next
      have moved := connectTip_connects judged cut
      split at next
      · cases next
        exact .inr ⟨y, mem_cons_self, moved.tip⟩
      rcases ih next with same | ⟨x, mem, active⟩
      · exact .inr ⟨y, mem_cons_self, same.trans moved.tip⟩
      · exact .inr ⟨x, mem_cons_of_mem _ mem, active⟩

private theorem connectBlocks_invalid (ran : connectBlocks rules io old path st = .ok (st', true)) :
    ∃ x ∈ path, (st'.data x).failedValid := by
  induction path generalizing st with
  | nil => cases ran
  | cons y _ ih =>
    obtain ⟨verdict, judged, next⟩ := bind_eq_ok.1 ran
    cases verdict with
    | invalid mid =>
      cases next
      exact ⟨y, mem_cons_self, by simp [(connectTip_rejected judged).data]⟩
    | connected mid =>
      obtain ⟨_, _, next⟩ := bind_eq_ok.1 next
      split at next
      · cases next
      · obtain ⟨x, mem, flagged⟩ := ih next
        exact ⟨x, mem_cons_of_mem _ mem, flagged⟩

private theorem connectBlocks_valid (ran : connectBlocks rules io old path st = .ok (st', false)) :
    (∀ b, (st'.data b).failed = (st.data b).failed) ∧
      (∀ c ∈ st.setBlockIndexCandidates, (∀ y ∈ path, st.sortKey y ≤ st.sortKey c) →
        c ∈ st'.setBlockIndexCandidates) ∧
      ((path = [] ∧ st' = st) ∨ ∃ x ∈ path, st'.chainActive = some x ∧ (path.getLast? = some x ∨
          old.all fun o => st.tree.nChainWork o < st.tree.nChainWork x)) := by
  induction path generalizing st with
  | nil =>
    cases ran
    simp
  | cons y _ ih =>
    obtain ⟨verdict, judged, next⟩ := bind_eq_ok.1 ran
    cases verdict with
    | invalid mid => cases next
    | connected mid =>
      obtain ⟨_, cut, next⟩ := bind_eq_ok.1 next
      have moved := connectTip_connects judged cut
      split at next
      · rename_i better
        cases next
        refine ⟨fun b => (moved.data b).failed, fun c mem top => ?_, .inr ?_⟩
        · exact (moved.candidates c).2 ⟨mem, top y mem_cons_self⟩
        · rw [moved.kept.tree] at better
          exact ⟨y, mem_cons_self, moved.tip, .inr better⟩
      obtain ⟨flags, stays, stopped⟩ := ih next
      refine ⟨fun b => (flags b).trans (moved.data b).failed, fun c mem top => ?_, .inr ?_⟩
      · refine stays c ((moved.candidates c).2 ⟨mem, top y mem_cons_self⟩) ?_
        intro z later
        rw [moved.kept.sortKey]
        exact top z (mem_cons_of_mem _ later)
      rcases stopped with ⟨rfl, rfl⟩ | ⟨x, mem, active, ending⟩
      · exact ⟨y, mem_cons_self, moved.tip, .inl rfl⟩
      rw [moved.kept.tree] at ending
      refine ⟨x, mem_cons_of_mem _ mem, active, ending.imp_left ?_⟩
      intro last
      rw [getLast?_cons, last]
      rfl

/-- Every block of `m`'s chain off the active chain is unflagged and has its body. -/
def Clean (st : ChainState C) (m : UInt256) : Prop :=
  ∀ x, st.tree.Le x m → ¬ st.contains x → (st.data x).failed = false ∧ (st.data x).haveData

theorem mostWorkLoop_found (ran : findMostWorkChainLoop n st = .ok (st', some m)) :
    st'.bestCandidate = some m ∧ Clean st' m := by
  obtain ⟨-, best, walked⟩ := mostWorkLoop_ok (P := fun _ => True)
    (fun _ _ _ _ _ _ => trivial) trivial ran
  exact ⟨best, fun _ le off => walk_usable (le_refl _) (walked m rfl) le off⟩

theorem mem_toConnect (below : ∀ f, fork = some f → tree.Le f m) :
    x ∈ toConnect tree fork m ↔ tree.Le x m ∧ ∀ f, fork = some f → tree.Le f x ∧ x ≠ f := by
  cases fork with
  | none =>
    simp only [toConnect, mem_reverse, mem_down]
    refine ⟨fun h => ⟨h.1, by simp⟩, fun h => ⟨h.1, by omega⟩⟩
  | some f =>
    simp only [toConnect, mem_reverse, mem_down_above (below f rfl)]
    constructor
    · rintro ⟨low, le, ne⟩
      refine ⟨le, ?_⟩
      rintro _ ⟨⟩
      exact ⟨low, ne⟩
    · rintro ⟨le, above⟩
      exact ⟨(above f rfl).1, le, (above f rfl).2⟩

theorem toConnect_getLast (last : (toConnect tree fork m).getLast? = some x) : x = m := by
  simp only [toConnect, getLast?_reverse] at last
  exact head_down last

theorem toConnect_eq_nil
    (below : ∀ f, fork = some f → tree.Le f m) (empty : toConnect tree fork m = []) :
    fork = some m := by
  by_contra apart
  have mem : m ∈ toConnect tree fork m := by
    refine (mem_toConnect below).2 ⟨.refl m, fun f same => ⟨below f same, ?_⟩⟩
    rintro rfl
    exact apart same
  simp [empty] at mem

theorem le_of_findFork (fork : st.findFork m = some f) (le : st.tree.Le x m)
    (held : st.contains x) : st.tree.Le x f :=
  le_of_nearest fork le held

theorem not_contains_of_findFork (fork : st.findFork m = none) (le : st.tree.Le x m) :
    ¬ st.contains x :=
  nearest_eq_none (le_refl _) fork le

/-- A reorganisation towards `m` is refused: a snapshot is active, and its tip has no body and is
not on the chain of `m`. -/
def Barred (st : ChainState C) (m : UInt256) : Prop :=
  st.snapshotActive ∧ ∃ tip, st.chainActive = some tip ∧ (st.data tip).haveData = false ∧
    ¬ st.tree.Le tip m

/-- Every active block has its body, so that no reorganisation is refused. -/
def Full (st : ChainState C) : Prop := ∀ x, st.contains x → (st.data x).haveData

/-- A step towards `m` that is not refused: back to the fork, then up the blocks of `m`'s chain
that are off the active one. -/
structure Forked (rules : Consensus C) (io : ChainIo) (m : UInt256) (fInvalidFound : Bool)
    (st st' forked : ChainState C) : Prop where
  lowered : Lowered st forked
  arrived : forked.chainActive = st.findFork m
  connected : connectBlocks rules io st.chainActive (toConnect st.tree (st.findFork m) m) forked =
    .ok (st', fInvalidFound)
  off : ∀ x ∈ toConnect st.tree (st.findFork m) m, st.tree.Le x m ∧ ¬ st.contains x

private theorem activateStep_cases (ran : st.activateBestChainStep rules io m = .ok (st', fInvalidFound)) :
    (∃ forked, Forked rules io m fInvalidFound st st' forked) ∨
      fInvalidFound = false ∧ st'.Barred m ∧ ¬ st.Full := by
  obtain ⟨⟨forked, refused⟩, disconnected, next⟩ := bind_eq_ok.1 ran
  have forkBelow : ∀ f, st.findFork m = some f → st.tree.Le f m :=
    fun f fork => (findFork_eq_some fork).1
  have forkHeld : ∀ f, st.findFork m = some f →
      ∃ tip, st.chainActive = some tip ∧ st.tree.Le f tip :=
    fun f fork => contains_iff.1 (findFork_eq_some fork).2.1
  obtain ⟨lowered, arrived, stopped⟩ := disconnectToFork_spec forkHeld
    (by intro tip active; simp [active]) disconnected
  cases refused with
  | true =>
    cases next
    obtain ⟨snapshot, t, low, held, missing, apart, above⟩ := stopped rfl
    -- The tip it stops at is above the fork, so it is not on the chain of `m`.
    have away : ¬ st.tree.Le t m := by
      intro le
      cases fork : st.findFork m with
      | none => exact not_contains_of_findFork fork le held
      | some f =>
        have same := (le_of_findFork fork le held).antisymm (above f fork)
        exact apart (same ▸ fork)
    refine .inr ⟨rfl, ⟨lowered.snapshotActive ▸ snapshot, t, low, lowered.data ▸ missing, ?_⟩,
      fun full => Bool.false_ne_true (missing.symm.trans (full t held))⟩
    rw [lowered.tree]
    exact away
  | false =>
    refine .inl ⟨forked, lowered, arrived rfl, next, fun x mem => ?_⟩
    obtain ⟨le, above⟩ := (mem_toConnect forkBelow).1 mem
    refine ⟨le, fun held => ?_⟩
    cases fork : st.findFork m with
    | none => exact not_contains_of_findFork fork le held
    | some f =>
      obtain ⟨low, ne⟩ := above f fork
      exact ne ((le_of_findFork fork le held).antisymm low)

theorem Full.forked (full : st.Full)
    (ran : st.activateBestChainStep rules io m = .ok (st', fInvalidFound)) :
    ∃ forked, Forked rules io m fInvalidFound st st' forked :=
  (activateStep_cases ran).resolve_right fun refused => refused.2.2 full

namespace Forked
variable {forked : ChainState C} {m : UInt256}

theorem contains (step : Forked rules io m fInvalidFound st st' forked) (tree : st'.tree = st.tree)
    (held : st'.contains x) : st.contains x ∨ st.tree.Le x m := by
  obtain ⟨tip, active, le⟩ := contains_iff.1 held
  rw [tree] at le
  rcases connectBlocks_tip step.connected with same | ⟨_, mem, active'⟩
  · rw [active, step.arrived] at same
    exact .inr (le.trans (findFork_eq_some same.symm).1)
  rw [active] at active'
  cases active'
  exact .inr (le.trans (step.off tip mem).1)

theorem invalid (step : Forked rules io m true st st' forked) (clean : st.Clean m) :
    ∃ x, st.tree.Le x m ∧ (st.data x).failed = false ∧ (st'.data x).failedValid := by
  obtain ⟨x, mem, flagged⟩ := connectBlocks_invalid step.connected
  obtain ⟨le, away⟩ := step.off x mem
  exact ⟨x, le, (clean x le away).1, flagged⟩

theorem valid (step : Forked rules io m false st st' forked) :
    (∀ b, (st'.data b).failed = (st.data b).failed) ∧
      (m ∈ st.setBlockIndexCandidates → m ∈ st'.setBlockIndexCandidates) ∧
      ∃ x, st'.chainActive = some x ∧ st.tree.Le x m ∧
        (x = m ∨ ∀ o, st.chainActive = some o → st.tree.nChainWork o < st.tree.nChainWork x) ∧
        ∀ y, st.tree.Le y m → st.contains y → st.tree.Le y x := by
  obtain ⟨lowered, arrived, connected, off⟩ := step
  have forkBelow : ∀ f, st.findFork m = some f → st.tree.Le f m :=
    fun f fork => (findFork_eq_some fork).1
  obtain ⟨flags, stays, stopped⟩ := connectBlocks_valid connected
  refine ⟨fun b => (flags b).trans (by rw [lowered.data]), fun mem => ?_, ?_⟩
  · refine stays m (lowered.candidates ▸ mem) fun y inPath => ?_
    exact forked.sortKey_le_of_le (lowered.tree ▸ (off y inPath).1)
  rcases stopped with ⟨empty, rfl⟩ | ⟨x, mem, active, ending⟩
  · have fork := toConnect_eq_nil forkBelow empty
    exact ⟨m, arrived.trans fork, .refl m, .inl rfl, fun y le _ => le⟩
  obtain ⟨le, above⟩ := (mem_toConnect forkBelow).1 mem
  refine ⟨x, active, le, ending.imp toConnect_getLast ?_, ?_⟩
  · intro more o old
    rw [lowered.tree, old] at more
    simpa using more
  intro y leY held
  cases fork : st.findFork m with
  | none => exact absurd held (not_contains_of_findFork fork leY)
  | some f => exact (le_of_findFork fork leY held).trans (above f fork).1

theorem clean (step : Forked rules io m false st st' forked) (kept : Kept st st')
    (clean : st.Clean m) : st'.Clean m := by
  obtain ⟨flags, _, x, active, _, _, covers⟩ := step.valid
  intro y le off
  rw [kept.tree] at le
  have offBefore : ¬ st.contains y := by
    intro held
    exact off (contains_iff.2 ⟨x, active, kept.tree ▸ covers y le held⟩)
  obtain ⟨good, body⟩ := clean y le offBefore
  exact ⟨(flags y).trans good, (kept.haveData y).trans body⟩

end Forked

theorem Chosen.kept (chosen : Chosen s st r) :
    Kept s.st st ∧ st.chainActive = s.st.chainActive := by
  cases chosen with
  | cached _ => exact ⟨.refl _, rfl⟩
  | found _ ran =>
    refine (mostWorkLoop_ok
      (P := fun st => Kept s.st st ∧ st.chainActive = s.st.chainActive) ?_ ⟨.refl _, rfl⟩ ran).1
    rintro st _ _ ⟨kept, tip⟩ best walked
    have dropped := removeChain_dropped best walked
    exact ⟨kept.trans dropped.kept, dropped.tip.trans tip⟩

def BestChainLoop.Stuck (s : BestChainLoop C) : Prop := ∃ st m, Chosen s st (some m) ∧ st.Barred m

structure LoopInv (start : ChainState C) (s : BestChainLoop C) : Prop where
  kept : Kept start s.st
  cached : ∀ m, s.pindexMostWork = some m → m ∈ s.st.setBlockIndexCandidates ∧ s.st.Clean m

theorem LoopInv.chosen (inv : LoopInv start s) (chosen : Chosen s st (some m)) :
    m ∈ st.setBlockIndexCandidates ∧ st.Clean m := by
  cases chosen with
  | cached held => exact inv.cached m held
  | found _ ran =>
    obtain ⟨best, clean⟩ := mostWorkLoop_found ran
    exact ⟨bestCandidate_mem best, clean⟩

def scope (start : ChainState C) : Finset UInt256 :=
  (start.tree.blocks ++ start.setBlockIndexCandidates).toFinset

theorem mem_scope (le : start.tree.Le x m)
    (mem : m ∈ start.setBlockIndexCandidates) : x ∈ start.scope := by
  simp only [scope, List.mem_toFinset, mem_append]
  by_cases same : x = m
  · exact .inr (same ▸ mem)
  · obtain ⟨_, edge, _⟩ := le.child_towards same
    exact .inl (start.tree.parent_mem edge).2

/-- How far the loop is from its end: unflagged blocks left, then work left to gain. -/
def measure (start : ChainState C) (s : BestChainLoop C) : ℕ × ℕ :=
  let most := start.scope.sup start.tree.nChainWork
  ((start.scope.filter fun b => (s.st.data b).failed = false).card,
    s.st.chainActive.elim (most + 1) fun tip => most - start.tree.nChainWork tip)

private theorem bestChainTurn_descends (inv : LoopInv start s)
    (turned : bestChainTurn rules io s = .again s') (free : ¬ s'.Stuck) :
    LoopInv start s' ∧ Prod.Lex (· < ·) (· < ·) (measure start s') (measure start s) := by
  rcases bestChainTurn_chosen rules io s with ⟨st, _, chosen⟩ | ⟨_, _, stuck⟩
  · rw [bestChainTurn_of_chosen chosen] at turned
    obtain ⟨m, fInvalidFound, rfl, _, ran, next, missed⟩ := bestChainStep_again turned
    obtain ⟨mem, clean⟩ := inv.chosen chosen
    have step := (activateStep_steps ran).kept
    have kept := inv.kept.trans chosen.kept.1
    have all := kept.trans step
    obtain ⟨forked, moved⟩ := (activateStep_cases ran).resolve_right fun ⟨valid, barred, _⟩ =>
      free ⟨s'.st, m, .cached (by rw [next, valid]; rfl), barred⟩
    have fewer : ∀ b, (s'.st.data b).failed = false → (s.st.data b).failed = false := by
      intro b good
      by_contra bad
      have := (chosen.kept.1.trans step).failed (b := b) (by simpa using bad)
      simp [good] at this
    have memberStart := kept.candidates m mem
    cases fInvalidFound with
    | true =>
      refine ⟨⟨all, by simp [next]⟩, .left _ _ ?_⟩
      obtain ⟨x, le, good, flagged⟩ := moved.invalid clean
      apply card_lt_card
      refine Finset.ssubset_iff_subset_ne.2 ⟨?_, fun same => ?_⟩
      · intro b
        simp only [Finset.mem_filter]
        exact fun held => ⟨held.1, fewer b held.2⟩
      have before : (s.st.data x).failed = false := by
        by_contra bad
        have := chosen.kept.1.failed (b := x) (by simpa using bad)
        simp [good] at this
      have inScope := mem_scope (kept.tree ▸ le) memberStart
      have : x ∈ start.scope.filter fun b => (s'.st.data b).failed = false := by
        rw [same]
        exact mem_filter.2 ⟨inScope, before⟩
      simp [BlockData.failed, flagged] at this
    | false =>
      obtain ⟨_, stays, x, active, le, ending, _⟩ := moved.valid
      have xInScope := mem_scope (kept.tree ▸ le) memberStart
      refine ⟨⟨all, ?_⟩, ?_⟩
      · intro _ same
        rw [next] at same
        cases same
        exact ⟨stays mem, moved.clean step clean⟩
      have subset : start.scope.filter (fun b => (s'.st.data b).failed = false) ⊆
          start.scope.filter fun b => (s.st.data b).failed = false := by
        intro b
        simp only [Finset.mem_filter]
        exact fun held => ⟨held.1, fewer b held.2⟩
      have bound := le_sup (f := start.tree.nChainWork) xInScope
      have ne : x ≠ m := by
        rintro rfl
        exact missed (active.trans next.symm)
      have more := ending.resolve_left ne
      have descends : (measure start s').2 < (measure start s).2 := by
        simp only [measure, active, elim_some]
        rw [← chosen.kept.2]
        cases old : st.chainActive with
        | none =>
          simp only [elim_none]
          omega
        | some o =>
          have := more o old
          rw [kept.tree] at this
          simp only [elim_some]
          omega
      rcases (card_le_card subset).lt_or_eq with less | same
      · exact .left _ _ less
      · exact Prod.lex_def.2 (.inr ⟨same, descends⟩)
  · simp [stuck] at turned

/-- The loop of `ActivateBestChain` comes to a turn. -/
def LoopReaches (rules : Consensus C) (io : ChainIo) (st : ChainState C) :
    BestChainLoop C → Prop :=
  Relation.ReflTransGen (fun s s' => bestChainTurn rules io s = .again s') ⟨st, none⟩

theorem BestChainLoop.Stuck.diverges {s : BestChainLoop C} (stuck : s.Stuck) (fuel : ℕ) :
    iterate (bestChainTurn rules io) fuel s = none := by
  refine iterate.diverges (I := BestChainLoop.Stuck) ?_ stuck fuel
  rintro s ⟨st, m, chosen, snapshot, tip, active, missing, off⟩
  have apart : tip ≠ m := by
    rintro rfl
    exact off (.refl tip)
  have forkApart : st.findFork m ≠ some tip := fun fork => off (findFork_eq_some fork).1
  have refused : st.activateBestChainStep rules io m = .ok (st, false) := by
    simp [activateBestChainStep, disconnectToFork, active, forkApart, snapshot, missing]
  refine ⟨⟨st, some m⟩, ?_, st, m, .cached rfl, snapshot, tip, active, missing, off⟩
  rw [bestChainTurn_of_chosen chosen]
  simp [bestChainStep, active, apart, refused]

theorem bestChainLoop_diverges (rules : Consensus C) (io : ChainIo) (snapshot : st.snapshotActive)
    (active : st.chainActive = some tip) (missing : (st.data tip).haveData = false)
    (best : st.bestCandidate = some m) (usable : st.walk (st.tree.height m) m = .usable)
    (off : ¬ st.tree.Le tip m) (fuel : ℕ) : st.activateBestChainLoop rules io fuel = none := by
  have found : st.findMostWorkChain = .ok (st, some m) := by
    unfold findMostWorkChain findMostWorkChainLoop
    simp [best, usable]
  exact BestChainLoop.Stuck.diverges
    ⟨st, m, .found rfl found, snapshot, tip, active, missing, off⟩ fuel

theorem bestChainLoop_ends_iff (rules : Consensus C) (io : ChainIo) (st : ChainState C) :
    (∃ fuel r, st.activateBestChainLoop rules io fuel = some r) ↔
      ∀ s, LoopReaches rules io st s → ¬ s.Stuck := by
  constructor
  · rintro ⟨fuel, r, ran⟩ s reached stuck
    obtain ⟨_, later⟩ := iterate.of_reaches reached ran
    rw [stuck.diverges] at later
    cases later
  intro free
  refine iterate.terminates
    (I := fun s => LoopInv st s ∧ LoopReaches rules io st s)
    (InvImage.wf (measure st) (WellFounded.prod_lex wellFounded_lt wellFounded_lt))
    (fun s s' ⟨inv, reached⟩ turned => ?_) ⟨⟨.refl st, by simp⟩, .refl⟩
  have next := reached.tail turned
  obtain ⟨inv', less⟩ := bestChainTurn_descends inv turned (free s' next)
  exact ⟨⟨inv', next⟩, less⟩

theorem Full.not_stuck {s : BestChainLoop C} (full : s.st.Full) : ¬ s.Stuck := by
  rintro ⟨st, m, chosen, -, tip, active, missing, -⟩
  have body := full tip (contains_iff.2 ⟨tip, chosen.kept.2 ▸ active, .refl tip⟩)
  rw [← chosen.kept.1.haveData, missing] at body
  cases body

theorem bestChainLoop_ends (rules : Consensus C) (io : ChainIo) (full : st.Full) :
    ∃ fuel r, st.activateBestChainLoop rules io fuel = some r := by
  refine (bestChainLoop_ends_iff rules io st).2 fun s reached => ?_
  suffices held : LoopInv st s ∧ s.st.Full from held.2.not_stuck
  induction reached with
  | refl => exact ⟨⟨.refl st, by simp⟩, full⟩
  | @tail s s' _ turned ih =>
    obtain ⟨inv, full⟩ := ih
    have full' : s'.st.Full := by
      rcases bestChainTurn_chosen rules io s with ⟨mid, _, chosen⟩ | ⟨_, _, stuck⟩
      · have turned := (bestChainTurn_of_chosen chosen).symm.trans turned
        obtain ⟨m, _, rfl, -, ran, -, -⟩ := bestChainStep_again turned
        have step := (activateStep_steps ran).kept
        have before : mid.Full := fun x held => by
          obtain ⟨t, active, le⟩ := contains_iff.1 held
          rw [chosen.kept.1.haveData]
          exact full x (contains_iff.2 ⟨t, chosen.kept.2 ▸ active, chosen.kept.1.tree ▸ le⟩)
        obtain ⟨_, moved⟩ := before.forked ran
        intro x held
        rw [step.haveData]
        by_contra missing
        have off : ¬ mid.contains x := fun was => missing (before x was)
        rcases moved.contains step.tree held with was | le
        · exact off was
        · exact missing ((inv.chosen chosen).2 x le off).2
      · simp [stuck] at turned
    exact ⟨(bestChainTurn_descends inv turned full'.not_stuck).1, full'⟩

end DogecoinCore.ChainState

namespace DogecoinCore.NodeState
variable {C : Type}

/-- Two headers arrive, a snapshot at the second is activated over the genesis tip, and the
genesis block is still the only candidate. -/
def snapshotOnHeaders : List (Event Unit) :=
  [.header (.child 2 1), .header (.child 3 2), .loadSnapshot {} (.of 3), .activateSnapshot {}]

end DogecoinCore.NodeState
