import DogecoinCore.NodeSteps

/-! An honest snapshot: its coins are those of the chain up to its base. Background
validation accepts it if the parked tip lies on that chain. It never disconnects a
block, so a parked tip on another branch makes the first step fail. -/
namespace DogecoinCore
variable {C : Type} {params : Params C} {io : SnapshotIo}

/-- The view holds the coins of a tip: those of its chain, from `first` at the genesis block. -/
def Replayed (rules : Consensus C) (tree : HeaderTree) (first : C) : Option UInt256 →
    CoinsView C → Prop
  | none, view => view = { hashBlock := none, coins := first }
  | some tip, view => view.hashBlock = some tip ∧
      Connects rules tree rules.hashGenesisBlock first tip view.coins

theorem Replayed.best (replayed : Replayed rules tree first tip view) : view.hashBlock = tip := by
  cases tip with
  | none => rw [replayed]
  | some _ => exact replayed.1

namespace NodeState
variable {first coins : C} {base next : UInt256} {st st' : NodeState C} {restarts : Bool}

/-- A loaded snapshot whose coins are those of the chain up to its base, on a node whose own coins
are those of its tip. -/
structure HonestSnapshot (params : Params C) (first coins : C) (base : UInt256)
    (st : NodeState C) : Prop where
  slot : ∃ cache info, st.background = .loaded cache (some base) info ∧ info.baseHash = base ∧
    info.coinsHash = params.hashSerialized { hashBlock := some base, coins := coins }
  root : st.chain.tree.parent params.hashGenesisBlock = none
  known : base ∈ st.chain.tree.blocks
  valid : Connects params.toConsensus st.chain.tree params.hashGenesisBlock first base coins
  synced : Replayed params.toConsensus st.chain.tree first st.chain.chainActive
    st.chain.pcoinsTip.view

/-- Background validation of an honest snapshot: while it goes on, the background tip is on the
chain of the base and the background coins are those of the tip. -/
structure Honest (params : Params C) (first coins : C) (base : UInt256) (st : NodeState C) :
    Prop where
  active : st.chain.snapshotActive
  root : st.chain.tree.parent params.hashGenesisBlock = none
  known : base ∈ st.chain.tree.blocks
  valid : Connects params.toConsensus st.chain.tree params.hashGenesisBlock first base coins
  baseHash : st.snapshotBaseHash = base
  expected : st.expectedCoinsHash = params.hashSerialized { hashBlock := some base, coins := coins }
  status : st.bgStatus ≠ .failed
  path : st.bgStatus ≠ .completed → ∃ tip, st.background = .parked tip ∧
    (∀ t, tip = some t → st.chain.tree.Le t base) ∧
    Replayed params.toConsensus st.chain.tree first tip st.parkedCoins.view

namespace Honest
section
variable (inv : Honest params first coins base st)
include inv

theorem persist (w : WriteOutcome) : Honest params first coins base (st.persist w) := by
  obtain ⟨_, shape, _⟩ := persist_eq st
  rw [shape]
  exact { inv with }

theorem moved {chain : ChainState C}
    (moved : st.chain.Moved chain) : Honest params first coins base { st with chain := chain } := by
  have genesis := HeaderTree.mem_of_le inv.valid.le inv.known
  refine { inv with
    active := moved.snapshotActive.trans inv.active
    root := (moved.tree.parent _ genesis).trans inv.root
    known := moved.tree.blocks base inv.known
    valid := moved.tree.connects inv.known inv.valid
    path := fun going => ?_ }
  obtain ⟨tip, parked, below, replayed⟩ := inv.path going
  refine ⟨tip, parked, fun t same => (moved.tree.le_iff inv.known).2 (below t same), ?_⟩
  cases tip with
  | none => exact replayed
  | some t =>
    have known := HeaderTree.mem_of_le (below t rfl) inv.known
    exact ⟨replayed.1, moved.tree.connects known replayed.2⟩

theorem parked (going : st.bgStatus ≠ .completed) :
    (∀ t, st.bgTip = some t → st.chain.tree.Le t base) ∧
      Replayed params.toConsensus st.chain.tree first st.bgTip st.parkedCoins.view := by
  obtain ⟨tip, parked, below, replayed⟩ := inv.path going
  have same : st.bgTip = tip := by rw [bgTip, parked]
  exact ⟨same ▸ below, same ▸ replayed⟩

theorem hash (going : st.bgStatus ≠ .completed) (atBase : st.bgTip = some base) :
    params.hashSerialized (st.parkedCoins.flush true).db = st.expectedCoinsHash := by
  obtain ⟨_, replayed⟩ := inv.parked going
  rw [atBase] at replayed
  have same : st.parkedCoins.view = { hashBlock := some base, coins := coins } := by
    rw [← replayed.1, inv.valid.unique replayed.2]
  rw [inv.expected, ← same]
  rfl

theorem complete (io : SnapshotIo) :
    Honest params first coins base (st.completeBackgroundValidation io) := by
  have marked : Honest params first coins base { st with
      bgStatus := .completed
      assumeutxoValidated := true
      assumeutxoFailed := false
      background := .idle } :=
    { inv with status := by simp, path := by simp }
  exact marked.persist _

theorem flushed :
    Honest params first coins base { st with parkedCoins := st.parkedCoins.flush true } :=
  { inv with path := inv.path }

theorem check (fine : io.Fine) (going : st.bgStatus ≠ .completed) (atBase : st.bgTip = some base) :
    Honest params first coins base (st.checkCoinsHash params io) := by
  have same := inv.hash going atBase
  simp only [checkCoinsHash, fine.flushView, fine.cursor, Bool.not_true, Bool.false_eq_true,
    ↓reduceIte, same, ne_eq, not_true_eq_false]
  exact inv.flushed.complete io

end

end Honest

private theorem Above.parent_eq (above : st.Above base next)
    (below : ∀ t, st.bgTip = some t → st.chain.tree.Le t base) :
    st.chain.tree.parent next = st.bgTip := by
  have height := above.height
  cases tip : st.bgTip with
  | none =>
    rw [tip] at height
    cases edge : st.chain.tree.parent next with
    | none => rfl
    | some p =>
      have := st.chain.tree.height_parent edge
      simp only [heightOf, Option.elim_none] at height
      omega
  | some t =>
    rw [tip] at height
    simp only [heightOf, Option.elim_some] at height
    cases edge : st.chain.tree.parent next with
    | none =>
      have := st.chain.tree.height_root edge
      omega
    | some p =>
      have step := st.chain.tree.height_parent edge
      have low := (ParentTree.le_of_parent edge).trans above.le
      rw [low.eq_of_height (below t tip) (by omega)]

namespace Honest
section
variable (inv : Honest params first coins base st)
include inv

theorem connectable (going : st.bgStatus ≠ .completed)
    (above : st.Above base next) (other : next ≠ params.hashGenesisBlock) :
    ∃ t after, st.chain.tree.parent next = some t ∧
      Connects params.toConsensus st.chain.tree params.hashGenesisBlock first t
        st.parkedCoins.view.coins ∧ params.connect st.parkedCoins.view.coins next = some after := by
  obtain ⟨below, replayed⟩ := inv.parked going
  have parent := above.parent_eq below
  have height := st.chain.tree.height_root inv.root
  have low := inv.valid.le.le_of_height above.le (by omega)
  obtain ⟨after, connects⟩ := inv.valid.of_le low above.le
  obtain ⟨t, before, edge, lower, connected⟩ := connects.before other
  rw [← parent, edge] at replayed
  rw [lower.unique replayed.2] at connected
  exact ⟨t, after, edge, replayed.2, connected⟩

theorem joined {chain : ChainState C}
    (going : st.bgStatus ≠ .completed) (joins : Joins params st base next chain after) :
    Honest params first coins base (st.joined next chain after) := by
  have onward := inv.moved joins.moved
  have known := HeaderTree.mem_of_le joins.le inv.known
  refine { onward with status := by simp [NodeState.joined, advance], path := fun _ => ?_ }
  refine ⟨some next, rfl, ?_, rfl, joins.moved.tree.connects known ?_⟩
  · rintro t ⟨⟩
    exact (joins.moved.tree.le_iff inv.known).2 joins.le
  cases joins.accepted with
  | genesis first' =>
    obtain ⟨_, replayed⟩ := inv.parked going
    rw [← joins.parent, first', inv.root] at replayed
    rw [first', replayed]
    exact .anchor
  | block other connected =>
    obtain ⟨t, _, edge, lower, _⟩ := inv.connectable going joins.toAbove other
    exact .block edge lower connected

/-- **A call of background validation does not fail on an honest snapshot.** -/
theorem background {n : ℕ} (fine : io.Fine) :
    Honest params first coins base (st.stepBackgroundValidation params io n).1 := by
  have going : ∀ st : NodeState C, st.bgStatus = .running ∨ st.bgStatus = .waitingBlocks →
      st.bgStatus ≠ .completed := by
    rintro st (status | status) <;> simp [status]
  refine stepBackground_rule
    (I := fun _ s => Honest params first coins base s.1 ∧ s.1.bgStatus ≠ .completed)
    (Q := fun r => Honest params first coins base r.1) (fun _ => inv) ?_ ?_ ?_ ?_ ?_
  · rintro _ status (idle | unknown)
    · obtain ⟨tip, parked, _⟩ := inv.path (going st status)
      rw [idle] at parked
      cases parked
    · exact absurd (inv.baseHash ▸ inv.known) unknown
  · exact fun _ status _ _ => ⟨inv, going st status⟩
  · rintro _ ⟨s, connected⟩ _ ⟨held, going⟩ turned
    rw [inv.baseHash] at turned
    cases turned with
    | connected joins _ => exact ⟨held.joined going joins, by simp [NodeState.joined, advance]⟩
    | flushed joins _ _ =>
      exact ⟨(held.joined going joins).flushed.persist _, by simp [NodeState.joined, advance]⟩
  · rintro _ ⟨s, connected⟩ r ⟨held, going⟩ turned
    obtain ⟨below, replayed⟩ := held.parked going
    have seen : Honest params first coins base s.seen := { held with }
    rw [inv.baseHash] at turned
    cases turned with
    | offBase reached apart =>
      cases tip : s.bgTip with
      | none =>
        simp only [heightOf, tip, Option.elim_none] at reached
        omega
      | some t =>
        rw [tip] at reached
        have lower := below t tip
        have same := lower.eq_of_height (.refl base)
          (le_antisymm lower.height_le (by simpa [heightOf] using reached))
        exact absurd (by rw [tip, same, held.baseHash]) apart
    | atBase _ atBase => exact seen.check fine going (held.baseHash ▸ atBase)
    | forked above apart => exact absurd (above.parent_eq below) apart
    | waits _ _ _ =>
      have marked : Honest params first coins base { s.seen with bgStatus := .waitingBlocks } :=
        { seen with status := by simp, path := fun _ => seen.path going }
      exact marked.persist _
    | unread above missing => simp [fine.chain.readBlock] at missing
    | misplaced above apart => exact absurd replayed.best apart
    | undoFailed _ above missing => simp [fine.chain.writeUndo] at missing
    | rejected _ above other _ verdict =>
      obtain ⟨_, _, _, _, connected⟩ := held.connectable going above other
      rw [verdict] at connected
      cases connected
    | flushFailed _ missing => simp [fine.flushView] at missing
  · rintro _ ⟨s, connected⟩ ⟨held, going⟩
    unfold stepFinish
    split
    · rename_i reached
      exact held.check fine going (held.baseHash ▸ reached.2.2)
    · exact held

theorem step (step : NodeStep params SnapshotIo.Fine false st st') :
    Honest params first coins base st' := by
  cases step with
  | chain moved => exact inv.moved moved
  | background moved fine => exact (inv.moved moved).background fine
  | partialLoad _ _ inactive | load _ inactive _ =>
    rw [inv.active] at inactive
    cases inactive
  | activate _ ran =>
    obtain ⟨_, _, _, _, activates, _⟩ := activateLoaded_ok ran
    have inactive := activates.inactive
    rw [inv.active] at inactive
    cases inactive
  | restart ends _ _ | crash ends _ _ => cases ends

end

end Honest

theorem HonestSnapshot.activated (honest : HonestSnapshot params first coins base st) (fine : io.Fine)
    (ran : st.activateLoadedSnapshot params io = .ok st') :
    ∃ chain : ChainState C, chain.tree = st.chain.tree ∧ chain.chainActive = st.chain.chainActive ∧
      chain.pcoinsTip.view = st.chain.pcoinsTip.view ∧ ∃ cache info w,
      info.baseHash = base ∧
      info.coinsHash = params.hashSerialized { hashBlock := some base, coins := coins } ∧
      st' = (({ st with chain := chain }.swapIn cache base info).settleAtTip params io).persist w := by
  obtain ⟨cache, _, info, chain, activates, rfl⟩ := activateLoaded_ok ran
  obtain ⟨_, _, loaded, baseHash, coinsHash⟩ := honest.slot
  have same := activates.loaded.symm.trans loaded
  cases same
  obtain ⟨chain', wrote⟩ := ChainState.flushState_fine .always fine.flush st.chain
  have ended : chain = chain' := by
    rcases activates.flushed with ended | ended
    · rw [wrote] at ended
      cases ended
      rfl
    · rw [wrote] at ended
      cases ended
  obtain ⟨_, _, _, _, shape⟩ := (ChainState.flushState_ok wrote).memory
  refine ⟨chain, ?_, ?_, ?_, cache, info, _, baseHash, coinsHash, rfl⟩
  · rw [ended, shape]
  · rw [ended, shape]
  · rw [ended, shape]

theorem HonestSnapshot.honest (honest : HonestSnapshot params first coins base st) (fine : io.Fine)
    (below : ∀ tip, st.chain.chainActive = some tip → st.chain.tree.Le tip base)
    (ran : st.activateLoadedSnapshot params io = .ok st') : Honest params first coins base st' := by
  obtain ⟨chain, tree, sameTip, view, cache, info, w, baseHash, coinsHash, rfl⟩ :=
    honest.activated fine ran
  have swapped : Honest params first coins base
      ({ st with chain := chain }.swapIn cache base info) := by
    refine { active := rfl, root := ?_, known := ?_, valid := ?_, baseHash := baseHash,
             expected := coinsHash, status := by simp [swapIn], path := fun _ => ?_ }
    · exact tree ▸ honest.root
    · exact tree ▸ honest.known
    · exact tree ▸ honest.valid
    refine ⟨chain.chainActive, rfl, ?_, ?_⟩
    · intro t same
      exact tree ▸ below t (sameTip ▸ same)
    change Replayed _ chain.tree _ _ chain.pcoinsTip.view
    rw [tree, sameTip, view]
    exact honest.synced
  refine Honest.persist ?_ w
  have going : ({ st with chain := chain }.swapIn cache base info).bgStatus ≠ .completed := by
    simp [swapIn]
  simp only [settleAtTip]
  split
  · rename_i reached
    have hash := swapped.hash going (swapped.baseHash ▸ reached.2)
    simp only [fine.flushView, fine.cursor, Bool.not_true, Bool.false_eq_true, ↓reduceIte]
    rw [if_pos hash]
    exact swapped.flushed.complete io
  · exact swapped

private theorem stepBackground_off (free : io.shutdownRequested 0 = false) (active : st.chain.snapshotActive)
    (running : st.bgStatus = .running) (parked : st.background = .parked (some t))
    (known : st.snapshotBaseHash ∈ st.chain.tree.blocks)
    (off : ¬ st.chain.tree.Le t st.snapshotBaseHash) :
    (st.stepBackgroundValidation params io 1).1.bgStatus = .failed := by
  have tip : st.bgTip = some t := by rw [bgTip, parked]
  have apart : ∀ next, st.Above st.snapshotBaseHash next → st.chain.tree.parent next ≠ st.bgTip := by
    intro next above edge
    exact off ((ParentTree.le_of_parent (edge.trans tip)).trans above.le)
  have failed : ∀ st : NodeState C, (st.failBackgroundValidation io).bgStatus = .failed := by
    simp [failBackgroundValidation]
  have turned : ∀ turn, BgTurn params io st.snapshotBaseHash st 0 turn →
      ∃ r, turn = .leave r ∧ r.1.bgStatus = .failed := by
    intro turn went
    cases went with
    | offBase _ _ | forked _ _ | unread _ _ | misplaced _ _ | undoFailed _ _ _ =>
      exact ⟨_, rfl, failed _⟩
    | atBase _ atBase =>
      rw [tip] at atBase
      cases atBase
      exact absurd (.refl _) off
    | waits above edge _ | rejected _ above _ edge _ => exact absurd edge (apart _ above)
    | connected joins _ | flushed joins _ _ | flushFailed joins _ =>
      exact absurd joins.parent (apart _ joins.toAbove)
  obtain ⟨r, left, settled⟩ := turned _ ((stepTurn_cases params io st.snapshotBaseHash st 0).resolve_left
    fun stopped => Bool.false_ne_true (free.symm.trans stopped.1))
  simp only [stepBackgroundValidation, active, running, parked, known, loopFor, left]
  exact settled

/-- **An honest snapshot is never rejected just when the parked tip is on the chain of its base.**
The schedules are all runs of operations after the activation, restarts apart, in which no input or
output fails. -/
theorem honest_never_failed_iff (honest : HonestSnapshot params first coins base st) (fine : io.Fine)
    (ran : st.activateLoadedSnapshot params io = .ok st') :
    (∀ st'', Reach params (fun _ event => event.Fine ∧ event.restarts = false) st' st'' →
      st''.bgStatus ≠ .failed) ↔
    ∀ tip, st.chain.chainActive = some tip → st.chain.tree.Le tip base := by
  constructor
  · intro never tip active
    by_contra off
    obtain ⟨chain, tree, sameTip, _, cache, info, _, baseHash, _, rfl⟩ := honest.activated fine ran
    subst baseHash
    have unsettled : ({ st with chain := chain }.swapIn cache info.baseHash info).settleAtTip params
        io = { st with chain := chain }.swapIn cache info.baseHash info := by
      refine if_neg fun reached => off ?_
      have same : some tip = some info.baseHash := by
        rw [← active, ← sameTip]
        exact reached.2
      cases same
      exact .refl _
    rw [unsettled] at never
    obtain ⟨_, shape, _⟩ := persist_eq ({ st with chain := chain }.swapIn cache info.baseHash info)
    rw [shape] at never
    -- The first step after the activation is the failing one.
    refine never _ (.single (.stepBackground {} 1) ⟨?_, rfl⟩ rfl) ?_
    · rintro _ ⟨⟩
      exact SnapshotIo.fine_default
    apply stepBackground_off (t := tip) rfl rfl rfl
    · simp [swapIn, sameTip, active]
    · exact tree ▸ honest.known
    · exact tree ▸ off
  · intro below st'' reach
    have inv : Honest params first coins base st'' := by
      refine reach.invariant (honest.honest fine below ran) ?_
      rintro _ _ event inv ⟨fine, ends⟩ applied
      have step := apply_step SnapshotIo.Fine fine applied
      rw [ends] at step
      exact inv.step step
    exact inv.status

/-- A block is connected, its child's header arrives and an honest snapshot of the child is loaded. -/
def honestRun : List (Event Unit) :=
  [.block {} (.child 2 1), .activateBestChain {} 3, .header (.child 3 2), .loadSnapshot {} (.of 3)]

def honestNode : NodeState Unit :=
  ((genesis .permissive () hashOrder).run .permissive honestRun).get rfl

theorem honest_never_failed_honestNode :
    ∃ st', honestNode.activateLoadedSnapshot .permissive {} = .ok st' ∧
      ∀ st'', Reach .permissive (fun _ event => event.Fine ∧ event.restarts = false) st' st'' →
        st''.bgStatus ≠ .failed := by
  have fine := SnapshotIo.fine_default
  have honest : HonestSnapshot .permissive () () 3 honestNode :=
    ⟨⟨_, _, rfl, rfl, rfl⟩, rfl, by decide, .block rfl (.block rfl .anchor rfl) rfl, rfl,
      .block rfl .anchor rfl⟩
  refine ⟨_, rfl, (honest_never_failed_iff honest fine rfl).2 ?_⟩
  intro _ active
  have same := (Option.some.inj active).symm
  subst same
  decide

/-- Two blocks on the genesis block arrive, the first is the tip, and an honest snapshot of the
second is loaded. -/
def siblingRun : List (Event Unit) :=
  [.block {} (.child 2 1), .activateBestChain {} 3, .block {} (.child 3 1), .loadSnapshot {} (.of 3)]

def siblingNode : NodeState Unit :=
  ((genesis .permissive () hashOrder).run .permissive siblingRun).get rfl

/-- An honest snapshot is rejected by the first step of validation when the parked tip is a sibling
of its base. -/
theorem honest_rejected : HonestSnapshot .permissive () () 3 siblingNode ∧
      ∃ st' st'', siblingNode.activateLoadedSnapshot .permissive {} = .ok st' ∧
        st'.run .permissive [.stepBackground {} 1] = some st'' ∧ st''.bgStatus = .failed := by
  refine ⟨⟨⟨_, _, rfl, rfl, rfl⟩, rfl, by decide, .block rfl .anchor rfl, rfl,
    .block rfl .anchor rfl⟩, _, _, rfl, rfl, rfl⟩

end NodeState
end DogecoinCore
