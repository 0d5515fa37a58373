import DogecoinCore.LoadProofs

/-! What the operations of a node do to its chain state. Every completed operation
is a sequence of chain steps; what each chain step keeps holds in every reachable
state. The index invariant is the first such fact. -/
namespace DogecoinCore
open Option ChainState List ParentTree
variable {C : Type} {params : Params C} {io : SnapshotIo} {P : ChainState C → Prop}

namespace ChainState
variable {st st' : ChainState C}

/-- The ways a chain state changes. A swap puts any coins with their best block in place, and a
load may start from any coins: what else is known of them is the node's business. -/
inductive ChainStep (rules : Consensus C) (st : ChainState C) : ChainState C → Prop
  | header {block : CBlockHeader} {st' : ChainState C} :
      HeaderOutcome rules st block (.ok st') ∨ HeaderOutcome rules st block (.fail st') →
      ChainStep rules st st'
  | block {block : CBlock} {st' : ChainState C} :
      BlockOutcome rules st block (.ok st') ∨ BlockOutcome rules st block (.fail st') →
      ChainStep rules st st'
  | activate {io : ChainIo} {fuel : ℕ} {exit : LoopExit C} :
      st.activateBestChainLoop rules io fuel = some (.ok exit) → ChainStep rules st exit.st
  | invalidate {io : ChainIo} {b : UInt256} {st' : ChainState C} : b ∈ st.tree.blocks →
      st.invalidateBlock rules io b = .ok st' → ChainStep rules st st'
  | reset {b : UInt256} : b ∈ st.tree.blocks → ChainStep rules st (st.resetBlockFailureFlags b)
  | precious {b : UInt256} {st' : ChainState C} :
      st.preciousBlock b = .ok (some st') → ChainStep rules st st'
  | flush {st' : ChainState C} : Flushed st st' → ChainStep rules st st'
  | undo (b : UInt256) : ChainStep rules st (st.writeUndo b)
  | swap {tip : UInt256} {coins : CCoinsViewCache C} : coins.view.hashBlock = some tip →
      ChainStep rules st { st with
        chainActive := some tip, pcoinsTip := coins, snapshotActive := true }
  | load {coins : CoinsView C} {addr : UInt256 ↪ ℕ} {st' : ChainState C} :
      Loaded st.blocktree coins addr st' → ChainStep rules st st'

abbrev ChainSteps (rules : Consensus C) : ChainState C → ChainState C → Prop :=
  Relation.ReflTransGen (ChainStep rules)

/-- **Every chain step keeps the index and its database.** -/
theorem Recorded.chainStep (inv : Recorded rules st) (step : ChainStep rules st st') :
    Recorded rules st' := by
  cases step with
  | header ended => exact inv.header ended
  | block ended => exact inv.block ended
  | activate ran => exact inv.steps (bestChainLoop_steps ran)
  | invalidate _ ran => exact inv.invalidateBlock ran
  | reset mem => exact inv.resetBlockFailureFlags mem
  | precious ran => exact inv.preciousBlock ran
  | flush wrote => exact inv.flushed wrote
  | undo b => exact inv.writeUndo b
  | swap _ => exact inv.of_data rfl rfl rfl rfl rfl rfl
  | load loaded => exact loaded.recorded inv.disk.stored

theorem Recorded.chainSteps (inv : Recorded rules st) (steps : ChainSteps rules st st') :
    Recorded rules st' := by
  induction steps with
  | refl => exact inv
  | tail _ step ih => exact ih.chainStep step

structure SameTip (st st' : ChainState C) : Prop where
  chainActive : st'.chainActive = st.chainActive
  pcoinsTip : st'.pcoinsTip = st.pcoinsTip

theorem HeaderOutcome.sameTip (ended : HeaderLeft rules st block st') : SameTip st st' := by
  obtain rfl | ⟨fresh, -, rfl⟩ | ⟨_, -, -, rfl⟩ := HeaderOutcome.left ended
  · exact ⟨rfl, rfl⟩
  · obtain ⟨_, _, shape⟩ := addToBlockIndex_eq fresh
    rw [shape]
    exact ⟨rfl, rfl⟩
  · exact ⟨rfl, rfl⟩

theorem Relinked.sameTip (relinked : Relinked st st') : SameTip st st' := by
  obtain ⟨_, _, _, _, _, _, rfl⟩ := relinked.frame
  exact ⟨rfl, rfl⟩

theorem SameTip.trans (first : SameTip st st') (second : SameTip st' st'') : SameTip st st'' :=
  ⟨second.chainActive.trans first.chainActive, second.pcoinsTip.trans first.pcoinsTip⟩

theorem BlockOutcome.sameTip (ended : BlockLeft rules st block st') : SameTip st st' := by
  obtain left | ⟨_, passed, arrived | ⟨-, rfl⟩⟩ := BlockOutcome.left ended
  · exact HeaderOutcome.sameTip left
  · exact (HeaderOutcome.sameTip (.inl passed)).trans arrived.toRelinked.sameTip
  · exact (HeaderOutcome.sameTip (.inl passed)).trans ⟨rfl, rfl⟩

def Aligned (st : ChainState C) : Prop :=
  ∀ t, st.chainActive = some t → st.pcoinsTip.view.hashBlock = some t

theorem Loaded.aligned {coins : CoinsView C} {addr : UInt256 ↪ ℕ}
    (loaded : Loaded db coins addr st) : Aligned st := by
  intro _ active
  rw [loaded.tip, filter_eq_some_iff] at active
  rw [loaded.pcoinsTip]
  exact active.1

namespace Aligned
section
variable (aligned : Aligned st)
include aligned

theorem of_sameTip (same : SameTip st st') : Aligned st' := by
  intro t active
  rw [same.pcoinsTip]
  exact aligned t (same.chainActive ▸ active)

theorem step {io : ChainIo} (step : Step rules io st st') : Aligned st' := by
  rcases step.cases with ⟨_, _, moved⟩ | ⟨_, moved⟩ | ⟨_, moved⟩ | ⟨_, moved⟩
  · exact aligned.of_sameTip ⟨moved.tip, moved.view⟩
  · intro t active
    rw [moved.best]
    exact moved.tip ▸ active
  · intro t active
    rw [moved.best]
    exact moved.tip ▸ active
  · exact aligned.of_sameTip ⟨moved.tip, moved.view⟩

theorem steps {io : ChainIo} (steps : Steps rules io st st') : Aligned st' := by
  induction steps with
  | refl => exact aligned
  | tail _ step ih => exact ih.step step

theorem chainStep (step : ChainStep rules st st') : Aligned st' := by
  cases step with
  | header ended => exact aligned.of_sameTip (HeaderOutcome.sameTip ended)
  | block ended => exact aligned.of_sameTip (BlockOutcome.sameTip ended)
  | activate ran => exact aligned.steps (bestChainLoop_steps ran)
  | invalidate _ ran =>
    obtain ⟨_, _, steps, rfl⟩ := invalidate_steps ran
    exact (aligned.steps steps).of_sameTip ⟨rfl, rfl⟩
  | reset _ => exact aligned.of_sameTip ⟨rfl, rfl⟩
  | precious ran =>
    obtain ⟨_, _, _, _, rfl, _⟩ := Recorded.preciousBlock_same ran
    exact aligned.of_sameTip ⟨rfl, rfl⟩
  | flush wrote =>
    obtain ⟨_, _, _, _, rfl⟩ := wrote.memory
    exact aligned
  | undo _ =>
    obtain ⟨_, _, _, _, _, _, shape⟩ := writeUndo_eq
    rw [shape]
    exact aligned.of_sameTip ⟨rfl, rfl⟩
  | swap best =>
    rintro _ ⟨⟩
    exact best
  | load loaded => exact loaded.aligned

theorem chainSteps (steps : ChainSteps rules st st') : Aligned st' := by
  induction steps with
  | refl => exact aligned
  | tail _ step ih => exact ih.chainStep step

end

end Aligned

/-- What a `FlushStateToDisk` that reports failure leaves behind, unless the index write itself
failed: what was there, or the index without the coins. -/
inductive FlushFailed (st : ChainState C) : ChainState C → Prop
  | space : FlushFailed st st
  | index : FlushFailed st st.flushBlockFile.writeBlockIndex
  | coins : FlushFailed st (st.flushBlockFile.writeBlockIndex.flushCoinsTip false)

variable {io : FlushIo}

theorem flushState_fail
    (written : io.writeBatchSync) (ran : st.flushStateToDisk mode io = .fail st') :
    FlushFailed st st' := by
  simp only [flushStateToDisk, written] at ran
  split at ran
  · split at ran
    · cases ran
      exact .space
    simp only [Bool.not_true, Bool.false_eq_true, ↓reduceIte] at ran
    split at ran
    · split at ran
      · cases ran
        exact .index
      split at ran
      · cases ran
        exact .coins
      · cases ran
    · cases ran
  · cases ran

theorem flushState_ne_abort : st.flushStateToDisk mode io ≠ .abort := by
  simp only [flushStateToDisk]
  split
  · split
    · simp
    split
    · simp
    split
    · split
      · simp
      · split <;> simp
    · simp
  · simp

theorem Accepted.chain
    (accepted : Accepted rules st coins b st' coins') : st' = st ∨ st' = st.writeUndo b := by
  cases accepted with
  | genesis _ => exact .inl rfl
  | block _ _ => exact .inr rfl

section
variable {io : ChainIo} {view leftover : CoinsView C} {b : UInt256}

theorem connectBlock_abort (ran : st.connectBlock rules io view b = .abort) :
    view.hashBlock ≠ st.tree.parent b := by
  unfold connectBlock at ran
  split at ran
  · assumption
  split at ran
  · cases ran
  split at ran
  · cases ran
  · split at ran <;> cases ran

theorem connectBlock_fail (ran : st.connectBlock rules io view b = .fail st') :
    io.writeUndo b = false := by
  unfold connectBlock at ran
  split at ran
  · cases ran
  split at ran
  · cases ran
  split at ran
  · cases ran
  split at ran
  · rename_i unwritten
    simp only [Bool.and_eq_true, Bool.not_eq_true'] at unwritten
    exact unwritten.2
  · cases ran

theorem connectBlock_leftover (ran : st.connectBlock rules io view b = .ok (.invalid leftover)) :
    b ≠ rules.hashGenesisBlock ∧ ∃ coins, leftover = { view with coins := coins } := by
  unfold connectBlock at ran
  split at ran
  · cases ran
  split at ran
  · cases ran
  rename_i other
  split at ran
  · cases ran
    exact ⟨other, _, rfl⟩
  · split at ran <;> cases ran

end

end ChainState

namespace NodeState
variable {st st' : NodeState C} {target next : UInt256} {connected n : ℕ}

@[simp] theorem persist_chain : (st.persist w).chain = st.chain := by
  unfold persist
  split
  · rfl
  · cases w <;> rfl

@[simp] theorem failBackground_chain :
    (st.failBackgroundValidation io).chain = st.chain := by
  simp [failBackgroundValidation]

@[simp] theorem completeBackground_chain :
    (st.completeBackgroundValidation io).chain = st.chain := by
  simp [completeBackgroundValidation]

@[simp] theorem checkCoinsHash_chain : (st.checkCoinsHash params io).chain = st.chain := by
  simp only [checkCoinsHash]
  split
  · simp
  split
  · simp
  · split <;> simp

@[simp] theorem stepFinish_chain : (st.stepFinish params io).chain = st.chain := by
  unfold stepFinish
  split <;> simp

def turnState : Turn (NodeState C × ℕ) (NodeState C × ℕ) → NodeState C
  | .again s => s.1
  | .leave s => s.1

/-- The state in which a turn of the background loop has read the height of the tip. -/
def seen (st : NodeState C) : NodeState C := { st with bgHeight := st.heightOf st.bgTip }

@[simp] theorem seen_chain : st.seen.chain = st.chain := rfl
@[simp] theorem seen_bgTip : st.seen.bgTip = st.bgTip := rfl

/-- `next` is the block of the target's chain right above the background tip. -/
structure Above (st : NodeState C) (target next : UInt256) : Prop where
  le : st.chain.tree.Le next target
  height : (st.chain.tree.height next : ℤ) = st.heightOf st.bgTip + 1

/-- `ConnectBlock` accepts the next block on the background coins. -/
structure Joins (params : Params C) (st : NodeState C) (target next : UInt256)
    (chain : ChainState C) (coins : C) : Prop extends Above st target next where
  parent : st.chain.tree.parent next = st.bgTip
  body : (st.chain.data next).haveData
  best : st.parkedCoins.view.hashBlock = st.bgTip
  accepted : ChainState.Accepted params.toConsensus st.chain st.parkedCoins.view.coins next chain coins

def joined (st : NodeState C) (next : UInt256) (chain : ChainState C) (coins : C) : NodeState C :=
  st.seen.advance chain { hashBlock := some next, coins := coins } next

inductive BgTurn (params : Params C) (io : SnapshotIo) (target : UInt256) (st : NodeState C)
    (connected : ℕ) : Turn (NodeState C × ℕ) (NodeState C × ℕ) → Prop
  | offBase : (st.chain.tree.height target : ℤ) ≤ st.heightOf st.bgTip →
      st.bgTip ≠ some st.snapshotBaseHash →
      BgTurn params io target st connected (.leave (st.seen.failBackgroundValidation io, connected))
  | atBase : (st.chain.tree.height target : ℤ) ≤ st.heightOf st.bgTip →
      st.bgTip = some st.snapshotBaseHash →
      BgTurn params io target st connected (.leave (st.seen.checkCoinsHash params io, connected))
  | forked {next : UInt256} : st.Above target next → st.chain.tree.parent next ≠ st.bgTip →
      BgTurn params io target st connected (.leave (st.seen.failBackgroundValidation io, connected))
  | waits {next : UInt256} : st.Above target next → st.chain.tree.parent next = st.bgTip →
      (st.chain.data next).haveData = false →
      BgTurn params io target st connected (.leave ({ st.seen with
        bgStatus := .waitingBlocks }.persist (io.persist st.bgTip .waitingBlocks), connected))
  | unread {next : UInt256} : st.Above target next → io.chain.readBlock next = false →
      BgTurn params io target st connected (.leave (st.seen.failBackgroundValidation io, connected))
  | misplaced {next : UInt256} : st.Above target next → st.parkedCoins.view.hashBlock ≠ st.bgTip →
      BgTurn params io target st connected (.leave (st.seen.failBackgroundValidation io, connected))
  | undoFailed {next : UInt256} (coins : C) : st.Above target next →
      io.chain.writeUndo next = false →
      BgTurn params io target st connected (.leave ((st.seen.leaveLeftover
        { st.parkedCoins.view with coins := coins }).failBackgroundValidation io, connected))
  | rejected {next : UInt256} (coins : C) : st.Above target next →
      next ≠ params.hashGenesisBlock → st.chain.tree.parent next = st.bgTip →
      params.connect st.parkedCoins.view.coins next = none →
      BgTurn params io target st connected (.leave ((st.seen.leaveLeftover
        { st.parkedCoins.view with coins := coins }).failBackgroundValidation io, connected))
  | connected {next : UInt256} {chain : ChainState C} {coins : C} :
      Joins params st target next chain coins → (connected + 1) % 100 ≠ 0 →
      BgTurn params io target st connected (.again (st.joined next chain coins, connected + 1))
  | flushed {next : UInt256} {chain : ChainState C} {coins : C} :
      Joins params st target next chain coins → (connected + 1) % 100 = 0 →
      io.flushView (some next) →
      BgTurn params io target st connected (.again ({ st.joined next chain coins with
        parkedCoins := (st.joined next chain coins).parkedCoins.flush true }.persist
          (io.persist (some next) .running), connected + 1))
  | flushFailed {next : UInt256} {chain : ChainState C} {coins : C} :
      Joins params st target next chain coins → io.flushView (some next) = false →
      BgTurn params io target st connected (.leave ({ st.joined next chain coins with
        parkedCoins := (st.joined next chain coins).parkedCoins.flush false
        }.failBackgroundValidation io, connected + 1))

theorem connectNext_cases (above : st.Above target next) :
    BgTurn params io target st connected (st.seen.connectNext params io next connected) := by
  unfold connectNext
  refine iteInduction (fun apart => .forked above apart) fun onTip => ?_
  have parent := not_not.1 onTip
  refine iteInduction (fun missing => .waits above parent (by simpa using missing)) fun held => ?_
  refine iteInduction (fun unread => .unread above (by simpa using unread)) fun _ => ?_
  refine iteInduction (fun apart => .misplaced above fun same => apart (same.trans parent.symm))
    fun aligned => ?_
  have best := not_not.1 aligned
  cases judged : st.chain.connectBlock params.toConsensus io.chain st.parkedCoins.view next with
  | abort => exact absurd best (connectBlock_abort judged)
  | fail _ =>
    simp only [seen_chain]
    rw [show st.seen.parkedCoins = st.parkedCoins from rfl, judged]
    exact .undoFailed _ above (connectBlock_fail judged)
  | ok verdict =>
    simp only [seen_chain]
    rw [show st.seen.parkedCoins = st.parkedCoins from rfl, judged]
    cases verdict with
    | invalid _ =>
      obtain ⟨other, coins, rfl⟩ := connectBlock_leftover judged
      exact .rejected coins above other parent (connectBlock_invalid judged).2
    | valid chain view =>
      obtain ⟨_, moved, accepted⟩ := connectBlock_valid judged
      have body : (st.chain.data next).haveData := by simpa using held
      have joins : Joins params st target next chain view.coins :=
        ⟨above, parent, body, best.trans parent, accepted⟩
      have shape : st.seen.advance chain view next = st.joined next chain view.coins := by
        rw [joined, ← moved]
      simp only [shape]
      refine iteInduction (fun hundred => ?_) fun other => .connected joins other
      have tip : (st.joined next chain view.coins).bgTip = some next := rfl
      cases wrote : io.flushView (some next) with
      | true =>
        simp only [tip, wrote, ↓reduceIte]
        exact .flushed joins hundred wrote
      | false =>
        simp only [tip, wrote, Bool.false_eq_true, ↓reduceIte]
        exact .flushFailed joins wrote

theorem stepTurn_cases (params : Params C) (io : SnapshotIo) (target : UInt256) (st : NodeState C)
    (connected : ℕ) : io.shutdownRequested connected ∧
      stepTurn params io target (st, connected) = .leave (st.stepFinish params io, connected) ∨
    BgTurn params io target st connected (stepTurn params io target (st, connected)) := by
  refine iteInduction (motive := fun turn => _ ∧ turn = _ ∨ BgTurn params io target st connected turn)
    (fun stop => .inl ⟨stop, rfl⟩) fun _ => .inr ?_
  refine iteInduction (fun reached => ?_) fun short => ?_
  · refine iteInduction (fun apart => .offBase reached apart) fun same => ?_
    exact .atBase reached (not_not.1 same)
  have least : -1 ≤ st.heightOf st.bgTip := by
    unfold heightOf
    cases st.bgTip <;> simp
  have short : ¬ (st.chain.tree.height target : ℤ) ≤ st.heightOf st.bgTip := short
  have bound : (st.heightOf st.bgTip + 1).toNat ≤ st.chain.tree.height target := by omega
  obtain ⟨next, found⟩ := ancestorAt_exists bound
  have above : st.Above target next := by
    obtain ⟨le, height⟩ := ancestorAt_eq_some.1 found
    exact ⟨le, by omega⟩
  simp only [found]
  exact connectNext_cases above

theorem stepBackground_rule {I : ℕ → NodeState C × ℕ → Prop} {Q : NodeState C × ℕ → Prop}
    (idle : n = 0 ∨ st.chain.snapshotActive = false ∨
      st.bgStatus ≠ .running ∧ st.bgStatus ≠ .waitingBlocks → Q (st, 0))
    (unready : st.chain.snapshotActive → st.bgStatus = .running ∨ st.bgStatus = .waitingBlocks →
      st.background = .idle ∨ st.snapshotBaseHash ∉ st.chain.tree.blocks →
      Q (st.failBackgroundValidation io, 0))
    (start : st.chain.snapshotActive → st.bgStatus = .running ∨ st.bgStatus = .waitingBlocks →
      st.background ≠ .idle → st.snapshotBaseHash ∈ st.chain.tree.blocks → I n (st, 0))
    (again : ∀ k s s', I (k + 1) s →
      BgTurn params io st.snapshotBaseHash s.1 s.2 (.again s') → I k s')
    (leave : ∀ k s r, I (k + 1) s →
      BgTurn params io st.snapshotBaseHash s.1 s.2 (.leave r) → Q r)
    (finish : ∀ k s, I k s → Q (s.1.stepFinish params io, s.2)) :
    Q (st.stepBackgroundValidation params io n) := by
  unfold stepBackgroundValidation
  split
  · rename_i uncalled
    simp only [Bool.or_eq_true, decide_eq_true_eq, Bool.not_eq_true'] at uncalled
    exact idle (uncalled.imp_right .inl)
  rename_i called
  have active : st.chain.snapshotActive := by
    simp only [Bool.or_eq_true, Bool.not_eq_true', not_or, Bool.not_eq_false] at called
    exact called.2
  split
  · rename_i stopped
    exact idle (.inr (.inr stopped))
  rename_i stopped
  have going : st.bgStatus = .running ∨ st.bgStatus = .waitingBlocks := by
    by_contra neither
    exact stopped (not_or.1 neither)
  split
  · exact unready active going (.inl ‹_›)
  all_goals
    have busy : st.background ≠ .idle := by simp [*]
    refine iteInduction (fun unknown => unready active going (.inr unknown)) fun known => ?_
    obtain ⟨ranOut, left⟩ := loopFor.invariant
      (fun k s s' held turned => by
        obtain ⟨-, stopped⟩ | went := stepTurn_cases params io st.snapshotBaseHash s.1 s.2
        · cases turned.symm.trans stopped
        · exact again k s s' held (turned ▸ went))
      (fun k s r held turned => by
        obtain ⟨-, stopped⟩ | went := stepTurn_cases params io st.snapshotBaseHash s.1 s.2
        · cases turned.symm.trans stopped
          exact finish _ s held
        · exact leave k s r held (turned ▸ went))
      (start active going busy (not_not.1 known))
    split
    · exact left _ ‹_›
    · exact finish 0 _ (ranOut _ ‹_›)

theorem maybeStep_eq : st.maybeStepBackgroundValidation params io n =
      (st.stepBackgroundValidation params io n).1 := by
  unfold maybeStepBackgroundValidation
  split
  · rename_i inactive
    rw [stepBackgroundValidation, if_pos (by simpa using .inr (by simpa using inactive))]
  split
  · unfold stepBackgroundValidation
    split
    · rfl
    · rfl
  · rfl

theorem BgTurn.chain
    (turned : BgTurn params io target st connected turn) (closed : ∀ c b, P c → P (c.writeUndo b))
    (start : P st.chain) : P (turnState turn).chain := by
  have joined {next : UInt256} {chain : ChainState C} {coins : C}
      (joins : Joins params st target next chain coins) : P (st.joined next chain coins).chain := by
    rcases joins.accepted.chain with same | same
    · exact same ▸ start
    · exact same ▸ closed _ _ start
  cases turned with
  | connected joins _ => exact joined joins
  | flushed joins _ _ | flushFailed joins _ => simpa [turnState] using joined joins
  | _ => simpa [turnState, leaveLeftover] using start

theorem stepBackground_chain (closed : ∀ c b, P c → P (c.writeUndo b))
    (start : P st.chain) : P (st.stepBackgroundValidation params io n).1.chain := by
  refine stepBackground_rule (I := fun _ s => P s.1.chain) (Q := fun r => P r.1.chain)
    (fun _ => start) (fun _ _ _ => ?_) (fun _ _ _ _ => start) (fun _ _ _ held turned => ?_)
    (fun _ _ _ held turned => ?_) fun _ _ held => ?_
  · simpa using start
  · exact turned.chain closed held
  · exact turned.chain closed held
  · simpa using held

variable {fuel : ℕ} {addr : UInt256 ↪ ℕ}
  {chain : ChainState C}

theorem activateBest_ok (ran : st.activateBestChain params io fuel = some (.ok st')) :
    ∃ exit, st.chain.activateBestChainLoop params.toConsensus io.chain fuel = some (.ok exit) ∧
      (st' = { st with chain := exit.st } ∨ ∃ flushed, ChainState.Flushed exit.st flushed ∧
        st' = { st with chain := flushed }.maybeStepBackgroundValidation params io
          autoStepBlocks) := by
  obtain ⟨outcome, looped, ended⟩ := map_eq_some_iff.1 ran
  cases outcome with
  | abort | fail chain => cases ended
  | ok exit =>
    refine ⟨exit, looped, ?_⟩
    cases exit with
    | nothingToDo chain =>
      cases ended
      exact .inl rfl
    | reached chain =>
      simp only at ended
      split at ended
      · cases ended
      · cases ended
      rename_i flushed wrote
      cases ended
      exact .inr ⟨flushed, flushState_ok wrote, rfl⟩

open ChainState (ChainStep ChainSteps)

theorem activateBest_steps (ran : st.activateBestChain params io fuel = some (.ok st')) :
    ChainSteps params.toConsensus st.chain st'.chain := by
  obtain ⟨exit, looped, ended⟩ := activateBest_ok ran
  have first : ChainSteps params.toConsensus st.chain exit.st := .single (.activate looped)
  rcases ended with rfl | ⟨_, wrote, rfl⟩
  · exact first
  rw [maybeStep_eq]
  refine stepBackground_chain (fun _ b made => made.tail (.undo b)) ?_
  exact first.tail (.flush wrote)

@[simp] theorem settleAtTip_chain : (st.settleAtTip params io).chain = st.chain := by
  simp only [settleAtTip]
  split
  · split
    · rfl
    · split <;> simp
  · rfl

@[simp] theorem settleRestored_chain : (st.settleRestored params io).chain = st.chain := by
  simp only [settleRestored]
  split
  · split <;> simp
  · rfl

private theorem flushFailed_steps (failed : ChainState.FlushFailed chain chain') :
    ∃ mid, ChainSteps rules chain mid ∧ chain' = { mid with pcoinsTip := chain'.pcoinsTip } := by
  cases failed with
  | space => exact ⟨_, .refl, rfl⟩
  | index | coins => exact ⟨_, .single (.flush .index), rfl⟩

/-- When `ActivateLoadedSnapshot` swaps a snapshot in. -/
structure Activates (params : Params C) (io : SnapshotIo) (st : NodeState C)
    (coins : CCoinsViewCache C) (snapTip : UInt256) (info : SnapshotInfo) (chain : ChainState C) :
    Prop where
  inactive : st.chain.snapshotActive = false
  loaded : st.background = .loaded coins (some snapTip) info
  coinsHash : info.coinsHash ≠ 0
  allowed : params.assumeUtxoActivationAllowed (st.chain.tree.height snapTip) info.coinsHash
  height : ∀ tip, st.chain.chainActive = some tip →
    st.chain.tree.height tip ≤ st.chain.tree.height snapTip
  flushed : st.chain.flushStateToDisk .always io.flush = .ok chain ∨
    st.chain.flushStateToDisk .always io.flush = .fail chain

def swapped (params : Params C) (io : SnapshotIo) (st : NodeState C) (coins : CCoinsViewCache C)
    (snapTip : UInt256) (info : SnapshotInfo) (chain : ChainState C) : NodeState C :=
  ({ st with chain := chain }.swapIn coins snapTip info).settleAtTip params io

theorem activateLoaded_ok (ran : st.activateLoadedSnapshot params io = .ok st') :
    ∃ coins snapTip info chain, Activates params io st coins snapTip info chain ∧
      st' = (swapped params io st coins snapTip info chain).persist
        (io.persist (swapped params io st coins snapTip info chain).bgTip
          (swapped params io st coins snapTip info chain).bgStatus) := by
  unfold activateLoadedSnapshot at ran
  split at ran
  · cases ran
  rename_i inactive
  split at ran
  · cases ran
  · cases ran
  · cases ran
  rename_i coins snapTip info loaded
  split at ran
  · cases ran
  rename_i coinsHash
  split at ran
  · cases ran
  rename_i allowed
  split at ran
  · cases ran
  rename_i height
  have ahead : ∀ tip, st.chain.chainActive = some tip →
      st.chain.tree.height tip ≤ st.chain.tree.height snapTip := by
    intro tip active
    simpa [active] using height
  split at ran
  · cases ran
  · rename_i chain wrote
    cases ran
    exact ⟨coins, snapTip, info, chain, ⟨by simpa using inactive, loaded, coinsHash,
      by simpa using allowed, ahead, .inl wrote⟩, rfl⟩
  rename_i chain wrote
  cases ran
  exact ⟨coins, snapTip, info, chain, ⟨by simpa using inactive, loaded, coinsHash,
    by simpa using allowed, ahead, .inr wrote⟩, rfl⟩

theorem activateLoaded_fail
    (ran : st.activateLoadedSnapshot params io = .fail (st', e)) : st' = st := by
  unfold activateLoadedSnapshot at ran
  repeat' split at ran
  all_goals
    cases ran
    try rfl

private theorem activateLoaded_steps (written : io.flush.writeBatchSync)
    (ran : st.activateLoadedSnapshot params io = .ok st') :
    ChainSteps params.toConsensus st.chain st'.chain := by
  obtain ⟨_, _, _, chain, activates, rfl⟩ := activateLoaded_ok ran
  simp only [swapped, persist_chain, settleAtTip_chain]
  rcases activates.flushed with wrote | failed
  · have flushed : ChainSteps params.toConsensus st.chain chain :=
      .single (.flush (flushState_ok wrote))
    exact flushed.tail (.swap rfl)
  obtain ⟨_, made, same⟩ := flushFailed_steps (flushState_fail written failed)
  rw [same]
  exact made.tail (.swap rfl)

/-- The node `load` builds around a loaded chain state. -/
def fresh (dir : Datadir C) (chain : ChainState C) : NodeState C where
  chain := chain
  background := .idle
  parkedCoins := chain.pcoinsTip
  bgStatus := .none
  bgHeight := -1
  bgTargetHeight := -1
  assumeutxoValidated := false
  assumeutxoFailed := false
  expectedCoinsHash := 0
  snapshotBaseHash := 0
  snapshotCoinsCount := 0
  stateFile := dir.stateFile
  snapshotDir := dir.chainstateSnapshot

/-- When `MaybeRestoreAssumeUtxo` swaps a saved snapshot in. -/
structure Restores (st : NodeState C) (saved : AssumeUtxoDiskState) (dir : CoinsView C)
    (snapTip : UInt256) : Prop where
  stateFile : st.stateFile = some saved
  snapshotDir : st.snapshotDir = some dir
  hashes : saved.base_blockhash ≠ 0 ∧ saved.coins_hash ≠ 0
  status : saved.status ≠ statusToDisk .failed
  base : saved.base_blockhash ∈ st.chain.tree.blocks
  best : dir.hashBlock = some snapTip
  known : snapTip ∈ st.chain.tree.blocks
  onBase : st.chain.tree.Le saved.base_blockhash snapTip

theorem maybeRestore_ok (inactive : st.chain.snapshotActive = false)
    (ran : st.maybeRestoreAssumeUtxo params io = .ok st') :
    (st.stateFile = none ∨ st.snapshotDir = none) ∧
        (st' = st ∨ st' = { st with stateFile := none }) ∨
      ∃ saved dir snapTip, Restores st saved dir snapTip ∧
        st' = (st.restoreSwap saved dir snapTip).settleRestored params io := by
  unfold maybeRestoreAssumeUtxo at ran
  simp only [inactive, Bool.false_eq_true, ↓reduceIte] at ran
  split at ran
  · rename_i noFile
    cases ran
    exact .inl ⟨.inl noFile, .inl rfl⟩
  · rename_i noDir
    cases ran
    refine .inl ⟨.inr noDir, ?_⟩
    split
    · exact .inr rfl
    · exact .inl rfl
  rename_i saved dir hasFile hasDir
  split at ran
  · cases ran
  split at ran
  · cases ran
  rename_i hashes
  split at ran
  · cases ran
  rename_i status
  split at ran
  · cases ran
  rename_i base
  split at ran
  · cases ran
  split at ran
  · cases ran
  rename_i snapTip best
  split at ran
  · cases ran
  rename_i known
  split at ran
  · cases ran
  rename_i onBase
  cases ran
  simp only [Bool.or_eq_true, decide_eq_true_eq, not_or] at hashes
  rw [not_not, ancestorAt_eq_some] at onBase
  exact .inr ⟨saved, dir, snapTip, ⟨hasFile, hasDir, hashes, status,
    not_not.1 base, best, not_not.1 known, onBase.1⟩, rfl⟩

theorem startup_ok (ran : startup params io dir addr = some st') :
    ∃ chain, ChainState.Loaded dir.blocktree dir.chainstate addr chain ∧
      (fresh dir chain).maybeRestoreAssumeUtxo params io = .ok st' := by
  unfold startup at ran
  split at ran
  · rename_i st loaded
    obtain ⟨chain, found, same⟩ := Outcome.bind_eq_ok.1 loaded
    cases same
    split at ran
    · rename_i restored
      cases ran
      exact ⟨chain, loadBlockIndexDB_ok found, restored⟩
    · cases ran
  · cases ran

private theorem startup_steps
    (disk : dir.blocktree = chain.blocktree) (ran : startup params io dir addr = some st') :
    ChainSteps params.toConsensus chain st'.chain := by
  obtain ⟨loaded, found, restored⟩ := startup_ok ran
  rw [disk] at found
  have first : ChainSteps params.toConsensus chain loaded := .single (.load found)
  rcases maybeRestore_ok found.snapshotActive restored with
    ⟨_, rfl | rfl⟩ | ⟨saved, coins, snapTip, restores, rfl⟩
  · exact first
  · exact first
  · rw [settleRestored_chain]
    exact first.tail (.swap restores.best)

theorem shutdown_blocktree (ended : st.chain.flushStateToDisk .always io.flush = .ok chain ∨
      st.chain.flushStateToDisk .always io.flush = .fail chain) :
    (st.shutdown io).blocktree = chain.blocktree := by
  rcases ended with ended | ended
  all_goals
    simp only [shutdown, ended]
    split
    · simp [datadir, flushCoinsTip]
    · rfl

theorem shutdown_steps :
    ∃ chain, ChainSteps rules st.chain chain ∧ (st.shutdown io).blocktree = chain.blocktree := by
  cases ended : st.chain.flushStateToDisk .always io.flush with
  | abort => exact absurd ended flushState_ne_abort
  | ok chain =>
    exact ⟨chain, .single (.flush (flushState_ok ended)),
      shutdown_blocktree (.inl ended)⟩
  | fail chain =>
    have left := shutdown_blocktree (.inr ended)
    cases written : io.flush.writeBatchSync with
    | true =>
      obtain ⟨mid, made, same⟩ := flushFailed_steps (flushState_fail written ended)
      refine ⟨mid, made, ?_⟩
      rw [left, same]
    | false =>
      -- The index was not written, so the old database is what the next process finds.
      refine ⟨st.chain, .refl, left.trans ?_⟩
      simp only [flushStateToDisk, written] at ended
      split at ended
      · split at ended
        · cases ended
          rfl
        · cases ended
          rfl
      · cases ended

def loadedSlot (params : Params C) (st : NodeState C) (file : SnapshotFile C) : BackgroundSlot C :=
  let view : CoinsView C := { hashBlock := some file.base_blockhash, coins := file.coins }
  .loaded { db := view, view := view }
    (if file.base_blockhash ∈ st.chain.tree.blocks then some file.base_blockhash else none)
    { baseHash := file.base_blockhash
      coinsCount := file.coins_count
      coinsHash := params.hashSerialized view }

theorem loadUTXOSnapshot_cases (ran : st.loadUTXOSnapshot params io file = .ok st' ∨
      st.loadUTXOSnapshot params io file = .fail (st', e)) :
    st' = st ∨ st.background = .idle ∧ st.chain.snapshotActive = false ∧
      ((∃ dir, st' = { st with snapshotDir := some dir }) ∨
        file.base_blockhash ≠ 0 ∧
          st' = { st with snapshotDir := none, background := st.loadedSlot params file }) := by
  unfold loadUTXOSnapshot at ran
  split at ran
  · rcases ran with ran | ran <;> cases ran
    exact .inl rfl
  · rcases ran with ran | ran <;> cases ran
    exact .inl rfl
  rename_i idle
  split at ran
  · rcases ran with ran | ran <;> cases ran
    exact .inl rfl
  rename_i sound
  simp only [Bool.or_eq_true, decide_eq_true_eq, not_or] at sound
  split at ran
  · rcases ran with ran | ran <;> cases ran
    exact .inl rfl
  rename_i closed
  simp only [Bool.or_eq_true, not_or, Bool.not_eq_true] at closed
  refine .inr ⟨idle, closed.1, ?_⟩
  split at ran
  · rcases ran with ran | ran <;> cases ran
    exact .inl ⟨_, rfl⟩
  split at ran
  · rcases ran with ran | ran <;> cases ran
    exact .inl ⟨_, rfl⟩
  split at ran
  · rcases ran with ran | ran <;> cases ran
    exact .inl ⟨_, rfl⟩
  · rcases ran with ran | ran <;> cases ran
    exact .inr ⟨sound.1.2, rfl⟩

theorem loadUTXOSnapshot_chain (ran : st.loadUTXOSnapshot params io file = .ok st' ∨
      st.loadUTXOSnapshot params io file = .fail (st', e)) : st'.chain = st.chain := by
  rcases loadUTXOSnapshot_cases ran with rfl | ⟨_, _, ⟨_, rfl⟩ | ⟨_, rfl⟩⟩ <;> rfl

end NodeState

/-- Whether the operation writes the block index where it sets out to. Activating a snapshot goes
on after a failed write, with entries that are neither dirty nor on disk. -/
def Event.indexWritten : Event C → Bool
  | .activateSnapshot io => io.flush.writeBatchSync
  | _ => true

namespace NodeState
variable {st st' : NodeState C}

open ChainState (ChainSteps)

theorem apply_header (ran : st.apply params (.header block) = some st') :
    ∃ chain, st' = { st with chain := chain } ∧
      (st.chain.acceptBlockHeader params.toConsensus block = .ok chain ∨
        st.chain.acceptBlockHeader params.toConsensus block = .fail chain) := by
  simp only [apply] at ran
  split at ran
  · cases ran
    exact ⟨_, rfl, .inl ‹_›⟩
  · cases ran
    exact ⟨_, rfl, .inr ‹_›⟩
  · cases ran

theorem apply_block {io : AcceptIo} (ran : st.apply params (.block io block) = some st') :
    ∃ chain, st' = { st with chain := chain } ∧
      (st.chain.acceptBlock params.toConsensus io block = .ok chain ∨
        st.chain.acceptBlock params.toConsensus io block = .fail chain) := by
  simp only [apply] at ran
  split at ran
  · cases ran
    exact ⟨_, rfl, .inl ‹_›⟩
  · cases ran
    exact ⟨_, rfl, .inr ‹_›⟩
  · cases ran

variable {fuel : ℕ} {b : UInt256}

theorem apply_activateBestChain (ran : st.apply params (.activateBestChain io fuel) = some st') :
    st.activateBestChain params io fuel = some (.ok st') := by
  simp only [apply] at ran
  split at ran
  · cases ran
    assumption
  · cases ran

theorem apply_invalidateBlock {io : ChainIo}
    (ran : st.apply params (.invalidateBlock io b) = some st') :
    st' = st ∨ ∃ chain, b ∈ st.chain.tree.blocks ∧
      st.chain.invalidateBlock params.toConsensus io b = .ok chain ∧
      st' = { st with chain := chain } := by
  simp only [apply] at ran
  split at ran
  · split at ran
    · cases ran
      exact .inr ⟨_, ‹_›, ‹_›, rfl⟩
    · cases ran
  · cases ran
    exact .inl rfl

theorem apply_resetFlags
    (ran : st.apply params (.resetBlockFailureFlags b) = some st') :
    st' = st ∨ b ∈ st.chain.tree.blocks ∧
      st' = { st with chain := st.chain.resetBlockFailureFlags b } := by
  simp only [apply] at ran
  split at ran
  · cases ran
    exact .inr ⟨‹_›, rfl⟩
  · cases ran
    exact .inl rfl

theorem apply_preciousBlock (ran : st.apply params (.preciousBlock io fuel b) = some st') :
    st' = st ∨ ∃ chain, st.chain.preciousBlock b = .ok (some chain) ∧
      { st with chain := chain }.activateBestChain params io fuel = some (.ok st') := by
  simp only [apply] at ran
  split at ran
  · split at ran
    · cases ran
      exact .inl rfl
    · split at ran
      · cases ran
        exact .inr ⟨_, ‹_›, ‹_›⟩
      · cases ran
    · cases ran
  · cases ran
    exact .inl rfl

theorem apply_flush {io : FlushIo} (ran : st.apply params (.flush mode io) = some st') :
    ∃ chain, ChainState.Flushed st.chain chain ∧ st' = { st with chain := chain } := by
  simp only [apply] at ran
  split at ran
  · cases ran
    exact ⟨_, flushState_ok ‹_›, rfl⟩
  · cases ran

theorem apply_loadSnapshot (ran : st.apply params (.loadSnapshot io file) = some st') :
    ∃ e, st.loadUTXOSnapshot params io file = .ok st' ∨
      st.loadUTXOSnapshot params io file = .fail (st', e) := by
  simp only [apply] at ran
  split at ran
  · cases ran
    exact ⟨.notIdle, .inl ‹_›⟩
  · cases ran
    exact ⟨_, .inr ‹_›⟩
  · cases ran

theorem apply_activateSnapshot (ran : st.apply params (.activateSnapshot io) = some st') :
    st' = st ∨ st.activateLoadedSnapshot params io = .ok st' := by
  simp only [apply] at ran
  split at ran
  · cases ran
    exact .inr ‹_›
  · cases ran
    exact .inl (activateLoaded_fail ‹_›)
  · cases ran

/-- **Every completed operation is a sequence of chain steps.** -/
theorem apply_steps (index : ChainState.IndexInv params.toConsensus st.chain)
    (written : event.indexWritten) (ran : st.apply params event = some st') :
    ChainSteps params.toConsensus st.chain st'.chain := by
  cases event with
  | header block =>
    have outcome := acceptHeader_outcome block index.genesis_known
    obtain ⟨chain, rfl, passed | refused⟩ := apply_header ran
    · exact .single (.header (.inl (passed ▸ outcome)))
    · exact .single (.header (.inr (refused ▸ outcome)))
  | block io block =>
    have outcome := acceptBlock_outcome io block index
    obtain ⟨chain, rfl, passed | refused⟩ := apply_block ran
    · exact .single (.block (.inl (passed ▸ outcome)))
    · exact .single (.block (.inr (refused ▸ outcome)))
  | activateBestChain io fuel => exact activateBest_steps (apply_activateBestChain ran)
  | invalidateBlock io b =>
    obtain rfl | ⟨chain, mem, done, rfl⟩ := apply_invalidateBlock ran
    · exact .refl
    · exact .single (.invalidate mem done)
  | resetBlockFailureFlags b =>
    obtain rfl | ⟨mem, rfl⟩ := apply_resetFlags ran
    · exact .refl
    · exact .single (.reset mem)
  | preciousBlock io fuel b =>
    obtain rfl | ⟨chain, done, active⟩ := apply_preciousBlock ran
    · exact .refl
    · exact .head (.precious done) (activateBest_steps active)
  | flush _ io =>
    obtain ⟨chain, wrote, rfl⟩ := apply_flush ran
    exact .single (.flush wrote)
  | loadSnapshot io _ =>
    obtain ⟨_, ended⟩ := apply_loadSnapshot ran
    rw [loadUTXOSnapshot_chain ended]
  | activateSnapshot io =>
    obtain rfl | done := apply_activateSnapshot ran
    · exact .refl
    · exact activateLoaded_steps written done
  | stepBackground io _ =>
    cases ran
    exact stepBackground_chain (fun _ b made => made.tail (.undo b)) .refl
  | restart io addr =>
    obtain ⟨chain, made, disk⟩ := shutdown_steps
    exact made.trans (startup_steps disk ran)
  | crash io addr => exact startup_steps rfl ran

theorem run_append (before after : List (Event C)) (st : NodeState C) :
    st.run params (before ++ after) = (st.run params before).bind (run params after) := by
  induction before generalizing st with
  | nil => rfl
  | cons _ before ih =>
    simp only [cons_append, run, bind_assoc]
    congr 1
    funext next
    exact ih next

/-- The states a node reaches by operations allowed in the state they are applied to. -/
inductive Reach (params : Params C) (allowed : NodeState C → Event C → Prop)
    (start : NodeState C) : NodeState C → Prop
  | start : Reach params allowed start start
  | step {st st' : NodeState C} {event : Event C} : Reach params allowed start st →
      allowed st event → st.apply params event = some st' → Reach params allowed start st'

theorem Reach.single (event : Event C)
    (permitted : allowed st event) (applied : st.apply params event = some st') :
    Reach params allowed st st' :=
  .step .start permitted applied

theorem Reach.invariant {I : NodeState C → Prop}
    (reach : Reach params allowed st st') (start : I st)
    (kept : ∀ st st' event, I st → allowed st event → st.apply params event = some st' → I st') :
    I st' := by
  induction reach with
  | start => exact start
  | step _ permitted applied ih => exact kept _ _ _ ih permitted applied

theorem Reach.of_run (events : List (Event C))
    (permitted : ∀ event ∈ events, ∀ st, allowed st event)
    (ran : st.run params events = some st') : Reach params allowed st st' := by
  induction events using reverseRecOn generalizing st' with
  | nil =>
    cases ran
    exact .start
  | append_singleton events event ih =>
    rw [run_append] at ran
    obtain ⟨mid, before, applied⟩ := bind_eq_some_iff.1 ran
    obtain ⟨_, done, same⟩ := bind_eq_some_iff.1 applied
    cases same
    exact .step (ih (fun e mem => permitted e (by simp [mem])) before)
      (permitted event (by simp) mid) done

end NodeState

namespace ChainState
theorem genesis_recorded (rules : Consensus C) (coins : C) (addr : UInt256 ↪ ℕ) :
    Recorded rules (genesis rules coins addr) := by
  have nTx : ∀ b, 0 < ((genesis rules coins addr).data b).nTx → b = rules.hashGenesisBlock := by
    intro b stored
    by_contra ne
    simp [genesis, ne, BlockData.null] at stored
  have counted : ∀ b, ((genesis rules coins addr).data b).nChainTx ≠ 0 →
      b = rules.hashGenesisBlock := by
    intro b stored
    by_contra ne
    simp [genesis, ne, BlockData.null] at stored
  have root : ∀ b, (genesis rules coins addr).tree.parent b = none := by
    intro b
    simp [genesis, genesisTree, HeaderTree.insert, HeaderTree.newParent, HeaderTree.empty]
  have known : ∀ b, b ∈ (genesis rules coins addr).tree.blocks ↔ b = rules.hashGenesisBlock := by
    intro b
    simp [genesis, genesisTree, HeaderTree.empty]
  have entry : (genesis rules coins addr).data rules.hashGenesisBlock = genesisData := by
    simp [genesis]
  have index : IndexInv rules (genesis rules coins addr) := by
    refine ⟨(known _).2 rfl, root _, ?_, fun b mem _ => (known b).1 mem, ?_,
      fun b stored => (known b).2 (nTx b stored), ?_, ?_, ?_, ?_, ?_, ?_, nodup_nil⟩
    · simp [entry, genesisData]
    · intro b
      by_cases same : b = rules.hashGenesisBlock
      · simp [same, entry, genesisData]
      · simp [genesis, same, BlockData.null]
    · intro b mem
      rw [(known b).1 mem, entry]
      decide
    · intro b stored
      rw [nTx b stored, entry]
      decide
    · intro b stored
      rw [counted b stored, entry]
      decide
    · intro b p edge _
      rw [root] at edge
      cases edge
    · intro b mem
      have same := mem_singleton.1 mem
      simp [same, entry, genesisData]
    · intro p b waiting
      cases waiting
  exact ⟨index, index.toStored, fun _ => id, fun _ _ => rfl, fun b mem _ => ⟨mem, .refl _⟩,
    fun _ _ => id, fun _ _ => id⟩

end ChainState

namespace NodeState
variable {st : NodeState C}

/-- **The index and its database are sound in every reachable state**, and the coins in memory
are those of the tip. -/
theorem Reach.recorded {addr : UInt256 ↪ ℕ}
    (reach : Reach params (fun _ event => event.indexWritten) (genesis params coins addr) st) :
    ChainState.Recorded params.toConsensus st.chain ∧ st.chain.Aligned := by
  refine reach.invariant
    (I := fun st => ChainState.Recorded params.toConsensus st.chain ∧ st.chain.Aligned)
    ⟨genesis_recorded params.toConsensus coins addr, ?_⟩ ?_
  · rintro _ ⟨⟩
    rfl
  rintro _ _ _ ⟨inv, aligned⟩ written applied
  have steps := apply_steps inv.toIndexInv written applied
  exact ⟨inv.chainSteps steps, aligned.chainSteps steps⟩

end NodeState
end DogecoinCore
