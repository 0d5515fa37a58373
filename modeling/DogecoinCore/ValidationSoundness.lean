import DogecoinCore.NodeSteps

/-! What the validated flag rests on. A snapshot session links the flag, the status and
the state file: each says "completed" only after the background coins stood at the base
of a loaded snapshot and hashed to the hash of its coins. A failed session stays failed
as long as its state file was written. -/
namespace DogecoinCore
open List ChainState NodeState
variable {C : Type}

theorem statusToDisk_injective : Function.Injective statusToDisk := by
  intro s _ same
  rw [← statusFromDisk_statusToDisk s, same, statusFromDisk_statusToDisk]

private theorem statusToDisk_statusFromDisk
    (read : statusFromDisk n = s) (other : s ≠ .none) : n = statusToDisk s := by
  subst read
  unfold statusFromDisk at *
  split <;> simp_all [statusToDisk]

namespace NodeState
variable {loaded compared loaded' compared' : UInt256 → UInt256 → Prop} {st st' : NodeState C} {restarts : Bool}

/-- A snapshot with base `b` is loaded and its coins hash to `h`. -/
def HoldsSnapshot (params : Params C) (b h : UInt256) (st : NodeState C) : Prop :=
  ∃ coins tip info, st.background = .loaded coins tip info ∧ info.baseHash = b ∧
    info.coinsHash = h ∧ coins.db.hashBlock = some b ∧ params.hashSerialized coins.db = h

/-- The background coins stand at `b` and their database hashes to `h`. -/
def Matches (params : Params C) (b h : UInt256) (st : NodeState C) : Prop :=
  st.parkedCoins.view.hashBlock = some b ∧ params.hashSerialized st.parkedCoins.db = h

/-- The facts that link the AssumeUTXO fields of a node to its history: which snapshots were
loaded, and which of them were compared with the background coins. -/
structure Session (loaded compared : UInt256 → UInt256 → Prop) (st : NodeState C) : Prop where
  aligned : st.chain.Aligned
  validated : st.assumeutxoValidated → st.bgStatus = .completed
  completed : st.bgStatus = .completed → compared st.snapshotBaseHash st.expectedCoinsHash
  active : st.chain.snapshotActive → loaded st.snapshotBaseHash st.expectedCoinsHash
  slot : ∀ coins tip info, st.background = .loaded coins tip info →
    loaded info.baseHash info.coinsHash
  parked : st.chain.snapshotActive → ∀ t, st.bgTip = some t → st.parkedCoins.view.hashBlock = some t
  file : ∀ saved, st.stateFile = some saved → loaded saved.base_blockhash saved.coins_hash ∧
    (saved.status = statusToDisk .completed → compared saved.base_blockhash saved.coins_hash)

namespace Session
section
variable (inv : Session loaded compared st)
include inv

theorem mono (more : ∀ b h, loaded b h → loaded' b h)
    (seen : ∀ b h, compared b h → compared' b h) : Session loaded' compared' st where
  aligned := inv.aligned
  validated := inv.validated
  completed done := seen _ _ (inv.completed done)
  active on := more _ _ (inv.active on)
  slot coins tip info held := more _ _ (inv.slot coins tip info held)
  parked := inv.parked
  file saved held := ⟨more _ _ (inv.file saved held).1, fun done => seen _ _ ((inv.file saved held).2 done)⟩

theorem persist (on : st.chain.snapshotActive)
    (w : WriteOutcome) : Session loaded compared (st.persist w) := by
  obtain ⟨file, shape, kind⟩ := persist_eq st
  rw [shape]
  refine { inv with file := fun saved held => ?_ }
  rcases kind with rfl | rfl | rfl
  · exact inv.file saved held
  · cases held
    exact ⟨inv.active on, fun done => inv.completed (statusToDisk_injective done)⟩
  · cases held

private theorem of_parked (same : cache.view.hashBlock = st.parkedCoins.view.hashBlock) :
    Session loaded compared { st with parkedCoins := cache } :=
  { inv with parked := fun on t tip => same.trans (inv.parked on t tip) }

section
variable (on : st.chain.snapshotActive)
include on

theorem fail (io : SnapshotIo) :
    Session loaded compared (st.failBackgroundValidation io) := by
  have marked : Session loaded compared { st with
      bgStatus := .failed, assumeutxoFailed := true, assumeutxoValidated := false } :=
    { inv with validated := by rintro ⟨⟩, completed := by rintro ⟨⟩ }
  exact marked.persist on _

theorem complete (io : SnapshotIo)
    (done : compared st.snapshotBaseHash st.expectedCoinsHash) :
    Session loaded compared (st.completeBackgroundValidation io) := by
  have marked : Session loaded compared { st with
      bgStatus := .completed
      assumeutxoValidated := true
      assumeutxoFailed := false
      background := .idle } :=
    { inv with
      validated := fun _ => rfl
      completed := fun _ => done
      slot := by rintro _ _ _ ⟨⟩
      parked := by rintro _ _ ⟨⟩ }
  exact marked.persist on _

theorem settles (settled : Settles params io st st')
    (now : ∀ b h, Matches params b h st' → loaded b h → compared b h) :
    Session loaded compared st' := by
  cases settled with
  | kept => exact inv
  | flushed f => exact inv.of_parked (flush_hashBlock)
  | failed f => exact (inv.of_parked (flush_hashBlock)).fail on io
  | completed f atBase same =>
    refine (inv.of_parked (flush_hashBlock)).complete on io (now _ _ ?_ (inv.active on))
    exact ⟨by simpa using inv.parked on _ atBase, by simpa using same⟩

end

theorem chain {chain : ChainState C}
    (moved : st.chain.Moved chain) : Session loaded compared { st with chain := chain } :=
  { inv with
    aligned := moved.aligned inv.aligned
    active := fun on => inv.active (moved.snapshotActive ▸ on)
    parked := fun on => inv.parked (moved.snapshotActive ▸ on) }

end

theorem of_status (status : BackgroundValidationStatus) (height : ℤ)
    (inv : Session loaded compared st) (going : st.bgStatus ≠ .completed)
    (other : status ≠ .completed) :
    Session loaded compared { st with bgHeight := height, bgStatus := status } :=
  { inv with
    validated := fun on => absurd (inv.validated on) going
    completed := fun done => absurd done other }

section
variable (inv : Session loaded compared st)
include inv

theorem leftover (coins : C) : Session loaded compared
      (st.leaveLeftover { st.parkedCoins.view with coins := coins }) :=
  inv.of_parked rfl

theorem joined {target next : UInt256} {chain : ChainState C} {coins : C} (going : st.bgStatus ≠ .completed)
    (joins : Joins params st target next chain coins) :
    Session loaded compared (st.joined next chain coins) ∧
      (st.joined next chain coins).chain.snapshotActive = st.chain.snapshotActive := by
  refine ⟨?_, joins.moved.snapshotActive⟩
  have marked := (inv.of_status .running (chain.tree.height next) going (by simp)).chain joins.moved
  refine { marked with slot := ?_, parked := ?_ }
  · rintro coins _ _ ⟨⟩
  · rintro _ _ ⟨⟩
    rfl

theorem background {n : ℕ}
    (now : ∀ b h, Matches params b h (st.stepBackgroundValidation params io n).1 →
      loaded b h → compared b h) :
    Session loaded compared (st.stepBackgroundValidation params io n).1 := by
  -- Before every turn the session holds, the snapshot is active and nothing is completed.
  refine stepBackground_rule
    (I := fun _ s => Session loaded compared s.1 ∧ s.1.chain.snapshotActive ∧
      s.1.bgStatus ≠ .completed)
    (Q := fun r => (∀ b h, Matches params b h r.1 → loaded b h → compared b h) →
      Session loaded compared r.1) ?_ ?_ ?_ ?_ ?_ ?_ now
  · exact fun _ _ => inv
  · exact fun on _ _ _ => inv.fail on io
  · rintro on going _ _
    exact ⟨inv, on, by rcases going with going | going <;> simp [going]⟩
  · rintro _ ⟨s, connected⟩ _ ⟨held, on, going⟩ turned
    cases turned with
    | connected joins _ =>
      obtain ⟨next, active⟩ := held.joined going joins
      exact ⟨next, active.trans on, by simp [NodeState.joined, advance]⟩
    | flushed joins _ _ =>
      obtain ⟨next, active⟩ := held.joined going joins
      have on' := active.trans on
      refine ⟨(next.of_parked (flush_hashBlock)).persist on' _, by simpa using on', ?_⟩
      simp [NodeState.joined, advance]
  · rintro _ ⟨s, connected⟩ r ⟨held, on, going⟩ turned now
    have seen : Session loaded compared s.seen := { held with }
    cases turned with
    | offBase _ _ | forked _ _ | unread _ _ | misplaced _ _ => exact seen.fail on io
    | atBase _ atBase => exact seen.settles on (checkCoinsHash_settles atBase) now
    | waits _ _ _ => exact (held.of_status .waitingBlocks _ going (by simp)).persist on _
    | undoFailed coins _ _ | rejected coins _ _ _ _ => exact (seen.leftover coins).fail on io
    | flushFailed joins _ =>
      obtain ⟨next, active⟩ := held.joined going joins
      exact (next.of_parked (flush_hashBlock)).fail (active.trans on) io
  · rintro _ ⟨s, connected⟩ ⟨held, on, _⟩ now
    exact held.settles on (stepFinish_settles) now

theorem activate (ran : st.activateLoadedSnapshot params io = .ok st')
    (now : ∀ b h, Matches params b h st' → loaded b h → compared b h) :
    Session loaded compared st' := by
  obtain ⟨coins, snapTip, info, chain, activates, rfl⟩ := activateLoaded_ok ran
  obtain ⟨_, _, _, sameTip, sameBest⟩ := flushState_ended activates.flushed
  have swap : Session loaded compared ({ st with chain := chain }.swapIn coins snapTip info) := by
    refine ⟨?_, by rintro ⟨⟩, by rintro ⟨⟩, ?_, ?_, ?_, inv.file⟩
    · rintro t ⟨⟩
      rfl
    · exact fun _ => inv.slot _ _ _ activates.loaded
    · rintro _ _ _ ⟨⟩
    · intro _ t tip
      exact sameBest.trans (inv.aligned t (sameTip ▸ tip))
  have settled := settleAtTip_settles params io ({ st with chain := chain }.swapIn coins snapTip info)
  refine (swap.settles rfl settled fun b h same => now b h ?_).persist ?_ _
  · simpa [Matches, swapped] using same
  · rw [settleAtTip_chain]
    rfl

end

theorem startup {addr : UInt256 ↪ ℕ}
    (file : ∀ saved, dir.stateFile = some saved → loaded saved.base_blockhash saved.coins_hash ∧
      (saved.status = statusToDisk .completed → compared saved.base_blockhash saved.coins_hash))
    (ran : startup params io dir addr = some st')
    (now : ∀ b h, Matches params b h st' → loaded b h → compared b h) :
    Session loaded compared st' := by
  obtain ⟨chain, found, restored⟩ := startup_ok ran
  have idle : Session loaded compared (fresh dir chain) := by
    refine { aligned := found.aligned, validated := by rintro ⟨⟩, completed := by rintro ⟨⟩,
             active := ?_, slot := ?_, parked := ?_, file := file }
    · intro on
      rw [fresh, found.snapshotActive] at on
      cases on
    · rintro _ _ _ ⟨⟩
    · rintro _ _ ⟨⟩
  rcases maybeRestore_ok found.snapshotActive restored with
    ⟨_, rfl | rfl⟩ | ⟨saved, coins, snapTip, restores, rfl⟩
  · exact idle
  · refine { idle with file := ?_ }
    rintro _ ⟨⟩
  obtain ⟨known, done⟩ := file saved restores.stateFile
  have swap : Session loaded compared ((fresh dir chain).restoreSwap saved coins snapTip) := by
    refine ⟨?_, ?_, ?_, fun _ => known, ?_, ?_, file⟩
    · rintro t ⟨⟩
      exact restores.best
    · intro on
      simpa [restoreSwap] using on
    · intro complete
      simp only [restoreSwap] at complete
      split at complete
      · cases complete
      · exact done (statusToDisk_statusFromDisk complete (by simp))
    · rintro _ _ _ ⟨⟩
    intro _ t tip
    have tip : (fresh dir chain).restoredBgTip = some t := tip
    have aligned := found.aligned t
    simp only [restoredBgTip] at tip
    split at tip
    · exact aligned tip
    rename_i best held
    split at tip
    · cases tip
      exact held
    · exact aligned tip
  exact swap.settles rfl (settleRestored_settles) now

theorem shutdown_file (inv : Session loaded compared st) (io : SnapshotIo) :
    ∀ saved, (st.shutdown io).stateFile = some saved →
      loaded saved.base_blockhash saved.coins_hash ∧
        (saved.status = statusToDisk .completed → compared saved.base_blockhash saved.coins_hash) := by
  obtain ⟨chain, ended, shape⟩ := shutdown_eq
  obtain ⟨tree, _, active, sameTip, sameBest⟩ := flushState_ended ended
  rw [shape]
  split
  · rename_i on
    have moved : st.chain.Moved (chain.flushCoinsTip (io.flushView st.bgTip)) :=
      .of_same tree active sameTip ((flush_hashBlock).trans sameBest)
    exact ((inv.chain moved).persist (moved.snapshotActive.trans on) _).file
  · exact inv.file

/-- **Every step keeps the session**, if what it loads and matches is added to the history. -/
theorem step (inv : Session loaded compared st) (step : NodeStep params fine restarts st st')
    (more : ∀ b h, loaded b h → loaded' b h) (seen : ∀ b h, compared b h → compared' b h)
    (here : ∀ b h, HoldsSnapshot params b h st' → loaded' b h)
    (now : ∀ b h, Matches params b h st' → loaded' b h → compared' b h) :
    Session loaded' compared' st' := by
  have inv := inv.mono more seen
  cases step with
  | chain moved => exact inv.chain moved
  | background moved _ => exact (inv.chain moved).background now
  | partialLoad _ idle inactive => exact { inv with }
  | @load file idle inactive _ =>
    refine { inv with slot := ?_, parked := ?_ }
    · rintro _ _ _ ⟨⟩
      exact here _ _ ⟨_, _, _, rfl, rfl, rfl, rfl, rfl⟩
    intro on
    rw [inactive] at on
    cases on
  | activate _ ran => exact inv.activate ran now
  | restart _ _ ran => exact startup (inv.shutdown_file _) ran now
  | crash _ _ ran => exact startup inv.file ran now

theorem genesis (params : Params C) (coins : C) (addr : UInt256 ↪ ℕ) :
    Session loaded compared (genesis params coins addr) where
  aligned := by
    rintro _ ⟨⟩
    rfl
  validated := by rintro ⟨⟩
  completed := by rintro ⟨⟩
  active := by rintro ⟨⟩
  slot := by rintro _ _ _ ⟨⟩
  parked := by rintro ⟨⟩
  file := by rintro _ ⟨⟩

end Session

def Before (params : Params C) (allowed : NodeState C → Event C → Prop) (start : NodeState C)
    (P : NodeState C → Prop) (st : NodeState C) : Prop :=
  ∃ past, Reach params allowed start past ∧ Reach params allowed past st ∧ P past

section History
variable {start : NodeState C}

theorem Before.now (reach : Reach params allowed start st) (held : P st) :
    Before params allowed start P st :=
  ⟨st, reach, .start, held⟩

theorem Before.step (before : Before params allowed start P st) (permitted : allowed st event)
    (applied : st.apply params event = some st') : Before params allowed start P st' := by
  obtain ⟨past, reached, later, held⟩ := before
  exact ⟨past, reached, later.step permitted applied, held⟩

/-- A snapshot with base `b` and hash `h` was loaded, and later the background coins matched it. -/
def WasCompared (params : Params C) (allowed : NodeState C → Event C → Prop) (start : NodeState C)
    (b h : UInt256) : NodeState C → Prop :=
  Before params allowed start fun mid =>
    Before params allowed start (HoldsSnapshot params b h) mid ∧ Matches params b h mid

theorem Reach.session {addr : UInt256 ↪ ℕ}
    (reach : Reach params allowed (genesis params coins addr) st) :
    Session (fun b h => Before params allowed (genesis params coins addr) (HoldsSnapshot params b h) st)
      (fun b h => WasCompared params allowed (genesis params coins addr) b h st) st := by
  induction reach with
  | start => exact .genesis params coins addr
  | step before permitted applied ih =>
    have reached := before.step permitted applied
    refine ih.step (apply_step (fun _ => True) (by simp) applied)
      (fun b h was => was.step permitted applied) (fun b h was => was.step permitted applied)
      (fun b h held => .now reached held) fun b h same was => .now reached ⟨was, same⟩

end History
end NodeState

def SnapshotIo.WritesFailure (io : SnapshotIo) : Prop := ∀ b, io.persist b .failed = .written

def Event.WritesFailure (event : Event C) : Prop :=
  ∀ io, event.snapshotIo = some io → io.WritesFailure

namespace NodeState
variable {restarts : Bool} {st st' : NodeState C}

def FailureRecorded (st : NodeState C) : Prop :=
  st.bgStatus = .failed → st.chain.snapshotActive ∧
    ∃ saved, st.stateFile = some saved ∧ saved.status = statusToDisk .failed

theorem failBackground_recorded (on : st.chain.snapshotActive)
    (writes : io.WritesFailure) : FailureRecorded (st.failBackgroundValidation io) := by
  intro _
  refine ⟨by simpa using on, ?_⟩
  rw [failBackgroundValidation, writes]
  simp [persist, on, diskState]

theorem FailureRecorded.persist (was : st.FailureRecorded)
    (writes : st.bgStatus = .failed → w = .written) : (st.persist w).FailureRecorded := by
  intro failed
  rw [persist_bgStatus] at failed
  obtain ⟨on, _⟩ := was failed
  rw [writes failed]
  simp [NodeState.persist, on, diskState, failed]

theorem Settles.recorded (settled : Settles params io st st') (on : st.chain.snapshotActive)
    (writes : io.WritesFailure) (was : st.FailureRecorded) : st'.FailureRecorded := by
  cases settled with
  | kept | flushed f => exact was
  | failed f => exact failBackground_recorded on writes
  | completed f _ _ =>
    intro failed
    simp [completeBackgroundValidation] at failed

theorem stepBackground_recorded (writes : io.WritesFailure) (was : st.FailureRecorded) :
    (st.stepBackgroundValidation params io n).1.FailureRecorded ∧
      (st.bgStatus = .failed → (st.stepBackgroundValidation params io n).1.bgStatus = .failed) := by
  refine stepBackground_rule
    (I := fun _ s => s.1.chain.snapshotActive ∧ st.bgStatus ≠ .failed ∧ s.1.bgStatus ≠ .failed)
    (Q := fun r => r.1.FailureRecorded ∧ (st.bgStatus = .failed → r.1.bgStatus = .failed))
    ?_ ?_ ?_ ?_ ?_ ?_
  · exact fun _ => ⟨was, id⟩
  · intro on _ _
    exact ⟨failBackground_recorded on writes, fun _ => by simp [failBackgroundValidation]⟩
  · intro on going _ _
    have other : st.bgStatus ≠ .failed := by rcases going with going | going <;> simp [going]
    exact ⟨on, other, other⟩
  · rintro _ ⟨s, connected⟩ _ ⟨on, other, going⟩ turned
    cases turned with
    | connected joins _ => exact ⟨joins.moved.snapshotActive.trans on, other, by simp [joined, advance]⟩
    | flushed joins _ _ =>
      refine ⟨?_, other, by simp [joined, advance]⟩
      rw [persist_chain]
      exact joins.moved.snapshotActive.trans on
  · rintro _ ⟨s, connected⟩ r ⟨on, other, going⟩ turned
    refine ⟨?_, fun failed => absurd failed other⟩
    cases turned with
    | offBase _ _ | forked _ _ | unread _ _ | misplaced _ _ | undoFailed _ _ _
    | rejected _ _ _ _ _ => exact failBackground_recorded on writes
    | atBase _ atBase =>
      have settled : Settles params io s.seen _ := checkCoinsHash_settles atBase
      exact settled.recorded on writes fun failed => absurd failed going
    | waits _ _ _ =>
      intro failed
      simp at failed
    | flushFailed joins _ =>
      exact failBackground_recorded (joins.moved.snapshotActive.trans on) writes
  · rintro _ ⟨s, connected⟩ ⟨on, other, going⟩
    exact ⟨(stepFinish_settles).recorded on writes fun failed => absurd failed going,
      fun failed => absurd failed other⟩

variable {addr : UInt256 ↪ ℕ}

private theorem FailureRecorded.no_startup (was : st.FailureRecorded)
    (failed : st.bgStatus = .failed) : startup params io st.datadir addr ≠ some st' := by
  intro ran
  obtain ⟨on, _, file, failure⟩ := was failed
  have dir : st.datadir.chainstateSnapshot = some st.chain.pcoinsTip.db := by
    simp [datadir, on, ↓reduceIte]
  obtain ⟨chain, found, restored⟩ := startup_ok ran
  rcases maybeRestore_ok found.snapshotActive restored with
    ⟨noFile | noDir, _⟩ | ⟨read, _, _, restores, _⟩
  · have none := file.symm.trans noFile
    cases none
  · have none := dir.symm.trans noDir
    cases none
  have same := file.symm.trans restores.stateFile
  cases same
  exact restores.status failure

private theorem startup_recorded (writes : io.WritesFailure)
    (ran : startup params io dir addr = some st') : st'.FailureRecorded := by
  obtain ⟨_, found, restored⟩ := startup_ok ran
  rcases maybeRestore_ok found.snapshotActive restored with
    ⟨_, rfl | rfl⟩ | ⟨saved, coins, snapTip, restores, rfl⟩
  · rintro ⟨⟩
  · rintro ⟨⟩
  refine (settleRestored_settles).recorded rfl writes fun failed => ?_
  simp only [restoreSwap] at failed
  split at failed
  · cases failed
  · exact absurd (statusToDisk_statusFromDisk failed (by simp)) restores.status

theorem FailureRecorded.step (was : st.FailureRecorded)
    (step : NodeStep params SnapshotIo.WritesFailure restarts st st') :
    st'.FailureRecorded ∧ (st.bgStatus = .failed → st'.bgStatus = .failed) := by
  cases step with
  | chain moved =>
    exact ⟨fun failed => ⟨moved.snapshotActive.trans (was failed).1, (was failed).2⟩, id⟩
  | background moved writes =>
    refine stepBackground_recorded writes fun failed => ?_
    exact ⟨moved.snapshotActive.trans (was failed).1, (was failed).2⟩
  | partialLoad _ _ _ | load _ _ _ => exact ⟨was, id⟩
  | @activate io _ writes ran =>
    obtain ⟨coins, snapTip, info, chain, activates, rfl⟩ := activateLoaded_ok ran
    have settled : (swapped params io st coins snapTip info chain).FailureRecorded :=
      (settleAtTip_settles params io _).recorded rfl writes (by rintro ⟨⟩)
    refine ⟨settled.persist fun failed => ?_, fun failed => ?_⟩
    · rw [failed]
      exact writes _
    have on := (was failed).1
    rw [activates.inactive] at on
    cases on
  | @restart io _ _ _ writes ran =>
    refine ⟨startup_recorded writes ran, fun failed => ?_⟩
    obtain ⟨on, recorded⟩ := was failed
    obtain ⟨chain, ended, shape⟩ := shutdown_eq
    obtain ⟨_, _, active, _⟩ := flushState_ended ended
    have written : io.persist st.bgTip st.bgStatus = .written := failed ▸ writes _
    rw [shape, if_pos on, written] at ran
    have down : FailureRecorded { st with
        chain := chain.flushCoinsTip (io.flushView st.bgTip) } :=
      fun _ => ⟨active.trans on, recorded⟩
    exact absurd ran ((down.persist fun _ => rfl).no_startup (by simpa using failed))
  | crash _ writes ran =>
    exact ⟨startup_recorded writes ran, fun failed => absurd ran (was.no_startup failed)⟩

theorem Reach.failureRecorded
    (reach : Reach params (fun _ event => event.WritesFailure) (genesis params coins addr) st) :
    st.FailureRecorded :=
  reach.invariant (by rintro ⟨⟩) fun _ _ _ was writes applied =>
    (was.step (apply_step _ writes applied)).1

/-- **AssumeUTXO soundness.** A validated snapshot was compared: earlier a snapshot with its base
and hash was loaded, and after that the background coins stood at the base and hashed to the same
hash. A failed session never completes, as long as failures get written to the state file. -/
theorem validated_was_compared (params : Params C) (coins : C) (addr : UInt256 ↪ ℕ) :
    (∀ st, Reach params (fun _ _ => True) (genesis params coins addr) st → st.assumeutxoValidated →
      WasCompared params (fun _ _ => True) (genesis params coins addr) st.snapshotBaseHash
        st.expectedCoinsHash st) ∧
    ∀ st st', Reach params (fun _ event => event.WritesFailure) (genesis params coins addr) st →
      Reach params (fun _ event => event.WritesFailure) st st' → st.bgStatus = .failed →
      st'.bgStatus ≠ .completed := by
  constructor
  · intro st reach validated
    have session := reach.session
    exact session.completed (session.validated validated)
  intro st st' reach later failed
  have kept : st'.FailureRecorded ∧ st'.bgStatus = .failed := by
    refine later.invariant (I := fun st => st.FailureRecorded ∧ st.bgStatus = .failed)
      ⟨reach.failureRecorded, failed⟩ ?_
    rintro _ _ _ ⟨was, failed⟩ writes applied
    obtain ⟨recorded, still⟩ := was.step (apply_step _ writes applied)
    exact ⟨recorded, still failed⟩
  simp [kept.2]

def validatedRun : List (Event Unit) :=
  [.block {} (.child 2 1), .activateBestChain {} 3, .loadSnapshot {} (.of 2), .activateSnapshot {}]

/-- A snapshot of a header beside the tip is activated, and one step of validation fails. -/
def forkedRun : List (Event Unit) :=
  [.block {} (.child 2 1), .activateBestChain {} 3, .header (.child 3 1), .loadSnapshot {} (.of 3),
    .activateSnapshot {}, .stepBackground {} 1]

theorem validated_was_compared_runs :
    (∃ st, (genesis .permissive () hashOrder).run .permissive validatedRun = some st ∧
      WasCompared .permissive (fun _ _ => True) (genesis .permissive () hashOrder) 2 3 st) ∧
    ∃ st st', (genesis .permissive () hashOrder).run .permissive forkedRun = some st ∧
      st.bgStatus = .failed ∧ st.run .permissive [.header (.child 4 3)] = some st' ∧
      st'.bgStatus ≠ .completed := by
  have sound := validated_was_compared .permissive () hashOrder
  have writes : ∀ event ∈ forkedRun ++ [.header (.child 4 3)],
      ∀ st : NodeState Unit, Event.WritesFailure event := by
    intro event member st _ used _
    simp only [forkedRun, cons_append, nil_append, mem_cons, not_mem_nil, or_false] at member
    rcases member with rfl | rfl | rfl | rfl | rfl | rfl | rfl <;> cases used <;> rfl
  refine ⟨⟨_, rfl, ?_⟩, _, _, rfl, rfl, rfl, ?_⟩
  · exact sound.1 _ (.of_run validatedRun (fun _ _ _ => trivial) rfl) rfl
  · exact sound.2 _ _ (.of_run forkedRun (fun e m => writes e (mem_append_left _ m)) rfl)
      (.of_run [.header (.child 4 3)] (fun e m => writes e (mem_append_right _ m)) rfl) rfl

/-- Two bodies arrive, a snapshot of the second block is activated, and a step of validation meets
a read error; the failure does not get written. -/
def unrecordedFailure : List (Event Unit) :=
  [.block {} (.child 2 1), .block {} (.child 3 2), .loadSnapshot {} (.of 3), .activateSnapshot {},
    .stepBackground { chain := { readBlock := fun _ => false }, persist := fun _ _ => .unchanged } 1]

/-- A failure that is not in the state file is forgotten at the next crash, and the session goes on
to complete. -/
theorem failed_then_completed :
    ∃ failed completed, (genesis .permissive () hashOrder).run .permissive unrecordedFailure =
        some failed ∧ failed.bgStatus = .failed ∧
      failed.run .permissive [.crash {} hashOrder, .stepBackground {} 2] = some completed ∧
      completed.bgStatus = .completed :=
  ⟨_, _, rfl, rfl, rfl, rfl⟩

end NodeState
end DogecoinCore
