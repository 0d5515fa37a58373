import DogecoinCore.BackgroundRestart

/-! `dumptxoutset` among the other threads. It flushes, reads the best block, and then walks the
coins database three times; each walk sees the database as it was when its cursor was made.
Between any two of these, other threads may connect or disconnect a block or flush. -/
namespace DogecoinCore
open ChainState NodeState

/-- A dumped snapshot: its header, and the database its records were read from. -/
structure DumpFile (C : Type) where
  base_blockhash : UInt256
  coins_count : ℕ
  source : CoinsView C

/-- How far `dumptxoutset` has come. -/
inductive DumpPhase (C : Type) where
  | start
  | flushed
  | based (base_hash : UInt256)
  | counted (base_hash : UInt256) (expected : ℕ)
  | written (file : DumpFile C)
  | done (file : DumpFile C) (hash_serialized : Option UInt256)
  | failed (error : String)

structure DumpIo where
  flush : FlushIo := {}
  cursor : Bool := true
  write : Bool := true

/-- One operation of another thread, under `cs_main`. -/
inductive OtherThread where
  | connectTip (io : ChainIo) (pindexNew : UInt256)
  | disconnectTip (io : ChainIo)
  | flush (mode : FlushStateMode) (io : FlushIo)

inductive DumpStep where
  | dump (io : DumpIo)
  | other (thread : OtherThread)

structure DumpState (C : Type) where
  chain : ChainState C
  phase : DumpPhase C := .start

namespace DumpState
variable {C : Type}

structure Digest (C : Type) where
  hashSerialized : CoinsView C → UInt256
  count : C → ℕ

/-- The next step of `dumptxoutset`. The result of the flush is not looked at. -/
def dumptxoutset (digest : Digest C) (io : DumpIo) (s : DumpState C) : Option (DumpState C) :=
  let db := s.chain.pcoinsTip.db
  match s.phase with
  | .start =>
    match s.chain.flushStateToDisk .always io.flush with
    | .ok chain | .fail chain => some ⟨chain, .flushed⟩
    | .abort => none
  | .flushed =>
    match s.chain.pcoinsTip.view.hashBlock with
    | none => some { s with phase := .failed "Coins tip has null best block" }
    | some base_hash =>
      if base_hash ∈ s.chain.tree.blocks then some { s with phase := .based base_hash }
      else some { s with phase := .failed "Best block not found in block index" }
  | .based base_hash =>
    if !io.cursor then some { s with phase := .failed "Unable to open coins cursor" }
    else some { s with phase := .counted base_hash (digest.count db.coins) }
  | .counted base_hash expected =>
    if !io.cursor then some { s with phase := .failed "Unable to open coins cursor for dump" }
    else if !io.write then some { s with phase := .failed "Failed while writing coins" }
    else if digest.count db.coins ≠ expected then
      some { s with phase := .failed ("Coin count mismatch while writing (wrote " ++
        toString (digest.count db.coins) ++ ", expected " ++ toString expected ++ ")") }
    else some { s with phase := .written ⟨base_hash, expected, db⟩ }
  | .written file =>
    some { s with phase := .done file (if io.cursor then some (digest.hashSerialized db) else none) }
  | .done _ _ | .failed _ => none

def otherThread (rules : Consensus C) (chain : ChainState C) : OtherThread → Option (ChainState C)
  | .connectTip io pindexNew =>
    match chain.connectTip rules io pindexNew with
    | .ok (.connected chain) | .ok (.invalid chain) => some chain
    | _ => none
  | .disconnectTip io =>
    match chain.disconnectTip rules io with
    | .ok chain => some chain
    | _ => none
  | .flush mode io =>
    match chain.flushStateToDisk mode io with
    | .ok chain => some chain
    | _ => none

def step (rules : Consensus C) (digest : Digest C) (s : DumpState C) :
    DumpStep → Option (DumpState C)
  | .dump io => s.dumptxoutset digest io
  | .other thread => (otherThread rules s.chain thread).map fun chain => { s with chain := chain }

variable {s s' start : DumpState C}
  {chain chain' : ChainState C}

/-- The flush of the dump goes through; while the best block is still to be read, no other thread
moves the tip; and from then until the last cursor is made, none writes the coins database. -/
def Quiet (rules : Consensus C) (s : DumpState C) : DumpStep → Prop
  | .dump io => s.phase matches .start → io.flush.Fine
  | .other thread => ∀ chain, otherThread rules s.chain thread = some chain → match s.phase with
    | .flushed => chain.pcoinsTip.view = s.chain.pcoinsTip.view
    | .based _ | .counted _ _ | .written _ => chain.pcoinsTip.db = s.chain.pcoinsTip.db
    | _ => True

inductive Reachable (rules : Consensus C) (digest : Digest C) (chain : ChainState C) :
    DumpState C → Prop
  | start : Reachable rules digest chain ⟨chain, .start⟩
  | step {s s' : DumpState C} {a : DumpStep} : Reachable rules digest chain s → s.Quiet rules a →
      s.step rules digest a = some s' → Reachable rules digest chain s'

/-- The header of the file names the best block of the database that the records were read from, and
their number. -/
structure Labelled (digest : Digest C) (file : DumpFile C) : Prop where
  base : file.source.hashBlock = some file.base_blockhash
  count : file.coins_count = digest.count file.source.coins

def Holds (digest : Digest C) (s : DumpState C) : Prop :=
  match s.phase with
  | .flushed => s.chain.pcoinsTip.db = s.chain.pcoinsTip.view
  | .based base_hash | .counted base_hash _ => s.chain.pcoinsTip.db.hashBlock = some base_hash
  | .written file => file.source = s.chain.pcoinsTip.db ∧ Labelled digest file
  | .done file hash_serialized => Labelled digest file ∧
    ∀ hash, hash_serialized = some hash → hash = digest.hashSerialized file.source
  | .start | .failed _ => True

theorem db_of_flushed (flushed : ChainState.Flushed chain chain') :
    chain'.pcoinsTip.view = chain.pcoinsTip.view ∧
      (chain'.pcoinsTip.db = chain.pcoinsTip.db ∨ chain'.pcoinsTip.db = chain.pcoinsTip.view) := by
  cases flushed with
  | skip | index => exact ⟨rfl, .inl rfl⟩
  | full => exact ⟨rfl, .inr rfl⟩

private theorem db_otherThread (ran : otherThread rules chain thread = some chain') :
    chain'.pcoinsTip.db = chain.pcoinsTip.db ∨ chain'.pcoinsTip.db = chain'.pcoinsTip.view := by
  unfold otherThread at ran
  cases thread with
  | connectTip io _ =>
    dsimp only at ran
    split at ran
    · rename_i connected
      cases ran
      obtain ⟨accepted, coins, flushed, -, -, -, accepts, writes, rfl⟩ :=
        connectTip_connected connected
      have same : accepted.pcoinsTip = chain.pcoinsTip := by
        cases accepts with
        | genesis => rfl
        | block =>
          unfold writeUndo
          split <;> rfl
      obtain ⟨view, db⟩ := db_of_flushed writes
      rw [view]
      exact db.imp_left (·.trans (by rw [withTip, same]))
    · rename_i invalid
      cases ran
      obtain ⟨-, -, -, -, rfl⟩ := connectTip_invalid invalid
      exact .inl rfl
    · cases ran
  | disconnectTip io =>
    dsimp only at ran
    split at ran
    · rename_i disconnected
      cases ran
      obtain ⟨_, coins, flushed, -, -, -, -, -, writes, rfl⟩ := disconnectTip_ok disconnected
      obtain ⟨view, db⟩ := db_of_flushed writes
      rw [view]
      exact db
    · cases ran
  | flush _ io =>
    dsimp only at ran
    split at ran
    · rename_i flushed
      cases ran
      obtain ⟨view, db⟩ := db_of_flushed (flushState_ok flushed)
      rw [view]
      exact db
    · cases ran

theorem holds_dump (holds : s.Holds digest)
    (quiet : s.Quiet rules (.dump io)) (ran : s.dumptxoutset digest io = some s') :
    s'.Holds digest := by
  obtain ⟨_, phase⟩ := s
  unfold dumptxoutset at ran
  cases phase with
  | start =>
    have fine := quiet rfl
    rw [flushState_always fine] at ran
    cases ran
    rfl
  | flushed =>
    dsimp only at ran
    split at ran
    · cases ran
      trivial
    case h_2 base_hash best =>
      split at ran
      · cases ran
        exact (congrArg CoinsView.hashBlock holds).trans best
      · cases ran
        trivial
  | based base_hash =>
    dsimp only at ran
    split at ran
    · cases ran
      trivial
    · cases ran
      exact holds
  | counted base_hash _ =>
    dsimp only at ran
    split at ran
    · cases ran
      trivial
    split at ran
    · cases ran
      trivial
    split at ran
    · cases ran
      trivial
    case isFalse count =>
      cases ran
      exact ⟨rfl, holds, (not_not.1 count).symm⟩
  | written file =>
    cases ran
    refine ⟨holds.2, fun hash found => ?_⟩
    split at found
    · cases found
      rw [holds.1]
    · cases found
  | done file hash | failed _ => cases ran

theorem holds_other (holds : s.Holds digest) (quiet : s.Quiet rules (.other thread))
    (ran : otherThread rules s.chain thread = some chain) :
    Holds digest { s with chain := chain } := by
  have kept := quiet chain ran
  have db := db_otherThread ran
  obtain ⟨_, phase⟩ := s
  cases phase with
  | start | failed _ => trivial
  | flushed => exact db.elim (fun same => same.trans (Eq.trans holds kept.symm)) id
  | based base_hash | counted base_hash _ => exact (congrArg CoinsView.hashBlock kept).trans holds
  | written file => exact ⟨holds.1.trans kept.symm, holds.2⟩
  | done file _ => exact holds

theorem holds_step (holds : s.Holds digest) (quiet : s.Quiet rules a)
    (ran : s.step rules digest a = some s') : s'.Holds digest := by
  cases a with
  | dump _ => exact holds_dump holds quiet ran
  | other _ =>
    obtain ⟨_, completed, rfl⟩ := Option.map_eq_some_iff.1 ran
    exact holds_other holds quiet completed

theorem Reachable.holds (reach : Reachable rules digest chain s) : s.Holds digest := by
  induction reach with
  | start => trivial
  | step _ quiet ran ih => exact holds_step ih quiet ran

/-- In a quiet run a dump that succeeds has labelled its records with their best block, and the digest
it returns is that of the same records. -/
theorem dumptxoutset_atomic (rules : Consensus C) (digest : Digest C) (chain : ChainState C)
    (s : DumpState C) (reach : Reachable rules digest chain s) (file : DumpFile C)
    (hash_serialized : Option UInt256) (done : s.phase = .done file hash_serialized) :
    file.source.hashBlock = some file.base_blockhash ∧
      file.coins_count = digest.count file.source.coins ∧
      ∀ hash, hash_serialized = some hash → hash = digest.hashSerialized file.source := by
  have holds := reach.holds
  unfold Holds at holds
  rw [done] at holds
  exact ⟨holds.1.base, holds.1.count, holds.2⟩

def permissiveDigest : Digest Unit where
  hashSerialized := Params.permissive.hashSerialized
  count _ := 1

/-- A node that has stored block 2 on its genesis block 1, but not connected it. -/
def storedBlock : Option (ChainState Unit) :=
  ((genesis .permissive () hashOrder).run .permissive
    [.block {} (.child 2 1)]).map (·.chain)

/-- A block is connected after the best block was read. -/
theorem dumptxoutset_atomic_connects :
    ∃ chain s file hash, storedBlock = some chain ∧
      Reachable Params.permissive.toConsensus permissiveDigest chain s ∧
      s.chain.chainActive = some 2 ∧ s.phase = .done file (some hash) ∧
      file.source.hashBlock = some file.base_blockhash ∧ file.base_blockhash = 1 ∧
      hash = permissiveDigest.hashSerialized file.source := by
  have begins : Reachable Params.permissive.toConsensus permissiveDigest (storedBlock.get rfl) _ := .start
  have flushed := begins.step (a := .dump {}) (fun _ => ⟨rfl, rfl, rfl, rfl⟩) rfl
  have based := flushed.step (a := .dump {}) (fun _ => ⟨rfl, rfl, rfl, rfl⟩) rfl
  have connected := based.step (a := .other (.connectTip {} 2)) (by rintro _ ⟨⟩; rfl) rfl
  have counted := connected.step (a := .dump {}) (fun _ => ⟨rfl, rfl, rfl, rfl⟩) rfl
  have written := counted.step (a := .dump {}) (fun _ => ⟨rfl, rfl, rfl, rfl⟩) rfl
  have done := written.step (a := .dump {}) (fun _ => ⟨rfl, rfl, rfl, rfl⟩) rfl
  have atomic := dumptxoutset_atomic _ _ _ _ done _ _ rfl
  exact ⟨_, _, _, _, rfl, done, rfl, rfl, atomic.1, rfl, atomic.2.2 _ rfl⟩

/-- A block is connected between the flush and the read of the best block: the file says block 2, but
its records are those at block 1. -/
theorem dumptxoutset_mislabels : ∃ chain s file hash, storedBlock = some chain ∧
      [.dump {}, .other (.connectTip {} 2), .dump {}, .dump {}, .dump {}, .dump {}].foldlM
        (step Params.permissive.toConsensus permissiveDigest) ⟨chain, .start⟩ = some s ∧
      s.phase = .done file (some hash) ∧ file.base_blockhash = 2 ∧
      file.source.hashBlock = some 1 := by
  exact ⟨_, _, _, _, rfl, rfl, rfl, by decide, by decide⟩

end DumpState
end DogecoinCore
