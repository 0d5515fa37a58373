import DogecoinCore.ByteStream
import DogecoinCore.FileSystem
import DogecoinCore.NodeInvariant

/-! How assumeutxo.dat and a dumped snapshot come to their place: written to a temporary file,
which replaces the old one. -/
namespace DogecoinCore
open FsCall List NodeState

namespace AssumeUtxoDiskState
/-- What `WriteAssumeUtxoDiskState` writes, item by item. -/
def fields (st : AssumeUtxoDiskState) : List (List UInt8) :=
  [littleEndian 4 1, littleEndian 32 st.base_blockhash.toNat, littleEndian 32 st.coins_hash.toNat,
    littleEndian 8 st.coins_count, littleEndian 1 st.status,
    littleEndian 4 (st.bg_height % 2 ^ 32).toNat]

def serialize (st : AssumeUtxoDiskState) : List UInt8 := st.fields.flatten

/-- The stream that `ReadAssumeUtxoDiskState` reads. -/
def read : Reader AssumeUtxoDiskState := do
  let version ← readLittleEndian 4
  if version ≠ 1 then failure
  let base_blockhash ← readLittleEndian 32
  let coins_hash ← readLittleEndian 32
  let coins_count ← readLittleEndian 8
  let status ← readLittleEndian 1
  let bg_height ← readLittleEndian 4
  pure
    { base_blockhash := BitVec.ofNat 256 base_blockhash
      coins_hash := BitVec.ofNat 256 coins_hash
      coins_count := coins_count
      status := status
      bg_height := (bg_height : ℤ).bmod (2 ^ 32) }

/-- The fields fit a `uint64_t`, a `uint8_t` and an `int32_t`. -/
structure InRange (st : AssumeUtxoDiskState) : Prop where
  coins_count : st.coins_count < 2 ^ 64
  status : st.status < 2 ^ 8
  bg_height : -2 ^ 31 ≤ st.bg_height ∧ st.bg_height < 2 ^ 31

theorem reads_serialize (fits : st.InRange) : Reader.Reads read st.serialize st := by
  have height : (st.bg_height % 2 ^ 32).toNat < 256 ^ 4 := by omega
  have back : (((st.bg_height % 2 ^ 32).toNat : ℤ)).bmod (2 ^ 32) = st.bg_height := by
    have range := fits.bg_height
    rw [Int.toNat_of_nonneg (by omega), Int.bmod_def]
    split <;> omega
  refine (reads_littleEndian 4 1 (by decide)).bind ?_
  refine (reads_littleEndian 32 _ st.base_blockhash.isLt).bind ?_
  refine (reads_littleEndian 32 _ st.coins_hash.isLt).bind ?_
  refine (reads_littleEndian 8 _ fits.coins_count).bind ?_
  refine (reads_littleEndian 1 _ fits.status).bind ?_
  refine (reads_littleEndian 4 _ height).bind_pure _ ?_
  rw [back, BitVec.ofNat_toNat, BitVec.ofNat_toNat]
  rfl

end AssumeUtxoDiskState

def writeItems (tmp : String) (items : List (List UInt8)) : List (FsCall String (List UInt8)) :=
  write tmp (fun _ => []) :: items.map fun item => write tmp fun old => old.getD [] ++ item

theorem writeOnly_writeItems : WriteOnly tmp (writeItems tmp items) := by
  intro _ mem
  rcases mem_cons.1 mem with rfl | item
  · exact ⟨_, rfl⟩
  · obtain ⟨_, -, rfl⟩ := mem_map.1 item
    exact ⟨_, rfl⟩

theorem run_append_items (items : List (List UInt8))
    (files : Files String (List UInt8)) (has : files tmp = some done) :
    run (items.map fun item => write tmp fun old => old.getD [] ++ item) files tmp =
      some (done ++ items.flatten) := by
  induction items generalizing files done with
  | nil => simpa using has
  | cons item _ ih =>
    have next : (write tmp fun old => old.getD [] ++ item).apply files tmp = some (done ++ item) := by
      simp [FsCall.apply, has]
    rw [map_cons, run_cons, ih _ next, flatten_cons, append_assoc]

theorem run_writeItems {files : Files String (List UInt8)} :
    run (writeItems tmp items) files tmp = some items.flatten :=
  run_append_items items _ (Function.update_self _ _ _)

def tmpPath (path : String) : String := path ++ ".tmp"

theorem ne_tmpPath : path ≠ tmpPath path := by
  intro same
  have length := congrArg String.length same
  rw [tmpPath, String.length_append] at length
  exact absurd length (by simp)

/-- The file-system calls of `WriteAssumeUtxoDiskState`. -/
def writeAssumeUtxoDiskState (files : Files String (List UInt8)) (path : String)
    (st : AssumeUtxoDiskState) : List (FsCall String (List UInt8)) :=
  let writes := writeItems (tmpPath path) st.fields
  writes ++ replace (run writes files) (tmpPath path) path

/-- The last calls of `WriteUTXOSnapshot`, once the snapshot is in the temporary file. -/
def replaceUTXOSnapshot (files : Files String (List UInt8)) (path : String) :
    List (FsCall String (List UInt8)) :=
  replace files (tmpPath path) path

def readAssumeUtxoDiskState (files : Files String (List UInt8)) (path : String) :
    Option AssumeUtxoDiskState :=
  (files path).bind fun bytes => (AssumeUtxoDiskState.read bytes).map Prod.fst

theorem readDiskState_eq (fits : st.InRange) (has : files path = some st.serialize) :
    readAssumeUtxoDiskState files path = some st := by
  have back := AssumeUtxoDiskState.reads_serialize fits []
  rw [append_nil] at back
  simp [readAssumeUtxoDiskState, has, back]

private theorem maybeRestore_restores {params : Params C} {io : SnapshotIo}
    {st st' : NodeState C} (fresh : st.chain.snapshotActive = false) (file : st.stateFile.isSome)
    (dir : st.snapshotDir.isSome) (ran : st.maybeRestoreAssumeUtxo params io = .ok st') :
    st'.chain.snapshotActive := by
  rcases maybeRestore_ok fresh ran with ⟨missing | missing, -⟩ | restored
  · simp [missing] at file
  · simp [missing] at dir
  obtain ⟨_, _, _, -, rfl⟩ := restored
  rw [settleRestored_chain]
  rfl

/-- A crash in `WriteAssumeUtxoDiskState` leaves the previous record or the new one, and the next
start takes a snapshot that was active, exactly if there was no previous record or the crash is
not the one between the deletion and the rename. The replacement of a dumped snapshot is no
better. -/
theorem writeAssumeUtxoDiskState_atomic_iff {C : Type} (params : Params C) (io : SnapshotIo)
    (path : String) :
    (∀ (files : Files String (List UInt8)) (previous : Option AssumeUtxoDiskState)
        (new : AssumeUtxoDiskState) (k : ℕ) (st : NodeState C),
        files path = previous.map AssumeUtxoDiskState.serialize → (∀ old ∈ previous, old.InRange) →
        new.InRange → st.chain.snapshotActive = false → st.snapshotDir.isSome →
        st.stateFile = readAssumeUtxoDiskState
          (run ((writeAssumeUtxoDiskState files path new).take k) files) path →
        ((OldOrNew (writeAssumeUtxoDiskState files path new) k files path new.serialize ∧
          (previous.isSome → ∀ st', st.maybeRestoreAssumeUtxo params io = .ok st' →
            st'.chain.snapshotActive = true)) ↔
        previous = none ∨ k + 1 ≠ (writeAssumeUtxoDiskState files path new).length)) ∧
      ∀ (files : Files String (List UInt8)) (snapshot : List UInt8) (k : ℕ),
        files (tmpPath path) = some snapshot →
        (OldOrNew (replaceUTXOSnapshot files path) k files path snapshot ↔
          files path = none ∨ k + 1 ≠ (replaceUTXOSnapshot files path).length) := by
  constructor
  · intro files previous new k st old oldFits newFits fresh dir file
    have full : run (writeItems (tmpPath path) new.fields) files (tmpPath path) =
        some new.serialize := run_writeItems
    have atomic := oldOrNew_write_replace_iff (writeOnly_writeItems)
      (ne_tmpPath) full k
    have none_iff : files path = none ↔ previous = none := by rw [old, Option.map_eq_none_iff]
    rw [none_iff] at atomic
    refine (and_iff_left_of_imp fun complete had st' ran => ?_).trans atomic
    refine maybeRestore_restores fresh ?_ dir ran
    obtain ⟨record, rfl⟩ := Option.isSome_iff_exists.1 had
    rw [file]
    rcases complete with kept | written
    · rw [readDiskState_eq (oldFits record rfl) (kept.trans old)]
      rfl
    · rw [readDiskState_eq newFits written]
      rfl
  · intro files snapshot k full
    have nothing : WriteOnly (tmpPath path) ([] : List (FsCall String (List UInt8))) := by rintro _ ⟨⟩
    exact oldOrNew_write_replace_iff nothing (ne_tmpPath) full k

def runningRecord (height : ℤ) : AssumeUtxoDiskState where
  base_blockhash := 100
  coins_hash := 7
  coins_count := 5
  status := statusToDisk .running
  bg_height := height

def oneRecord : Files String (List UInt8) := fun path =>
  if path = "assumeutxo.dat" then some (runningRecord 1).serialize else none

/-- A node that was started over a directory, before it looks for a snapshot. -/
def startedOver (files : Files String (List UInt8)) : NodeState Unit :=
  let genesis := genesis .permissive () hashOrder
  { genesis with
    stateFile := readAssumeUtxoDiskState files "assumeutxo.dat"
    snapshotDir := some { hashBlock := some 100, coins := () } }

/-- A crash while the temporary file is written. -/
theorem writeAssumeUtxoDiskState_atomic_early :
    OldOrNew (writeAssumeUtxoDiskState oneRecord "assumeutxo.dat" (runningRecord 2)) 3 oneRecord
      "assumeutxo.dat" (runningRecord 2).serialize :=
  (((writeAssumeUtxoDiskState_atomic_iff .permissive {} "assumeutxo.dat").1 oneRecord
    (some (runningRecord 1)) (runningRecord 2) 3
    (startedOver (run ((writeAssumeUtxoDiskState oneRecord "assumeutxo.dat"
      (runningRecord 2)).take 3) oneRecord)) rfl
    (by rintro _ ⟨⟩; exact ⟨by decide, by decide, by decide⟩) ⟨by decide, by decide, by decide⟩ rfl rfl
    rfl).2 (.inr (by decide))).1

/-- A crash after the eighth call, the deletion: the record is gone, and the next start goes on
without the snapshot. -/
theorem writeAssumeUtxoDiskState_loses_record :
    let crashed := run ((writeAssumeUtxoDiskState oneRecord "assumeutxo.dat"
      (runningRecord 2)).take 8) oneRecord
    crashed "assumeutxo.dat" = none ∧
      (startedOver crashed).maybeRestoreAssumeUtxo .permissive {} = .ok (startedOver crashed) ∧
      (startedOver crashed).chain.snapshotActive = false := by
  have gone : run ((writeAssumeUtxoDiskState oneRecord "assumeutxo.dat" (runningRecord 2)).take 8)
      oneRecord "assumeutxo.dat" = none := by decide
  refine ⟨gone, ?_, rfl⟩
  unfold maybeRestoreAssumeUtxo
  rfl

end DogecoinCore
