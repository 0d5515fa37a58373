import DogecoinCore.FileSystem
import DogecoinCore.DbSession
import DogecoinCore.SnapshotFollow
import DogecoinCore.SnapshotRoundTrip

/-! Loading a snapshot while another one is active. Its database is open, in the same directory
that the load wipes: LevelDB refuses that, and MDBX does not. -/
namespace DogecoinCore
open Option DbDir Coins

abbrev DirFiles := Files String String

namespace DirFiles
def dbDir (files : DirFiles) : DbDir where
  stamp := files "ENGINE"
  leveldb := (files "CURRENT").map fun _ => []
  mdbx := ((files "mdbx.dat").or (files "data.mdb")).map fun _ => []

structure InUse (files : DirFiles) (used : DbEngine) : Prop where
  has : (files.dbDir.files used).isSome
  consistent : files.dbDir.Consistent

/-- What a wipe and an open that get through do next, and how the open ends. -/
structure ReopenIo where
  opened : Bool := true
  calls : List (FsCall String String) := []

def wipeMdbxFiles : List (FsCall String String) :=
  ["mdbx.dat", "mdbx.lck", "data.mdb", "lock.mdb", "ENGINE"].map .remove

/-- The constructor of `CDBWrapper` on a directory that a wrapper of engine `used` has open, with
a wipe: its calls, and whether it returns. `DestroyDB` finds the lock of the directory held by the
process, and does nothing. -/
def reopen (files : DirFiles) (used : DbEngine) (dbengine : Option String) (io : ReopenIo) :
    List (FsCall String String) × Bool :=
  let engine := files.dbDir.selectDbEngine .none dbengine
  if engine = .unknown then ([], false)
  else
    let existing := files.dbDir.detectExistingEngine
    if existing ≠ .none && existing ≠ engine then ([], false)
    else if engine = .mdbx then (wipeMdbxFiles ++ io.calls, io.opened)
    else if used = .leveldb then ([], false)
    else (io.calls, io.opened)

variable {files : DirFiles} {used : DbEngine}

theorem InUse.detect (inUse : files.InUse used) : files.dbDir.detectExistingEngine =
    if files.dbDir.stampEngine = some .unknown then .unknown else used := by
  split
  case isTrue unknown =>
    unfold detectExistingEngine
    rw [unknown]
  case isFalse known =>
    rcases detect_of_files inUse.consistent inUse.has with found | found
    · exact found
    -- Without a stamp of another name the files decide, and they name an engine.
    rcases (inUse.consistent used inUse.has).2 with none | same | unknown
    · unfold detectExistingEngine at found
      rw [none] at found
      dsimp only at found
      split at found
      · cases found
      · split at found <;> cases found
    · unfold detectExistingEngine at found
      rw [same] at found
      rcases supported_of_files inUse.has with rfl | rfl
      · dsimp only at found
        split at found <;> cases found
      · dsimp only at found
        split at found <;> cases found
    · exact absurd unknown known

private theorem InUse.reopen_eq (inUse : files.InUse used) (dbengine : Option String) (io : ReopenIo) :
    files.reopen used dbengine io = if used = .mdbx ∧ files.dbDir.stampEngine ≠ some .unknown then
        (wipeMdbxFiles ++ io.calls, io.opened)
      else ([], false) := by
  have detected := inUse.detect
  unfold reopen
  by_cases unknown : files.dbDir.stampEngine = some .unknown
  · rw [if_pos unknown] at detected
    have spared : ¬ (used = .mdbx ∧ files.dbDir.stampEngine ≠ some .unknown) :=
      fun both => both.2 unknown
    rw [if_neg spared, detected]
    by_cases hidden : files.dbDir.selectDbEngine .none dbengine = .unknown
    · rw [if_pos hidden]
    · rw [if_neg hidden, if_pos (by simpa using Ne.symm hidden)]
  rw [if_neg unknown] at detected
  rcases supported_of_files inUse.has with rfl | rfl
  · have selected : files.dbDir.selectDbEngine .none dbengine = .leveldb := by
      simp [selectDbEngine, detected]
    rw [selected, detected]
    rfl
  have selected : files.dbDir.selectDbEngine .none dbengine = .mdbx := by
    simp [selectDbEngine, detected]
  have wiped : DbEngine.mdbx = .mdbx ∧ files.dbDir.stampEngine ≠ some .unknown := ⟨rfl, unknown⟩
  rw [selected, detected, if_pos wiped]
  rfl

private theorem run_wipe (files : DirFiles) : FsCall.run wipeMdbxFiles files "mdbx.dat" = none ∧
      FsCall.run wipeMdbxFiles files "data.mdb" = none := by
  simp [wipeMdbxFiles, FsCall.apply]

end DirFiles

namespace Coins
/-- The checks of the header that `LoadUTXOSnapshot` makes before it allocates the database. -/
def AcceptableHeader (params : SnapshotParams) (file : Option (List UInt8)) : Prop :=
  ∃ bytes metadata afile, file = some bytes ∧
    SnapshotMetadata.unserialize bytes = .ok (metadata, afile) ∧
    metadata.network_magic = params.messageStart ∧ metadata.base_blockhash ≠ 0 ∧
    metadata.coins_count ≤ 500000000

private theorem admitSnapshot_cases : ¬ (bg.coinsTip = none ∧ AcceptableHeader params file) ∧
        (∃ error, admitSnapshot params path (some bg) file = .error error) ∨
      (bg.coinsTip = none ∧ AcceptableHeader params file) ∧
        ∃ metadata afile, admitSnapshot params path (some bg) file = .ok (bg, metadata, afile) := by
  unfold admitSnapshot AcceptableHeader
  dsimp only
  split
  case isTrue held =>
    simp only [Bool.and_eq_true] at held
    exact .inl ⟨fun both => absurd both.1 (isSome_iff_ne_none.1 held.1), _, rfl⟩
  case isFalse =>
    split
    case isTrue held => exact .inl ⟨fun both => absurd both.1 (isSome_iff_ne_none.1 held), _, rfl⟩
    case isFalse free =>
      have free := not_isSome_iff_eq_none.1 free
      cases file with
      | none => exact .inl ⟨by simp, _, rfl⟩
      | some bytes =>
        dsimp only
        cases parsed : SnapshotMetadata.unserialize bytes with
        | error _ => exact .inl ⟨by simp [parsed], _, rfl⟩
        | ok header =>
          obtain ⟨metadata, afile⟩ := header
          dsimp only
          have read : ∀ {P : SnapshotMetadata → Prop}, (∃ bytes' metadata' afile',
              some bytes = some bytes' ∧
                SnapshotMetadata.unserialize bytes' = .ok (metadata', afile') ∧ P metadata') →
              P metadata := by
            rintro P ⟨_, metadata', afile', ⟨⟩, same, holds⟩
            cases parsed.symm.trans same
            exact holds
          split
          case isTrue magic => exact .inl ⟨fun both => magic (read both.2).1, _, rfl⟩
          case isFalse magic =>
            split
            case isTrue base => exact .inl ⟨fun both => (read both.2).2.1 base, _, rfl⟩
            case isFalse base =>
              split
              case isTrue many =>
                exact .inl ⟨fun both => absurd many (not_lt.2 (read both.2).2.2), _, rfl⟩
              case isFalse few =>
                exact .inr ⟨⟨free, bytes, metadata, afile, rfl, parsed, not_not.1 magic, base,
                  not_lt.1 few⟩, metadata, afile, rfl⟩

/-- What a load does to chainstate_snapshot/ while the database there is open, and whether the
allocation opens it. -/
def reloadCalls (params : SnapshotParams) (path : String) (bg : SnapshotSlot)
    (file : Option (List UInt8)) (files : DirFiles) (used : DbEngine) (dbengine : Option String)
    (io : DirFiles.ReopenIo) : List (FsCall String String) × Bool :=
  match admitSnapshot params path (some bg) file with
  | .error _ => ([], false)
  | .ok (bg, _, _) =>
    if bg.active_role && !bg.has_snapshot then ([], false) else files.reopen used dbengine io

/-- The load returns false, and at no point of it are the files other than before. -/
def LoadLeavesAlone (params : SnapshotParams) (path : String) (bg : SnapshotSlot)
    (file : Option (List UInt8)) (files : DirFiles) (used : DbEngine) (dbengine : Option String)
    (io : DirFiles.ReopenIo) : Prop :=
  let (calls, opened) := reloadCalls params path bg file files used dbengine io
  (∃ slot error, loadUTXOSnapshot params opened path (some bg) file = .fail (slot, error)) ∧
    ∀ k, FsCall.run (calls.take k) files = files

theorem loadUTXOSnapshot_unopened :
    ∃ slot error, loadUTXOSnapshot params false path (some bg) file = .fail (slot, error) := by
  unfold loadUTXOSnapshot
  split
  · exact ⟨_, _, rfl⟩
  case h_2 slot metadata afile _ =>
    have refused : (slot.allocateCoinsDB false).1 = false := by
      unfold SnapshotSlot.allocateCoinsDB
      split <;> rfl
    dsimp only
    rw [refused]
    exact ⟨_, _, rfl⟩

end Coins

variable {C : Type}

/-- The `CChainState` in the background slot. -/
def BackgroundSlot.Shows : BackgroundSlot C → Coins.SnapshotSlot → Prop
  | .idle, bg => bg.active_role = false ∧ bg.coinsTip = none
  | .loaded .., bg => bg.active_role = false ∧ bg.coinsTip.isSome ∧ bg.has_snapshot
  | .parked _, bg => bg.active_role = false ∧ bg.coinsTip.isSome ∧ bg.has_snapshot = false

variable {slot : BackgroundSlot C} {bg : Coins.SnapshotSlot}

theorem BackgroundSlot.Shows.idle_iff
    (shows : slot.Shows bg) : bg.coinsTip = none ↔ slot = .idle := by
  cases slot with
  | idle => exact iff_of_true shows.2 rfl
  | loaded _ tip _ | parked tip =>
    exact iff_of_false (isSome_iff_ne_none.1 shows.2.1) (by intro same; cases same)

theorem BackgroundSlot.Shows.active_role (shows : slot.Shows bg) : bg.active_role = false := by
  cases slot <;> exact shows.1

namespace NodeState
/-- The node follows a snapshot whose database, of engine `used`, has these files. -/
structure Serves (st : NodeState C) (bg : Coins.SnapshotSlot) (files : DirFiles) (used : DbEngine) :
    Prop where
  active : st.chain.snapshotActive
  slot : st.background.Shows bg
  inUse : files.InUse used

/-- A load leaves the database in use alone, unless the background slot has collapsed, the header
is acceptable and the database is MDBX's. -/
theorem loadLeavesAlone_iff (st : NodeState C) {bg : Coins.SnapshotSlot} {files : DirFiles}
    {used : DbEngine} (serves : st.Serves bg files used) (params : Coins.SnapshotParams)
    (path : String) (file : Option (List UInt8)) (dbengine : Option String)
    (io : DirFiles.ReopenIo) :
    Coins.LoadLeavesAlone params path bg file files used dbengine io ↔
      ¬ (st.background = .idle ∧ Coins.AcceptableHeader params file ∧ used = .mdbx ∧
        files.dbDir.stampEngine ≠ some .unknown) := by
  have alone : (∃ slot error, Coins.loadUTXOSnapshot params false path (some bg) file =
      .fail (slot, error)) ∧ ∀ k, FsCall.run (([] : List (FsCall String String)).take k) files =
        files :=
    ⟨loadUTXOSnapshot_unopened, fun k => by rw [List.take_nil]; rfl⟩
  unfold Coins.LoadLeavesAlone reloadCalls
  rw [← serves.slot.idle_iff]
  rcases admitSnapshot_cases with
    ⟨refused, message, result⟩ | ⟨⟨idle, header⟩, metadata, afile, result⟩
  · rw [result]
    exact iff_of_true alone fun both => refused ⟨both.1, both.2.1⟩
  rw [result]
  dsimp only
  rw [serves.slot.active_role, Bool.false_and, if_neg (by decide), serves.inUse.reopen_eq]
  by_cases mdbx : used = .mdbx ∧ files.dbDir.stampEngine ≠ some .unknown
  · rw [if_pos mdbx]
    refine iff_of_false (fun both => ?_) (not_not.2 ⟨idle, header, mdbx⟩)
    -- After the five removals MDBX's file is gone, which was there before.
    have kept := both.2 DirFiles.wipeMdbxFiles.length
    rw [List.take_left] at kept
    have has := serves.inUse.has
    obtain ⟨dat, mdb⟩ := files.run_wipe
    rw [kept] at dat mdb
    rw [mdbx.1] at has
    simp [DirFiles.dbDir, DbDir.files, dat, mdb] at has
  · rw [if_neg mdbx]
    exact iff_of_true alone fun both => mdbx both.2.2

def mdbxFiles : DirFiles := fun name =>
  if name = "mdbx.dat" then some "" else if name = "ENGINE" then some "mdbx\n" else none

def emptySnapshot : List UInt8 := Coins.SnapshotMetadata.serialize ⟨[0xc0, 0xc0, 0xc0, 0xc0], 2, 0⟩

theorem inUse_mdbxFiles : mdbxFiles.InUse .mdbx := by
  refine ⟨rfl, fun _ has => ?_⟩
  rcases supported_of_files has with rfl | rfl
  · cases has
  · refine ⟨fun other ne => ?_, by decide⟩
    cases other <;> first | rfl | exact absurd rfl ne

theorem serves_snapshotNode : snapshotNode.Serves .idle mdbxFiles .mdbx where
  active := rfl
  slot := ⟨rfl, rfl⟩
  inUse := inUse_mdbxFiles

/-- The file of another network is refused, and nothing is wiped. -/
theorem loadLeavesAlone_refused : snapshotNode.Serves .idle mdbxFiles .mdbx ∧
    Coins.LoadLeavesAlone plainParams "utxo.dat" .idle
      (some (Coins.SnapshotMetadata.serialize ⟨[1, 2, 3, 4], 2, 0⟩)) mdbxFiles .mdbx none {} := by
  refine ⟨serves_snapshotNode, (loadLeavesAlone_iff snapshotNode serves_snapshotNode
    plainParams "utxo.dat" _ none {}).2 ?_⟩
  rintro ⟨-, ⟨_, _, _, ⟨⟩, ⟨⟩, magic, -⟩, -⟩
  exact absurd magic (by decide)

/-- The validation behind a snapshot of the tip is complete at once. A second load then removes
the files of the database in use, and returns true. -/
theorem reload_wipes_active_snapshot :
    (genesis .permissive () hashOrder).run .permissive snapshotOfTip = some snapshotNode ∧
      snapshotNode.Serves .idle mdbxFiles .mdbx ∧
      ¬ Coins.LoadLeavesAlone plainParams "utxo.dat" .idle (some emptySnapshot) mdbxFiles
        .mdbx none {} := by
  refine ⟨rfl, serves_snapshotNode, fun alone => ?_⟩
  unfold Coins.LoadLeavesAlone at alone
  have kept := congrFun (alone.2 1) "mdbx.dat"
  cases kept

end NodeState
end DogecoinCore
