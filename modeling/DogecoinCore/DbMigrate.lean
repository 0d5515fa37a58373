import DogecoinCore.DbSession
import DogecoinCore.FileSystem

/-! `-migratedb` and `-swapdb`: chainstate and block index are copied to the other engine, and the
copies renamed into place. -/
namespace DogecoinCore
open Function

inductive KvTable where
  | chainstate | index
  deriving DecidableEq, Repr

/-- A database directory of the data directory: the live one, or a sibling that is named after an
engine. -/
structure DbDirName where
  table : KvTable
  tag : Option DbEngine
  deriving DecidableEq, Repr

def DbDirName.path (name : DbDirName) : String :=
  (match name.table with
    | .chainstate => "chainstate"
    | .index => "blocks/index") ++ name.tag.elim "" fun e => "_" ++ e.name

abbrev KvDirs := Files DbDirName DbDir

/-- What `CopyKvDirectory` fails with. -/
inductive CopyError where
  | cannotDetectSource (path : String)
  | badDestinationEngine
  | sameEngine
  | destinationExists (path : String) (existing : DbEngine)
  | openDb (what : String)
  | writeBatch
  | finalWriteBatch
  deriving DecidableEq

/-- What `RunRequestedDbMigration` stops with; `copied` is the notice after a copy. -/
inductive MigrateError where
  | invalidMigratedb
  | copy (e : CopyError)
  | backupExists (path : String)
  | rename (what : String)
  | copied (dest : DbEngine) (nChain nIndex : ℕ)
  deriving DecidableEq

namespace KvStore
def put (store : KvStore) (pair : List UInt8 × List UInt8) : KvStore :=
  if store.any (·.1 = pair.1) then store.map fun old => if old.1 = pair.1 then pair else old
  else store ++ [pair]

def putAll (store batch : KvStore) : KvStore := batch.foldl put store

end KvStore

namespace KvDirs
/-- `DetectExistingEngine` of a path. -/
def detect (dirs : KvDirs) (name : DbDirName) : DbEngine :=
  (dirs name).elim .none DbDir.detectExistingEngine

def MIGRATE_BATCH : ℕ := 4096

structure CopyIo where
  src : DbDir.OpenIo := {}
  dst : DbDir.OpenIo := {}
  /-- Whether a batch is written, by its number. -/
  writeBatch : ℕ → Bool := fun _ => true

/-- The loop of `CopyKvDirectory`: the pairs go to the destination batch by batch. -/
def copyPairs (writeBatch : ℕ → Bool) : (pairs : KvStore) → (batch : KvStore) → (written : ℕ) →
    (keysOut : ℕ) → (dst : KvStore) → Except CopyError ℕ × KvStore
  | [], batch, written, keysOut, dst =>
    if batch = [] then (.ok keysOut, dst)
    else if !writeBatch written then (.error .finalWriteBatch, dst)
    else (.ok keysOut, KvStore.putAll dst batch)
  | pair :: pairs, batch, written, keysOut, dst =>
    let batch := batch ++ [pair]
    let keysOut := keysOut + 1
    if MIGRATE_BATCH ≤ batch.length then
      if !writeBatch written then (.error .writeBatch, dst)
      else copyPairs writeBatch pairs [] (written + 1) keysOut (KvStore.putAll dst batch)
    else copyPairs writeBatch pairs batch written keysOut dst

/-- The part of `CopyKvDirectory` after its guards: both databases are opened, and the pairs
copied. -/
def copyDatabase (io : CopyIo) (src dst : DbDirName) (srcEngine dstEngine : DbEngine)
    (dirs : KvDirs) : Except CopyError ℕ × KvDirs :=
  let (srcDb, srcDir) := ((dirs src).getD {}).cdbWrapper src.path srcEngine none false io.src
  let dirs := update dirs src (some srcDir)
  match srcDb with
  | .error what => (.error (.openDb what), dirs)
  | .ok _ =>
    let (dstDb, dstDir) := ((dirs dst).getD {}).cdbWrapper dst.path dstEngine none false io.dst
    match dstDb with
    | .error what => (.error (.openDb what), update dirs dst (some dstDir))
    | .ok _ =>
      let (result, store) := copyPairs io.writeBatch ((srcDir.files srcEngine).getD []) [] 0 0
        ((dstDir.files dstEngine).getD [])
      (result, update dirs dst (some (dstDir.setFiles dstEngine (some store))))

def copyKvDirectory (io : CopyIo) (src dst : DbDirName) (dstEngine : DbEngine) (dirs : KvDirs) :
    Except CopyError ℕ × KvDirs :=
  let srcEngine := dirs.detect src
  if srcEngine = .none || srcEngine = .unknown then (.error (.cannotDetectSource src.path), dirs)
  else if dstEngine = .none || dstEngine = .unknown then (.error .badDestinationEngine, dirs)
  else if srcEngine = dstEngine then (.error .sameEngine, dirs)
  else if dirs.detect dst ≠ .none then
    (.error (.destinationExists dst.path (dirs.detect dst)), dirs)
  else dirs.copyDatabase io src dst srcEngine dstEngine

/-- How the file system answers a migration. A rename may fail with a message. -/
structure MigrateIo where
  copy : KvTable → CopyIo := fun _ => {}
  /-- The rename of the live directory to its backup name. -/
  aside : KvTable → Option String := fun _ => none
  /-- The rename of the copy to the live name. -/
  into : KvTable → Option String := fun _ => none

def backup (dirs : KvDirs) (table : KvTable) : DbDirName :=
  ⟨table, some (if dirs.detect ⟨table, none⟩ = .none then .leveldb else dirs.detect ⟨table, none⟩)⟩

def swapOne (io : MigrateIo) (dest : DbEngine) (table : KvTable) (dirs : KvDirs) :
    Except MigrateError Unit × KvDirs :=
  let live : DbDirName := ⟨table, none⟩
  let incoming : DbDirName := ⟨table, some dest⟩
  if (dirs incoming).isNone then (.ok (), dirs)
  else
    let bak := dirs.backup table
    if (dirs bak).isSome then (.error (.backupExists bak.path), dirs)
    else
      match (if (dirs live).isSome then io.aside table else none) with
      | some what => (.error (.rename what), dirs)
      | none =>
        let dirs := if (dirs live).isSome then (FsCall.rename live bak).apply dirs else dirs
        match io.into table with
        | some what => (.error (.rename what), dirs)
        | none => (.ok (), (FsCall.rename incoming live).apply dirs)

def swapBoth (io : MigrateIo) (dest : DbEngine) (dirs : KvDirs) : Except MigrateError Unit × KvDirs :=
  match dirs.swapOne io dest .chainstate with
  | (.error e, dirs) => (.error e, dirs)
  | (.ok (), dirs) => dirs.swapOne io dest .index

def copyTable (io : MigrateIo) (dest : DbEngine) (table : KvTable) (dirs : KvDirs) :
    Except CopyError ℕ × KvDirs :=
  if dirs.detect ⟨table, none⟩ ≠ .none then
    dirs.copyKvDirectory (io.copy table) ⟨table, none⟩ ⟨table, some dest⟩ dest
  else (.ok 0, dirs)

/-- `RunRequestedDbMigration`, by the values of `-migratedb` and `-swapdb`. -/
def runRequestedDbMigration (migratedb : Option String) (swapdb : Bool) (io : MigrateIo)
    (dirs : KvDirs) : Except MigrateError Unit × KvDirs :=
  match migratedb with
  | none => (.ok (), dirs)
  | some value =>
    let dest := DbEngine.parse value
    if dest = .unknown || dest = .none then (.error .invalidMigratedb, dirs)
    else
      match dirs.copyTable io dest .chainstate with
      | (.error e, dirs) => (.error (.copy e), dirs)
      | (.ok nChain, dirs) =>
        match dirs.copyTable io dest .index with
        | (.error e, dirs) => (.error (.copy e), dirs)
        | (.ok nIndex, dirs) =>
          if swapdb then dirs.swapBoth io dest
          else (.error (.copied dest nChain nIndex), dirs)

end KvDirs
end DogecoinCore
