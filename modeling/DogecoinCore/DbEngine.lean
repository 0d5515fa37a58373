import Mathlib.Tactic.Common

/-! The key-value engine of a directory: which one its ENGINE stamp and its files name, which one
an open selects, and what the constructor of `CDBWrapper` does to the directory. A database
is the list of its pairs, in the order its iterator gives them. -/
namespace DogecoinCore
/-- `enum class DbEngine`. -/
inductive DbEngine where
  | none | leveldb | mdbx | unknown
  deriving DecidableEq, Repr

abbrev KvStore := List (List UInt8 × List UInt8)

/-- A database directory. LevelDB's files are there if CURRENT is, and MDBX's if mdbx.dat or
data.mdb is. -/
structure DbDir where
  /-- The text of ENGINE. -/
  stamp : Option String := .none
  leveldb : Option KvStore := .none
  mdbx : Option KvStore := .none
  deriving DecidableEq

namespace DbEngine
def name : DbEngine → String
  | leveldb => "leveldb"
  | mdbx => "mdbx"
  | none => "none"
  | unknown => "unknown"

def lower (s : String) : String := String.ofList (s.toList.map Char.toLower)

def parse (s : String) : DbEngine :=
  let v := lower s
  if v = "" || v = "leveldb" || v = "ldb" then leveldb
  else if v = "mdbx" || v = "libmdbx" then mdbx
  else unknown

/-- `RequestedDbEngine`, by the value of `-dbengine`. -/
def requested (dbengine : Option String) : DbEngine := parse (dbengine.getD "leveldb")

end DbEngine

/-- `std::getline` on a file: it fails on an empty one. -/
def firstLine (text : String) : Option String :=
  if text = "" then none else some (String.ofList (text.toList.takeWhile (· ≠ '\n')))

/-- Carriage returns, newlines and blanks at the end of a line are dropped. -/
def trimLine (line : String) : String :=
  String.ofList (line.toList.reverse.dropWhile fun c => c = '\r' || c = '\n' || c = ' ').reverse

namespace DbDir
/-- `HasLevelDbFiles` and `HasMdbxFiles`, with what is in the files. -/
def files (dir : DbDir) : DbEngine → Option KvStore
  | .leveldb => dir.leveldb
  | .mdbx => dir.mdbx
  | _ => .none

def setFiles (dir : DbDir) (e : DbEngine) (store : Option KvStore) : DbDir :=
  match e with
  | .leveldb => { dir with leveldb := store }
  | .mdbx => { dir with mdbx := store }
  | _ => dir

/-- The engine that the stamp names, if there is a stamp with a line in it. -/
def stampEngine (dir : DbDir) : Option DbEngine :=
  (dir.stamp.bind firstLine).map fun line => DbEngine.parse (trimLine line)

/-- A stamp without the files of its engine counts as no database. -/
def detectExistingEngine (dir : DbDir) : DbEngine :=
  match dir.stampEngine with
  | some .leveldb => if !(dir.files .leveldb).isSome then .none else .leveldb
  | some .mdbx => if !(dir.files .mdbx).isSome then .none else .mdbx
  | some _ => .unknown
  | none =>
    if (dir.files .leveldb).isSome then .leveldb
    else if (dir.files .mdbx).isSome then .mdbx
    else .none

def selectDbEngine (dir : DbDir) (engineOverride : DbEngine) (dbengine : Option String) :
    DbEngine :=
  if engineOverride ≠ .none then engineOverride
  else
    let existing := dir.detectExistingEngine
    if existing = .leveldb || existing = .mdbx then existing
    else if dbengine.isSome then DbEngine.requested dbengine
    else .leveldb

/-- How far the constructor gets before it throws or the process dies. -/
inductive Reach where
  | wiped | created | stamped | opened
  deriving DecidableEq, Repr

structure OpenIo where
  reach : Reach := .opened
  /-- What a wipe leaves of the engine's files. -/
  wipeFiles : KvStore → Option KvStore := fun _ => .none
  /-- Whether the wipe of an MDBX directory gets to its stamp. -/
  wipeStamp : Bool := true
  /-- How much of the stamp is written; none if it cannot be opened. -/
  stamp : Option ℕ := some 8

/-- `DestroyDB`, which leaves the stamp, or `WipeMdbxFiles`, which ends with it. -/
def wipe (dir : DbDir) (io : OpenIo) (e : DbEngine) : DbDir :=
  let wiped := dir.setFiles e ((dir.files e).bind io.wipeFiles)
  if e = .mdbx && io.wipeStamp then { wiped with stamp := .none } else wiped

def createFiles (dir : DbDir) (e : DbEngine) : DbDir :=
  dir.setFiles e (some ((dir.files e).getD []))

def writeEngineStamp (dir : DbDir) (io : OpenIo) (e : DbEngine) : DbDir :=
  match io.stamp with
  | .none => dir
  | some k => { dir with stamp := some (String.ofList ((e.name ++ "\n").toList.take k)) }

def engineMismatchMessage (existing want : DbEngine) (path : String) : String :=
  "Datadir KV engine mismatch at " ++ path ++ ": on disk=" ++ existing.name ++ ", requested=" ++
    want.name ++ ". Local storage is not consensus — do not convert in place. " ++
    "Use a new datadir, or Fast Sync into a fresh directory, or reopen with -dbengine=" ++
    existing.name ++ "."

def openBackend (dir : DbDir) (e : DbEngine) (fWipe : Bool) (io : OpenIo) :
    Except String DbEngine × DbDir :=
  let dir := if fWipe then dir.wipe io e else dir
  if io.reach = .wiped then (.error "Failed to open database backend", dir)
  else
    let dir := dir.createFiles e
    if io.reach = .created then (.error "Failed to open database backend", dir)
    else
      let dir := dir.writeEngineStamp io e
      if io.reach = .stamped then (.error "Database read failure", dir) else (.ok e, dir)

/-- `CDBWrapper::CDBWrapper`, for a database on disk. -/
def cdbWrapper (path : String) (engineOverride : DbEngine) (dbengine : Option String)
    (fWipe : Bool) (io : OpenIo) (dir : DbDir) : Except String DbEngine × DbDir :=
  let engine := dir.selectDbEngine engineOverride dbengine
  if engine = .unknown then (.error "Invalid -dbengine (supported: leveldb, mdbx)", dir)
  else
    let existing := dir.detectExistingEngine
    if existing ≠ .none && existing ≠ engine then
      (.error (engineMismatchMessage existing engine path), dir)
    else dir.openBackend engine fWipe io

variable {dir dir' : DbDir} {e other : DbEngine} {io : OpenIo}

def Supported (e : DbEngine) : Prop := e = .leveldb ∨ e = .mdbx

theorem files_setFiles (supported : Supported e) (store : Option KvStore) :
    (dir.setFiles e store).files e = store := by
  rcases supported with rfl | rfl <;> rfl

theorem files_setFiles_of_ne (ne : other ≠ e) (store : Option KvStore) :
    (dir.setFiles e store).files other = dir.files other := by
  cases e <;> cases other <;> first | rfl | exact absurd rfl ne

theorem stamp_setFiles : (dir.setFiles e store).stamp = dir.stamp := by
  cases e <;> rfl

theorem supported_of_files (has : (dir.files e).isSome) : Supported e := by
  cases e with
  | none | unknown => cases has
  | leveldb => exact .inl rfl
  | mdbx => exact .inr rfl

theorem files_wipe_of_ne (ne : other ≠ e) : (dir.wipe io e).files other = dir.files other := by
  have kept : (dir.setFiles e ((dir.files e).bind io.wipeFiles)).files other = dir.files other :=
    files_setFiles_of_ne ne _
  unfold wipe
  split
  · cases other <;> exact kept
  · exact kept

theorem files_writeEngineStamp : (dir.writeEngineStamp io e).files = dir.files := by
  unfold writeEngineStamp
  split
  · rfl
  · funext other
    cases other <;> rfl

theorem files_openBackend_of_ne (ne : other ≠ e) :
    (dir.openBackend e fWipe io).2.files other = dir.files other := by
  have wiped : (if fWipe then dir.wipe io e else dir).files other = dir.files other := by
    split
    · exact files_wipe_of_ne ne
    · rfl
  unfold openBackend
  generalize (if fWipe then dir.wipe io e else dir) = dir' at wiped
  have created : (dir'.createFiles e).files other = dir.files other :=
    (files_setFiles_of_ne ne _).trans wiped
  split
  · exact wiped
  split
  · exact created
  · split <;> exact (congrFun files_writeEngineStamp other).trans created

end DbDir
end DogecoinCore
