import DogecoinCore.DbMigrate

/-! What a migration leaves: a second run after a copy never gets to the swap, and a swap that fails
half way leaves a live directory missing or the two databases on different engines. -/
namespace DogecoinCore
open Option Function Prod KvStore FsCall Nat

namespace DbDir
open DbEngine DbDir
variable {dir : DbDir} {e other : DbEngine} {io : OpenIo}

theorem stampFits_of_detect (detected : dir.detectExistingEngine = e) (supported : Supported e) :
    dir.StampFits e := by
  unfold detectExistingEngine at detected
  rcases supported with rfl | rfl
  · split at detected
    case h_1 same => exact .inr (.inl same)
    case h_2 => split at detected <;> cases detected
    case h_3 => cases detected
    case h_4 none => exact .inl none
  split at detected
  case h_1 => split at detected <;> cases detected
  case h_2 same => exact .inr (.inl same)
  case h_3 => cases detected
  case h_4 none => exact .inl none

private theorem detect_ne_none (has : (dir.files e).isSome) (fits : dir.StampFits e) :
    dir.detectExistingEngine ≠ .none := by
  unfold detectExistingEngine
  rcases fits with none | same | unknown
  · rw [none]
    dsimp only
    rcases supported_of_files has with rfl | rfl
    · rw [if_pos has]
      decide
    · split <;> decide
  · rw [same]
    rcases supported_of_files has with rfl | rfl
    · dsimp only
      rw [if_neg (by simp [has])]
      decide
    dsimp only
    rw [if_neg (by simp [has])]
    decide
  · rw [unknown]
    rintro ⟨⟩

private theorem cdbWrapper_override (io : OpenIo) (supported : Supported e)
    (detected : dir.detectExistingEngine = .none ∨ dir.detectExistingEngine = e) :
    dir.cdbWrapper path e dbengine fWipe io = dir.openBackend e fWipe io := by
  have selected : dir.selectDbEngine e dbengine = e := by rcases supported with rfl | rfl <;> rfl
  unfold cdbWrapper
  rw [selected]
  rw [if_neg (by rcases supported with rfl | rfl <;> decide), if_neg]
  rcases detected with empty | same
  · simp [empty]
  · simp [same]

theorem files_setFiles_eq (supported : Supported e) (store : Option KvStore) :
    (dir.setFiles e store).files = update dir.files e store := by
  funext other
  by_cases same : other = e
  · subst same
    rw [update_self, files_setFiles supported]
  · rw [update_of_ne same, files_setFiles_of_ne same]

theorem openBackend_ok (supported : Supported e)
    (ran : dir.openBackend e false io = (.ok found, dir')) :
    found = e ∧ dir'.files = update dir.files e (some ((dir.files e).getD [])) ∧
      (dir.StampFits e → dir'.StampFits e) := by
  have created : dir.StampFits e → (dir.createFiles e).StampFits e := by
    unfold StampFits stampEngine createFiles
    rw [stamp_setFiles]
    exact id
  obtain ⟨same, rfl⟩ : found = e ∧ dir' = (dir.createFiles e).writeEngineStamp io e := by
    unfold openBackend at ran
    dsimp only at ran
    split at ran
    · cases ran
    split at ran
    · cases ran
    split at ran
    · cases ran
    · cases ran
      exact ⟨rfl, rfl⟩
  refine ⟨same, ?_, fun fits => stampFits_writeEngineStamp supported fun _ => created fits⟩
  rw [files_writeEngineStamp]
  exact files_setFiles_eq supported _

theorem openBackend_fine (e : DbEngine) :
    dir.openBackend e false {} = (.ok e, (dir.createFiles e).writeEngineStamp {} e) := rfl

theorem files_opened (supported : Supported e) : ((dir.createFiles e).writeEngineStamp {} e).files =
      update dir.files e (some ((dir.files e).getD [])) :=
  (openBackend_ok supported (openBackend_fine e)).2.1

private theorem opened_of_detect (supported : Supported e) (detected : dir.detectExistingEngine = e) :
    ((dir.createFiles e).writeEngineStamp {} e).files = dir.files ∧
      ((dir.createFiles e).writeEngineStamp {} e).detectExistingEngine = e := by
  obtain ⟨_, has⟩ := isSome_iff_exists.1 (files_of_detect detected supported)
  have files : ((dir.createFiles e).writeEngineStamp {} e).files = dir.files := by
    rw [files_opened supported, has, getD_some, ← has, update_eq_self]
  have stamp : ((dir.createFiles e).writeEngineStamp {} e).stampEngine = some e := by
    have text : ∀ e ∈ [DbEngine.leveldb, .mdbx],
        stampEngine { stamp := some (String.ofList ((e.name ++ "\n").toList.take 8)) } = some e := by
      decide
    rcases supported with rfl | rfl
    · exact text .leveldb (by decide)
    · exact text .mdbx (by decide)
  refine ⟨files, ?_⟩
  unfold detectExistingEngine
  rw [stamp, files]
  rcases supported with rfl | rfl
  · exact if_neg (by simp [has])
  · exact if_neg (by simp [has])

end DbDir

namespace KvDirs
open DbDir
variable {dirs dirs' : KvDirs} {src dst name : DbDirName} {dstEngine dest : DbEngine} {n : ℕ}
  {table : KvTable}

theorem detect_update_self :
    detect (update dirs name (some dir)) name = dir.detectExistingEngine := by
  unfold detect
  rw [update_self]
  rfl

theorem detect_congr (same : dirs' name = dirs name) : dirs'.detect name = dirs.detect name := by
  unfold detect
  rw [same]

theorem detect_getD (name : DbDirName) :
    ((dirs name).getD {}).detectExistingEngine = dirs.detect name := by
  unfold detect
  cases dirs name <;> rfl

/-- The guards of a copy: source and destination have different engines, and there is nothing at
the destination. -/
structure CopyGuards (dirs : KvDirs) (src dst : DbDirName) (dstEngine : DbEngine) : Prop where
  source : Supported (dirs.detect src)
  destination : Supported dstEngine
  differ : dirs.detect src ≠ dstEngine
  empty : dirs.detect dst = .none

private theorem copyKv_cases (src dst : DbDirName) (dstEngine : DbEngine) :
    ¬ CopyGuards dirs src dst dstEngine ∧
        (∃ e, dirs.copyKvDirectory io src dst dstEngine = (.error e, dirs)) ∨
      CopyGuards dirs src dst dstEngine ∧ dirs.copyKvDirectory io src dst dstEngine =
        dirs.copyDatabase io src dst (dirs.detect src) dstEngine := by
  have supported : ∀ e : DbEngine, Supported e ↔ ¬ (e = .none || e = .unknown) := by
    rintro (_ | _ | _ | _) <;> simp [Supported]
  unfold copyKvDirectory
  dsimp only
  split
  case isTrue source => exact .inl ⟨fun guards => (supported _).1 guards.source source, _, rfl⟩
  case isFalse source =>
    split
    case isTrue destination =>
      exact .inl ⟨fun guards => (supported _).1 guards.destination destination, _, rfl⟩
    case isFalse destination =>
      split
      case isTrue same => exact .inl ⟨fun guards => guards.differ same, _, rfl⟩
      case isFalse differ =>
        split
        case isTrue full => exact .inl ⟨fun guards => full guards.empty, _, rfl⟩
        case isFalse empty =>
          exact .inr ⟨⟨(supported _).2 source, (supported _).2 destination, differ,
            not_not.1 empty⟩, rfl⟩

theorem copyKv_refuses (io : CopyIo) (src : DbDirName) (dstEngine : DbEngine)
    (full : dirs.detect dst ≠ .none) :
    ∃ e, dirs.copyKvDirectory io src dst dstEngine = (.error e, dirs) := by
  rcases copyKv_cases src dst dstEngine with ⟨-, refused⟩ | ⟨guards, -⟩
  · exact refused
  · exact absurd guards.empty full

theorem copyDatabase_ok (guards : CopyGuards dirs src dst dstEngine) (ne : src ≠ dst)
    (ran : dirs.copyDatabase io src dst (dirs.detect src) dstEngine = (.ok n, dirs')) :
    ∃ srcDir dstDir store, ((dirs src).getD {}).openBackend (dirs.detect src) false io.src =
        (.ok (dirs.detect src), srcDir) ∧
      ((dirs dst).getD {}).openBackend dstEngine false io.dst = (.ok dstEngine, dstDir) ∧
      copyPairs io.writeBatch ((srcDir.files (dirs.detect src)).getD []) [] 0 0
        ((dstDir.files dstEngine).getD []) = (.ok n, store) ∧
      dirs' = update (update dirs src (some srcDir)) dst
        (some (dstDir.setFiles dstEngine (some store))) := by
  unfold copyDatabase at ran
  rw [cdbWrapper_override io.src guards.source
    (.inr (detect_getD src))] at ran
  cases srcOpen : ((dirs src).getD {}).openBackend (dirs.detect src) false io.src with
  | mk result srcDir =>
    rw [srcOpen] at ran
    dsimp only at ran
    rw [update_of_ne ne.symm, cdbWrapper_override io.dst
      guards.destination (.inl ((detect_getD dst).trans guards.empty))] at ran
    cases dstOpen : ((dirs dst).getD {}).openBackend dstEngine false io.dst with
    | mk result' dstDir =>
      rw [dstOpen] at ran
      cases result with
      | error what => cases ran
      | ok _ =>
        cases result' with
        | error what => cases ran
        | ok _ =>
          obtain ⟨rfl, -, -⟩ := openBackend_ok guards.source srcOpen
          obtain ⟨rfl, -, -⟩ := openBackend_ok guards.destination dstOpen
          obtain ⟨finished, rfl⟩ := mk.inj ran
          exact ⟨srcDir, dstDir, _, rfl, rfl, Prod.ext finished rfl, rfl⟩

theorem copyDatabase_frame (ne : name ≠ src) (ne' : name ≠ dst) :
    (dirs.copyDatabase io src dst srcEngine dstEngine).2 name = dirs name := by
  unfold copyDatabase
  dsimp only
  split
  · exact update_of_ne ne _ _
  split
  · exact (update_of_ne ne' _ _).trans (update_of_ne ne _ _)
  · exact (update_of_ne ne' _ _).trans (update_of_ne ne _ _)

private theorem copyTable_frame (dirs : KvDirs)
    (ne : name ≠ ⟨table, none⟩) (ne' : name ≠ ⟨table, some dest⟩) :
    (dirs.copyTable io dest table).2 name = dirs name := by
  unfold copyTable
  split
  · rcases copyKv_cases ⟨table, none⟩ ⟨table, some dest⟩ dest with
      ⟨-, e, refused⟩ | ⟨-, goes⟩
    · rw [refused]
    · rw [goes]
      exact copyDatabase_frame ne ne'
  · rfl

variable {io : MigrateIo}

private theorem copyTable_leaves_both (has : dirs.detect ⟨table, none⟩ ≠ .none)
    (absent : dirs ⟨table, some dest⟩ = none)
    (ran : dirs.copyTable io dest table = (.ok n, dirs')) :
    dirs'.detect ⟨table, none⟩ ≠ .none ∧ dirs'.detect ⟨table, some dest⟩ ≠ .none := by
  rw [copyTable, if_pos has] at ran
  rcases copyKv_cases ⟨table, none⟩ ⟨table, some dest⟩ dest with
    ⟨-, e, refused⟩ | ⟨guards, goes⟩
  · rw [refused] at ran
    cases ran
  rw [goes] at ran
  obtain ⟨_, _, _, srcOpen, dstOpen, -, rfl⟩ := copyDatabase_ok guards (by simp) ran
  obtain ⟨-, srcFiles, srcFits⟩ := openBackend_ok guards.source srcOpen
  obtain ⟨-, -, dstFits⟩ := openBackend_ok guards.destination dstOpen
  constructor
  · rw [detect_congr (update_of_ne (by simp) _ _), detect_update_self]
    refine detect_ne_none ?_ (srcFits ?_)
    · rw [srcFiles, update_self]
      rfl
    · exact stampFits_of_detect (detect_getD _) guards.source
  rw [detect_update_self]
  refine detect_ne_none (e := dest) ?_ ?_
  · rw [files_setFiles guards.destination]
    rfl
  rw [absent] at dstFits
  have fits := dstFits (.inl rfl)
  unfold StampFits stampEngine at fits ⊢
  rw [stamp_setFiles]
  exact fits

/-- Two live LevelDB databases with pairs in them, and no sibling directories. -/
structure Switchable (dirs : KvDirs) : Prop where
  leveldb : ∀ table, dirs.detect ⟨table, none⟩ = .leveldb
  pairs : ∀ table dir, dirs ⟨table, none⟩ = some dir → dir.leveldb ≠ some []
  alone : ∀ table e, dirs ⟨table, some e⟩ = none

/-- The migration to MDBX has ended well: the live directories are MDBX with the pairs the LevelDB
ones had, and these are kept under the backup names. -/
structure Switched (dirs : KvDirs) (after : Except MigrateError Unit × KvDirs) : Prop where
  success : after.1 = .ok ()
  mdbx : ∀ table, after.2.detect ⟨table, none⟩ = .mdbx
  pairs : ∀ table, (after.2 ⟨table, none⟩).bind (files · .mdbx) =
    (dirs ⟨table, none⟩).bind (files · .leveldb)
  kept : ∀ table, (after.2 ⟨table, some .leveldb⟩).map files = (dirs ⟨table, none⟩).map files

theorem parse_mdbx : DbEngine.parse "mdbx" = .mdbx := by decide

theorem dbMigration_copied
    (copied : (dirs.runRequestedDbMigration (some "mdbx") false io).1 =
      .error (.copied .mdbx nChain nIndex)) :
    ∃ d, dirs.copyTable io .mdbx .chainstate = (.ok nChain, d) ∧ d.copyTable io .mdbx .index =
        (.ok nIndex, (dirs.runRequestedDbMigration (some "mdbx") false io).2) := by
  simp only [runRequestedDbMigration, parse_mdbx] at copied ⊢
  cases chain : dirs.copyTable io .mdbx .chainstate with
  | mk result d =>
    rw [chain] at copied
    cases result with
    | error e => cases copied
    | ok _ =>
      cases index : d.copyTable io .mdbx .index with
      | mk result' _ =>
        dsimp only at copied
        rw [index] at copied
        cases result' with
        | error e => cases copied
        | ok _ =>
          cases copied
          refine ⟨d, rfl, ?_⟩
          dsimp only
          rw [index]
          rfl

/-- The documented two runs never switch: the first copies and stops, and whatever the file system
does then, the second stops at the copy it finds. -/
theorem two_runs_never_switch (dirs : KvDirs) (switchable : dirs.Switchable) (io io' : MigrateIo)
    (nChain nIndex : ℕ)
    (copied : (dirs.runRequestedDbMigration (some "mdbx") false io).1 =
      .error (.copied .mdbx nChain nIndex)) :
    ¬ Switched dirs ((dirs.runRequestedDbMigration (some "mdbx") false io).2.runRequestedDbMigration
      (some "mdbx") true io') := by
  obtain ⟨d, chain, index⟩ := dbMigration_copied copied
  generalize (dirs.runRequestedDbMigration (some "mdbx") false io).2 = after at index
  have has : dirs.detect ⟨.chainstate, none⟩ ≠ .none := by
    rw [switchable.leveldb]
    decide
  obtain ⟨live, incoming⟩ := copyTable_leaves_both has (switchable.alone _ _) chain
  have frame : ∀ tag, after ⟨.chainstate, tag⟩ = d ⟨.chainstate, tag⟩ := by
    intro tag
    have kept : (d.copyTable io .mdbx .index).2 ⟨.chainstate, tag⟩ = d ⟨.chainstate, tag⟩ :=
      copyTable_frame d (by simp) (by simp)
    rwa [index] at kept
  rw [← detect_congr (frame _)] at live incoming
  -- The second run finds a live chainstate again, and its copy.
  obtain ⟨_, refused⟩ := copyKv_refuses (io'.copy .chainstate) ⟨.chainstate, none⟩ .mdbx
    incoming
  intro switched
  have success := switched.success
  simp only [runRequestedDbMigration, parse_mdbx, copyTable, if_pos live, refused] at success
  cases success

def leveldbDirs : KvDirs := fun name =>
  if name.tag = none then some { stamp := some "leveldb\n", leveldb := some [([1], [2])] } else none

theorem switchable_leveldbDirs : leveldbDirs.Switchable where
  leveldb table := by cases table <;> decide
  pairs table dir has := by
    obtain rfl := some.inj has
    decide
  alone _ _ := rfl

theorem two_runs_never_switch_leveldbDirs :
    ¬ Switched leveldbDirs ((leveldbDirs.runRequestedDbMigration (some "mdbx") false
      {}).2.runRequestedDbMigration (some "mdbx") true {}) :=
  two_runs_never_switch leveldbDirs switchable_leveldbDirs {} {} 1 1 (by decide)

/-- The second run stops at the copy of the first. -/
theorem second_run_refused :
    (leveldbDirs.runRequestedDbMigration (some "mdbx") false {}).1 = .error (.copied .mdbx 1 1) ∧
      ((leveldbDirs.runRequestedDbMigration (some "mdbx") false {}).2.runRequestedDbMigration
        (some "mdbx") true {}).1 =
        .error (.copy (.destinationExists "chainstate_mdbx" .mdbx)) := by
  decide

theorem copyPairs_fine (dst : KvStore) : copyPairs (fun _ => true) pairs batch written keysOut dst =
      (.ok (keysOut + pairs.length), putAll dst (batch ++ pairs)) := by
  induction pairs generalizing batch written keysOut dst with
  | nil =>
    unfold copyPairs
    split
    case isTrue empty => simp [empty, putAll]
    case isFalse => simp
  | cons _ pairs ih =>
    unfold copyPairs
    dsimp only
    split
    · simp only [Bool.not_true, Bool.false_eq_true, if_false, ih]
      simp [putAll, Nat.add_comm, Nat.add_left_comm]
    · simp only [ih]
      simp [Nat.add_comm, Nat.add_left_comm]

def Copies (dirs : KvDirs) (dest : DbEngine) (table : KvTable) : Prop :=
  dirs.detect ⟨table, none⟩ = .none ∨ CopyGuards dirs ⟨table, none⟩ ⟨table, some dest⟩ dest

/-- The files of the directory that comes in: the sibling as it is, or with the live pairs added. -/
def incomingFiles (dirs : KvDirs) (dest : DbEngine) (table : KvTable) :
    Option (DbEngine → Option KvStore) :=
  let live := (dirs ⟨table, none⟩).getD {}
  let incoming := dirs ⟨table, some dest⟩
  if dirs.detect ⟨table, none⟩ = .none then incoming.map files
  else
    some (update (incoming.getD {}).files dest (some (putAll
      (((incoming.getD {}).files dest).getD []) ((live.files (dirs.detect ⟨table, none⟩)).getD []))))

theorem copyTable_refused (refused : ¬ Copies dirs dest table) :
    ∃ e, dirs.copyTable io dest table = (.error e, dirs) := by
  obtain ⟨has, guards⟩ := not_or.1 refused
  rw [copyTable, if_pos has]
  rcases copyKv_cases ⟨table, none⟩ ⟨table, some dest⟩ dest with
    ⟨-, refused⟩ | ⟨holds, -⟩
  · exact refused
  · exact absurd holds guards

private theorem copyDatabase_fine (guards : CopyGuards dirs src dst dstEngine) (ne : src ≠ dst) :
    ∃ n srcDir dstDir, dirs.copyDatabase {} src dst (dirs.detect src) dstEngine =
        (.ok n, update (update dirs src (some srcDir)) dst (some dstDir)) ∧
      srcDir.files = ((dirs src).getD {}).files ∧
      srcDir.detectExistingEngine = dirs.detect src ∧
      dstDir.files = update ((dirs dst).getD {}).files dstEngine (some (putAll
        ((((dirs dst).getD {}).files dstEngine).getD [])
        ((((dirs src).getD {}).files (dirs.detect src)).getD []))) := by
  obtain ⟨n, ends⟩ : ∃ n, (dirs.copyDatabase {} src dst (dirs.detect src) dstEngine).1 = .ok n := by
    unfold copyDatabase
    rw [cdbWrapper_override _ guards.source (.inr (detect_getD src)), openBackend_fine]
    dsimp only
    rw [update_of_ne ne.symm, cdbWrapper_override _
      guards.destination (.inl ((detect_getD dst).trans guards.empty)), openBackend_fine]
    rw [copyPairs_fine]
    exact ⟨_, rfl⟩
  obtain ⟨srcDir, dstDir, _, srcOpen, dstOpen, copied, after⟩ :=
    copyDatabase_ok guards ne (Prod.ext ends rfl)
  obtain ⟨files, detected⟩ := opened_of_detect guards.source (detect_getD src)
  rw [openBackend_fine] at srcOpen
  obtain rfl := congrArg snd srcOpen
  obtain ⟨-, opened, -⟩ := openBackend_ok guards.destination dstOpen
  obtain rfl := congrArg snd ((copyPairs_fine _).symm.trans copied)
  refine ⟨n, _, _, Prod.ext ends after, files, detected, ?_⟩
  rw [files_setFiles_eq guards.destination, opened, update_idem, update_self, files]
  rfl

theorem copyTable_fine (fine : io.copy table = {}) (copies : Copies dirs dest table) :
    (∃ n, (dirs.copyTable io dest table).1 = .ok n) ∧
      ((dirs.copyTable io dest table).2 ⟨table, none⟩).map files = (dirs ⟨table, none⟩).map files ∧
      (dirs.copyTable io dest table).2.detect ⟨table, none⟩ = dirs.detect ⟨table, none⟩ ∧
      ((dirs.copyTable io dest table).2 ⟨table, some dest⟩).map files =
        dirs.incomingFiles dest table := by
  unfold copyTable incomingFiles
  by_cases none : dirs.detect ⟨table, none⟩ = .none
  · rw [if_neg (not_not.2 none)]
    rw [if_pos none]
    exact ⟨⟨0, rfl⟩, rfl, rfl, rfl⟩
  have guards := copies.resolve_left none
  rw [if_pos none]
  rw [if_neg none]
  rcases copyKv_cases ⟨table, Option.none⟩ ⟨table, some dest⟩ dest with
    ⟨fails, -⟩ | ⟨-, goes⟩
  · exact absurd guards fails
  obtain ⟨n, _, _, ran, files, detected, incoming⟩ := copyDatabase_fine guards (by simp)
  have away : (⟨table, Option.none⟩ : DbDirName) ≠ ⟨table, some dest⟩ := by simp
  rw [goes, fine, ran]
  refine ⟨⟨n, rfl⟩, ?_, ?_, ?_⟩
  · dsimp only
    rw [update_of_ne away, update_self]
    cases live : dirs ⟨table, Option.none⟩ with
    | none => exact absurd (by simp [detect, live]) none
    | some _ =>
      rw [live] at files
      exact congrArg some files
  · rw [detect_congr (update_of_ne away _ _), detect_update_self, detected]
  · dsimp only
    rw [update_self, map_some, incoming]

/-- The live directory cannot be moved aside: its backup name is taken, or the rename fails. -/
def Blocked (io : MigrateIo) (dirs : KvDirs) (table : KvTable) : Prop :=
  (dirs (dirs.backup table)).isSome ∨ (dirs ⟨table, none⟩).isSome ∧ (io.aside table).isSome

private theorem moved_aside (there : dirs ⟨table, some dest⟩ = some copy)
    (free : dirs (dirs.backup table) = none) :
    (if (dirs ⟨table, none⟩).isSome then (rename ⟨table, none⟩ (dirs.backup table)).apply dirs
      else dirs) ⟨table, none⟩ = none ∧
    (if (dirs ⟨table, none⟩).isSome then (rename ⟨table, none⟩ (dirs.backup table)).apply dirs
      else dirs) ⟨table, some dest⟩ = some copy := by
  have away : (⟨table, some dest⟩ : DbDirName) ≠ dirs.backup table := by
    intro same
    rw [same, free] at there
    cases there
  split
  case isTrue live =>
    refine ⟨apply_rename_source live, ?_⟩
    rw [apply_rename_of_ne (by simp) away, there]
  case isFalse gone => exact ⟨not_isSome_iff_eq_none.1 gone, there⟩

private theorem swapOne_spec :
    (dirs ⟨table, some dest⟩ = none → dirs.swapOne io dest table = (.ok (), dirs)) ∧
      ((dirs ⟨table, some dest⟩).isSome → Blocked io dirs table →
        ∃ e, dirs.swapOne io dest table = (.error e, dirs)) ∧
      ((dirs ⟨table, some dest⟩).isSome → ¬ Blocked io dirs table →
        ((io.into table).isSome → (∃ e, (dirs.swapOne io dest table).1 = .error e) ∧
          (dirs.swapOne io dest table).2 ⟨table, none⟩ = none) ∧
        (io.into table = none → (dirs.swapOne io dest table).1 = .ok () ∧
          (dirs.swapOne io dest table).2 ⟨table, none⟩ = dirs ⟨table, some dest⟩)) := by
  unfold swapOne Blocked
  refine ⟨fun absent => by simp [absent], fun there blocked => ?_, fun there free => ?_⟩
  · obtain ⟨copy, there⟩ := isSome_iff_exists.1 there
    dsimp only
    rw [there, if_neg (by simp)]
    by_cases taken : (dirs (dirs.backup table)).isSome
    · exact ⟨_, if_pos taken⟩
    obtain ⟨live, fails⟩ := blocked.resolve_left taken
    obtain ⟨what, fails⟩ := isSome_iff_exists.1 fails
    rw [if_neg taken, if_pos live, fails]
    exact ⟨_, rfl⟩
  obtain ⟨copy, there⟩ := isSome_iff_exists.1 there
  obtain ⟨untaken, movable⟩ := not_or.1 free
  obtain ⟨gone, waits⟩ := moved_aside there (not_isSome_iff_eq_none.1 untaken)
  have moves : (if (dirs ⟨table, none⟩).isSome then io.aside table else none) = none := by
    split
    case isTrue live => exact not_isSome_iff_eq_none.1 fun fails => movable ⟨live, fails⟩
    case isFalse => rfl
  dsimp only
  rw [there, if_neg (by simp), if_neg untaken, moves]
  generalize (if (dirs ⟨table, none⟩).isSome then
    (rename ⟨table, none⟩ (dirs.backup table)).apply dirs else dirs) = moved at gone waits
  constructor
  · intro fails
    obtain ⟨what, fails⟩ := isSome_iff_exists.1 fails
    rw [fails]
    exact ⟨⟨_, rfl⟩, gone⟩
  intro works
  rw [works]
  exact ⟨rfl, apply_rename (by simp) waits⟩

theorem swapOne_frame
    (ne : name.table ≠ table) : (dirs.swapOne io dest table).2 name = dirs name := by
  have away : ∀ tag, name ≠ ⟨table, tag⟩ := fun tag same => ne (congrArg DbDirName.table same)
  have aside : (if (dirs ⟨table, none⟩).isSome then
      (rename ⟨table, none⟩ (dirs.backup table)).apply dirs else dirs) name = dirs name := by
    split
    · exact apply_rename_of_ne (away _) (away _)
    · rfl
  unfold swapOne
  dsimp only
  split
  · rfl
  split
  · rfl
  split
  · rfl
  split
  · exact aside
  · exact (apply_rename_of_ne (away _) (away _)).trans aside

/-- There is a sibling to bring in, or the live database will be copied to one. -/
def HasIncoming (dirs : KvDirs) (dest : DbEngine) (table : KvTable) : Prop :=
  dirs.detect ⟨table, none⟩ ≠ .none ∨ (dirs ⟨table, some dest⟩).isSome

def SwapFails (io : MigrateIo) (dirs : KvDirs) (dest : DbEngine) (table : KvTable) : Prop :=
  HasIncoming dirs dest table ∧ (Blocked io dirs table ∨ (io.into table).isSome)

def Torn (io : MigrateIo) (dirs : KvDirs) (dest : DbEngine) (table : KvTable) : Prop :=
  HasIncoming dirs dest table ∧ ¬ Blocked io dirs table ∧ (dirs ⟨table, none⟩).isSome ∧
    (io.into table).isSome

structure Prepared (dirs d : KvDirs) (dest : DbEngine) (table : KvTable) : Prop where
  live : (d ⟨table, none⟩).map files = (dirs ⟨table, none⟩).map files
  detect : d.detect ⟨table, none⟩ = dirs.detect ⟨table, none⟩
  incoming : (d ⟨table, some dest⟩).map files = dirs.incomingFiles dest table
  others : ∀ e ≠ dest, d ⟨table, some e⟩ = dirs ⟨table, some e⟩

variable {d d' : KvDirs} {io : MigrateIo}

theorem isSome_of_map_files_eq {a b : Option DbDir} (same : a.map files = b.map files) :
    a.isSome = b.isSome := by
  have isSome := congrArg isSome same
  rwa [isSome_map, isSome_map] at isSome

section
variable (prepared : Prepared dirs d dest table)
include prepared

theorem Prepared.congr
    (same : ∀ tag, d' ⟨table, tag⟩ = d ⟨table, tag⟩) : Prepared dirs d' dest table where
  live := by rw [same, prepared.live]
  detect := (detect_congr (same none)).trans prepared.detect
  incoming := by rw [same, prepared.incoming]
  others e ne := (same _).trans (prepared.others e ne)

theorem Prepared.hasIncoming : (d ⟨table, some dest⟩).isSome ↔ HasIncoming dirs dest table := by
  have isSome : (d ⟨table, some dest⟩).isSome = (dirs.incomingFiles dest table).isSome := by
    rw [← prepared.incoming, isSome_map]
  rw [isSome]
  unfold incomingFiles HasIncoming
  split
  case isTrue empty => simp [empty]
  case isFalse has => simp [has]

private theorem Prepared.blocked
    (copies : Copies dirs dest table) : Blocked io d table ↔ Blocked io dirs table := by
  have names : d.backup table = dirs.backup table := by
    unfold backup
    rw [prepared.detect]
  have taken : (d (dirs.backup table)).isSome = (dirs (dirs.backup table)).isSome := by
    unfold backup
    split
    case isTrue empty =>
      by_cases same : DbEngine.leveldb = dest
      · have kept := prepared.incoming
        rw [incomingFiles, if_pos empty, ← same] at kept
        exact isSome_of_map_files_eq kept
      · rw [prepared.others _ same]
    case isFalse has =>
      have guards := copies.resolve_left has
      rw [prepared.others _ guards.differ]
  have live := isSome_of_map_files_eq prepared.live
  unfold Blocked
  rw [names, taken, live]

private theorem Prepared.swapOne_ends (copies : Copies dirs dest table) :
    ((∃ e, (d.swapOne io dest table).1 = .error e) ↔ SwapFails io dirs dest table) ∧
      (SwapFails io dirs dest table → (((d.swapOne io dest table).2 ⟨table, none⟩).map files =
          (dirs ⟨table, none⟩).map files ↔ ¬ Torn io dirs dest table)) ∧
      (¬ SwapFails io dirs dest table → ((d.swapOne io dest table).2 ⟨table, none⟩).map files =
          if (d ⟨table, some dest⟩).isSome then dirs.incomingFiles dest table
          else (dirs ⟨table, none⟩).map files) := by
  obtain ⟨nothing, blocked, free⟩ := swapOne_spec
  rw [prepared.blocked copies] at blocked free
  have there := prepared.hasIncoming
  have live := isSome_of_map_files_eq prepared.live
  unfold SwapFails Torn
  rw [← there, ← live]
  cases copy : d ⟨table, some dest⟩ with
  | none =>
    rw [nothing copy]
    simp [prepared.live]
  | some dir =>
    have isSome : (d ⟨table, some dest⟩).isSome := by simp [copy]
    by_cases stuck : Blocked io dirs table
    · obtain ⟨e, fails⟩ := blocked isSome stuck
      rw [fails]
      simp [stuck, prepared.live]
    obtain ⟨tears, swaps⟩ := free isSome stuck
    cases into : io.into table with
    | none =>
      obtain ⟨ends, taken⟩ := swaps into
      rw [ends, taken, prepared.incoming]
      simp [stuck]
    | some _ =>
      obtain ⟨ends, gone⟩ := tears (by simp [into])
      rw [gone, ← prepared.live]
      cases d ⟨table, none⟩ with
      | none | some dir => simp [stuck, ends]

end

theorem prepared_copyTable (fine : io.copy table = {}) (copies : Copies dirs dest table) :
    Prepared dirs (dirs.copyTable io dest table).2 dest table := by
  obtain ⟨-, live, detect, incoming⟩ := copyTable_fine fine copies
  refine ⟨live, detect, incoming, fun _ ne => copyTable_frame dirs (by simp) ?_⟩
  simpa using ne

section
variable (same : ∀ tag, d ⟨table, tag⟩ = dirs ⟨table, tag⟩)
include same

private theorem copies_congr :
    Copies d dest table ↔ Copies dirs dest table := by
  have guards : ∀ dirs : KvDirs, CopyGuards dirs ⟨table, none⟩ ⟨table, some dest⟩ dest ↔
      Supported (dirs.detect ⟨table, none⟩) ∧ Supported dest ∧ dirs.detect ⟨table, none⟩ ≠ dest ∧
        dirs.detect ⟨table, some dest⟩ = .none :=
    fun _ => ⟨fun ⟨a, b, c, d⟩ => ⟨a, b, c, d⟩, fun ⟨a, b, c, d⟩ => ⟨a, b, c, d⟩⟩
  rw [Copies, Copies, guards, guards, detect_congr (same none), detect_congr (same (some dest))]

theorem Prepared.of_same
    (prepared : Prepared d d' dest table) : Prepared dirs d' dest table where
  live := by rw [prepared.live, same]
  detect := prepared.detect.trans (detect_congr (same none))
  incoming := by
    rw [prepared.incoming, incomingFiles, incomingFiles, same, same, detect_congr (same none)]
  others e ne := (prepared.others e ne).trans (same _)

end

/-- The live directories are there as before, with the databases they had. The copy may have written
their ENGINE stamps. -/
def LiveKept (dirs d : KvDirs) : Prop :=
  ∀ table, (d ⟨table, none⟩).map files = (dirs ⟨table, none⟩).map files

theorem liveKept_iff : LiveKept dirs d ↔
    (d ⟨.chainstate, none⟩).map files = (dirs ⟨.chainstate, none⟩).map files ∧
      (d ⟨.index, none⟩).map files = (dirs ⟨.index, none⟩).map files := by
  refine ⟨fun kept => ⟨kept .chainstate, kept .index⟩, fun both table => ?_⟩
  cases table with
  | chainstate => exact both.1
  | index => exact both.2

private theorem dbMigration_refused_index (valid : DbEngine.parse value ≠ .unknown)
    (chain : dirs.copyTable io (DbEngine.parse value) .chainstate = (.ok n, d))
    (refused : ¬ Copies d (DbEngine.parse value) .index) :
    (dirs.runRequestedDbMigration (some value) swapdb io).2 = d := by
  obtain ⟨_, refused⟩ := copyTable_refused refused
  unfold runRequestedDbMigration
  dsimp only
  rw [if_neg (by simp [valid, parse_ne_none]), chain]
  dsimp only
  rw [refused]

theorem dbMigration_swaps (valid : DbEngine.parse value ≠ .unknown)
    (chain : dirs.copyTable io (DbEngine.parse value) .chainstate = (.ok n, d))
    (index : d.copyTable io (DbEngine.parse value) .index = (.ok m, d')) :
    dirs.runRequestedDbMigration (some value) true io = d'.swapBoth io (DbEngine.parse value) := by
  unfold runRequestedDbMigration
  dsimp only
  rw [if_neg (by simp [valid, parse_ne_none]), chain]
  dsimp only
  rw [index]
  rfl

private theorem dbMigration_refused
    (refused : DbEngine.parse value = .unknown ∨ ¬ Copies dirs (DbEngine.parse value) .chainstate) :
    (dirs.runRequestedDbMigration (some value) swapdb io).2 = dirs := by
  unfold runRequestedDbMigration
  dsimp only
  split
  · rfl
  case isFalse valid =>
    have known : DbEngine.parse value ≠ .unknown := by
      simp only [Bool.or_eq_true, decide_eq_true_eq, not_or] at valid
      exact valid.1
    obtain ⟨_, refused⟩ := copyTable_refused (refused.resolve_left known)
    rw [refused]

theorem copyTables_fine (fine : ∀ table, io.copy table = {})
    (chainstate : Copies dirs dest .chainstate) :
    ∃ n d, dirs.copyTable io dest .chainstate = (.ok n, d) ∧
      (∀ tag, d ⟨.index, tag⟩ = dirs ⟨.index, tag⟩) ∧ Prepared dirs d dest .chainstate ∧
      (Copies dirs dest .index → ∃ m d', d.copyTable io dest .index = (.ok m, d') ∧
        Prepared dirs d' dest .chainstate ∧ Prepared dirs d' dest .index) := by
  obtain ⟨⟨n, ends⟩, -⟩ := copyTable_fine (fine .chainstate) chainstate
  have same : ∀ tag, (dirs.copyTable io dest .chainstate).2 ⟨.index, tag⟩ = dirs ⟨.index, tag⟩ :=
    fun tag => copyTable_frame dirs (by simp) (by simp)
  have prepared := prepared_copyTable (fine .chainstate) chainstate
  refine ⟨n, _, Prod.ext ends rfl, same, prepared, fun index => ?_⟩
  have index := (copies_congr same).2 index
  obtain ⟨⟨m, ends'⟩, -⟩ := copyTable_fine (fine .index) index
  refine ⟨m, _, Prod.ext ends' rfl, prepared.congr fun tag => ?_,
    (prepared_copyTable (fine .index) index).of_same same⟩
  exact copyTable_frame _ (by simp) (by simp)

theorem Prepared.swapBoth_iff (chainstate : Prepared dirs d dest .chainstate)
    (index : Prepared dirs d dest .index) (copies : Copies dirs dest .chainstate)
    (copies' : Copies dirs dest .index) :
    ((∃ e, (d.swapBoth io dest).1 = .error e) → LiveKept dirs (d.swapBoth io dest).2) ↔
      ¬ Torn io dirs dest .chainstate ∧
        (¬ SwapFails io dirs dest .chainstate → SwapFails io dirs dest .index →
          ¬ Torn io dirs dest .index ∧ (HasIncoming dirs dest .chainstate →
            dirs.incomingFiles dest .chainstate = (dirs ⟨.chainstate, none⟩).map files)) := by
  obtain ⟨fails, torn, swapped⟩ := chainstate.swapOne_ends copies
  have frame : ∀ tag, (d.swapOne io dest .chainstate).2 ⟨.index, tag⟩ = d ⟨.index, tag⟩ :=
    fun tag => swapOne_frame (by simp)
  obtain ⟨fails', torn', -⟩ := (index.congr frame).swapOne_ends copies'
  have frame' : ((d.swapOne io dest .chainstate).2.swapOne io dest .index).2 ⟨.chainstate, none⟩ =
      (d.swapOne io dest .chainstate).2 ⟨.chainstate, none⟩ := swapOne_frame (by simp)
  have tears : Torn io dirs dest .chainstate → SwapFails io dirs dest .chainstate :=
    fun ⟨has, _, _, fails⟩ => ⟨has, .inr fails⟩
  unfold swapBoth
  cases swap : d.swapOne io dest .chainstate with
  | mk result after =>
    rw [swap] at fails torn swapped frame fails' torn' frame'
    cases result with
    | error e =>
      -- The index has not been touched.
      have failed := fails.1 ⟨e, rfl⟩
      have rest : (after ⟨.index, none⟩).map files = (dirs ⟨.index, none⟩).map files := by
        rw [← index.live, ← frame none]
      rw [liveKept_iff]
      refine ⟨fun kept => ⟨(torn failed).1 (kept ⟨e, rfl⟩).1, fun works => absurd failed works⟩,
        fun ⟨whole, _⟩ _ => ⟨(torn failed).2 whole, rest⟩⟩
    | ok =>
      have works : ¬ SwapFails io dirs dest .chainstate := fun failed => by
        obtain ⟨e, ends⟩ := fails.2 failed
        cases ends
      have live := (congrArg (Option.map files) frame').trans (swapped works)
      rw [liveKept_iff]
      constructor
      · refine fun kept => ⟨fun torn => works (tears torn), fun _ failed => ?_⟩
        obtain ⟨first, second⟩ := kept (fails'.2 failed)
        refine ⟨(torn' failed).1 second, fun has => ?_⟩
        rw [if_pos (chainstate.hasIncoming.2 has)] at live
        exact live.symm.trans first
      rintro ⟨-, whole⟩ ends
      have failed := fails'.1 ends
      obtain ⟨kept, same⟩ := whole works failed
      refine ⟨live.trans ?_, (torn' failed).2 kept⟩
      split
      case isTrue has => exact same (chainstate.hasIncoming.1 has)
      case isFalse => rfl

/-- With a copy that works, a failed `-swapdb` leaves the live databases as they were exactly if the
directory that was moved aside is always replaced, and the index does not fail after the
chainstate was swapped for something else. -/
theorem swapdb_keeps_live_iff (value : String) (io : MigrateIo) (fine : ∀ table, io.copy table = {})
    (dirs : KvDirs) :
    ((∃ e, (dirs.runRequestedDbMigration (some value) true io).1 = .error e) →
        LiveKept dirs (dirs.runRequestedDbMigration (some value) true io).2) ↔
      DbEngine.parse value = .unknown ∨ ¬ Copies dirs (DbEngine.parse value) .chainstate ∨
        ¬ Copies dirs (DbEngine.parse value) .index ∨
        ¬ Torn io dirs (DbEngine.parse value) .chainstate ∧
          (¬ SwapFails io dirs (DbEngine.parse value) .chainstate →
            SwapFails io dirs (DbEngine.parse value) .index →
            ¬ Torn io dirs (DbEngine.parse value) .index ∧
              (HasIncoming dirs (DbEngine.parse value) .chainstate →
                dirs.incomingFiles (DbEngine.parse value) .chainstate =
                  (dirs ⟨.chainstate, none⟩).map DbDir.files)) := by
  by_cases valid : DbEngine.parse value = .unknown
  · rw [dbMigration_refused (.inl valid)]
    exact ⟨fun _ => .inl valid, fun _ _ _ => rfl⟩
  by_cases copies : Copies dirs (DbEngine.parse value) .chainstate
  case neg =>
    rw [dbMigration_refused (.inr copies)]
    exact ⟨fun _ => .inr (.inl copies), fun _ _ _ => rfl⟩
  obtain ⟨_, _, chain, same, prepared, second⟩ := copyTables_fine fine copies
  by_cases copies' : Copies dirs (DbEngine.parse value) .index
  case neg =>
    rw [dbMigration_refused_index valid chain (mt (copies_congr same).1 copies')]
    refine ⟨fun _ => .inr (.inr (.inl copies')), fun _ _ => liveKept_iff.2 ⟨prepared.live, ?_⟩⟩
    rw [same]
  obtain ⟨_, _, index, chainstate, indexed⟩ := second copies'
  rw [or_iff_right valid, or_iff_right (not_not.2 copies), or_iff_right (not_not.2 copies'),
    dbMigration_swaps valid chain index]
  exact chainstate.swapBoth_iff indexed copies copies'

/-- The chainstate cannot be moved aside. -/
theorem swapdb_keeps_live_blocked : (∃ e, (leveldbDirs.runRequestedDbMigration (some "mdbx") true
        { aside := fun _ => some "denied" }).1 = .error e) ∧
      LiveKept leveldbDirs (leveldbDirs.runRequestedDbMigration (some "mdbx") true
        { aside := fun _ => some "denied" }).2 := by
  have ends : ∃ e, (leveldbDirs.runRequestedDbMigration (some "mdbx") true
      { aside := fun _ => some "denied" }).1 = .error e := ⟨.rename "denied", by decide⟩
  have blocked : Blocked { aside := fun _ => some "denied" } leveldbDirs .chainstate :=
    .inr ⟨rfl, rfl⟩
  refine ⟨ends, (swapdb_keeps_live_iff "mdbx" { aside := fun _ => some "denied" } (fun _ => rfl)
    leveldbDirs).2 (.inr (.inr (.inr ⟨fun torn => torn.2.1 blocked, fun works => ?_⟩))) ends⟩
  refine absurd ⟨.inl ?_, .inl blocked⟩ works
  decide

/-- The rename of the index fails: the chainstate is MDBX by then, and there is no live index. -/
theorem swapdb_leaves_half :
    ∃ io : MigrateIo, (leveldbDirs.runRequestedDbMigration (some "mdbx") true io).1 =
        .error (.rename "denied") ∧
      (leveldbDirs.runRequestedDbMigration (some "mdbx") true io).2.detect ⟨.chainstate, none⟩ =
        .mdbx ∧
      (leveldbDirs.runRequestedDbMigration (some "mdbx") true io).2 ⟨.index, none⟩ = none :=
  ⟨{ into := fun table => if table = .index then some "denied" else none }, by decide,
    by decide, by decide⟩

end KvDirs
end DogecoinCore
