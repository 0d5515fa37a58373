import DogecoinCore.DbEngine

/-! A database directory over its life: opens, writes, closes and crashes. As long as no open
leaves a stamp of the other engine behind, the directory's files and its stamp never
disagree, and an open finds the engine that has the data. -/
namespace DogecoinCore
open Option

namespace DbDir
variable {dir : DbDir} {e other : DbEngine} {io : OpenIo}

def StampFits (dir : DbDir) (e : DbEngine) : Prop :=
  dir.stampEngine = none ∨ dir.stampEngine = some e ∨ dir.stampEngine = some .unknown

instance decidableStampFits (dir : DbDir) (e : DbEngine) : Decidable (dir.StampFits e) :=
  inferInstanceAs (Decidable (_ ∨ _ ∨ _))

theorem stampFits_writeEngineStamp (supported : Supported e)
    (kept : io.stamp = none → dir.StampFits e) : (dir.writeEngineStamp io e).StampFits e := by
  unfold writeEngineStamp
  cases written : io.stamp with
  | none => exact kept written
  | some k =>
    have short : ∀ text : List Char, text.length ≤ 8 → text.take k = text.take (min k 8) := by
      intro text length
      rw [List.take_eq_take_iff]
      omega
    have parts : ∀ j ≤ 8, ∀ e ∈ [DbEngine.leveldb, .mdbx],
        StampFits { stamp := some (String.ofList ((e.name ++ "\n").toList.take j)) } e := by
      decide
    dsimp only
    rcases supported with rfl | rfl
    · have text : ((DbEngine.leveldb.name ++ "\n").toList).length ≤ 8 := by decide
      rw [short _ text]
      exact parts (min k 8) (Nat.min_le_right k 8) .leveldb (by decide)
    have text : ((DbEngine.mdbx.name ++ "\n").toList).length ≤ 8 := by decide
    rw [short _ text]
    exact parts (min k 8) (Nat.min_le_right k 8) .mdbx (by decide)

/-- The directory has the files of one engine at most, and no stamp of the other. -/
def Consistent (dir : DbDir) : Prop :=
  ∀ e, (dir.files e).isSome → (∀ other ≠ e, dir.files other = none) ∧ dir.StampFits e

theorem detect_of_files (consistent : dir.Consistent) (has : (dir.files e).isSome) :
    dir.detectExistingEngine = e ∨ dir.detectExistingEngine = .unknown := by
  obtain ⟨alone, fits⟩ := consistent e has
  have supported := supported_of_files has
  unfold detectExistingEngine
  rcases fits with none | same | unknown
  · rw [none]
    rcases supported with rfl | rfl
    · exact .inl (if_pos has)
    left
    dsimp only
    rw [alone .leveldb (by decide), if_neg (by decide), if_pos has]
  · rw [same]
    rcases supported with rfl | rfl
    · exact .inl (if_neg (by simp [has]))
    · exact .inl (if_neg (by simp [has]))
  · rw [unknown]
    exact .inr rfl

theorem files_of_detect (detected : dir.detectExistingEngine = e) (supported : Supported e) :
    (dir.files e).isSome := by
  by_contra missing
  rw [not_isSome_iff_eq_none] at missing
  rcases supported with rfl | rfl
  · simp only [detectExistingEngine, missing] at detected
    split at detected
    · cases detected
    · split at detected <;> cases detected
    · cases detected
    · simp only [isSome_none, Bool.false_eq_true, if_false] at detected
      split at detected <;> cases detected
  simp only [detectExistingEngine, missing] at detected
  split at detected
  · split at detected <;> cases detected
  · cases detected
  · cases detected
  · simp only [isSome_none, Bool.false_eq_true, if_false] at detected
    split at detected <;> cases detected

theorem parse_ne_none : DbEngine.parse s ≠ .none := by
  unfold DbEngine.parse
  dsimp only
  split
  · decide
  · split <;> decide

theorem selectDbEngine_ne_none (engineOverride : DbEngine) (dbengine : Option String) :
    dir.selectDbEngine engineOverride dbengine ≠ .none := by
  unfold selectDbEngine
  split
  · assumption
  dsimp only
  split
  case isTrue found =>
    intro none
    simp [none] at found
  case isFalse =>
    split
    · exact parse_ne_none
    · decide

private theorem cdbWrapper_cases (io : OpenIo) (dir : DbDir) :
    (∃ message, dir.cdbWrapper path engineOverride dbengine fWipe io = (.error message, dir)) ∨
      Supported (dir.selectDbEngine engineOverride dbengine) ∧ (dir.detectExistingEngine = .none ∨
          dir.detectExistingEngine = dir.selectDbEngine engineOverride dbengine) ∧
        dir.cdbWrapper path engineOverride dbengine fWipe io =
          dir.openBackend (dir.selectDbEngine engineOverride dbengine) fWipe io := by
  have present := dir.selectDbEngine_ne_none engineOverride dbengine
  unfold cdbWrapper
  generalize dir.selectDbEngine engineOverride dbengine = engine at present
  dsimp only
  split
  · exact .inl ⟨_, rfl⟩
  case isFalse known =>
    split
    · exact .inl ⟨_, rfl⟩
    case isFalse same =>
      refine .inr ⟨?_, ?_, rfl⟩
      · cases engine with
        | none => exact absurd rfl present
        | leveldb => exact .inl rfl
        | mdbx => exact .inr rfl
        | unknown => exact absurd rfl known
      by_cases empty : dir.detectExistingEngine = .none
      · exact .inl empty
      · exact .inr (by simpa [empty] using same)

theorem stampFits_wiped (fits : dir.StampFits e ∨ fWipe = true ∧ e = .mdbx ∧ io.wipeStamp = true) :
    (if fWipe then dir.wipe io e else dir).StampFits e := by
  have same : dir.StampFits e → (dir.setFiles e ((dir.files e).bind io.wipeFiles)).StampFits e := by
    unfold StampFits stampEngine
    rw [stamp_setFiles]
    exact id
  rcases fits with fits | ⟨rfl, rfl, drops⟩
  · split
    · unfold wipe
      split
      · exact .inl rfl
      · exact same fits
    · exact fits
  · rw [if_pos rfl, wipe, drops]
    exact .inl rfl

private theorem isSome_files_of_wiped {fWipe : Bool} (supported : Supported e)
    (has : ((if fWipe then dir.wipe io e else dir).files e).isSome) : (dir.files e).isSome := by
  cases fWipe with
  | false => exact has
  | true =>
    rw [if_pos rfl] at has
    by_contra missing
    rw [not_isSome_iff_eq_none] at missing
    unfold wipe at has
    rw [missing] at has
    rcases supported with rfl | rfl
    · simp [setFiles, files] at has
    · split at has <;> simp [setFiles, files] at has

/-- The open creates files of its engine under a stamp of the other one, and leaves the stamp. -/
def KeepsOtherStamp (dir : DbDir) (e : DbEngine) (fWipe : Bool) (io : OpenIo) : Prop :=
  dir.detectExistingEngine = .none ∧ ¬ dir.StampFits e ∧ io.reach ≠ .wiped ∧
    (io.reach = .created ∨ io.stamp = none) ∧ ¬ (fWipe = true ∧ e = .mdbx ∧ io.wipeStamp = true)

section
variable (consistent : dir.Consistent)
include consistent

theorem consistent_openBackend (supported : Supported e)
    (detected : dir.detectExistingEngine = .none ∨ dir.detectExistingEngine = e)
    (replaced : ¬ dir.KeepsOtherStamp e fWipe io) : (dir.openBackend e fWipe io).2.Consistent := by
  have alone : ∀ other ≠ e, dir.files other = none := by
    rcases detected with empty | same
    · intro other _
      by_contra has
      have has := isSome_iff_ne_none.2 has
      rcases detect_of_files consistent has with found | found
      · rw [found] at empty
        rcases supported_of_files has with rfl | rfl <;> cases empty
      · cases found.symm.trans empty
    · exact (consistent e (files_of_detect same supported)).1
  -- Only the engine of the open can have files afterwards, so only its stamp matters.
  suffices stamp : ((dir.openBackend e fWipe io).2.files e).isSome →
      (dir.openBackend e fWipe io).2.StampFits e by
    intro other has
    by_cases same : other = e
    · subst same
      exact ⟨fun third ne => (files_openBackend_of_ne ne).trans (alone third ne), stamp has⟩
    · rw [files_openBackend_of_ne same, alone other same] at has
      cases has
  have fits : (dir.files e).isSome → dir.StampFits e := fun has => (consistent e has).2
  have kept : io.reach ≠ .wiped → io.reach = .created ∨ io.stamp = none →
      (if fWipe then dir.wipe io e else dir).StampFits e := by
    intro through stays
    refine stampFits_wiped (or_iff_not_imp_left.2 fun unfit => ?_)
    have empty : dir.detectExistingEngine = .none :=
      detected.resolve_right fun same => unfit (fits (files_of_detect same supported))
    by_contra stamped
    exact replaced ⟨empty, unfit, through, stays, stamped⟩
  have before : ((if fWipe then dir.wipe io e else dir).files e).isSome → (dir.files e).isSome :=
    isSome_files_of_wiped supported
  have wiped : ((if fWipe then dir.wipe io e else dir).files e).isSome →
      (if fWipe then dir.wipe io e else dir).StampFits e :=
    fun has => stampFits_wiped (.inl (fits (before has)))
  unfold openBackend
  generalize (if fWipe then dir.wipe io e else dir) = dir' at kept wiped
  have created : dir'.StampFits e → (dir'.createFiles e).StampFits e := by
    unfold StampFits stampEngine createFiles
    rw [stamp_setFiles]
    exact id
  split
  case isTrue => exact wiped
  case isFalse through =>
    split
    case isTrue stop => exact fun _ => created (kept through (.inl stop))
    case isFalse =>
      have stamped :=
          stampFits_writeEngineStamp supported fun unwritten => created (kept through (.inr unwritten))
      split <;> exact fun _ => stamped

theorem consistent_cdbWrapper
    (replaced : ¬ dir.KeepsOtherStamp (dir.selectDbEngine engineOverride dbengine) fWipe io) :
    (dir.cdbWrapper path engineOverride dbengine fWipe io).2.Consistent := by
  rcases cdbWrapper_cases io dir with
    ⟨message, threw⟩ | ⟨supported, detected, opened⟩
  · rw [threw]
    exact consistent
  · rw [opened]
    exact consistent_openBackend consistent supported detected replaced

private theorem consistent_map_files (e : DbEngine)
    (change : KvStore → KvStore) :
    (dir.setFiles e ((dir.files e).map change)).Consistent := by
  have isSome : ∀ other, ((dir.setFiles e ((dir.files e).map change)).files other).isSome =
      (dir.files other).isSome := by
    intro other
    by_cases same : other = e
    · subst same
      cases other with
      | none | unknown => rfl
      | leveldb | mdbx => exact isSome_map
    · rw [files_setFiles_of_ne same]
  intro first has
  rw [isSome] at has
  obtain ⟨alone, fits⟩ := consistent first has
  refine ⟨fun other ne => ?_, ?_⟩
  · rw [← not_isSome_iff_eq_none, isSome, alone other ne]
    exact Bool.false_ne_true
  unfold StampFits stampEngine at *
  rw [stamp_setFiles]
  exact fits

end

end DbDir

/-- The directory and the engine of the wrapper that has it open, if any. -/
structure DbSession where
  dir : DbDir
  engine : Option DbEngine := none

/-- What can happen to a directory. A crash may take back some of what was written. -/
inductive DbStep where
  | openDb (engineOverride : DbEngine) (dbengine : Option String) (fWipe : Bool) (io : DbDir.OpenIo)
  | write (batch : KvStore → KvStore)
  | close
  | crash (left : KvStore → KvStore)

namespace DbSession
open DbDir
variable {path : String} {start s s' : DbSession} {a : DbStep}

def change (s : DbSession) (f : KvStore → KvStore) : DbDir :=
  match s.engine with
  | none => s.dir
  | some e => s.dir.setFiles e ((s.dir.files e).map f)

def step (path : String) (s : DbSession) : DbStep → Option DbSession
  | .openDb engineOverride dbengine fWipe io =>
    if s.engine.isSome then none
    else
      let (result, dir) := s.dir.cdbWrapper path engineOverride dbengine fWipe io
      some ⟨dir, result.toOption⟩
  | .write batch => some { s with dir := s.change batch }
  | .close => some { s with engine := none }
  | .crash left => some ⟨s.change left, none⟩

/-- The step does not leave a stamp of the other engine over the files it creates. -/
def Restamps (s : DbSession) : DbStep → Prop
  | .openDb engineOverride dbengine fWipe io =>
    ¬ s.dir.KeepsOtherStamp (s.dir.selectDbEngine engineOverride dbengine) fWipe io
  | _ => True

/-- The states of runs in which every open replaces a stamp of the other engine. -/
inductive Reachable (path : String) (start : DbSession) : DbSession → Prop
  | refl : Reachable path start start
  | step {s s' : DbSession} {a : DbStep} : Reachable path start s → s.Restamps a →
      s.step path a = some s' → Reachable path start s'

theorem consistent_change (consistent : s.dir.Consistent) (f : KvStore → KvStore) :
    (s.change f).Consistent := by
  unfold change
  split
  · exact consistent
  · exact consistent_map_files consistent _ f

theorem consistent_step (consistent : s.dir.Consistent) (restamps : s.Restamps a)
    (ran : s.step path a = some s') : s'.dir.Consistent := by
  cases a with
  | openDb _ _ _ _ =>
    simp only [step] at ran
    split at ran
    · cases ran
    · cases ran
      exact consistent_cdbWrapper consistent restamps
  | write batch =>
    cases ran
    exact consistent_change consistent batch
  | close =>
    cases ran
    exact consistent
  | crash left =>
    cases ran
    exact consistent_change consistent left

theorem Reachable.consistent (reach : Reachable path start s) (consistent : start.dir.Consistent) :
    s.dir.Consistent := by
  induction reach with
  | refl => exact consistent
  | step _ restamps ran ih => exact consistent_step ih restamps ran

/-- Where every open replaces a stamp of the other engine, a directory with the files of one engine
is opened with that engine or not at all, and no files of another engine appear. -/
theorem open_finds_engine (path : String) (start : DbSession) (consistent : start.dir.Consistent)
    (s : DbSession) (reach : Reachable path start s) (e : DbEngine)
    (has : (s.dir.files e).isSome) (dbengine : Option String) (io : OpenIo) :
    (s.dir.selectDbEngine .none dbengine = e ∨
        ∃ message, s.dir.cdbWrapper path .none dbengine false io = (.error message, s.dir)) ∧
      ∀ other ≠ e, (s.dir.cdbWrapper path .none dbengine false io).2.files other =
        s.dir.files other := by
  have detected := detect_of_files (reach.consistent consistent) has
  rcases cdbWrapper_cases io s.dir with
    ⟨message, threw⟩ | ⟨supported, found, opened⟩
  · rw [threw]
    exact ⟨.inr ⟨message, rfl⟩, fun _ _ => rfl⟩
  have same : s.dir.selectDbEngine .none dbengine = e := by
    rcases detected with same | unknown
    · rcases found with empty | found
      · have none : e = .none := same.symm.trans empty
        rcases supported_of_files has with present | present <;> cases none.symm.trans present
      · exact found.symm.trans same
    rcases found with empty | found
    · cases unknown.symm.trans empty
    · have unsupported := found.symm.trans unknown
      rcases supported with present | present <;> cases unsupported.symm.trans present
  rw [opened, same]
  exact ⟨.inl rfl, fun other ne => files_openBackend_of_ne ne⟩

/-- A new MDBX directory with one pair in it. -/
theorem open_finds_engine_mdbx :
    ∃ s, Reachable "chainstate" ⟨{}, none⟩ s ∧ s.dir.files .mdbx = some [([1], [2])] ∧
      ((s.dir.selectDbEngine .none (some "leveldb") = .mdbx ∨
          ∃ message, s.dir.cdbWrapper "chainstate" .none (some "leveldb") false {} =
            (.error message, s.dir)) ∧
        ∀ other ≠ .mdbx, (s.dir.cdbWrapper "chainstate" .none (some "leveldb") false {}).2.files
          other = s.dir.files other) := by
  have opened : Reachable "chainstate" ⟨{}, none⟩ _ :=
    .step (a := .openDb .none (some "mdbx") false {}) .refl (fun keeps => keeps.2.1 (.inl rfl)) rfl
  have wrote := opened.step (a := .write fun pairs => pairs ++ [([1], [2])]) trivial rfl
  refine ⟨_, wrote, by decide, ?_⟩
  exact open_finds_engine "chainstate" ⟨{}, none⟩ (by rintro ⟨⟩ ⟨⟩) _ wrote .mdbx (by decide)
    (some "leveldb") {}

/-- A crash in a wipe leaves LevelDB's stamp without its files. The directory is then opened with
MDBX, but its stamp cannot be written. -/
def hiddenRun : List DbStep :=
  [.openDb .none none false {}, .close, .openDb .none none true { reach := .wiped },
    .openDb .none (some "mdbx") false { stamp := none }, .write fun pairs => pairs ++ [([1], [2])],
    .close]

/-- The next open makes an empty LevelDB next to the pair in MDBX. -/
theorem open_hides_pairs : ∃ s, hiddenRun.foldlM (step "chainstate") ⟨{}, none⟩ = some s ∧
      s.dir.files .mdbx = some [([1], [2])] ∧ s.dir.files .leveldb = none ∧
      (s.dir.cdbWrapper "chainstate" .none none false {}).1 = .ok .leveldb ∧
      (s.dir.cdbWrapper "chainstate" .none none false {}).2.files .leveldb = some [] ∧
      (s.dir.cdbWrapper "chainstate" .none none false {}).2.files .mdbx = some [([1], [2])] := by
  exact ⟨_, rfl, by decide, by decide, by rfl, by decide, by decide⟩

end DbSession
end DogecoinCore
