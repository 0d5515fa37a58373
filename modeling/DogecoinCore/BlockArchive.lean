import DogecoinCore.FileSystem
import Mathlib.Data.List.Nodup

/-! The block archive: before a pruned pair of block files is deleted it is copied to
`-archivepath`, and a sidecar next to each copy names the digest of what was copied. The
digest is free, and so is which reads and writes succeed. -/
namespace DogecoinCore
open List Function Option

inductive FileKind where
  | blk | rev
  deriving DecidableEq, Repr

structure BlockFileName where
  kind : FileKind
  nFile : ℕ
  deriving DecidableEq, Repr

abbrev FileDir := BlockFileName → Option (List UInt8)

/-- The live blocks directory, and the archive with the texts of its sidecars. -/
structure BlockDirs where
  live : FileDir
  archive : FileDir
  sidecar : BlockFileName → Option String

/-- How reads and writes end. A copy that throws and a sidecar that cannot be written leave
something behind. -/
structure ArchiveIo where
  hashSrc : BlockFileName → Bool := fun _ => true
  /-- What is left of a copy that fails. -/
  copyFails : BlockFileName → Option (Option (List UInt8)) := fun _ => none
  hashDest : BlockFileName → Bool := fun _ => true
  /-- What is left of a sidecar that is not written. -/
  sidecarFails : BlockFileName → Option (Option String) := fun _ => none

/-- `in >> got`. -/
def firstToken (text : String) : String :=
  String.ofList ((text.toList.dropWhile isSpace).takeWhile fun c => !isSpace c)

namespace BlockDirs
variable (hex : List UInt8 → String) (io : ArchiveIo)

def sidecarMatches (dirs : BlockDirs) (name : BlockFileName) (digest : String) : Bool :=
  match dirs.sidecar name with
  | none => false
  | some text => firstToken text ≠ "" && firstToken text = digest

def writeSidecar (dirs : BlockDirs) (name : BlockFileName) (digest : String) : BlockDirs :=
  { dirs with
    sidecar := update dirs.sidecar name
      ((io.sidecarFails name).getD (some (digest ++ "\n"))) }

def archiveOne (dirs : BlockDirs) (name : BlockFileName) : Bool × BlockDirs :=
  match dirs.live name with
  | none => (true, dirs)
  | some src =>
    if !io.hashSrc name then (false, dirs)
    else if (dirs.archive name).isSome && dirs.sidecarMatches name (hex src) then (true, dirs)
    else
      match io.copyFails name with
      | some left => (false, { dirs with archive := update dirs.archive name left })
      | none =>
        let dirs := { dirs with archive := update dirs.archive name (some src) }
        if !io.hashDest name || (dirs.archive name).map hex ≠ some (hex src) then (false, dirs)
        else (true, dirs.writeSidecar io name (hex src))

def archiveBlockFilePair (dirs : BlockDirs) (nFile : ℕ) : Bool × BlockDirs :=
  if (dirs.live ⟨.blk, nFile⟩).isNone then (false, dirs)
  else
    let (done, dirs) := dirs.archiveOne hex io ⟨.blk, nFile⟩
    if !done then (false, dirs) else dirs.archiveOne hex io ⟨.rev, nFile⟩

/-- `fs::remove` of a live file. -/
def remove (dirs : BlockDirs) (name : BlockFileName) : BlockDirs :=
  { dirs with live := update dirs.live name none }

/-- One turn of the loop in `UnlinkPrunedFiles`, with an archive: the directories at the moment
the pair is deleted, if it is, and afterwards. -/
def unlinkOne (dirs : BlockDirs) (nFile : ℕ) : Option BlockDirs × BlockDirs :=
  let (done, dirs) := dirs.archiveBlockFilePair hex io nFile
  if done then (some dirs, (dirs.remove ⟨.blk, nFile⟩).remove ⟨.rev, nFile⟩) else (none, dirs)

/-- The pairs it deletes, each with the directories at that moment, and the
directories it leaves. -/
def unlinkPrunedFiles : List ℕ → BlockDirs → List (ℕ × BlockDirs) × BlockDirs
  | [], dirs => ([], dirs)
  | nFile :: rest, dirs =>
    let (moment, dirs) := dirs.unlinkOne hex io nFile
    let (others, dirs) := unlinkPrunedFiles rest dirs
    ((moment.map fun at' => (nFile, at')).toList ++ others, dirs)

variable {hex io} {name other : BlockFileName}

/-- The archive has a file of the name, and its sidecar names the digest of the live file. -/
def Trusted (hex : List UInt8 → String) (dirs : BlockDirs) (name : BlockFileName) : Prop :=
  ∃ src, dirs.live name = some src ∧ (dirs.archive name).isSome ∧
    dirs.sidecarMatches name (hex src) = true

/-- The live file is missing, or it can be hashed and its copy is trusted or made. -/
def Copies (hex : List UInt8 → String) (io : ArchiveIo) (dirs : BlockDirs) (name : BlockFileName) :
    Prop :=
  dirs.live name = none ∨ io.hashSrc name = true ∧
    (Trusted hex dirs name ∨ io.copyFails name = none ∧ io.hashDest name = true)

/-- What is known of a name in two states of the directories is the same. -/
structure Agree (dirs dirs' : BlockDirs) (name : BlockFileName) : Prop where
  live : dirs'.live name = dirs.live name
  archive : dirs'.archive name = dirs.archive name
  sidecar : dirs'.sidecar name = dirs.sidecar name

theorem Agree.refl (dirs : BlockDirs) (name : BlockFileName) : Agree dirs dirs name :=
  ⟨rfl, rfl, rfl⟩

theorem Agree.trans (first : Agree dirs dirs' name)
    (second : Agree dirs' dirs'' name) : Agree dirs dirs'' name :=
  ⟨second.live.trans first.live, second.archive.trans first.archive,
    second.sidecar.trans first.sidecar⟩

theorem Agree.trusted (agree : Agree dirs dirs' name) :
    Trusted hex dirs' name ↔ Trusted hex dirs name := by
  simp [Trusted, sidecarMatches, agree.live, agree.archive, agree.sidecar]

theorem Agree.copies (agree : Agree dirs dirs' name) :
    Copies hex io dirs' name ↔ Copies hex io dirs name := by
  simp [Copies, agree.trusted, agree.live]

theorem live_archiveOne {dirs : BlockDirs} {name : BlockFileName} :
    (dirs.archiveOne hex io name).2.live = dirs.live := by
  unfold archiveOne
  split
  · rfl
  split
  · rfl
  split
  · rfl
  split
  · rfl
  · dsimp only
    split <;> rfl

theorem agree_archiveOne (ne : other ≠ name) :
    Agree dirs (dirs.archiveOne hex io name).2 other := by
  unfold archiveOne
  split
  · exact .refl dirs other
  split
  · exact .refl dirs other
  split
  · exact .refl dirs other
  split
  · exact ⟨rfl, update_of_ne ne _ _, rfl⟩
  dsimp only
  split
  · exact ⟨rfl, update_of_ne ne _ _, rfl⟩
  · exact ⟨rfl, update_of_ne ne _ _, update_of_ne ne _ _⟩

private theorem archiveOne_spec (hex : List UInt8 → String) (io : ArchiveIo) (dirs : BlockDirs)
    (name : BlockFileName) :
    ((dirs.archiveOne hex io name).1 ↔ Copies hex io dirs name) ∧
      ∀ src, dirs.live name = some src → Copies hex io dirs name →
        (Trusted hex dirs name → (dirs.archiveOne hex io name).2.archive name = dirs.archive name) ∧
        (¬ Trusted hex dirs name → (dirs.archiveOne hex io name).2.archive name = some src) := by
  unfold archiveOne
  cases live : dirs.live name with
  | none => exact ⟨by simp [Copies, live], by simp⟩
  | some src =>
    have trusted : Trusted hex dirs name ↔
        ((dirs.archive name).isSome && dirs.sidecarMatches name (hex src)) := by
      simp [Trusted, live]
    have copies : Copies hex io dirs name ↔ io.hashSrc name ∧
        (Trusted hex dirs name ∨ io.copyFails name = none ∧ io.hashDest name) := by
      simp [Copies, live]
    dsimp only
    rw [copies, trusted]
    generalize ((dirs.archive name).isSome && dirs.sidecarMatches name (hex src)) = fast
    cases io.hashSrc name with
    | false => simp
    | true =>
      cases fast with
      | true => simp
      | false =>
        cases io.copyFails name with
        | some _ => simp
        | none =>
          cases io.hashDest name with
          | false => simp
          | true => simp [writeSidecar]

private theorem archiveOne_covers (copies : Copies hex io dirs name) :
    (∀ src, dirs.live name = some src → (dirs.archiveOne hex io name).2.archive name = some src) ↔
      (Trusted hex dirs name → dirs.archive name = dirs.live name) := by
  have spec := (archiveOne_spec hex io dirs name).2
  constructor
  · intro has trusted
    obtain ⟨src, live, _⟩ := id trusted
    rw [live, ← has src live, (spec src live copies).1 trusted]
  intro honest src live
  by_cases trusted : Trusted hex dirs name
  · rw [(spec src live copies).1 trusted, honest trusted, live]
  · exact (spec src live copies).2 trusted

/-- The pair passes `ArchiveBlockFilePair`. -/
def Passes (hex : List UInt8 → String) (io : ArchiveIo) (dirs : BlockDirs) (nFile : ℕ) : Prop :=
  (dirs.live ⟨.blk, nFile⟩).isSome ∧ ∀ kind, Copies hex io dirs ⟨kind, nFile⟩

/-- Where the archive's sidecar names the live file's digest, the archive has the live file. -/
def Honest (hex : List UInt8 → String) (dirs : BlockDirs) (nFile : ℕ) : Prop :=
  ∀ kind, Trusted hex dirs ⟨kind, nFile⟩ → dirs.archive ⟨kind, nFile⟩ = dirs.live ⟨kind, nFile⟩

/-- The archive has what the live directory has of a file number. -/
def Covered (dirs : BlockDirs) (nFile : ℕ) : Prop :=
  ∀ kind src, dirs.live ⟨kind, nFile⟩ = some src → dirs.archive ⟨kind, nFile⟩ = some src

theorem agree_archivePair (ne : other.nFile ≠ nFile) :
    Agree dirs (dirs.archiveBlockFilePair hex io nFile).2 other := by
  have away : ∀ kind, other ≠ ⟨kind, nFile⟩ :=
    fun kind same => ne (congrArg BlockFileName.nFile same)
  unfold archiveBlockFilePair
  split
  · exact .refl dirs other
  have blk : Agree dirs (dirs.archiveOne hex io ⟨.blk, nFile⟩).2 other :=
    agree_archiveOne (away .blk)
  dsimp only
  split
  · exact blk
  · exact blk.trans (agree_archiveOne (away .rev))

private theorem archivePair_spec (hex : List UInt8 → String) (io : ArchiveIo) (dirs : BlockDirs)
    (nFile : ℕ) :
    ((dirs.archiveBlockFilePair hex io nFile).1 ↔ Passes hex io dirs nFile) ∧
      (Passes hex io dirs nFile →
        (Covered (dirs.archiveBlockFilePair hex io nFile).2 nFile ↔ Honest hex dirs nFile)) := by
  have first := (archiveOne_spec hex io dirs ⟨.blk, nFile⟩).1
  have rev : Agree dirs (dirs.archiveOne hex io ⟨.blk, nFile⟩).2 ⟨.rev, nFile⟩ :=
    agree_archiveOne (by simp)
  have kinds : ∀ P : FileKind → Prop, (∀ kind, P kind) ↔ P .blk ∧ P .rev := fun P =>
    ⟨fun all => ⟨all .blk, all .rev⟩, fun both kind => by
      cases kind with
      | blk => exact both.1
      | rev => exact both.2⟩
  unfold archiveBlockFilePair Passes
  cases blk : dirs.live ⟨.blk, nFile⟩ with
  | none => simp
  | some _ =>
    by_cases copies : Copies hex io dirs ⟨.blk, nFile⟩
    · have second :=
        (archiveOne_spec hex io (dirs.archiveOne hex io ⟨.blk, nFile⟩).2 ⟨.rev, nFile⟩).1
      simp only [isNone_some, Bool.false_eq_true, if_false, first.2 copies, Bool.not_true,
        isSome_some, true_and, kinds, copies, second, rev.copies]
      intro later
      have blkArchive : ((dirs.archiveOne hex io ⟨.blk, nFile⟩).2.archiveOne hex io
          ⟨.rev, nFile⟩).2.archive ⟨.blk, nFile⟩ =
          (dirs.archiveOne hex io ⟨.blk, nFile⟩).2.archive ⟨.blk, nFile⟩ :=
        (agree_archiveOne (by simp)).archive
      have covers := archiveOne_covers (rev.copies.2 later)
      rw [rev.trusted, rev.archive, rev.live] at covers
      rw [Covered, Honest, kinds, kinds, ← archiveOne_covers copies, ← covers]
      simp [live_archiveOne, blkArchive]
    have failed : (dirs.archiveOne hex io ⟨.blk, nFile⟩).1 = false := by
      rw [← Bool.not_eq_true, first]
      exact copies
    simp [failed, kinds, copies]

section
variable (agree : ∀ kind, Agree dirs dirs' ⟨kind, nFile⟩)
include agree

theorem Agree.passes :
    Passes hex io dirs' nFile ↔ Passes hex io dirs nFile := by
  simp [Passes, (agree _).live, (agree _).copies]

theorem Agree.honest :
    Honest hex dirs' nFile ↔ Honest hex dirs nFile := by
  simp [Honest, (agree _).trusted, (agree _).archive, (agree _).live]

end

theorem agree_unlinkOne (ne : other.nFile ≠ nFile) :
    Agree dirs (dirs.unlinkOne hex io nFile).2 other := by
  have away : ∀ kind, other ≠ ⟨kind, nFile⟩ :=
    fun kind same => ne (congrArg BlockFileName.nFile same)
  have pair : Agree dirs (dirs.archiveBlockFilePair hex io nFile).2 other :=
    agree_archivePair ne
  unfold unlinkOne
  dsimp only
  split
  · refine pair.trans ⟨?_, rfl, rfl⟩
    simp [remove, update_of_ne (away _)]
  · exact pair

private theorem unlinkOne_covered :
    (∀ moment, (dirs.unlinkOne hex io nFile).1 = some moment → Covered moment nFile) ↔
      (Passes hex io dirs nFile → Honest hex dirs nFile) := by
  obtain ⟨passes, covered⟩ := archivePair_spec hex io dirs nFile
  unfold unlinkOne
  by_cases passed : Passes hex io dirs nFile
  · simp [passes.2 passed, passed, covered passed]
  have failed : (dirs.archiveBlockFilePair hex io nFile).1 = false := by
    rw [← Bool.not_eq_true, passes]
    exact passed
  simp [failed, passed]

/-- Every pair is covered at the moment it is deleted exactly if, for every pair that passes the
archive, no sidecar names the digest of a live file that the archived file is not. -/
theorem unlinkPrunedFiles_covered_iff (hex : List UInt8 → String) (io : ArchiveIo)
    (setFilesToPrune : List ℕ) (distinct : setFilesToPrune.Nodup) (dirs : BlockDirs) :
    (∀ deletion ∈ (unlinkPrunedFiles hex io setFilesToPrune dirs).1,
        Covered deletion.2 deletion.1) ↔
      ∀ nFile ∈ setFilesToPrune, Passes hex io dirs nFile → Honest hex dirs nFile := by
  induction setFilesToPrune generalizing dirs with
  | nil => simp [unlinkPrunedFiles]
  | cons nFile rest ih =>
    obtain ⟨fresh, distinct⟩ := nodup_cons.1 distinct
    have agree : ∀ other ∈ rest, ∀ kind, Agree dirs (dirs.unlinkOne hex io nFile).2 ⟨kind, other⟩ :=
      fun other member kind => agree_unlinkOne fun same => fresh (same ▸ member)
    have others : (∀ other ∈ rest, Passes hex io (dirs.unlinkOne hex io nFile).2 other →
        Honest hex (dirs.unlinkOne hex io nFile).2 other) ↔
        ∀ other ∈ rest, Passes hex io dirs other → Honest hex dirs other :=
      forall₂_congr fun other member => by
        rw [Agree.passes (agree other member), Agree.honest (agree other member)]
    rw [forall_mem_cons, ← others, ← ih distinct, ← unlinkOne_covered]
    simp only [unlinkPrunedFiles, forall_mem_append, mem_toList, map_eq_some_iff,
      forall_exists_index, and_imp, forall_apply_eq_imp_iff₂]

theorem agree_unlinkPrunedFiles (setFilesToPrune : List ℕ) (dirs : BlockDirs)
    (away : other.nFile ∉ setFilesToPrune) :
    Agree dirs (unlinkPrunedFiles hex io setFilesToPrune dirs).2 other := by
  induction setFilesToPrune generalizing dirs with
  | nil => exact .refl dirs other
  | cons nFile _ ih =>
    obtain ⟨ne, away⟩ := not_or.1 (mem_cons.not.1 away)
    exact (agree_unlinkOne ne).trans (ih _ away)

theorem live_archivePair {dirs : BlockDirs} {nFile : ℕ} :
    (dirs.archiveBlockFilePair hex io nFile).2.live = dirs.live := by
  unfold archiveBlockFilePair
  split
  · rfl
  dsimp only
  split
  · exact live_archiveOne
  · exact (live_archiveOne).trans (live_archiveOne)

private theorem live_unlinkOne {dirs : BlockDirs} {nFile : ℕ} :
    (Passes hex io dirs nFile → (dirs.unlinkOne hex io nFile).2.live ⟨.blk, nFile⟩ = none) ∧
      (¬ Passes hex io dirs nFile → (dirs.unlinkOne hex io nFile).2.live = dirs.live) := by
  have passes := (archivePair_spec hex io dirs nFile).1
  unfold unlinkOne
  constructor
  · intro passed
    simp [passes.2 passed, remove]
  intro failed
  have kept : (dirs.archiveBlockFilePair hex io nFile).1 = false := by
    rw [← Bool.not_eq_true, passes]
    exact failed
  simp only [kept, Bool.false_eq_true, if_false]
  exact live_archivePair

theorem live_unlinkPrunedFiles (distinct : setFilesToPrune.Nodup)
    (dirs : BlockDirs) (mem : nFile ∈ setFilesToPrune) :
    (Passes hex io dirs nFile →
        (unlinkPrunedFiles hex io setFilesToPrune dirs).2.live ⟨.blk, nFile⟩ = none) ∧
      (¬ Passes hex io dirs nFile →
        (unlinkPrunedFiles hex io setFilesToPrune dirs).2.live ⟨.blk, nFile⟩ =
          dirs.live ⟨.blk, nFile⟩) := by
  induction setFilesToPrune generalizing dirs with
  | nil => cases mem
  | cons first rest ih =>
    obtain ⟨fresh, distinct⟩ := nodup_cons.1 distinct
    change (_ → (unlinkPrunedFiles hex io rest (dirs.unlinkOne hex io first).2).2.live _ = _) ∧
      (_ → (unlinkPrunedFiles hex io rest (dirs.unlinkOne hex io first).2).2.live _ = _)
    rcases mem_cons.1 mem with rfl | later
    · have rest : Agree (dirs.unlinkOne hex io nFile).2
          (unlinkPrunedFiles hex io rest (dirs.unlinkOne hex io nFile).2).2 ⟨.blk, nFile⟩ :=
        agree_unlinkPrunedFiles rest _ fresh
      rw [rest.live]
      refine ⟨(live_unlinkOne).1, fun failed => ?_⟩
      rw [(live_unlinkOne).2 failed]
    have agree : ∀ kind, Agree dirs (dirs.unlinkOne hex io first).2 ⟨kind, nFile⟩ :=
      fun kind => agree_unlinkOne fun same => fresh (same ▸ later)
    rw [← Agree.passes agree, ← (agree .blk).live]
    exact ih distinct _ later

def shortHex (bytes : List UInt8) : String := if bytes = [1] then "6bf1" else "96a2"

/-- Block file 0 in the live directory, and what an earlier run left of it in the archive. -/
def oneFile (archived : Option (List UInt8)) : BlockDirs where
  live name := if name = ⟨.blk, 0⟩ then some [1] else none
  archive name := if name = ⟨.blk, 0⟩ then archived else none
  sidecar name := if name = ⟨.blk, 0⟩ then archived.map fun _ => "6bf1\n" else none

theorem unlinkPrunedFiles_fresh_archive :
    (unlinkPrunedFiles shortHex {} [0] (oneFile none)).1.length = 1 ∧
      ∀ deletion ∈ (unlinkPrunedFiles shortHex {} [0] (oneFile none)).1,
        Covered deletion.2 deletion.1 := by
  refine ⟨by decide,
    (unlinkPrunedFiles_covered_iff shortHex {} [0] (by decide) (oneFile none)).2 ?_⟩
  rintro _ - - _ ⟨_, -, there, -⟩
  simp [oneFile] at there

/-- The archived file has rotted: the pair is deleted on the word of its sidecar. -/
theorem unlinkPrunedFiles_rotten_archive :
    ∃ deletion ∈ (unlinkPrunedFiles shortHex {} [0] (oneFile (some [0]))).1,
      deletion.2.live ⟨.blk, 0⟩ = some [1] ∧ deletion.2.archive ⟨.blk, 0⟩ = some [0] ∧
        (unlinkPrunedFiles shortHex {} [0] (oneFile (some [0]))).2.live ⟨.blk, 0⟩ = none ∧
        (unlinkPrunedFiles shortHex {} [0] (oneFile (some [0]))).2.archive ⟨.blk, 0⟩ =
          some [0] := by
  exact ⟨(0, oneFile (some [0])), mem_singleton_self _, by decide, by decide, by decide, by decide⟩

end BlockDirs

end DogecoinCore
