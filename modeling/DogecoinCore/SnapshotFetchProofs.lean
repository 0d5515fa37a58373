import DogecoinCore.SnapshotFetch

/-! What a fetch leaves behind. A transfer touches the destination and its partial file only; its
digest is the one of the bytes it streamed, and what is on the disk is something else where the
result of a call was not looked at. -/
namespace DogecoinCore
namespace SnapshotFetch
open Function FsCall List

/-- The bytes of a copy or a download that passes every check before the digest. -/
def transferred (io : TransferIo) (source : String) : Option Bytes :=
  if isHttpUrl source then
    if (parseUrl source).isOk ∧ io.openPartial ∧ io.setup = .ready ∧ (dispatch io).done ∧
        (dispatch io).failed = false ∧ io.rename = none then
      some (dispatch io).data
    else none
  else if io.openSource ∧ io.openPartial ∧ io.fclose ∧ io.rename = none then
    (copyLoop io io.reads []).toOption
  else none

/-- What is then on the disk: a download does not see that its file could not be closed. -/
def onDisk (io : TransferIo) (source : String) (data : Bytes) : Bytes :=
  if isHttpUrl source ∧ io.fclose = false then io.left else data

namespace Fetch
variable {P : Type} (f : Fetch P) {io : TransferIo} {files : Files P Bytes} {path : P} {data disk : Bytes} {call : RemoveCall}

def passes (io : TransferIo) (source : String) : Bool :=
  (transferred io source).any fun data => f.sha256 data = f.expected_sha256

theorem dest_ne_partial : f.destEntry ≠ f.partialEntry := (f.partial_ne f.dest).symm

/-- What both transfers do, given the bytes of a successful one and what it left on the disk. -/
structure Transfers (files : Files P Bytes) (done : Option (Bytes × Bytes))
    (out : Files P Bytes × Except String (UInt256 × ℕ)) : Prop where
  frame : ∀ path, path ≠ f.destEntry → path ≠ f.partialEntry → out.1 path = files path
  succeeds : ∀ data disk, done = some (data, disk) →
    out.2 = .ok (f.sha256 data, data.length) ∧ out.1 f.destEntry = some disk
  fails : done = none → (∃ error, out.2 = .error error) ∧
      (out.1 f.destEntry = files f.destEntry ∨ out.1 f.destEntry = none)

theorem Transfers.refused (error : String) : f.Transfers files none (files, .error error) :=
  ⟨fun _ _ _ => rfl, fun _ _ same => absurd same (by simp), fun _ => ⟨⟨error, rfl⟩, .inl rfl⟩⟩

theorem Transfers.abandoned (error : String)
    (frame : ∀ path, path ≠ f.partialEntry → files' path = files path) :
    f.Transfers files none (files', .error error) :=
  ⟨fun path _ ne => frame path ne, fun _ _ same => absurd same (by simp),
    fun _ => ⟨⟨error, rfl⟩, .inl (frame _ f.dest_ne_partial)⟩⟩

variable [DecidableEq P]

theorem removeFile_of_ne (ne : path ≠ other) :
    removeFile io call other files path = files path := by
  rw [removeFile]
  split
  · exact update_of_ne ne _ _
  · rfl

theorem removeFile_self : removeFile io call path files path = files path ∨
    removeFile io call path files path = none := by
  rw [removeFile]
  split
  · exact .inr (update_self _ _ _)
  · exact .inl rfl

theorem removeFile_done (removes : io.remove call) :
    removeFile io call path files path = none := by
  rw [removeFile, if_pos removes]
  exact update_self _ _ _

theorem write_partial_of_ne (files : Files P Bytes) (content : Option Bytes → Bytes)
    (ne : path ≠ f.partialEntry) :
    (FsCall.write f.partialEntry content).apply files path = files path :=
  update_of_ne ne _ _

theorem finalize_transfers (io : TransferIo) (files : Files P Bytes) (text : String) (data disk : Bytes) :
    f.Transfers files (if io.rename = none then some (data, disk) else none)
      (f.finalize io text data ((FsCall.write f.partialEntry fun _ => disk).apply files)) := by
  have full : removeFile io .replacedDest f.destEntry
      ((FsCall.write f.partialEntry fun _ => disk).apply files) f.partialEntry = some disk := by
    rw [removeFile_of_ne f.dest_ne_partial.symm]
    exact update_self _ _ _
  cases renamed : io.rename with
  | none =>
    rw [if_pos rfl]
    simp only [finalize, renamed]
    refine ⟨fun path ne ne' => ?_, fun _ _ same => ?_, fun none => absurd none (by simp)⟩
    · dsimp only
      rw [apply_rename_of_ne ne' ne, removeFile_of_ne ne, write_partial_of_ne f _ _ ne']
    · cases same
      exact ⟨rfl, apply_rename f.dest_ne_partial full⟩
  | some _ =>
    rw [if_neg (by simp)]
    simp only [finalize, renamed]
    refine ⟨fun path ne ne' => ?_, fun _ _ some_ => absurd some_ (by simp), fun _ => ⟨⟨_, rfl⟩, ?_⟩⟩
    · dsimp only
      rw [removeFile_of_ne ne', removeFile_of_ne ne, write_partial_of_ne f _ _ ne']
    dsimp only
    rw [removeFile_of_ne f.dest_ne_partial]
    have before := write_partial_of_ne f files (fun _ => disk) f.dest_ne_partial
    exact removeFile_self.imp_left (·.trans before)

theorem abandon_of_ne (io : TransferIo) (files : Files P Bytes) (content : Option Bytes → Bytes)
    (ne : path ≠ f.partialEntry) :
    removeFile io .failedPartial f.partialEntry
      ((FsCall.write f.partialEntry content).apply files) path = files path := by
  rw [removeFile_of_ne ne, write_partial_of_ne f _ _ ne]

theorem copyFileStreamHash_transfers (isFile : isHttpUrl source = false) :
    f.Transfers files ((transferred io source).map fun data => (data, onDisk io source data))
      (f.copyFileStreamHash io source files) := by
  simp only [transferred, isFile, Bool.false_eq_true, if_false, onDisk, false_and, copyFileStreamHash]
  by_cases opens : io.openSource
  · by_cases creates : io.openPartial
    · cases copied : copyLoop io io.reads [] with
      | error error =>
        have failed := Transfers.abandoned f (if io.fclose then error else "Failed closing partial file")
          fun path => f.abandon_of_ne io files fun _ => io.left
        cases closes : io.fclose with
        | false => simpa [opens, creates, closes] using failed
        | true => simpa [opens, creates, closes, Except.toOption] using failed
      | ok data =>
        cases closes : io.fclose with
        | false =>
          have failed := Transfers.abandoned f "Failed closing partial file"
            fun path => f.abandon_of_ne io files fun _ => io.left
          simpa [opens, creates] using failed
        | true =>
          have final := f.finalize_transfers io files "Failed to rename partial to dest: " data data
          by_cases renamed : io.rename = none
          · simpa [opens, creates, renamed, Except.toOption] using final
          · simpa [opens, creates, renamed] using final
    · simpa [opens, creates] using Transfers.refused f _
  · simpa [opens] using Transfers.refused f _

theorem downloadUrlStreamHash_transfers (isUrl : isHttpUrl source) :
    f.Transfers files ((transferred io source).map fun data => (data, onDisk io source data))
      (f.downloadUrlStreamHash io source files) := by
  simp only [transferred, isUrl, if_true, onDisk, true_and, downloadUrlStreamHash]
  cases parts : parseUrl source with
  | error error => simpa [Except.isOk, Except.toBool] using Transfers.refused f _
  | ok parts =>
    by_cases creates : io.openPartial
    · cases ready : io.setup with
      | requestNewFails =>
        simpa [creates] using Transfers.abandoned f _ fun path => f.write_partial_of_ne _ _
      | makeRequestFails | throws _ =>
        simpa [creates] using Transfers.abandoned f _ fun path => f.abandon_of_ne _ _ _
      | ready =>
        by_cases done : (dispatch io).done
        · by_cases failed : (dispatch io).failed
          · simpa [creates, done, failed] using Transfers.abandoned f _ fun path => f.abandon_of_ne _ _ _
          have final := f.finalize_transfers io files
            "Failed to finalize download: " (dispatch io).data
            (if io.fclose then (dispatch io).data else io.left)
          by_cases renamed : io.rename = none
          · by_cases closes : io.fclose
            · simpa [creates, done, failed, renamed, closes, Except.isOk, Except.toBool] using final
            · simpa [creates, done, failed, renamed, closes, Except.isOk, Except.toBool] using final
          by_cases closes : io.fclose
          · simpa [creates, done, failed, renamed, closes] using final
          · simpa [creates, done, failed, renamed, closes] using final
        · simpa [creates, done] using Transfers.abandoned f _ fun path => f.abandon_of_ne _ _ _
    · simpa [creates] using Transfers.refused f _

private theorem fetchArtifact_spec : (∀ path, path ≠ f.destEntry → path ≠ f.partialEntry →
      (f.fetchSnapshotArtifact io source files).1 path = files path) ∧
    (f.passes io source → ∃ data, transferred io source = some data ∧
      f.sha256 data = f.expected_sha256 ∧
      (f.fetchSnapshotArtifact io source files).2 = .ok data.length ∧
      (f.fetchSnapshotArtifact io source files).1 f.destEntry = some (onDisk io source data)) ∧
    (f.passes io source = false → (∃ error, (f.fetchSnapshotArtifact io source files).2 = .error error) ∧
      ((∀ call, io.remove call) → files f.destEntry = none →
        (f.fetchSnapshotArtifact io source files).1 f.destEntry = none)) := by
  obtain ⟨out, is, transfers⟩ : ∃ out,
      (if isHttpUrl source then f.downloadUrlStreamHash io source files
        else f.copyFileStreamHash io source files) = out ∧
      f.Transfers files ((transferred io source).map fun data => (data, onDisk io source data)) out := by
    by_cases isUrl : isHttpUrl source
    · exact ⟨_, if_pos isUrl, f.downloadUrlStreamHash_transfers isUrl⟩
    · exact ⟨_, if_neg isUrl, f.copyFileStreamHash_transfers (by simpa using isUrl)⟩
  obtain ⟨_, _⟩ := out
  obtain ⟨frame, succeeds, fails⟩ := transfers
  simp only [fetchSnapshotArtifact, is, passes]
  cases got : transferred io source with
  | none =>
    obtain ⟨⟨error, rfl⟩, kept⟩ := fails (by rw [got]; rfl)
    refine ⟨frame, by simp, fun _ => ⟨⟨error, rfl⟩, fun _ none => ?_⟩⟩
    exact kept.elim (·.trans none) id
  | some data =>
    obtain ⟨rfl, there⟩ := succeeds data (onDisk io source data) (by rw [got]; rfl)
    by_cases right : f.sha256 data = f.expected_sha256
    · simp only [right, ne_eq, not_true_eq_false, if_false]
      refine ⟨frame, fun _ => ⟨data, rfl, right, rfl, there⟩, by simp [right]⟩
    simp only [right, ne_eq, not_false_eq_true, if_true]
    refine ⟨fun path ne ne' => ?_, by simp [right], fun _ => ⟨⟨_, rfl⟩, fun removes _ => ?_⟩⟩
    · rw [removeFile_of_ne ne]
      exact frame path ne ne'
    · exact removeFile_done (removes _)

def firstPassing (io : ℕ → TransferIo) (i : ℕ) (sources : List String) : Option (String × ℕ) :=
  (sources.zipIdx i).find? fun c => c.1 ≠ "" && f.passes (io c.2) c.1

theorem clean_of_ne (ne : path ≠ f.destEntry)
    (ne' : path ≠ f.partialEntry) : f.clean io files path = files path := by
  rw [clean, removeFile_of_ne ne', removeFile_of_ne ne]

theorem clean_dest (removes : ∀ call, io.remove call) : f.clean io files f.destEntry = none := by
  rw [clean, removeFile_of_ne f.dest_ne_partial]
  exact removeFile_done (removes _)

theorem clean_partial (removes : ∀ call, io.remove call) :
    f.clean io files f.partialEntry = none := removeFile_done (removes _)

private theorem tryCandidates_spec (io : ℕ → TransferIo) (i : ℕ) (combined : String) (sources : List String)
    (files : Files P Bytes) :
    (∀ path, path ≠ f.destEntry → path ≠ f.partialEntry →
      (f.tryCandidates io i combined sources files).1 path = files path) ∧
    (∀ src k, f.firstPassing io i sources = some (src, k) → ∃ data, transferred (io k) src = some data ∧
      f.sha256 data = f.expected_sha256 ∧
      (f.tryCandidates io i combined sources files).2 = .ok (data.length, src) ∧
      (f.tryCandidates io i combined sources files).1 f.destEntry = some (onDisk (io k) src data)) ∧
    (f.firstPassing io i sources = none →
      (∃ error, (f.tryCandidates io i combined sources files).2 = .error error) ∧
      ((∀ k call, (io k).remove call) → (∃ src ∈ sources, src ≠ "") ∨ files f.destEntry = none →
        (f.tryCandidates io i combined sources files).1 f.destEntry = none)) := by
  induction sources generalizing i combined files with
  | nil =>
    refine ⟨fun _ _ _ => rfl, by simp [firstPassing], fun _ => ⟨⟨_, rfl⟩, fun _ tried => ?_⟩⟩
    rcases tried with ⟨_, mem, _⟩ | none
    · cases mem
    · exact none
  | cons src sources ih =>
    by_cases empty : src = ""
    · subst empty
      obtain ⟨frame, succeeds, fails⟩ := ih (i + 1) combined files
      refine ⟨frame, succeeds, fun none => ⟨(fails none).1, fun removes tried => ?_⟩⟩
      refine (fails none).2 removes (tried.imp_left ?_)
      rintro ⟨s, mem, full⟩
      exact ⟨s, (mem_cons.1 mem).resolve_left full, full⟩
    obtain ⟨frame, succeeds, fails⟩ := f.fetchArtifact_spec
    simp only [tryCandidates, if_neg empty]
    rcases is : f.fetchSnapshotArtifact (io i) src (f.clean (io i) files) with ⟨files', _⟩
    rw [is] at frame succeeds fails
    by_cases passes : f.passes (io i) src
    · obtain ⟨data, got, right, rfl, there⟩ := succeeds passes
      have first : f.firstPassing io i (src :: sources) = some (src, i) := by
        simp [firstPassing, empty, passes]
      simp only [first]
      refine ⟨fun path ne ne' => ?_, ?_, by simp⟩
      · exact (frame path ne ne').trans (f.clean_of_ne ne ne')
      · rintro _ _ ⟨⟩
        exact ⟨data, got, right, rfl, there⟩
    obtain ⟨⟨error, rfl⟩, gone⟩ := fails (by simpa using passes)
    have skips : f.firstPassing io i (src :: sources) = f.firstPassing io (i + 1) sources := by
      simp [firstPassing, passes]
    obtain ⟨frame', succeeds', fails'⟩ := ih (i + 1) _ files'
    simp only [skips]
    refine ⟨fun path ne ne' => ?_, succeeds', fun none => ⟨(fails' none).1, fun removes _ => ?_⟩⟩
    · rw [frame' path ne ne']
      exact (frame path ne ne').trans (f.clean_of_ne ne ne')
    · exact (fails' none).2 removes (.inr (gone (removes i) (f.clean_dest (removes i))))

/-- The contract of a fetch: success means the right bytes on the disk, and failure, once something
was tried and files can be removed, that there are none. -/
def FailsClosed (io : ℕ → TransferIo) (sources : List String) (files : Files P Bytes) : Prop :=
  (∀ used, (f.fetchSnapshotArtifactFromCandidates io sources files).2 = .ok used →
    ∃ bytes, (f.fetchSnapshotArtifactFromCandidates io sources files).1 f.destEntry = some bytes ∧
      f.sha256 bytes = f.expected_sha256) ∧
  (∀ error, (f.fetchSnapshotArtifactFromCandidates io sources files).2 = .error error →
    (∃ src ∈ sources, src ≠ "") → (∀ k call, (io k).remove call = true) →
    (f.fetchSnapshotArtifactFromCandidates io sources files).1 f.destEntry = none)

/-- A fetch fails closed exactly when the first candidate to pass is not a download whose file could
not be closed and holds other bytes. -/
theorem failsClosed_iff (io : ℕ → TransferIo) (sources : List String) (files : Files P Bytes) :
    f.FailsClosed io sources files ↔
      ∀ src k, f.firstPassing io 0 sources = some (src, k) → isHttpUrl src = true →
        (io k).fclose = false → f.sha256 (io k).left = f.expected_sha256 := by
  by_cases empty : sources = []
  · subst empty
    simp [FailsClosed, fetchSnapshotArtifactFromCandidates, firstPassing]
  obtain ⟨-, succeeds, fails⟩ := f.tryCandidates_spec io 0 "" sources files
  simp only [FailsClosed, fetchSnapshotArtifactFromCandidates, if_neg empty]
  cases first : f.firstPassing io 0 sources with
  | none =>
    obtain ⟨⟨error, failed⟩, gone⟩ := fails first
    refine ⟨fun _ => by simp, fun _ => ⟨fun _ ok => ?_, fun _ _ tried removes => ?_⟩⟩
    · rw [failed] at ok
      cases ok
    · exact gone removes (.inl tried)
  | some found =>
    obtain ⟨src, k⟩ := found
    obtain ⟨_, -, right, ok, there⟩ := succeeds src k first
    rw [onDisk] at there
    constructor
    · rintro ⟨closed, -⟩ _ _ ⟨⟩ isUrl broken
      obtain ⟨_, has, digest⟩ := closed _ ok
      rw [there, if_pos ⟨isUrl, broken⟩] at has
      cases has
      exact digest
    intro sound
    refine ⟨fun _ _ => ⟨_, there, ?_⟩, fun error failed => ?_⟩
    · split
      · next broken => exact sound src k rfl broken.1 broken.2
      · exact right
    · rw [ok] at failed
      cases failed

def refusing : TransferIo where
  remove _ := true
  openSource := false
  openPartial := false
  reads := []
  fwrite _ := true
  fclose := true
  left := []
  rename := none
  setup := .ready
  events := []
  progress := none

/-- The bytes read as one number: no two short files have the same digest. -/
def numeral (bytes : Bytes) : UInt256 := BitVec.ofNat 256 (bytes.foldl (fun n b => 256 * n + b.toNat) 1)

def threeBytes : Fetch String where
  resolve := id
  partial_ne dest same := by
    have length := congrArg String.length same
    simp at length
  sha256 := numeral
  dest := "utxo.dat"
  expected_sha256 := numeral [1, 2, 3]

/-- The server sends the three bytes, every `fwrite` takes what it is given, and the disk is full when
the file is closed. -/
def fullDisk : TransferIo :=
  { refusing with
    openPartial := true
    fclose := false
    left := [1]
    events := [.chunk [1, 2], .done (some (200, [3]))] }

/-- The fetch then succeeds, with one byte on the disk. -/
theorem failsClosed_fullDisk :
    (threeBytes.fetchSnapshotArtifactFromCandidates (fun _ => fullDisk) ["http://cdn/utxo.dat"]
        fun _ => none).2 = .ok (3, "http://cdn/utxo.dat") ∧
      (threeBytes.fetchSnapshotArtifactFromCandidates (fun _ => fullDisk) ["http://cdn/utxo.dat"]
        fun _ => none).1 "utxo.dat" = some [1] ∧
      ¬ threeBytes.FailsClosed (fun _ => fullDisk) ["http://cdn/utxo.dat"] fun _ => none := by
  refine ⟨rfl, rfl, fun closed => ?_⟩
  obtain ⟨_, has, digest⟩ := closed.1 _ rfl
  cases has
  exact absurd digest (by decide)

/-- The contract of a fetch towards its sources: a local file among them is as it was. -/
def SourcesIntact (sources : List String) (files : Files P Bytes) : Prop :=
  ∀ io, ∀ src ∈ sources, src ≠ "" → isHttpUrl src = false →
    ∀ bytes, files (f.resolve src) = some bytes →
      (f.fetchSnapshotArtifactFromCandidates io sources files).1 (f.resolve src) = some bytes

theorem fetch_refusing (source : String) (files : Files P Bytes) :
    ∃ error, f.fetchSnapshotArtifact refusing source files = (files, .error error) := by
  by_cases isUrl : isHttpUrl source
  · cases parts : parseUrl source with
    | error error =>
      exact ⟨error, by simp [fetchSnapshotArtifact, isUrl, downloadUrlStreamHash, parts]⟩
    | ok parts =>
      exact ⟨_, by simp [fetchSnapshotArtifact, isUrl, downloadUrlStreamHash, parts, refusing]; rfl⟩
  · exact ⟨_, by simp [fetchSnapshotArtifact, isUrl, copyFileStreamHash, refusing]; rfl⟩

private theorem tryCandidates_refusing (files : Files P Bytes)
    (tried : (∃ src ∈ sources, src ≠ "") ∨ files f.destEntry = none ∧ files f.partialEntry = none) (i : ℕ)
    (combined : String) :
    (f.tryCandidates (fun _ => refusing) i combined sources files).1 f.destEntry = none ∧
      (f.tryCandidates (fun _ => refusing) i combined sources files).1 f.partialEntry = none := by
  induction sources generalizing i combined files with
  | nil => simpa [tryCandidates] using tried
  | cons src sources ih =>
    by_cases empty : src = ""
    · simp only [tryCandidates, if_pos empty]
      refine ih files (tried.imp_left ?_) (i + 1) combined
      rintro ⟨s, mem, full⟩
      exact ⟨s, (mem_cons.1 mem).resolve_left (fun same => full (same.trans empty)), full⟩
    obtain ⟨_, refused⟩ := f.fetch_refusing src (f.clean refusing files)
    simp only [tryCandidates, if_neg empty, refused]
    exact ih _ (.inr ⟨f.clean_dest fun _ => rfl, f.clean_partial fun _ => rfl⟩) (i + 1) _

/-- A fetch leaves its sources intact, whatever the file system and the servers answer, exactly when
no local file among them is the destination or its partial file. -/
theorem sourcesIntact_iff (sources : List String) (files : Files P Bytes) :
    f.SourcesIntact sources files ↔
      ∀ src ∈ sources, src ≠ "" → isHttpUrl src = false → (files (f.resolve src)).isSome →
        f.resolve src ≠ f.destEntry ∧ f.resolve src ≠ f.partialEntry := by
  constructor
  · intro intact src member full isFile exists_
    obtain ⟨bytes, has⟩ := Option.isSome_iff_exists.1 exists_
    have kept := intact (fun _ => refusing) src member full isFile bytes has
    have some_ := ne_nil_of_mem member
    rw [fetchSnapshotArtifactFromCandidates, if_neg some_] at kept
    obtain ⟨dest, partial_⟩ := f.tryCandidates_refusing files (.inl ⟨src, member, full⟩) 0 ""
    refine ⟨fun same => ?_, fun same => ?_⟩
    · rw [same, dest] at kept
      cases kept
    · rw [same, partial_] at kept
      cases kept
  intro apart io src member full isFile bytes has
  obtain ⟨ne, ne'⟩ := apart src member full isFile (by simp [has])
  have some_ := ne_nil_of_mem member
  rw [fetchSnapshotArtifactFromCandidates, if_neg some_,
    (f.tryCandidates_spec io 0 "" sources files).1 _ ne ne']
  exact has

/-- The only copy of the file is fetched onto itself, or from the name of the partial file: it is
removed before it can be opened. -/
theorem sourcesIntact_itself :
    (threeBytes.fetchSnapshotArtifactFromCandidates (fun _ => refusing) ["utxo.dat"]
        (update (fun _ => none) "utxo.dat" (some [1, 2, 3]))).1 "utxo.dat" = none ∧
      ¬ threeBytes.SourcesIntact ["utxo.dat"]
        (update (fun _ => none) "utxo.dat" (some [1, 2, 3])) ∧
      ¬ threeBytes.SourcesIntact ["utxo.dat.partial"]
        (update (fun _ => none) "utxo.dat.partial" (some [1, 2, 3])) := by
  refine ⟨rfl, fun intact => ?_, fun intact => ?_⟩
  · have kept := intact (fun _ => refusing) "utxo.dat" (by simp) (by decide) (by decide) [1, 2, 3] rfl
    cases kept
  have kept := intact (fun _ => refusing) "utxo.dat.partial" (by simp) (by decide) (by decide)
    [1, 2, 3] rfl
  cases kept

end Fetch
end SnapshotFetch
end DogecoinCore
