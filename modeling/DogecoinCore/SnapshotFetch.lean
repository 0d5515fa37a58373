import DogecoinCore.BlockIndex
import DogecoinCore.FileSystem
import Mathlib.Algebra.Order.Ring.Int

/-! The fetch of a snapshot file in snapshot_fetch.cpp: candidates are tried in turn, each copied or
downloaded to a partial file while its bytes are hashed, and the first with the right digest takes
the place of the destination. The answers of the file system and of the server are part of the
input, whatever they are; the files are what the calls leave behind. -/
namespace DogecoinCore
namespace SnapshotFetch
open FsCall

abbrev Bytes := List UInt8

/-- Which directory entry a path leads to. A suffix makes it a different one. -/
structure Paths (P : Type) where
  resolve : String → P
  partial_ne : ∀ dest, resolve (dest ++ ".partial") ≠ resolve dest

def streamBuf : ℕ := 1024 * 1024

def isHttpUrl (s : String) : Bool :=
  "http://".toList.isPrefixOf s.toList || "https://".toList.isPrefixOf s.toList

/-- What `strtol` makes of the digits, cut to an `int`. -/
def atoi (s : List Char) : ℤ :=
  let digits (s : List Char) : ℕ :=
    (s.takeWhile Char.isDigit).foldl (fun n c => 10 * n + (c.toNat - '0'.toNat)) 0
  let strtol : ℤ :=
    match s.dropWhile isSpace with
    | '-' :: rest => max (-0x8000000000000000) (-digits rest)
    | '+' :: rest => min 0x7fffffffffffffff (digits rest)
    | rest => min 0x7fffffffffffffff (digits rest)
  strtol.bmod 0x100000000

/-- The parts of a URL that `ParseUrl` returns. -/
structure Url where
  host : String
  port : ℤ
  path : String
  ssl : Bool
  deriving DecidableEq, Repr

/-- `ParseUrl` behind the scheme. -/
def parseAuthority (ssl : Bool) (port : ℤ) (rest : List Char) : Except String Url :=
  let hostport := rest.takeWhile (· ≠ '/')
  let path := if '/' ∈ rest then String.ofList (rest.dropWhile (· ≠ '/')) else "/"
  let finish (host : List Char) (port : ℤ) : Except String Url :=
    if host = [] then .error "Empty host in URL" else .ok ⟨String.ofList host, port, path, ssl⟩
  -- IPv6 hosts keep their colons
  if ':' ∈ hostport ∧ ']' ∉ hostport then
    let behind := (hostport.reverse.takeWhile (· ≠ ':')).reverse
    let port := atoi behind
    if port ≤ 0 then .error "Invalid port in URL"
    else finish (hostport.take (hostport.length - behind.length - 1)) port
  else finish hostport port

def parseUrl (url : String) : Except String Url :=
  if "https://".toList.isPrefixOf url.toList then parseAuthority true 443 (url.toList.drop 8)
  else if "http://".toList.isPrefixOf url.toList then parseAuthority false 80 (url.toList.drop 7)
  else .error "URL must start with http:// or https://"

/-- What one `fread` delivers. -/
structure Fread where
  bytes : Bytes
  ferror : Bool

/-- What libevent calls back with: bytes of the body, or the end of the request with its status and
the bytes still in the buffer, or with a null request. -/
inductive HttpEvent where
  | chunk (body : Bytes)
  | done (response : Option (ℤ × Bytes))

inductive HttpSetup where
  | ready
  | throws (what : String)
  | requestNewFails
  | makeRequestFails
  deriving DecidableEq

/-- The calls of `fs::remove` in one attempt, by what they are for. -/
inductive RemoveCall where
  | cleanDest
  | cleanPartial
  | failedPartial
  | replacedDest
  | unrenamedPartial
  | mismatchedDest
  deriving DecidableEq

structure TransferIo where
  remove : RemoveCall → Bool
  openSource : Bool
  openPartial : Bool
  reads : List Fread
  /-- Whether the `fwrite` at an offset takes all its bytes. -/
  fwrite : ℕ → Bool
  /-- Whether `fclose` of the partial file returns zero. Only then all bytes are in the file. -/
  fclose : Bool
  /-- What a failed `fwrite` or `fclose` leaves in the file. -/
  left : Bytes
  /-- The error of the rename, if it fails. -/
  rename : Option String
  setup : HttpSetup
  events : List HttpEvent
  progress : Option (ℕ → ℤ → Bool)

/-- The loop of `CopyFileStreamHash`. Behind its listed reads the source has ended. -/
def copyLoop (io : TransferIo) : List Fread → (data : Bytes) → Except String Bytes
  | [], data => .ok data
  | read :: reads, data =>
    let buf := read.bytes.take streamBuf
    if buf ≠ [] ∧ io.fwrite data.length = false then .error "Write failed during copy"
    else if buf.length < streamBuf then
      if read.ferror then .error "Read failed during copy" else .ok (data ++ buf)
    else copyLoop io reads (data ++ buf)

/-- `data` is what the file and the hasher were given. -/
structure HttpDownloadCtx where
  data : Bytes
  error : String
  failed : Bool
  done : Bool
  http_status : ℤ
  last_report : ℕ

def HttpDownloadCtx.new : HttpDownloadCtx := ⟨[], "", false, false, 0, 0⟩

/-- The loop of `SnapshotDownloadChunk` over the pieces it takes from the buffer. -/
def drain (io : TransferIo) : HttpDownloadCtx → List Bytes → HttpDownloadCtx
  | ctx, [] => ctx
  | ctx, tmp :: pieces =>
    if io.fwrite ctx.data.length = false then
      { ctx with failed := true, error := "Failed writing download to disk" }
    else
      let ctx := { ctx with data := ctx.data ++ tmp }
      let bytes := ctx.data.length
      match io.progress with
      | none => drain io ctx pieces
      | some progress =>
        if streamBuf ≤ bytes - ctx.last_report ∨ bytes < streamBuf then
          let ctx := { ctx with last_report := bytes }
          if progress bytes (-1) then drain io ctx pieces
          else { ctx with failed := true, error := "Download aborted by user" }
        else drain io ctx pieces

def snapshotDownloadChunk (io : TransferIo) (ctx : HttpDownloadCtx) (buf : Bytes) : HttpDownloadCtx :=
  if ctx.failed then ctx else drain io ctx (buf.toChunks streamBuf)

def snapshotDownloadDone (io : TransferIo) (ctx : HttpDownloadCtx) :
    Option (ℤ × Bytes) → HttpDownloadCtx
  | none =>
    { ctx with
      done := true
      failed := true
      error := if ctx.error = "" then "HTTP request failed (null response)" else ctx.error }
  | some (status, buf) =>
    let ctx := snapshotDownloadChunk io { ctx with done := true, http_status := status } buf
    if status < 200 ∨ 300 ≤ status then
      { ctx with failed := true, error := "HTTP error status " ++ toString status }
    else ctx

/-- `event_base_dispatch`, up to the end of its events. -/
def dispatch (io : TransferIo) : HttpDownloadCtx :=
  io.events.foldl (fun ctx event =>
    match event with
    | .chunk body => snapshotDownloadChunk io ctx body
    | .done response => snapshotDownloadDone io ctx response) .new

/-- What a fetch is given: the paths, single SHA-256 in the byte order of `uint256`, the destination
and the digest expected. -/
structure Fetch (P : Type) extends Paths P where
  sha256 : Bytes → UInt256
  dest : String
  expected_sha256 : UInt256

namespace Fetch
variable {P : Type} [DecidableEq P] (f : Fetch P) (io : TransferIo)

def destEntry : P := f.resolve f.dest

def partialEntry : P := f.resolve (f.dest ++ ".partial")

/-- `fs::remove` with an error code that nobody reads. -/
def removeFile (call : RemoveCall) (path : P) (files : Files P Bytes) : Files P Bytes :=
  if io.remove call then (FsCall.remove path).apply files else files

/-- The end of both transfers: the partial file takes the place of the destination. -/
def finalize (text : String) (data : Bytes) (files : Files P Bytes) :
    Files P Bytes × Except String (UInt256 × ℕ) :=
  let files := removeFile io .replacedDest f.destEntry files
  match io.rename with
  | some message => (removeFile io .unrenamedPartial f.partialEntry files, .error (text ++ message))
  | none =>
    ((FsCall.rename f.partialEntry f.destEntry).apply files, .ok (f.sha256 data, data.length))

def copyFileStreamHash (source : String) (files : Files P Bytes) :
    Files P Bytes × Except String (UInt256 × ℕ) :=
  if io.openSource = false then (files, .error ("Cannot open source: " ++ source))
  else if io.openPartial = false then
    (files, .error ("Cannot create partial dest: " ++ (f.dest ++ ".partial")))
  else
    match copyLoop io io.reads [], io.fclose with
    | .ok data, true =>
      f.finalize io "Failed to rename partial to dest: " data
        ((FsCall.write f.partialEntry fun _ => data).apply files)
    | copied, fclose =>
      let files := (FsCall.write f.partialEntry fun _ => io.left).apply files
      (removeFile io .failedPartial f.partialEntry files, match copied, fclose with
        | .error error, true => .error error
        | _, _ => .error "Failed closing partial file")

/-- `DownloadUrlStreamHash` with libevent. -/
def downloadUrlStreamHash (url : String) (files : Files P Bytes) :
    Files P Bytes × Except String (UInt256 × ℕ) :=
  match parseUrl url with
  | .error error => (files, .error error)
  | .ok parts =>
    if io.openPartial = false then
      (files, .error ("Cannot create partial download file: " ++ (f.dest ++ ".partial")))
    else
      let created := (FsCall.write f.partialEntry fun _ => []).apply files
      match io.setup with
      | .requestNewFails => (created, .error "evhttp_request_new failed")
      | .makeRequestFails =>
        (removeFile io .failedPartial f.partialEntry created, .error "evhttp_make_request failed")
      | .throws what => (removeFile io .failedPartial f.partialEntry created, .error what)
      | .ready =>
        let ctx := dispatch io
        -- the result of `fclose` is not looked at
        let files := (FsCall.write f.partialEntry fun _ =>
          if io.fclose ∧ ctx.failed = false then ctx.data else io.left).apply files
        if ctx.done = false ∨ ctx.failed then
          (removeFile io .failedPartial f.partialEntry files,
            .error ((if ctx.error = "" then "Download failed" else ctx.error) ++ if parts.ssl then
              " (note: https may require a local file path if libevent SSL is unavailable)" else ""))
        else f.finalize io "Failed to finalize download: " ctx.data files

def fetchSnapshotArtifact (source : String) (files : Files P Bytes) :
    Files P Bytes × Except String ℕ :=
  let (files, transferred) :=
    if isHttpUrl source then f.downloadUrlStreamHash io source files
    else f.copyFileStreamHash io source files
  match transferred with
  | .error error => (files, .error error)
  | .ok (got, bytes) =>
    if got ≠ f.expected_sha256 then
      (removeFile io .mismatchedDest f.destEntry files,
        .error ("Artifact SHA-256 mismatch (fail closed): got " ++ got.toHex ++ " expected " ++
          f.expected_sha256.toHex ++ " — deleted " ++ f.dest))
    else (files, .ok bytes)

def clean (files : Files P Bytes) : Files P Bytes :=
  removeFile io .cleanPartial f.partialEntry (removeFile io .cleanDest f.destEntry files)

/-- The loop of `FetchSnapshotArtifactFromCandidates` from the candidate `i` on. -/
def tryCandidates (io : ℕ → TransferIo) : (i : ℕ) → (combined : String) → List String →
    Files P Bytes → Files P Bytes × Except String (ℕ × String)
  | _, combined, [], files =>
    (files, .error ("All snapshot sources failed (fail closed): " ++ combined))
  | i, combined, src :: sources, files =>
    if src = "" then tryCandidates io (i + 1) combined sources files
    else
      match f.fetchSnapshotArtifact (io i) src (f.clean (io i) files) with
      | (files, .ok bytes) => (files, .ok (bytes, src))
      | (files, .error error) =>
        tryCandidates io (i + 1) (combined ++ (if combined = "" then "" else " | ") ++
            ("[" ++ toString (i + 1) ++ "] " ++ src ++ ": " ++ error)) sources files

/-- The files it leaves, and the bytes and the source it used
or its error. -/
def fetchSnapshotArtifactFromCandidates (io : ℕ → TransferIo) (sources : List String)
    (files : Files P Bytes) : Files P Bytes × Except String (ℕ × String) :=
  if sources = [] then (files, .error "No snapshot source URLs/paths to try")
  else f.tryCandidates io 0 "" sources files

end Fetch
end SnapshotFetch
end DogecoinCore
