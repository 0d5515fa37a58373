import Mathlib.Algebra.Order.Ring.Int

/-! `ParseSnapshotArtifactManifest`, which reads what a remote host sends. -/
namespace DogecoinCore.Manifest
open List Option

inductive UniValue where
  | null
  | bool (b : Bool)
  | num (n : Option ℤ)
  | str (s : String)
  | arr (values : List UniValue)
  | obj (fields : List (String × UniValue))

abbrev Fields := List (String × UniValue)

def getStr : UniValue → Option String
  | .str s => some s
  | _ => none

/-- `get_int` and `get_int64`, by their width. -/
def getInt (width : ℕ) : UniValue → Option ℤ
  | .num (some n) => if -2 ^ (width - 1) ≤ n ∧ n < 2 ^ (width - 1) then some n else none
  | _ => none

/-- The first of the keys that exists, read without a look at its type. -/
def field (v : Fields) (keys : List String) (read : UniValue → Option α) (init : α) : Option α :=
  (keys.findSome? (v.lookup ·)).elim (some init) read

def elements (v : Fields) (key : String) : List UniValue :=
  match v.lookup key with
  | some (.arr values) => values
  | _ => []

def mirrorUrl : UniValue → Option String
  | .obj mirror => (mirror.lookup "url").bind getStr
  | _ => none

structure SnapshotArtifactManifest where
  height : ℤ
  baseBlockhashHex : String
  hashSerializedHex : String
  artifactSha256Hex : String
  url : String
  urls : List String
  sizeBytes : ℤ
  status : String

/-- The digits that `ParseSha256Hex` looks at. -/
def hexDigits (hex : String) : List Char :=
  match hex.toList with
  | '0' :: 'x' :: h | '0' :: 'X' :: h => h
  | h => h

def isHex (h : List Char) : Bool :=
  h.length % 2 = 0 && h.all fun c => c.isDigit || 'a' ≤ c && c ≤ 'f' || 'A' ≤ c && c ≤ 'F'

def readFields (v : Fields) : Option SnapshotArtifactManifest := do
  return {
    height := ← field v ["height", "blocks"] (getInt 32) (-1)
    baseBlockhashHex := ← field v ["base_blockhash", "bestblock"] getStr ""
    hashSerializedHex := ← field v ["hash_serialized"] getStr ""
    artifactSha256Hex := ← field v ["artifact_sha256", "sha256"] getStr ""
    url := ← field v ["url"] getStr ""
    urls := ((elements v "urls").filterMap getStr ++
      (elements v "mirrors").filterMap mirrorUrl).filter (· ≠ "")
    sizeBytes := ← field v ["size_bytes", "bytes"] (getInt 64) (-1)
    status := ((v.lookup "status").bind getStr).getD "" }

/-- The checks of `ParseSnapshotArtifactManifest`. -/
def checkFields (m : SnapshotArtifactManifest) : Except String SnapshotArtifactManifest :=
  let url := if m.url = "" then m.urls.headD "" else m.url
  let urls := if url ∈ m.urls then m.urls else url :: m.urls
  let digits := hexDigits m.artifactSha256Hex
  if m.status ≠ "" ∧ m.artifactSha256Hex = "" then
    .error ("Snapshot not published yet (status=" ++ m.status ++
      "). Wait for gpednode dumptxoutset / CDN pull.")
  else if m.artifactSha256Hex = "" then .error "Manifest missing artifact_sha256 (or sha256)"
  else if url = "" then .error "Manifest missing url (or urls[]) for .dat artifact"
  else if digits.length ≠ 64 ∨ !isHex digits then .error "artifact SHA-256 must be 64 hex characters"
  else .ok { m with url, urls }

/-- `ParseSnapshotArtifactManifest` of what `read` makes of the text; none where it throws. -/
def parseSnapshotArtifactManifest :
    Option UniValue → Option (Except String SnapshotArtifactManifest)
  | some (.obj v) => (readFields v).map checkFields
  | _ => some (.error "Manifest is not a JSON object")

structure Usable (m : SnapshotArtifactManifest) : Prop where
  digest : m.artifactSha256Hex.toList.length = 64 ∧ isHex m.artifactSha256Hex.toList
  url : m.url ≠ ""
  urls : "" ∉ m.urls ∧ m.url ∈ m.urls

/-- The fields that are read without a guard have their types, where they exist. -/
def WellTyped (v : Fields) : Prop :=
  (field v ["height", "blocks"] (getInt 32) (-1)).isSome ∧
  (field v ["size_bytes", "bytes"] (getInt 64) (-1)).isSome ∧
  ∀ keys ∈ [["base_blockhash", "bestblock"], ["hash_serialized"],
    ["artifact_sha256", "sha256"], ["url"]], (field v keys getStr "").isSome

theorem readFields_isSome : (readFields v).isSome ↔ WellTyped v := by
  simp [readFields, WellTyped, isSome_iff_exists, bind_eq_some_iff]
  tauto

theorem readFields_urls (ran : readFields v = some m) : "" ∉ m.urls := by
  simp only [readFields, bind_eq_bind, bind_eq_some_iff] at ran
  obtain ⟨_, -, _, -, _, -, _, -, _, -, _, -, ran⟩ := ran
  cases ran
  simp

/-- The digest is `0x` and 64 hex digits, and there is a url. -/
def Prefixed (m : SnapshotArtifactManifest) : Prop :=
  hexDigits m.artifactSha256Hex ≠ m.artifactSha256Hex.toList ∧
    (hexDigits m.artifactSha256Hex).length = 64 ∧ isHex (hexDigits m.artifactSha256Hex) ∧
    (m.url ≠ "" ∨ m.urls ≠ [])

theorem length_hexDigits (other : hexDigits hex ≠ hex.toList) :
    hex.toList.length = (hexDigits hex).length + 2 := by
  unfold hexDigits at other ⊢
  split <;> simp_all

theorem checkFields_usable (ran : checkFields m = .ok m') (clean : "" ∉ m.urls)
    (plain : ¬ Prefixed m) : Usable m' := by
  unfold checkFields at ran
  extract_lets url urls digits at ran
  have mem : url ∈ urls := by grind
  split_ifs at ran with _ _ given hex
  cases ran
  simp only [Bool.not_eq_true', not_or, Decidable.not_not, Bool.not_eq_false] at hex
  have same : digits = m.artifactSha256Hex.toList := by
    by_contra other
    refine plain ⟨other, hex.1, hex.2, ?_⟩
    by_contra none
    obtain ⟨noUrl, noUrls⟩ := not_or.1 none
    simp [url, not_not.1 noUrl, not_not.1 noUrls] at given
  exact ⟨same ▸ hex, given, by grind, mem⟩

theorem checkFields_prefixed (clean : "" ∉ m.urls) (bad : Prefixed m) :
    ∃ m', checkFields m = .ok m' ∧ m'.artifactSha256Hex = m.artifactSha256Hex := by
  obtain ⟨other, length, hex, given⟩ := bad
  have digest : m.artifactSha256Hex ≠ "" := by
    intro none
    rw [none] at length
    cases length
  have url : (if m.url = "" then m.urls.headD "" else m.url) ≠ "" := by
    split
    next none =>
      obtain ⟨first, rest, shape⟩ := exists_cons_of_ne_nil (given.resolve_left (not_not.2 none))
      rw [shape, headD_cons]
      exact fun empty => clean (shape ▸ empty ▸ mem_cons_self)
    next named => exact named
  rw [checkFields, if_neg (by simp [digest]), if_neg digest, if_neg url,
    if_neg (by simp [length, hex])]
  exact ⟨_, rfl, rfl⟩

/-- **Every manifest is parsed or refused**, and an accepted one is usable, exactly where the
unguarded fields have their types and no digest with a leading `0x` is accepted. -/
theorem manifest_usable_iff (json : Option UniValue) :
    (∃ result, parseSnapshotArtifactManifest json = some result ∧
      ∀ m, result = .ok m → Usable m) ↔
    ∀ v, json = some (.obj v) → WellTyped v ∧ ∀ m, readFields v = some m → ¬ Prefixed m := by
  simp only [← readFields_isSome, isSome_iff_exists]
  constructor
  · rintro ⟨result, ran, usable⟩ v rfl
    obtain ⟨m, read, rfl⟩ := map_eq_some_iff.1 ran
    refine ⟨⟨m, read⟩, fun m₁ read₁ bad => ?_⟩
    cases read.symm.trans read₁
    obtain ⟨m', accepted, same⟩ := checkFields_prefixed (readFields_urls read) bad
    have digest := (usable m' accepted).digest.1
    rw [same, length_hexDigits bad.1, bad.2.1] at digest
    cases digest
  intro typed
  unfold parseSnapshotArtifactManifest
  split
  next v =>
    obtain ⟨⟨m, read⟩, plain⟩ := typed v rfl
    exact ⟨checkFields m, by rw [read, map_some],
      fun _ ok => checkFields_usable ok (readFields_urls read) (plain m read)⟩
  next => exact ⟨_, rfl, by simp⟩

def mirrored : Fields :=
  [("sha256", .str "6e340b9cffb37a989ca544e6bb780a2c78901d3fb33738768511a30617afa01d"),
    ("mirrors", .arr [.obj [("url", .str "https://mirror/utxo.dat")]])]

theorem manifest_usable_mirrored : ∃ m,
    parseSnapshotArtifactManifest (some (.obj mirrored)) = some (.ok m) ∧ Usable m := by
  obtain ⟨result, ran, usable⟩ := (manifest_usable_iff (some (.obj mirrored))).2 (by
    rintro v ⟨⟩
    refine ⟨by simp [WellTyped, field, mirrored, getStr], ?_⟩
    rintro m ⟨⟩ ⟨other, -⟩
    exact other rfl)
  cases ran
  exact ⟨_, rfl, usable _ rfl⟩

/-- A height that is not a number is an exception. -/
theorem manifest_height_throws :
    parseSnapshotArtifactManifest (some (.obj [("height", .str "soon")])) = none := rfl

end DogecoinCore.Manifest
