import Mathlib.Tactic.Common

/-! The guard of `InitBlockArchive` against an archive in a live directory. Paths are those of
Boost.Filesystem version 3 on POSIX, where `//net` is a root name. -/
namespace DogecoinCore.Archive
open List

def hasRootDirectory : List Char → Bool
  | '/' :: '/' :: rest => '/' ∈ rest
  | '/' :: _ => true
  | _ => false

/-- The `net` of `//net/`. -/
def rootName : List Char → List Char
  | '/' :: '/' :: rest => if rest.head? = some '/' then [] else rest.takeWhile (· ≠ '/')
  | _ => []

private theorem takeWhile_of_mem {text : List Char} (inside : '/' ∈ text) :
    (text ++ more).takeWhile (· ≠ '/') = text.takeWhile (· ≠ '/') := by
  induction text with
  | nil => cases inside
  | cons c text rest =>
    by_cases sep : c = '/'
    · simp [sep]
    · have inside : '/' ∈ text := (mem_cons.1 inside).resolve_left (Ne.symm sep)
      rw [cons_append, takeWhile_cons_of_pos (by simpa), takeWhile_cons_of_pos (by simpa),
        rest inside]

section
variable {text more : List Char} (rooted : hasRootDirectory text)
  (apart : text = ['/'] → more.head? ≠ some '/')
include rooted apart

private theorem rooted_append : hasRootDirectory (text ++ more) := by
  unfold hasRootDirectory at rooted
  split at rooted
  next rest => simpa [hasRootDirectory] using .inl (by simpa using rooted)
  next rest other =>
    match rest, more, apart with
    | [], [], _ => rfl
    | [], c :: _, apart => simp_all [hasRootDirectory]
    | c :: rest, _, _ => simp_all [hasRootDirectory]
  next => cases rooted

private theorem rootName_append : rootName (text ++ more) = rootName text := by
  unfold hasRootDirectory at rooted
  split at rooted
  next rest =>
    have inside : '/' ∈ rest := by simpa using rooted
    obtain ⟨c, after, rfl⟩ := exists_cons_of_ne_nil (ne_nil_of_mem inside)
    exact if_congr (by simp) rfl (takeWhile_of_mem inside)
  next rest other =>
    match rest, more, apart with
    | [], [], _ => rfl
    | [], c :: _, apart => simp_all [rootName]
    | c :: rest, _, _ => simp_all [rootName]
  next => cases rooted

end

/-- A path as `fs::absolute` returns it; `AbsNorm` leaves it alone. -/
structure AbsolutePath where
  text : List Char
  rooted : hasRootDirectory text
deriving DecidableEq

/-- `operator/`, for a relative path. -/
def join (base : AbsolutePath) (name : List Char) (relative : name.head? ≠ some '/') :
    AbsolutePath where
  text := base.text ++ if base.text.getLast? = some '/' then name else '/' :: name
  rooted := rooted_append base.rooted (by rintro root; simp [root, relative])

private theorem rooted_of_rootName (named : ¬ hasRootDirectory p) (sep : p.head? = some '/')
    (cwd : AbsolutePath) : hasRootDirectory (p ++ cwd.text) := by
  have cwd : '/' ∈ cwd.text := by
    have rooted := cwd.rooted
    unfold hasRootDirectory at rooted
    split at rooted <;> simp_all
  unfold hasRootDirectory at named
  split at named
  next rest => simpa [hasRootDirectory] using .inr cwd
  next => cases named rfl
  next none =>
    obtain ⟨_, eq⟩ := head?_eq_some_iff.1 sep
    exact (none _ eq).elim

def absNorm (cwd : AbsolutePath) (p : List Char) : AbsolutePath :=
  if rooted : hasRootDirectory p then ⟨p, rooted⟩
  -- a root name alone is completed by the current directory
  else if named : p.head? = some '/' then ⟨p ++ cwd.text, rooted_of_rootName rooted named cwd⟩
  else join cwd p named

def pathEqualsOrContains (a b : AbsolutePath) : Bool :=
  a = b || b.text.isPrefixOf a.text && a.text[b.text.length]? ∈ [some '/', some '\\']

def names (text : List Char) : List (List Char) := (text.splitOn '/').filter (· ≠ [])

/-- A separator at the end counts as the name `.`. -/
def ending (text : List Char) : List (List Char) :=
  if text.getLast? = some '/' ∧ names text ≠ [] then [['.']] else []

/-- What `==` compares. -/
def elements (p : AbsolutePath) : List Char × List (List Char) :=
  (rootName p.text, names p.text ++ ending p.text)

def resolve (p : AbsolutePath) : List (List Char) :=
  (names p.text).foldl (fun dirs name =>
    if name = ['.'] then dirs else if name = ['.', '.'] then dirs.dropLast else dirs ++ [name]) []

def live (data : AbsolutePath) : List AbsolutePath :=
  [data, join data "blocks".toList (by decide), join data "chainstate".toList (by decide)]

/-- An error leaves the path empty, `create` is the exception of
`create_directories`. -/
def initBlockArchive (cwd data : AbsolutePath) (raw : List Char)
    (create : AbsolutePath → Option String) : Except String (Option AbsolutePath) :=
  if raw = [] then .ok none
  else
    let archive := absNorm cwd raw
    if pathEqualsOrContains archive data ∧ elements archive ∈ (live data).map elements then
      .error "archivepath cannot be the live datadir, blocks/, or chainstate/"
    else match create archive with
      | some what =>
        .error ("cannot create archivepath \"" ++ .ofList archive.text ++ "\": " ++ what)
      | none => .ok (some archive)

def Recognised (data archive : AbsolutePath) : Prop :=
  archive = data ∨ ∃ rest, archive.text = data.text ++ '/' :: rest ∧
    rootName archive.text = rootName data.text ∧
    (names rest ∈ [["blocks".toList], ["chainstate".toList]] ∧ rest.getLast? ≠ some '/' ∨
      -- the data directory itself, where it was given with a separator at its end
      data.text.getLast? = some '/' ∧ (names rest = [] ∨
        names rest = [['.']] ∧ rest.getLast? ≠ some '/' ∧ names data.text ≠ []))

private theorem names_append (text rest : List Char) :
    names (text ++ '/' :: rest) = names text ++ names rest := by
  simp [names, splitOn, splitOnP_append_cons]

private theorem flatten_names (text : List Char) :
    (names text).flatten = text.filter (· ≠ '/') := by
  rw [names, flatten_filter_ne_nil, splitOn]
  induction text with
  | nil => rfl
  | cons c text _ =>
    obtain ⟨_, _, _⟩ := exists_cons_of_ne_nil (splitOnP_ne_nil (· == '/') text)
    rw [splitOnP_cons_eq_if_modifyHead]
    by_cases sep : c = '/' <;> simp_all

private theorem getLast_of_names (none : names text = []) (given : text ≠ []) :
    text.getLast? = some '/' := by
  have all : ∀ c ∈ text, c = '/' := by simpa [none] using flatten_names text
  rw [getLast?_eq_some_getLast given, all _ (getLast_mem given)]

private theorem ending_append (text rest : List Char) : ending (text ++ '/' :: rest) =
    if (rest = [] ∨ rest.getLast? = some '/') ∧ ¬ (names text = [] ∧ names rest = []) then [['.']]
    else [] := by
  rw [ending, names_append]
  refine if_congr (and_congr ?_ (by simp)) rfl rfl
  cases rest <;> simp [getLast?_append, getLast?_cons]

private theorem elements_join (one : names name = [name]) (shut : name.getLast? ≠ some '/')
    (relative : name.head? ≠ some '/') (data : AbsolutePath) :
    elements (join data name relative) = (rootName data.text, names data.text ++ [name]) := by
  have given : name ≠ [] := by rintro rfl; cases one
  obtain ⟨pre, eq, same⟩ : ∃ pre, (join data name relative).text = pre ++ '/' :: name ∧
      names pre = names data.text := by
    by_cases last : data.text.getLast? = some '/'
    · obtain ⟨pre, eq⟩ := getLast?_eq_some_iff.1 last
      exact ⟨pre, by simp [join, eq], by rw [eq, names_append]; exact (append_nil _).symm⟩
    · exact ⟨data.text, by simp [join, last], rfl⟩
  have root : rootName (join data name relative).text = rootName data.text :=
    rootName_append data.rooted (by rintro root; simp [root, relative])
  rw [elements, root, eq, ending_append, if_neg (by simp [given, shut]), names_append, same, one,
    append_nil]

private theorem known_iff (given : text ≠ []) :
    (∃ known ∈ [ending text, ["blocks".toList], ["chainstate".toList]],
      known = names rest ++ if (rest = [] ∨ rest.getLast? = some '/') ∧
        ¬ (names text = [] ∧ names rest = []) then [['.']] else []) ↔
      names rest ∈ [["blocks".toList], ["chainstate".toList]] ∧ rest.getLast? ≠ some '/' ∨
      text.getLast? = some '/' ∧ (names rest = [] ∨
        names rest = [['.']] ∧ rest.getLast? ≠ some '/' ∧ names text ≠ []) := by
  simp only [exists_eq_right]
  by_cases bare : names rest = []
  · have closed : rest = [] ∨ rest.getLast? = some '/' := by
      by_cases empty : rest = []
      · exact .inl empty
      · exact .inr (getLast_of_names bare empty)
    by_cases root : names text = []
    · simp [bare, root, ending, getLast_of_names root given]
    · by_cases last : text.getLast? = some '/' <;> simp [bare, closed, root, ending, last]
  · have opened : rest ≠ [] := by rintro rfl; exact bare rfl
    by_cases last : rest.getLast? = some '/'
    -- the separator adds an element that no live path has
    · obtain ⟨first, others, eq⟩ := exists_cons_of_ne_nil bare
      by_cases kept : text.getLast? = some '/' ∧ names text ≠ [] <;> simp [eq, last, ending, kept]
    · by_cases kept : text.getLast? = some '/' ∧ names text ≠ []
      · simp [opened, last, ending, kept, bare, or_comm]
      · simp [opened, last, ending, kept, bare]
        tauto

theorem recognised_iff : pathEqualsOrContains archive data ∧
    elements archive ∈ (live data).map elements ↔ Recognised data archive := by
  have lives : (live data).map elements =
      [ending data.text, ["blocks".toList], ["chainstate".toList]].map
        fun known => (rootName data.text, names data.text ++ known) := by
    rw [live, map_cons, map_cons, map_cons, elements_join (by decide) (by decide),
      elements_join (by decide) (by decide)]
    rfl
  have given : data.text ≠ [] := fun none => by simpa [none, hasRootDirectory] using data.rooted
  simp only [pathEqualsOrContains, Bool.or_eq_true, Bool.and_eq_true, decide_eq_true_eq,
    isPrefixOf_iff_prefix, lives, mem_map, Recognised, ← known_iff given]
  constructor
  · rintro ⟨rfl | ⟨⟨_ | ⟨c, rest⟩, eq⟩, sep⟩, _, known, same⟩
    · exact .inl rfl
    · simp [← eq] at sep
    obtain ⟨root, same⟩ := Prod.ext_iff.1 same
    simp only [elements, ← eq] at root same
    have sep : c = '/' ∨ c = '\\' := by simpa [← eq] using sep
    rcases sep with rfl | rfl
    · rw [names_append, append_assoc, append_cancel_left_eq, ending_append] at same
      exact .inr ⟨rest, eq.symm, by rw [← eq, root], _, known, same⟩
    -- the other separator stays in the name
    · have flat := congrArg flatten same
      simp [flatten_names] at flat known
      rcases known with rfl | rfl | rfl
      · simp only [ending] at flat
        split at flat <;> simp at flat
      · simp at flat
      · simp at flat
  · rintro (rfl | ⟨rest, eq, root, _, known, same⟩)
    · exact ⟨.inl rfl, _, .head _, rfl⟩
    · refine ⟨.inr ⟨⟨_, eq.symm⟩, by simp [eq]⟩, _, known, ?_⟩
      rw [elements, root, eq, names_append, ending_append, same, append_assoc]

/-- **The archive is refused** in exactly these spellings of a live directory. -/
theorem archive_rejected_iff : (∃ err, initBlockArchive cwd data raw create = .error err) ↔
    raw ≠ [] ∧ (Recognised data (absNorm cwd raw) ∨ (create (absNorm cwd raw)).isSome) := by
  by_cases given : raw = []
  · simp [initBlockArchive, given]
  simp only [initBlockArchive, if_neg given, ← recognised_iff]
  split
  · simp_all
  · cases create (absNorm cwd raw) <;> simp_all

theorem archive_rejected_blocks : ∃ err, initBlockArchive ⟨['/'], rfl⟩ ⟨"/d/".toList, rfl⟩
    "d//blocks".toList (fun _ => none) = .error err :=
  archive_rejected_iff.2 ⟨by decide, .inl (.inr ⟨"blocks".toList, by decide⟩)⟩

/-- A separator at the end puts the archive into the live block files. -/
theorem archive_live_blocks : resolve ⟨"/d/blocks/".toList, rfl⟩ ∈
      (live ⟨"/d".toList, rfl⟩).map resolve ∧
    initBlockArchive ⟨['/'], rfl⟩ ⟨"/d".toList, rfl⟩ "/d/blocks/".toList (fun _ => none) =
      .ok (some ⟨"/d/blocks/".toList, rfl⟩) := by
  decide

end DogecoinCore.Archive
