import DogecoinCore.Prune

/-! Where `FindBlockPos` and `FindUndoPos` put blocks and undo data. The sizes they add up are of 32
bits: bytes are handed out once as long as no sum wraps. -/
namespace DogecoinCore
open List Nat

def MAX_BLOCKFILE_SIZE : UInt32 := 0x8000000

structure FileTable where
  vinfoBlockFile : List CBlockFileInfo
  nLastBlockFile : ℕ

namespace FileTable
variable (t : FileTable)

def info (nFile : ℕ) : CBlockFileInfo := t.vinfoBlockFile.getD nFile .null

def size (nFile : ℕ) : ℕ := (t.info nFile).nSize.toNat

def undoSize (nFile : ℕ) : ℕ := (t.info nFile).nUndoSize.toNat

def setInfo (nFile : ℕ) (info : CBlockFileInfo) : List CBlockFileInfo :=
  (t.vinfoBlockFile ++
    replicate (nFile + 1 - t.vinfoBlockFile.length) CBlockFileInfo.null).set nFile info

/-- `FindBlockPos` without `fKnown`: `pos` and the table. A file beyond the table is empty, so that
the loop ends there at the latest if the block is smaller than a file. -/
def findBlockPos (nAddSize nHeight : UInt32) : (ℕ × UInt32) × FileTable :=
  let nFile := t.nLastBlockFile + (t.vinfoBlockFile.drop t.nLastBlockFile).findIdx
    fun info => info.nSize + nAddSize < MAX_BLOCKFILE_SIZE
  let info := t.info nFile
  ((nFile, info.nSize), ⟨t.setInfo nFile { info with
    nSize := info.nSize + nAddSize, nHeightLast := max nHeight info.nHeightLast }, nFile⟩)

/-- `FindUndoPos`, for a file of the table. -/
def findUndoPos (nFile : ℕ) (nAddSize : UInt32) : UInt32 × FileTable :=
  let info := t.info nFile
  (info.nUndoSize, { t with
    vinfoBlockFile := t.setInfo nFile { info with nUndoSize := info.nUndoSize + nAddSize } })

/-- What `PruneOneBlockFile` does to the table. -/
def pruneOneBlockFile (nFile : ℕ) : FileTable := { t with vinfoBlockFile := t.setInfo nFile .null }

inductive Op
  | block (nAddSize nHeight : UInt32)
  | undo (nFile : ℕ) (nAddSize : UInt32)
  | prune (nFile : ℕ)

structure Span where
  nFile : ℕ
  start : ℕ
  stop : ℕ
  deriving DecidableEq

/-- The table, with the bytes handed out so far, the latest first, and the pruned files. -/
structure Handed where
  table : FileTable
  blk : List Span
  rev : List Span
  pruned : List ℕ

/-- One operation. A block is smaller than a file, undo data goes to a file that was not pruned, and
the last file is not pruned: what is not allowed is passed over. -/
def Handed.step (s : Handed) : Op → Handed
  | .block nAddSize nHeight =>
    if nAddSize < MAX_BLOCKFILE_SIZE then
      let ((nFile, nPos), table) := s.table.findBlockPos nAddSize nHeight
      { s with table, blk := ⟨nFile, nPos.toNat, nPos.toNat + nAddSize.toNat⟩ :: s.blk }
    else s
  | .undo nFile nAddSize =>
    if nFile < s.table.vinfoBlockFile.length ∧ nFile ∉ s.pruned then
      let (nPos, table) := s.table.findUndoPos nFile nAddSize
      { s with table, rev := ⟨nFile, nPos.toNat, nPos.toNat + nAddSize.toNat⟩ :: s.rev }
    else s
  | .prune nFile =>
    if nFile < s.table.nLastBlockFile then
      { s with table := s.table.pruneOneBlockFile nFile, pruned := nFile :: s.pruned }
    else s

def Apart (spans : List Span) : Prop :=
  spans.Pairwise fun new old => new.nFile = old.nFile → old.stop ≤ new.start

variable {t}

theorem getD_setInfo (nFile g : ℕ) (info : CBlockFileInfo) :
    (t.setInfo nFile info).getD g .null = if g = nFile then info else t.info g := by
  simp only [setInfo, FileTable.info, getD_eq_getElem?_getD, getElem?_set, getElem?_append,
    getElem?_replicate]
  grind

theorem sizes_setInfo (nFile last g : ℕ) (info : CBlockFileInfo) :
    size ⟨t.setInfo nFile info, last⟩ g = (if g = nFile then info.nSize.toNat else t.size g) ∧
      undoSize ⟨t.setInfo nFile info, last⟩ g =
        if g = nFile then info.nUndoSize.toNat else t.undoSize g := by
  simp only [size, undoSize, FileTable.info, getD_setInfo]
  constructor <;> split <;> rfl

private theorem findBlockPos_spec (fits : nAddSize < MAX_BLOCKFILE_SIZE)
    (small : ∀ f ≥ t.nLastBlockFile, t.size f ≤ 0xf8000000) :
    ∃ f t', t.findBlockPos nAddSize nHeight = ((f, (t.info f).nSize), t') ∧ t.nLastBlockFile ≤ f ∧
      t'.nLastBlockFile = f ∧ t.size f + nAddSize.toNat < 0x8000000 ∧ t'.undoSize = t.undoSize ∧
      ∀ g, t'.size g = if g = f then t.size f + nAddSize.toNat else t.size g := by
  set k := (t.vinfoBlockFile.drop t.nLastBlockFile).findIdx
    fun info => info.nSize + nAddSize < MAX_BLOCKFILE_SIZE
  set f := t.nLastBlockFile + k
  have add := UInt32.lt_iff_toNat_lt.1 fits
  have limit := small f (Nat.le_add_right ..)
  have room : (t.info f).nSize + nAddSize < MAX_BLOCKFILE_SIZE := by
    rw [info, getD_eq_getElem?_getD, ← getElem?_drop]
    by_cases inside : k < (t.vinfoBlockFile.drop t.nLastBlockFile).length
    · rw [getElem?_eq_getElem inside]
      simpa using findIdx_getElem (w := inside)
    · rw [getElem?_eq_none (not_lt.1 inside)]
      simpa [CBlockFileInfo.null] using fits
  change _ < 0x8000000 at add
  have exact' : ((t.info f).nSize + nAddSize).toNat =
      t.size f + nAddSize.toNat :=
    (UInt32.toNat_add ..).trans (mod_eq_of_lt (by rw [size] at *; omega))
  refine ⟨_, _, rfl, Nat.le_add_right .., rfl, exact' ▸ UInt32.lt_iff_toNat_lt.1 room, ?_,
    fun g => ?_⟩
  · funext g
    rw [(sizes_setInfo ..).2]
    split <;> simp_all [undoSize]
  · rw [(sizes_setInfo ..).1, exact']

/-- What holds of the bytes handed out since the table was `t`. -/
structure Kept (t : FileTable) (s : Handed) : Prop where
  last : t.nLastBlockFile ≤ s.table.nLastBlockFile
  grown : ∀ f ≥ s.table.nLastBlockFile, t.size f ≤ s.table.size f
  bound : ∀ f, s.table.size f < 0x8000000 ∨ s.table.size f = t.size f
  blk : ∀ a ∈ s.blk, a.nFile ≤ s.table.nLastBlockFile ∧ t.size a.nFile ≤ a.start ∧
    (a.nFile = s.table.nLastBlockFile → a.stop ≤ s.table.size a.nFile)
  blk_apart : Apart s.blk
  rev : (∀ a ∈ s.rev, a.stop < 2 ^ 32) → Apart s.rev ∧
    ∀ a ∈ s.rev, a.nFile ∉ s.pruned → a.stop ≤ s.table.undoSize a.nFile

theorem Kept.step (kept : Kept t s) (small : ∀ f ≥ t.nLastBlockFile, t.size f ≤ 0xf8000000)
    (op : Op) : Kept t (s.step op) := by
  have ⟨last, grown, bound, blk, apart, rev⟩ := kept
  cases op with
  | block nAddSize _ =>
    rw [Handed.step]
    split
    case isFalse => exact kept
    rename_i fits
    obtain ⟨f, _, found, _, _, _, undo, size⟩ := findBlockPos_spec (t := s.table) fits
      fun f _ => by grind
    rw [found]
    refine ⟨by grind, by grind, by grind, by grind [FileTable.size], pairwise_cons.2 ⟨?_, apart⟩,
      undo ▸ rev⟩
    grind [FileTable.size]
  | undo nFile nAddSize =>
    rw [Handed.step]
    split
    case isFalse => exact kept
    have sizes (g) := s.table.sizes_setInfo nFile s.table.nLastBlockFile g
      { s.table.info nFile with nUndoSize := (s.table.info nFile).nUndoSize + nAddSize }
    rw [findUndoPos]
    simp only [UInt32.toNat_add] at sizes ⊢
    refine ⟨last, ?_, ?_, ?_, apart, fun few => ?_⟩
    · grind [FileTable.size]
    · grind [FileTable.size]
    · grind [FileTable.size]
    obtain ⟨narrow, few⟩ := forall_mem_cons.1 few
    obtain ⟨apart', _⟩ := rev few
    rw [mod_eq_of_lt narrow] at sizes
    refine ⟨pairwise_cons.2 ⟨?_, apart'⟩, forall_mem_cons.2 ⟨fun _ => ?_, ?_⟩⟩
    · grind [undoSize]
    · grind [undoSize]
    · grind [undoSize]
  | prune nFile =>
    rw [Handed.step]
    split
    case isFalse => exact kept
    have sizes (g) := s.table.sizes_setInfo nFile s.table.nLastBlockFile g .null
    have empty : CBlockFileInfo.null.nSize.toNat = 0 := rfl
    rw [pruneOneBlockFile]
    constructor <;> grind

/-- From sizes that leave room for a block below 4 GiB, the bytes of a blk file are handed out in
order and from its first size on, and the file does not grow to the limit. The bytes of a rev
file are handed out in order as long as they are below 4 GiB. -/
theorem ranges_apart (t : FileTable) (ops : List Op)
    (small : ∀ f ≥ t.nLastBlockFile, t.size f ≤ 2 ^ 32 - MAX_BLOCKFILE_SIZE.toNat) :
    let s := ops.foldl Handed.step ⟨t, [], [], []⟩
    Apart s.blk ∧ (∀ a ∈ s.blk, t.size a.nFile ≤ a.start) ∧
      (∀ f, s.table.size f < MAX_BLOCKFILE_SIZE.toNat ∨ s.table.size f = t.size f) ∧
      ((∀ a ∈ s.rev, a.stop < 2 ^ 32) → Apart s.rev) := by
  have run (s) (kept : Kept t s) : Kept t (ops.foldl Handed.step s) := by
    induction ops generalizing s with
    | nil => exact kept
    | cons op ops ih => exact ih _ (kept.step small op)
  have kept := run ⟨t, [], [], []⟩
    ⟨le_rfl, fun f _ => le_rfl, fun f => .inr rfl, by simp, .nil, fun _ => ⟨.nil, by simp⟩⟩
  exact ⟨kept.blk_apart, fun a member => (kept.blk a member).2.1, kept.bound, fun few =>
    (kept.rev few).1⟩

def usedTable : FileTable := ⟨[⟨0x7ffff00, 50, 3⟩, ⟨0x7fffe00, 10, 5⟩], 1⟩

/-- The second of three blocks no longer fits into the second file. -/
theorem ranges_apart_usedTable : (∀ f ≥ 1, usedTable.size f ≤ 2 ^ 32 - 0x8000000) ∧
    Apart ([Op.block 300 0, .undo 1 7, .block 300 1, .block 200 2].foldl Handed.step
      ⟨usedTable, [], [], []⟩).blk := by
  have small : ∀ f ≥ 1, usedTable.size f ≤ 2 ^ 32 - 0x8000000 := by
    intro f _
    match f with
    | 0 | 1 => decide
    | f + 2 => exact Nat.zero_le _
  exact ⟨small, (ranges_apart _ _ small).1⟩

/-- A sum that wraps brings the next block, or undo data, to bytes that are taken. -/
theorem ranges_overlap : (∃ a ∈ ([Op.block 1 0, .block 10 1].foldl Handed.step
      ⟨⟨[⟨0xffffffff, 0, 0⟩], 0⟩, [], [], []⟩).blk, a.start < 0xffffffff) ∧
    ¬ Apart ([Op.undo 0 0xffffffff, .undo 0 2, .undo 0 5].foldl Handed.step
      ⟨⟨[.null], 0⟩, [], [], []⟩).rev := by
  unfold Apart
  decide

end FileTable
end DogecoinCore
