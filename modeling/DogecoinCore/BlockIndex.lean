import DogecoinCore.ParentTree
import Mathlib.Data.Prod.Lex
import Mathlib.Data.List.MinMax

/-! The block index: the header tree, whose shape never changes once a header is
in it, and the mutable part of each `CBlockIndex`, together with the order
`CBlockIndexWorkComparator` puts on the entries. -/
namespace DogecoinCore
open List ParentTree Option

/-- A `uint256`: block hashes, transaction ids and digests. -/
abbrev UInt256 := BitVec 256

instance : LawfulBEq UInt256 := instLawfulBEq

/-- The validity levels of `nStatus & BLOCK_VALID_MASK`. -/
inductive BlockValidity where
  | unknown | header | tree | transactions | chain | scripts
  deriving DecidableEq, Repr

/-- The level's value in `enum BlockStatus`. -/
def BlockValidity.toNat : BlockValidity → ℕ
  | unknown => 0
  | header => 1
  | tree => 2
  | transactions => 3
  | chain => 4
  | scripts => 5

/-- The fields of a `CBlockIndex` that change after its header was accepted. `nTx` and `nChainTx`,
here without the bound of an `unsigned int`, are only added up and compared with zero. -/
structure BlockData where
  nTx : ℕ
  nChainTx : ℕ
  nSequenceId : ℤ
  validity : BlockValidity
  haveData : Bool
  haveUndo : Bool
  failedValid : Bool
  failedChild : Bool
  nFile : ℕ
  deriving DecidableEq, Repr

namespace BlockData
def null : BlockData where
  nTx := 0
  nChainTx := 0
  nSequenceId := 0
  validity := .unknown
  haveData := false
  haveUndo := false
  failedValid := false
  failedChild := false
  nFile := 0

/-- `nStatus & BLOCK_FAILED_MASK`. -/
def failed (d : BlockData) : Bool := d.failedValid || d.failedChild

def isValid (d : BlockData) (nUpTo : BlockValidity) : Bool :=
  !d.failed && nUpTo.toNat ≤ d.validity.toNat

def raiseValidity (d : BlockData) (nUpTo : BlockValidity) : BlockData :=
  if d.failed then d
  else if d.validity.toNat < nUpTo.toNat then { d with validity := nUpTo }
  else d

def clearFailed (d : BlockData) : BlockData := { d with failedValid := false, failedChild := false }

theorem isValid_iff {d : BlockData} :
    d.isValid nUpTo ↔ d.failed = false ∧ nUpTo.toNat ≤ d.validity.toNat := by
  simp [isValid]

@[simp] theorem failed_clearFailed {d : BlockData} : d.clearFailed.failed = false := rfl

theorem raiseValidity_eq (d : BlockData) (nUpTo : BlockValidity) :
    ∃ v, d.validity.toNat ≤ v.toNat ∧ (d.failed = false → nUpTo.toNat ≤ v.toNat) ∧
      d.raiseValidity nUpTo = { d with validity := v } := by
  unfold raiseValidity
  split
  · exact ⟨d.validity, le_refl _, by simp_all, rfl⟩
  split
  · exact ⟨nUpTo, by omega, fun _ => le_refl _, rfl⟩
  · exact ⟨d.validity, le_refl _, fun _ => by omega, rfl⟩

end BlockData

/-- A block header that passed its proof of work, as far as the index reads it. `checked` says
whether `CheckBlockHeader` and `ContextualCheckBlockHeader` accept it. -/
structure CBlockHeader where
  hash : UInt256
  hashPrevBlock : UInt256
  proof : ℕ
  proof_pos : 0 < proof
  checked : Bool := true

/-- The headers of `mapBlockIndex` with `pprev`, `nHeight` and `nChainWork`. -/
structure HeaderTree extends ParentTree UInt256 where
  blocks : List UInt256
  nodup : blocks.Nodup
  nChainWork : UInt256 → ℕ
  parent_mem : ∀ {b p}, parent b = some p → b ∈ blocks ∧ p ∈ blocks
  work_parent : ∀ {b p}, parent b = some p → nChainWork p < nChainWork b

namespace HeaderTree
variable {t : HeaderTree}

def empty : HeaderTree where
  parent _ := none
  height _ := 0
  height_parent := by simp
  height_root := by simp
  blocks := []
  nodup := nodup_nil
  nChainWork _ := 0
  parent_mem := by simp
  work_parent := by simp

theorem mem_of_le (le : t.Le a b) (known : b ∈ t.blocks) : a ∈ t.blocks := by
  induction b using t.parent_induction with
  | step b ih =>
    rcases le_iff_parent.1 le with rfl | ⟨p, edge, below⟩
    · exact known
    · exact ih p edge below (t.parent_mem edge).2

theorem work_le (le : t.Le a b) : t.nChainWork a ≤ t.nChainWork b := by
  induction b using t.parent_induction with
  | step b ih =>
    rcases le_iff_parent.1 le with rfl | ⟨p, edge, below⟩
    · exact le_refl _
    · exact (ih p edge below).trans (t.work_parent edge).le

theorem work_lt (le : t.Le a b) (ne : a ≠ b) : t.nChainWork a < t.nChainWork b := by
  rcases le_iff_parent.1 le with same | ⟨_, edge, below⟩
  · exact absurd same ne
  · exact (work_le below).trans_lt (t.work_parent edge)

section Insert
variable (t : HeaderTree) (block : CBlockHeader)

/-- The new entry's `pprev`. -/
def newParent : Option UInt256 :=
  if block.hashPrevBlock ∈ t.blocks then some block.hashPrevBlock else none

theorem newParent_mem (edge : t.newParent block = some p) : p ∈ t.blocks := by
  simp only [newParent, ite_none_right_eq_some, some.injEq] at edge
  exact edge.2 ▸ edge.1

def insert (fresh : block.hash ∉ t.blocks) : HeaderTree where
  parent b := if b = block.hash then t.newParent block else t.parent b
  height b :=
    if b = block.hash then (t.newParent block).elim 0 (fun p => t.height p + 1) else t.height b
  height_parent {b p} edge := by
    by_cases same : b = block.hash
    · subst same
      simp only [↓reduceIte] at edge
      have ne : p ≠ block.hash := fun h => fresh (h ▸ newParent_mem t block edge)
      simp [edge, ne]
    simp only [same, ↓reduceIte] at edge
    have ne : p ≠ block.hash := fun h => fresh (h ▸ (t.parent_mem edge).2)
    simpa [same, ne] using t.height_parent edge
  height_root {b} root := by
    by_cases same : b = block.hash
    · subst same
      simp only [↓reduceIte] at root
      simp [root]
    · simp only [same, ↓reduceIte] at root
      simpa [same] using t.height_root root
  blocks := block.hash :: t.blocks
  nodup := nodup_cons.2 ⟨fresh, t.nodup⟩
  nChainWork b :=
    if b = block.hash then (t.newParent block).elim 0 t.nChainWork + block.proof
    else t.nChainWork b
  parent_mem {b p} edge := by
    by_cases same : b = block.hash
    · subst same
      simp only [↓reduceIte] at edge
      exact ⟨mem_cons_self, mem_cons_of_mem _ (newParent_mem t block edge)⟩
    simp only [same, ↓reduceIte] at edge
    obtain ⟨known, parentKnown⟩ := t.parent_mem edge
    exact ⟨mem_cons_of_mem _ known, mem_cons_of_mem _ parentKnown⟩
  work_parent {b p} edge := by
    by_cases same : b = block.hash
    · subst same
      simp only [↓reduceIte] at edge
      have ne : p ≠ block.hash := fun h => fresh (h ▸ newParent_mem t block edge)
      have := block.proof_pos
      simp only [edge, ↓reduceIte, ne, elim_some]
      omega
    simp only [same, ↓reduceIte] at edge
    have ne : p ≠ block.hash := fun h => fresh (h ▸ (t.parent_mem edge).2)
    simpa [same, ne] using t.work_parent edge

variable {t block}

section
variable (fresh : block.hash ∉ t.blocks)
include fresh

section
variable (ne : b ≠ block.hash)
include ne

theorem insert_parent_of_ne :
    (t.insert block fresh).parent b = t.parent b := by
  simp [insert, ne]

theorem insert_height_of_ne :
    (t.insert block fresh).height b = t.height b := by
  simp [insert, ne]

theorem insert_work_of_ne :
    (t.insert block fresh).nChainWork b = t.nChainWork b := by
  simp [insert, ne]

end

@[simp] theorem insert_parent_self :
    (t.insert block fresh).parent block.hash = t.newParent block := by
  simp [insert]

@[simp] theorem insert_blocks : (t.insert block fresh).blocks = block.hash :: t.blocks := rfl

theorem insert_le_iff (known : b ∈ t.blocks) : (t.insert block fresh).Le a b ↔ t.Le a b := by
  induction b using t.parent_induction with
  | step b ih =>
    have ne : b ≠ block.hash := fun h => fresh (h ▸ known)
    rw [le_iff_parent, le_iff_parent, insert_parent_of_ne fresh ne]
    refine or_congr_right (exists_congr fun p => and_congr_right fun edge => ?_)
    exact ih p edge (t.parent_mem edge).2

end

end Insert
end HeaderTree
end DogecoinCore
