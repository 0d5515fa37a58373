import DogecoinCore.BlockIndex
import DogecoinCore.Control
import Mathlib.Logic.Embedding.Basic
import Mathlib.Algebra.Order.Group.Int

/-! The globals of validation.cpp: block index, active chain, candidate set, coins
view and what of them is on disk. Block bodies and scripts enter through
`Consensus`, which says what connecting a block does to a set of coins. -/
namespace DogecoinCore
open List

structure CoinsView (C : Type) where
  hashBlock : Option UInt256
  coins : C
  deriving DecidableEq

/-- A `CCoinsViewCache` over a coins database. -/
structure CCoinsViewCache (C : Type) where
  db : CoinsView C
  view : CoinsView C
  deriving DecidableEq

/-- The cached coins are dropped also when the batch write fails. -/
def CCoinsViewCache.flush {C : Type} (written : Bool) (cache : CCoinsViewCache C) :
    CCoinsViewCache C :=
  if written then { cache with db := cache.view }
  else { cache with view := { cache.view with coins := cache.db.coins } }

/-- The consensus rules as functions on coins. `connect` is none for a block that
`ConnectBlock` rejects, and `leftover` is what the rejected block leaves in the view it
ran on. Undo data takes back exactly what connecting did, so `C` is the coins with their undo
data, as in `Coins.UndoableCoins`. -/
structure Consensus (C : Type) where
  hashGenesisBlock : UInt256
  connect : C → UInt256 → Option C
  leftover : C → UInt256 → C
  disconnect : C → UInt256 → Option C
  disconnect_iff : ∀ {before after b}, disconnect after b = some before ↔ connect before b = some after

structure BlockTreeDB where
  tree : HeaderTree
  data : UInt256 → BlockData
  nLastBlockFile : ℕ

/-- The blk and rev files: which block bodies and undo records are written but not yet synced. -/
structure BlockFiles where
  nLastBlockFile : ℕ
  unsyncedBlk : List UInt256
  unsyncedRev : List UInt256

structure ChainState (C : Type) where
  tree : HeaderTree
  data : UInt256 → BlockData
  /-- The addresses of the `CBlockIndex` objects, the comparator's last tie breaker. -/
  addr : UInt256 ↪ ℕ
  chainActive : Option UInt256
  setBlockIndexCandidates : List UInt256
  mapBlocksUnlinked : List (UInt256 × UInt256)
  nBlockSequenceId : ℤ
  nBlockReverseSequenceId : ℤ
  nLastPreciousChainwork : ℕ
  gFailedBlocks : List UInt256
  setDirtyBlockIndex : List UInt256
  pcoinsTip : CCoinsViewCache C
  snapshotActive : Bool
  blocktree : BlockTreeDB
  files : BlockFiles

/-- Work, then how late a block was received, then its address, compared in this order. -/
def SortKey : Type := ℕ ×ₗ ℤ ×ₗ ℤ

def SortKey.of (nChainWork : ℕ) (nSequenceId : ℤ) (addr : ℕ) : SortKey :=
  toLex (nChainWork, toLex (-nSequenceId, -(addr : ℤ)))

instance : LinearOrder SortKey :=
  @Prod.Lex.instLinearOrder ℕ (ℤ ×ₗ ℤ) Nat.instLinearOrder
    (@Prod.Lex.instLinearOrder ℤ ℤ Int.instLinearOrder Int.instLinearOrder)

theorem SortKey.of_le_of (le : s' ≤ s) : of n s addr ≤ of n s' addr := by
  refine Prod.Lex.toLex_le_toLex.2 (.inr ⟨rfl, Prod.Lex.toLex_le_toLex.2 ?_⟩)
  omega

namespace ChainState
variable {C : Type} (st : ChainState C)

/-- `CBlockIndexWorkComparator`: less work first, then later received, then higher address. -/
def blockIndexWorkComparator (a b : UInt256) : Bool :=
  if st.tree.nChainWork a > st.tree.nChainWork b then false
  else if st.tree.nChainWork a < st.tree.nChainWork b then true
  else if (st.data a).nSequenceId < (st.data b).nSequenceId then false
  else if (st.data a).nSequenceId > (st.data b).nSequenceId then true
  else if st.addr a < st.addr b then false
  else if st.addr a > st.addr b then true
  else false

def sortKey (b : UInt256) : SortKey :=
  .of (st.tree.nChainWork b) (st.data b).nSequenceId (st.addr b)

theorem sortKey_lt_iff : st.sortKey a < st.sortKey b ↔ st.tree.nChainWork a < st.tree.nChainWork b ∨
      st.tree.nChainWork a = st.tree.nChainWork b ∧
        ((st.data b).nSequenceId < (st.data a).nSequenceId ∨
          (st.data b).nSequenceId = (st.data a).nSequenceId ∧ st.addr b < st.addr a) := by
  change (toLex (st.tree.nChainWork a, toLex (-(st.data a).nSequenceId, -(st.addr a : ℤ))) :
    ℕ ×ₗ ℤ ×ₗ ℤ) < toLex (st.tree.nChainWork b, toLex (-(st.data b).nSequenceId, -(st.addr b : ℤ))) ↔ _
  simp only [Prod.Lex.toLex_lt_toLex]
  omega

theorem comparator_iff :
    st.blockIndexWorkComparator a b ↔ st.sortKey a < st.sortKey b := by
  rw [sortKey_lt_iff]
  unfold blockIndexWorkComparator
  grind

theorem comparator_eq_false :
    st.blockIndexWorkComparator a b = false ↔ st.sortKey b ≤ st.sortKey a := by
  rw [Bool.eq_false_iff, ne_eq, comparator_iff, not_lt]

theorem sortKey_injective : Function.Injective st.sortKey := by
  intro a b same
  have addresses : st.addr a = st.addr b := by
    have last := congrArg (fun key : ℕ ×ₗ ℤ ×ₗ ℤ => (ofLex (ofLex key).2).2) same
    simp only [sortKey, SortKey.of, ofLex_toLex] at last
    omega
  exact st.addr.injective addresses

theorem sortKey_lt_of_work (less : st.tree.nChainWork a < st.tree.nChainWork b) :
    st.sortKey a < st.sortKey b :=
  (sortKey_lt_iff st).2 (.inl less)

theorem work_le_of_sortKey_le (le : st.sortKey a ≤ st.sortKey b) :
    st.tree.nChainWork a ≤ st.tree.nChainWork b := by
  by_contra more
  exact absurd (st.sortKey_lt_of_work (Nat.lt_of_not_le more)) (not_lt.2 le)

theorem sortKey_lt_of_le (le : st.tree.Le a b) (ne : a ≠ b) : st.sortKey a < st.sortKey b :=
  st.sortKey_lt_of_work (HeaderTree.work_lt le ne)

theorem sortKey_le_of_le (le : st.tree.Le a b) : st.sortKey a ≤ st.sortKey b := by
  by_cases same : a = b
  · exact same ▸ le_refl _
  · exact (st.sortKey_lt_of_le le same).le

/-- `chainActive.Contains`. -/
def contains (b : UInt256) : Bool :=
  match st.chainActive with
  | none => false
  | some tip => st.tree.Le b tip

variable {st}

theorem contains_iff : st.contains b ↔ ∃ tip, st.chainActive = some tip ∧ st.tree.Le b tip := by
  unfold contains
  cases st.chainActive <;> simp

variable (st)

/-- `chainActive.FindFork`. -/
def findFork (pindex : UInt256) : Option UInt256 :=
  st.tree.nearest st.contains (st.tree.height pindex) pindex

variable {st}

theorem findFork_eq_some (found : st.findFork b = some f) :
    st.tree.Le f b ∧ st.contains f ∧ ∀ c, st.tree.Le f c → st.tree.Le c b → st.contains c → c = f :=
  ParentTree.nearest_eq_some found

variable (st)

def modify (b : UInt256) (f : BlockData → BlockData) : ChainState C :=
  { st with data := Function.update st.data b (f (st.data b)) }

/-- Change every index entry in `bs`. -/
def modifyAll (bs : List UInt256) (f : BlockData → BlockData) : ChainState C :=
  { st with data := fun b => if b ∈ bs then f (st.data b) else st.data b }

/-- `setDirtyBlockIndex.insert`. -/
def markDirty (b : UInt256) : ChainState C :=
  { st with setDirtyBlockIndex := st.setDirtyBlockIndex.insert b }

/-- `setBlockIndexCandidates.insert`. -/
def insertCandidate (b : UInt256) : ChainState C :=
  { st with setBlockIndexCandidates := st.setBlockIndexCandidates.insert b }

/-- `setBlockIndexCandidates.erase`. -/
def eraseCandidate (b : UInt256) : ChainState C :=
  { st with setBlockIndexCandidates := st.setBlockIndexCandidates.filter (· ≠ b) }

def last : Option UInt256 → UInt256 → UInt256
  | none, b => b
  | some m, b => if st.blockIndexWorkComparator m b then b else m

/-- The last element of `setBlockIndexCandidates`. -/
def bestCandidate : Option UInt256 :=
  st.setBlockIndexCandidates.foldl (fun best b => some (st.last best b)) none

variable {st}

private theorem foldl_last (blocks : List UInt256) (best : Option UInt256)
    (found : blocks.foldl (fun best b => some (st.last best b)) best = some m) :
    (best = some m ∨ m ∈ blocks) ∧ (∀ x, best = some x → st.sortKey x ≤ st.sortKey m) ∧
      ∀ x ∈ blocks, st.sortKey x ≤ st.sortKey m := by
  induction blocks generalizing best with
  | nil =>
    rw [foldl_nil] at found
    exact ⟨.inl found, fun x same => by rw [found] at same; cases same; exact le_rfl, by simp⟩
  | cons b blocks ih =>
    rw [foldl_cons] at found
    obtain ⟨from', least, above⟩ := ih _ found
    have next := least _ rfl
    cases best with
    | none =>
      refine ⟨.inr ?_, by simp, ?_⟩
      · rcases from' with same | mem
        · cases same
          exact mem_cons_self
        · exact mem_cons_of_mem b mem
      intro x mem
      rcases mem_cons.1 mem with rfl | later
      · exact next
      · exact above x later
    | some y =>
      by_cases order : st.blockIndexWorkComparator y b
      · have kept : st.last (some y) b = b := if_pos order
        rw [kept] at from' next
        have less := (comparator_iff st).1 order
        refine ⟨.inr ?_, ?_, ?_⟩
        · rcases from' with same | mem
          · cases same
            exact mem_cons_self
          · exact mem_cons_of_mem b mem
        · rintro x ⟨⟩
          exact less.le.trans next
        intro x mem
        rcases mem_cons.1 mem with rfl | later
        · exact next
        · exact above x later
      have kept : st.last (some y) b = y := if_neg order
      rw [kept] at from' next
      rw [comparator_iff, not_lt] at order
      refine ⟨from'.imp_right (mem_cons_of_mem b), ?_, ?_⟩
      · rintro x ⟨⟩
        exact next
      intro x mem
      rcases mem_cons.1 mem with rfl | later
      · exact order.trans next
      · exact above x later

theorem bestCandidate_mem (best : st.bestCandidate = some b) : b ∈ st.setBlockIndexCandidates :=
  (foldl_last _ none best).1.resolve_left (by simp)

theorem le_bestCandidate (best : st.bestCandidate = some b)
    (mem : a ∈ st.setBlockIndexCandidates) : st.sortKey a ≤ st.sortKey b :=
  (foldl_last _ none best).2.2 a mem

theorem bestCandidate_eq_none : st.bestCandidate = none ↔ st.setBlockIndexCandidates = [] := by
  have held : ∀ (blocks : List UInt256) (m : UInt256),
      blocks.foldl (fun best b => some (st.last best b)) (some m) ≠ none := by
    intro blocks
    induction blocks with
    | nil => simp
    | cons b blocks ih => exact fun m => ih _
  unfold bestCandidate
  cases st.setBlockIndexCandidates with
  | nil => simp
  | cons b blocks => simpa using held blocks _

end ChainState
end DogecoinCore
