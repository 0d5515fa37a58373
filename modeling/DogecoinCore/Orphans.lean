import DogecoinCore.Transaction
import Mathlib.Data.Finset.Basic
import Mathlib.Data.List.Sort

/-! Transactions whose inputs are missing (`net_processing.cpp`), and the index of them by the
outpoints they spend. -/
namespace DogecoinCore
open List

def MAX_STANDARD_TX_WEIGHT : UInt32 := 400000
def ORPHAN_TX_EXPIRE_TIME : ℤ := 20 * 60
def ORPHAN_TX_EXPIRE_INTERVAL : ℤ := 5 * 60

structure COrphanTx where
  tx : CTransaction
  fromPeer : ℤ
  nTimeExpire : ℤ

def COrphanTx.prevouts (x : COrphanTx) : List COutPoint := x.tx.vin.map (·.prevout)

abbrev ByPrev := COutPoint → Option (Finset UInt256)

structure OrphanPool where
  /-- `mapOrphanTransactions`; a key is the hash of its transaction. -/
  orphans : List COrphanTx
  /-- `mapOrphanTransactionsByPrev`. -/
  byPrev : ByPrev
  nNextSweep : ℤ

namespace OrphanPool
/-- `mapOrphanTransactionsByPrev[prevout].insert`. -/
def link (hash : UInt256) (m : ByPrev) (prevout : COutPoint) : ByPrev :=
  Function.update m prevout (some (insert hash ((m prevout).getD ∅)))

/-- What `EraseOrphanTx` does for one input: a set that gets empty is erased. -/
def unlink (hash : UInt256) (m : ByPrev) (prevout : COutPoint) : ByPrev :=
  Function.update m prevout (((m prevout).map (·.erase hash)).filter (· ≠ ∅))

variable (le : UInt256 → UInt256 → Bool) (p : OrphanPool)

/-- `AddOrphanTx`, where `sz` is the weight of the transaction and `le` is the order of hashes. -/
def addOrphanTx (tx : CTransaction) (sz : UInt32) (peer nNow : ℤ) : Bool × OrphanPool :=
  if p.orphans.any (·.tx.hash = tx.hash) then (false, p)
  else if sz ≥ MAX_STANDARD_TX_WEIGHT then (false, p)
  else
    let new : COrphanTx := ⟨tx, peer, nNow + ORPHAN_TX_EXPIRE_TIME⟩
    (true, { p with
      orphans := p.orphans.orderedInsert (fun a b => le a.tx.hash b.tx.hash) new
      byPrev := new.prevouts.foldl (link tx.hash) p.byPrev })

def eraseOrphanTx (hash : UInt256) : ℕ × OrphanPool :=
  match p.orphans.find? (·.tx.hash = hash) with
  | none => (0, p)
  | some it => (1, { p with
      orphans := p.orphans.filter (·.tx.hash ≠ hash)
      byPrev := it.prevouts.foldl (unlink hash) p.byPrev })

def eraseIf (q : COrphanTx → Bool) : OrphanPool :=
  p.orphans.foldl (fun p x => if q x then (p.eraseOrphanTx x.tx.hash).2 else p) p

def eraseOrphansFor (peer : ℤ) : OrphanPool := p.eraseIf (·.fromPeer = peer)

/-- The loop of `LimitOrphanTxSize`, which erases the orphan at or after a random hash, or the
first one. -/
def evict (nMaxOrphans : ℕ) (random : ℕ → UInt256) :
    (turns nEvicted : ℕ) → OrphanPool → ℕ × OrphanPool
  | 0, nEvicted, p => (nEvicted, p)
  | turns + 1, nEvicted, p =>
    if p.orphans.length > nMaxOrphans then
      match (p.orphans.find? fun x => le (random nEvicted) x.tx.hash).or p.orphans.head? with
      | none => (nEvicted, p)
      | some it => evict nMaxOrphans random turns (nEvicted + 1) (p.eraseOrphanTx it.tx.hash).2
    else (nEvicted, p)

/-- `LimitOrphanTxSize`, at the time `nNow`. -/
def limitOrphanTxSize (nMaxOrphans : ℕ) (nNow : ℤ) (random : ℕ → UInt256) : ℕ × OrphanPool :=
  let p :=
    if p.nNextSweep ≤ nNow then
      let left := p.orphans.filter (nNow < ·.nTimeExpire)
      { p.eraseIf (·.nTimeExpire ≤ nNow) with
        nNextSweep := (left.map (·.nTimeExpire)).foldl min
          (nNow + ORPHAN_TX_EXPIRE_TIME - ORPHAN_TX_EXPIRE_INTERVAL) + ORPHAN_TX_EXPIRE_INTERVAL }
    else p
  evict le nMaxOrphans random p.orphans.length 0 p

inductive Op
  | add (tx : CTransaction) (sz : UInt32) (peer nNow : ℤ)
  | erase (hash : UInt256)
  | eraseFor (peer : ℤ)
  | limit (nMaxOrphans : ℕ) (nNow : ℤ) (random : ℕ → UInt256)

def apply : Op → OrphanPool
  | .add tx sz peer nNow => (p.addOrphanTx le tx sz peer nNow).2
  | .erase hash => (p.eraseOrphanTx hash).2
  | .eraseFor peer => p.eraseOrphansFor peer
  | .limit nMaxOrphans nNow random => (p.limitOrphanTxSize le nMaxOrphans nNow random).2

structure Exact (p : OrphanPool) : Prop where
  unique : (p.orphans.map (·.tx.hash)).Nodup
  mem : ∀ o h, h ∈ (p.byPrev o).getD ∅ ↔ ∃ x ∈ p.orphans, x.tx.hash = h ∧ o ∈ x.prevouts
  filled : ∀ o, p.byPrev o ≠ some ∅

variable {le p} {hash : UInt256}

/-- `m'` is `m`, where `hash` is in the sets of `ins` if `now` holds and else is not. -/
def Placed (hash : UInt256) (now : Prop) (ins : List COutPoint) (m m' : ByPrev) : Prop :=
  ∀ o, m' o ≠ some ∅ ∧ ∀ h, h ∈ (m' o).getD ∅ ↔
    (h ∈ (m o).getD ∅ ∧ ¬ (h = hash ∧ o ∈ ins)) ∨ h = hash ∧ o ∈ ins ∧ now

theorem Placed.foldl (step : ∀ {m i}, (∀ o, m o ≠ some ∅) → Placed hash now [i] m (f m i))
    (filled : ∀ o, m o ≠ some ∅) (ins : List COutPoint) :
    Placed hash now ins m (ins.foldl f m) := by
  intro o
  induction ins generalizing m with
  | nil => simp [filled]
  | cons i ins ih =>
    obtain ⟨filled', mem⟩ := ih fun o => (step filled o).1
    refine ⟨filled', fun _ => ?_⟩
    rw [foldl_cons, mem, (step filled o).2, mem_singleton, mem_cons]
    tauto

theorem placed_link (filled : ∀ o, m o ≠ some ∅) : Placed hash True [i] m (link hash m i) := by
  intro o
  by_cases same : o = i
  · subst same
    simp [link]
    tauto
  · simp [link, same, filled]

theorem placed_unlink (filled : ∀ o, m o ≠ some ∅) : Placed hash False [i] m (unlink hash m i) := by
  intro o
  by_cases same : o = i
  · subst same
    cases here : m o with
    | none => simp [unlink, here]
    | some itPrev => by_cases last : itPrev.erase hash = ∅ <;> simp [unlink, here, last] <;> grind
  · simp [unlink, same, filled]

theorem Exact.addOrphanTx (inv : p.Exact) : (p.addOrphanTx le tx sz peer nNow).2.Exact := by
  unfold OrphanPool.addOrphanTx
  split
  · exact inv
  rename_i fresh
  split
  · exact inv
  have index := Placed.foldl (@placed_link tx.hash) inv.filled
  refine ⟨?_, fun o _ => ?_, fun o => (index _ o).1⟩
  · rw [((perm_orderedInsert ..).map _).nodup_iff, map_cons, nodup_cons]
    exact ⟨by simpa using fresh, inv.unique⟩
  · simp only [(index _ o).2, inv.mem, mem_orderedInsert]
    grind

theorem Exact.eraseOrphanTx (inv : p.Exact) : (p.eraseOrphanTx hash).2.Exact := by
  unfold OrphanPool.eraseOrphanTx
  split
  · exact inv
  rename_i it found
  have only : ∀ x ∈ p.orphans, x.tx.hash = hash → x = it := by
    intro x mem same
    have key : it.tx.hash = hash := by simpa using find?_some found
    exact inj_on_of_nodup_map inv.unique mem (mem_of_find?_eq_some found) (same.trans key.symm)
  have index := Placed.foldl (@placed_unlink hash) inv.filled it.prevouts
  refine ⟨inv.unique.sublist (filter_sublist.map _), fun o _ => ?_, fun o => (index o).1⟩
  simp only [(index o).2, inv.mem, mem_filter]
  grind

theorem orphans_eraseOrphanTx :
    (p.eraseOrphanTx hash).2.orphans = p.orphans.filter (·.tx.hash ≠ hash) := by
  unfold OrphanPool.eraseOrphanTx
  split
  case h_1 absent => exact (filter_eq_self.2 (by simpa using absent)).symm
  case h_2 => rfl

theorem Exact.eraseIf (inv : p.Exact) : (p.eraseIf q).Exact := by
  unfold OrphanPool.eraseIf
  generalize p.orphans = all
  induction all generalizing p with
  | nil => exact inv
  | cons _ _ ih =>
    refine ih ?_
    dsimp only
    split
    · exact inv.eraseOrphanTx
    · exact inv

private theorem Exact.evict (inv : p.Exact) (enough : p.orphans.length ≤ nMaxOrphans + turns) :
    (evict le nMaxOrphans random turns nEvicted p).2.Exact ∧
      (evict le nMaxOrphans random turns nEvicted p).2.orphans.length ≤ nMaxOrphans := by
  induction turns generalizing p nEvicted with
  | zero => exact ⟨inv, enough⟩
  | succ turns ih =>
    rw [OrphanPool.evict]
    split
    case isFalse few => exact ⟨inv, not_lt.1 few⟩
    case isTrue many =>
      split
      case h_1 none' =>
        rw [Option.or_eq_none_iff, head?_eq_none_iff] at none'
        simp [none'.2] at many
      case h_2 it found =>
        refine ih inv.eraseOrphanTx ?_
        have mem : it ∈ p.orphans := by
          rcases Option.or_eq_some_iff.1 found with found | ⟨-, found⟩
          · exact mem_of_find?_eq_some found
          · exact mem_of_mem_head? found
        have fewer := length_filter_lt_length_iff_exists
          (p := (·.tx.hash ≠ it.tx.hash)) |>.mpr ⟨it, mem, by simp⟩
        rw [orphans_eraseOrphanTx]
        omega

theorem Exact.limitOrphanTxSize (inv : p.Exact) :
    (p.limitOrphanTxSize le nMaxOrphans nNow random).2.Exact ∧
      (p.limitOrphanTxSize le nMaxOrphans nNow random).2.orphans.length ≤ nMaxOrphans := by
  refine Exact.evict ?_ (Nat.le_add_left ..)
  split
  · obtain ⟨unique, mem, filled⟩ := inv.eraseIf
    exact ⟨unique, mem, filled⟩
  · exact inv

/-- After any calls an outpoint has precisely the orphans that spend it, no set is empty, and
`LimitOrphanTxSize` leaves no more orphans than it is told to. -/
theorem orphans_indexed (le : UInt256 → UInt256 → Bool) (ops : List Op) :
    let p := ops.foldl (apply le) ⟨[], fun _ => none, 0⟩
    p.Exact ∧ ∀ nMaxOrphans nNow random,
      (p.limitOrphanTxSize le nMaxOrphans nNow random).2.orphans.length ≤ nMaxOrphans := by
  have start : Exact ⟨[], fun _ => none, 0⟩ := ⟨nodup_nil, by simp, by simp⟩
  have run (p : OrphanPool) (inv : p.Exact) : (ops.foldl (apply le) p).Exact := by
    induction ops generalizing p with
    | nil => exact inv
    | cons op ops ih =>
      refine ih _ ?_
      cases op with
      | add => exact inv.addOrphanTx
      | erase => exact inv.eraseOrphanTx
      | eraseFor => exact inv.eraseIf
      | limit => exact inv.limitOrphanTxSize.1
  exact ⟨run _ start, fun _ _ _ => (run _ start).limitOrphanTxSize.2⟩

end OrphanPool
end DogecoinCore
