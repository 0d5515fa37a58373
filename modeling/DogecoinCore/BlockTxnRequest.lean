import DogecoinCore.BlockIndex
import DogecoinCore.Serialize
import Mathlib.Data.List.Perm.Subperm

/-! `BlockTransactionsRequest`, the message `getblocktxn`: positions in a block, written as
differences. The reader adds the differences up in 16 bits, and the offset it adds is one more
than the last index. -/
namespace DogecoinCore
open List UInt16 Option Nat

structure BlockTransactionsRequest where
  blockhash : UInt256
  indexes : List UInt16
  deriving DecidableEq, Repr

namespace BlockTransactionsRequest
/-- The written differences; `next` is one more than the index before. The difference of two `int`
values becomes an `uint64_t`. -/
def writeIndexes : (next : ℤ) → List UInt16 → List UInt8
  | _, [] => []
  | next, index :: rest =>
    writeCompactSize ((index.toNat - next) % 2 ^ 64).toNat ++ writeIndexes (index.toNat + 1) rest

/-- `SerializationOp` for writing. -/
def write (req : BlockTransactionsRequest) : List UInt8 :=
  littleEndian 32 req.blockhash.toNat ++ (writeCompactSize req.indexes.length ++
    writeIndexes 0 req.indexes)

def readDifference : Reader UInt16 := do
  let index ← readCompactSize
  if index > 0xffff then failure else pure (ofNat index)

/-- The first half of `SerializationOp` for reading: `indexes` still holds the differences. -/
def readDifferences : Reader (UInt256 × List UInt16) := do
  let blockhash ← readLittleEndian 32
  let indexes_size ← readCompactSize
  let indexes ← readDifference.times indexes_size
  pure (BitVec.ofNat 256 blockhash, indexes)

/-- The loop that adds the differences up; `none` is the exception. -/
def addUp : (offset : UInt16) → List UInt16 → Option (List UInt16)
  | _, [] => some []
  | offset, d :: rest =>
    if d.toNat + offset.toNat > 0xffff then none
    else
      let index := d + offset
      (addUp (index + 1) rest).map (index :: ·)

theorem addUp_cons : addUp offset (d :: rest) =
      if d.toNat + offset.toNat > 0xffff then none
      else (addUp (d + offset + 1) rest).map ((d + offset) :: ·) := rfl

variable {offset d : UInt16} {rest indexes : List UInt16} {next : ℕ}
  {req : BlockTransactionsRequest}

theorem addUp_cons_eq_some :
    addUp offset (d :: rest) = some indexes ↔ d.toNat + offset.toNat ≤ 0xffff ∧
      ∃ tail, addUp (d + offset + 1) rest = some tail ∧ indexes = (d + offset) :: tail := by
  rw [addUp_cons]
  split
  · next high => simp [not_le.2 high]
  · next low => simp [not_lt.1 low, eq_comm]

/-- `SerializationOp` for reading, into an object without indexes. -/
def read : Reader BlockTransactionsRequest := do
  let (blockhash, differences) ← readDifferences
  match addUp 0 differences with
  | none => failure
  | some indexes => pure ⟨blockhash, indexes⟩

/-- Some of the differences, but not all, lead up to the last index there is. -/
def FullBefore (next : ℕ) (differences : List UInt16) : Prop :=
  ∃ used left, differences = used ++ left ∧ used ≠ [] ∧ left ≠ [] ∧
    next + (used.map fun d => d.toNat + 1).sum = 65536

theorem fullBefore_cons : FullBefore next (d :: rest) ↔
      (rest ≠ [] ∧ next + d.toNat + 1 = 65536) ∨ FullBefore (next + d.toNat + 1) rest := by
  constructor
  · rintro ⟨used, left, split, nonempty, more, full⟩
    obtain ⟨_, used, rfl⟩ := exists_cons_of_ne_nil nonempty
    obtain ⟨rfl, rfl⟩ := cons.inj split
    rw [map_cons, sum_cons] at full
    cases used with
    | nil => exact .inl ⟨more, by simpa [add_assoc] using full⟩
    | cons u used => exact .inr ⟨u :: used, left, rfl, by simp, more, by omega⟩
  rintro (⟨more, full⟩ | ⟨used, left, rfl, -, more, full⟩)
  · exact ⟨[d], rest, rfl, by simp, more, by simpa [add_assoc] using full⟩
  refine ⟨d :: used, left, rfl, by simp, more, ?_⟩
  rw [map_cons, sum_cons]
  omega

private theorem addUp_increasing_iff (added : addUp offset differences = some indexes) :
    (indexes.Pairwise (· < ·) ∧ ∀ i ∈ indexes, offset.toNat ≤ i.toNat) ↔
      ¬ FullBefore offset.toNat differences := by
  induction differences generalizing offset indexes with
  | nil =>
    obtain rfl := some.inj added
    have none : ¬ FullBefore offset.toNat [] := by
      rintro ⟨used, left, split, nonempty, -⟩
      exact nonempty (append_eq_nil_iff.1 split.symm).1
    simp [none]
  | cons d rest ih =>
    obtain ⟨_, _, tail_added, rfl⟩ := addUp_cons_eq_some.1 added
    have value : (d + offset).toNat = offset.toNat + d.toNat := by
      rw [UInt16.toNat_add]
      omega
    rw [fullBefore_cons, pairwise_cons]
    by_cases last : offset.toNat + d.toNat = 65535
    · -- The next offset is 0, so nothing can follow.
      have wrapped : FullBefore (offset.toNat + d.toNat + 1) rest → False := by
        rintro ⟨used, left, -, nonempty, -, full⟩
        obtain ⟨_, used, rfl⟩ := exists_cons_of_ne_nil nonempty
        rw [map_cons, sum_cons] at full
        omega
      cases rest with
      | nil =>
        obtain rfl := some.inj tail_added
        simpa [value] using wrapped
      | cons d' rest =>
        refine ⟨fun grows => ?_, fun never => absurd (.inl ⟨by simp, by omega⟩) never⟩
        obtain ⟨-, _, -, rfl⟩ := addUp_cons_eq_some.1 tail_added
        have above := lt_iff_toNat_lt.1 (grows.1.1 _ mem_cons_self)
        have bound := toNat_lt (d' + (d + offset + 1))
        omega
    have next : (d + offset + 1).toNat = offset.toNat + d.toNat + 1 := by
      rw [UInt16.toNat_add, value, show (1 : UInt16).toNat = 1 from rfl]
      omega
    have rest_iff := ih tail_added
    rw [next] at rest_iff
    rw [show (rest ≠ [] ∧ offset.toNat + d.toNat + 1 = 65536) ↔ False by simp; omega,
      false_or, ← rest_iff]
    constructor
    · rintro ⟨⟨first, grows⟩, -⟩
      refine ⟨grows, fun i mem => ?_⟩
      have above := lt_iff_toNat_lt.1 (first i mem)
      omega
    rintro ⟨grows, above⟩
    refine ⟨⟨fun i mem => ?_, grows⟩, fun i mem => ?_⟩
    · have least := above i mem
      rw [lt_iff_toNat_lt]
      omega
    rcases mem_cons.1 mem with rfl | later
    · omega
    · have least := above i later
      omega

def differencesFrom : (next : ℕ) → List UInt16 → List UInt16
  | _, [] => []
  | next, index :: rest => ofNat (index.toNat - next) :: differencesFrom (index.toNat + 1) rest

theorem reads_difference (fits : n ≤ 0xffff) :
    Reader.Reads readDifference (writeCompactSize n) (ofNat n) := by
  have small : n ≤ MAX_SIZE := fits.trans (by decide)
  exact (reads_compactSize small).bind_pure _ (if_neg (not_lt.2 fits))

private theorem reads_indexes (grows : indexes.Pairwise (· < ·)) (above : ∀ i ∈ indexes, next ≤ i.toNat) :
    Reader.Reads (readDifference.times indexes.length) (writeIndexes next indexes)
      (differencesFrom next indexes) := by
  induction indexes generalizing next with
  | nil => exact .pure []
  | cons index _ ih =>
    obtain ⟨first, grows⟩ := pairwise_cons.1 grows
    have least := above index mem_cons_self
    have bound := toNat_lt index
    have difference : (((index.toNat : ℤ) - next) % 2 ^ 64).toNat = index.toNat - next := by omega
    rw [writeIndexes, difference, length_cons]
    refine Reader.Reads.bind (reads_difference (by omega)) (Reader.Reads.bind_pure ?_ _ rfl)
    refine ih grows fun i mem => ?_
    exact lt_iff_toNat_lt.1 (first i mem)

theorem addUp_differences (offset : UInt16)
    (grows : indexes.Pairwise (· < ·)) (above : ∀ i ∈ indexes, offset.toNat ≤ i.toNat) :
    addUp offset (differencesFrom offset.toNat indexes) = some indexes := by
  induction indexes generalizing offset with
  | nil => rfl
  | cons index rest ih =>
    obtain ⟨first, grows⟩ := pairwise_cons.1 grows
    have least := above index mem_cons_self
    have bound := toNat_lt index
    have difference : (ofNat (index.toNat - offset.toNat)).toNat = index.toNat - offset.toNat := by
      rw [toNat_ofNat']
      omega
    have sum : ofNat (index.toNat - offset.toNat) + offset = index := by
      rw [← UInt16.toNat_inj, UInt16.toNat_add, difference]
      omega
    rw [differencesFrom, addUp_cons, if_neg (by rw [difference]; omega), sum]
    cases rest with
    | nil => rfl
    | cons second rest =>
      -- Something follows, so the index is not the last one and the offset does not wrap.
      have more := lt_iff_toNat_lt.1 (first second mem_cons_self)
      have bound' := toNat_lt second
      have next : (index + 1).toNat = index.toNat + 1 := by
        rw [UInt16.toNat_add, show (1 : UInt16).toNat = 1 from rfl]
        omega
      rw [← next, ih (index + 1) grows fun i mem => ?_, map_some]
      rw [next]
      exact lt_iff_toNat_lt.1 (first i mem)

private theorem length_le_of_increasing (grows : indexes.Pairwise (· < ·)) : indexes.length ≤ 65536 := by
  have nodup : (indexes.map toNat).Nodup := by
    rw [List.Nodup, pairwise_map]
    exact grows.imp fun less => Nat.ne_of_lt (lt_iff_toNat_lt.1 less)
  have inside : indexes.map toNat ⊆ range 65536 := by
    intro _ mem
    obtain ⟨i, -, rfl⟩ := mem_map.1 mem
    exact mem_range.2 (toNat_lt i)
  simpa using (nodup.subperm inside).length_le

private theorem reads_differences (grows : req.indexes.Pairwise (· < ·)) :
    Reader.Reads readDifferences req.write (req.blockhash, differencesFrom 0 req.indexes) := by
  have fits := lt_of_lt_of_eq req.blockhash.isLt (pow_mul 2 8 32)
  have short : req.indexes.length ≤ MAX_SIZE := (length_le_of_increasing grows).trans (by decide)
  refine (reads_littleEndian 32 _ fits).bind ((reads_compactSize short).bind ?_)
  refine (reads_indexes grows (fun _ _ => zero_le _)).bind_pure _ ?_
  rw [BitVec.ofNat_toNat, BitVec.setWidth_eq]

theorem reads_request (grows : req.indexes.Pairwise (· < ·)) : Reader.Reads read req.write req := by
  refine (reads_differences grows).bind_pure req ?_
  have added := addUp_differences 0 grows fun _ _ => zero_le _
  dsimp only
  rw [show (0 : UInt16).toNat = 0 from rfl] at added
  rw [added]

/-- A stream gives growing indexes exactly when its differences do not reach the last index before
they end, and every growing list comes back from what is written of it. -/
theorem indexes_increasing_iff (bytes rest : List UInt8) : (∀ blockhash differences req,
      readDifferences bytes = some ((blockhash, differences), rest) →
      read bytes = some (req, rest) → (req.indexes.Pairwise (· < ·) ↔ ¬ FullBefore 0 differences)) ∧
    ∀ req : BlockTransactionsRequest, req.indexes.Pairwise (· < ·) →
      read (req.write ++ rest) = some (req, rest) := by
  refine ⟨fun blockhash differences req got parsed => ?_, fun req grows => reads_request grows rest⟩
  obtain ⟨⟨_, _⟩, _, got', finished⟩ := Reader.bind_eq_some.1 parsed
  rw [got] at got'
  obtain ⟨⟨rfl, rfl⟩, rfl⟩ := Prod.mk.inj (some.inj got') |>.imp Prod.mk.inj id
  dsimp only at finished
  cases added : addUp 0 differences with
  | none =>
    rw [added] at finished
    cases finished
  | some indexes =>
    rw [added] at finished
    obtain rfl := (Prod.mk.inj (some.inj finished)).1
    have grows := addUp_increasing_iff added
    rw [show (0 : UInt16).toNat = 0 from rfl] at grows
    rw [← grows]
    exact ⟨fun grows => ⟨grows, fun _ _ => zero_le _⟩, And.left⟩

def wrappedRequest : List UInt8 :=
  littleEndian 32 7 ++ (writeCompactSize 2 ++ (writeCompactSize 65535 ++ writeCompactSize 0))

/-- The reader accepts a list that goes back to 0 after the last index. -/
theorem wrappedRequest_not_increasing : read wrappedRequest = some (⟨7, [65535, 0]⟩, []) ∧
      ¬ ([65535, 0] : List UInt16).Pairwise (· < ·) := by
  decide

/-- The indexes 3 and 65535: the differences 3 and 65531 fill the range only at their end. -/
theorem indexes_increasing_pair :
    readDifferences (write ⟨7, [3, 65535]⟩ ++ []) = some ((7, [3, 65531]), []) ∧
      read (write ⟨7, [3, 65535]⟩ ++ []) = some (⟨7, [3, 65535]⟩, []) ∧
      ¬ FullBefore 0 [3, 65531] := by
  have parsed := (indexes_increasing_iff [] []).2 ⟨7, [3, 65535]⟩ (by decide)
  have got : readDifferences (write ⟨7, [3, 65535]⟩ ++ []) = some ((7, [3, 65531]), []) := by decide
  exact ⟨got, parsed, ((indexes_increasing_iff _ _).1 _ _ _ got parsed).1 (by decide)⟩

end BlockTransactionsRequest
end DogecoinCore
