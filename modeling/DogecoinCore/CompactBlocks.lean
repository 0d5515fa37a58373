import DogecoinCore.Control
import DogecoinCore.Transaction
import Mathlib.Data.Nat.Nth

/-! Compact block reconstruction. `PartiallyDownloadedBlock::InitData` lays out the
prefilled transactions of a peer's message, gives every short id the next free
position and looks the ids up in the mempool. Vector accesses are checked here and
the 16-bit counters wrap as they do in the source, so a message that breaks the
routine shows up as an abort, a run that never ends or a wrong position. -/
namespace DogecoinCore
open List Nat UInt16 Option

/-- The failures of `ReadStatus` that `InitData` returns. -/
inductive ReadStatus where
  | invalid | failed
  deriving DecidableEq, Repr

abbrev ShortId := BitVec 48

structure PrefilledTransaction where
  index : UInt16
  tx : CTransaction
  deriving DecidableEq, Repr

/-- `getShortID` is the hash keyed by the header and the nonce. -/
structure CBlockHeaderAndShortTxIDs where
  headerIsNull : Bool
  shorttxids : List ShortId
  prefilledtxn : List PrefilledTransaction
  getShortID : UInt256 → ShortId

namespace CBlockHeaderAndShortTxIDs
def blockTxCount (cmpct : CBlockHeaderAndShortTxIDs) : ℕ :=
  cmpct.shorttxids.length + cmpct.prefilledtxn.length

/-- Length of the message for a header without merged mining proof. -/
def getSerializeSize (cmpct : CBlockHeaderAndShortTxIDs) : ℕ :=
  80 + 8 + getSizeOfCompactSize cmpct.shorttxids.length + 6 * cmpct.shorttxids.length
    + getSizeOfCompactSize cmpct.prefilledtxn.length
    + (cmpct.prefilledtxn.map fun p =>
        getSizeOfCompactSize p.index.toNat + p.tx.getSerializeSize).sum

end CBlockHeaderAndShortTxIDs

/-- `MAX_BLOCK_BASE_SIZE / MIN_TRANSACTION_BASE_SIZE`. -/
def maxCompactTransactions : ℕ := 1000000 / 10

abbrev TxnAvailable := List (Option CTransaction)

/-- The loop over `prefilledtxn` from entry `i` on, `last` being `lastprefilledindex`. -/
def placePrefilled (shortIds : ℕ) :
    List PrefilledTransaction → (i : ℕ) → (last : ℤ) → TxnAvailable →
      Outcome ReadStatus TxnAvailable
  | [], _, _, avail => .ok avail
  | p :: rest, i, last, avail =>
    if p.tx.isNull then .fail .invalid
    else
      let last := last + (p.index.toNat + 1)
      if last > 65535 then .fail .invalid
      else if last.toNat > shortIds + i then .fail .invalid
      else if last.toNat < avail.length then
        placePrefilled shortIds rest (i + 1) last (avail.set last.toNat (some p.tx))
      else .abort

/-- The checks of `InitData` on the sizes of the message. -/
def checkSizes (cmpct : CBlockHeaderAndShortTxIDs) : Bool :=
  !(cmpct.headerIsNull || (cmpct.shorttxids.isEmpty && cmpct.prefilledtxn.isEmpty))
    && cmpct.blockTxCount ≤ maxCompactTransactions

/-- `txn_available` after the loop over the prefilled transactions. -/
def prefill (cmpct : CBlockHeaderAndShortTxIDs) : Outcome ReadStatus TxnAvailable :=
  placePrefilled cmpct.shorttxids.length cmpct.prefilledtxn 0 (-1)
    (replicate cmpct.blockTxCount none)

/-- The local `unordered_map` from short ids to positions, as the assignments made to it, latest
first. -/
abbrev ShortIdMap := List (ShortId × UInt16)

def ShortIdMap.size (m : ShortIdMap) : ℕ := (m.map Prod.fst).dedup.length

/-- One test of `while (txn_available[i + index_offset])`; the offset is a `uint16_t`. The loop is
left with `none` by an access behind the end of the vector. -/
def skipTaken (avail : TxnAvailable) (i : ℕ) (index_offset : UInt16) :
    Turn UInt16 (Option UInt16) :=
  match avail[i + index_offset.toNat]? with
  | none => .leave none
  | some none => .leave (some index_offset)
  | some (some _) => .again (index_offset + 1)

/-- The loop over `shorttxids` from entry `i` on. It ends with the map, with the map as it stands
when a bucket is too full, or never. -/
def mapShortIds (bucketSize : ShortIdMap → ShortId → ℕ) (fuel : ℕ) (avail : TxnAvailable) :
    List ShortId → (i : ℕ) → (index_offset : UInt16) → ShortIdMap →
      Option (Outcome ShortIdMap ShortIdMap)
  | [], _, _, m => some (.ok m)
  | id :: rest, i, index_offset, m =>
    match iterate (skipTaken avail i) fuel index_offset with
    | none => none
    | some none => some .abort
    | some (some index_offset) =>
      -- the mapped type is uint16_t, so the sum is cut to 16 bits
      let m := (id, ofNat (i + index_offset.toNat)) :: m
      if 12 < bucketSize m id then some (.fail m)
      else mapShortIds bucketSize fuel avail rest (i + 1) index_offset m

/-- The fields of `PartiallyDownloadedBlock` that `InitData` fills. -/
structure PartiallyDownloadedBlock where
  txn_available : TxnAvailable
  prefilled_count : ℕ
  mempool_count : UInt64 := 0
  extra_count : UInt64 := 0

/-- The state of the two scans for transactions that match a short id. -/
structure TxScan extends PartiallyDownloadedBlock where
  have_txn : List Bool

namespace TxScan
/-- One transaction of a scan. A first match is taken; a second one that conflicts with it frees
the position again. `extra` is what the match adds to `extra_count`. -/
def visit (m : ShortIdMap) (getShortID : UInt256 → ShortId)
    (conflicts : CTransaction → CTransaction → Bool) (extra : UInt64)
    (s : TxScan) (found : UInt256 × CTransaction) : Outcome ReadStatus TxScan :=
  match m.lookup (getShortID found.1) with
  | none => .ok s
  | some pos =>
    match s.have_txn[pos.toNat]?, s.txn_available[pos.toNat]? with
    | some false, some _ =>
      .ok { s with
        txn_available := s.txn_available.set pos.toNat (some found.2)
        have_txn := s.have_txn.set pos.toNat true
        mempool_count := s.mempool_count + 1
        extra_count := s.extra_count + extra }
    | some true, some (some held) =>
      if conflicts held found.2 then
        .ok { s with
          txn_available := s.txn_available.set pos.toNat none
          mempool_count := s.mempool_count - 1
          extra_count := s.extra_count - extra }
      else .ok s
    | some true, some none => .ok s
    | _, _ => .abort

def scan (m : ShortIdMap) (getShortID : UInt256 → ShortId)
    (conflicts : CTransaction → CTransaction → Bool) (extra : UInt64) :
    List (UInt256 × CTransaction) → TxScan → Outcome ReadStatus TxScan
  | [], s => .ok s
  | found :: rest, s => do
    let s ← visit m getShortID conflicts extra s found
    if s.mempool_count.toNat = m.size then .ok s
    else scan m getShortID conflicts extra rest s

/-- The loop over `pool->vTxHashes`: any second match frees the position. -/
def scanMempool (m : ShortIdMap) (getShortID : UInt256 → ShortId) :
    List (UInt256 × CTransaction) → TxScan → Outcome ReadStatus TxScan :=
  scan m getShortID (fun _ _ => true) 0

/-- The loop over `extra_txn`: a second match of another witness hash frees the position. -/
def scanExtra (m : ShortIdMap) (getShortID : UInt256 → ShortId) :
    List (UInt256 × CTransaction) → TxScan → Outcome ReadStatus TxScan :=
  scan m getShortID (fun held found => held.witnessHash != found.witnessHash) 1

end TxScan

/-- What `InitData` reads besides the message. -/
structure InitContext where
  /-- Neither the header nor `txn_available` of the object was set before. -/
  unused : Bool
  vTxHashes : List (UInt256 × CTransaction)
  extra_txn : List (UInt256 × CTransaction)
  /-- `bucket_size(bucket(id))` of the map; which ids share a bucket is the library's choice. -/
  bucketSize : ShortIdMap → ShortId → ℕ

/-- `InitData` after the prefilled transactions were laid out. -/
def matchShortIds (ctx : InitContext) (fuel : ℕ) (cmpct : CBlockHeaderAndShortTxIDs)
    (avail : TxnAvailable) : Option (Outcome ReadStatus PartiallyDownloadedBlock) :=
  match mapShortIds ctx.bucketSize fuel avail cmpct.shorttxids 0 0 [] with
  | none => none
  | some .abort => some .abort
  | some (.fail _) => some (.fail .failed)
  | some (.ok m) =>
    if m.size ≠ cmpct.shorttxids.length then some (.fail .failed)
    else some do
      let s : TxScan :=
        { txn_available := avail
          prefilled_count := cmpct.prefilledtxn.length
          have_txn := replicate avail.length false }
      let s ← s.scanMempool m cmpct.getShortID ctx.vTxHashes
      let s ← s.scanExtra m cmpct.getShortID ctx.extra_txn
      .ok s.toPartiallyDownloadedBlock

/-- `none` when the fuel does not suffice. -/
def initData (ctx : InitContext) (fuel : ℕ) (cmpct : CBlockHeaderAndShortTxIDs) :
    Option (Outcome ReadStatus PartiallyDownloadedBlock) :=
  if !checkSizes cmpct then some (.fail .invalid)
  else if !ctx.unused then some (.fail .failed)
  else
    match prefill cmpct with
    | .abort => some .abort
    | .fail status => some (.fail status)
    | .ok avail => matchShortIds ctx fuel cmpct avail

/-! ### The layout of the prefilled transactions -/

/-- No transaction is at position `j` yet. -/
def Free (avail : TxnAvailable) (j : ℕ) : Prop := avail[j]? = some none

instance (avail : TxnAvailable) : DecidablePred (Free avail) :=
  fun j => inferInstanceAs (Decidable (avail[j]? = some none))

variable {avail : TxnAvailable} {tx : CTransaction} {n shortIds i next filled fuel more : ℕ}
  {bucketSize : ShortIdMap → ShortId → ℕ} {ids : List ShortId} {m : ShortIdMap}
  {ctx : InitContext} {cmpct : CBlockHeaderAndShortTxIDs}

theorem free_set (within : j < avail.length) :
    Free (avail.set j (some tx)) k ↔ k ≠ j ∧ Free avail k := by
  unfold Free
  by_cases same : j = k
  · subst same
    simp [getElem?_set_self within]
  · rw [getElem?_set_ne same]
    tauto

/-- The prefilled entries from `i` on pass the checks `InitData` makes of them. -/
def WellPlaced (shortIds : ℕ) : List PrefilledTransaction → (i : ℕ) → (last : ℤ) → Prop
  | [], _, _ => True
  | p :: rest, i, last =>
    p.tx.isNull = false ∧ last + (p.index.toNat + 1) ≤ 65535 ∧
      last + (p.index.toNat + 1) ≤ shortIds + i ∧
      WellPlaced shortIds rest (i + 1) (last + (p.index.toNat + 1))

structure Admitted (cmpct : CBlockHeaderAndShortTxIDs) : Prop where
  sizes : checkSizes cmpct = true
  placed : WellPlaced cmpct.shorttxids.length cmpct.prefilledtxn 0 (-1)

/-- A vector in which `filled` prefilled transactions leave `shortIds` positions free. -/
structure Prefilled (shortIds filled : ℕ) (avail : TxnAvailable) : Prop where
  size : avail.length = shortIds + filled
  count : count (Free avail) (shortIds + filled) = shortIds
  high : ∀ j, 65536 ≤ j → j < shortIds + filled → Free avail j

/-- After `i` entries the positions from `next` on are free, and `i` of those below are taken. -/
structure Placing (n i next : ℕ) (avail : TxnAvailable) : Prop where
  size : avail.length = n
  count : count (Free avail) next + i = next
  above : ∀ j, next ≤ j → j < n → Free avail j
  le : next ≤ n
  small : next ≤ 65536

theorem count_congr_below [DecidablePred p] [DecidablePred q]
    (same : ∀ j < n, p j ↔ q j) : count p n = count q n := by
  induction n with
  | zero => simp
  | succ n ih =>
    have below := ih fun j _ => same j (by omega)
    simp [count_succ, below, same n (by omega)]

private theorem count_of_above [DecidablePred p] (le : a ≤ b)
    (above : ∀ j, a ≤ j → j < b → p j) : count p b = count p a + (b - a) := by
  obtain ⟨d, rfl⟩ := Nat.exists_eq_add_of_le le
  have all : count (fun k => p (a + k)) d = d :=
    count_of_forall fun k _ => above (a + k) (by omega) (by omega)
  rw [count_add, all]
  omega

theorem Placing.place
    (inv : Placing n i next avail) (within : next + index < n) (small : next + index < 65536) :
    Placing n (i + 1) (next + index + 1) (avail.set (next + index) (some tx)) := by
  have bound : next + index < avail.length := by rw [inv.size]; exact within
  have before : Nat.count (Free avail) (next + index) = Nat.count (Free avail) next + index := by
    have := count_of_above (b := next + index) (by omega)
      fun j lower upper => inv.above j lower (by omega)
    omega
  have kept : Nat.count (Free (avail.set (next + index) (some tx))) (next + index)
      = Nat.count (Free avail) (next + index) :=
    count_congr_below fun j _ => by
      rw [free_set bound]
      exact and_iff_right (by omega)
  have taken : ¬ Free (avail.set (next + index) (some tx)) (next + index) := by
    rw [free_set bound]
    simp
  refine ⟨by simp [inv.size], ?_, ?_, by omega, by omega⟩
  · rw [count_succ, if_neg taken, kept, before]
    have := inv.count
    omega
  intro j lower upper
  rw [free_set bound]
  exact ⟨by omega, inv.above j (by omega) upper⟩

private theorem placePrefilled_spec (inv : Placing n i next avail) (total : shortIds + i + ps.length = n) :
    (WellPlaced shortIds ps i ((next : ℤ) - 1) ∧
      ∃ avail' next', placePrefilled shortIds ps i ((next : ℤ) - 1) avail = .ok avail' ∧
        Placing n (i + ps.length) next' avail') ∨
    (¬ WellPlaced shortIds ps i ((next : ℤ) - 1) ∧
      placePrefilled shortIds ps i ((next : ℤ) - 1) avail = .fail .invalid) := by
  induction ps generalizing i next avail with
  | nil => exact .inl ⟨trivial, avail, next, rfl, inv⟩
  | cons p rest ih =>
    simp only [length_cons] at total
    have last : (next : ℤ) - 1 + (p.index.toNat + 1)
        = ((next + p.index.toNat + 1 : ℕ) : ℤ) - 1 := by
      omega
    have position : (((next + p.index.toNat + 1 : ℕ) : ℤ) - 1).toNat = next + p.index.toNat := by
      omega
    simp only [WellPlaced, placePrefilled, last, position]
    by_cases null : p.tx.isNull
    · exact .inr ⟨by simp [null], by simp [null]⟩
    by_cases big : ((next + p.index.toNat + 1 : ℕ) : ℤ) - 1 > 65535
    · refine .inr ⟨fun placed => by omega, ?_⟩
      rw [if_neg null, if_pos big]
    by_cases far : next + p.index.toNat > shortIds + i
    · refine .inr ⟨fun placed => by omega, ?_⟩
      rw [if_neg null, if_neg big, if_pos far]
    have within : next + p.index.toNat < n := by omega
    have placed_inv : Placing n (i + 1) (next + p.index.toNat + 1)
        (avail.set (next + p.index.toNat) (some p.tx)) := inv.place within (by omega)
    have unfolded : next + p.index.toNat < avail.length := by rw [inv.size]; exact within
    rw [if_neg null, if_neg big, if_neg far, if_pos unfolded]
    rcases ih placed_inv (by omega) with ⟨placed, avail', next', ran, inv'⟩ | ⟨bad, ran⟩
    · refine .inl ⟨⟨by simpa using null, by omega, by omega, placed⟩, avail', next', ran, ?_⟩
      rw [length_cons, show i + (rest.length + 1) = i + 1 + rest.length by omega]
      exact inv'
    · exact .inr ⟨fun all => bad all.2.2.2, ran⟩

theorem Prefilled.of_placing
    (inv : Placing (shortIds + filled) filled next avail) : Prefilled shortIds filled avail where
  size := inv.size
  count := by
    have rest := count_of_above inv.le inv.above
    have := inv.count
    have := inv.le
    omega
  high j large lt := inv.above j (inv.small.trans large) lt

theorem prefill_spec :
    (WellPlaced cmpct.shorttxids.length cmpct.prefilledtxn 0 (-1) ∧
      ∃ avail, prefill cmpct = .ok avail ∧
        Prefilled cmpct.shorttxids.length cmpct.prefilledtxn.length avail) ∨
    (¬ WellPlaced cmpct.shorttxids.length cmpct.prefilledtxn 0 (-1) ∧
      prefill cmpct = .fail .invalid) := by
  have start : Placing cmpct.blockTxCount 0 0 (replicate cmpct.blockTxCount none) :=
    ⟨by simp, by simp, fun _ _ lt => by simp [Free, lt], by omega, by omega⟩
  have total : cmpct.shorttxids.length + 0 + cmpct.prefilledtxn.length = cmpct.blockTxCount := rfl
  rcases placePrefilled_spec start total with
    ⟨placed, avail, next, ran, inv⟩ | ⟨bad, ran⟩
  · rw [zero_add] at inv
    exact .inl ⟨placed, avail, ran, .of_placing inv⟩
  · exact .inr ⟨bad, ran⟩

/-! ### The positions of the short ids -/

namespace Prefilled
variable {shortIds filled i fuel : ℕ} {avail : TxnAvailable}

section
variable (pre : Prefilled shortIds filled avail)
include pre

private theorem le_count_add (le : q ≤ shortIds + filled) : q ≤ Nat.count (Free avail) q + filled := by
  obtain ⟨d, total⟩ := Nat.exists_eq_add_of_le le
  have all := pre.count
  rw [total, count_add] at all
  have rest : Nat.count (fun k => Free avail (q + k)) d ≤ d := count_le _
  omega

theorem nth_lt (lt : i < shortIds) : nth (Free avail) i < shortIds + filled :=
  nth_lt_of_lt_count (by rw [pre.count]; exact lt)

private theorem lt_of_count_lt (few : Nat.count (Free avail) q < shortIds) : q < shortIds + filled := by
  by_contra outside
  have := count_monotone (Free avail) (not_lt.1 outside)
  rw [pre.count] at this
  omega

end

private theorem skipTaken_finds (pre : Prefilled shortIds filled avail) (few : filled < 65536)
    (more : i < shortIds) (below : Nat.count (Free avail) (i + off.toNat) = i)
    (enough : shortIds + filled ≤ fuel + (i + off.toNat)) :
    ∃ off', iterate (skipTaken avail i) fuel off = some (some off') ∧
      i + off'.toNat = nth (Free avail) i ∧
      Nat.count (Free avail) (i + 1 + off'.toNat) = i + 1 := by
  have within := pre.lt_of_count_lt (by rw [below]; exact more)
  induction fuel generalizing off with
  | zero => omega
  | succ fuel ih =>
    have bound : i + off.toNat < avail.length := by rw [pre.size]; exact within
    cases found : avail[i + off.toNat] with
    | none =>
      have free : Free avail (i + off.toNat) := by rw [Free, getElem?_eq_getElem bound, found]
      refine ⟨off, iterate.succ_leave ?_, ?_, ?_⟩
      · rw [skipTaken, getElem?_eq_getElem bound, found]
      · have := nth_count free
        rw [below] at this
        exact this.symm
      · rw [show i + 1 + off.toNat = i + off.toNat + 1 by omega, count_succ, if_pos free, below]
    | some _ =>
      have taken : ¬ Free avail (i + off.toNat) := by
        rw [Free, getElem?_eq_getElem bound, found]
        simp
      have below' : Nat.count (Free avail) (i + off.toNat + 1) = i := by
        rw [count_succ, if_neg taken, below, add_zero]
      have room := pre.le_count_add (q := i + off.toNat + 1) (by omega)
      have next : (off + 1).toNat = off.toNat + 1 := by
        rw [UInt16.toNat_add, UInt16.toNat_one, mod_eq_of_lt (by omega)]
      have again : skipTaken avail i off = .again (off + 1) := by
        rw [skipTaken, getElem?_eq_getElem bound, found]
      rw [iterate.succ_again again]
      apply ih
      · rw [next]
        exact below'
      · rw [next]
        omega
      · rw [next]
        exact pre.lt_of_count_lt (by rw [← add_assoc, below']; exact more)

end Prefilled

/-- What the loop over the short ids assigns, from entry `i` on. -/
noncomputable def assigned (avail : TxnAvailable) (ids : List ShortId) (i : ℕ) : ShortIdMap :=
  (ids.zipIdx i).map fun e => (e.1, ofNat (nth (Free avail) e.2))

/-- The map lists the short ids in order, each with the free position of its own number. -/
def InOrder (avail : TxnAvailable) (ids : List ShortId) (m : ShortIdMap) : Prop :=
  ∀ k id pos, m.reverse[k]? = some (id, pos) → ids[k]? = some id ∧ pos.toNat = nth (Free avail) k

namespace Prefilled
variable {shortIds filled i fuel : ℕ} {avail : TxnAvailable}
  {ids done : List ShortId} {m : ShortIdMap}

private theorem mapShortIds_run (ids : List ShortId)
    (pre : Prefilled shortIds filled avail) (few : filled < 65536)
    (total : i + ids.length = shortIds) (below : Nat.count (Free avail) (i + off.toNat) = i)
    (enough : shortIds + filled ≤ fuel) :
    mapShortIds bucketSize fuel avail ids i off m
      = some (.ok ((assigned avail ids i).reverse ++ m)) ∨
    ∃ done id, done <+: ids ∧ mapShortIds bucketSize fuel avail ids i off m
        = some (.fail ((assigned avail done i).reverse ++ m)) ∧
      12 < bucketSize ((assigned avail done i).reverse ++ m) id := by
  induction ids generalizing i off m with
  | nil => exact .inl rfl
  | cons id _ ih =>
    rw [length_cons] at total
    obtain ⟨_, ran, at_nth, below'⟩ :=
      pre.skipTaken_finds few (by omega) below (by omega : shortIds + filled ≤ fuel + _)
    simp only [mapShortIds, ran, at_nth]
    have unfolded : ∀ ids m', (assigned avail (id :: ids) i).reverse ++ m'
        = (assigned avail ids (i + 1)).reverse ++ (id, ofNat (nth (Free avail) i)) :: m' := by
      intro ids m'
      simp [assigned]
    by_cases full : 12 < bucketSize ((id, ofNat (nth (Free avail) i)) :: m) id
    · rw [if_pos full]
      have single : (assigned avail [id] i).reverse ++ m
          = (id, ofNat (nth (Free avail) i)) :: m := by
        simp [assigned]
      exact .inr ⟨[id], id, by simp, by rw [single], by rw [single]; exact full⟩
    rw [if_neg full]
    rcases ih (by omega) below' with finished | ⟨done, key, part, stopped, exceeds⟩
    · exact .inl (by rw [finished, unfolded])
    refine .inr ⟨id :: done, key, ?_, ?_, ?_⟩
    · exact cons_prefix_cons.2 ⟨rfl, part⟩
    · rw [stopped, unfolded]
    · rw [unfolded]
      exact exceeds

theorem assigned_inOrder (pre : Prefilled shortIds filled avail) (small : shortIds + filled ≤ 65536)
    (total : ids.length = shortIds) (part : done <+: ids) :
    InOrder avail ids (assigned avail done 0).reverse := by
  intro k _ _ found
  simp only [assigned, reverse_reverse, getElem?_map, getElem?_zipIdx,
    Option.map_map, Option.map_eq_some_iff, Function.comp_apply, zero_add,
    Prod.mk.injEq] at found
  obtain ⟨_, at_k, rfl, rfl⟩ := found
  have lt := (List.getElem?_eq_some_iff.1 at_k).1
  have within := pre.nth_lt (i := k) (by have := part.length_le; omega)
  refine ⟨?_, ?_⟩
  · obtain ⟨_, rfl⟩ := part
    rw [getElem?_append_left lt]
    exact at_k
  · rw [toNat_ofNat', mod_eq_of_lt (by omega)]

end Prefilled

/-! ### The scans -/

namespace TxScan
variable (getShortID : UInt256 → ShortId) (conflicts : CTransaction → CTransaction → Bool)
  (extra : UInt64) {m : ShortIdMap} {n : ℕ} {s : TxScan}

/-- Both vectors of the scan have the size `n`. -/
def Sized (n : ℕ) (s : TxScan) : Prop := s.txn_available.length = n ∧ s.have_txn.length = n

theorem visit_sized (found : UInt256 × CTransaction) (within : ∀ e ∈ m, e.2.toNat < n)
    (sized : s.Sized n) :
    ∃ s', s.visit m getShortID conflicts extra found = .ok s' ∧ s'.Sized n := by
  obtain ⟨avail_size, have_size⟩ := sized
  unfold visit
  cases hit : m.lookup (getShortID found.1) with
  | none => exact ⟨s, rfl, avail_size, have_size⟩
  | some pos =>
    obtain ⟨_, _, split, -⟩ := lookup_eq_some_iff.1 hit
    have lt : pos.toNat < n := within (getShortID found.1, pos) (by simp [split])
    have avail_at := getElem?_eq_getElem (avail_size.symm ▸ lt)
    have have_at := getElem?_eq_getElem (have_size.symm ▸ lt)
    simp only [avail_at, have_at]
    cases s.have_txn[pos.toNat] with
    | false => exact ⟨_, rfl, by simp [avail_size], by simp [have_size]⟩
    | true =>
      cases s.txn_available[pos.toNat] with
      | none => exact ⟨s, rfl, avail_size, have_size⟩
      | some held =>
        by_cases clash : conflicts held found.2
        · exact ⟨_, by simp only [clash, if_true]; rfl, by simp [avail_size], by simp [have_size]⟩
        · exact ⟨s, by simp [clash], avail_size, have_size⟩

theorem scan_sized (txs : List (UInt256 × CTransaction)) (within : ∀ e ∈ m, e.2.toNat < n)
    (sized : s.Sized n) :
    ∃ s', s.scan m getShortID conflicts extra txs = .ok s' ∧ s'.Sized n := by
  induction txs generalizing s with
  | nil => exact ⟨s, rfl, sized⟩
  | cons found _ ih =>
    obtain ⟨s', ran, sized'⟩ := visit_sized getShortID conflicts extra found within sized
    simp only [scan, ran, Outcome.ok_bind]
    by_cases complete : s'.mempool_count.toNat = m.size
    · exact ⟨s', by rw [if_pos complete], sized'⟩
    · rw [if_neg complete]
      exact ih sized'

end TxScan

/-! ### Safety of the whole routine -/

theorem mapShortIds_mono {r : Outcome ShortIdMap ShortIdMap}
    (ran : mapShortIds bucketSize fuel avail ids i off m = some r) (le : fuel ≤ more) :
    mapShortIds bucketSize more avail ids i off m = some r := by
  induction ids generalizing i off m with
  | nil => exact ran
  | cons _ _ ih =>
    simp only [mapShortIds] at ran ⊢
    cases inner : iterate (skipTaken avail i) fuel off with
    | none => simp [inner] at ran
    | some found =>
      rw [iterate.mono inner le]
      rw [inner] at ran
      cases found with
      | none => exact ran
      | some _ =>
        simp only at ran ⊢
        split at ran
        · rw [if_pos ‹_›]
          exact ran
        · rw [if_neg ‹_›]
          exact ih ran

theorem matchShortIds_mono (ran : matchShortIds ctx fuel cmpct avail = some r) (le : fuel ≤ more) :
    matchShortIds ctx more cmpct avail = some r := by
  unfold matchShortIds at ran ⊢
  cases loop : mapShortIds ctx.bucketSize fuel avail cmpct.shorttxids 0 0 [] with
  | none => simp [loop] at ran
  | some _ => rwa [mapShortIds_mono loop le, ← loop]

theorem initData_mono (ran : initData ctx fuel cmpct = some r) (le : fuel ≤ more) :
    initData ctx more cmpct = some r := by
  revert ran
  unfold initData
  cases prefill cmpct with
  | abort | fail _ => exact id
  | ok _ =>
    by_cases refused : !checkSizes cmpct
    · simp [refused]
    by_cases used : !ctx.unused
    · simp [used]
    intro ran
    rw [if_neg refused, if_neg used] at ran ⊢
    exact matchShortIds_mono ran le

/-- `InitData` ends, stays within its vectors and gives the short ids the free positions in
order. -/
structure InitDataSafe (ctx : InitContext) (cmpct : CBlockHeaderAndShortTxIDs) : Prop where
  terminates : ∃ fuel, (initData ctx fuel cmpct).isSome
  inRange : ∀ fuel, initData ctx fuel cmpct ≠ some .abort
  mapped : ∀ fuel avail m, checkSizes cmpct = true → prefill cmpct = .ok avail →
    (mapShortIds ctx.bucketSize fuel avail cmpct.shorttxids 0 0 [] = some (.ok m) ∨
      mapShortIds ctx.bucketSize fuel avail cmpct.shorttxids 0 0 [] = some (.fail m)) →
    InOrder avail cmpct.shorttxids m

theorem InitDataSafe.of_result (ran : initData ctx fuel cmpct = some r) (fine : r ≠ .abort)
    (mapped : ∀ fuel avail m, checkSizes cmpct → prefill cmpct = .ok avail →
      (mapShortIds ctx.bucketSize fuel avail cmpct.shorttxids 0 0 [] = some (.ok m) ∨
        mapShortIds ctx.bucketSize fuel avail cmpct.shorttxids 0 0 [] = some (.fail m)) →
      InOrder avail cmpct.shorttxids m) : InitDataSafe ctx cmpct where
  terminates := ⟨fuel, by rw [ran]; rfl⟩
  inRange more aborted := by
    have left := initData_mono ran (le_max_left fuel more)
    have right := initData_mono aborted (le_max_right fuel more)
    rw [left] at right
    exact fine (some.inj right)
  mapped := mapped

private theorem Prefilled.mapShortIds_inOrder (pre : Prefilled shortIds filled avail)
    (total : ids.length = shortIds)
    (small : ids = [] ∨ shortIds + filled ≤ 65536) (bucketSize : ShortIdMap → ShortId → ℕ) :
    ∃ m, (mapShortIds bucketSize (shortIds + filled) avail ids 0 0 [] = some (.ok m) ∨
        mapShortIds bucketSize (shortIds + filled) avail ids 0 0 [] = some (.fail m)) ∧
      InOrder avail ids m := by
  by_cases empty : ids = []
  · subst empty
    exact ⟨[], .inl rfl, fun _ _ _ found => by simp at found⟩
  have sum := small.resolve_left empty
  have some_id := length_pos_iff.2 empty
  have start : Nat.count (Free avail) (0 + (0 : UInt16).toNat) = 0 := by simp
  rcases mapShortIds_run ids pre (by omega) (by omega) start le_rfl with
    finished | ⟨done, key, part, stopped, -⟩
  · rw [append_nil] at finished
    exact ⟨_, .inl finished, pre.assigned_inOrder sum total (prefix_refl ids)⟩
  · rw [append_nil] at stopped
    exact ⟨_, .inr stopped, pre.assigned_inOrder sum total part⟩

theorem InOrder.within (order : InOrder avail ids m) (pre : Prefilled shortIds filled avail)
    (total : ids.length = shortIds) : ∀ e ∈ m, e.2.toNat < avail.length := by
  intro e mem
  obtain ⟨k, found⟩ := mem_iff_getElem?.mp (mem_reverse.2 mem)
  obtain ⟨at_k, pos⟩ := order k e.1 e.2 found
  have lt := (List.getElem?_eq_some_iff.1 at_k).1
  rw [pos, pre.size]
  exact pre.nth_lt (by omega)

private theorem matchShortIds_ends
    (ran : mapShortIds ctx.bucketSize fuel avail cmpct.shorttxids 0 0 [] = some (.ok m) ∨
      mapShortIds ctx.bucketSize fuel avail cmpct.shorttxids 0 0 [] = some (.fail m))
    (within : ∀ e ∈ m, e.2.toNat < avail.length) :
    ∃ r, matchShortIds ctx fuel cmpct avail = some r ∧ r ≠ .abort := by
  unfold matchShortIds
  rcases ran with finished | stopped
  · rw [finished]
    by_cases collision : m.size ≠ cmpct.shorttxids.length
    · exact ⟨_, if_pos collision, by simp⟩
    simp only [collision, if_false]
    have sized : TxScan.Sized avail.length
        { txn_available := avail, prefilled_count := cmpct.prefilledtxn.length
          have_txn := replicate avail.length false } := ⟨rfl, by simp⟩
    obtain ⟨_, first, sized⟩ := TxScan.scan_sized cmpct.getShortID (fun _ _ => true) 0
      ctx.vTxHashes within sized
    obtain ⟨s', second, -⟩ := TxScan.scan_sized cmpct.getShortID
      (fun held found => held.witnessHash != found.witnessHash) 1 ctx.extra_txn within sized
    refine ⟨.ok s'.toPartiallyDownloadedBlock, ?_, by simp⟩
    simp [TxScan.scanMempool, TxScan.scanExtra, first, second]
  · rw [stopped]
    exact ⟨_, rfl, by simp⟩

theorem initData_refused (fuel : ℕ)
    (refused : ¬ Admitted cmpct) : ∃ status, initData ctx fuel cmpct = some (.fail status) := by
  unfold initData
  by_cases sizes : checkSizes cmpct
  · rcases prefill_spec with ⟨placed, -⟩ | ⟨-, ran⟩
    · exact absurd ⟨sizes, placed⟩ refused
    · rw [ran]
      cases ctx.unused <;> simp [sizes]
  · simp [sizes]

theorem initData_admitted (ctx : InitContext) (fuel : ℕ) (admitted : Admitted cmpct)
    (filled : prefill cmpct = .ok avail) :
    initData ctx fuel cmpct
      = if ctx.unused then matchShortIds ctx fuel cmpct avail else some (.fail .failed) := by
  unfold initData
  rw [filled]
  cases ctx.unused <;> simp [admitted.sizes]

theorem InitDataSafe.of_refused (refused : ¬ Admitted cmpct) : InitDataSafe ctx cmpct := by
  obtain ⟨_, ran⟩ := initData_refused 0 refused
  refine .of_result ran (by simp) fun _ _ _ sizes filled _ => ?_
  rcases prefill_spec with ⟨placed, -⟩ | ⟨-, bad⟩
  · exact absurd ⟨sizes, placed⟩ refused
  · rw [filled] at bad
    cases bad

theorem InitDataSafe.of_small
    (admitted : Admitted cmpct) (small : cmpct.shorttxids = [] ∨ cmpct.blockTxCount ≤ 65536) :
    InitDataSafe ctx cmpct := by
  rcases prefill_spec with ⟨-, _, filled, pre⟩ | ⟨bad, -⟩
  swap
  · exact absurd admitted.placed bad
  obtain ⟨m, ran, order⟩ := pre.mapShortIds_inOrder rfl small ctx.bucketSize
  have mapped : ∀ fuel avail' m', checkSizes cmpct → prefill cmpct = .ok avail' →
      (mapShortIds ctx.bucketSize fuel avail' cmpct.shorttxids 0 0 [] = some (.ok m') ∨
        mapShortIds ctx.bucketSize fuel avail' cmpct.shorttxids 0 0 [] = some (.fail m')) →
      InOrder avail' cmpct.shorttxids m' := by
    intro fuel avail' m' _ filled' ran'
    rw [filled] at filled'
    cases filled'
    have same : m = m' := by
      rcases ran with ran | ran <;> rcases ran' with ran' | ran' <;>
      · have left := mapShortIds_mono ran (le_max_left _ fuel)
        rw [mapShortIds_mono ran' (le_max_right _ fuel)] at left
        simpa using left.symm
    exact same ▸ order
  by_cases unused : ctx.unused
  · obtain ⟨_, ends, fine⟩ := matchShortIds_ends ran (order.within pre rfl)
    have whole := initData_admitted ctx cmpct.blockTxCount admitted filled
    rw [if_pos unused] at whole
    exact .of_result (whole.trans ends) fine mapped
  have whole := initData_admitted ctx 0 admitted filled
  rw [if_neg unused] at whole
  exact .of_result whole (by simp) mapped

section
variable (pre : Prefilled shortIds filled avail)
include pre

private theorem Prefilled.last_nth (some_id : 0 < shortIds) (large : 65536 < shortIds + filled) :
    nth (Free avail) (shortIds - 1) = shortIds + filled - 1 := by
  have free : Free avail (shortIds + filled - 1) := pre.high _ (by omega) (by omega)
  have all := pre.count
  rw [show shortIds + filled = shortIds + filled - 1 + 1 by omega, count_succ, if_pos free] at all
  have before : Nat.count (Free avail) (shortIds + filled - 1) = shortIds - 1 := by omega
  rw [← before]
  exact nth_count free

theorem Prefilled.not_inOrder (total : ids.length = shortIds)
    (some_id : 0 < shortIds) (large : 65536 < shortIds + filled) :
    ¬ InOrder avail ids (assigned avail ids 0).reverse := by
  intro order
  have lt : shortIds - 1 < ids.length := by omega
  have entry : (assigned avail ids 0).reverse.reverse[shortIds - 1]?
      = some (ids[shortIds - 1], ofNat (nth (Free avail) (shortIds - 1))) := by
    simp [assigned, lt]
  have position := (order _ _ _ entry).2
  rw [pre.last_nth some_id large] at position
  have := (ofNat (shortIds + filled - 1)).toNat_lt
  omega

private theorem Prefilled.all_taken (many : 65536 ≤ filled) : ∀ j < 65536, ¬ Free avail j := by
  have rest := count_of_above (a := 65536) (b := shortIds + filled) (by omega) pre.high
  have all := pre.count
  exact (count_iff_forall_not).1 (by omega)

end

private theorem mapShortIds_diverges (some_id : ids ≠ []) (size : 65536 ≤ avail.length)
    (taken : ∀ j < 65536, ¬ Free avail j) (fuel : ℕ) :
    mapShortIds bucketSize fuel avail ids 0 0 m = none := by
  have never : iterate (skipTaken avail 0) fuel 0 = none := by
    refine iterate.diverges (I := fun _ => True) (fun off _ => ⟨off + 1, ?_, trivial⟩) trivial fuel
    have small := off.toNat_lt
    have bound : 0 + off.toNat < avail.length := by omega
    have full := taken (0 + off.toNat) (by omega)
    rw [Free, getElem?_eq_getElem bound] at full
    rw [skipTaken, getElem?_eq_getElem bound]
    cases found : avail[0 + off.toNat] with
    | none => exact absurd (congrArg some found) full
    | some _ => rfl
  cases ids with
  | nil => exact absurd rfl some_id
  | cons _ _ => simp only [mapShortIds, never]

def InitContext.plain : InitContext where
  unused := true
  vTxHashes := []
  extra_txn := []
  bucketSize _ _ := 0

theorem not_safe_of_large (admitted : Admitted cmpct)
    (some_id : cmpct.shorttxids ≠ []) (large : 65536 < cmpct.blockTxCount) :
    ¬ InitDataSafe .plain cmpct := by
  intro safe
  rcases prefill_spec with ⟨-, avail, filled, pre⟩ | ⟨bad, -⟩
  swap
  · exact bad admitted.placed
  have positive := length_pos_iff.2 some_id
  by_cases few : cmpct.prefilledtxn.length < 65536
  · have start : count (Free avail) (0 + (0 : UInt16).toNat) = 0 := by simp
    rcases Prefilled.mapShortIds_run cmpct.shorttxids pre
      few (by omega) start le_rfl with finished | ⟨done, key, -, -, exceeds⟩
    · rw [append_nil] at finished
      exact pre.not_inOrder rfl positive large (safe.mapped _ avail _ admitted.sizes filled
        (.inl finished))
    · simp [InitContext.plain] at exceeds
  obtain ⟨fuel, ends⟩ := safe.terminates
  have size : 65536 ≤ avail.length := by rw [pre.size]; omega
  rw [initData_admitted _ fuel admitted filled] at ends
  simp [InitContext.plain, matchShortIds,
    mapShortIds_diverges some_id size (pre.all_taken (by omega)) fuel] at ends

/-- `InitData` is safe, whatever the mempool, exactly on the messages that it refuses before it
reads the short ids, that have no short ids, or whose positions fit in 16 bits. -/
theorem initData_safe_iff (cmpct : CBlockHeaderAndShortTxIDs) : (∀ ctx, InitDataSafe ctx cmpct) ↔
      ¬ Admitted cmpct ∨ cmpct.shorttxids = [] ∨ cmpct.blockTxCount ≤ 65536 := by
  constructor
  · intro safe
    by_contra broken
    push Not at broken
    exact not_safe_of_large broken.1 broken.2.1 broken.2.2 (safe .plain)
  rintro (refused | small) ctx
  · exact .of_refused refused
  by_cases admitted : Admitted cmpct
  · exact .of_small admitted small
  · exact .of_refused admitted

def pairMessage (tx : CTransaction) : CBlockHeaderAndShortTxIDs where
  headerIsNull := false
  shorttxids := [7]
  prefilledtxn := [⟨0, tx⟩]
  getShortID h := h.truncate 48

def paddingTx : CTransaction := .simple ⟨0, 0⟩ 1

theorem initData_safe_pair : (pairMessage paddingTx).blockTxCount = 2 ∧
    ∀ ctx, InitDataSafe ctx (pairMessage paddingTx) :=
  ⟨rfl, (initData_safe_iff (pairMessage paddingTx)).2 (.inr (.inr (by decide)))⟩

/-- One short id, and prefilled transactions at the first `n` positions. -/
def floodMessage (n : ℕ) : CBlockHeaderAndShortTxIDs where
  headerIsNull := false
  shorttxids := [7]
  prefilledtxn := replicate n ⟨0, paddingTx⟩
  getShortID h := h.truncate 48

theorem floodMessage_size :
    (floodMessage n).getSerializeSize = 95 + getSizeOfCompactSize n + n * 61 := by
  have entry : getSizeOfCompactSize (0 : UInt16).toNat + paddingTx.getSerializeSize = 61 := by
    decide
  have total : ((floodMessage n).prefilledtxn.map fun p =>
      getSizeOfCompactSize p.index.toNat + p.tx.getSerializeSize).sum = n * 61 := by
    simp only [floodMessage, map_replicate, entry, sum_replicate_nat]
  have count : (floodMessage n).prefilledtxn.length = n := length_replicate
  rw [CBlockHeaderAndShortTxIDs.getSerializeSize, total, count]
  rfl

theorem wellPlaced_replicate (fits : i + k ≤ 65536) :
    WellPlaced shortIds (replicate k ⟨0, paddingTx⟩) i ((i : ℤ) - 1) := by
  induction k generalizing i with
  | zero => trivial
  | succ k ih =>
    have next : (i : ℤ) - 1 + ((0 : UInt16).toNat + 1) = ((i + 1 : ℕ) : ℤ) - 1 := by simp
    rw [replicate_succ, WellPlaced, next]
    exact ⟨rfl, by omega, by omega, ih (by omega)⟩

theorem floodMessage_admitted (fits : n ≤ 65536) : Admitted (floodMessage n) where
  sizes := by
    have limit : 1 + n ≤ maxCompactTransactions := by
      unfold maxCompactTransactions
      omega
    simpa [checkSizes, floodMessage, CBlockHeaderAndShortTxIDs.blockTxCount] using limit
  placed := wellPlaced_replicate (by omega)

/-- A message of less than four million bytes on which `InitData` never returns. -/
theorem initData_hangs : (floodMessage 65536).getSerializeSize ≤ 4000000 ∧
    ∀ fuel, initData .plain fuel (floodMessage 65536) = none := by
  refine ⟨by rw [floodMessage_size]; decide, fun fuel => ?_⟩
  rcases prefill_spec with ⟨-, avail, filled, pre⟩ | ⟨bad, -⟩
  · have count : (floodMessage 65536).prefilledtxn.length = 65536 := length_replicate
    rw [count] at pre
    have size : 65536 ≤ avail.length := by rw [pre.size]; omega
    have some_id : (floodMessage 65536).shorttxids ≠ [] := cons_ne_nil _ _
    rw [initData_admitted _ fuel (floodMessage_admitted le_rfl) filled, matchShortIds,
      mapShortIds_diverges some_id size (pre.all_taken le_rfl) fuel]
    rfl
  · exact absurd (floodMessage_admitted le_rfl).placed bad

end DogecoinCore
