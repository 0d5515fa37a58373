import DogecoinCore.UtxoSnapshot
import Mathlib.Data.Set.Card

/-! A snapshot that was written is loaded again: the header and every record are read back, the
cache that takes the records in batches shows them all, and the new database has the same
records in the same order, so its digest is the same too. Any other file that is accepted is
shown exactly unless an id has two records or bytes are left over. -/
namespace DogecoinCore.Coins
open List DogecoinCore.Coins.CCoinsViewCache CCoinsView AList CCoins Function Option Bool
open Reader WriteBack
variable {keys : PubKeys} {cache : CCoinsViewCache} {m : CoinsMap}

namespace SnapshotMetadata
theorem reads_fields (magic : metadata.network_magic.length = 4)
    (count : metadata.coins_count < 2 ^ 64) :
    Reads unserialize.fields (metadata.network_magic ++
      (writeUInt256 metadata.base_blockhash ++ littleEndian 8 metadata.coins_count)) metadata := by
  have four := Reads.bytes metadata.network_magic
  rw [magic] at four
  exact four.bind ((reads_uint256 _).bind ((reads_littleEndian 8 _ count).bind_pure metadata rfl))

theorem unserialize_serialize (magic : metadata.network_magic.length = 4)
    (count : metadata.coins_count < 2 ^ 64) (rest : List UInt8) :
    unserialize (metadata.serialize ++ rest) = .ok (metadata, rest) := by
  have five : Reads (Reader.bytes 5) SNAPSHOT_MAGIC_BYTES SNAPSHOT_MAGIC_BYTES :=
    .bytes SNAPSHOT_MAGIC_BYTES
  have version := reads_littleEndian 2 SNAPSHOT_VERSION (by decide)
  rw [unserialize, serialize, append_assoc, five]
  dsimp only
  rw [if_neg (not_not.2 rfl), append_assoc, version]
  dsimp only
  rw [if_neg (not_not.2 rfl), reads_fields magic count]

end SnapshotMetadata

def CoinsRecords.NoPruned (coins : CoinsRecords) : Prop :=
  ∀ txid c, coins.lookup txid = some c → c.isPruned = false

variable {coins : CoinsRecords} {records : List CoinsRecord} {bg : SnapshotSlot}

theorem CoinsRecords.NoPruned.writeEntry (kept : coins.NoPruned)
    (it : Sigma fun _ : UInt256 => CCoinsCacheEntry) : (coins.writeEntry it).NoPruned := by
  intro txid c found
  unfold CoinsRecords.writeEntry at found
  split at found
  · split at found
    · by_cases here : txid = it.1
      · rw [here, lookup_erase] at found
        cases found
      · rw [lookup_erase_ne here] at found
        exact kept txid c found
    next unspent =>
    by_cases here : txid = it.1
    · rw [here, lookup_insert] at found
      cases found
      exact not_eq_true _ ▸ unspent
    · rw [lookup_insert_ne here] at found
      exact kept txid c found
  · exact kept txid c found

theorem CoinsRecords.NoPruned.seen_lookup (kept : coins.NoPruned)
    (txid : UInt256) : seen isPruned (coins.lookup txid) = coins.lookup txid := by
  cases found : coins.lookup txid with
  | none => rfl
  | some c => exact seen_some_of_there (kept txid c found)

/-- The cache of a snapshot that is being loaded: it shows the map, on a database of its own. -/
structure OnDisk (cache : CCoinsViewCache) (m : CoinsMap) : Prop where
  shows : cache.Shows m
  base : ∃ coins bestBlock, cache.base = .db coins bestBlock ∧ coins.NoPruned

theorem onDisk_empty : OnDisk (.ofBase (.db ∅ 0)) fun _ => none where
  shows := shows_ofBase trivial
  base := ⟨∅, 0, rfl, fun _ _ found => by cases found⟩

section
variable (disk : OnDisk cache m)
include disk

theorem OnDisk.modify (txid : UInt256) {coins : CCoins}
    (unspent : coins.isPruned = false) :
    OnDisk (cache.modify txid fun _ => coins) (update m txid (some coins.cleanup)) := by
  obtain ⟨records, bestBlock, db, kept⟩ := disk.base
  have after := disk.shows.modify txid fun _ => coins
  rw [kept_of_not_isPruned unspent] at after
  refine ⟨after, records, bestBlock, ?_, kept⟩
  change ((cache.modifyCoins txid).2.endModify txid _).base = _
  rw [base_endModify]
  obtain same | filled := (modifyCoins_eq cache txid).2
  · rw [same, db]
  · rw [filled, db]
    rfl

theorem OnDisk.flush : ∃ cache' coins bestBlock, cache.flush = some cache' ∧
    OnDisk cache' m ∧ cache'.hashBlock = cache.hashBlock ∧ cache'.base = .db coins bestBlock ∧
    (cache.hashBlock ≠ 0 → bestBlock = cache.hashBlock) ∧ coins.lookup = m := by
  obtain ⟨records, oldBest, db, kept⟩ := disk.base
  obtain ⟨cache', flushed, shows, -, shown, -⟩ := disk.shows.flush
  have written : cache.flush = some { cache with
      cacheCoins := ∅
      base := .db (cache.cacheCoins.entries.foldl CoinsRecords.writeEntry records)
        (if cache.hashBlock = 0 then oldBest else cache.hashBlock) } := by
    rw [CCoinsViewCache.flush, db]
    rfl
  cases written.symm.trans flushed
  have unpruned := foldlRecOn cache.cacheCoins.entries _ kept fun _ kept it _ => kept.writeEntry it
  refine ⟨_, _, _, written, ⟨shows, _, _, rfl, unpruned⟩, rfl, rfl, fun present => if_neg present, ?_⟩
  rw [← shown]
  exact funext fun txid => (unpruned.seen_lookup txid).symm

theorem OnDisk.setBestBlock (hashBlock : UInt256) :
    OnDisk (cache.setBestBlock hashBlock) m :=
  ⟨disk.shows.setBestBlock hashBlock, disk.base⟩

end

def putAll (m : CoinsMap) (records : List CoinsRecord) : CoinsMap :=
  records.foldl (fun m it => update m it.1 (some it.2)) m

theorem putAll_eq (keys : records.NodupKeys) (m : CoinsMap)
    (txid : UInt256) : putAll m records txid = (records.dlookup txid).or (m txid) := by
  induction records generalizing m with
  | nil => rfl
  | cons it records ih =>
    rw [nodupKeys_cons] at keys
    rw [putAll, foldl_cons]
    change putAll _ records txid = _
    rw [ih keys.2]
    by_cases here : txid = it.1
    · rw [here, dlookup_cons_eq, dlookup_eq_none.2 keys.1, update_self]
      rfl
    · rw [dlookup_cons_ne records it here, update_of_ne here]

theorem reads_record {coins : CCoins} (writable : coins.Writable) : Reads (do
      let txid ← readUInt256
      let coins ← unserialize keys
      pure (txid, coins)) (writeRecord keys ⟨txid, coins⟩) (txid, coins) :=
  (reads_uint256 txid).bind (writable.reads.bind_pure (txid, coins) rfl)

private theorem loadCoins_spec (keys : PubKeys) (coins_count : ℕ)
    (writable : ∀ it ∈ records, it.2.Writable) (loaded : ℕ) (disk : OnDisk cache m)
    (rest : List UInt8) :
    ∃ cache', loadCoins keys coins_count records.length loaded cache
        (records.flatMap (writeRecord keys) ++ rest) = .ok cache' ∧
      OnDisk cache' (putAll m records) := by
  induction records generalizing loaded cache m with
  | nil => exact ⟨cache, rfl, disk⟩
  | cons it records ih =>
    have here := writable it mem_cons_self
    have later : ∀ it ∈ records, it.2.Writable :=
      fun other mem => writable other (mem_cons_of_mem it mem)
    have next := disk.modify it.1 here.unspent
    rw [here.tidy] at next
    rw [length_cons, loadCoins, flatMap_cons, append_assoc, reads_record here]
    dsimp only
    rw [if_neg (by rw [here.unspent]; decide)]
    by_cases full : (loaded + 1) % 5000 = 0
    · obtain ⟨_, _, _, written, disk', -⟩ := next.flush
      rw [if_pos full, written]
      exact ih later (loaded + 1) disk'
    · rw [if_neg full]
      exact ih later (loaded + 1) next

namespace CCoinsView
variable {v w : CCoinsView}

private theorem records_eq_of_dlookup
    (same : ∀ txid, v.cursor.records.dlookup txid = w.cursor.records.dlookup txid) :
    v.cursor.records = w.cursor.records := by
  have perm := lookup_ext (nodupKeys_cursor v) (nodupKeys_cursor w) fun txid _ => by
    rw [mem_def, mem_def, same]
  refine List.Perm.eq_of_pairwise (fun a b memberA memberB le ge => ?_) (pairwise_cursor v)
    (pairwise_cursor w) perm
  have bytes := congrArg (· ++ []) (List.le_antisymm le ge)
  have key := ((reads_uint256 a.1).split (reads_uint256 b.1) bytes).1
  exact (nodupKeys_cursor v).eq_of_fst_eq memberA (perm.mem_iff.2 memberB) key

private theorem filter_writable (writable : ∀ it ∈ v.cursor.records, it.2.Writable) :
    (v.cursor.records.filter fun it => !it.2.isPruned) = v.cursor.records :=
  filter_eq_self.2 fun it mem => by rw [(writable it mem).unspent]; rfl

private theorem Flushed.shown_eq (flushed : v.Flushed) (writable : ∀ it ∈ v.cursor.records, it.2.Writable)
    (txid : UInt256) : v.shown txid = v.cursor.records.dlookup txid := by
  rw [flushed txid]
  cases found : v.cursor.records.dlookup txid with
  | none => rfl
  | some c => exact seen_some_of_there (writable ⟨txid, c⟩ (of_mem_dlookup found)).unspent

end CCoinsView

variable {params : SnapshotParams} {view : CCoinsView} {base_hash : UInt256} {path : String}
  {written : ℕ} {file : List UInt8}

theorem writeUTXOSnapshot_eq_ok
    (wrote : writeUTXOSnapshot params io path (some view) base_hash = .ok (written, file)) :
    base_hash ≠ 0 ∧ written = countCoins view ∧
      file = SnapshotMetadata.serialize ⟨params.messageStart, base_hash, countCoins view⟩ ++
        (view.cursor.records.filter fun it => !it.2.isPruned).flatMap (writeRecord params.keys) := by
  simp only [writeUTXOSnapshot] at wrote
  split at wrote
  · cases wrote
  next present =>
  split at wrote
  · cases wrote
  split at wrote
  · cases wrote
  split at wrote
  · cases wrote
  split at wrote
  · cases wrote
  next counted =>
  split at wrote
  · cases wrote
  split at wrote
  · cases wrote
  · cases wrote
    exact ⟨present, not_not.1 counted, rfl⟩

private theorem admitSnapshot_serialize (path : String) {metadata : SnapshotMetadata}
    (idle : bg.coinsTip = none) (magic : metadata.network_magic = params.messageStart)
    (base : metadata.base_blockhash ≠ 0) (count : metadata.coins_count ≤ 500000000)
    (afile : List UInt8) :
    admitSnapshot params path (some bg) (some (metadata.serialize ++ afile)) =
      .ok (bg, metadata, afile) := by
  have length : metadata.network_magic.length = 4 := by
    rw [magic]
    exact params.messageStart.2
  have free : bg.coinsTip.isSome = false := by rw [idle]; rfl
  simp only [admitSnapshot, free, SnapshotMetadata.unserialize_serialize length
    (Nat.lt_of_le_of_lt count (by decide)), magic, base, Nat.not_lt.2 count, ne_eq,
    not_true_eq_false, Bool.false_and, Bool.false_eq_true, if_false]

/-- `IsIdle`, of a chainstate that is not the active one. -/
structure SnapshotSlot.Idle (bg : SnapshotSlot) : Prop where
  role : bg.active_role = false
  coins : bg.coinsTip = none

private theorem loadUTXOSnapshot_records (metadata : SnapshotMetadata) (idle : bg.Idle)
    (magic : metadata.network_magic = params.messageStart) (base : metadata.base_blockhash ≠ 0)
    (count : metadata.coins_count = records.length) (few : records.length ≤ 500000000)
    (writable : ∀ it ∈ records, it.2.Writable) :
    ∃ bg' loaded cache coins, loadUTXOSnapshot params true path (some bg)
        (some (metadata.serialize ++ records.flatMap (writeRecord params.keys))) =
          .ok (bg', loaded) ∧
      loaded.coins_loaded = records.length ∧ bg'.coinsTip = some cache ∧
      cache.hashBlock = metadata.base_blockhash ∧
      cache.base = .db coins metadata.base_blockhash ∧
      coins.lookup = putAll (fun _ => none) records ∧
      cache.toView.shown = putAll (fun _ => none) records := by
  have admitted := admitSnapshot_serialize path idle.coins magic base (count ▸ few)
    (records.flatMap (writeRecord params.keys))
  obtain ⟨_, ran, disk₁⟩ := loadCoins_spec params.keys metadata.coins_count writable 0
    onDisk_empty []
  rw [append_nil, ← count] at ran
  obtain ⟨_, _, _, flushed₂, disk₂, hash₂, -⟩ := (disk₁.setBestBlock metadata.base_blockhash).flush
  obtain ⟨cache₃, coins, _, flushed₃, disk₃, hash₃, db, best, records₃⟩ := disk₂.flush
  have hash := hash₂
  rw [hash] at hash₃ best
  rw [best base] at db
  have allocated : bg.allocateCoinsDB true =
      (true, { bg.resetCoinsDB with coinsTip := some (.ofBase (.db ∅ 0)) }) := by
    simp [SnapshotSlot.allocateCoinsDB, idle.role]
  obtain ⟨bg', loaded, result, number, tip⟩ : ∃ bg' loaded, loadUTXOSnapshot params true path (some bg)
      (some (metadata.serialize ++ records.flatMap (writeRecord params.keys))) = .ok (bg', loaded) ∧
      loaded.coins_loaded = metadata.coins_count ∧ bg'.coinsTip = some cache₃ := by
    rw [loadUTXOSnapshot, admitted]
    simp only [allocated, Bool.not_true, Bool.false_eq_true, if_false, ran, flushed₂, flushed₃,
      computeCoinsHashSerialized]
    exact ⟨_, _, rfl, rfl, rfl⟩
  exact ⟨bg', loaded, cache₃, coins, result, number.trans count, tip, hash₃, db, records₃,
    disk₃.shows.shown⟩

/-- A snapshot of a flushed view, written and loaded again, is the same coins with the base for
their best block; and it has the same digest, if the base is the best block of the view. -/
theorem loadUTXOSnapshot_writeUTXOSnapshot {io : WriteSnapshotIo} {bg : SnapshotSlot}
    (flushed : view.Flushed)
    (decodes : ∀ it ∈ view.cursor.records, ∃ s rest, unserialize params.keys s = some (it.2, rest))
    (nonneg : ∀ it ∈ view.cursor.records, 0 ≤ it.2.nVersion ∧ 0 ≤ it.2.nHeight)
    (outputs : ∀ it ∈ view.cursor.records, ∀ i out, it.2.unspent i = some out →
      moneyRange out.nValue = true ∧ out.scriptPubKey.length ≤ 10000)
    (wrote : writeUTXOSnapshot params io path (some view) base_hash = .ok (written, file))
    (few : written ≤ 500000000) (idle : bg.Idle) :
    ∃ bg' loaded cache, loadUTXOSnapshot params true path (some bg) (some file) = .ok (bg', loaded) ∧
      loaded.coins_loaded = written ∧ bg'.coinsTip = some cache ∧
      cache.getBestBlock.1 = base_hash ∧ cache.toView.shown = view.shown ∧
      (view.cursor.hashBlock = base_hash →
        computeCoinsHashSerialized params.getHash (some cache.toView) =
          computeCoinsHashSerialized params.getHash (some view)) := by
  have writable : ∀ it ∈ view.cursor.records, it.2.Writable := by
    intro it member
    obtain ⟨s, rest, read⟩ := decodes it member
    obtain ⟨nVersion, nHeight⟩ := nonneg it member
    refine writable_of_unserialize read nVersion nHeight fun i out found => ?_
    obtain ⟨value, script⟩ := outputs it member i out found
    exact ⟨value, script⟩
  obtain ⟨base, rfl, rfl⟩ := writeUTXOSnapshot_eq_ok wrote
  have count : countCoins view = view.cursor.records.length := by
    rw [countCoins, countP_eq_length_filter, CCoinsView.filter_writable writable]
  rw [CCoinsView.filter_writable writable]
  obtain ⟨bg', loaded, cache, _, ran, number, tip, hash, db, records, shown⟩ :=
    loadUTXOSnapshot_records ⟨params.messageStart, base_hash, countCoins view⟩ idle rfl base
      count (count ▸ few) writable
  have all : putAll (fun _ => none) view.cursor.records = view.shown := by
    funext txid
    rw [putAll_eq (CCoinsView.nodupKeys_cursor view), flushed.shown_eq writable]
    exact or_none
  refine ⟨bg', loaded, cache, ran, number.trans count.symm, tip, ?_, shown.trans all, fun best => ?_⟩
  · rw [CCoinsViewCache.getBestBlock, hash, if_neg base]
  have same : cache.toView.cursor.records = view.cursor.records := by
    refine CCoinsView.records_eq_of_dlookup fun txid => ?_
    change cache.base.cursor.records.dlookup txid = _
    rw [db, CCoinsView.dlookup_cursor_db]
    exact (congrFun (records.trans all) txid).trans (flushed.shown_eq writable txid)
  have block : cache.toView.cursor.hashBlock = view.cursor.hashBlock := by
    change cache.base.cursor.hashBlock = _
    rw [db, best]
    rfl
  rw [computeCoinsHashSerialized, computeCoinsHashSerialized, CCoinsViewCursor.preimage,
    CCoinsViewCursor.preimage, same, block]

def plainParams : SnapshotParams where
  messageStart := ⟨[0xc0, 0xc0, 0xc0, 0xc0], rfl⟩
  keys := noKeys
  getHash := fun bytes => BitVec.ofNat 256 (bytes.headD 0).toNat
  mapBlockIndex := fun _ => none

theorem loadUTXOSnapshot_writeUTXOSnapshot_single : ∃ file bg loaded cache,
    writeUTXOSnapshot plainParams {} "utxo.dat" (some (.single true 7)) 1 = .ok (1, file) ∧
      loadUTXOSnapshot plainParams true "utxo.dat" (some .idle) (some file) = .ok (bg, loaded) ∧
      loaded.coins_loaded = 1 ∧ bg.coinsTip = some cache ∧ cache.getBestBlock.1 = 1 ∧
      cache.toView.shown = shown (.single true 7) ∧
      computeCoinsHashSerialized plainParams.getHash (some cache.toView) =
        computeCoinsHashSerialized plainParams.getHash (some (.single true 7)) := by
  have only : ∀ it ∈ (single true 7).cursor.records,
      it = ⟨2, ⟨true, [⟨5, [0x51]⟩], 7, 1⟩⟩ := fun it => mem_singleton.1
  obtain ⟨file, wrote⟩ : ∃ file, writeUTXOSnapshot plainParams {} "utxo.dat"
    (some (.single true 7)) 1 = .ok (1, file) := ⟨_, rfl⟩
  have idle : SnapshotSlot.idle.Idle := ⟨rfl, rfl⟩
  obtain ⟨bg, loaded, cache, ran, count, tip, best, shown, hash⟩ :=
    loadUTXOSnapshot_writeUTXOSnapshot (flushed_db)
      (fun it member => ⟨[1, 3, 41, 7, 0x51, 7], [], by rw [only it member]; decide⟩)
      (fun it member => by rw [only it member]; decide)
      (fun it member _ _ found => by
        rw [only it member] at found
        have here := mem_of_getElem? (unspent_eq_some.1 found).1
        rw [mem_singleton.1 here]
        decide)
      wrote (by decide) idle
  exact ⟨file, bg, loaded, cache, wrote, ran, count, tip, best, shown, hash rfl⟩

def reloaded (params : SnapshotParams) (view : CCoinsView) (base_hash : UInt256) :
    Option CCoinsViewCache :=
  match writeUTXOSnapshot params {} "utxo.dat" (some view) base_hash with
  | .error _ => none
  | .ok (_, file) =>
    match loadUTXOSnapshot params true "utxo.dat" (some .idle) (some file) with
    | .ok (bg, _) => bg.coinsTip
    | _ => none

def debt : CCoins := ⟨true, [⟨-512, [0x51]⟩], 7, 1⟩

/-- An amount that is out of range is decompressed from a number that it is not compressed to; and
the digest covers the best block of the view. -/
theorem reloaded_differs :
    (unserialize noKeys [1, 3, 0x81, 0x97, 0xfb, 0xac, 0x9a, 0xd0, 0xb6, 0xc6, 0x3e, 7, 0x51, 7] =
        some (debt, []) ∧
      (reloaded plainParams (.db (singleton 2 debt) 1) 1).map (fun cache => cache.toView.shown 2) =
        some (some ⟨true, [⟨2049638230412121124, [0x51]⟩], 7, 1⟩)) ∧
      (reloaded plainParams (.single true 7) 3).map (fun cache =>
          (computeCoinsHashSerialized plainParams.getHash (some cache.toView)).toOption) =
        some (some 3) ∧
      (computeCoinsHashSerialized plainParams.getHash (some (.single true 7))).toOption = some 1 := by
  decide

/-! ### What a loaded file holds -/

def readRecords (keys : PubKeys) : ℕ → Reader (List CoinsRecord)
  | 0 => pure []
  | n + 1 => do
    let it ← (do
      let txid ← readUInt256
      let coins ← unserialize keys
      pure (txid, coins))
    let records ← readRecords keys n
    pure (⟨it.1, it.2⟩ :: records)

private theorem loadCoins_ok (disk : OnDisk cache m)
    (ran : loadCoins keys coins_count left loaded cache afile = .ok cache') :
    ∃ records rest m', readRecords keys left afile = some (records, rest) ∧ records.length = left ∧
      OnDisk cache' m' ∧ ∀ txid, (m' txid).isSome ↔ (m txid).isSome ∨ txid ∈ records.keys := by
  induction left generalizing loaded cache m afile with
  | zero =>
    cases ran
    exact ⟨[], afile, m, rfl, rfl, disk, by simp⟩
  | succ left ih =>
    rw [loadCoins] at ran
    split at ran
    · cases ran
    next txid coins afile' read =>
    split at ran
    · cases ran
    next unspent =>
    have next := disk.modify txid (by simpa using unspent)
    obtain ⟨loaded', cache₁, disk₁, ran⟩ : ∃ loaded' cache₁,
        OnDisk cache₁ (update m txid (some coins.cleanup)) ∧
        loadCoins keys coins_count left loaded' cache₁ afile' = .ok cache' := by
      dsimp only at ran
      split at ran
      · obtain ⟨_, _, _, written, disk', -⟩ := next.flush
        rw [written] at ran
        exact ⟨_, _, disk', ran⟩
      · exact ⟨_, _, next, ran⟩
    obtain ⟨records, rest, m', later, length, disk', ids⟩ := ih disk₁ ran
    refine ⟨⟨txid, coins⟩ :: records, rest, m', ?_, by rw [length_cons, length], disk', fun x => ?_⟩
    · exact bind_eq_some.2 ⟨_, _, read, bind_eq_some.2 ⟨_, _, later, rfl⟩⟩
    · rw [ids, keys_cons, mem_cons]
      by_cases here : x = txid
      · simp [here]
      · simp [here]

/-- **A loaded snapshot is exactly its file** if no id has two records and no bytes follow. -/
theorem loaded_exact_iff (params : SnapshotParams) (openDb : Bool) (path : String)
    (bg : Option SnapshotSlot) (file : List UInt8)
    (ran : loadUTXOSnapshot params openDb path bg (some file) = .ok (bg', loaded)) :
    ∃ slot metadata afile records rest cache,
      admitSnapshot params path bg (some file) = .ok (slot, metadata, afile) ∧
      readRecords params.keys metadata.coins_count afile = some (records, rest) ∧
      bg'.coinsTip = some cache ∧
      (loaded.coins_loaded = {txid | (cache.toView.shown txid).isSome}.ncard ∧ rest = [] ↔
        records.NodupKeys ∧ rest = []) := by
  rw [loadUTXOSnapshot] at ran
  split at ran
  · cases ran
  next slot metadata afile admitted =>
  have opened : (slot.allocateCoinsDB openDb).1 = false ∨
      (slot.allocateCoinsDB openDb).2.coinsTip = some (.ofBase (.db ∅ 0)) := by
    unfold SnapshotSlot.allocateCoinsDB
    split_ifs <;> simp
  dsimp only at ran
  split at ran
  · cases ran
  next allocated =>
  rw [opened.resolve_left (by simpa using allocated)] at ran
  dsimp only at ran
  split at ran
  · cases ran
  next cache₁ looped =>
  obtain ⟨records, rest, _, read, length, disk₁, ids⟩ := loadCoins_ok onDisk_empty looped
  obtain ⟨_, _, _, flushed₂, disk₂, -⟩ := (disk₁.setBestBlock metadata.base_blockhash).flush
  obtain ⟨cache₃, _, _, flushed₃, disk₃, -⟩ := disk₂.flush
  rw [flushed₂] at ran
  dsimp only at ran
  rw [flushed₃] at ran
  cases ran
  refine ⟨slot, metadata, afile, records, rest, cache₃, admitted, read, rfl, and_congr_left fun _ => ?_⟩
  have held : {txid | (cache₃.toView.shown txid).isSome} = ↑records.keys.toFinset := by
    ext txid
    simp [disk₃.shows.shown, ids]
  have size : records.keys.length = metadata.coins_count := (length_map _).trans length
  rw [held, Set.ncard_coe_finset, ← size, eq_comm]
  exact Multiset.toFinset_card_eq_card_iff_nodup

/-- A file for block 1 with one record, so many times, and something behind it. -/
def recordFile (n : ℕ) (rest : List UInt8) : List UInt8 :=
  SnapshotMetadata.serialize ⟨plainParams.messageStart, 1, n⟩ ++
    (replicate n (writeRecord noKeys ⟨2, ⟨true, [⟨5, [0x51]⟩], 7, 1⟩⟩)).flatten ++ rest

theorem loaded_exact_one : ∃ bg' loaded cache, loadUTXOSnapshot plainParams true "utxo.dat"
      (some .idle) (some (recordFile 1 [])) = .ok (bg', loaded) ∧ bg'.coinsTip = some cache ∧
    loaded.coins_loaded = {txid | (cache.toView.shown txid).isSome}.ncard := by
  obtain ⟨bg', loaded, ran⟩ : ∃ bg' loaded, loadUTXOSnapshot plainParams true "utxo.dat"
    (some .idle) (some (recordFile 1 [])) = .ok (bg', loaded) := ⟨_, _, rfl⟩
  obtain ⟨_, _, _, _, _, cache, admitted, read, tip, exact'⟩ := loaded_exact_iff _ _ _ _ _ ran
  cases admitted
  cases Option.mem_unique read (by decide : _ = some ([⟨2, ⟨true, [⟨5, [0x51]⟩], 7, 1⟩⟩], []))
  exact ⟨bg', loaded, cache, ran, tip, (exact'.2 ⟨nodupKeys_singleton _, rfl⟩).1⟩

set_option maxRecDepth 2000 in
/-- A record twice and a byte behind: two coins are reported, and the view has one. -/
theorem loaded_repeated : ∃ r, loadUTXOSnapshot plainParams true "utxo.dat" (some .idle)
      (some (recordFile 2 [0])) = .ok r ∧ r.2.coins_loaded = 2 ∧
    r.1.coinsTip.map (fun cache => countCoins cache.toView) = some 1 :=
  ⟨_, rfl, rfl, by decide⟩

end DogecoinCore.Coins
