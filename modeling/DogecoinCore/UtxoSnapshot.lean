import DogecoinCore.CoinsRecord
import DogecoinCore.Control
import Mathlib.Data.List.Sort

/-! node/utxo_snapshot.cpp over the coins database: the digest of a coins view, and the file that
`dumptxoutset` writes and `loadtxoutset` reads. The database is the map of its decoded
records. What the digest is taken of tells the unspent outputs apart, and nothing else of
the records. -/
namespace DogecoinCore.Coins
open List CCoins
open Reader WriteBack

/-- A `uint256` in a stream. -/
def writeUInt256 (hash : UInt256) : List UInt8 := littleEndian 32 hash.toNat

def readUInt256 : Reader UInt256 := do
  let n ← readLittleEndian 32
  pure (BitVec.ofNat 256 n)

/-- A `CTxOut` outside the coins database, where nothing is compressed. -/
def CTxOut.write (out : CTxOut) : List UInt8 :=
  littleEndian 8 out.nValue.toUInt64.toNat ++ writeVector (fun b => [b]) out.scriptPubKey

abbrev CoinsRecord := Sigma fun _ : UInt256 => CCoins

def keyLe (a b : CoinsRecord) : Prop := writeUInt256 a.1 ≤ writeUInt256 b.1

instance decidableKeyLe : DecidableRel keyLe := fun _ _ => inferInstanceAs (Decidable (_ ≤ _))

/-- `CCoinsViewDBCursor`: the best block of the database and what is left to iterate over. -/
structure CCoinsViewCursor where
  hashBlock : UInt256
  records : List CoinsRecord

def CCoinsView.cursor : CCoinsView → CCoinsViewCursor
  | .db coins bestBlock => ⟨bestBlock, coins.entries.insertionSort keyLe⟩
  | .cache _ _ base => base.cursor

def CCoins.outputs (c : CCoins) : List (CTxOut × ℕ) := c.vout.zipIdx.filter fun it => !it.1.isNull

def hashOutput (it : CTxOut × ℕ) : List UInt8 :=
  writeVarInt 32 ((it.2 + 1) % 2 ^ 32) ++ CTxOut.write it.1

def hashRecord (it : CoinsRecord) : List UInt8 :=
  writeUInt256 it.1 ++ (it.2.outputs.flatMap hashOutput ++ writeVarIntInt 0)

/-- What `ComputeCoinsHashSerialized` writes to the `CHashWriter`. -/
def CCoinsViewCursor.preimage (pcursor : CCoinsViewCursor) : List UInt8 :=
  writeUInt256 pcursor.hashBlock ++ pcursor.records.flatMap hashRecord

def computeCoinsHashSerialized (getHash : List UInt8 → UInt256) :
    Option CCoinsView → Except String UInt256
  | none => .error "No coins view"
  | some view => .ok (getHash view.cursor.preimage)

def SNAPSHOT_MAGIC_BYTES : List UInt8 := [0x75, 0x74, 0x78, 0x6f, 0xff]

def SNAPSHOT_VERSION : ℕ := 1

structure SnapshotMetadata where
  network_magic : List UInt8
  base_blockhash : UInt256
  coins_count : ℕ
  deriving DecidableEq

namespace SnapshotMetadata
def serialize (metadata : SnapshotMetadata) : List UInt8 :=
  SNAPSHOT_MAGIC_BYTES ++ (littleEndian 2 SNAPSHOT_VERSION ++ (metadata.network_magic ++
    (writeUInt256 metadata.base_blockhash ++ littleEndian 8 metadata.coins_count)))

def endOfFile : String := "CAutoFile::read: end of file"

/-- `SnapshotMetadata::Unserialize`, with the text of what it throws. -/
def unserialize (s : List UInt8) : Except String (SnapshotMetadata × List UInt8) :=
  match Reader.bytes 5 s with
  | none => .error endOfFile
  | some (magic, s) =>
    if magic ≠ SNAPSHOT_MAGIC_BYTES then
      .error "Invalid UTXO snapshot magic bytes (not a Dogecoin 1.14 snapshot, or corrupt file)"
    else
      match readLittleEndian 2 s with
      | none => .error endOfFile
      | some (version, s) =>
        if version ≠ SNAPSHOT_VERSION then
          .error ("Unsupported UTXO snapshot version " ++ toString version ++ " (need " ++
            toString SNAPSHOT_VERSION ++ ")")
        else
          match fields s with
          | none => .error endOfFile
          | some (metadata, s) => .ok (metadata, s)
where
  /-- What follows the version. -/
  fields : Reader SnapshotMetadata := do
    let network_magic ← Reader.bytes 4
    let base_blockhash ← readUInt256
    let coins_count ← readLittleEndian 8
    pure ⟨network_magic, base_blockhash, coins_count⟩

end SnapshotMetadata

/-- What the snapshot code takes from the chain parameters and the libraries. -/
structure SnapshotParams where
  /-- `Params().MessageStart()`. -/
  messageStart : { bytes : List UInt8 // bytes.length = 4 }
  keys : PubKeys
  /-- `CHashWriter::GetHash`. -/
  getHash : List UInt8 → UInt256
  /-- The heights of the blocks in `mapBlockIndex`. -/
  mapBlockIndex : UInt256 → Option ℤ

def countCoins (view : CCoinsView) : ℕ := view.cursor.records.countP fun it => !it.2.isPruned

def writeRecord (keys : PubKeys) (it : CoinsRecord) : List UInt8 :=
  writeUInt256 it.1 ++ it.2.serialize keys

/-- The outcomes of the output of `WriteUTXOSnapshot`. -/
structure WriteSnapshotIo where
  openFile : Bool := true
  metadata : Option String := none
  coins : Option String := none
  close : Bool := true
  rename : Option String := none

/-- `WriteUTXOSnapshot`, while nobody writes to the view: the number of coins, and the file. -/
def writeUTXOSnapshot (params : SnapshotParams) (io : WriteSnapshotIo) (path : String)
    (view : Option CCoinsView) (base_hash : UInt256) : Except String (ℕ × List UInt8) :=
  match view with
  | none => .error "No coins view"
  | some view =>
    if base_hash = 0 then .error "Base block hash is null"
    else
      let expected := countCoins view
      let path_tmp := path ++ ".tmp"
      if !io.openFile then .error ("Could not open " ++ path_tmp ++ " for writing")
      else
        let metadata : SnapshotMetadata := ⟨params.messageStart, base_hash, expected⟩
        match io.metadata with
        | some what => .error ("Failed to write snapshot metadata: " ++ what)
        | none =>
          let dumped := view.cursor.records.filter fun it => !it.2.isPruned
          let written := dumped.length
          match io.coins with
          | some what => .error ("Failed while writing coins: " ++ what)
          | none =>
            if written ≠ expected then
              .error ("Coin count mismatch while writing (wrote " ++ toString written ++
                ", expected " ++ toString expected ++ ")")
            else if !io.close then
              .error ("Error closing temporary snapshot file " ++ path_tmp)
            else
              match io.rename with
              | some what => .error ("Failed to rename snapshot into place: " ++ what)
              | none => .ok (written, metadata.serialize ++ dumped.flatMap (writeRecord params.keys))

/-- A `CChainState`, as far as a snapshot is loaded into it. -/
structure SnapshotSlot where
  active_role : Bool
  coinsTip : Option CCoinsViewCache
  tip : Option UInt256
  has_snapshot : Bool
  snapshot_base_hash : UInt256
  snapshot_coins_count : ℕ
  snapshot_coins_hash : UInt256

namespace SnapshotSlot
def idle : SnapshotSlot := ⟨false, none, none, false, 0, 0, 0⟩

def resetCoinsDB (bg : SnapshotSlot) : SnapshotSlot := { idle with active_role := bg.active_role }

/-- `AllocateCoinsDB`, which wipes what is in the directory. -/
def allocateCoinsDB (openDb : Bool) (bg : SnapshotSlot) : Bool × SnapshotSlot :=
  if bg.active_role && !bg.has_snapshot then (false, bg)
  else if !openDb then (false, bg.resetCoinsDB)
  else (true, { bg.resetCoinsDB with coinsTip := some (.ofBase (.db ∅ 0)) })

end SnapshotSlot

/-- Everything that `LoadUTXOSnapshot` checks before it allocates the database. -/
def admitSnapshot (params : SnapshotParams) (path : String) (bg : Option SnapshotSlot)
    (file : Option (List UInt8)) : Except String (SnapshotSlot × SnapshotMetadata × List UInt8) :=
  match bg with
  | none => .error "Background chainstate not initialized"
  | some bg =>
    if bg.coinsTip.isSome && bg.has_snapshot then
      .error "Background chainstate already holds a loaded snapshot (restart to load another)"
    else if bg.coinsTip.isSome then .error "Background chainstate is not idle"
    else
      match file with
      | none => .error ("Could not open snapshot file " ++ path)
      | some file =>
        match SnapshotMetadata.unserialize file with
        | .error what => .error ("Unable to parse snapshot metadata: " ++ what)
        | .ok (metadata, afile) =>
          if metadata.network_magic ≠ params.messageStart then
            .error "Snapshot network magic does not match this node's chain"
          else if metadata.base_blockhash = 0 then .error "Snapshot base block hash is null"
          else if metadata.coins_count > 500000000 then
            .error ("Snapshot coins_count " ++ toString metadata.coins_count ++
              " looks unreasonable")
          else .ok (bg, metadata, afile)

def readCoinsError (loaded coins_count : ℕ) (what : String) : String :=
  "Failed while reading snapshot coins (loaded " ++ toString loaded ++ " of " ++
    toString coins_count ++ "): " ++ what

/-- The exception of `CCoinsViewCache::BatchWrite`. -/
def misappliedFresh : String :=
  "FRESH flag misapplied to cache entry for base transaction with spendable outputs"

/-- The loop of `LoadUTXOSnapshot`, with `left` records to go. -/
def loadCoins (keys : PubKeys) (coins_count : ℕ) : (left loaded : ℕ) → CCoinsViewCache →
    List UInt8 → Except String CCoinsViewCache
  | 0, _, cache, _ => .ok cache
  | left + 1, loaded, cache, afile =>
    match (do
      let txid ← readUInt256
      let coins ← unserialize keys
      pure (txid, coins) : Reader (UInt256 × CCoins)) afile with
    | none => .error (readCoinsError loaded coins_count SnapshotMetadata.endOfFile)
    | some ((txid, coins), afile) =>
      if coins.isPruned then
        .error ("Snapshot contains pruned coins for tx " ++ txid.toHex)
      else
        let cache := cache.modify txid fun _ => coins
        let loaded := loaded + 1
        if loaded % 5000 = 0 then
          match cache.flush with
          | none => .error (readCoinsError loaded coins_count misappliedFresh)
          | some cache => loadCoins keys coins_count left loaded cache afile
        else loadCoins keys coins_count left loaded cache afile

/-- What `LoadUTXOSnapshot` reports. -/
structure LoadedSnapshot where
  coins_loaded : ℕ
  base_hash : UInt256
  base_height : ℤ
  deriving DecidableEq

def loadUTXOSnapshot (params : SnapshotParams) (openDb : Bool) (path : String)
    (bg : Option SnapshotSlot) (file : Option (List UInt8)) :
    Outcome (Option SnapshotSlot × String) (SnapshotSlot × LoadedSnapshot) :=
  match admitSnapshot params path bg file with
  | .error error => .fail (bg, error)
  | .ok (bg, metadata, afile) =>
    let (allocated, bg) := bg.allocateCoinsDB openDb
    if !allocated then
      .fail (some bg, "Failed to allocate background coins database (chainstate_snapshot)")
    else
      match bg.coinsTip with
      | none => .fail (some bg.resetCoinsDB, "Background coins tip cache missing after allocate")
      | some cache =>
        match loadCoins params.keys metadata.coins_count metadata.coins_count 0 cache afile with
        | .error error => .fail (some bg.resetCoinsDB, error)
        | .ok cache =>
          match (cache.setBestBlock metadata.base_blockhash).flush with
          | none => .abort
          | some cache =>
            let height := params.mapBlockIndex metadata.base_blockhash
            let bg := { bg with
              tip := if height.isSome then some metadata.base_blockhash else bg.tip
              has_snapshot := true
              snapshot_base_hash := metadata.base_blockhash
              snapshot_coins_count := metadata.coins_count }
            match cache.flush with
            | none => .abort
            | some cache =>
              match computeCoinsHashSerialized params.getHash (some cache.toView) with
              | .error hash_err =>
                .fail (some bg.resetCoinsDB, "Failed to hash loaded snapshot coins: " ++ hash_err)
              | .ok coins_hash =>
                .ok ({ bg with coinsTip := some cache, snapshot_coins_hash := coins_hash },
                  ⟨metadata.coins_count, metadata.base_blockhash, height.getD (-1)⟩)

/-! ### What the digest is taken of -/

theorem reads_uint256 (hash : UInt256) : Reads readUInt256 (writeUInt256 hash) hash := by
  refine (reads_littleEndian 32 hash.toNat hash.isLt).bind_pure hash ?_
  rw [BitVec.ofNat_toNat, BitVec.setWidth_eq]

namespace CCoins
variable {a b : CCoins}

theorem mem_outputs : (out, i) ∈ a.outputs ↔ a.unspent i = some out := by
  rw [outputs, mem_filter, mem_zipIdx_iff_getElem?, unspent_eq_some]
  simp

theorem unspent_eq_of_outputs (same : a.outputs = b.outputs) (i : ℕ) : a.unspent i = b.unspent i := by
  refine Option.ext fun _ => ?_
  rw [← mem_outputs, ← mem_outputs, same]

structure Hashable (c : CCoins) : Prop where
  positions : c.vout.length < 2 ^ 32
  scripts : ∀ out ∈ c.vout, out.scriptPubKey.length < 2 ^ 64

/-- The same unspent outputs, of a transaction of the same height and kind. -/
structure SameConsensus (a b : CCoins) : Prop where
  unspent : ∀ i, a.unspent i = b.unspent i
  nHeight : a.nHeight = b.nHeight
  fCoinBase : a.fCoinBase = b.fCoinBase

end CCoins

/-- An output is read back from the digest's input, and so is the end of the outputs. -/
def readHashOutput : Reader (Option (CTxOut × ℕ)) := do
  let n ← readVarInt 32
  if n = 0 then pure none
  else
    let nValue ← readLittleEndian 8
    let nSize ← Reader.byte >>= readCompactSize.rest
    let script ← Reader.bytes nSize
    pure (some (⟨(UInt64.ofNat nValue).toInt64, script⟩, n - 1))

theorem reads_hashOutput (position : it.2 + 1 < 2 ^ 32)
    (script : it.1.scriptPubKey.length < 2 ^ 64) :
    Reads readHashOutput (hashOutput it) (some it) := by
  have value := it.1.nValue.toUInt64.toNat_lt
  unfold hashOutput CTxOut.write writeVector
  rw [Nat.mod_eq_of_lt position, flatMap_singleton']
  refine Reads.bind (reads_varInt (by decide) position) ?_
  refine Reads.bind (reads_littleEndian 8 _ value) (Reads.bind (reads_sizeRest script) ?_)
  refine (Reads.bytes it.1.scriptPubKey).bind_pure _ ?_
  rw [UInt64.ofNat_toNat]
  rfl

theorem reads_hashOutput_end : Reads readHashOutput (writeVarIntInt 0) none :=
  (reads_varInt (n := 0) (by decide) (by decide)).bind_pure none rfl

private theorem delimits_hashRecord : Delimits (fun it : CoinsRecord => it.2.Hashable) hashRecord
    fun it => (it.1, it.2.outputs) := by
  have key : Delimits (fun it : CoinsRecord => it.2.Hashable) (fun it => writeUInt256 it.1)
      fun it => it.1 :=
    .of_reads fun it _ => reads_uint256 it.1
  have outputs : Delimits (fun outs => ∀ it ∈ outs, it.2 + 1 < 2 ^ 32 ∧
      it.1.scriptPubKey.length < 2 ^ 64) (fun outs => outs.flatMap hashOutput ++ writeVarIntInt 0)
      (map id) :=
    .terminated (fun it bounds => reads_hashOutput bounds.1 bounds.2) reads_hashOutput_end
  have both := key.append outputs fun it hashable _ mem => by
    obtain ⟨here, -⟩ := unspent_eq_some.1 (mem_outputs.1 mem)
    obtain ⟨_, -⟩ := List.getElem?_eq_some_iff.1 here
    have positions := hashable.positions
    exact ⟨by omega, hashable.scripts _ (mem_of_getElem? here)⟩
  simp only [map_id] at both
  exact both

namespace CCoinsView
variable {v w : CCoinsView} {txid : UInt256}

instance total_keyLe : Std.Total keyLe := ⟨fun _ _ => List.le_total _ _⟩

instance trans_keyLe : IsTrans CoinsRecord keyLe := ⟨fun _ _ _ => List.le_trans⟩

/-- Nothing waits in a cache: the view shows what its cursor gives. -/
def Flushed (v : CCoinsView) : Prop :=
  ∀ txid, v.shown txid = seen isPruned (v.cursor.records.dlookup txid)

theorem nodupKeys_cursor (v : CCoinsView) : v.cursor.records.NodupKeys := by
  induction v with
  | db coins _ =>
    exact (perm_nodupKeys (perm_insertionSort keyLe coins.entries)).2 coins.nodupKeys
  | cache _ _ _ ih => exact ih

theorem pairwise_cursor (v : CCoinsView) : v.cursor.records.Pairwise keyLe := by
  induction v with
  | db coins _ => exact pairwise_insertionSort keyLe coins.entries
  | cache _ _ _ ih => exact ih

theorem dlookup_cursor_db :
    (cursor (.db coins bestBlock)).records.dlookup txid = coins.lookup txid :=
  perm_dlookup txid (nodupKeys_cursor (.db coins bestBlock))
    (perm_insertionSort keyLe coins.entries)

theorem flushed_db : Flushed (.db coins bestBlock) := by
  intro _
  rw [dlookup_cursor_db]
  rfl

private theorem outputs_of_preimage (hashableV : ∀ it ∈ v.cursor.records, it.2.Hashable)
    (hashableW : ∀ it ∈ w.cursor.records, it.2.Hashable)
    (same : v.cursor.preimage = w.cursor.preimage) :
    v.cursor.records.map (fun it => (it.1, it.2.outputs)) =
      w.cursor.records.map fun it => (it.1, it.2.outputs) := by
  obtain ⟨-, records⟩ := (reads_uint256 v.cursor.hashBlock).split (reads_uint256 w.cursor.hashBlock) same
  refine delimits_hashRecord.flatMap (fun it none => ?_) hashableV hashableW records
  have length := congrArg length none
  rw [hashRecord, writeUInt256, length_append, length_littleEndian, length_nil] at length
  omega

end CCoinsView

private theorem dlookup_outputs {rs ss : List CoinsRecord}
    (same : rs.map (fun it => (it.1, it.2.outputs)) = ss.map fun it => (it.1, it.2.outputs))
    (txid : UInt256) :
    Option.Rel (fun a b => a.outputs = b.outputs) (rs.dlookup txid) (ss.dlookup txid) := by
  induction rs generalizing ss with
  | nil =>
    rw [map_nil, eq_comm, map_eq_nil_iff] at same
    rw [same]
    exact .none
  | cons r rs ih =>
    cases ss with
    | nil => cases same
    | cons s ss =>
      rw [map_cons, map_cons, cons.injEq, Prod.mk.injEq] at same
      obtain ⟨⟨key, outputs⟩, rest⟩ := same
      by_cases here : txid = r.1
      · rw [here, dlookup_cons_eq, key, dlookup_cons_eq]
        exact .some outputs
      · rw [dlookup_cons_ne rs r here, dlookup_cons_ne ss s (key ▸ here)]
        exact ih rest

namespace CCoinsView
variable {v w : CCoinsView}

private theorem seen_outputs (same : Option.Rel (fun a b => outputs a = outputs b) x y) :
    Option.Rel (fun a b => ∀ i, unspent a i = unspent b i) (seen isPruned x) (seen isPruned y) := by
  cases same with
  | none => exact .none
  | @some a b outputs =>
    have unspent := unspent_eq_of_outputs outputs
    have pruned : a.isPruned = b.isPruned := by
      rw [Bool.eq_iff_iff, isPruned_iff, isPruned_iff]
      simp [unspent]
    cases gone : a.isPruned with
    | true =>
      rw [seen_some_of_gone gone, seen_some_of_gone (pruned ▸ gone)]
      exact .none
    | false =>
      rw [seen_some_of_there gone, seen_some_of_there (pruned ▸ gone)]
      exact .some unspent

/-- Flushed views with the same input of the digest have the same coins exactly where the height and
the kind of the transaction, which the digest leaves out, are the same. -/
theorem sameConsensus_iff_of_preimage (flushedV : v.Flushed) (flushedW : w.Flushed)
    (hashableV : ∀ it ∈ v.cursor.records, it.2.Hashable)
    (hashableW : ∀ it ∈ w.cursor.records, it.2.Hashable)
    (same : v.cursor.preimage = w.cursor.preimage) :
    (∀ txid, Option.Rel CCoins.SameConsensus (v.shown txid) (w.shown txid)) ↔
      ∀ txid a b, v.shown txid = some a → w.shown txid = some b →
        a.nHeight = b.nHeight ∧ a.fCoinBase = b.fCoinBase := by
  have outputs := outputs_of_preimage hashableV hashableW same
  constructor
  · intro coins txid a b shownV shownW
    have here := coins txid
    rw [shownV, shownW] at here
    obtain ⟨both⟩ := here
    exact ⟨both.nHeight, both.fCoinBase⟩
  intro agree txid
  have unspent := seen_outputs (dlookup_outputs outputs txid)
  rw [← flushedV txid, ← flushedW txid] at unspent
  cases shownV : v.shown txid with
  | none =>
    rw [shownV] at unspent
    cases shownW : w.shown txid with
    | none => exact .none
    | some b =>
      rw [shownW] at unspent
      cases unspent
  | some a =>
    rw [shownV] at unspent
    cases shownW : w.shown txid with
    | none =>
      rw [shownW] at unspent
      cases unspent
    | some b =>
      rw [shownW] at unspent
      obtain ⟨outs⟩ := unspent
      obtain ⟨nHeight, fCoinBase⟩ := agree txid a b shownV shownW
      exact .some ⟨outs, nHeight, fCoinBase⟩

def single (fCoinBase : Bool) (nHeight : Int32) : CCoinsView :=
  .db (AList.singleton 2 ⟨fCoinBase, [⟨5, [0x51]⟩], nHeight, 1⟩) 1

/-- The same output with a spent one behind it, in a transaction of another version. -/
def spentBehind : CCoinsView := .db (AList.singleton 2 ⟨true, [⟨5, [0x51]⟩, .null], 7, 2⟩) 1

theorem sameConsensus_iff_of_preimage_spentBehind :
    (single true 7).cursor.preimage = spentBehind.cursor.preimage ∧
      ∀ txid, Option.Rel CCoins.SameConsensus ((single true 7).shown txid)
        (spentBehind.shown txid) := by
  have hashable : (∀ it ∈ (single true 7).cursor.records, it.2.Hashable) ∧
      ∀ it ∈ spentBehind.cursor.records, it.2.Hashable := by
    constructor <;>
    · intro it member
      obtain rfl := mem_singleton.1 member
      exact ⟨by decide, by decide⟩
  have same : (single true 7).cursor.preimage = spentBehind.cursor.preimage := by decide
  refine ⟨same, (sameConsensus_iff_of_preimage flushed_db flushed_db hashable.1 hashable.2 same).2
    fun txid _ _ shownV shownW => ?_⟩
  rw [(shown_singleton 1 shownV).2, (shown_singleton 1 shownW).2]
  exact ⟨rfl, rfl⟩

/-- A coinbase output of height 7 and another output of height 9 have the same digest. -/
theorem preimage_not_sameConsensus : (single true 7).cursor.preimage = (single false 9).cursor.preimage ∧
    ¬ ∀ txid, Option.Rel CCoins.SameConsensus ((single true 7).shown txid)
      ((single false 9).shown txid) := by
  refine ⟨by decide, fun same => ?_⟩
  have here := same 2
  obtain ⟨both⟩ := here
  exact absurd both.fCoinBase (by decide)

end CCoinsView
end DogecoinCore.Coins
