import DogecoinCore.BlockIndex

/-! The templates of merge mining (`rpc/auxpow.cpp`, `rpc/auxcache.cpp`). A template is cached for
each payout script, but whether it is renewed is decided by one time and one count of mempool
changes, which the template of any script resets: they speak for the last template made only. -/
namespace DogecoinCore
open Option List
namespace AuxMining
variable {Script Id : Type} (scriptID : Script → Id)

/-- A block template. The last two fields, the time in microseconds it was made at and the number
of mempool changes before it, are kept to speak of its age: the code records them nowhere. -/
structure CBlock (Script : Type) where
  scriptPubKey : Script
  hashPrevBlock : UInt256
  nBits : UInt32
  hash : UInt256
  made : ℕ
  changes : ℕ

structure AuxCacheItem (Script Id : Type) where
  cache_time : ℕ
  scriptId : Id
  pblock : CBlock Script

/-- The static variables of `AuxMiningCreateBlock` and what it reads of the node. The cache is in
the order of insertion. -/
structure Miner (Script Id : Type) where
  nTransactionsUpdatedLast : UInt32
  pindexPrev : Option UInt256
  nStart : ℕ
  auxBlockCache : List (AuxCacheItem Script Id)
  tip : UInt256
  changes : ℕ
  micros : ℕ

/-- One call: what `AuxMiningCheck` throws, the hash and the bits of the block that
`CreateNewBlock` assembles, and the microseconds it takes for that. -/
structure Call (Script : Type) where
  scriptPubKey : Script
  auxMiningCheck : Option String
  newBlock : Option (UInt256 × UInt32)
  took : ℕ

/-- `Get` goes to the first item of the script that is not from the future in the order of age;
of items of the same age the first inserted is the first. -/
def get [DecidableEq Id] (cache : List (AuxCacheItem Script Id)) (scriptId : Id) (now : ℕ) :
    Option (CBlock Script) :=
  ((cache.filter fun item => item.scriptId = scriptId ∧ item.cache_time ≤ now).argmax
    (·.cache_time)).map (·.pblock)

def add (cache : List (AuxCacheItem Script Id)) (item : AuxCacheItem Script Id) :
    List (AuxCacheItem Script Id) :=
  if cache.any (·.pblock.hash = item.pblock.hash) then cache else cache ++ [item]

/-- The target of `SetCompact` is negative, overflows or is zero. -/
def invalidBits (nBits : UInt32) : Bool :=
  let nSize := (nBits >>> 24).toNat
  let nWord := (nBits &&& 0x007fffff).toNat >>> (8 * (3 - nSize))
  let target : UInt256 := BitVec.ofNat 256 nWord <<< (8 * (nSize - 3))
  (nWord ≠ 0 && nBits &&& 0x00800000 ≠ 0) || (nWord ≠ 0 && (34 < nSize ||
    (0xff < nWord && 33 < nSize) || (0xffff < nWord && 32 < nSize))) || target = 0

namespace Miner
variable {scriptID} {s : Miner Script Id} {c : Call Script} {t : CBlock Script}

def getTime (s : Miner Script Id) : ℕ := s.micros / 1000000

def expired (s : Miner Script Id) : Prop :=
  UInt32.ofNat s.changes ≠ s.nTransactionsUpdatedLast ∧
    (s.getTime < s.nStart ∨ s.nStart + 60 < s.getTime)

instance (s : Miner Script Id) : Decidable s.expired := inferInstanceAs (Decidable (_ ∧ _))

def createNewBlock (s : Miner Script Id) (c : Call Script) (hash : UInt256) (nBits : UInt32) :
    CBlock Script :=
  ⟨c.scriptPubKey, s.tip, nBits, hash, s.micros + c.took, s.changes⟩

/-- The caches are cleared when the tip is another, also when no block is made afterwards. -/
def current (s : Miner Script Id) : List (AuxCacheItem Script Id) :=
  if s.pindexPrev = some s.tip then s.auxBlockCache else []

variable (scriptID) in
def update (s : Miner Script Id) (c : Call Script) (pblock : CBlock Script) : Miner Script Id :=
  { s with
    nTransactionsUpdatedLast := UInt32.ofNat s.changes
    pindexPrev := some s.tip
    nStart := pblock.made / 1000000
    auxBlockCache := add s.current ⟨pblock.made, scriptID c.scriptPubKey, pblock⟩
    micros := s.micros + c.took }

def reply (pblock : CBlock Script) : Except String (CBlock Script) :=
  if invalidBits pblock.nBits then .error "invalid difficulty bits in block" else .ok pblock

theorem reply_ok (ok : reply pblock = .ok t) : pblock = t := by
  unfold reply at ok
  split at ok
  · cases ok
  · exact Except.ok.inj ok

theorem mem_current (mem : item ∈ s.current) :
    s.pindexPrev = some s.tip ∧ item ∈ s.auxBlockCache := by
  unfold current at mem
  split at mem
  · exact ⟨‹_›, mem⟩
  · cases mem

variable (scriptID) in
/-- The cached templates are on the block of the last one, each under its own script, and the time
and the count are those of the last. -/
structure Kept (s : Miner Script Id) : Prop where
  own : ∀ item ∈ s.auxBlockCache, item.scriptId = scriptID item.pblock.scriptPubKey ∧
    s.pindexPrev = some item.pblock.hashPrevBlock
  last : ∀ pblock ∈ s.auxBlockCache.getLast?.map (·.pblock), pblock.made / 1000000 = s.nStart ∧
    UInt32.ofNat pblock.changes = s.nTransactionsUpdatedLast

theorem Kept.update (kept : s.Kept scriptID) {hash : UInt256}
    (unused : s.pindexPrev = some s.tip → ∀ item ∈ s.auxBlockCache, item.pblock.hash ≠ hash) :
    (s.update scriptID c (s.createNewBlock c hash nBits)).Kept scriptID := by
  have added : (s.update scriptID c (s.createNewBlock c hash nBits)).auxBlockCache =
      s.current ++ [⟨s.micros + c.took, scriptID c.scriptPubKey, s.createNewBlock c hash nBits⟩] := by
    refine if_neg fun held => ?_
    obtain ⟨item, mem, same⟩ := any_eq_true.1 held
    obtain ⟨tip, cached⟩ := mem_current mem
    exact unused tip item cached (of_decide_eq_true same)
  constructor
  case own =>
    rw [added]
    intro item mem
    obtain old | new := mem_append.1 mem
    · obtain ⟨tip, cached⟩ := mem_current old
      obtain ⟨pays, on⟩ := kept.own item cached
      exact ⟨pays, tip.symm.trans on⟩
    · rw [mem_singleton.1 new]
      exact ⟨rfl, rfl⟩
  case last =>
    rw [added]
    simp [Miner.update, createNewBlock]

variable [DecidableEq Id]

variable (scriptID) in
def auxMiningCreateBlock (s : Miner Script Id) (c : Call Script) :
    Miner Script Id × Except String (CBlock Script) :=
  match c.auxMiningCheck with
  | some message => (s, .error message)
  | none =>
    match get s.auxBlockCache (scriptID c.scriptPubKey) s.micros,
      decide (s.pindexPrev ≠ some s.tip ∨ s.expired) with
    | some pblock, false => (s, reply pblock)
    | _, _ =>
      match c.newBlock with
      | none => ({ s with auxBlockCache := s.current }, .error "out of memory")
      | some (hash, nBits) =>
        let pblock := s.createNewBlock c hash nBits
        (s.update scriptID c pblock, reply pblock)

inductive Event (Script : Type) where
  | mempool (n : ℕ)
  | tip (hash : UInt256)
  | clock (micros : ℕ)
  | call (c : Call Script)

variable (scriptID) in
def step (s : Miner Script Id) : Event Script → Miner Script Id
  | .mempool n => { s with changes := s.changes + n }
  | .tip hash => { s with tip := hash }
  | .clock micros => { s with micros := s.micros + micros }
  | .call c => (s.auxMiningCreateBlock scriptID c).1

def started (tip : UInt256) (changes micros : ℕ) : Miner Script Id :=
  ⟨0, none, 0, [], tip, changes, micros⟩

/-- The template pays the script, builds on the tip and is at most sixty seconds old or younger than
the last change of the mempool. -/
def Fresh (s : Miner Script Id) (c : Call Script) (t : CBlock Script) : Prop :=
  t.scriptPubKey = c.scriptPubKey ∧ t.hashPrevBlock = s.tip ∧
    (s.getTime ≤ t.made / 1000000 + 60 ∨ t.changes = s.changes)

variable (scriptID) in
/-- While the tip stays, the template found for the script is the last that was made, since when
the count of changes has not come round; no two blocks have one hash. -/
def Served (s : Miner Script Id) (c : Call Script) : Prop :=
  s.pindexPrev = some s.tip →
    (∀ block ∈ c.newBlock, ∀ item ∈ s.auxBlockCache, item.pblock.hash ≠ block.1) ∧
    ∀ pblock ∈ get s.auxBlockCache (scriptID c.scriptPubKey) s.micros,
      pblock ∈ s.auxBlockCache.getLast?.map (·.pblock) ∧
      (UInt32.ofNat pblock.changes = UInt32.ofNat s.changes → pblock.changes = s.changes)

variable (scriptID) in
def Meets : Miner Script Id → List (Event Script) → Prop
  | _, [] => True
  | s, .call c :: events => s.Served scriptID c ∧ (s.step scriptID (.call c)).Meets events
  | s, e :: events => (s.step scriptID e).Meets events

theorem get_mem {id : Id} {now : ℕ} (found : get cache id now = some t) :
    ∃ item ∈ cache, item.scriptId = id ∧ item.pblock = t := by
  obtain ⟨item, newest, rfl⟩ := map_eq_some_iff.1 found
  obtain ⟨mem, ok⟩ := mem_filter.1 (argmax_mem newest)
  exact ⟨item, mem, (of_decide_eq_true ok).1, rfl⟩

variable (scriptID) in
private theorem createBlock_cases (s : Miner Script Id) (c : Call Script) :
    (∃ message, s.auxMiningCreateBlock scriptID c = (s, .error message) ∨
      s.auxMiningCreateBlock scriptID c = ({ s with auxBlockCache := s.current }, .error message)) ∨
    (∃ pblock, get s.auxBlockCache (scriptID c.scriptPubKey) s.micros = some pblock ∧
      s.pindexPrev = some s.tip ∧ ¬ s.expired ∧
      s.auxMiningCreateBlock scriptID c = (s, reply pblock)) ∨
    ∃ hash nBits, c.newBlock = some (hash, nBits) ∧ s.auxMiningCreateBlock scriptID c =
      (s.update scriptID c (s.createNewBlock c hash nBits),
        reply (s.createNewBlock c hash nBits)) := by
  unfold auxMiningCreateBlock
  split
  · exact .inl ⟨_, .inl rfl⟩
  split
  case h_1 pblock found current =>
    obtain ⟨same, young⟩ := not_or.1 (of_decide_eq_false current)
    exact .inr (.inl ⟨pblock, found, not_not.1 same, young, rfl⟩)
  · split
    · exact .inl ⟨_, .inr rfl⟩
    · exact .inr (.inr ⟨_, _, ‹_›, rfl⟩)

theorem Kept.call (kept : s.Kept scriptID) (served : s.Served scriptID c) :
    (s.auxMiningCreateBlock scriptID c).1.Kept scriptID := by
  obtain ⟨_, failed | failed⟩ | ⟨_, _, _, _, cached⟩ | ⟨_, _, made, updated⟩ :=
    createBlock_cases scriptID s c
  · rwa [failed]
  · rw [failed, current]
    split
    · exact kept
    · constructor <;> simp
  · rwa [cached]
  · rw [updated]
    exact kept.update fun same => (served same).1 _ made

theorem Kept.run (kept : s.Kept scriptID)
    (meets : s.Meets scriptID events) : (events.foldl (step scriptID) s).Kept scriptID := by
  induction events generalizing s with
  | nil => exact kept
  | cons e events ih =>
    cases e with
    | call _ => exact ih (kept.call meets.1) meets.2
    | _ => exact ih ⟨kept.own, kept.last⟩ meets

/-- In a run whose calls are all served, each returned template is fresh: a cached one is the last
made, so the time and the count that were tested are its own. -/
theorem auxMiningCreateBlock_fresh (injective : Function.Injective scriptID) {tip : UInt256}
    {changes micros : ℕ} {events : List (Event Script)}
    (meets : (started tip changes micros).Meets scriptID events)
    (ran : events.foldl (step scriptID) (started tip changes micros) = s)
    (served : s.Served scriptID c) (returned : (s.auxMiningCreateBlock scriptID c).2 = .ok t) :
    s.Fresh c t := by
  have kept := ran ▸ Kept.run (by constructor <;> simp [started]) meets
  obtain ⟨_, failed | failed⟩ | ⟨pblock, found, same, young, cached⟩ | ⟨_, _, _, updated⟩ :=
    createBlock_cases scriptID s c
  · simp [failed] at returned
  · simp [failed] at returned
  · rw [cached] at returned
    obtain rfl := reply_ok returned
    obtain ⟨last, round⟩ := (served same).2 pblock found
    obtain ⟨item, member, mine, rfl⟩ := get_mem found
    obtain ⟨pays, on⟩ := kept.own item member
    obtain ⟨_, counted⟩ := kept.last _ last
    refine ⟨injective (pays.symm.trans mine), mem_unique on same, ?_⟩
    by_cases changed : UInt32.ofNat s.changes = s.nTransactionsUpdatedLast
    · exact .inr (round (counted.trans changed.symm))
    · have recent := not_or.1 (not_and.1 young changed)
      omega
  rw [updated] at returned
  rw [← reply_ok returned]
  exact ⟨rfl, rfl, .inr rfl⟩

/-- The template is asked for again thirty seconds later, after a change of the mempool. -/
theorem auxMiningCreateBlock_fresh_again : ∃ (events : List (Event ℕ)) (t : CBlock ℕ),
    t.hash = 1 ∧ (events.foldl (step id) (started 3 0 1)).Fresh ⟨7, none, none, 0⟩ t := by
  have first : (started 3 0 1).Served id ⟨7, none, some (1, 0x1d00ffff), 5⟩ := by
    intro none
    cases none
  have meets : (started 3 0 1).Meets id
      [.call ⟨7, none, some (1, 0x1d00ffff), 5⟩, .mempool 1, .clock 30000000] := ⟨first, trivial⟩
  refine ⟨_, ⟨7, 3, 0x1d00ffff, 1, 6, 0⟩, rfl, auxMiningCreateBlock_fresh Function.injective_id
    meets rfl (fun _ => ⟨by simp, fun pblock found => ?_⟩) rfl⟩
  obtain rfl := some.inj (show some ⟨7, 3, 0x1d00ffff, 1, 6, 0⟩ = some pblock from found)
  exact ⟨rfl, by decide⟩

/-- A template for another script takes the change of the mempool as seen, and the first script is
given its template of before the change at any age. -/
theorem auxMiningCreateBlock_stale : ∃ s t,
    s = ([.call ⟨7, none, some (1, 0x1d00ffff), 5⟩, .mempool 1, .clock 61000000,
      .call ⟨8, none, some (2, 0x1d00ffff), 5⟩, .clock 100000000] : List (Event ℕ)).foldl
        (step id) (started 3 0 1) ∧
    (s.auxMiningCreateBlock id ⟨7, none, none, 0⟩).2 = .ok t ∧ ¬ s.Fresh ⟨7, none, none, 0⟩ t := by
  refine ⟨_, ⟨7, 3, 0x1d00ffff, 1, 6, 0⟩, rfl, rfl, fun fresh => ?_⟩
  obtain late | older := fresh.2.2
  · exact absurd late (by decide)
  · exact absurd older (by decide)

end Miner
end AuxMining
end DogecoinCore
