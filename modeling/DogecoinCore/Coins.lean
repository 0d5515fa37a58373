import DogecoinCore.Transaction
import DogecoinCore.WriteBack
import Mathlib.Data.List.AList
import Mathlib.Data.List.DropRight

/-! The coins: `CCoins`, the stack of `CCoinsViewCache` layers over the coins database and the
flag protocol between them. A view is what a `CCoinsView` pointer leads to; a lookup
returns the view as well, since it fills the caches it passes. The byte counts kept for
`DynamicMemoryUsage` are left out. -/
namespace DogecoinCore.Coins
/-- `OP_RETURN` comes first, or the script is longer than
`MAX_SCRIPT_SIZE`. -/
def CScript.isUnspendable (script : CScript) : Bool :=
  script.head? == some 0x6a || decide (10000 < script.length)

structure CCoins where
  fCoinBase : Bool
  vout : List CTxOut
  nHeight : Int32
  nVersion : Int32
  deriving DecidableEq, Repr, Inhabited

namespace CCoins
/-- The empty constructor; `Clear` leaves the same. -/
def empty : CCoins where
  fCoinBase := false
  vout := []
  nHeight := 0
  nVersion := 0

def cleanup (c : CCoins) : CCoins := { c with vout := c.vout.rdropWhile (·.isNull) }

def clearUnspendable (c : CCoins) : CCoins :=
  cleanup { c with
    vout := c.vout.map fun txout =>
      if CScript.isUnspendable txout.scriptPubKey then .null else txout }

def fromTx (tx : CTransaction) (nHeight : Int32) : CCoins :=
  clearUnspendable
    { fCoinBase := tx.isCoinBase, vout := tx.vout, nHeight := nHeight, nVersion := tx.nVersion }

def isPruned (c : CCoins) : Bool := c.vout.all (·.isNull)

/-- The output `nPos`, if there is one that is not spent: `IsAvailable` and the access to
`vout[nPos]` it guards. -/
def available (c : CCoins) (nPos : UInt32) : Option CTxOut :=
  c.vout[nPos.toNat]?.filter fun out => !out.isNull

def isAvailable (c : CCoins) (nPos : UInt32) : Bool := (c.available nPos).isSome

/-- The coins afterwards, or `none` where it returns false. -/
def spend (c : CCoins) (nPos : UInt32) : Option CCoins :=
  if c.isAvailable nPos then some (cleanup { c with vout := c.vout.set nPos.toNat .null })
  else none

end CCoins

/-- The coins with the flags `DIRTY` and `FRESH`. -/
abbrev CCoinsCacheEntry := WriteBack.Entry CCoins

abbrev CCoinsMap := AList fun _ : UInt256 => CCoinsCacheEntry

abbrev CoinsRecords := AList fun _ : UInt256 => CCoins

/-- A `CCoinsView`: the database, or a cache over another view. -/
inductive CCoinsView where
  | db (coins : CoinsRecords) (bestBlock : UInt256)
  | cache (cacheCoins : CCoinsMap) (hashBlock : UInt256) (base : CCoinsView)

namespace CCoinsMap
/-- The entry `FetchCoins` inserts for what the base has found. -/
def fill (m : CCoinsMap) (txid : UInt256) : Option CCoins → CCoinsMap
  | none => m
  | some coins => m.insert txid (WriteBack.filled CCoins.isPruned coins)

/-- One turn of the loop in `CCoinsViewCache::BatchWrite`; `none` is its exception about a
misapplied `FRESH`. -/
def writeEntry (m : CCoinsMap) (it : Sigma fun _ : UInt256 => CCoinsCacheEntry) :
    Option CCoinsMap :=
  if it.2.dirty then
    match m.lookup it.1 with
    | none =>
      if it.2.fresh && it.2.value.isPruned then some m
      else some (m.insert it.1 ⟨it.2.value, true, it.2.fresh⟩)
    | some itUs =>
      if it.2.fresh && !itUs.value.isPruned then none
      else if itUs.fresh && it.2.value.isPruned then some (m.erase it.1)
      -- FRESH of the child is not copied: the pruned state may still be news further down
      else some (m.insert it.1 ⟨it.2.value, true, itUs.fresh⟩)
  else some m

end CCoinsMap

/-- One turn of the loop in `CCoinsViewDB::BatchWrite`. -/
def CoinsRecords.writeEntry (coins : CoinsRecords)
    (it : Sigma fun _ : UInt256 => CCoinsCacheEntry) : CoinsRecords :=
  if it.2.dirty then
    if it.2.value.isPruned then coins.erase it.1 else coins.insert it.1 it.2.value
  else coins

namespace CCoinsView
def getCoins : CCoinsView → UInt256 → Option CCoins × CCoinsView
  | .db coins bestBlock, txid => (coins.lookup txid, .db coins bestBlock)
  | .cache cacheCoins hashBlock base, txid =>
    match cacheCoins.lookup txid with
    | some it => (some it.value, .cache cacheCoins hashBlock base)
    | none =>
      let (found, base) := base.getCoins txid
      (found, .cache (cacheCoins.fill txid found) hashBlock base)

/-- A cache without a best block asks its base and remembers the answer. -/
def getBestBlock : CCoinsView → UInt256 × CCoinsView
  | .db coins bestBlock => (bestBlock, .db coins bestBlock)
  | .cache cacheCoins hashBlock base =>
    if hashBlock = 0 then
      let (bestBlock, base) := base.getBestBlock
      (bestBlock, .cache cacheCoins bestBlock base)
    else (hashBlock, .cache cacheCoins hashBlock base)

def batchWrite : CCoinsView → CCoinsMap → UInt256 → Option CCoinsView
  | .db coins bestBlock, mapCoins, hashBlock =>
    some (.db (mapCoins.entries.foldl CoinsRecords.writeEntry coins)
      (if hashBlock = 0 then bestBlock else hashBlock))
  | .cache cacheCoins _ base, mapCoins, hashBlock => do
    let cacheCoins ← mapCoins.entries.foldlM CCoinsMap.writeEntry cacheCoins
    some (.cache cacheCoins hashBlock base)

end CCoinsView

structure CCoinsViewCache where
  cacheCoins : CCoinsMap
  hashBlock : UInt256
  base : CCoinsView

namespace CCoinsViewCache
def toView (c : CCoinsViewCache) : CCoinsView := .cache c.cacheCoins c.hashBlock c.base

/-- The constructor: an empty cache on `base`. -/
def ofBase (base : CCoinsView) : CCoinsViewCache where
  cacheCoins := ∅
  hashBlock := 0
  base := base

def fetchCoins (c : CCoinsViewCache) (txid : UInt256) : Option CCoins × CCoinsViewCache :=
  match c.cacheCoins.lookup txid with
  | some it => (some it.value, c)
  | none =>
    let (found, base) := c.base.getCoins txid
    (found, { c with cacheCoins := c.cacheCoins.fill txid found, base := base })

def getCoins (c : CCoinsViewCache) (txid : UInt256) : Option CCoins × CCoinsViewCache :=
  c.fetchCoins txid

def accessCoins (c : CCoinsViewCache) (txid : UInt256) : Option CCoins × CCoinsViewCache :=
  c.fetchCoins txid

/-- It looks for an empty `vout` instead of calling `IsPruned`. -/
def haveCoins (c : CCoinsViewCache) (txid : UInt256) : Bool × CCoinsViewCache :=
  let (found, c) := c.fetchCoins txid
  (found.any fun coins => !coins.vout.isEmpty, c)

/-- The entry the modifier holds, and the cache it will be returned to. -/
def modifyCoins (c : CCoinsViewCache) (txid : UInt256) : CCoinsCacheEntry × CCoinsViewCache :=
  match c.cacheCoins.lookup txid with
  | some it => ({ it with dirty := true }, c)
  | none =>
    let (found, base) := c.base.getCoins txid
    (match found with
      | none => ⟨.empty, true, true⟩
      | some coins => ⟨coins, true, coins.isPruned⟩,
      { c with base := base })

/-- `none` is its exception about coins that are already there. -/
def modifyNewCoins (c : CCoinsViewCache) (txid : UInt256) (coinbase : Bool) :
    Option CCoinsCacheEntry :=
  let it := (c.cacheCoins.lookup txid).getD ⟨.empty, false, false⟩
  if coinbase then some ⟨.empty, true, it.fresh⟩
  else if !it.value.isPruned then none
  else some ⟨.empty, true, it.fresh || !it.dirty⟩

/-- `~CCoinsModifier`. -/
def endModify (c : CCoinsViewCache) (txid : UInt256) (it : CCoinsCacheEntry) : CCoinsViewCache :=
  let it := { it with value := it.value.cleanup }
  if it.fresh && it.value.isPruned then { c with cacheCoins := c.cacheCoins.erase txid }
  else { c with cacheCoins := c.cacheCoins.insert txid it }

/-- A modifier's life: `ModifyCoins`, what is done to the coins, and its destruction. -/
def modify (c : CCoinsViewCache) (txid : UInt256) (f : CCoins → CCoins) : CCoinsViewCache :=
  let (it, c) := c.modifyCoins txid
  c.endModify txid { it with value := f it.value }

/-- The same for `ModifyNewCoins`. -/
def modifyNew (c : CCoinsViewCache) (txid : UInt256) (coinbase : Bool) (f : CCoins → CCoins) :
    Option CCoinsViewCache := do
  let it ← c.modifyNewCoins txid coinbase
  some (c.endModify txid { it with value := f it.value })

def getBestBlock (c : CCoinsViewCache) : UInt256 × CCoinsViewCache :=
  if c.hashBlock = 0 then
    let (bestBlock, base) := c.base.getBestBlock
    (bestBlock, { c with hashBlock := bestBlock, base := base })
  else (c.hashBlock, c)

def setBestBlock (c : CCoinsViewCache) (hashBlock : UInt256) : CCoinsViewCache :=
  { c with hashBlock := hashBlock }

def flush (c : CCoinsViewCache) : Option CCoinsViewCache := do
  let base ← c.base.batchWrite c.cacheCoins c.hashBlock
  some { c with cacheCoins := ∅, base := base }

def uncache (c : CCoinsViewCache) (txid : UInt256) : CCoinsViewCache :=
  match c.cacheCoins.lookup txid with
  | none => c
  | some it => if it.dirty || it.fresh then c else { c with cacheCoins := c.cacheCoins.erase txid }

def haveInputs (c : CCoinsViewCache) (tx : CTransaction) : Bool × CCoinsViewCache :=
  if tx.isCoinBase then (true, c) else go c tx.vin
where
  go (c : CCoinsViewCache) : List CTxIn → Bool × CCoinsViewCache
  | [] => (true, c)
  | txin :: rest =>
    let (coins, c) := c.accessCoins txin.prevout.hash
    if coins.any (·.isAvailable txin.prevout.n) then go c rest else (false, c)

/-- `none` is its assertion. -/
def getOutputFor (c : CCoinsViewCache) (input : CTxIn) : Option CTxOut × CCoinsViewCache :=
  let (coins, c) := c.accessCoins input.prevout.hash
  (coins.bind (·.available input.prevout.n), c)

def getValueIn (c : CCoinsViewCache) (tx : CTransaction) : Option CAmount × CCoinsViewCache :=
  if tx.isCoinBase then (some 0, c) else go c 0 tx.vin
where
  go (c : CCoinsViewCache) (nResult : CAmount) : List CTxIn → Option CAmount × CCoinsViewCache
  | [] => (some nResult, c)
  | txin :: rest =>
    match c.getOutputFor txin with
    | (none, c) => (none, c)
    | (some out, c) => go c (nResult + out.nValue) rest

end CCoinsViewCache

end DogecoinCore.Coins
