import DogecoinCore.Transaction
import DogecoinCore.Worklist
import Mathlib.Algebra.BigOperators.Group.List.Basic
import Mathlib.Data.UInt

/-! The memory pool: `CTxMemPool` with its entries, the links between them, the index
of spent outpoints and the vector compact blocks are matched against. An iterator
into `mapTx` is the entry's transaction id, sets of iterators are lists without
repetitions, and a loop that updates each element of such a set is one pointwise
update. Sizes, counts and fees have the machine's 64 bits. The assertions that such an
update makes are noted in the pool; an operation in which one fails does not return. -/
namespace DogecoinCore
open Function UInt64

instance int64AddCommGroup : AddCommGroup Int64 where
  add_assoc := Int64.add_assoc
  zero_add := Int64.zero_add
  add_zero := Int64.add_zero
  add_comm := Int64.add_comm
  neg_add_cancel := Int64.add_left_neg
  sub_eq_add_neg := Int64.sub_eq_add_neg
  nsmul := nsmulRec
  zsmul := zsmulRec

/-- `nTxSize` is what `GetTxSize` returns; it depends on the transaction and its
sigop cost alone. -/
structure CTxMemPoolEntry where
  tx : CTransaction
  nFee : CAmount
  nTime : Int64
  spendsCoinbase : Bool
  sigOpCost : Int64
  nTxSize : UInt64
  feeDelta : Int64
  nCountWithDescendants : UInt64
  nSizeWithDescendants : UInt64
  nModFeesWithDescendants : CAmount
  nCountWithAncestors : UInt64
  nSizeWithAncestors : UInt64
  nModFeesWithAncestors : CAmount
  nSigOpCostWithAncestors : Int64
  deriving DecidableEq, Repr, Inhabited

namespace CTxMemPoolEntry
def create (tx : CTransaction) (nFee : CAmount) (nTime : Int64) (spendsCoinbase : Bool)
    (sigOpCost : Int64) (nTxSize : UInt64) : CTxMemPoolEntry where
  tx := tx
  nFee := nFee
  nTime := nTime
  spendsCoinbase := spendsCoinbase
  sigOpCost := sigOpCost
  nTxSize := nTxSize
  feeDelta := 0
  nCountWithDescendants := 1
  nSizeWithDescendants := nTxSize
  nModFeesWithDescendants := nFee
  nCountWithAncestors := 1
  nSizeWithAncestors := nTxSize
  nModFeesWithAncestors := nFee
  nSigOpCostWithAncestors := sigOpCost

def getModifiedFee (e : CTxMemPoolEntry) : CAmount := e.nFee + e.feeDelta

def updateFeeDelta (newFeeDelta : Int64) (e : CTxMemPoolEntry) : CTxMemPoolEntry :=
  { e with
    nModFeesWithDescendants := e.nModFeesWithDescendants + (newFeeDelta - e.feeDelta)
    nModFeesWithAncestors := e.nModFeesWithAncestors + (newFeeDelta - e.feeDelta)
    feeDelta := newFeeDelta }

def updateDescendantState (modifySize : UInt64) (modifyFee : CAmount) (modifyCount : UInt64)
    (e : CTxMemPoolEntry) : CTxMemPoolEntry :=
  { e with
    nSizeWithDescendants := e.nSizeWithDescendants + modifySize
    nModFeesWithDescendants := e.nModFeesWithDescendants + modifyFee
    nCountWithDescendants := e.nCountWithDescendants + modifyCount }

/-- What `UpdateDescendantState` asserts of the new values. -/
def descendantsAsserted (e : CTxMemPoolEntry) : Bool :=
  0 < e.nSizeWithDescendants.toInt64 && 0 < e.nCountWithDescendants.toInt64

/-- The sigop cost comes in as an `int`. -/
def updateAncestorState (modifySize : UInt64) (modifyFee : CAmount) (modifyCount : UInt64)
    (modifySigOps : Int32) (e : CTxMemPoolEntry) : CTxMemPoolEntry :=
  { e with
    nSizeWithAncestors := e.nSizeWithAncestors + modifySize
    nModFeesWithAncestors := e.nModFeesWithAncestors + modifyFee
    nCountWithAncestors := e.nCountWithAncestors + modifyCount
    nSigOpCostWithAncestors := e.nSigOpCostWithAncestors + modifySigOps.toInt64 }

/-- What `UpdateAncestorState` asserts of the new values. -/
def ancestorsAsserted (e : CTxMemPoolEntry) : Bool :=
  0 < e.nSizeWithAncestors.toInt64 && 0 < e.nCountWithAncestors.toInt64 &&
    0 ≤ e.nSigOpCostWithAncestors.toInt32

end CTxMemPoolEntry

/-- `entry`, `parents` and `children` are read at the ids in `mapTx`; the last two are
`mapLinks`. `mapNextTx` names the spending transaction by its id. `asserted` says that no assertion
has failed. -/
structure CTxMemPool where
  mapTx : List UInt256
  entry : UInt256 → CTxMemPoolEntry
  parents : UInt256 → List UInt256
  children : UInt256 → List UInt256
  mapNextTx : List (COutPoint × UInt256)
  mapDeltas : UInt256 → Option CAmount
  vTxHashes : List (UInt256 × UInt256)
  vTxHashesIdx : UInt256 → ℕ
  totalTxSize : UInt64
  asserted : Bool

/-- The limits of `CalculateMemPoolAncestors`. -/
structure AncestorLimits where
  ancestorCount : UInt64
  ancestorSize : UInt64
  descendantCount : UInt64
  descendantSize : UInt64

/-- `nNoLimit` for each of them. -/
def AncestorLimits.nNoLimit : AncestorLimits :=
  let max : UInt64 := 0xffffffffffffffff
  ⟨max, max, max, max⟩

namespace CTxMemPool
open CTxMemPoolEntry

def empty : CTxMemPool where
  mapTx := []
  entry _ := default
  parents _ := []
  children _ := []
  mapNextTx := []
  mapDeltas _ := none
  vTxHashes := []
  vTxHashesIdx _ := 0
  totalTxSize := 0
  asserted := true

/-- `mapTx.modify` of one entry, with what is asserted of its new value. -/
def modify (p : CTxMemPool) (it : UInt256) (f : CTxMemPoolEntry → CTxMemPoolEntry)
    (assertion : CTxMemPoolEntry → Bool) : CTxMemPool :=
  { p with
    entry := update p.entry it (f (p.entry it))
    asserted := p.asserted && assertion (f (p.entry it)) }

/-- `mapTx.modify` of each entry of a set. -/
def modifyAll (p : CTxMemPool) (its : List UInt256) (f : CTxMemPoolEntry → CTxMemPoolEntry)
    (assertion : CTxMemPoolEntry → Bool) : CTxMemPool :=
  { p with
    entry := fun x => if x ∈ its then f (p.entry x) else p.entry x
    asserted := p.asserted && its.all fun x => assertion (f (p.entry x)) }

/-- `insert` or `erase` of a set of iterators. -/
def putLink (add : Bool) (it : UInt256) (s : List UInt256) : List UInt256 :=
  if add then s.insert it else s.filter (· ≠ it)

def updateChild (add : Bool) (child : UInt256) (p : CTxMemPool) (entry : UInt256) : CTxMemPool :=
  { p with children := update p.children entry (putLink add child (p.children entry)) }

def updateParent (add : Bool) (parent : UInt256) (p : CTxMemPool) (entry : UInt256) : CTxMemPool :=
  { p with parents := update p.parents entry (putLink add parent (p.parents entry)) }

/-- `none` when the walk takes more turns than there are entries. -/
def calculateDescendants (p : CTxMemPool) (entryit : UInt256) (setDescendants : List UInt256) :
    Option (List UInt256) :=
  (Worklist.walk p.children (fun _ => none) (fun _ _ _ => true) (p.mapTx.length + 1)
    (if entryit ∈ setDescendants then [] else [entryit]) setDescendants).join

/-- The loop `for (it : its) CalculateDescendants(it, setDescendants)`. -/
def calculateAllDescendants (p : CTxMemPool) (its setDescendants : List UInt256) :
    Option (List UInt256) :=
  its.foldlM (fun done it => p.calculateDescendants it done) setDescendants

/-- The parents of a transaction that are in the pool, found by its inputs; `none` when there are
too many. -/
def searchForParents (p : CTxMemPool) (limit : UInt64) :
    List CTxIn → List UInt256 → Option (List UInt256)
  | [], parentHashes => some parentHashes
  | i :: rest, parentHashes =>
    if i.prevout.hash ∈ p.mapTx then
      let parentHashes := parentHashes.insert i.prevout.hash
      if ofNat parentHashes.length + 1 > limit then none
      else p.searchForParents limit rest parentHashes
    else p.searchForParents limit rest parentHashes

/-- The tests `CalculateMemPoolAncestors` makes when it takes `stageit` off the stage. -/
def withinLimits (p : CTxMemPool) (limits : AncestorLimits) (e : CTxMemPoolEntry)
    (stageit : UInt256) (parentHashes setAncestors : List UInt256) : Bool :=
  let totalSizeWithAncestors := e.nTxSize + (setAncestors.map fun a => (p.entry a).nTxSize).sum
  !((p.entry stageit).nSizeWithDescendants + e.nTxSize > limits.descendantSize)
    && !((p.entry stageit).nCountWithDescendants + 1 > limits.descendantCount)
    && !(totalSizeWithAncestors > limits.ancestorSize)
    && ((p.parents stageit).isEmpty
      || !(ofNat (parentHashes.length + setAncestors.length) + 1 > limits.ancestorCount))

/-- `some none` is the return value `false`. -/
def calculateMemPoolAncestors (p : CTxMemPool) (limits : AncestorLimits) (e : CTxMemPoolEntry)
    (fSearchForParents : Bool) : Option (Option (List UInt256)) :=
  let parentHashes :=
    if fSearchForParents then p.searchForParents limits.ancestorCount e.tx.vin []
    else some (p.parents e.tx.hash)
  match parentHashes with
  | none => some none
  | some parentHashes =>
    Worklist.walk p.parents (fun _ => none) (p.withinLimits limits e) (p.mapTx.length + 1)
      parentHashes []

def updateAncestorsOf (p : CTxMemPool) (add : Bool) (it : UInt256) (setAncestors : List UInt256) :
    CTxMemPool :=
  let p := (p.parents it).foldl (updateChild add it) p
  let e := p.entry it
  if add then
    p.modifyAll setAncestors (·.updateDescendantState e.nTxSize e.getModifiedFee 1)
      descendantsAsserted
  else
    p.modifyAll setAncestors (·.updateDescendantState (-e.nTxSize) (-e.getModifiedFee) (-1))
      descendantsAsserted

def updateEntryForAncestors (p : CTxMemPool) (it : UInt256) (setAncestors : List UInt256) :
    CTxMemPool :=
  p.modify it (·.updateAncestorState (setAncestors.map fun a => (p.entry a).nTxSize).sum
    (setAncestors.map fun a => (p.entry a).getModifiedFee).sum
    (ofNat setAncestors.length)
    (setAncestors.map fun a => (p.entry a).sigOpCost).sum.toInt32) ancestorsAsserted

def updateChildrenForRemoval (p : CTxMemPool) (it : UInt256) : CTxMemPool :=
  (p.children it).foldl (updateParent false it) p

/-- `UpdateForRemoveFromMempool`: the first loop takes `it` out of its descendants. -/
def updateDescendantsForRemoval (p : CTxMemPool) (it : UInt256) : Option CTxMemPool := do
  let setDescendants ← p.calculateDescendants it []
  let e := p.entry it
  some (p.modifyAll (setDescendants.filter (· ≠ it))
    (·.updateAncestorState (-e.nTxSize) (-e.getModifiedFee) (-1) (-e.sigOpCost).toInt32)
    ancestorsAsserted)

/-- `UpdateForRemoveFromMempool`: the part under `if (updateDescendants)`. -/
def updateAllDescendantsForRemoval (p : CTxMemPool) (entriesToRemove : List UInt256)
    (updateDescendants : Bool) : Option CTxMemPool :=
  if updateDescendants then entriesToRemove.foldlM updateDescendantsForRemoval p else some p

/-- `UpdateForRemoveFromMempool`: the second loop takes `it` out of its ancestors. -/
def updateAncestorsForRemoval (p : CTxMemPool) (it : UInt256) : Option CTxMemPool := do
  let setAncestors ← (← p.calculateMemPoolAncestors .nNoLimit (p.entry it) false)
  some (p.updateAncestorsOf false it setAncestors)

def updateForRemoveFromMempool (p : CTxMemPool) (entriesToRemove : List UInt256)
    (updateDescendants : Bool) : Option CTxMemPool := do
  let p ← p.updateAllDescendantsForRemoval entriesToRemove updateDescendants
  let p ← entriesToRemove.foldlM updateAncestorsForRemoval p
  some (entriesToRemove.foldl updateChildrenForRemoval p)

/-- `mapNextTx.insert`, which keeps an element that is there. -/
def insertNext (m : List (COutPoint × UInt256)) (o : COutPoint) (hash : UInt256) :
    List (COutPoint × UInt256) :=
  if (m.lookup o).isSome then m else (o, hash) :: m

/-- `mapTx.insert(entry).first` with an empty element of `mapLinks` and the fee delta. -/
def insertEntry (p : CTxMemPool) (e : CTxMemPoolEntry) : CTxMemPool :=
  let hash := e.tx.hash
  let p :=
    if hash ∈ p.mapTx then p
    else
      { p with
        mapTx := hash :: p.mapTx
        entry := update p.entry hash e
        parents := update p.parents hash []
        children := update p.children hash [] }
  match p.mapDeltas hash with
  | none => p
  | some delta => if delta ≠ 0 then p.modify hash (·.updateFeeDelta delta) (fun _ => true) else p

/-- The loops over the inputs in `addUnchecked`: the spent outpoints and the parents in the pool. -/
def linkInputs (p : CTxMemPool) (hash : UInt256) : CTxMemPool :=
  let vin := (p.entry hash).tx.vin
  let p := { p with mapNextTx := vin.foldl (fun m i => insertNext m i.prevout hash) p.mapNextTx }
  ((vin.map (·.prevout.hash)).filter (· ∈ p.mapTx)).foldl
    (fun p phash => p.updateParent true phash hash) p

def addUnchecked (p : CTxMemPool) (e : CTxMemPoolEntry) (setAncestors : List UInt256) :
    CTxMemPool :=
  let hash := e.tx.hash
  let p := p.insertEntry e
  let p := p.linkInputs hash
  let p := p.updateAncestorsOf true hash setAncestors
  let p := p.updateEntryForAncestors hash setAncestors
  { p with
    totalTxSize := p.totalTxSize + e.nTxSize
    vTxHashes := p.vTxHashes ++ [((p.entry hash).tx.witnessHash, hash)]
    vTxHashesIdx := update p.vTxHashesIdx hash p.vTxHashes.length }

/-- The last element of `vTxHashes` moves to the place of the one removed. -/
def removeUnchecked (p : CTxMemPool) (it : UInt256) : CTxMemPool :=
  let e := p.entry it
  let idx := p.vTxHashesIdx it
  let p :=
    match p.vTxHashes.getLast? with
    | some back =>
      if p.vTxHashes.length > 1 then
        { p with
          vTxHashes := (p.vTxHashes.set idx back).dropLast
          vTxHashesIdx := update p.vTxHashesIdx back.2 idx }
      else { p with vTxHashes := [] }
    | none => p
  { p with
    mapNextTx := p.mapNextTx.filter fun s => !e.tx.vin.any (·.prevout = s.1)
    totalTxSize := p.totalTxSize - e.nTxSize
    parents := update p.parents it []
    children := update p.children it []
    mapTx := p.mapTx.filter (· ≠ it) }

def removeStaged (p : CTxMemPool) (stage : List UInt256) (updateDescendants : Bool) :
    Option CTxMemPool := do
  let p ← p.updateForRemoveFromMempool stage updateDescendants
  some (stage.foldl removeUnchecked p)

/-- The end of `removeRecursive`, `removeForReorg`, `Expire` and of a turn of `TrimToSize`: entries
go with all their descendants. -/
def removeWithDescendants (p : CTxMemPool) (its : List UInt256) : Option CTxMemPool := do
  let setAllRemoves ← p.calculateAllDescendants its []
  p.removeStaged setAllRemoves false

/-- The entries `removeRecursive` starts from: the transaction itself, or else what spends its
outputs. -/
def rootsOf (p : CTxMemPool) (origTx : CTransaction) : List UInt256 :=
  if origTx.hash ∈ p.mapTx then [origTx.hash]
  else ((List.range origTx.vout.length).filterMap fun n =>
    p.mapNextTx.lookup ⟨origTx.hash, UInt32.ofNat n⟩).foldl (fun roots next => roots.insert next) []

def removeRecursive (p : CTxMemPool) (origTx : CTransaction) : Option CTxMemPool :=
  p.removeWithDescendants (p.rootsOf origTx)

def clearPrioritisation (p : CTxMemPool) (hash : UInt256) : CTxMemPool :=
  { p with mapDeltas := update p.mapDeltas hash none }

/-- `removeConflicts` for one input of the transaction `hash`. -/
def removeConflict (hash : UInt256) (p : CTxMemPool) (i : CTxIn) : Option CTxMemPool :=
  match p.mapNextTx.lookup i.prevout with
  | none => some p
  | some conflict =>
    if conflict ≠ hash then
      (p.clearPrioritisation conflict).removeRecursive (p.entry conflict).tx
    else some p

def removeConflicts (p : CTxMemPool) (tx : CTransaction) : Option CTxMemPool :=
  tx.vin.foldlM (removeConflict tx.hash) p

/-- `removeForBlock`: a transaction of the block leaves the pool. -/
def removeConfirmed (p : CTxMemPool) (tx : CTransaction) : Option CTxMemPool :=
  if tx.hash ∈ p.mapTx then p.removeStaged [tx.hash] true else some p

/-- The loop of `removeForBlock` for one transaction. -/
def removeForTransaction (p : CTxMemPool) (tx : CTransaction) : Option CTxMemPool := do
  let p ← p.removeConfirmed tx
  let p ← p.removeConflicts tx
  some (p.clearPrioritisation tx.hash)

def removeForBlock (p : CTxMemPool) (vtx : List CTransaction) : Option CTxMemPool :=
  vtx.foldlM removeForTransaction p

def expire (p : CTxMemPool) (time : Int64) : Option CTxMemPool :=
  p.removeWithDescendants (p.mapTx.filter fun it => (p.entry it).nTime < time)

/-- What `TrimToSize` reads of the containers: the memory they use, and the first entry by
descendant score. -/
structure TrimPolicy where
  dynamicMemoryUsage : CTxMemPool → ℕ
  worst : CTxMemPool → UInt256
  /-- The first element of the index is an entry. -/
  worst_mem : ∀ p, p.mapTx ≠ [] → worst p ∈ p.mapTx

/-- One turn of the loop in `TrimToSize`. -/
def trimTurn (policy : TrimPolicy) (sizelimit : ℕ) (p : CTxMemPool) :
    Turn CTxMemPool (Option CTxMemPool) :=
  if p.mapTx ≠ [] ∧ policy.dynamicMemoryUsage p > sizelimit then
    match p.removeWithDescendants [policy.worst p] with
    | some p' => .again p'
    | none => .leave none
  else .leave (some p)

def trimToSize (policy : TrimPolicy) (sizelimit : ℕ) (p : CTxMemPool) : Option CTxMemPool :=
  (iterate (trimTurn policy sizelimit) (p.mapTx.length + 1) p).join

/-- `_clear` leaves `vTxHashes` and `mapDeltas` as they are. -/
def clear (p : CTxMemPool) : CTxMemPool :=
  { p with
    mapTx := []
    parents := fun _ => []
    children := fun _ => []
    mapNextTx := []
    totalTxSize := 0 }

def prioritiseTransaction (p : CTxMemPool) (hash : UInt256) (nFeeDelta : CAmount) :
    Option CTxMemPool := do
  let delta := (p.mapDeltas hash).getD 0 + nFeeDelta
  let p := { p with mapDeltas := update p.mapDeltas hash (some delta) }
  if hash ∈ p.mapTx then
    let p := p.modify hash (·.updateFeeDelta delta) fun _ => true
    let setAncestors ← (← p.calculateMemPoolAncestors .nNoLimit (p.entry hash) false)
    let p := p.modifyAll setAncestors (·.updateDescendantState 0 nFeeDelta 0) descendantsAsserted
    let setDescendants ← p.calculateDescendants hash []
    some (p.modifyAll (setDescendants.filter (· ≠ hash)) (·.updateAncestorState 0 nFeeDelta 0 0)
      ancestorsAsserted)
  else some p

/-- The walk of `UpdateForDescendants`, which adds the remembered descendants of entries handled
before. -/
def walkDescendants (p : CTxMemPool) (updateIt : UInt256)
    (cachedDescendants : UInt256 → Option (List UInt256)) : Option (List UInt256) :=
  (Worklist.walk p.children cachedDescendants (fun _ _ _ => true) (p.mapTx.length + 1)
    (p.children updateIt) []).join

def updateForDescendants (p : CTxMemPool) (updateIt : UInt256)
    (cachedDescendants : UInt256 → Option (List UInt256)) (setExclude : List UInt256) :
    Option (CTxMemPool × (UInt256 → Option (List UInt256))) := do
  let setAllDescendants ← p.walkDescendants updateIt cachedDescendants
  let outside := setAllDescendants.filter (· ∉ setExclude)
  let e := p.entry updateIt
  let modifySize := (outside.map fun d => (p.entry d).nTxSize).sum
  let modifyFee := (outside.map fun d => (p.entry d).getModifiedFee).sum
  let cachedDescendants :=
    if outside = [] then cachedDescendants
    else update cachedDescendants updateIt
      (some (outside.foldl (fun s d => s.insert d) ((cachedDescendants updateIt).getD [])))
  let p := p.modifyAll outside
    (·.updateAncestorState e.nTxSize e.getModifiedFee 1 e.sigOpCost.toInt32) ancestorsAsserted
  let p := p.modify updateIt
    (·.updateDescendantState modifySize modifyFee (ofNat outside.length)) descendantsAsserted
  some (p, cachedDescendants)

/-- The entries that spend outputs of `hash`, in the order of `mapNextTx`. -/
def spendersOf (p : CTxMemPool) (hash : UInt256) : List UInt256 :=
  ((p.mapNextTx.filter (·.1.hash = hash)).map Prod.snd).foldl (fun s c => s.insert c) []

/-- The loop of `UpdateTransactionsFromBlock` for one entry. -/
def updateFromBlock (setAlreadyIncluded : List UInt256)
    (s : CTxMemPool × (UInt256 → Option (List UInt256))) (hash : UInt256) :
    Option (CTxMemPool × (UInt256 → Option (List UInt256))) :=
  if hash ∈ s.1.mapTx then
    let outside := (s.1.spendersOf hash).filter (· ∉ setAlreadyIncluded)
    let p := outside.foldl (fun p c => (p.updateChild true c hash).updateParent true hash c) s.1
    p.updateForDescendants hash s.2 setAlreadyIncluded
  else some s

def updateTransactionsFromBlock (p : CTxMemPool) (vHashesToUpdate : List UInt256) :
    Option CTxMemPool := do
  let s ← vHashesToUpdate.reverse.foldlM (updateFromBlock vHashesToUpdate) (p, fun _ => none)
  some s.1

end CTxMemPool

end DogecoinCore
