import DogecoinCore.CoinsCodec
import DogecoinCore.Control
import Mathlib.Data.UInt

/-! A block against the coins: the checks of `CheckBlock`, the loop of `ConnectBlock` with
`UpdateCoins`, and `DisconnectBlock` with `ApplyTxInUndo`. What the script interpreter, the
version bits and the disk answer is free. -/
namespace DogecoinCore.Coins
def MAX_BLOCK_BASE_SIZE : ℕ := 1000000

def MAX_BLOCK_SIGOPS_COST : Int64 := 80000

def WITNESS_SCALE_FACTOR : ℕ := 4

def refuse (failed : Bool) (reason : String) : Except String Unit :=
  if failed then .error reason else .ok ()

/-- The loop over the outputs in `CheckTransaction`. -/
def checkOutputs : (nValueOut : CAmount) → List CTxOut → Except String Unit
  | _, [] => .ok ()
  | nValueOut, txout :: rest => do
    refuse (txout.nValue < 0) "bad-txns-vout-negative"
    refuse (txout.nValue > MAX_MONEY) "bad-txns-vout-toolarge"
    refuse (!moneyRange (nValueOut + txout.nValue)) "bad-txns-txouttotal-toolarge"
    checkOutputs (nValueOut + txout.nValue) rest

/-- `CheckTransaction`, with the check for duplicate inputs. -/
def checkTransaction (tx : CTransaction) : Except String Unit := do
  refuse tx.vin.isEmpty "bad-txns-vin-empty"
  refuse tx.vout.isEmpty "bad-txns-vout-empty"
  refuse (tx.baseSize > MAX_BLOCK_BASE_SIZE) "bad-txns-oversize"
  checkOutputs 0 tx.vout
  refuse (!(tx.vin.map (·.prevout)).Nodup) "bad-txns-inputs-duplicate"
  if tx.isCoinBase then
    refuse (tx.vin.any fun i => i.scriptSig.length < 2 || i.scriptSig.length > 100) "bad-cb-length"
  else refuse (tx.vin.any (·.prevout.isNull)) "bad-txns-prevout-null"

/-- A block with its transactions. `headerError` is what `CheckBlockHeader` and the comparison with
the merkle root have against it, and `headerSize` the length of its header with the auxpow. -/
structure CBlock where
  hash : UInt256
  vtx : List CTransaction
  headerSize : ℕ := 80
  headerError : Option String := none

def checkBlock (legacySigOpCount : CTransaction → UInt32) (block : CBlock) : Except String Unit := do
  refuse block.headerError.isSome (block.headerError.getD "")
  refuse (block.vtx.isEmpty || block.vtx.length > MAX_BLOCK_BASE_SIZE ||
    block.headerSize + getSizeOfCompactSize block.vtx.length + (block.vtx.map (·.baseSize)).sum >
      MAX_BLOCK_BASE_SIZE) "bad-blk-length"
  refuse (!block.vtx.head?.any (·.isCoinBase)) "bad-cb-missing"
  refuse (block.vtx.tail.any (·.isCoinBase)) "bad-cb-multiple"
  block.vtx.forM checkTransaction
  refuse ((block.vtx.map legacySigOpCount).sum * WITNESS_SCALE_FACTOR.toUInt32 >
    MAX_BLOCK_SIGOPS_COST.toUInt64.toUInt32) "bad-blk-sigops"

/-- The fields of `Consensus::Params` that the block reward depends on, and the generator of the
old rewards. -/
structure SubsidyParams where
  nSubsidyHalvingInterval : Int32
  fSimplifiedRewards : Bool
  generateMTRandom : ℕ → Int32 → Int32

def COIN : CAmount := 100000000

def getDogecoinBlockSubsidy (params : SubsidyParams) (nHeight : Int32) (prevHash : UInt256) :
    CAmount :=
  let halvings := nHeight / params.nSubsidyHalvingInterval
  if !params.fSimplifiedRewards then
    let seed := (prevHash >>> 200).toNat % 2 ^ 28
    let maxReward := (1000000 >>> halvings) - 1
    (1 + params.generateMTRandom seed maxReward).toInt64 * COIN
  else if nHeight < 6 * params.nSubsidyHalvingInterval then (500000 * COIN) >>> halvings.toInt64
  else 10000 * COIN

/-- What `ConnectBlock` reads apart from the block and the coins: the block's place in the index,
the chain parameters, and the answers of the script code and of the disk. -/
structure ConnectContext where
  nHeight : Int32
  hashPrevBlock : UInt256
  hashGenesisBlock : UInt256
  fJustCheck : Bool := false
  subsidy : SubsidyParams
  nCoinbaseMaturity : Int32 → Int32
  /-- Every network sets it to 30 or more. -/
  nCoinbaseMaturity_pos : ∀ height, 0 < nCoinbaseMaturity height
  /-- Off above the block of BIP 34 on the known chain. -/
  fEnforceBIP30 : Bool := true
  legacySigOpCount : CTransaction → UInt32
  /-- `GetTransactionSigOpCost` of a transaction and the outputs it spends. -/
  sigOpCost : CTransaction → List CTxOut → Int64
  /-- `SequenceLocks`, given the heights of the coins that are spent. -/
  sequenceLocks : CTransaction → List Int32 → Bool
  /-- What `CScriptCheck` has against an input and the output it spends. -/
  scriptError : CTransaction → ℕ → CTxOut → Option String
  fScriptChecks : Bool := true
  /-- Script checks are queued for other threads and awaited at the end. -/
  queueScripts : Bool := false
  /-- The index has no position for the undo data yet. -/
  undoPosNull : Bool := true
  /-- `FindUndoPos` and `UndoWriteToDisk` succeed. -/
  writeUndo : Bool := true
  /-- The transaction index is off, or written. -/
  writeTxIndex : Bool := true

/-- `ConnectBlock` has returned false: the view it leaves, and the reason it gave. -/
structure Rejected where
  view : CCoinsViewCache
  reason : String

/-- The variables of the loop in `ConnectBlock`. -/
structure ConnectLoop where
  view : CCoinsViewCache
  nFees : CAmount
  nSigOpsCost : Int64
  vtxundo : CBlockUndo
  /-- Whether the script checks that were queued succeed. -/
  queued : Bool

def orAbort {α : Type} : Option α → Outcome Rejected α
  | some a => .ok a
  | none => .abort

def orReject (view : CCoinsViewCache) : Except String Unit → Outcome Rejected Unit
  | .ok () => .ok ()
  | .error reason => .fail ⟨view, reason⟩

/-- `AccessCoins` for every input. -/
def CCoinsViewCache.accessInputs (view : CCoinsViewCache) :
    List CTxIn → List (Option CCoins) × CCoinsViewCache
  | [] => ([], view)
  | txin :: rest =>
    let (coins, view) := view.accessCoins txin.prevout.hash
    let (others, view) := view.accessInputs rest
    (coins :: others, view)

def spentOutput (txin : CTxIn) (coins : Option CCoins) : CTxOut :=
  (coins.bind (·.available txin.prevout.n)).getD .null

/-- `HaveInputs` and the lock times relative to the coins that are spent. -/
def checkFinal (ctx : ConnectContext) (tx : CTransaction) (view : CCoinsViewCache) :
    Outcome Rejected CCoinsViewCache := do
  let (found, view) := view.haveInputs tx
  orReject view (refuse (!found) "bad-txns-inputs-missingorspent")
  let (coins, view) := view.accessInputs tx.vin
  let prevheights := coins.map fun c => (c.getD .empty).nHeight
  orReject view (refuse (!ctx.sequenceLocks tx prevheights) "bad-txns-nonfinal")
  .ok view

/-- The loop over the inputs in `CheckTxInputs`; it ends with the value of all of them. -/
def checkTxInputsLoop (ctx : ConnectContext) (nSpendHeight : Int32) :
    (nValueIn : CAmount) → List CTxIn → CCoinsViewCache →
      Outcome Rejected (CAmount × CCoinsViewCache)
  | nValueIn, [], view => .ok (nValueIn, view)
  | nValueIn, txin :: rest, view => do
    let (coins, view) := view.accessCoins txin.prevout.hash
    let coins ← orAbort coins
    let immature := coins.fCoinBase &&
      nSpendHeight - coins.nHeight < ctx.nCoinbaseMaturity coins.nHeight
    orReject view (refuse immature "bad-txns-premature-spend-of-coinbase")
    let nValue := (spentOutput txin coins).nValue
    orReject view (refuse (!moneyRange nValue || !moneyRange (nValueIn + nValue))
      "bad-txns-inputvalues-outofrange")
    checkTxInputsLoop ctx nSpendHeight (nValueIn + nValue) rest view

def checkTxInputs (ctx : ConnectContext) (tx : CTransaction) (nSpendHeight : Int32)
    (view : CCoinsViewCache) : Outcome Rejected CCoinsViewCache := do
  let (found, view) := view.haveInputs tx
  orReject view (refuse (!found) "")
  let (nValueIn, view) ← checkTxInputsLoop ctx nSpendHeight 0 tx.vin view
  let nValueOut ← orAbort tx.getValueOut
  orReject view (refuse (nValueIn < nValueOut) "bad-txns-in-belowout")
  let nTxFee := nValueIn - nValueOut
  orReject view (refuse (nTxFee < 0) "bad-txns-fee-negative")
  orReject view (refuse (!moneyRange nTxFee) "bad-txns-fee-outofrange")
  .ok view

/-- What the script checks of a transaction find, for the coins of its inputs. -/
def scriptErrors (ctx : ConnectContext) (tx : CTransaction) (coins : List (Option CCoins)) :
    List String :=
  (tx.vin.zip coins).zipIdx.filterMap fun (p, i) => ctx.scriptError tx i (spentOutput p.1 p.2)

/-- `CheckInputs`, in `ConnectBlock`: the new view, and whether the queued checks succeed. The view is
at the previous block, so `GetSpendHeight` is the block's height. -/
def checkInputs (ctx : ConnectContext) (tx : CTransaction) (view : CCoinsViewCache) :
    Outcome Rejected (CCoinsViewCache × Bool) := do
  let view ← checkTxInputs ctx tx ctx.nHeight view
  if ctx.fScriptChecks then
    let (coins, view) := view.accessInputs tx.vin
    let errors := scriptErrors ctx tx coins
    if ctx.queueScripts then .ok (view, errors.isEmpty)
    else do
      orReject view (refuse (!errors.isEmpty) (errors.headD ""))
      .ok (view, true)
  else .ok (view, true)

/-- The undo record of an output, given the coins that are left: the last output takes the data of
the transaction with it. -/
def CTxInUndo.ofSpent (txout : CTxOut) (coins : CCoins) : CTxInUndo :=
  if coins.vout.isEmpty then
    { txout, fCoinBase := coins.fCoinBase, nHeight := coins.nHeight.toUInt32,
      nVersion := coins.nVersion }
  else { txout, fCoinBase := false, nHeight := 0, nVersion := 0 }

/-- One input of `UpdateCoins`: the output is marked spent, and its undo record made. `none` is the
assertion. -/
def spendInput (view : CCoinsViewCache) (txin : CTxIn) : Option (CTxInUndo × CCoinsViewCache) := do
  let (it, view) := view.modifyCoins txin.prevout.hash
  let txout ← it.value.available txin.prevout.n
  let coins ← it.value.spend txin.prevout.n
  some (.ofSpent txout coins, view.endModify txin.prevout.hash { it with value := coins })

def spendInputs (view : CCoinsViewCache) : List CTxIn → Option (CTxUndo × CCoinsViewCache)
  | [] => some ([], view)
  | txin :: rest => do
    let (undo, view) ← spendInput view txin
    let (others, view) ← spendInputs view rest
    some (undo :: others, view)

/-- `none` is its assertion, or the exception of `ModifyNewCoins`. -/
def updateCoins (tx : CTransaction) (inputs : CCoinsViewCache) (nHeight : Int32) :
    Option (CTxUndo × CCoinsViewCache) := do
  let (txundo, inputs) ← (if tx.isCoinBase then some ([], inputs) else spendInputs inputs tx.vin)
  let inputs ← inputs.modifyNew tx.hash tx.isCoinBase fun _ => .fromTx tx nHeight
  some (txundo, inputs)

/-- The checks of one transaction in the loop of `ConnectBlock`, up to `UpdateCoins`. -/
def checkConnect (ctx : ConnectContext) (tx : CTransaction) (s : ConnectLoop) :
    Outcome Rejected ConnectLoop :=
  if tx.isCoinBase then do
    let nSigOpsCost := s.nSigOpsCost + ctx.sigOpCost tx []
    orReject s.view (refuse (nSigOpsCost > MAX_BLOCK_SIGOPS_COST) "bad-blk-sigops")
    .ok { s with nSigOpsCost := nSigOpsCost }
  else do
    let view ← checkFinal ctx tx s.view
    let (coins, view) := view.accessInputs tx.vin
    let nSigOpsCost := s.nSigOpsCost + ctx.sigOpCost tx (List.zipWith spentOutput tx.vin coins)
    orReject view (refuse (nSigOpsCost > MAX_BLOCK_SIGOPS_COST) "bad-blk-sigops")
    -- The fee is added before the amounts are known to be in range.
    let (nValueIn, view) := view.getValueIn tx
    let nValueIn ← orAbort nValueIn
    let nValueOut ← orAbort tx.getValueOut
    let (view, queued) ← checkInputs ctx tx view
    .ok { s with
      view := view
      nFees := s.nFees + (nValueIn - nValueOut)
      nSigOpsCost := nSigOpsCost
      queued := s.queued && queued }

/-- One turn of the loop in `ConnectBlock`. The first transaction has no undo data. -/
def connectTransaction (ctx : ConnectContext) (first : Bool) (tx : CTransaction) (s : ConnectLoop) :
    Outcome Rejected ConnectLoop := do
  let s ← checkConnect ctx tx s
  let (txundo, view) ← orAbort (updateCoins tx s.view ctx.nHeight)
  .ok { s with view := view, vtxundo := if first then s.vtxundo else s.vtxundo ++ [txundo] }

def connectTransactions (ctx : ConnectContext) :
    (first : Bool) → List CTransaction → ConnectLoop → Outcome Rejected ConnectLoop
  | _, [], s => .ok s
  | first, tx :: rest, s => do
    let s ← connectTransaction ctx first tx s
    connectTransactions ctx false rest s

/-- The check for BIP 30: no transaction of the block has unspent outputs already. -/
def checkBIP30 : List CTransaction → CCoinsViewCache → Outcome Rejected CCoinsViewCache
  | [], view => .ok view
  | tx :: rest, view => do
    let (coins, view) := view.accessCoins tx.hash
    orReject view (refuse (coins.any fun c => !c.isPruned) "bad-txns-BIP30")
    checkBIP30 rest view

def connectBlock (ctx : ConnectContext) (block : CBlock) (view : CCoinsViewCache) :
    Outcome Rejected (CCoinsViewCache × CBlockUndo) := do
  orReject view (checkBlock ctx.legacySigOpCount block)
  let (bestBlock, view) := view.getBestBlock
  if ctx.hashPrevBlock ≠ bestBlock then .abort
  else if block.hash = ctx.hashGenesisBlock then
    .ok (if ctx.fJustCheck then view else view.setBestBlock block.hash, [])
  else do
    let view ← (if ctx.fEnforceBIP30 then checkBIP30 block.vtx view else .ok view)
    let s ← connectTransactions ctx true block.vtx ⟨view, 0, 0, [], true⟩
    let subsidy := getDogecoinBlockSubsidy ctx.subsidy ctx.nHeight ctx.hashPrevBlock
    let nValueOut ← orAbort (block.vtx.head?.bind (·.getValueOut))
    orReject s.view (refuse (nValueOut > s.nFees + subsidy) "bad-cb-amount")
    orReject s.view (refuse (!s.queued) "")
    if ctx.fJustCheck then .ok (s.view, s.vtxundo)
    else do
      orReject s.view (refuse (ctx.undoPosNull && !ctx.writeUndo) "Failed to write undo data")
      orReject s.view (refuse (!ctx.writeTxIndex) "Failed to write transaction index")
      .ok (s.view.setBestBlock block.hash, s.vtxundo)

/-- An output assigned to its position, after `vout` was resized if it is too short. The size is
computed in 32 bits. -/
def CCoins.putOutput (coins : CCoins) (n : UInt32) (txout : CTxOut) : CCoins :=
  let vout := coins.vout ++ List.replicate ((n + 1).toNat - coins.vout.length) .null
  { coins with vout := vout.set n.toNat txout }

/-- What `ApplyTxInUndo` does to the coins of the transaction, and whether they looked as
expected. -/
def CTxInUndo.restore (undo : CTxInUndo) (n : UInt32) (coins : CCoins) : Bool × CCoins :=
  let last := undo.nHeight ≠ 0
  let clean := if last then coins.isPruned else !coins.isPruned
  let coins : CCoins :=
    if last then
      { fCoinBase := undo.fCoinBase, vout := [], nHeight := undo.nHeight.toInt32,
        nVersion := undo.nVersion }
    else coins
  (clean && !coins.isAvailable n, coins.putOutput n undo.txout)

def applyTxInUndo (undo : CTxInUndo) (view : CCoinsViewCache) (out : COutPoint) :
    Bool × CCoinsViewCache :=
  let (it, view) := view.modifyCoins out.hash
  let (clean, coins) := undo.restore out.n it.value
  (clean, view.endModify out.hash { it with value := coins })

def applyTxInUndos : List (CTxInUndo × CTxIn) → CCoinsViewCache → Bool × CCoinsViewCache
  | [], view => (true, view)
  | (undo, txin) :: rest, view =>
    let (clean, view) := applyTxInUndo undo view txin.prevout
    let (others, view) := applyTxInUndos rest view
    (clean && others, view)

/-- `operator==` of `CCoins`: those without unspent outputs are all equal. -/
def CCoins.equals (a b : CCoins) : Bool := (a.isPruned && b.isPruned) || a = b

/-- Whether the coins are the outputs of the transaction. A negative version is not stored. -/
def CCoins.matchesTx (outs : CCoins) (tx : CTransaction) (nHeight : Int32) : Bool :=
  let outsBlock := CCoins.fromTx tx nHeight
  let outs := outs.clearUnspendable
  let outs := if outsBlock.nVersion < 0 then { outs with nVersion := outsBlock.nVersion } else outs
  outs.equals outsBlock

/-- One turn of the loop in `DisconnectBlock`; the first transaction of the block comes with no undo
data. -/
def disconnectTransaction (nHeight : Int32) (tx : CTransaction) (txundo : Option CTxUndo)
    (view : CCoinsViewCache) : Outcome CCoinsViewCache (Bool × CCoinsViewCache) :=
  let (outs, view) := view.modifyCoins tx.hash
  let clean := outs.value.matchesTx tx nHeight
  let view := view.endModify tx.hash { outs with value := .empty }
  match txundo with
  | none => .ok (clean, view)
  | some vprevout =>
    if vprevout.length ≠ tx.vin.length then .fail view
    else
      let (inputs, view) := applyTxInUndos (vprevout.zip tx.vin).reverse view
      .ok (clean && inputs, view)

/-- The loop of `DisconnectBlock`, over the transactions from the last to the first. -/
def disconnectTransactions (nHeight : Int32) : List (CTransaction × Option CTxUndo) →
    CCoinsViewCache → Outcome CCoinsViewCache (Bool × CCoinsViewCache)
  | [], view => .ok (true, view)
  | (tx, txundo) :: rest, view => do
    let (clean, view) ← disconnectTransaction nHeight tx txundo view
    let (others, view) ← disconnectTransactions nHeight rest view
    .ok (clean && others, view)

/-- What `UndoWriteToDisk` leaves at the position it returns: the undo data and a checksum over
the previous block's hash and the data. -/
def undoWriteToDisk (keys : PubKeys) (hasher : List UInt8 → UInt256) (hashBlock : UInt256)
    (blockundo : CBlockUndo) : List UInt8 :=
  CBlockUndo.serialize keys blockundo ++ littleEndian 32 (hasher (littleEndian 32 hashBlock.toNat ++
      CBlockUndo.serialize keys blockundo)).toNat

def undoReadFromDisk (keys : PubKeys) (hasher : List UInt8 → UInt256) (hashBlock : UInt256)
    (file : List UInt8) : Option CBlockUndo := do
  let (blockundo, rest) ← CBlockUndo.unserialize keys file
  let (hashChecksum, _) ← readLittleEndian 32 rest
  if hashChecksum = (hasher (littleEndian 32 hashBlock.toNat ++
      CBlockUndo.serialize keys blockundo)).toNat then some blockundo else none

/-- `DisconnectBlock`, with the file its undo data is in: whether everything was as expected, and
the view. -/
def disconnectBlock (keys : PubKeys) (hasher : List UInt8 → UInt256) (ctx : ConnectContext)
    (block : CBlock) (undoFile : List UInt8) (view : CCoinsViewCache) :
    Outcome CCoinsViewCache (Bool × CCoinsViewCache) := do
  let (bestBlock, view) := view.getBestBlock
  if block.hash ≠ bestBlock then .abort
  else
    match undoReadFromDisk keys hasher ctx.hashPrevBlock undoFile with
    | none => .fail view
    | some vtxundo =>
      if vtxundo.length + 1 ≠ block.vtx.length then .fail view
      else do
        let (clean, view) ← disconnectTransactions ctx.nHeight
          (block.vtx.zip (none :: vtxundo.map some)).reverse view
        .ok (clean, view.setBestBlock ctx.hashPrevBlock)

/-- A context in which every script is fine and the reward is the simplified one. -/
def plainContext (nHeight : Int32) (hashPrevBlock : UInt256) : ConnectContext where
  nHeight := nHeight
  hashPrevBlock := hashPrevBlock
  hashGenesisBlock := 1
  subsidy := ⟨100000, true, fun _ _ => 0⟩
  nCoinbaseMaturity := fun _ => 30
  nCoinbaseMaturity_pos := fun _ => by decide
  legacySigOpCount := fun _ => 0
  sigOpCost := fun _ _ => 0
  sequenceLocks := fun _ _ => true
  scriptError := fun _ _ _ => none

def plainTx (hash : UInt256) (vin : List COutPoint) (values : List CAmount) : CTransaction where
  nVersion := 1
  vin := vin.map fun prevout => ⟨prevout, [0, 0], 0, []⟩
  vout := values.map fun nValue => ⟨nValue, []⟩
  nLockTime := 0
  hash := hash
  witnessHash := hash

def plainCoins : CoinsRecords := AList.singleton 7 ⟨false, [⟨50, []⟩], 3, 1⟩

def plainView : CCoinsViewCache := .ofBase (.db plainCoins 2)

/-- Transaction 11 spends the output of 7, transaction 12 one of the two of 11. -/
def plainBlock : CBlock where
  hash := 20
  vtx := [plainTx 10 [⟨0, 0xffffffff⟩] [1000], plainTx 11 [⟨7, 0⟩] [20, 25],
    plainTx 12 [⟨11, 1⟩] [24]]

end DogecoinCore.Coins
