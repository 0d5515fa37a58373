import DogecoinCore.BlockIndex
import Mathlib.Algebra.Order.Ring.Nat

/-! Transactions as the node holds them in memory: `primitives/transaction.h` with its
predicates and the length of the network encoding. -/
namespace DogecoinCore
abbrev CScript := List UInt8

/-- An `int64_t`. -/
abbrev CAmount := Int64

def MAX_MONEY : CAmount := 1000000000000000000

def moneyRange (nValue : CAmount) : Bool := 0 ≤ nValue && nValue ≤ MAX_MONEY

theorem moneyRange_iff :
    moneyRange nValue ↔ 0 ≤ nValue.toInt ∧ nValue.toInt ≤ 1000000000000000000 := by
  simp only [moneyRange, Bool.and_eq_true, decide_eq_true_eq, Int64.le_iff_toInt_le]
  exact Iff.rfl

/-- Output `n` of the transaction `hash`. -/
@[ext] structure COutPoint where
  hash : UInt256
  n : UInt32
  deriving DecidableEq, Repr

def COutPoint.isNull (o : COutPoint) : Bool := o.hash = 0 && o.n = 0xffffffff

structure CTxIn where
  prevout : COutPoint
  scriptSig : CScript
  nSequence : UInt32
  scriptWitness : List (List UInt8)
  deriving DecidableEq, Repr

structure CTxOut where
  nValue : CAmount
  scriptPubKey : CScript
  deriving DecidableEq, Repr

namespace CTxOut
def null : CTxOut where
  nValue := -1
  scriptPubKey := []

def isNull (o : CTxOut) : Bool := o.nValue = -1

end CTxOut

/-- The constructor caches `hash`; `witnessHash` is what `GetWitnessHash`
computes. Both come from SHA-256 and are free here. -/
structure CTransaction where
  nVersion : Int32
  vin : List CTxIn
  vout : List CTxOut
  nLockTime : UInt32
  hash : UInt256
  witnessHash : UInt256
  deriving DecidableEq, Repr, Inhabited

namespace CTransaction
def isNull (tx : CTransaction) : Bool := tx.vin.isEmpty && tx.vout.isEmpty

def isCoinBase (tx : CTransaction) : Bool :=
  match tx.vin with
  | [i] => i.prevout.isNull
  | _ => false

def hasWitness (tx : CTransaction) : Bool := tx.vin.any (fun i => !i.scriptWitness.isEmpty)

def simple (prevout : COutPoint) (hash : UInt256) : CTransaction where
  nVersion := 1
  vin := [⟨prevout, [], 0, []⟩]
  vout := [⟨0, []⟩]
  nLockTime := 0
  hash := hash
  witnessHash := hash

end CTransaction

def getSizeOfCompactSize (nSize : ℕ) : ℕ :=
  if nSize < 253 then 1
  else if nSize ≤ 0xffff then 3
  else if nSize ≤ 0xffffffff then 5
  else 9

def bytesSize (bytes : List UInt8) : ℕ := getSizeOfCompactSize bytes.length + bytes.length

/-- Length of a transaction written with `SERIALIZE_TRANSACTION_NO_WITNESS`. -/
def CTransaction.baseSize (tx : CTransaction) : ℕ :=
  4 + getSizeOfCompactSize tx.vin.length + (tx.vin.map fun i => 36 + bytesSize i.scriptSig + 4).sum
    + getSizeOfCompactSize tx.vout.length
    + (tx.vout.map fun o => 8 + bytesSize o.scriptPubKey).sum
    + 4

/-- `none` is its exception. -/
def CTransaction.getValueOut (tx : CTransaction) : Option CAmount := go 0 tx.vout
where
  go (nValueOut : CAmount) : List CTxOut → Option CAmount
  | [] => some nValueOut
  | out :: rest =>
    if !moneyRange out.nValue || !moneyRange (nValueOut + out.nValue) then none
    else go (nValueOut + out.nValue) rest

/-- Length of `SerializeTransaction`: with a witness, the marker and flag bytes and one stack
per input are written as well. -/
def CTransaction.getSerializeSize (tx : CTransaction) : ℕ :=
  4 + (if tx.hasWitness then 2 else 0) + getSizeOfCompactSize tx.vin.length
    + (tx.vin.map fun i => 36 + bytesSize i.scriptSig + 4).sum
    + getSizeOfCompactSize tx.vout.length
    + (tx.vout.map fun o => 8 + bytesSize o.scriptPubKey).sum
    + (if tx.hasWitness then
        (tx.vin.map fun i => getSizeOfCompactSize i.scriptWitness.length
          + (i.scriptWitness.map bytesSize).sum).sum
      else 0)
    + 4

end DogecoinCore
