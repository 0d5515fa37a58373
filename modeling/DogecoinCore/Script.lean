import DogecoinCore.ByteStream
import DogecoinCore.Fallible
import DogecoinCore.Transaction

/-! Scripts and their numbers: `script/script.h` and `script/script.cpp` as far as the
interpreter uses them. -/
namespace DogecoinCore
open Option List

/-- `ScriptError` without `SCRIPT_ERR_OK`. -/
inductive ScriptError where
  | unknownError
  | evalFalse
  | opReturn
  | scriptSize
  | pushSize
  | opCount
  | stackSize
  | sigCount
  | pubkeyCount
  | verify
  | equalVerify
  | checkMultiSigVerify
  | checkSigVerify
  | numEqualVerify
  | badOpcode
  | disabledOpcode
  | invalidStackOperation
  | invalidAltstackOperation
  | unbalancedConditional
  | negativeLocktime
  | unsatisfiedLocktime
  | sigHashtype
  | sigDer
  | minimalData
  | sigPushOnly
  | sigHighS
  | sigNullDummy
  | pubkeyType
  | cleanStack
  | minimalIf
  | sigNullFail
  | discourageUpgradableNops
  | discourageUpgradableWitnessProgram
  | witnessProgramWrongLength
  | witnessProgramWitnessEmpty
  | witnessProgramMismatch
  | witnessMalleated
  | witnessMalleatedP2SH
  | witnessUnexpected
  | witnessPubkeyType
  deriving DecidableEq, Repr

inductive Halt where
  /-- `set_error(serror, …)`. -/
  | error (serror : ScriptError)
  /-- `scriptnum_error`. -/
  | scriptnum (what : String)
  /-- `stack.at`, `stack.erase` or `stack.insert` past the bottom of the stack. -/
  | outOfRange
  /-- `popstack(): stack empty`. -/
  | stackEmpty
  /-- An `assert` that fails. -/
  | assertion
  /-- A loop that has not ended within the number of turns allowed for it. -/
  | running
  deriving DecidableEq, Repr

abbrev Valtype := List UInt8

abbrev Eval := Except Halt

/-- `if (bad) return set_error(serror, …)`. -/
def errorIf (bad : Bool) (serror : ScriptError) : Eval Unit :=
  if bad then throw (.error serror) else pure ()

/-- `assert(holds)`. -/
def assert (holds : Bool) : Eval Unit := if holds then pure () else throw .assertion

def castToBool : Valtype → Bool
  | [] => false
  | [b] => b ≠ 0 && b ≠ 0x80
  | b :: rest => b ≠ 0 || castToBool rest

/-! ### Numbers

A `CScriptNum` is an `int64_t`. Operands have at most five bytes, so that nothing overflows. -/

namespace CScriptNum
/-- `std::numeric_limits<int64_t>`. -/
def INT64_MAX : ℤ := 9223372036854775807

def INT64_MIN : ℤ := -9223372036854775808

/-- The bytes of `set_vch` put together, the least significant first. -/
def magnitude : Valtype → ℕ
  | [] => 0
  | b :: rest => b.toNat + 256 * magnitude rest

def setVch (vch : Valtype) : ℤ :=
  if vch.getLastD 0 &&& 0x80 ≠ 0 then
    -((magnitude vch - 0x80 * 256 ^ (vch.length - 1) : ℕ) : ℤ)
  else magnitude vch

def ofVch (vch : Valtype) (fRequireMinimal : Bool) (nMaxNumSize : ℕ) : Eval ℤ :=
  if vch.length > nMaxNumSize then throw (.scriptnum "script number overflow")
  -- without its sign the last byte may be zero only if the byte before it needs the sign's place
  else if fRequireMinimal && vch ≠ [] && vch.getLastD 0 &&& 0x7f = 0 &&
      (vch.length ≤ 1 || vch.getD (vch.length - 2) 0 &&& 0x80 = 0) then
    throw (.scriptnum "non-minimally encoded script number")
  else pure (setVch vch)

/-- The nearest `int`. -/
def getint (n : ℤ) : ℤ := max (-2147483648) (min 2147483647 n)

/-- The bytes of an absolute value, as many as an `uint64_t` has at most. -/
def absBytes : (bytes absvalue : ℕ) → Valtype
  | 0, _ => []
  | bytes + 1, absvalue =>
    if absvalue = 0 then [] else UInt8.ofNat absvalue :: absBytes bytes (absvalue / 256)

def serialize (value : ℤ) : Valtype :=
  let result := absBytes 8 value.natAbs
  let neg := decide (value < 0)
  if value = 0 then []
  else if result.getLastD 0 &&& 0x80 ≠ 0 then result ++ [if neg then 0x80 else 0]
  else if neg then result.dropLast ++ [result.getLastD 0 ||| 0x80]
  else result

/-- `-n`. -/
def neg (n : ℤ) : Eval ℤ := do
  assert (n ≠ INT64_MIN)
  pure (-n)

/-- `n += rhs`. -/
def addAssign (n rhs : ℤ) : Eval ℤ := do
  assert (rhs = 0 || (rhs > 0 && n ≤ INT64_MAX - rhs) || (rhs < 0 && n ≥ INT64_MIN - rhs))
  pure (n + rhs)

/-- `n -= rhs`. -/
def subAssign (n rhs : ℤ) : Eval ℤ := do
  assert (rhs = 0 || (rhs > 0 && n ≥ INT64_MIN + rhs) || (rhs < 0 && n ≤ INT64_MAX + rhs))
  pure (n - rhs)

end CScriptNum

/-! ### Instructions of a script -/

/-- `OP_PUSHDATA4`, the last opcode with an operand. -/
def OP_PUSHDATA4 : UInt8 := 0x4e

def OP_16 : UInt8 := 0x60

def pushSize (opcode : UInt8) (pc : CScript) : Option (ℕ × CScript) :=
  if opcode < 0x4c then some (opcode.toNat, pc)
  else if opcode = 0x4c then readLittleEndian 1 pc
  else if opcode = 0x4d then readLittleEndian 2 pc
  else readLittleEndian 4 pc

namespace CScript
/-- `GetOp2`: the next opcode with its data, and the rest of the script. -/
def getOp : CScript → Option (UInt8 × Valtype × CScript)
  | [] => none
  | opcode :: pc =>
    if opcode ≤ OP_PUSHDATA4 then do
      let (nSize, pc) ← pushSize opcode pc
      if pc.length < nSize then none
      else some (opcode, pc.take nSize, pc.drop nSize)
    else some (opcode, [], pc)

/-- `script << data`, on an empty script. -/
def push (b : Valtype) : CScript :=
  if b.length < 0x4c then UInt8.ofNat b.length :: b
  else if b.length ≤ 0xff then 0x4c :: UInt8.ofNat b.length :: b
  else if b.length ≤ 0xffff then 0x4d :: (littleEndian 2 b.length ++ b)
  else 0x4e :: (littleEndian 4 b.length ++ b)

end CScript

theorem readLittleEndian_length
    (reads : readLittleEndian k pc = some (n, rest)) : rest.length + k = pc.length := by
  induction k generalizing n pc with
  | zero =>
    obtain ⟨-, rfl⟩ := Prod.mk.inj (some.inj reads)
    rfl
  | succ k ih =>
    obtain ⟨_, _, first, last⟩ := Reader.bind_eq_some.1 reads
    obtain ⟨_, _, next, ends⟩ := Reader.bind_eq_some.1 last
    obtain ⟨-, rfl⟩ := Prod.mk.inj (some.inj ends)
    cases pc with
    | nil => cases first
    | cons _ _ =>
      obtain ⟨-, rfl⟩ := Prod.mk.inj (some.inj first)
      rw [length_cons, ← ih next]
      rfl

theorem pushSize_length
    (reads : pushSize opcode pc = some (n, rest)) : rest.length ≤ pc.length := by
  unfold pushSize at reads
  split_ifs at reads
  · obtain ⟨-, rfl⟩ := Prod.mk.inj (some.inj reads)
    exact Nat.le_refl _
  all_goals
    have := readLittleEndian_length reads
    omega

namespace CScript
theorem getOp_length
    (read : getOp script = some (opcode, data, rest)) : rest.length < script.length := by
  cases script with
  | nil => cases read
  | cons first pc =>
    rw [getOp] at read
    split_ifs at read with operand
    · obtain ⟨⟨nSize, after⟩, size, taken⟩ := bind_eq_some_iff.1 read
      have shorter := pushSize_length size
      dsimp only at taken
      split_ifs at taken
      obtain ⟨-, -, rfl⟩ : _ ∧ _ ∧ _ := by simpa using taken
      rw [length_drop, length_cons]
      omega
    · obtain ⟨-, -, rfl⟩ : _ ∧ _ ∧ _ := by simpa using read
      exact Nat.lt_succ_self _

/-- `OP_RESERVED` counts as a push. -/
def isPushOnly (pc : CScript) : Bool :=
  if pc = [] then true
  else
    match _read : getOp pc with
    | none => false
    | some (opcode, _, rest) => opcode ≤ OP_16 && isPushOnly rest
termination_by pc.length
decreasing_by exact getOp_length _read

/-- The inner loop of `FindAndDelete`: every copy of `b` at the front. -/
def skipCopies (b pc : CScript) : CScript :=
  if _found : b ≠ [] ∧ b <+: pc then skipCopies b (pc.drop b.length) else pc
termination_by pc.length
decreasing_by
  have := length_pos_iff.2 _found.1
  have := _found.2.length_le
  rw [length_drop]
  omega

theorem skipCopies_length : (skipCopies b pc).length ≤ pc.length := by
  induction pc using skipCopies.induct b with
  | case1 pc found ih =>
    rw [skipCopies, dif_pos found]
    exact ih.trans (by simp)
  | case2 pc found => rw [skipCopies, dif_neg found]

/-- `FindAndDelete` from `pc` on: copies of `b` go where an instruction starts. A script without
any is put together again as it was. -/
def findAndDelete (pc b : CScript) : CScript :=
  if b = [] then pc
  else
    let pc2 := skipCopies b pc
    match _read : getOp pc2 with
    | none => pc2
    | some (_, _, rest) => pc2.take (pc2.length - rest.length) ++ findAndDelete rest b
termination_by pc.length
decreasing_by exact Nat.lt_of_lt_of_le (getOp_length _read) (skipCopies_length)

def isPayToScriptHash (script : CScript) : Bool :=
  script.length = 23 && script.getD 0 0 = 0xa9 && script.getD 1 0 = 0x14 && script.getD 22 0 = 0x87

def decodeOpN (opcode : UInt8) : Eval ℕ :=
  if opcode = 0 then pure 0
  else do
    assert (0x51 ≤ opcode && opcode ≤ OP_16)
    pure (opcode.toNat - 0x50)

def isWitnessProgram (script : CScript) : Eval (Option (ℕ × Valtype)) :=
  if script.length < 4 || script.length > 42 then pure none
  else if script.getD 0 0 ≠ 0 && (script.getD 0 0 < 0x51 || script.getD 0 0 > OP_16) then pure none
  else if (script.getD 1 0).toNat + 2 = script.length then do
    let version ← decodeOpN (script.getD 0 0)
    pure (some (version, script.drop 2))
  else pure none

end CScript

end DogecoinCore
