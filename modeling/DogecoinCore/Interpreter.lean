import DogecoinCore.Script

/-! The script interpreter: `EvalScript`, `VerifyWitnessProgram` and `VerifyScript` of
`script/interpreter.cpp`. Stacks are lists with the top at the head. Hashes and signatures are
parameters. -/
namespace DogecoinCore
open CScriptNum

/-- `SCRIPT_VERIFY_*`. -/
inductive VerifyFlag where
  | p2sh
  | strictEnc
  | derSig
  | lowS
  | nullDummy
  | sigPushOnly
  | minimalData
  | discourageUpgradableNops
  | cleanStack
  | checkLockTimeVerify
  | checkSequenceVerify
  | witness
  | discourageUpgradableWitnessProgram
  | minimalIf
  | nullFail
  | witnessPubkeyType
  deriving DecidableEq, Repr

def VerifyFlag.bit : VerifyFlag → ℕ
  | .p2sh => 0
  | .strictEnc => 1
  | .derSig => 2
  | .lowS => 3
  | .nullDummy => 4
  | .sigPushOnly => 5
  | .minimalData => 6
  | .discourageUpgradableNops => 7
  | .cleanStack => 8
  | .checkLockTimeVerify => 9
  | .checkSequenceVerify => 10
  | .witness => 11
  | .discourageUpgradableWitnessProgram => 12
  | .minimalIf => 13
  | .nullFail => 14
  | .witnessPubkeyType => 15

/-- `unsigned int flags`. -/
abbrev Flags := BitVec 32

/-- `(flags & flag) != 0`. -/
def Flags.has (flags : Flags) (flag : VerifyFlag) : Bool := flags.getLsbD flag.bit

inductive SigVersion where
  | base
  | witnessV0
  deriving DecidableEq, Repr

structure BaseSignatureChecker where
  checkSig : Valtype → Valtype → CScript → SigVersion → Bool
  checkLockTime : ℤ → Bool
  checkSequence : ℤ → Bool

/-- The hash functions, and `CPubKey::CheckLowS`. -/
structure ScriptCrypto where
  ripemd160 : Valtype → Valtype
  sha1 : Valtype → Valtype
  sha256 : Valtype → Valtype
  checkLowS : Valtype → Bool
  ripemd160_length : ∀ vch, (ripemd160 vch).length = 20
  sha1_length : ∀ vch, (sha1 vch).length = 20
  sha256_length : ∀ vch, (sha256 vch).length = 32

def ScriptCrypto.hash160 (crypto : ScriptCrypto) (vch : Valtype) : Valtype :=
  crypto.ripemd160 (crypto.sha256 vch)

def ScriptCrypto.hash256 (crypto : ScriptCrypto) (vch : Valtype) : Valtype :=
  crypto.sha256 (crypto.sha256 vch)

structure EvalContext where
  crypto : ScriptCrypto
  checker : BaseSignatureChecker
  sigversion : SigVersion

/-- `if (c) { … }` around checks. -/
def onlyIf (c : Bool) (checks : Eval Unit) : Eval Unit := if c then checks else pure ()

def MAX_SCRIPT_ELEMENT_SIZE : ℕ := 520

def MAX_OPS_PER_SCRIPT : ℕ := 201

def MAX_PUBKEYS_PER_MULTISIG : ℤ := 20

def MAX_SCRIPT_SIZE : ℕ := 10000

def vchFalse : Valtype := []

def vchTrue : Valtype := [1]

def vchOfBool (b : Bool) : Valtype := if b then vchTrue else vchFalse

/-! ### Encodings -/

def isCompressedOrUncompressedPubKey (vchPubKey : Valtype) : Bool :=
  if vchPubKey.length < 33 then false
  else if vchPubKey.getD 0 0 = 0x04 then vchPubKey.length = 65
  else if vchPubKey.getD 0 0 = 0x02 || vchPubKey.getD 0 0 = 0x03 then vchPubKey.length = 33
  else false

def isCompressedPubKey (vchPubKey : Valtype) : Bool :=
  vchPubKey.length = 33 && (vchPubKey.getD 0 0 = 0x02 || vchPubKey.getD 0 0 = 0x03)

def isValidSignatureEncoding (sig : Valtype) : Bool :=
  let at_ (i : ℕ) : UInt8 := sig.getD i 0
  let lenR := (at_ 3).toNat
  let lenS := (at_ (5 + lenR)).toNat
  9 ≤ sig.length && sig.length ≤ 73 &&
  at_ 0 = 0x30 && (at_ 1).toNat = sig.length - 3 &&
  5 + lenR < sig.length && lenR + lenS + 7 = sig.length &&
  at_ 2 = 0x02 && lenR ≠ 0 && at_ 4 &&& 0x80 = 0 &&
  !(lenR > 1 && at_ 4 = 0 && at_ 5 &&& 0x80 = 0) &&
  at_ (lenR + 4) = 0x02 && lenS ≠ 0 && at_ (lenR + 6) &&& 0x80 = 0 &&
  !(lenS > 1 && at_ (lenR + 6) = 0 && at_ (lenR + 7) &&& 0x80 = 0)

def isLowDERSignature (crypto : ScriptCrypto) (vchSig : Valtype) : Eval Unit := do
  errorIf (!isValidSignatureEncoding vchSig) .sigDer
  errorIf (!crypto.checkLowS vchSig.dropLast) .sigHighS

def isDefinedHashtypeSignature (vchSig : Valtype) : Bool :=
  let nHashType := vchSig.getLastD 0 &&& 0x7f
  vchSig ≠ [] && 1 ≤ nHashType && nHashType ≤ 3

def checkSignatureEncoding (crypto : ScriptCrypto) (flags : Flags) (vchSig : Valtype) : Eval Unit :=
  onlyIf (vchSig ≠ []) do
    errorIf ((flags.has .derSig || flags.has .lowS || flags.has .strictEnc) &&
      !isValidSignatureEncoding vchSig) .sigDer
    onlyIf (flags.has .lowS) (isLowDERSignature crypto vchSig)
    errorIf (flags.has .strictEnc && !isDefinedHashtypeSignature vchSig) .sigHashtype

def checkPubKeyEncoding (flags : Flags) (sigversion : SigVersion) (vchPubKey : Valtype) :
    Eval Unit := do
  errorIf (flags.has .strictEnc && !isCompressedOrUncompressedPubKey vchPubKey) .pubkeyType
  errorIf (flags.has .witnessPubkeyType && sigversion = .witnessV0 &&
    !isCompressedPubKey vchPubKey) .witnessPubkeyType

def checkMinimalPush (data : Valtype) (opcode : UInt8) : Bool :=
  if data.length = 0 then opcode = 0
  else if data.length = 1 && 1 ≤ data.getD 0 0 && data.getD 0 0 ≤ 16 then
    opcode = 0x51 + (data.getD 0 0 - 1)
  else if data.length = 1 && data.getD 0 0 = 0x81 then opcode = 0x4f
  else if data.length ≤ 75 then opcode.toNat = data.length
  else if data.length ≤ 255 then opcode = 0x4c
  else if data.length ≤ 65535 then opcode = 0x4d
  else true

/-! ### The stack -/

/-- `if (stack.size() < n) return set_error(…)`. -/
def need (n : ℕ) (stack : List Valtype) : Eval Unit :=
  errorIf (stack.length < n) .invalidStackOperation

/-- `stacktop(-i)`. -/
def stacktop (stack : List Valtype) (i : ℕ) : Eval Valtype :=
  if 1 ≤ i ∧ i ≤ stack.length then pure (stack.getD (i - 1) []) else throw .outOfRange

def popstack : List Valtype → Eval (List Valtype)
  | [] => throw .stackEmpty
  | _ :: rest => pure rest

/-- `stack.erase(stack.end() - i)`. -/
def eraseTop (stack : List Valtype) (i : ℕ) : Eval (List Valtype) :=
  if 1 ≤ i ∧ i ≤ stack.length then pure (stack.eraseIdx (i - 1)) else throw .outOfRange

/-- `stack.insert(stack.end() - i, vch)`. -/
def insertTop (stack : List Valtype) (i : ℕ) (vch : Valtype) : Eval (List Valtype) :=
  if i ≤ stack.length then pure (stack.insertIdx i vch) else throw .outOfRange

/-- `swap(stacktop(-i), stacktop(-j))`. -/
def swapTop (stack : List Valtype) (i j : ℕ) : Eval (List Valtype) := do
  let vch1 ← stacktop stack i
  let vch2 ← stacktop stack j
  pure ((stack.set (i - 1) vch2).set (j - 1) vch1)

/-- `CScriptNum(stacktop(-i), fRequireMinimal)`. -/
def scriptNum (flags : Flags) (stack : List Valtype) (i : ℕ) : Eval ℤ := do
  let vch ← stacktop stack i
  ofVch vch (flags.has .minimalData) 4

/-- Pushes the answer; the `VERIFY` form of an opcode takes a positive one off again and fails on
the other. -/
def pushAnswer (verify : Bool) (serror : ScriptError) (answer : Bool) (stack : List Valtype) :
    Eval (List Valtype) :=
  let stack := vchOfBool answer :: stack
  if verify then do
    errorIf (!answer) serror
    popstack stack
  else pure stack

/-! ### Opcodes -/

inductive UnaryOp where
  | add1 | sub1 | negate | abs | not | notEqual0
  deriving DecidableEq, Repr

inductive BinaryOp where
  | add | sub | boolAnd | boolOr | numEqual | numEqualVerify | numNotEqual | lessThan | greaterThan
  | lessThanOrEqual | greaterThanOrEqual | min | max
  deriving DecidableEq, Repr

inductive HashOp where
  | ripemd160 | sha1 | sha256 | hash160 | hash256
  deriving DecidableEq, Repr

inductive StackOp where
  | pushInt (n : ℤ)
  | nop | checkLockTimeVerify | checkSequenceVerify | upgradableNop
  | verify | return
  | drop2 | dup2 | dup3 | over2 | rot2 | swap2 | ifDup | depth | drop | dup | nip | over_
  | pick | roll | rot | swap | tuck | size
  | equal | equalVerify
  | unary (op : UnaryOp)
  | binary (op : BinaryOp)
  | within
  | hash (op : HashOp)
  deriving DecidableEq, Repr

inductive Instr where
  | stack (op : StackOp)
  | if_ | notIf | else_ | endIf
  | toAltStack | fromAltStack
  | codeSeparator
  | checkSig | checkSigVerify | checkMultiSig | checkMultiSigVerify
  | invalid
  deriving DecidableEq, Repr

def instr (opcode : UInt8) : Instr :=
  if opcode = 0x4f ∨ (0x51 ≤ opcode ∧ opcode ≤ OP_16) then .stack (.pushInt (opcode.toNat - 0x50))
  else match opcode.toNat with
  | 0x61 => .stack .nop
  | 0x63 => .if_
  | 0x64 => .notIf
  | 0x67 => .else_
  | 0x68 => .endIf
  | 0x69 => .stack .verify
  | 0x6a => .stack .return
  | 0x6b => .toAltStack
  | 0x6c => .fromAltStack
  | 0x6d => .stack .drop2
  | 0x6e => .stack .dup2
  | 0x6f => .stack .dup3
  | 0x70 => .stack .over2
  | 0x71 => .stack .rot2
  | 0x72 => .stack .swap2
  | 0x73 => .stack .ifDup
  | 0x74 => .stack .depth
  | 0x75 => .stack .drop
  | 0x76 => .stack .dup
  | 0x77 => .stack .nip
  | 0x78 => .stack .over_
  | 0x79 => .stack .pick
  | 0x7a => .stack .roll
  | 0x7b => .stack .rot
  | 0x7c => .stack .swap
  | 0x7d => .stack .tuck
  | 0x82 => .stack .size
  | 0x87 => .stack .equal
  | 0x88 => .stack .equalVerify
  | 0x8b => .stack (.unary .add1)
  | 0x8c => .stack (.unary .sub1)
  | 0x8f => .stack (.unary .negate)
  | 0x90 => .stack (.unary .abs)
  | 0x91 => .stack (.unary .not)
  | 0x92 => .stack (.unary .notEqual0)
  | 0x93 => .stack (.binary .add)
  | 0x94 => .stack (.binary .sub)
  | 0x9a => .stack (.binary .boolAnd)
  | 0x9b => .stack (.binary .boolOr)
  | 0x9c => .stack (.binary .numEqual)
  | 0x9d => .stack (.binary .numEqualVerify)
  | 0x9e => .stack (.binary .numNotEqual)
  | 0x9f => .stack (.binary .lessThan)
  | 0xa0 => .stack (.binary .greaterThan)
  | 0xa1 => .stack (.binary .lessThanOrEqual)
  | 0xa2 => .stack (.binary .greaterThanOrEqual)
  | 0xa3 => .stack (.binary .min)
  | 0xa4 => .stack (.binary .max)
  | 0xa5 => .stack .within
  | 0xa6 => .stack (.hash .ripemd160)
  | 0xa7 => .stack (.hash .sha1)
  | 0xa8 => .stack (.hash .sha256)
  | 0xa9 => .stack (.hash .hash160)
  | 0xaa => .stack (.hash .hash256)
  | 0xab => .codeSeparator
  | 0xac => .checkSig
  | 0xad => .checkSigVerify
  | 0xae => .checkMultiSig
  | 0xaf => .checkMultiSigVerify
  | 0xb0 => .stack .upgradableNop
  | 0xb1 => .stack .checkLockTimeVerify
  | 0xb2 => .stack .checkSequenceVerify
  | 0xb3 | 0xb4 | 0xb5 | 0xb6 | 0xb7 | 0xb8 | 0xb9 => .stack .upgradableNop
  -- `OP_VERIF` and `OP_VERNOTIF` among them, which fail even where nothing is executed
  | _ => .invalid

def disabledOpcodes : List UInt8 :=
  [0x7e, 0x7f, 0x80, 0x81, 0x83, 0x84, 0x85, 0x86, 0x8d, 0x8e, 0x95, 0x96, 0x97, 0x98, 0x99]

def ofBool (b : Bool) : ℤ := if b then 1 else 0

def UnaryOp.apply (bn : ℤ) : UnaryOp → Eval ℤ
  | .add1 => addAssign bn 1
  | .sub1 => subAssign bn 1
  | .negate => neg bn
  | .abs => if bn < 0 then neg bn else pure bn
  | .not => pure (ofBool (bn = 0))
  | .notEqual0 => pure (ofBool (bn ≠ 0))

def BinaryOp.apply (bn1 bn2 : ℤ) : BinaryOp → ℤ
  | .add => bn1 + bn2
  | .sub => bn1 - bn2
  | .boolAnd => ofBool (bn1 ≠ 0 && bn2 ≠ 0)
  | .boolOr => ofBool (bn1 ≠ 0 || bn2 ≠ 0)
  | .numEqual => ofBool (bn1 = bn2)
  | .numEqualVerify => ofBool (bn1 = bn2)
  | .numNotEqual => ofBool (bn1 ≠ bn2)
  | .lessThan => ofBool (bn1 < bn2)
  | .greaterThan => ofBool (bn1 > bn2)
  | .lessThanOrEqual => ofBool (bn1 ≤ bn2)
  | .greaterThanOrEqual => ofBool (bn1 ≥ bn2)
  | .min => if bn1 < bn2 then bn1 else bn2
  | .max => if bn1 > bn2 then bn1 else bn2

def HashOp.apply (crypto : ScriptCrypto) : HashOp → Valtype → Valtype
  | .ripemd160 => crypto.ripemd160
  | .sha1 => crypto.sha1
  | .sha256 => crypto.sha256
  | .hash160 => crypto.hash160
  | .hash256 => crypto.hash256

/-- `OP_CHECKLOCKTIMEVERIFY` and `OP_CHECKSEQUENCEVERIFY`: a `NOP` unless their flag is set. The
operand has up to five bytes, and `CHECKSEQUENCEVERIFY` accepts one with the bit `1 << 31`. -/
def checkLock (flags : Flags) (enabled : VerifyFlag) (satisfied : ℤ → Bool)
    (stack : List Valtype) : Eval (List Valtype) :=
  if flags.has enabled then do
    need 1 stack
    let vch ← stacktop stack 1
    let n ← ofVch vch (flags.has .minimalData) 5
    errorIf (n < 0) .negativeLocktime
    errorIf (!satisfied n) .unsatisfiedLocktime
    pure stack
  else do
    errorIf (flags.has .discourageUpgradableNops) .discourageUpgradableNops
    pure stack

/-- `OP_PICK` and `OP_ROLL`. -/
def pickOrRoll (flags : Flags) (isRoll : Bool) (stack : List Valtype) : Eval (List Valtype) := do
  need 2 stack
  let bn ← scriptNum flags stack 1
  let n := getint bn
  let stack ← popstack stack
  errorIf (n < 0 || n ≥ stack.length) .invalidStackOperation
  let vch ← stacktop stack (n.toNat + 1)
  let stack ← if isRoll then eraseTop stack (n.toNat + 1) else pure stack
  pure (vch :: stack)

/-- `OP_EQUAL` and `OP_EQUALVERIFY`. -/
def equalTop (verify : Bool) (stack : List Valtype) : Eval (List Valtype) := do
  need 2 stack
  let vch1 ← stacktop stack 2
  let vch2 ← stacktop stack 1
  let stack ← popstack stack
  let stack ← popstack stack
  pushAnswer verify .equalVerify (vch1 = vch2) stack

/-- The numeric opcodes with two operands. `OP_NUMEQUALVERIFY` looks at the element it pushed. -/
def binaryOp (flags : Flags) (op : BinaryOp) (stack : List Valtype) : Eval (List Valtype) := do
  need 2 stack
  let bn1 ← scriptNum flags stack 2
  let bn2 ← scriptNum flags stack 1
  let stack ← popstack stack
  let stack ← popstack stack
  let stack := serialize (op.apply bn1 bn2) :: stack
  if op = .numEqualVerify then do
    let vch ← stacktop stack 1
    errorIf (!castToBool vch) .numEqualVerify
    popstack stack
  else pure stack

/-- The opcodes that read and write the stack alone, `switch (opcode)`. -/
def stackOp (ctx : EvalContext) (flags : Flags) (stack : List Valtype) :
    StackOp → Eval (List Valtype)
  | .pushInt n => pure (serialize n :: stack)
  | .nop => pure stack
  | .checkLockTimeVerify => checkLock flags .checkLockTimeVerify ctx.checker.checkLockTime stack
  | .checkSequenceVerify =>
    checkLock flags .checkSequenceVerify
      (fun n => n.toNat.testBit 31 || ctx.checker.checkSequence n) stack
  | .upgradableNop => do
    errorIf (flags.has .discourageUpgradableNops) .discourageUpgradableNops
    pure stack
  | .verify => do
    need 1 stack
    let vch ← stacktop stack 1
    errorIf (!castToBool vch) .verify
    popstack stack
  | .return => throw (.error .opReturn)
  | .drop2 => do
    need 2 stack
    let stack ← popstack stack
    popstack stack
  | .dup2 => do
    need 2 stack
    let vch1 ← stacktop stack 2
    let vch2 ← stacktop stack 1
    pure (vch2 :: vch1 :: stack)
  | .dup3 => do
    need 3 stack
    let vch1 ← stacktop stack 3
    let vch2 ← stacktop stack 2
    let vch3 ← stacktop stack 1
    pure (vch3 :: vch2 :: vch1 :: stack)
  | .over2 => do
    need 4 stack
    let vch1 ← stacktop stack 4
    let vch2 ← stacktop stack 3
    pure (vch2 :: vch1 :: stack)
  | .rot2 => do
    need 6 stack
    let vch1 ← stacktop stack 6
    let vch2 ← stacktop stack 5
    let stack ← eraseTop stack 6
    let stack ← eraseTop stack 5
    pure (vch2 :: vch1 :: stack)
  | .swap2 => do
    need 4 stack
    let stack ← swapTop stack 4 2
    swapTop stack 3 1
  | .ifDup => do
    need 1 stack
    let vch ← stacktop stack 1
    pure (if castToBool vch then vch :: stack else stack)
  | .depth => pure (serialize stack.length :: stack)
  | .drop => do
    need 1 stack
    popstack stack
  | .dup => do
    need 1 stack
    let vch ← stacktop stack 1
    pure (vch :: stack)
  | .nip => do
    need 2 stack
    eraseTop stack 2
  | .over_ => do
    need 2 stack
    let vch ← stacktop stack 2
    pure (vch :: stack)
  | .pick => pickOrRoll flags false stack
  | .roll => pickOrRoll flags true stack
  | .rot => do
    need 3 stack
    let stack ← swapTop stack 3 2
    swapTop stack 2 1
  | .swap => do
    need 2 stack
    swapTop stack 2 1
  | .tuck => do
    need 2 stack
    let vch ← stacktop stack 1
    insertTop stack 2 vch
  | .size => do
    need 1 stack
    let vch ← stacktop stack 1
    pure (serialize vch.length :: stack)
  | .equal => equalTop false stack
  | .equalVerify => equalTop true stack
  | .unary op => do
    need 1 stack
    let bn ← scriptNum flags stack 1
    let bn ← op.apply bn
    let stack ← popstack stack
    pure (serialize bn :: stack)
  | .binary op => binaryOp flags op stack
  | .within => do
    need 3 stack
    let bn1 ← scriptNum flags stack 3
    let bn2 ← scriptNum flags stack 2
    let bn3 ← scriptNum flags stack 1
    let stack ← popstack stack
    let stack ← popstack stack
    let stack ← popstack stack
    pure (vchOfBool (bn2 ≤ bn1 && bn1 < bn3) :: stack)
  | .hash op => do
    need 1 stack
    let vch ← stacktop stack 1
    let stack ← popstack stack
    pure (op.apply ctx.crypto vch :: stack)

/-! ### Evaluation -/

/-- The variables of `EvalScript`. `pc` and `pbegincodehash` are what is left of the script from
there; `vfExec` has the innermost condition at the head. -/
structure EvalState where
  pc : CScript
  pbegincodehash : CScript
  vfExec : List Bool
  stack : List Valtype
  altstack : List Valtype
  nOpCount : ℕ
  deriving DecidableEq, Repr

def EvalState.new (script : CScript) (stack : List Valtype) : EvalState where
  pc := script
  pbegincodehash := script
  vfExec := []
  stack := stack
  altstack := []
  nOpCount := 0

/-- `OP_IF` and `OP_NOTIF`. -/
def opIf (ctx : EvalContext) (flags : Flags) (fExec isNot : Bool) (s : EvalState) :
    Eval EvalState :=
  if fExec then do
    errorIf (s.stack.length < 1) .unbalancedConditional
    let vch ← stacktop s.stack 1
    onlyIf (ctx.sigversion = .witnessV0 && flags.has .minimalIf) do
      errorIf (vch.length > 1) .minimalIf
      errorIf (vch.length = 1 && vch.getD 0 0 ≠ 1) .minimalIf
    let stack ← popstack s.stack
    pure { s with stack := stack, vfExec := (castToBool vch != isNot) :: s.vfExec }
  else pure { s with vfExec := false :: s.vfExec }

/-- `scriptCode` with the signatures before the witness dropped from it. -/
def dropSignatures (ctx : EvalContext) (scriptCode : CScript) (sigs : List Valtype) : CScript :=
  if ctx.sigversion = .base then
    sigs.foldl (fun code vchSig => code.findAndDelete (CScript.push vchSig)) scriptCode
  else scriptCode

/-- `OP_CHECKSIG` and `OP_CHECKSIGVERIFY`. -/
def checkSigOp (ctx : EvalContext) (flags : Flags) (verify : Bool) (s : EvalState) :
    Eval EvalState := do
  need 2 s.stack
  let vchSig ← stacktop s.stack 2
  let vchPubKey ← stacktop s.stack 1
  let scriptCode := dropSignatures ctx s.pbegincodehash [vchSig]
  checkSignatureEncoding ctx.crypto flags vchSig
  checkPubKeyEncoding flags ctx.sigversion vchPubKey
  let fSuccess := ctx.checker.checkSig vchSig vchPubKey scriptCode ctx.sigversion
  errorIf (!fSuccess && flags.has .nullFail && vchSig.length ≠ 0) .sigNullFail
  let stack ← popstack s.stack
  let stack ← popstack stack
  let stack ← pushAnswer verify .checkSigVerify fSuccess stack
  pure { s with stack := stack }

/-- The signatures of `OP_CHECKMULTISIG`, the first at `isig`. -/
def multiSigs (stack : List Valtype) (isig : ℕ) : (nSigsCount : ℕ) → Eval (List Valtype)
  | 0 => pure []
  | nSigsCount + 1 => do
    let vchSig ← stacktop stack isig
    let rest ← multiSigs stack (isig + 1) nSigsCount
    pure (vchSig :: rest)

/-- `while (fSuccess && nSigsCount > 0)`: every signature in turn against the keys that are left. -/
def multiSigLoop (ctx : EvalContext) (flags : Flags) (stack : List Valtype) (scriptCode : CScript) :
    (nKeysCount nSigsCount ikey isig : ℕ) → Eval Bool
  | _, 0, _, _ => pure true
  | 0, _ + 1, _, _ => throw .running
  | nKeysCount + 1, nSigsCount + 1, ikey, isig => do
    let vchSig ← stacktop stack isig
    let vchPubKey ← stacktop stack ikey
    checkSignatureEncoding ctx.crypto flags vchSig
    checkPubKeyEncoding flags ctx.sigversion vchPubKey
    let fOk := ctx.checker.checkSig vchSig vchPubKey scriptCode ctx.sigversion
    let nSigsLeft := if fOk then nSigsCount else nSigsCount + 1
    let isig := if fOk then isig + 1 else isig
    -- more signatures left than keys
    if nSigsLeft > nKeysCount then pure false
    else multiSigLoop ctx flags stack scriptCode nKeysCount nSigsLeft (ikey + 1) isig

/-- `while (i-- > 1)`: takes the arguments off the stack; the signatures start where `ikey2` has
come down to zero. -/
def multiSigCleanUp (flags : Flags) (fSuccess : Bool) :
    (turns ikey2 : ℕ) → List Valtype → Eval (List Valtype)
  | 0, _, stack => pure stack
  | turns + 1, ikey2, stack => do
    onlyIf (!fSuccess && flags.has .nullFail && ikey2 = 0) do
      let vch ← stacktop stack 1
      errorIf (vch.length ≠ 0) .sigNullFail
    let stack ← popstack stack
    multiSigCleanUp flags fSuccess turns (ikey2 - 1) stack

/-- `OP_CHECKMULTISIG` and `OP_CHECKMULTISIGVERIFY`. -/
def checkMultiSigOp (ctx : EvalContext) (flags : Flags) (verify : Bool) (s : EvalState) :
    Eval EvalState := do
  need 1 s.stack
  let bn ← scriptNum flags s.stack 1
  let keys := getint bn
  errorIf (keys < 0 || keys > MAX_PUBKEYS_PER_MULTISIG) .pubkeyCount
  let nKeysCount := keys.toNat
  let nOpCount := s.nOpCount + nKeysCount
  errorIf (nOpCount > MAX_OPS_PER_SCRIPT) .opCount
  need (2 + nKeysCount) s.stack
  let bn ← scriptNum flags s.stack (2 + nKeysCount)
  let sigs := getint bn
  errorIf (sigs < 0 || sigs > nKeysCount) .sigCount
  let nSigsCount := sigs.toNat
  let isig := 3 + nKeysCount
  need (isig + nSigsCount) s.stack
  let sigs ← multiSigs s.stack isig nSigsCount
  let scriptCode := dropSignatures ctx s.pbegincodehash sigs
  let fSuccess ← multiSigLoop ctx flags s.stack scriptCode nKeysCount nSigsCount 2 isig
  let stack ← multiSigCleanUp flags fSuccess (isig + nSigsCount - 1) (nKeysCount + 2) s.stack
  -- one element more than the arguments is consumed
  need 1 stack
  onlyIf (flags.has .nullDummy) do
    let vch ← stacktop stack 1
    errorIf (vch.length ≠ 0) .sigNullDummy
  let stack ← popstack stack
  let stack ← pushAnswer verify .checkMultiSigVerify fSuccess stack
  pure { s with stack := stack, nOpCount := nOpCount }

/-- `switch (opcode)`. -/
def exec (ctx : EvalContext) (flags : Flags) (fExec : Bool) (s : EvalState) : Instr → Eval EvalState
  | .stack op => do
    let stack ← stackOp ctx flags s.stack op
    pure { s with stack := stack }
  | .if_ => opIf ctx flags fExec false s
  | .notIf => opIf ctx flags fExec true s
  | .else_ => do
    errorIf (s.vfExec = []) .unbalancedConditional
    pure { s with vfExec := (!s.vfExec.headD false) :: s.vfExec.tail }
  | .endIf => do
    errorIf (s.vfExec = []) .unbalancedConditional
    pure { s with vfExec := s.vfExec.tail }
  | .toAltStack => do
    need 1 s.stack
    let vch ← stacktop s.stack 1
    let stack ← popstack s.stack
    pure { s with stack := stack, altstack := vch :: s.altstack }
  | .fromAltStack => do
    errorIf (s.altstack.length < 1) .invalidAltstackOperation
    let vch ← stacktop s.altstack 1
    let altstack ← popstack s.altstack
    pure { s with stack := vch :: s.stack, altstack := altstack }
  | .codeSeparator => pure { s with pbegincodehash := s.pc }
  | .checkSig => checkSigOp ctx flags false s
  | .checkSigVerify => checkSigOp ctx flags true s
  | .checkMultiSig => checkMultiSigOp ctx flags false s
  | .checkMultiSigVerify => checkMultiSigOp ctx flags true s
  | .invalid => throw (.error .badOpcode)

/-- `script.GetOp(pc, opcode, vchPushValue)`. -/
def readOp (pc : CScript) : Eval (UInt8 × Valtype × CScript) :=
  match pc.getOp with
  | some op => pure op
  | none => throw (.error .badOpcode)

def execOp (ctx : EvalContext) (flags : Flags) (fExec : Bool) (opcode : UInt8)
    (vchPushValue : Valtype) (s : EvalState) : Eval EvalState :=
  if fExec && opcode ≤ OP_PUSHDATA4 then do
    errorIf (flags.has .minimalData && !checkMinimalPush vchPushValue opcode) .minimalData
    pure { s with stack := vchPushValue :: s.stack }
  else if fExec || (0x63 ≤ opcode && opcode ≤ 0x68) then exec ctx flags fExec s (instr opcode)
  else pure s

/-- One turn of `while (pc < pend)`. -/
def evalStep (ctx : EvalContext) (flags : Flags) (s : EvalState) : Eval EvalState := do
  let fExec := !s.vfExec.contains false
  let (opcode, vchPushValue, pc) ← readOp s.pc
  errorIf (vchPushValue.length > MAX_SCRIPT_ELEMENT_SIZE) .pushSize
  let nOpCount := if opcode > OP_16 then s.nOpCount + 1 else s.nOpCount
  errorIf (opcode > OP_16 && nOpCount > MAX_OPS_PER_SCRIPT) .opCount
  errorIf (disabledOpcodes.contains opcode) .disabledOpcode
  let s ← execOp ctx flags fExec opcode vchPushValue { s with pc := pc, nOpCount := nOpCount }
  errorIf (s.stack.length + s.altstack.length > 1000) .stackSize
  pure s

/-- `while (pc < pend)`, for so many turns. -/
def evalLoop (ctx : EvalContext) (flags : Flags) : (turns : ℕ) → EvalState → Eval EvalState
  | turns, s =>
    if s.pc = [] then pure s
    else match turns with
    | 0 => throw .running
    | turns + 1 => do
      let s ← evalStep ctx flags s
      evalLoop ctx flags turns s

/-- `catch (...)`: an exception is an error like the others, a failed assertion is not. -/
def catchAll : Halt → Halt
  | .scriptnum _ => .error .unknownError
  | .outOfRange => .error .unknownError
  | .stackEmpty => .error .unknownError
  | .error serror => .error serror
  | .assertion => .assertion
  | .running => .running

def evalScript (ctx : EvalContext) (flags : Flags) (script : CScript) (stack : List Valtype) :
    Eval (List Valtype) := do
  errorIf (script.length > MAX_SCRIPT_SIZE) .scriptSize
  let s ← (evalLoop ctx flags script.length (.new script stack)).mapError catchAll
  errorIf (s.vfExec ≠ []) .unbalancedConditional
  pure s.stack

/-! ### Verification -/

def topIsTrue (stack : List Valtype) : Bool := castToBool (stack.headD [])

/-- What `VerifyWitnessProgram` runs for a program of version 0: a script and its stack. -/
def witnessScript (crypto : ScriptCrypto) (witness : List Valtype) (program : Valtype) :
    Eval (CScript × List Valtype) :=
  if program.length = 32 then do
    errorIf (witness.length = 0) .witnessProgramWitnessEmpty
    let scriptPubKey := witness.getLastD []
    errorIf (crypto.sha256 scriptPubKey ≠ program) .witnessProgramMismatch
    pure (scriptPubKey, witness.dropLast.reverse)
  else if program.length = 20 then do
    errorIf (witness.length ≠ 2) .witnessProgramMismatch
    pure ([0x76, 0xa9] ++ CScript.push program ++ [0x88, 0xac], witness.reverse)
  else throw (.error .witnessProgramWrongLength)

def verifyWitnessProgram (crypto : ScriptCrypto) (checker : BaseSignatureChecker) (flags : Flags)
    (witness : List Valtype) (witversion : ℕ) (program : Valtype) : Eval Unit :=
  if witversion = 0 then do
    let (scriptPubKey, stack) ← witnessScript crypto witness program
    errorIf (stack.any (·.length > MAX_SCRIPT_ELEMENT_SIZE)) .pushSize
    let stack ← evalScript ⟨crypto, checker, .witnessV0⟩ flags scriptPubKey stack
    errorIf (stack.length ≠ 1) .evalFalse
    errorIf (!topIsTrue stack) .evalFalse
  else errorIf (flags.has .discourageUpgradableWitnessProgram) .discourageUpgradableWitnessProgram

/-- The witness program in a script, bare or behind a hash: whether there was one, and the stack
after it. -/
def verifyWitness (crypto : ScriptCrypto) (checker : BaseSignatureChecker) (flags : Flags)
    (witness : List Valtype) (script : CScript) (malleated : Bool) (serror : ScriptError)
    (stack : List Valtype) : Eval (Bool × List Valtype) :=
  if flags.has .witness then do
    match ← script.isWitnessProgram with
    | none => pure (false, stack)
    | some (witnessversion, witnessprogram) => do
      errorIf malleated serror
      verifyWitnessProgram crypto checker flags witness witnessversion witnessprogram
      -- bypasses the clean stack check
      pure (true, stack.drop (stack.length - 1))
  else pure (false, stack)

/-- The part of `VerifyScript` for a script that pays to the hash of another; `stackCopy` is what
`scriptSig` left. -/
def verifyP2SH (crypto : ScriptCrypto) (checker : BaseSignatureChecker) (flags : Flags)
    (scriptSig : CScript) (witness stackCopy : List Valtype) : Eval (Bool × List Valtype) := do
  errorIf (!scriptSig.isPushOnly) .sigPushOnly
  assert (stackCopy ≠ [])
  let pubKey2 : CScript := stackCopy.headD []
  let stack ← popstack stackCopy
  let stack ← evalScript ⟨crypto, checker, .base⟩ flags pubKey2 stack
  errorIf (stack = []) .evalFalse
  errorIf (!topIsTrue stack) .evalFalse
  verifyWitness crypto checker flags witness pubKey2 (scriptSig ≠ CScript.push pubKey2)
    .witnessMalleatedP2SH stack

/-- The checks at the end of `VerifyScript`. -/
def verifyEnd (flags : Flags) (witness : List Valtype) (hadWitness : Bool) (stack : List Valtype) :
    Eval Unit := do
  onlyIf (flags.has .cleanStack) do
    assert (flags.has .p2sh)
    assert (flags.has .witness)
    errorIf (stack.length ≠ 1) .cleanStack
  onlyIf (flags.has .witness) do
    assert (flags.has .p2sh)
    errorIf (!hadWitness && witness ≠ []) .witnessUnexpected

def verifyScript (crypto : ScriptCrypto) (checker : BaseSignatureChecker) (flags : Flags)
    (scriptSig scriptPubKey : CScript) (witness : List Valtype) : Eval Unit := do
  errorIf (flags.has .sigPushOnly && !scriptSig.isPushOnly) .sigPushOnly
  let stackCopy ← evalScript ⟨crypto, checker, .base⟩ flags scriptSig []
  let stack ← evalScript ⟨crypto, checker, .base⟩ flags scriptPubKey stackCopy
  errorIf (stack = []) .evalFalse
  errorIf (!topIsTrue stack) .evalFalse
  let (bare, stack) ← verifyWitness crypto checker flags witness scriptPubKey (scriptSig.length ≠ 0)
    .witnessMalleated stack
  if flags.has .p2sh && scriptPubKey.isPayToScriptHash then do
    let (inner, stack) ← verifyP2SH crypto checker flags scriptSig witness stackCopy
    verifyEnd flags witness (bare || inner) stack
  else verifyEnd flags witness bare stack

end DogecoinCore
