import DogecoinCore.Coins
import DogecoinCore.Serialize

/-! How outputs and undo data are stored: the amount and script compression of
`CTxOutCompressor`, and the records of `undo.h`. -/
namespace DogecoinCore.Coins
open List Nat Reader

/-- The loop of `CompressAmount` that takes zeros off the end of the amount. -/
def stripZeros : (turns n e : ℕ) → ℕ × ℕ
  | 0, n, e => (n, e)
  | turns + 1, n, e => if n % 10 = 0 then stripZeros turns (n / 10) (e + 1) else (n, e)

/-- `CompressAmount`, in arithmetic of 64 bits. -/
def compressAmount (n : ℕ) : ℕ :=
  if n = 0 then 0
  else
    let (n, e) := stripZeros 9 n 0
    if e < 9 then (1 + (n / 10 * 9 + n % 10 - 1) * 10 + e) % 2 ^ 64
    else (1 + (n - 1) * 10 + 9) % 2 ^ 64

def decompressAmount (x : ℕ) : ℕ :=
  if x = 0 then 0
  else
    let e := (x - 1) % 10
    let x := (x - 1) / 10
    let n := if e < 9 then x / 9 * 10 + (x % 9 + 1) else x + 1
    n * 10 ^ e % 2 ^ 64

/-- What the script compressor asks of secp256k1: which uncompressed keys are on the curve, and
the key that a compressed one stands for. -/
structure PubKeys where
  isFullyValid : List UInt8 → Bool
  decompress : List UInt8 → Option (List UInt8)
  /-- A point is determined by its first coordinate and the parity of the second. -/
  decompress_valid : ∀ {x y : List UInt8} {low : UInt8}, x.length = 32 → y.length = 31 →
    isFullyValid (4 :: (x ++ y ++ [low])) = true →
    decompress ((2 ||| (low &&& 1)) :: x) = some (4 :: (x ++ y ++ [low]))

def noKeys : PubKeys where
  isFullyValid := fun _ => false
  decompress := fun _ => none
  decompress_valid := fun _ _ valid => by cases valid

variable {keys : PubKeys}

namespace CScript
/-- `OP_DUP OP_HASH160 <hash> OP_EQUALVERIFY OP_CHECKSIG`. -/
def payToKeyID (hash : List UInt8) : CScript := [0x76, 0xa9, 20] ++ hash ++ [0x88, 0xac]

/-- `OP_HASH160 <hash> OP_EQUAL`. -/
def payToScriptID (hash : List UInt8) : CScript := [0xa9, 20] ++ hash ++ [0x87]

/-- `<key> OP_CHECKSIG`. -/
def payToPubKey (key : List UInt8) : CScript := [UInt8.ofNat key.length] ++ key ++ [0xac]

def isToKeyID (script : CScript) : Option (List UInt8) :=
  let hash := (script.drop 3).take 20
  if script.length = 25 ∧ script.take 3 = [0x76, 0xa9, 20] ∧ script.drop 23 = [0x88, 0xac] then
    some hash
  else none

def isToScriptID (script : CScript) : Option (List UInt8) :=
  let hash := (script.drop 2).take 20
  if script.length = 23 ∧ script.take 2 = [0xa9, 20] ∧ script.drop 22 = [0x87] then some hash
  else none

def isToPubKey (keys : PubKeys) (script : CScript) : Option (List UInt8) :=
  if script.length = 35 ∧ (script.take 2 = [33, 2] ∨ script.take 2 = [33, 3]) ∧
      script.drop 34 = [0xac] then
    some ((script.drop 1).take 33)
  else if script.length = 67 ∧ script.take 2 = [65, 4] ∧ script.drop 66 = [0xac] ∧
      keys.isFullyValid ((script.drop 1).take 65) then
    some ((script.drop 1).take 65)
  else none

def compress (keys : PubKeys) (script : CScript) : Option (List UInt8) :=
  match isToKeyID script with
  | some hash => some (0 :: hash)
  | none =>
    match isToScriptID script with
    | some hash => some (1 :: hash)
    | none =>
      match isToPubKey keys script with
      | some (2 :: x) => some (2 :: x.take 32)
      | some (3 :: x) => some (3 :: x.take 32)
      | some (4 :: xy) => some ((4 ||| (xy.getD 63 0 &&& 1)) :: xy.take 32)
      | _ => none

def getSpecialSize (nSize : ℕ) : ℕ :=
  if nSize = 0 ∨ nSize = 1 then 20
  else if nSize = 2 ∨ nSize = 3 ∨ nSize = 4 ∨ nSize = 5 then 32
  else 0

/-- `Decompress`, of a script that was empty. -/
def decompress (keys : PubKeys) (nSize : ℕ) (vch : List UInt8) : CScript :=
  if nSize = 0 then payToKeyID vch
  else if nSize = 1 then payToScriptID vch
  else if nSize = 2 ∨ nSize = 3 then payToPubKey (UInt8.ofNat nSize :: vch)
  else (keys.decompress (UInt8.ofNat (nSize - 2) :: vch)).elim [] payToPubKey

def serialize (keys : PubKeys) (script : CScript) : List UInt8 :=
  match compress keys script with
  | some compr => compr
  | none => writeVarInt 32 ((script.length + 6) % 2 ^ 32) ++ script

def unserialize (keys : PubKeys) : Reader CScript := do
  let nSize ← readVarInt 32
  if nSize < 6 then
    let vch ← bytes (getSpecialSize nSize)
    pure (decompress keys nSize vch)
  else if nSize - 6 > 10000 then
    let _ ← bytes (nSize - 6)
    pure [0x6a]
  else bytes (nSize - 6)

variable {script : CScript} {hash key : List UInt8}

theorem front_middle_back (l : List UInt8) (i j : ℕ) :
    l.take i ++ (l.drop i).take j ++ l.drop (i + j) = l := by
  rw [append_assoc, ← drop_drop, take_append_drop, take_append_drop]

theorem isToKeyID_eq (found : isToKeyID script = some hash) :
    hash.length = 20 ∧ script = payToKeyID hash := by
  unfold isToKeyID at found
  split at found
  · next shape =>
    obtain ⟨length, front, back⟩ := shape
    cases found
    refine ⟨by simp [length], ?_⟩
    rw [payToKeyID, ← front, ← back]
    exact (front_middle_back script 3 20).symm
  · cases found

theorem isToScriptID_eq (found : isToScriptID script = some hash) :
    hash.length = 20 ∧ script = payToScriptID hash := by
  unfold isToScriptID at found
  split at found
  · next shape =>
    obtain ⟨length, front, back⟩ := shape
    cases found
    refine ⟨by simp [length], ?_⟩
    rw [payToScriptID, ← front, ← back]
    exact (front_middle_back script 2 20).symm
  · cases found

private theorem isToPubKey_eq (found : isToPubKey keys script = some key) : script = payToPubKey key ∧
      ((∃ x : List UInt8, x.length = 32 ∧ (key = 2 :: x ∨ key = 3 :: x)) ∨
        ∃ x y : List UInt8, ∃ low, x.length = 32 ∧ y.length = 31 ∧ key = 4 :: (x ++ y ++ [low]) ∧
          keys.isFullyValid key) := by
  have shape : ∀ (n : ℕ) (parity : UInt8), script.length = n + 3 →
      script.take 2 = [UInt8.ofNat (n + 1), parity] → script.drop (n + 2) = [0xac] →
      ∃ body : List UInt8, body.length = n ∧ (script.drop 1).take (n + 1) = parity :: body ∧
        script = payToPubKey (parity :: body) := by
    intro n parity length front back
    have parts : script = UInt8.ofNat (n + 1) :: parity :: script.drop 2 := by
      conv_lhs => rw [← take_append_drop 2 script, front]
      rfl
    generalize script.drop 2 = rest at parts
    subst parts
    have size : rest.length = n + 1 := by simpa using length
    have taken : (rest.take n).length = n := by simp [size]
    refine ⟨rest.take n, taken, rfl, ?_⟩
    rw [payToPubKey, length_cons, taken, ← back]
    change _ = UInt8.ofNat (n + 1) :: parity :: (rest.take n ++ rest.drop n)
    rw [take_append_drop]
  unfold isToPubKey at found
  split at found
  · next test =>
    obtain ⟨length, front | front, back⟩ := test
    · obtain ⟨body, size, taken, whole⟩ := shape 32 2 length front back
      rw [taken] at found
      cases found
      exact ⟨whole, .inl ⟨body, size, .inl rfl⟩⟩
    obtain ⟨body, size, taken, whole⟩ := shape 32 3 length front back
    rw [taken] at found
    cases found
    exact ⟨whole, .inl ⟨body, size, .inr rfl⟩⟩
  split at found
  · next test =>
    obtain ⟨length, front, back, valid⟩ := test
    obtain ⟨body, size, taken, whole⟩ := shape 64 4 length front back
    rw [taken] at found valid
    cases found
    have halves : body = body.take 32 ++ (body.drop 32).take 31 ++ [body.getD 63 0] := by
      have last : body.drop 63 = [body.getD 63 0] := by
        rw [drop_eq_getElem_cons (by omega), drop_of_length_le (by omega),
          getD_eq_getElem?_getD, getElem?_eq_getElem (by omega), Option.getD_some]
      rw [← last]
      exact (front_middle_back body 32 31).symm
    exact ⟨whole, .inr ⟨body.take 32, (body.drop 32).take 31, body.getD 63 0, by simp [size],
      by simp [size], by rw [← halves], valid⟩⟩
  · cases found

theorem compress_eq (found : compress keys script = some compr) :
    ∃ nSize < 6, ∃ vch : List UInt8, compr = UInt8.ofNat nSize :: vch ∧
      vch.length = getSpecialSize nSize ∧ decompress keys nSize vch = script := by
  unfold compress at found
  split at found
  · next hash shape =>
    cases found
    obtain ⟨length, rfl⟩ := isToKeyID_eq shape
    exact ⟨0, by decide, hash, rfl, length, rfl⟩
  split at found
  · next hash shape =>
    cases found
    obtain ⟨length, rfl⟩ := isToScriptID_eq shape
    exact ⟨1, by decide, hash, rfl, length, rfl⟩
  cases shape : isToPubKey keys script with
  | none =>
    rw [shape] at found
    cases found
  | some _ =>
    rw [shape] at found
    obtain ⟨rfl, ⟨x, length, rfl | rfl⟩ | ⟨x, y, low, first, second, rfl, valid⟩⟩ :=
      isToPubKey_eq shape
    · cases found
      have all : x.take 32 = x := take_of_length_le (by omega)
      exact ⟨2, by decide, x, by rw [all]; rfl, length, rfl⟩
    · cases found
      have all : x.take 32 = x := take_of_length_le (by omega)
      exact ⟨3, by decide, x, by rw [all]; rfl, length, rfl⟩
    cases found
    have all : (x ++ y ++ [low]).take 32 = x := by rw [append_assoc, take_left' first]
    have last : (x ++ y ++ [low]).getD 63 0 = low := by simp [first, second]
    have back := keys.decompress_valid first second valid
    rw [all, last]
    obtain even | odd : low &&& 1 = 0 ∨ low &&& 1 = 1 := by
      rw [← UInt8.toNat_inj, ← UInt8.toNat_inj, UInt8.toNat_and]
      exact and_one_is_mod low.toNat ▸ mod_two_eq_zero_or_one low.toNat
    · rw [even] at back ⊢
      refine ⟨4, by decide, x, rfl, first, ?_⟩
      change (keys.decompress (2 :: x)).elim [] payToPubKey = _
      rw [show keys.decompress (2 :: x) = _ from back]
      rfl
    rw [odd] at back ⊢
    refine ⟨5, by decide, x, rfl, first, ?_⟩
    change (keys.decompress (3 :: x)).elim [] payToPubKey = _
    rw [show keys.decompress (3 :: x) = _ from back]
    rfl

theorem reads_serialize (short : script.length ≤ 10000) :
    Reads (unserialize keys) (serialize keys script) script := by
  unfold serialize
  split
  · next compr found =>
    obtain ⟨_, small, vch, rfl, length, back⟩ := compress_eq found
    refine Reads.bind (reads_varInt_byte (by decide) (by omega)) ?_
    rw [if_pos small, ← length]
    exact (Reads.bytes vch).bind_pure script (by rw [back])
  have size : (script.length + 6) % 2 ^ 32 = script.length + 6 := mod_eq_of_lt (by omega)
  rw [size]
  refine Reads.bind (reads_varInt (by decide) (by omega)) ?_
  rw [if_neg (by omega), if_neg (by omega), Nat.add_sub_cancel]
  exact .bytes script

end CScript

private theorem stripZeros_spec (turns n e : ℕ) (positive : 0 < n) :
    (stripZeros turns n e).1 * 10 ^ (stripZeros turns n e).2 = n * 10 ^ e ∧
      0 < (stripZeros turns n e).1 ∧ (stripZeros turns n e).1 ≤ n ∧
      (stripZeros turns n e).2 ≤ e + turns ∧
      ((stripZeros turns n e).2 < e + turns → (stripZeros turns n e).1 % 10 ≠ 0) := by
  induction turns generalizing n e with
  | zero => exact ⟨rfl, positive, le_rfl, le_rfl, fun more => absurd more (lt_irrefl e)⟩
  | succ turns ih =>
    unfold stripZeros
    by_cases zero : n % 10 = 0
    · rw [if_pos zero]
      obtain ⟨same, nonzero, _, _, digit⟩ := ih (n / 10) (e + 1) (by omega)
      refine ⟨?_, nonzero, by omega, by omega, fun more => digit (by omega)⟩
      rw [same, pow_succ', ← mul_assoc, show n / 10 * 10 = n by omega]
    · rw [if_neg zero]
      exact ⟨rfl, positive, le_rfl, by omega, fun _ => zero⟩

private theorem decompressAmount_compressAmount (range : n ≤ 10 ^ 18) :
    decompressAmount (compressAmount n) = n ∧ compressAmount n < 2 ^ 64 := by
  by_cases zero : n = 0
  · subst zero
    exact ⟨rfl, by decide⟩
  obtain ⟨same, nonzero, less, most, digit⟩ := stripZeros_spec 9 n 0 (by omega)
  rw [compressAmount, if_neg zero]
  generalize stripZeros 9 n 0 = stripped at *
  obtain ⟨m, e⟩ := stripped
  simp only [pow_zero, mul_one, zero_add] at same nonzero less most digit ⊢
  by_cases digitLeft : e < 9
  · have last := digit digitLeft
    have fits : 1 + (m / 10 * 9 + m % 10 - 1) * 10 + e < 2 ^ 64 := by omega
    rw [if_pos digitLeft, mod_eq_of_lt fits]
    refine ⟨?_, fits⟩
    have code : 1 + (m / 10 * 9 + m % 10 - 1) * 10 + e - 1 = (m / 10 * 9 + m % 10 - 1) * 10 + e := by
      omega
    rw [decompressAmount, if_neg (by omega), code]
    have low : ((m / 10 * 9 + m % 10 - 1) * 10 + e) % 10 = e := by omega
    have high : ((m / 10 * 9 + m % 10 - 1) * 10 + e) / 10 = m / 10 * 9 + m % 10 - 1 := by omega
    simp only [low, high, if_pos digitLeft]
    rw [show (m / 10 * 9 + m % 10 - 1) / 9 * 10 + ((m / 10 * 9 + m % 10 - 1) % 9 + 1) = m by omega,
      same, mod_eq_of_lt (by omega)]
  obtain rfl : e = 9 := by omega
  have fits : 1 + (m - 1) * 10 + 9 < 2 ^ 64 := by omega
  rw [if_neg digitLeft, mod_eq_of_lt fits]
  refine ⟨?_, fits⟩
  rw [decompressAmount, if_neg (by omega)]
  have low : (1 + (m - 1) * 10 + 9 - 1) % 10 = 9 := by omega
  have high : (1 + (m - 1) * 10 + 9 - 1) / 10 = m - 1 := by omega
  simp only [low, high, lt_irrefl, if_false]
  rw [Nat.sub_add_cancel nonzero, same, mod_eq_of_lt (by omega)]

private theorem decompressAmount_ne_null (fits : x < 2 ^ 64) : decompressAmount x ≠ 2 ^ 64 - 1 := by
  intro null
  unfold decompressAmount at null
  split at null
  · cases null
  dsimp only at null
  generalize exponent : (x - 1) % 10 = e at null
  generalize digits : (x - 1) / 10 = d at null
  cases e with
  | zero =>
    rw [if_pos (by decide), pow_zero, mul_one] at null
    rw [mod_eq_of_lt (by omega)] at null
    omega
  | succ e =>
    -- A power of ten makes the amount even.
    rw [pow_succ, ← mul_assoc] at null
    generalize (if e + 1 < 9 then d / 9 * 10 + (d % 9 + 1) else d + 1) * 10 ^ e = tenth at null
    omega

namespace CTxOut
/-- `CTxOutCompressor`, writing. -/
def serialize (keys : PubKeys) (txout : CTxOut) : List UInt8 :=
  writeVarInt 64 (compressAmount txout.nValue.toUInt64.toNat) ++
    CScript.serialize keys txout.scriptPubKey

/-- `CTxOutCompressor`, reading. -/
def unserialize (keys : PubKeys) : Reader CTxOut := do
  let nVal ← readVarInt 64
  let scriptPubKey ← CScript.unserialize keys
  pure ⟨(UInt64.ofNat (decompressAmount nVal)).toInt64, scriptPubKey⟩

theorem reads_serialize (range : moneyRange txout.nValue)
    (short : txout.scriptPubKey.length ≤ 10000) :
    Reads (unserialize keys) (serialize keys txout) txout := by
  have value : txout.nValue.toUInt64.toNat ≤ 10 ^ 18 := by
    obtain ⟨_, _⟩ := moneyRange_iff.1 range
    have bits : txout.nValue.toInt = if 2 * txout.nValue.toUInt64.toNat < 2 ^ 64 then
        (txout.nValue.toUInt64.toNat : ℤ) else txout.nValue.toUInt64.toNat - 2 ^ 64 :=
      BitVec.toInt_eq_toNat_cond txout.nValue.toBitVec
    have bound := txout.nValue.toUInt64.toNat_lt
    split at bits <;> omega
  obtain ⟨back, fits⟩ := decompressAmount_compressAmount value
  refine Reads.bind (reads_varInt (by decide) fits)
    ((CScript.reads_serialize short).bind_pure txout ?_)
  rw [back, UInt64.ofNat_toNat]
  rfl

theorem isNull_unserialize {txout : CTxOut}
    (read : unserialize keys s = some (txout, rest)) : txout.isNull = false := by
  obtain ⟨nVal, _, amount, read⟩ := bind_eq_some.1 read
  obtain ⟨_, _, -, ⟨⟩⟩ := bind_eq_some.1 read
  rw [CTxOut.isNull, decide_eq_false_iff_not]
  intro null
  have fits := decompressAmount_ne_null (readVarInt_lt amount)
  have small : decompressAmount nVal < 2 ^ 64 := by
    unfold decompressAmount
    split
    · decide
    · exact mod_lt _ (by decide)
  have value := congrArg (fun n : Int64 => n.toUInt64.toNat) null
  change (UInt64.ofNat (decompressAmount nVal)).toNat = 2 ^ 64 - 1 at value
  rw [UInt64.toNat_ofNat', mod_eq_of_lt small] at value
  exact fits value

end CTxOut

structure CTxInUndo where
  txout : CTxOut
  fCoinBase : Bool
  nHeight : UInt32
  nVersion : Int32
  deriving DecidableEq, Repr

/-- Its `vprevout`. -/
abbrev CTxUndo := List CTxInUndo

/-- Its `vtxundo`. -/
abbrev CBlockUndo := List CTxUndo

namespace CTxInUndo
def serialize (keys : PubKeys) (undo : CTxInUndo) : List UInt8 :=
  writeVarInt 32 ((undo.nHeight.toNat * 2 + if undo.fCoinBase then 1 else 0) % 2 ^ 32) ++
    (if 0 < undo.nHeight then writeVarIntInt undo.nVersion else []) ++
    CTxOut.serialize keys undo.txout

def unserialize (keys : PubKeys) : Reader CTxInUndo := do
  let nCode ← readVarInt 32
  let nVersion ← (if 0 < nCode / 2 then readVarIntInt else pure 0 : Reader Int32)
  let txout ← CTxOut.unserialize keys
  pure ⟨txout, nCode % 2 == 1, UInt32.ofNat (nCode / 2), nVersion⟩

/-- What is read back: the version of a transaction that has outputs left is not stored, and a
negative one is not stored in full. -/
def image (undo : CTxInUndo) : CTxInUndo :=
  { undo with nVersion := if 0 < undo.nHeight then varIntImage undo.nVersion else 0 }

/-- An output that can be stored, and a height that leaves room for the coinbase bit. -/
structure Storable (undo : CTxInUndo) : Prop where
  value : moneyRange undo.txout.nValue = true
  script : undo.txout.scriptPubKey.length ≤ 10000
  height : undo.nHeight.toNat < 2 ^ 31

theorem Storable.reads (storable : undo.Storable) :
    Reads (unserialize keys) (serialize keys undo) undo.image := by
  have small := storable.height
  obtain ⟨bit, flag⟩ : ∃ bit : ℕ, (if undo.fCoinBase then 1 else 0) = bit := ⟨_, rfl⟩
  have isBit : bit ≤ 1 ∧ (bit == 1) = undo.fCoinBase := by
    rw [← flag]
    cases undo.fCoinBase <;> decide
  have half : (undo.nHeight.toNat * 2 + bit) / 2 = undo.nHeight.toNat := by omega
  have rest : (undo.nHeight.toNat * 2 + bit) % 2 = bit := by omega
  have positive : 0 < undo.nHeight ↔ 0 < undo.nHeight.toNat := UInt32.lt_iff_toNat_lt
  have version : Reads (if 0 < undo.nHeight.toNat then readVarIntInt else pure 0)
      (if 0 < undo.nHeight then writeVarIntInt undo.nVersion else [])
      (if 0 < undo.nHeight then varIntImage undo.nVersion else 0) := by
    by_cases last : 0 < undo.nHeight
    · rw [if_pos last, if_pos last, if_pos (positive.1 last)]
      exact reads_varIntInt
    · rw [if_neg last, if_neg last, if_neg (last ∘ positive.2)]
      exact .pure 0
  rw [serialize, flag, mod_eq_of_lt (by omega), append_assoc]
  refine Reads.bind (reads_varInt (by decide) (by omega)) ?_
  rw [half, rest]
  refine version.bind ((CTxOut.reads_serialize storable.value storable.script).bind_pure _ ?_)
  rw [isBit.2, UInt32.ofNat_toNat]
  rfl

theorem serialize_image (keys : PubKeys) (undo : CTxInUndo) :
    undo.image.serialize keys = undo.serialize keys := by
  unfold serialize image
  by_cases last : 0 < undo.nHeight
  · simp [if_pos last, writeVarIntInt_image]
  · simp [if_neg last]

end CTxInUndo

def CBlockUndo.image (undo : CBlockUndo) : CBlockUndo := undo.map fun tx => tx.map CTxInUndo.image

def CBlockUndo.serialize (keys : PubKeys) (undo : CBlockUndo) : List UInt8 :=
  writeVector (writeVector (CTxInUndo.serialize keys)) undo

def CBlockUndo.unserialize (keys : PubKeys) : Reader CBlockUndo :=
  readVector (readVector (CTxInUndo.unserialize keys))

theorem CBlockUndo.reads (small : undo.length ≤ MAX_SIZE)
    (each : ∀ tx ∈ undo, tx.length ≤ MAX_SIZE ∧ ∀ u ∈ tx, u.Storable) :
    Reads (unserialize keys) (serialize keys undo) undo.image := by
  have items : ∀ tx ∈ undo, List.Forall₂ (fun u u' => Reads (CTxInUndo.unserialize keys)
      (CTxInUndo.serialize keys u) u') tx (tx.map CTxInUndo.image) := by
    intro tx mem
    rw [forall₂_map_right_iff, forall₂_same]
    exact fun u inside => ((each tx mem).2 u inside).reads
  refine reads_vector small ?_
  rw [CBlockUndo.image, forall₂_map_right_iff, forall₂_same]
  exact fun tx mem => reads_vector (each tx mem).1 (items tx mem)

theorem CBlockUndo.serialize_image (keys : PubKeys) (undo : CBlockUndo) :
    serialize keys undo.image = serialize keys undo := by
  unfold serialize image writeVector
  simp [flatMap_map, CTxInUndo.serialize_image]

end DogecoinCore.Coins
