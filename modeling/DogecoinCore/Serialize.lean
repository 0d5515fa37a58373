import DogecoinCore.ByteStream

/-! The number formats of `serialize.h`: compact sizes, vectors behind their size and the
base-128 numbers of `WriteVarInt`, with what their readers make of them. -/
namespace DogecoinCore
open Nat UInt8

def writeCompactSize (nSize : ℕ) : List UInt8 :=
  if nSize < 253 then [ofNat nSize]
  else if nSize ≤ 0xffff then 253 :: littleEndian 2 nSize
  else if nSize ≤ 0xffffffff then 254 :: littleEndian 4 nSize
  else 255 :: littleEndian 8 nSize

def MAX_SIZE : ℕ := 0x02000000

def readCompactSize : Reader ℕ := do
  let chSize ← Reader.byte
  let nSizeRet ← rest chSize
  if nSizeRet > MAX_SIZE then failure else pure nSizeRet
where
  /-- The number that goes with the first byte. -/
  rest (chSize : UInt8) : Reader ℕ :=
    if chSize < 253 then pure chSize.toNat
    else if chSize = 253 then atLeast 253 (readLittleEndian 2)
    else if chSize = 254 then atLeast 0x10000 (readLittleEndian 4)
    else atLeast 0x100000000 (readLittleEndian 8)
  /-- A longer form is not used for a number that has a shorter one. -/
  atLeast (least : ℕ) (r : Reader ℕ) : Reader ℕ := do
    let nSize ← r
    if nSize < least then failure else pure nSize

/-- A `std::vector`. -/
def writeVector {α : Type} (write : α → List UInt8) (v : List α) : List UInt8 :=
  writeCompactSize v.length ++ v.flatMap write

def readVector {α : Type} (read : Reader α) : Reader (List α) := do
  let nSize ← readCompactSize
  read.times nSize

/-- The loop of `WriteVarInt`: `tmp` is written from its end, which is the front here. There are
`slots` bytes left in it. -/
def writeVarInt.loop : (slots n : ℕ) → (tmp : List UInt8) → List UInt8
  | 0, _, tmp => tmp
  | slots + 1, n, tmp =>
    let tmp := ofNat (n % 128 + if tmp.isEmpty then 0 else 128) :: tmp
    if n ≤ 0x7f then tmp else loop slots (n / 128 - 1) tmp

/-- `WriteVarInt` of a number of `w` bits without sign. -/
def writeVarInt (w n : ℕ) : List UInt8 := writeVarInt.loop ((w + 6) / 7) n []

/-- The loop of `ReadVarInt`, in arithmetic of `w` bits. -/
def readVarInt.loop (w n : ℕ) : Reader ℕ
  | [] => none
  | chData :: rest =>
    let n := (n * 128 + chData.toNat % 128) % 2 ^ w
    if chData < 128 then some (n, rest) else loop w ((n + 1) % 2 ^ w) rest

def readVarInt (w : ℕ) : Reader ℕ := readVarInt.loop w 0

/-- `WriteVarInt` of an `int`: a negative one is below `0x7f`, so its low bits are all that is
written. -/
def writeVarIntInt (n : Int32) : List UInt8 :=
  if n < 0 then [ofNat (n.toUInt32.toNat % 128)] else writeVarInt 32 n.toUInt32.toNat

/-- `ReadVarInt` of an `int`. -/
def readVarIntInt : Reader Int32 := do
  let n ← readVarInt 32
  pure (UInt32.ofNat n).toInt32

open Reader

theorem reads_sizeRest (fits : nSize < 2 ^ 64) :
    Reads (Reader.byte >>= readCompactSize.rest) (writeCompactSize nSize) nSize := by
  have long : ∀ (k least : ℕ) (chSize : UInt8), nSize < 256 ^ k → least ≤ nSize →
      readCompactSize.rest chSize = readCompactSize.atLeast least (readLittleEndian k) →
      Reads (Reader.byte >>= readCompactSize.rest) (chSize :: littleEndian k nSize) nSize := by
    intro k least chSize fits enough form
    refine Reads.bind (.byte chSize) ?_
    rw [form]
    exact (reads_littleEndian k nSize fits).bind_pure nSize (if_neg (not_lt.2 enough))
  unfold writeCompactSize
  split
  · next one =>
    have value : (ofNat nSize).toNat = nSize := by
      rw [toNat_ofNat']
      omega
    refine Reads.bind_pure (.byte (ofNat nSize)) nSize ?_
    rw [readCompactSize.rest, if_pos (lt_iff_toNat_lt.2 (by rw [value]; exact one)), value]
  split
  · exact long 2 253 253 (by omega) (by omega) rfl
  split
  · exact long 4 0x10000 254 (by omega) (by omega) rfl
  · exact long 8 0x100000000 255 (by omega) (by omega) rfl

theorem reads_compactSize (small : nSize ≤ MAX_SIZE) :
    Reads readCompactSize (writeCompactSize nSize) nSize := by
  have kept : (if nSize > MAX_SIZE then failure else pure nSize : Reader ℕ) = pure nSize :=
    if_neg (not_lt.2 small)
  have fits : nSize < 2 ^ 64 := by
    unfold MAX_SIZE at small
    omega
  have parts : readCompactSize = (Reader.byte >>= readCompactSize.rest) >>= fun nSizeRet =>
      if nSizeRet > MAX_SIZE then failure else pure nSizeRet :=
    (bind_assoc _ _ _).symm
  rw [parts]
  exact (reads_sizeRest fits).bind_pure nSize kept

theorem reads_vector {write : α → List UInt8} {read : Reader α} {v v' : List α}
    (small : v.length ≤ MAX_SIZE)
    (each : List.Forall₂ (fun a a' => Reads read (write a) a') v v') :
    Reads (readVector read) (writeVector write v) v' :=
  (reads_compactSize small).bind (.times each)

/-- The number that `serialize.h` documents for bytes that follow the digits of `n`. -/
def varIntValue (n : ℕ) : List UInt8 → ℕ
  | [] => n
  | chData :: rest =>
    varIntValue (n * 128 + chData.toNat % 128 + if chData < 128 then 0 else 1) rest

/-- The last byte, and no other, is below `0x80`. -/
def Closed : List UInt8 → Prop
  | [] => False
  | chData :: rest => if chData < 128 then rest = [] else Closed rest

private theorem readVarInt_loop_iff : readVarInt.loop w (a % 2 ^ w) s = some (n, rest) ↔
    ∃ bytes, s = bytes ++ rest ∧ Closed bytes ∧ n = varIntValue a bytes % 2 ^ w := by
  induction s generalizing a with
  | nil => simp +contextual [readVarInt.loop, Closed]
  | cons chData s ih =>
    have parts (P : List UInt8 → Prop) : (∃ bytes, chData :: s = bytes ++ rest ∧ P bytes) ↔
        (chData :: s = rest ∧ P []) ∨ ∃ bytes, s = bytes ++ rest ∧ P (chData :: bytes) := by
      simp only [List.cons_eq_append_iff]
      grind
    rw [parts, readVarInt.loop]
    by_cases last : chData < 128
    · simp [last, Closed, varIntValue, Nat.add_mod, Nat.mul_mod]
      grind
    · simpa [last, Closed, varIntValue, Nat.add_mod, Nat.mul_mod] using
        ih (a := a * 128 + chData.toNat % 128 + 1)

private theorem writeVarInt_turn (low : b.toNat % 128 = n % 128) (flag : b < 128 ↔ t = []) (slots : ℕ) :
    writeVarInt.loop (slots + 1) n t =
      if n ≤ 0x7f then b :: t else writeVarInt.loop slots (n / 128 - 1) (b :: t) := by
  have byte : ofNat (n % 128 + if t.isEmpty then 0 else 128) = b := by
    have high := b.toNat_lt
    rw [lt_iff_toNat_lt, show toNat 128 = 128 from rfl, ← List.isEmpty_iff] at flag
    rw [← UInt8.toNat_inj, toNat_ofNat']
    grind
  rw [writeVarInt.loop, byte]

private theorem writeVarInt_loop_spec (slots : ℕ) (room : n < 128 ^ (slots + 1))
    (closed : t ≠ [] → Closed t) : Closed (writeVarInt.loop (slots + 1) n t) ∧
      varIntValue 0 (writeVarInt.loop (slots + 1) n t) =
        if t = [] then n else varIntValue (n + 1) t := by
  obtain ⟨b, low, flag⟩ : ∃ b : UInt8, b.toNat % 128 = n % 128 ∧ (b < 128 ↔ t = []) := by
    refine ⟨ofNat (n % 128 + if t = [] then 0 else 128), ?_⟩
    rw [lt_iff_toNat_lt, toNat_ofNat', show toNat 128 = 128 from rfl]
    grind
  have head : Closed (b :: t) := by
    simp only [Closed, flag]
    grind
  have value : varIntValue (n / 128) (b :: t) =
      if t = [] then n else varIntValue (n + 1) t := by
    simp only [varIntValue, flag, low, Nat.div_add_mod']
    split <;> simp [*, varIntValue]
  rw [writeVarInt_turn low flag]
  split
  case isTrue one =>
    rw [Nat.div_eq_of_lt (by omega)] at value
    exact ⟨head, value⟩
  cases slots with
  | zero => omega
  | succ slots =>
    rw [Nat.pow_succ] at room
    have rest := writeVarInt_loop_spec slots (n := n / 128 - 1) (by omega) fun _ => head
    rwa [if_neg (List.cons_ne_nil _ _), Nat.sub_add_cancel (by omega), value] at rest

private theorem writeVarInt_value (closed : Closed s) (slots : ℕ) :
    writeVarInt.loop (slots + s.length) (varIntValue a s) [] =
      if a = 0 then s else writeVarInt.loop slots (a - 1) s := by
  induction s generalizing a slots with
  | nil => cases closed
  | cons chData rest ih =>
    have turn := writeVarInt_turn (b := chData) (n := a * 128 + chData.toNat % 128) (t := rest)
      (by omega) (by rw [Closed] at closed; grind [Closed]) slots
    simp only [show a * 128 + chData.toNat % 128 ≤ 0x7f ↔ a = 0 by omega,
      show (a * 128 + chData.toNat % 128) / 128 = a by omega] at turn
    rw [Closed] at closed
    rw [varIntValue]
    split at closed
    case isTrue last =>
      subst closed
      simpa [last, varIntValue] using turn
    case isFalse more =>
      rw [if_neg more, List.length_cons, ← Nat.add_assoc, Nat.add_right_comm, ih closed, ← turn]
      simp

theorem writeVarInt_spec (wide : 0 < w) (fits : n < 2 ^ w) :
    Closed (writeVarInt w n) ∧ varIntValue 0 (writeVarInt w n) = n := by
  obtain ⟨slots, room⟩ : ∃ slots, (w + 6) / 7 = slots + 1 := ⟨(w + 6) / 7 - 1, by omega⟩
  have enough : 2 ^ w ≤ 128 ^ (slots + 1) := by
    rw [show 128 = 2 ^ 7 from rfl, ← pow_mul]
    exact Nat.pow_le_pow_right (by decide) (by omega)
  rw [writeVarInt, room]
  exact writeVarInt_loop_spec slots (lt_of_lt_of_le fits enough) (absurd rfl)

theorem Closed.reads (closed : Closed s) (value : varIntValue 0 s = n) (fits : n < 2 ^ w) :
    Reads (readVarInt w) s n := fun _ =>
  (readVarInt_loop_iff (a := 0)).2 ⟨s, rfl, closed, by rw [value, mod_eq_of_lt fits]⟩

theorem reads_varInt (wide : 0 < w) (fits : n < 2 ^ w) :
    Reads (readVarInt w) (writeVarInt w n) n := by
  obtain ⟨closed, value⟩ := writeVarInt_spec wide fits
  exact closed.reads value fits

theorem readVarInt_lt (read : readVarInt w s = some (n, rest)) : n < 2 ^ w := by
  obtain ⟨_, -, -, rfl⟩ := (readVarInt_loop_iff (a := 0)).1 read
  exact mod_lt _ (Nat.two_pow_pos w)

theorem reads_varInt_byte (wide : 7 ≤ w) (small : k < 128) : Reads (readVarInt w) [ofNat k] k := by
  have room : 2 ^ 7 ≤ 2 ^ w := Nat.pow_le_pow_right (by decide) wide
  have byte : (ofNat k).toNat = k := by
    rw [toNat_ofNat']
    omega
  have last : ofNat k < 128 := by rwa [lt_iff_toNat_lt, byte]
  refine Closed.reads (by simp [Closed, last]) ?_ (lt_of_lt_of_le small room)
  simp [varIntValue, last, byte, mod_eq_of_lt small]

/-- **A number has one encoding** among the bytes whose documented number has `w` bits. -/
theorem varInt_canonical_iff (wide : 0 < w) :
    (∀ n < 2 ^ w, Reads (readVarInt w) (writeVarInt w n) n) ∧
      ∀ s n, readVarInt w s = some (n, []) →
        (s = writeVarInt w n ↔ varIntValue 0 s < 2 ^ w) := by
  refine ⟨fun n fits => reads_varInt wide fits, fun s n read => ⟨?_, fun fits => ?_⟩⟩
  · rintro rfl
    have fits := readVarInt_lt read
    rwa [(writeVarInt_spec wide fits).2]
  obtain ⟨_, same, closed, value⟩ := (readVarInt_loop_iff (a := 0)).1 read
  rw [List.append_nil] at same
  rw [← same] at closed value
  rw [mod_eq_of_lt fits] at value
  obtain ⟨closed', value'⟩ := writeVarInt_spec wide fits
  have one := writeVarInt_value (a := 0) closed (writeVarInt w n).length
  have two := writeVarInt_value (a := 0) closed' s.length
  rw [if_pos rfl] at one two
  rw [value', ← value, Nat.add_comm] at two
  rw [← value] at one
  exact one.symm.trans two

theorem varInt_canonical_byte : (∀ n < 2 ^ 8, Reads (readVarInt 8) (writeVarInt 8 n) n) ∧
    ([0x80, 0x7f] = writeVarInt 8 255 ↔ varIntValue 0 [0x80, 0x7f] < 2 ^ 8) := by
  have both := varInt_canonical_iff (w := 8) (by decide)
  exact ⟨both.1, both.2 _ _ (by decide)⟩

/-- Bits above the width are lost. -/
theorem readVarInt_wraps : readVarInt 32 [0x8f, 0x80, 0x80, 0x80, 0x00] = some (2113664, []) ∧
    writeVarInt 32 2113664 ≠ [0x8f, 0x80, 0x80, 0x80, 0x00] := by
  decide

/-- What an `int` is read back as. -/
def varIntImage (n : Int32) : Int32 :=
  if n < 0 then (UInt32.ofNat (n.toUInt32.toNat % 128)).toInt32 else n

theorem varIntImage_of_nonneg (nonneg : 0 ≤ n) : varIntImage n = n := if_neg (Int32.not_lt.2 nonneg)

theorem reads_varIntInt : Reads readVarIntInt (writeVarIntInt n) (varIntImage n) := by
  unfold writeVarIntInt varIntImage
  by_cases negative : n < 0
  · rw [if_pos negative, if_pos negative]
    have low : n.toUInt32.toNat % 128 < 128 := mod_lt _ (by decide)
    exact (reads_varInt_byte (by decide) low).bind_pure _ rfl
  rw [if_neg negative, if_neg negative]
  refine (reads_varInt (by decide) n.toUInt32.toNat_lt).bind_pure n ?_
  rw [UInt32.ofNat_toNat]
  rfl

theorem writeVarIntInt_image : writeVarIntInt (varIntImage n) = writeVarIntInt n := by
  unfold varIntImage
  by_cases negative : n < 0
  · have low : ∀ k < 128, writeVarIntInt (UInt32.ofNat k).toInt32 = [ofNat k] := by
      decide +kernel
    rw [if_pos negative, low _ (mod_lt _ (by decide)), writeVarIntInt, if_pos negative]
  · rw [if_neg negative]

end DogecoinCore
