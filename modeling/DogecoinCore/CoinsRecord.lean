import DogecoinCore.CoinsCodec
import DogecoinCore.CoinsStack

/-! The record of a transaction in the coins database and in a snapshot: `CCoins::Serialize` with
its mask of the unspent outputs, and what `CCoins::Unserialize` makes of it. -/
namespace DogecoinCore.Coins
open List Reader UInt8 Coins.CTxOut

/-- A byte of the mask, from what the outputs at its eight positions are. -/
def chAvail (f : ℕ → Bool) : UInt8 :=
  (List.range 8).foldl (fun ch i => if f i then ch ||| (1 <<< ofNat i) else ch) 0

def availBits (ch : UInt8) : List Bool := (List.range 8).map fun p => ch &&& (1 <<< ofNat p) != 0

namespace CCoins
def isUnspent (vout : List CTxOut) (i : ℕ) : Bool := vout[i]?.any fun out => !out.isNull

/-- A turn of the loop in `CalcMaskSize`, with `nLastUsedByte` and `nNonzeroBytes`. -/
def calcMaskTurn (vout : List CTxOut) (s : ℕ × ℕ) (b : ℕ) : ℕ × ℕ :=
  let fZero := (List.range 8).all fun i => !isUnspent vout (2 + b * 8 + i)
  if fZero then s else (b + 1, s.2 + 1)

/-- The bytes of the mask that are written, and how many of them are not zero. -/
def calcMaskSize (vout : List CTxOut) : ℕ × ℕ :=
  (List.range ((vout.length + 5) / 8)).foldl (calcMaskTurn vout) (0, 0)

def serialize (keys : PubKeys) (c : CCoins) : List UInt8 :=
  let (nMaskSize, nMaskCode) := calcMaskSize c.vout
  let fFirst := isUnspent c.vout 0
  let fSecond := isUnspent c.vout 1
  let nCode := 8 * (nMaskCode - if fFirst || fSecond then 0 else 1) + (if c.fCoinBase then 1 else 0) +
    (if fFirst then 2 else 0) + (if fSecond then 4 else 0)
  writeVarIntInt c.nVersion ++ writeVarInt 32 (nCode % 2 ^ 32) ++
    (List.range nMaskSize).map (fun b => chAvail fun i => isUnspent c.vout (2 + b * 8 + i)) ++
    (c.vout.flatMap fun out => if out.isNull then [] else CTxOut.serialize keys out) ++
    writeVarIntInt c.nHeight

/-- The loop of `CCoins::Unserialize` over the mask, until so many bytes were not zero. -/
def readMask (nMaskCode : ℕ) : Reader (List UInt8)
  | [] => if nMaskCode = 0 then some ([], []) else none
  | ch :: rest =>
    if nMaskCode = 0 then some ([], ch :: rest)
    else (readMask (if ch = 0 then nMaskCode else nMaskCode - 1) rest).map fun (mask, s) => (ch :: mask, s)

/-- The loop over the outputs: those that are not available are the default output. -/
def readOutputs (keys : PubKeys) : List Bool → Reader (List CTxOut)
  | [] => pure []
  | available :: vAvail => do
    let out ← (if available then unserialize keys else pure .null)
    let vout ← readOutputs keys vAvail
    pure (out :: vout)

/-- The loop over the outputs has 32 bits for the position, and never ends
if there are more. -/
def unserialize (keys : PubKeys) : Reader CCoins := do
  let nVersion ← readVarIntInt
  let nCode ← readVarInt 32
  let fFirst := nCode / 2 % 2 == 1
  let fSecond := nCode / 4 % 2 == 1
  let mask ← readMask (nCode / 8 + if fFirst || fSecond then 0 else 1)
  let vAvail := fFirst :: fSecond :: mask.flatMap availBits
  if vAvail.length < 2 ^ 32 then
    let vout ← readOutputs keys vAvail
    let nHeight ← readVarIntInt
    pure (cleanup { fCoinBase := nCode % 2 == 1, vout, nHeight, nVersion })
  else failure

end CCoins

theorem availBits_chAvail : availBits (chAvail f) = (List.range 8).map f := by
  have table : ∀ b₀ b₁ b₂ b₃ b₄ b₅ b₆ b₇ : Bool,
      availBits (chAvail fun i => [b₀, b₁, b₂, b₃, b₄, b₅, b₆, b₇].getD i false) =
        [b₀, b₁, b₂, b₃, b₄, b₅, b₆, b₇] := by
    decide +kernel
  exact table (f 0) (f 1) (f 2) (f 3) (f 4) (f 5) (f 6) (f 7)

theorem availBits_eq_replicate_iff : availBits ch = replicate 8 false ↔ ch = 0 := by
  have table : ∀ n : Fin 256, availBits (ofNat n) = replicate 8 false ↔ ofNat n = 0 := by
    decide +kernel
  have here := table ⟨ch.toNat, ch.toNat_lt⟩
  rwa [UInt8.ofNat_toNat] at here

theorem chAvail_eq_zero_iff : chAvail f = 0 ↔ (List.range 8).all (fun i => !f i) := by
  rw [← availBits_eq_replicate_iff, availBits_chAvail, eq_replicate_iff]
  simp

namespace CCoins
variable {keys : PubKeys} {c : CCoins} {vout : List CTxOut}

def mask (vout : List CTxOut) (n : ℕ) : List UInt8 :=
  (List.range n).map fun b => chAvail fun i => isUnspent vout (2 + b * 8 + i)

theorem mask_succ : mask vout (n + 1) =
    mask vout n ++ [chAvail fun i => isUnspent vout (2 + n * 8 + i)] := by
  rw [mask, range_succ, map_append]
  rfl

theorem calcMaskTurns :
    ((List.range n).foldl (calcMaskTurn vout) (0, 0)).2 = (mask vout n).countP (· != 0) ∧
      ((∀ nonempty : mask vout n ≠ [], (mask vout n).getLast nonempty ≠ 0) →
        ((List.range n).foldl (calcMaskTurn vout) (0, 0)).1 = n) := by
  induction n with
  | zero => exact ⟨rfl, fun _ => rfl⟩
  | succ n ih =>
    rw [range_succ, foldl_append, foldl_cons, foldl_nil, calcMaskTurn]
    simp only [mask_succ, countP_append, getLast_append_singleton, countP_singleton]
    by_cases zero : ((List.range 8).all fun i => !isUnspent vout (2 + n * 8 + i))
    · have byte := chAvail_eq_zero_iff.2 zero
      simp only [if_pos zero, byte]
      exact ⟨ih.1, fun ne => absurd rfl (ne (by simp))⟩
    have byte : chAvail (fun i => isUnspent vout (2 + n * 8 + i)) ≠ 0 :=
      fun is => zero (chAvail_eq_zero_iff.1 is)
    simp only [if_neg zero]
    refine ⟨?_, fun _ => trivial⟩
    rw [ih.1, if_pos (by simpa using byte)]

theorem readMask_zero : readMask 0 s = some ([], s) := by
  cases s <;> rfl

private theorem reads_mask (bytes : List UInt8) (last : ∀ nonempty : bytes ≠ [], bytes.getLast nonempty ≠ 0) :
    Reads (readMask (bytes.countP (· != 0))) bytes bytes := by
  intro _
  induction bytes with
  | nil => exact readMask_zero
  | cons ch bytes ih =>
    have positive : (ch :: bytes).countP (· != 0) ≠ 0 := by
      intro none
      rw [countP_eq_zero] at none
      have zero := none _ (getLast_mem (cons_ne_nil ch bytes))
      exact last (cons_ne_nil ch bytes) (by simpa using zero)
    have left : (if ch = 0 then (ch :: bytes).countP (· != 0)
        else (ch :: bytes).countP (· != 0) - 1) = bytes.countP (· != 0) := by
      by_cases zero : ch = 0 <;> simp [zero]
    have tail : ∀ nonempty : bytes ≠ [], bytes.getLast nonempty ≠ 0 := by
      intro nonempty
      rw [← getLast_cons nonempty]
      exact last _
    rw [cons_append, readMask, if_neg positive, left, ih tail]
    rfl

private theorem avail_mask (vout : List CTxOut) (n : ℕ) :
    isUnspent vout 0 :: isUnspent vout 1 :: (mask vout n).flatMap availBits =
    (List.range (2 + n * 8)).map (isUnspent vout) := by
  induction n with
  | zero => rfl
  | succ n ih =>
    have split : List.range (2 + (n + 1) * 8) =
        List.range (2 + n * 8) ++ (List.range 8).map (2 + n * 8 + ·) := by
      rw [show 2 + (n + 1) * 8 = 2 + n * 8 + 8 by omega]
      exact range_add
    rw [mask_succ, flatMap_append, ← cons_append, ← cons_append, ih, split,
      map_append, List.map_map, flatMap_singleton, availBits_chAvail]
    rfl

theorem map_isUnspent (room : vout.length ≤ n) : (List.range n).map (isUnspent vout) =
    vout.map (fun out => !out.isNull) ++ replicate (n - vout.length) false := by
  refine ext_getElem ?_ fun i _ _ => ?_
  · simp
    omega
  rw [getElem_map, getElem_range, isUnspent]
  by_cases here : i < vout.length
  · rw [getElem_append_left (by simpa using here), getElem_map, getElem?_eq_getElem here]
    rfl
  rw [getElem_append_right (by simpa using here), getElem_replicate,
    getElem?_eq_none (not_lt.1 here)]
  rfl

structure Storable (out : CTxOut) : Prop where
  value : moneyRange out.nValue = true
  script : out.scriptPubKey.length ≤ 10000

variable {out : CTxOut} {vAvail : List Bool} {s rest : List UInt8}

theorem Storable.isNull (storable : Storable out) : out.isNull = false := by
  rw [CTxOut.isNull, decide_eq_false_iff_not]
  intro null
  have range := storable.value
  rw [null] at range
  exact absurd range (by decide)

theorem reads_nulls : Reads (readOutputs keys (replicate k false)) [] (replicate k .null) := by
  induction k with
  | zero => exact .pure []
  | succ k ih => exact Reads.bind (.pure CTxOut.null) (ih.bind_pure _ rfl)

private theorem reads_outputs (each : ∀ out ∈ vout, Storable out ∨ out = .null) :
    Reads (readOutputs keys (vout.map (fun out => !out.isNull) ++ replicate k false))
      (vout.flatMap fun out => if out.isNull then [] else CTxOut.serialize keys out)
      (vout ++ replicate k .null) := by
  induction vout with
  | nil => exact reads_nulls
  | cons out _ ih =>
    obtain ⟨here, later⟩ := forall_mem_cons.1 each
    refine Reads.bind ?_ ((ih later).bind_pure _ rfl)
    rcases here with storable | rfl
    · simp only [storable.isNull, Bool.not_false, if_true, Bool.false_eq_true, if_false]
      exact reads_serialize storable.value storable.script
    · exact .pure CTxOut.null

theorem rdropWhile_append_nulls (k : ℕ) :
    (vout ++ replicate k CTxOut.null).rdropWhile (·.isNull) = vout.rdropWhile (·.isNull) := by
  induction k with
  | zero => rw [replicate_zero, append_nil]
  | succ k ih => rw [replicate_succ', ← append_assoc, rdropWhile_concat_pos _ _ _ rfl, ih]

structure Writable (c : CCoins) : Prop where
  tidy : c.Tidy
  outputs : ∀ out ∈ c.vout, Storable out ∨ out = .null
  unspent : c.isPruned = false
  positions : c.vout.length + 6 ≤ 2 ^ 32
  nVersion : 0 ≤ c.nVersion
  nHeight : 0 ≤ c.nHeight

theorem isUnspent_of_unspent (found : c.unspent i = some out) : isUnspent c.vout i := by
  obtain ⟨here, there⟩ := unspent_eq_some.1 found
  rw [isUnspent, here, Option.any_some, there]
  rfl

private theorem Writable.mask_last (writable : c.Writable)
    (nonempty : mask c.vout ((c.vout.length + 5) / 8) ≠ []) :
    (mask c.vout ((c.vout.length + 5) / 8)).getLast nonempty ≠ 0 := by
  have nonzero : (c.vout.length + 5) / 8 ≠ 0 := by
    intro zero
    rw [zero] at nonempty
    exact nonempty rfl
  obtain ⟨n, bytes⟩ := Nat.exists_eq_succ_of_ne_zero nonzero
  obtain ⟨_, last⟩ := writable.tidy.last (by omega)
  have last := isUnspent_of_unspent last
  simp only [bytes, Nat.succ_eq_add_one, mask_succ, getLast_append_singleton]
  rw [Ne, chAvail_eq_zero_iff, List.all_eq_true]
  intro none
  have here := none (c.vout.length - 1 - (2 + n * 8)) (List.mem_range.2 (by omega))
  rw [show 2 + n * 8 + (c.vout.length - 1 - (2 + n * 8)) = c.vout.length - 1 by omega, last] at here
  cases here

theorem Writable.calcMaskSize (writable : c.Writable) : calcMaskSize c.vout =
    ((c.vout.length + 5) / 8, (mask c.vout ((c.vout.length + 5) / 8)).countP (· != 0)) := by
  obtain ⟨count, size⟩ := calcMaskTurns
  exact Prod.ext (size writable.mask_last) count

theorem Writable.mask_some (writable : c.Writable) (first : isUnspent c.vout 0 = false)
    (second : isUnspent c.vout 1 = false) :
    (mask c.vout ((c.vout.length + 5) / 8)).countP (· != 0) ≠ 0 := by
  intro none
  have nonempty : mask c.vout ((c.vout.length + 5) / 8) ≠ [] := by
    have outputs : c.vout ≠ [] := by
      rw [Ne, writable.tidy.vout_eq_nil, writable.unspent]
      exact Bool.false_ne_true
    have length := length_pos_of_ne_nil outputs
    obtain ⟨_, last⟩ := writable.tidy.last length
    have last := isUnspent_of_unspent last
    have many : 3 ≤ c.vout.length := by
      by_contra few
      obtain one | two : c.vout.length - 1 = 0 ∨ c.vout.length - 1 = 1 := by omega
      · rw [one, first] at last
        cases last
      · rw [two, second] at last
        cases last
    rw [← length_pos_iff, mask, length_map, length_range]
    omega
  rw [countP_eq_zero] at none
  have zero := none _ (getLast_mem nonempty)
  exact writable.mask_last nonempty (by simpa using zero)

private theorem code_bits {count nCode : ℕ} {fFirst fSecond fCoinBase : Bool}
    (nonzero : fFirst = false → fSecond = false → count ≠ 0)
    (code : nCode = 8 * (count - if fFirst || fSecond then 0 else 1) + (if fCoinBase then 1 else 0) +
      (if fFirst then 2 else 0) + (if fSecond then 4 else 0)) :
    (nCode % 2 == 1) = fCoinBase ∧ (nCode / 2 % 2 == 1) = fFirst ∧ (nCode / 4 % 2 == 1) = fSecond ∧
      nCode / 8 + (if fFirst || fSecond then 0 else 1) = count := by
  cases fFirst <;> cases fSecond <;> cases fCoinBase <;>
    simp only [Bool.or_true, Bool.or_false, Bool.false_eq_true, if_true, if_false, forall_const,
      beq_iff_eq, beq_eq_false_iff_ne, reduceCtorEq, false_implies] at nonzero code ⊢ <;> omega

theorem Writable.reads (writable : c.Writable) : Reads (unserialize keys) (c.serialize keys) c := by
  have positions := writable.positions
  have count : (mask c.vout ((c.vout.length + 5) / 8)).countP (· != 0) ≤ (c.vout.length + 5) / 8 := by
    refine countP_le_length.trans ?_
    rw [mask, length_map, length_range]
  have nonzero := writable.mask_some
  have masked := reads_mask _ writable.mask_last
  have avail := avail_mask c.vout ((c.vout.length + 5) / 8)
  rw [map_isUnspent (by omega)] at avail
  unfold serialize
  simp only [writable.calcMaskSize]
  change Reads _ (_ ++ _ ++ mask c.vout ((c.vout.length + 5) / 8) ++ _ ++ _) _
  generalize mask c.vout ((c.vout.length + 5) / 8) = mask at *
  generalize isUnspent c.vout 0 = fFirst at *
  generalize isUnspent c.vout 1 = fSecond at *
  obtain ⟨nCode, code⟩ : ∃ n, n = 8 * (mask.countP (· != 0) - if fFirst || fSecond then 0 else 1) +
    (if c.fCoinBase then 1 else 0) + (if fFirst then 2 else 0) + (if fSecond then 4 else 0) := ⟨_, rfl⟩
  obtain ⟨coinbase, first, second, bytes⟩ := code_bits nonzero code
  have room : nCode < 2 ^ 32 := by omega
  rw [← code, Nat.mod_eq_of_lt room, append_assoc, append_assoc, append_assoc]
  refine (reads_varIntInt).bind ((reads_varInt (by decide) room).bind ?_)
  simp only [first, second, bytes]
  refine masked.bind ?_
  simp only [avail]
  rw [if_pos (by simp; omega)]
  refine (reads_outputs writable.outputs).bind ((reads_varIntInt).bind_pure c ?_)
  have tidy : ∀ k, (c.vout ++ replicate k CTxOut.null).rdropWhile (·.isNull) = c.vout :=
    fun k => (rdropWhile_append_nulls k).trans (congrArg CCoins.vout writable.tidy)
  rw [coinbase, varIntImage_of_nonneg writable.nVersion, varIntImage_of_nonneg writable.nHeight, cleanup]
  simp [tidy]

/-- The assertion of `CCoins::Serialize`. -/
def serializeAsserts (c : CCoins) : Bool :=
  isUnspent c.vout 0 || isUnspent c.vout 1 || (calcMaskSize c.vout).2 != 0

/-- **A record is read back as it was written**, whatever follows it. -/
theorem record_lossless (keys : PubKeys) (rest : List UInt8) (writable : c.Writable) :
    c.serializeAsserts ∧ unserialize keys (c.serialize keys ++ rest) = some (c, rest) := by
  refine ⟨?_, writable.reads rest⟩
  rw [serializeAsserts, writable.calcMaskSize]
  cases first : isUnspent c.vout 0
  · cases second : isUnspent c.vout 1
    · exact bne_iff_ne.2 (writable.mask_some first second)
    · rfl
  · rfl

/-- Ten spent outputs, then an unspent one. -/
theorem record_lossless_sparse : let c : CCoins := ⟨true, replicate 10 .null ++ [⟨5, [0x51]⟩], 7, 1⟩
    c.Writable ∧ c.serializeAsserts ∧
      unserialize noKeys (c.serialize noKeys ++ [9]) = some (c, [9]) := by
  have writable : CCoins.Writable ⟨true, replicate 10 .null ++ [⟨5, [0x51]⟩], 7, 1⟩ := by
    refine ⟨rfl, fun _ member => ?_, rfl, by decide, by decide, by decide⟩
    rcases mem_append.1 member with spent | last
    · exact .inr (eq_of_mem_replicate spent)
    · rw [mem_singleton.1 last]
      exact .inl ⟨rfl, by decide⟩
  exact ⟨writable, record_lossless noKeys [9] writable⟩

/-- A record with nothing left is cleaned up too, but `Serialize` refuses it. -/
theorem serialize_nothing_left : let c : CCoins := ⟨false, [], 0, 0⟩
    c.Tidy ∧ 0 ≤ c.nVersion ∧ 0 ≤ c.nHeight ∧ c.serializeAsserts = false := by
  exact ⟨rfl, by decide, by decide, rfl⟩

theorem readMask_count {s mask rest : List UInt8}
    (read : readMask nMaskCode s = some (mask, rest)) : mask.countP (· != 0) = nMaskCode := by
  induction s generalizing nMaskCode mask with
  | nil =>
    rw [readMask] at read
    split at read
    · next zero =>
      cases read
      exact zero.symm
    · cases read
  | cons ch s ih =>
    rw [readMask] at read
    split at read
    · next zero =>
      cases read
      exact zero.symm
    next nonzero =>
    obtain ⟨⟨_, _⟩, read, ⟨⟩⟩ := Option.map_eq_some_iff.1 read
    have count := ih read
    by_cases zero : ch = 0
    · simpa [zero] using count
    rw [if_neg zero] at count
    rw [countP_cons, if_pos (by simpa using zero), count]
    omega

private theorem readOutputs_spec (read : readOutputs keys vAvail s = some (vout, rest)) :
    List.Forall₂ (fun available out => if available then out.isNull = false else out = .null)
      vAvail vout := by
  induction vAvail generalizing s vout with
  | nil =>
    cases read
    exact .nil
  | cons available vAvail ih =>
    obtain ⟨out, _, first, read⟩ := bind_eq_some.1 read
    obtain ⟨_, _, later, ⟨⟩⟩ := bind_eq_some.1 read
    refine .cons ?_ (ih later)
    cases available with
    | true => exact isNull_unserialize first
    | false =>
      cases first
      rfl

theorem readOutputs_cases (spec : List.Forall₂ (fun available out =>
    if available then out.isNull = false else out = .null) vAvail vout) :
    vout.length = vAvail.length ∧ (∀ out ∈ vout, out.isNull = false ∨ out = .null) ∧
      (true ∈ vAvail → ∃ out ∈ vout, out.isNull = false) := by
  induction spec with
  | nil => exact ⟨rfl, by simp, by simp⟩
  | @cons available out vAvail vout here _ ih =>
    obtain ⟨length, each, last⟩ := ih
    refine ⟨congrArg (· + 1) length, forall_mem_cons.2 ⟨?_, each⟩, fun mem => ?_⟩
    · cases available with
      | true => exact .inl here
      | false => exact .inr here
    rcases mem_cons.1 mem with rfl | later
    · exact ⟨out, mem_cons_self, here⟩
    · obtain ⟨other, inside, unspent⟩ := last later
      exact ⟨other, mem_cons_of_mem _ inside, unspent⟩

theorem length_availBits (mask : List UInt8) : (mask.flatMap availBits).length = mask.length * 8 := by
  induction mask with
  | nil => rfl
  | cons ch mask ih =>
    have byte : (availBits ch).length = 8 := rfl
    rw [flatMap_cons, length_append, ih, byte, length_cons]
    omega

theorem true_mem_availBits (nonzero : ch ≠ 0) : true ∈ availBits ch := by
  by_contra none
  refine nonzero (availBits_eq_replicate_iff.1 (eq_replicate_iff.2 ⟨rfl, fun bit mem => ?_⟩))
  cases bit with
  | true => exact absurd mem none
  | false => rfl

theorem writable_of_unserialize (read : unserialize keys s = some (c, rest))
    (nVersion : 0 ≤ c.nVersion) (nHeight : 0 ≤ c.nHeight)
    (outputs : ∀ i out, c.unspent i = some out → Storable out) : c.Writable := by
  obtain ⟨_, _, -, read⟩ := bind_eq_some.1 read
  obtain ⟨nCode, _, -, read⟩ := bind_eq_some.1 read
  obtain ⟨mask, _, masked, read⟩ := bind_eq_some.1 read
  have count := readMask_count masked
  split at read
  · next room =>
    obtain ⟨vout, _, outs, read⟩ := bind_eq_some.1 read
    obtain ⟨_, _, -, ⟨⟩⟩ := bind_eq_some.1 read
    obtain ⟨length, each, last⟩ := readOutputs_cases (readOutputs_spec outs)
    have available : true ∈ (nCode / 2 % 2 == 1) :: (nCode / 4 % 2 == 1) :: mask.flatMap availBits := by
      cases first : nCode / 2 % 2 == 1 with
      | true => exact mem_cons_self
      | false =>
        cases second : nCode / 4 % 2 == 1 with
        | true => exact mem_cons_of_mem _ mem_cons_self
        | false =>
          rw [first, second] at count
          have positive : 0 < mask.countP (· != 0) := by
            rw [count]
            exact Nat.succ_pos _
          obtain ⟨ch, mem, byte⟩ := countP_pos_iff.1 positive
          refine mem_cons_of_mem _ (mem_cons_of_mem _ (mem_flatMap.2 ⟨ch, mem, ?_⟩))
          exact true_mem_availBits (by simpa using byte)
    refine ⟨tidy_cleanup _, fun out mem => ?_, ?_, ?_, nVersion, nHeight⟩
    · have inside := rdropWhile_prefix _ _ |>.subset mem
      rcases each out inside with unspent | null
      · obtain ⟨i, here⟩ := mem_iff_getElem?.mp mem
        exact .inl (outputs i out (unspent_eq_some.2 ⟨here, unspent⟩))
      · exact .inr null
    · obtain ⟨out, mem, unspent⟩ := last available
      rw [isPruned_cleanup, ← Bool.not_eq_true, isPruned, List.all_eq_true]
      intro all
      rw [all out mem] at unspent
      cases unspent
    have shorter := rdropWhile_prefix (·.isNull) vout |>.length_le
    change (vout.rdropWhile (·.isNull)).length + 6 ≤ 2 ^ 32
    simp only [length_cons, length_availBits] at length room
    omega
  · cases read

end CCoins

end DogecoinCore.Coins
