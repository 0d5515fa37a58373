import Mathlib.Algebra.Order.Ring.Nat
import Mathlib.Data.Nat.Bitwise
import Mathlib.Data.Nat.Size

/-! The work behind a block: `GetBlockProof` over the 256-bit numbers of `arith_uint256.cpp`. -/
namespace DogecoinCore
open Nat

/-- The turns that are left of the loop in `operator/=`. -/
def divLoop : (turns num div quotient : ℕ) → ℕ
  | 0, _, _, quotient => quotient
  | shift + 1, num, div, quotient =>
    if num ≥ div then divLoop shift (num - div) (div / 2) (quotient ||| 2 ^ shift)
    else divLoop shift num (div / 2) quotient

/-- `operator/=`; none where it throws. -/
def divide (num div : ℕ) : Option ℕ :=
  if div.size = 0 then none
  else if div.size > num.size then some 0
  else
    let shift := num.size - div.size
    some (divLoop (shift + 1) num (div * 2 ^ shift % 2 ^ 256) 0)

def setCompact (nCompact : UInt32) : ℕ × Bool × Bool :=
  let nSize := (nCompact >>> 24).toNat
  let nWord := (nCompact &&& 0x007fffff).toNat >>> (8 * (3 - nSize))
  (nWord * 2 ^ (8 * (nSize - 3)) % 2 ^ 256, nWord ≠ 0 && nCompact &&& 0x00800000 ≠ 0,
    nWord ≠ 0 && (nSize > 34 || (nWord > 0xff && nSize > 33) || (nWord > 0xffff && nSize > 32)))

def getBlockProof (nBits : UInt32) : Option ℕ :=
  let (bnTarget, fNegative, fOverflow) := setCompact nBits
  if fNegative || fOverflow || bnTarget = 0 then some 0
  else (divide (2 ^ 256 - 1 - bnTarget) ((bnTarget + 1) % 2 ^ 256)).map fun q => (q + 1) % 2 ^ 256

private theorem divLoop_eq (below : num < d * 2 ^ turns) :
    divLoop turns num (d * 2 ^ turns / 2) (2 ^ turns * k) = 2 ^ turns * k + num / d := by
  induction turns generalizing num k with
  | zero => rw [divLoop, Nat.div_eq_of_lt (by simpa using below), Nat.add_zero]
  | succ n ih =>
    have double : 2 ^ (n + 1) * k = 2 ^ n * (2 * k) := by rw [Nat.pow_succ, Nat.mul_assoc]
    rw [Nat.pow_succ, ← Nat.mul_assoc] at below
    rw [Nat.pow_succ 2 n, ← Nat.mul_assoc, Nat.mul_div_cancel _ (by decide), ← Nat.pow_succ, divLoop]
    split
    case isTrue more =>
      have pos : 0 < d := Nat.pos_of_ne_zero (by rintro rfl; simp at below)
      have quot := Nat.add_mul_div_left (num - d * 2 ^ n) (2 ^ n) pos
      rw [Nat.sub_add_cancel more] at quot
      -- The quotient is a multiple of twice the bit that is set, so setting it adds it.
      have set : 2 ^ (n + 1) * k ||| 2 ^ n = 2 ^ n * (2 * k + 1) := by
        rw [← Nat.two_pow_add_eq_or_of_lt (Nat.pow_lt_pow_succ (by decide)), double, Nat.mul_succ]
      rw [set, ih (by omega), double, quot, Nat.mul_succ]
      omega
    case isFalse less => rw [double, ih (by omega)]

theorem divide_eq (nonzero : div ≠ 0) (small : num < 2 ^ 256) : divide num div = some (num / div) := by
  have zero : div.size ≠ 0 := mt size_eq_zero.1 nonzero
  obtain ⟨top, width⟩ := Nat.exists_eq_add_one_of_ne_zero zero
  have high : 2 ^ top ≤ div := lt_size.1 (by omega)
  have low := lt_size_self num
  rw [divide, if_neg zero]
  split
  case isTrue more =>
    have := Nat.pow_le_pow_right (n := 2) (by decide) (show num.size ≤ top by omega)
    rw [Nat.div_eq_of_lt (by omega)]
  case isFalse fits =>
    obtain ⟨shift, wide⟩ := Nat.exists_eq_add_of_le (Nat.not_lt.1 fits)
    have room := Nat.pow_le_pow_right (n := 2) (by decide) (size_le.2 small)
    have within : div * 2 ^ shift < 2 ^ num.size := by
      rw [wide, Nat.pow_add]
      exact Nat.mul_lt_mul_of_pos_right (lt_size_self _) (Nat.two_pow_pos shift)
    have below : num < div * 2 ^ (shift + 1) := by
      rw [wide, width, Nat.add_right_comm, Nat.add_assoc, Nat.pow_add] at low
      exact low.trans_le (Nat.mul_le_mul_right _ high)
    have divided := divLoop_eq (k := 0) below
    rw [Nat.pow_succ 2 shift, ← Nat.mul_assoc, Nat.mul_div_cancel _ (by decide)] at divided
    dsimp only
    rw [wide, Nat.add_sub_cancel_left, Nat.mod_eq_of_lt (by omega)]
    simpa using divided

theorem shifted_lt (word : w < 2 ^ 32) : w * 2 ^ e % 2 ^ 256 + 1 < 2 ^ 256 := by
  cases e with
  | zero => omega
  | succ e =>
    rw [Nat.pow_succ 2 e, ← Nat.mul_assoc]
    omega

private theorem setCompact_lt (nCompact : UInt32) : (setCompact nCompact).1 + 1 < 2 ^ 256 :=
  shifted_lt ((shiftRight_le ..).trans_lt (UInt32.toNat_lt _))

def ValidBits (nBits : UInt32) : Prop :=
  (setCompact nBits).2.1 = false ∧ (setCompact nBits).2.2 = false ∧ (setCompact nBits).1 ≠ 0

theorem getBlockProof_valid (valid : ValidBits nBits) :
    getBlockProof nBits = some (2 ^ 256 / ((setCompact nBits).1 + 1)) := by
  have next := setCompact_lt nBits
  obtain ⟨nonneg, fits, nonzero⟩ := valid
  simp only [getBlockProof, nonneg, fits]
  generalize (setCompact nBits).1 = t at nonzero next
  have whole := Nat.add_div_right (2 ^ 256 - 1 - t) (show 0 < t + 1 by omega)
  rw [show 2 ^ 256 - 1 - t + (t + 1) = 2 ^ 256 by omega] at whole
  have half := Nat.div_le_div_left (a := 2 ^ 256) (show 2 ≤ t + 1 by omega) (by decide)
  rw [if_neg (by simpa using nonzero), Nat.mod_eq_of_lt next, divide_eq (by omega) (by omega), whole]
  exact congrArg Option.some (Nat.mod_eq_of_lt (by omega))

theorem getBlockProof_invalid (invalid : ¬ ValidBits nBits) : getBlockProof nBits = some 0 := by
  unfold ValidBits at invalid
  unfold getBlockProof
  generalize setCompact nBits = decoded at invalid
  refine if_pos ?_
  grind

/-- **The proof of a block is the work its target takes**, and a lower target takes no less. -/
theorem getBlockProof_exact (nBits : UInt32) :
    (ValidBits nBits → getBlockProof nBits = some (2 ^ 256 / ((setCompact nBits).1 + 1))) ∧
    (¬ ValidBits nBits → getBlockProof nBits = some 0) ∧
    ∀ other, ValidBits nBits → (setCompact nBits).1 < (setCompact other).1 →
      (getBlockProof other).getD 0 ≤ (getBlockProof nBits).getD 0 := by
  refine ⟨getBlockProof_valid, getBlockProof_invalid, fun other valid lower => ?_⟩
  rw [getBlockProof_valid valid]
  by_cases also : ValidBits other
  · rw [getBlockProof_valid also]
    exact Nat.div_le_div_left (succ_le_succ lower.le) (succ_pos _)
  · rw [getBlockProof_invalid also]
    exact Nat.zero_le _

/-! ### Compact targets -/

def getCompact (n : ℕ) (fNegative : Bool) : Option UInt32 :=
  let nSize := (n.size + 7) / 8
  let nCompact := if nSize ≤ 3 then n % 2 ^ 64 * 2 ^ (8 * (3 - nSize)) % 2 ^ 32
    else n / 2 ^ (8 * (nSize - 3)) % 2 ^ 32
  let (nCompact, nSize) := if nCompact.testBit 23 then (nCompact / 256, nSize + 1)
    else (nCompact, nSize)
  if nCompact < 2 ^ 23 ∧ nSize < 256 then
    some (.ofNat (2 ^ 24 * nSize ||| nCompact ||| if fNegative && nCompact ≠ 0 then 2 ^ 23 else 0))
  else none

/-- The three highest of `s` bytes. -/
def lead (n s : ℕ) : ℕ := n * 2 ^ (8 * (3 - s)) / 2 ^ (8 * (s - 3))

theorem lead_lt_iff (room : 24 ≤ k + 8 * s) : lead n s < 2 ^ k ↔ n < 2 ^ (k + 8 * s - 24) := by
  rw [lead, Nat.div_lt_iff_lt_mul (Nat.two_pow_pos _), ← Nat.pow_add,
    show k + 8 * (s - 3) = k + 8 * s - 24 + 8 * (3 - s) by omega, Nat.pow_add,
    Nat.mul_lt_mul_right (Nat.two_pow_pos _)]

theorem lead_succ : lead n s / 256 = lead n (s + 1) := by
  unfold lead
  rcases Nat.lt_or_ge s 3 with low | high
  · rw [show 8 * (s - 3) = 0 by omega, show 8 * (s + 1 - 3) = 0 by omega,
      show 8 * (3 - s) = 8 * (3 - (s + 1)) + 8 by omega, Nat.pow_add, ← Nat.mul_assoc]
    simp
  · rw [show 8 * (3 - s) = 0 by omega, show 8 * (3 - (s + 1)) = 0 by omega,
      show 8 * (s + 1 - 3) = 8 * (s - 3) + 8 by omega, Nat.pow_add, Nat.div_div_eq_div_mul]

theorem lead_div : lead n s / 2 ^ (8 * (3 - s)) = n / 2 ^ (8 * (s - 3)) := by
  rw [lead]
  rcases Nat.lt_or_ge s 3 with low | high
  · simp [show s - 3 = 0 by omega]
  · simp [show 3 - s = 0 by omega]

theorem lead_rounded : lead (n / 2 ^ (8 * (s - 3)) * 2 ^ (8 * (s - 3))) s = lead n s := by
  rw [lead, lead]
  rcases Nat.lt_or_ge s 3 with low | high
  · simp [show s - 3 = 0 by omega]
  · simp [show 3 - s = 0 by omega]

private theorem getCompact_eq (nonzero : n ≠ 0) (small : n < 2 ^ 256) :
    getCompact n false = .some (.ofNat (2 ^ 24 * (n.size / 8 + 1) + lead n (n.size / 8 + 1))) := by
  have width := size_le.2 small
  have pos := size_pos.2 (Nat.pos_of_ne_zero nonzero)
  obtain ⟨z, bytes⟩ : ∃ z, z = (n.size + 7) / 8 := ⟨_, rfl⟩
  have fits : n < 2 ^ (8 * z) := size_le.1 (by omega)
  have bound : lead n z < 2 ^ 24 := (lead_lt_iff (by omega)).2 (by simpa using fits)
  have raw : (if z ≤ 3 then n % 2 ^ 64 * 2 ^ (8 * (3 - z)) % 2 ^ 32
      else n / 2 ^ (8 * (z - 3)) % 2 ^ 32) = lead n z := by
    unfold lead at *
    split
    case isTrue short =>
      have := fits.trans_le (Nat.pow_le_pow_right (by decide) (show 8 * z ≤ 64 by omega))
      rw [show 8 * (z - 3) = 0 by omega, Nat.pow_zero, Nat.div_one] at *
      rw [Nat.mod_eq_of_lt this, Nat.mod_eq_of_lt (by omega)]
    case isFalse long =>
      rw [show 8 * (3 - z) = 0 by omega, Nat.pow_zero, Nat.mul_one] at *
      rw [Nat.mod_eq_of_lt (by omega)]
  have word : lead n (n.size / 8 + 1) < 2 ^ 23 := (lead_lt_iff (by omega)).2 (size_le.1 (by omega))
  have sign : (lead n z).testBit 23 ↔ n.size / 8 + 1 = z + 1 := by
    have := (lead_lt_iff (n := n) (k := 23) (s := z) (by omega)).trans size_le.symm
    rw [Nat.testBit_eq_decide_div_mod_eq, decide_eq_true_iff]
    omega
  simp only [getCompact, ← bytes, raw, sign]
  split
  case isTrue more =>
    rw [lead_succ, ← more, if_pos (by omega), Bool.false_and, if_neg (by decide), Nat.or_zero,
      ← Nat.two_pow_add_eq_or_of_lt (by omega)]
  case isFalse less =>
    rw [show n.size / 8 + 1 = z by omega] at word ⊢
    rw [if_pos (by omega), Bool.false_and, if_neg (by decide), Nat.or_zero,
      ← Nat.two_pow_add_eq_or_of_lt (by omega)]

def encoded (nCompact : UInt32) : ℕ :=
  let nSize := (nCompact >>> 24).toNat
  (nCompact &&& 0x007fffff).toNat / 2 ^ (8 * (3 - nSize)) * 2 ^ (8 * (nSize - 3))

theorem setCompact_fst (c : UInt32) : (setCompact c).1 = encoded c % 2 ^ 256 := by
  simp only [setCompact, encoded, Nat.shiftRight_eq_div_pow]

theorem overflow_iff (word : w < 2 ^ 23) :
    (w ≠ 0 ∧ ((s > 34 ∨ w > 0xff ∧ s > 33) ∨ w > 0xffff ∧ s > 32)) ↔
      2 ^ 256 ≤ w * 2 ^ (8 * (s - 3)) := by
  rcases (by omega : s ≤ 32 ∨ s = 33 ∨ s = 34 ∨ 35 ≤ s) with small | rfl | rfl | large
  · have := Nat.pow_le_pow_right (n := 2) (by decide) (show 8 * (s - 3) ≤ 232 by omega)
    have := Nat.mul_le_mul word.le this
    omega
  · change _ ↔ 2 ^ 256 ≤ w * 2 ^ 240
    omega
  · change _ ↔ 2 ^ 256 ≤ w * 2 ^ 248
    omega
  · have := Nat.pow_le_pow_right (n := 2) (by decide) (show 256 ≤ 8 * (s - 3) by omega)
    rcases Nat.eq_zero_or_pos w with rfl | pos
    · simp
    · have := Nat.mul_le_mul pos this
      omega

theorem setCompact_overflow (c : UInt32) : (setCompact c).2.2 = true ↔ 2 ^ 256 ≤ encoded c := by
  have word : (c &&& 0x007fffff).toNat / 2 ^ (8 * (3 - (c >>> 24).toNat)) < 2 ^ 23 := by
    refine (Nat.div_le_self ..).trans_lt ?_
    rw [UInt32.toNat_and]
    exact Nat.and_lt_two_pow _ (by decide)
  rw [encoded, ← overflow_iff word]
  simp only [setCompact, Nat.shiftRight_eq_div_pow, Bool.and_eq_true, Bool.or_eq_true,
    decide_eq_true_iff]

theorem encoded_ofNat (word : m < 2 ^ 23) (size : s < 256) (c : UInt32)
    (form : c = .ofNat (2 ^ 24 * s + m)) : (c >>> 24).toNat = s ∧ (setCompact c).2.1 = false ∧
      encoded c = m / 2 ^ (8 * (3 - s)) * 2 ^ (8 * (s - 3)) := by
  have value : c.toNat = 2 ^ 24 * s + m := by
    rw [form, UInt32.toNat_ofNat']
    exact Nat.mod_eq_of_lt (by omega)
  have high : (c >>> 24).toNat = s := by
    rw [UInt32.toNat_shiftRight, value]
    simp [Nat.shiftRight_eq_div_pow]
    omega
  have low : (c &&& 0x007fffff).toNat = m := by
    rw [UInt32.toNat_and, value]
    change _ &&& (2 ^ 23 - 1) = _
    rw [Nat.and_two_pow_sub_one_eq_mod]
    omega
  have sign : c &&& 0x00800000 = 0 := by
    rw [← UInt32.toNat_inj, UInt32.toNat_and, value]
    change _ &&& 2 ^ 23 = 0
    rw [Nat.and_two_pow, Nat.testBit_eq_decide_div_mod_eq]
    simp
    omega
  exact ⟨high, by simp [setCompact, sign], by simp only [encoded, high, low]⟩

/-- `n` without the bytes that the compact form drops. -/
def rounded (n : ℕ) : ℕ := n / 2 ^ (8 * (n.size / 8 + 1 - 3)) * 2 ^ (8 * (n.size / 8 + 1 - 3))

theorem pow_le_rounded (high : 2 ^ k ≤ n) (last : n.size = k + 1) : 2 ^ k ≤ rounded n := by
  obtain ⟨d, split⟩ := Nat.exists_eq_add_of_le' (show 8 * (n.size / 8 + 1 - 3) ≤ k by omega)
  rw [rounded]
  generalize 8 * (n.size / 8 + 1 - 3) = e at *
  subst split
  rw [Nat.pow_add] at *
  exact Nat.mul_le_mul_right _ ((Nat.le_div_iff_mul_le (Nat.two_pow_pos _)).2 high)

theorem size_rounded : (rounded n).size = n.size := by
  have le : rounded n ≤ n := Nat.div_mul_le_self ..
  refine Nat.le_antisymm (size_le_size le) ?_
  rcases size : n.size with _ | k
  · simp
  · exact lt_size.2 (pow_le_rounded (lt_size.1 (by omega)) size)

theorem rounded_mono (le : n ≤ m) : rounded n ≤ rounded m := by
  rcases (size_le_size le).eq_or_lt with same | less
  · rw [rounded, rounded, same]
    exact Nat.mul_le_mul_right _ (Nat.div_le_div_right le)
  · obtain ⟨k, size⟩ := Nat.exists_eq_add_one_of_ne_zero (Nat.ne_zero_of_lt less)
    calc rounded n ≤ n := Nat.div_mul_le_self ..
      _ ≤ 2 ^ k := size_le.1 (by omega) |>.le
      _ ≤ rounded m := pow_le_rounded (lt_size.1 (by omega)) size

theorem setCompact_getCompact (small : n < 2 ^ 256) :
    ∃ c ∈ getCompact n false, setCompact c = (rounded n, false, false) ∧
      (c >>> 24).toNat - 3 = n.size / 8 + 1 - 3 ∧ getCompact (rounded n) false = some c := by
  by_cases zero : n = 0
  · subst zero
    exact ⟨0, by decide⟩
  have width := size_le.2 small
  have le : rounded n ≤ n := Nat.div_mul_le_self ..
  have word : lead n (n.size / 8 + 1) < 2 ^ 23 := (lead_lt_iff (by omega)).2 (size_le.1 (by omega))
  obtain ⟨high, sign, value⟩ := encoded_ofNat word (show n.size / 8 + 1 < 256 by omega) _ rfl
  rw [lead_div, ← rounded] at value
  refine ⟨_, getCompact_eq zero small, Prod.ext ?_ (Prod.ext sign ?_), by rw [high], ?_⟩
  · rw [setCompact_fst, value, Nat.mod_eq_of_lt (by omega)]
  · rw [Bool.eq_false_iff, ne_eq, setCompact_overflow, value]
    omega
  · rw [← size_eq_zero, ← size_rounded, size_eq_zero] at zero
    rw [getCompact_eq zero (by omega), size_rounded, rounded, lead_rounded]

/-- Compact targets round down and are stable, and the overflow flag is exact. -/
theorem compact_rounds_down :
    (∀ x < 2 ^ 256, ∃ c ∈ getCompact x false, ∃ y, setCompact c = (y, false, false) ∧ y ≤ x ∧
      x - y < 2 ^ (8 * ((c >>> 24).toNat - 3)) ∧ getCompact y false = some c ∧
      ∀ x' < 2 ^ 256, x ≤ x' → ∃ c' ∈ getCompact x' false, y ≤ (setCompact c').1) ∧
    ∀ c, (setCompact c).2.2 = true ↔ 2 ^ 256 ≤ encoded c := by
  refine ⟨fun x small => ?_, setCompact_overflow⟩
  obtain ⟨c, written, read, size, stable⟩ := setCompact_getCompact small
  refine ⟨c, written, _, read, Nat.div_mul_le_self .., ?_, stable, fun x' small' more => ?_⟩
  · have := Nat.mod_lt x (Nat.two_pow_pos (8 * (x.size / 8 + 1 - 3)))
    have := Nat.div_add_mod' x (2 ^ (8 * (x.size / 8 + 1 - 3)))
    rw [size, rounded]
    omega
  · obtain ⟨c', written', read', -⟩ := setCompact_getCompact small'
    exact ⟨c', written', by rw [read']; exact rounded_mono more⟩

end DogecoinCore
