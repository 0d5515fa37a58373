import DogecoinCore.Acceptance
import DogecoinCore.HashTree

/-! The merkle tree of a block: `MerkleComputation`, which keeps one hash for every bit of the number
of leaves it has seen, and the check of the root in `CheckBlock`. The hash of a pair is a
parameter. -/
namespace DogecoinCore
open List HashTree

/-- The hash of two concatenated hashes, as `CHash256` computes it. -/
abbrev PairHash := UInt256 → UInt256 → UInt256

namespace Merkle
/-- A hash on its way up. `branch` is `*pbranch`, if that is wanted, and `matchh` says that `h` depends
on the leaf whose branch it is. -/
structure Carry where
  h : UInt256
  matchh : Bool
  mutated : Bool
  branch : Option (List UInt256)

/-- `pbranch->push_back`. -/
def Carry.push (s : Carry) (hash : UInt256) : Carry := { s with branch := s.branch.map (· ++ [hash]) }

/-- One turn of the loops that combine `h` with an inner hash. `test` looks for equal hashes. -/
def combine (hash : PairHash) (test : Bool) (inner : ℕ → UInt256) (matchlevel : Option ℕ) (level : ℕ)
    (s : Carry) : Carry :=
  let s :=
    if s.matchh then s.push (inner level)
    else if s.branch.isSome && matchlevel == some level then { s.push s.h with matchh := true }
    else s
  { s with
    mutated := s.mutated || test && inner level == s.h
    h := hash (inner level) s.h }

/-- The loops over the bits of `count` that are 0, from `level` on. There are 32 of them; `none` is an
access beyond `inner`. -/
def carry (hash : PairHash) (test : Bool) (count : ℕ) (inner : ℕ → UInt256) (matchlevel : Option ℕ) :
    (bits level : ℕ) → Carry → Option (ℕ × Carry)
  | 0, _, _ => none
  | bits + 1, level, s =>
    if count.testBit level then some (level, s)
    else carry hash test count inner matchlevel bits (level + 1)
      (combine hash test inner matchlevel level s)

/-- The variables of `MerkleComputation`; `inner` is undefined where `count` has no bit. -/
structure Loop where
  count : ℕ
  inner : ℕ → UInt256
  matchlevel : Option ℕ
  mutated : Bool
  branch : Option (List UInt256)

def addLeaf (hash : PairHash) (branchpos : ℕ) (s : Loop) (leaf : UInt256) : Option Loop := do
  let count := (s.count + 1) % 2 ^ 32
  let (level, c) ← carry hash true count s.inner s.matchlevel 32 0
    ⟨leaf, s.count == branchpos, s.mutated, s.branch⟩
  some
    { count := count
      inner := Function.update s.inner level c.h
      matchlevel := if c.matchh then some level else s.matchlevel
      mutated := c.mutated
      branch := c.branch }

/-- `while (!(count & (1 << level))) level++`. -/
def lowestBit (count : ℕ) : (bits level : ℕ) → Option ℕ
  | 0, _ => none
  | bits + 1, level => if count.testBit level then some level else lowestBit count bits (level + 1)

def sweep (hash : PairHash) (inner : ℕ → UInt256) (matchlevel : Option ℕ) :
    (turns count level : ℕ) → Carry → Option Carry
  | 0, _, _, _ => none
  | turns + 1, count, level, s =>
    if count = 2 ^ level then some s
    else do
      let s := if s.matchh then s.push s.h else s
      let s := { s with h := hash s.h s.h }
      let count := (count + 2 ^ level) % 2 ^ 32
      let (level, s) ← carry hash false count inner matchlevel (32 - (level + 1)) (level + 1) s
      sweep hash inner matchlevel turns count level s

def merkleComputation (hash : PairHash) (leaves : List UInt256) (branchpos : ℕ) (pbranch : Bool) :
    Option (UInt256 × Bool × Option (List UInt256)) :=
  let branch := if pbranch then some [] else none
  if leaves.isEmpty then some (0, false, branch)
  else do
    let s ← leaves.foldlM (addLeaf hash branchpos) ⟨0, fun _ => 0, none, false, branch⟩
    let level ← lowestBit s.count 32 0
    let c ← sweep hash s.inner s.matchlevel 33 s.count level
      ⟨s.inner level, s.matchlevel == some level, s.mutated, s.branch⟩
    some (c.h, c.mutated, c.branch)

/-- The root, and `*mutated`. -/
def computeMerkleRoot (hash : PairHash) (leaves : List UInt256) : Option (UInt256 × Bool) :=
  (merkleComputation hash leaves 0xffffffff false).map fun r => (r.1, r.2.1)

/-- The part of `CheckBlock` that compares the merkle root; `rest` is what the other checks say. -/
def checkMerkleRoot (hash : PairHash) (hashMerkleRoot : UInt256) (txids : List UInt256)
    (rest : BlockCheck) : Option BlockCheck := do
  let (hashMerkleRoot2, mutated) ← computeMerkleRoot hash txids
  some (if hashMerkleRoot ≠ hashMerkleRoot2 then .corrupt else if mutated then .corrupt else rest)

variable {hash : PairHash} {leaves : List UInt256} {inner : ℕ → UInt256} {matchlevel : Option ℕ}
  {count n t level bits : ℕ} {test : Bool} {s : Carry}

@[simp] theorem combine_h : (combine hash test inner matchlevel level s).h = hash (inner level) s.h := by
  unfold combine Carry.push
  split
  · rfl
  · split <;> rfl

@[simp] theorem combine_mutated : (combine hash test inner matchlevel level s).mutated =
    (s.mutated || test && inner level == s.h) := by
  unfold combine Carry.push
  split
  · rfl
  · split <;> rfl

theorem testBit_iff : count.testBit level ↔ count / 2 ^ level % 2 = 1 := by
  rw [Nat.testBit_eq_decide_div_mod_eq, decide_eq_true_eq]

private theorem carry_induction (matchlevel : Option ℕ)
    (bits : ℕ) {P : ℕ → Carry → Prop} (enough : t < level + bits) (from' : level ≤ t)
    (bit : count.testBit t) (start : P level s)
    (step : ∀ l s, level ≤ l → count.testBit l = false → P l s →
      P (l + 1) (combine hash test inner matchlevel l s)) :
    ∃ l s', carry hash test count inner matchlevel bits level s = some (l, s') ∧
      count.testBit l ∧ (∀ j, level ≤ j → j < l → count.testBit j = false) ∧ P l s' := by
  induction bits generalizing level s with
  | zero => omega
  | succ bits ih =>
    rw [carry]
    by_cases here : count.testBit level
    · rw [if_pos here]
      exact ⟨level, s, rfl, here, fun j above below => absurd above (by omega), start⟩
    rw [if_neg here]
    have clear := Bool.eq_false_iff.2 here
    have next : level + 1 ≤ t := by
      rcases eq_or_lt_of_le from' with rfl | later
      · exact absurd bit here
      · exact later
    obtain ⟨l, s', ran, set, clears, kept⟩ := ih (by omega) next
      (step level s le_rfl clear start) fun l s above => step l s (by omega)
    refine ⟨l, s', ran, set, fun j above below => ?_, kept⟩
    rcases eq_or_lt_of_le above with rfl | later
    · exact clear
    · exact clears j later below

private theorem lowestBit_eq : lowestBit count bits level
    = (carry hash test count inner matchlevel bits level s).map Prod.fst := by
  induction bits generalizing level s with
  | zero => rfl
  | succ bits ih =>
    rw [lowestBit, carry]
    split
    · rfl
    · exact ih

/-! ### The counter -/

variable {leaf : ℕ → UInt256} {c : ℕ} {loop : Loop}

/-- After `c` leaves every bit of the counter has the hash of the complete subtree it stands for. -/
structure Occupied (hash : PairHash) (leaf : ℕ → UInt256) (c : ℕ) (s : Loop) : Prop where
  count : s.count = c
  inner : ∀ l, c.testBit l = true → s.inner l = perfect hash leaf l (c / 2 ^ l - 1)
  mutated : s.mutated = true ↔ ∃ k pos, (2 * pos + 2) * 2 ^ k ≤ c ∧
    perfect hash leaf k (2 * pos) = perfect hash leaf k (2 * pos + 1)

/-- The neighbours that the leaf before `c` completes. -/
def Completed (hash : PairHash) (leaf : ℕ → UInt256) (c k : ℕ) : Prop :=
  perfect hash leaf k (c / 2 ^ k - 2) = perfect hash leaf k (c / 2 ^ k - 1)

/-- While the leaf after the first `c` is carried up. -/
structure Carried (hash : PairHash) (leaf : ℕ → UInt256) (c : ℕ) (mutated : Bool) (l : ℕ) (s : Carry) :
    Prop where
  divides : 2 ^ l ∣ c + 1
  h : s.h = perfect hash leaf l ((c + 1) / 2 ^ l - 1)
  mutated : s.mutated = true ↔ mutated = true ∨ ∃ k < l, Completed hash leaf (c + 1) k

variable {l n : ℕ} {mutated : Bool}

theorem Carried.combine (occupied : Occupied hash leaf c loop)
    (carried : Carried hash leaf c mutated l s) (clear : (c + 1).testBit l = false) :
    Carried hash leaf c mutated (l + 1) (combine hash true loop.inner matchlevel l s) := by
  obtain ⟨a, split⟩ := carried.divides
  have positive := Nat.two_pow_pos l
  have quotient : (c + 1) / 2 ^ l = a := by rw [split, Nat.mul_div_cancel_left _ positive]
  have even : a % 2 = 0 := by
    rw [← Bool.not_eq_true, testBit_iff, quotient] at clear
    omega
  obtain ⟨q, rfl⟩ := Nat.dvd_of_mod_eq_zero even
  have nonzero : 1 ≤ q := by
    rcases eq_zero_or_pos q with rfl | pos
    · omega
    · exact pos
  -- One less has ones where the next count has zeros.
  have before : c / 2 ^ l = 2 * q - 1 := by
    have eq : c = 2 ^ l - 1 + 2 ^ l * (2 * q - 1) := by
      have : 2 ^ l * (2 * q) = 2 ^ l * (2 * q - 1) + 2 ^ l := by
        rw [← mul_add_one]
        congr 1
        omega
      omega
    rw [eq, Nat.add_mul_div_left _ _ positive, Nat.div_eq_of_lt (by omega), Nat.zero_add]
  have inner : loop.inner l = perfect hash leaf l (2 * (q - 1)) := by
    rw [occupied.inner l (testBit_iff.2 (by rw [before]; omega)), before]
    congr 1
    omega
  have h : s.h = perfect hash leaf l (2 * (q - 1) + 1) := by
    rw [carried.h, quotient]
    congr 1
    omega
  refine ⟨⟨q, by rw [split, pow_succ]; ring⟩, ?_, ?_⟩
  · have next : (c + 1) / 2 ^ (l + 1) = q := by
      rw [Nat.pow_succ, ← Nat.div_div_eq_div_mul, quotient, Nat.mul_div_cancel_left q two_pos]
    rw [combine_h, inner, h, next]
    rfl
  have pair : loop.inner l = s.h ↔ Completed hash leaf (c + 1) l := by
    rw [Completed, quotient, inner, h]
    have left : 2 * q - 2 = 2 * (q - 1) := by omega
    have right : 2 * q - 1 = 2 * (q - 1) + 1 := by omega
    rw [left, right]
  simp only [combine_mutated, Bool.true_and, Bool.or_eq_true, beq_iff_eq, carried.mutated, pair,
    Nat.lt_succ_iff_lt_or_eq, or_and_right, exists_or, exists_eq_left, or_assoc]

theorem exists_testBit (nonzero : c ≠ 0) (few : c < 2 ^ 32) : ∃ t < 32, c.testBit t :=
  ⟨c.log2, (Nat.log2_lt nonzero).2 few, Nat.testBit_log2 nonzero⟩

private theorem completed_iff (divides : 2 ^ l ∣ c + 1) (bit : (c + 1).testBit l) :
    (∃ k pos, (2 * pos + 2) * 2 ^ k ≤ c + 1 ∧
        perfect hash leaf k (2 * pos) = perfect hash leaf k (2 * pos + 1)) ↔
      (∃ k pos, (2 * pos + 2) * 2 ^ k ≤ c ∧
        perfect hash leaf k (2 * pos) = perfect hash leaf k (2 * pos + 1)) ∨
      ∃ k < l, Completed hash leaf (c + 1) k := by
  constructor
  · rintro ⟨k, pos, whole, same⟩
    rcases eq_or_lt_of_le whole with last | earlier
    · have quotient : (c + 1) / 2 ^ k = 2 * pos + 2 := by
        rw [← last, Nat.mul_div_cancel _ (Nat.two_pow_pos k)]
      refine .inr ⟨k, ?_, ?_⟩
      · -- Otherwise the counter would be even at its lowest bit.
        by_contra above
        obtain ⟨d, rfl⟩ := Nat.exists_eq_add_of_le (not_lt.1 above)
        have even : (c + 1) / 2 ^ l = 2 * ((pos + 1) * 2 ^ d) := by
          rw [← last, pow_add]
          rw [show (2 * pos + 2) * (2 ^ l * 2 ^ d) = 2 * ((pos + 1) * 2 ^ d) * 2 ^ l by ring,
            Nat.mul_div_cancel _ (Nat.two_pow_pos l)]
        rw [testBit_iff, even] at bit
        omega
      · rw [Completed, quotient]
        exact same
    · exact .inl ⟨k, pos, Nat.lt_succ_iff.1 earlier, same⟩
  · rintro (⟨k, pos, whole, same⟩ | ⟨k, below, same⟩)
    · exact ⟨k, pos, whole.trans (Nat.le_succ c), same⟩
    obtain ⟨a, split⟩ := (pow_dvd_pow 2 below).trans divides
    have nonzero : 1 ≤ a := by
      rcases eq_zero_or_pos a with rfl | pos
      · omega
      · exact pos
    have quotient : (c + 1) / 2 ^ k = 2 * (a - 1) + 2 := by
      rw [split, Nat.pow_succ, Nat.mul_assoc, Nat.mul_div_cancel_left _ (Nat.two_pow_pos k)]
      omega
    refine ⟨k, a - 1, ?_, ?_⟩
    · rw [← quotient]
      exact Nat.div_mul_le_self _ _
    · rw [Completed, quotient] at same
      exact same

theorem Occupied.addLeaf (occupied : Occupied hash leaf c loop) (branchpos : ℕ) (few : c + 1 < 2 ^ 32) :
    ∃ loop', addLeaf hash branchpos loop (leaf c) = some loop' ∧ Occupied hash leaf (c + 1) loop' := by
  obtain ⟨t, _, bit⟩ := exists_testBit (by omega) few
  have start : Carried hash leaf c loop.mutated 0
      ⟨leaf c, loop.count == branchpos, loop.mutated, loop.branch⟩ := by
    refine ⟨by simp, ?_, by simp⟩
    rw [Nat.pow_zero, Nat.div_one]
    rfl
  obtain ⟨l, s', ran, set, clears, carried⟩ := carry_induction
    loop.matchlevel 32 (by omega) (Nat.zero_le t) bit
    start fun l _ _ clear carried => carried.combine occupied clear
  have count : (loop.count + 1) % 2 ^ 32 = c + 1 := by rw [occupied.count, Nat.mod_eq_of_lt few]
  obtain ⟨loop', added, rfl⟩ : ∃ loop', Merkle.addLeaf hash branchpos loop (leaf c) = some loop' ∧
      loop' = ⟨c + 1, Function.update loop.inner l s'.h,
        if s'.matchh then some l else loop.matchlevel, s'.mutated, s'.branch⟩ := by
    rw [Merkle.addLeaf, count, ran]
    exact ⟨_, rfl, rfl⟩
  refine ⟨_, added, ?_⟩
  · refine ⟨rfl, fun j set' => ?_, ?_⟩
    · dsimp only
      rcases lt_trichotomy j l with below | rfl | above
      · rw [clears j (Nat.zero_le j) below] at set'
        cases set'
      · rw [Function.update_self]
        exact carried.h
      rw [Function.update_of_ne above.ne']
      -- Above its lowest bit the counter has not changed.
      have same : (c + 1) / 2 ^ j = c / 2 ^ j := by
        refine Nat.succ_div_of_not_dvd fun more => ?_
        have even := (Nat.pow_dvd_pow 2 (Nat.succ_le_of_lt above)).trans more
        rw [testBit_iff] at set
        rw [pow_succ] at even
        obtain ⟨_, split⟩ := even
        rw [split, Nat.mul_assoc, Nat.mul_div_cancel_left _ (Nat.two_pow_pos l)] at set
        omega
      have before : c.testBit j := by
        rw [testBit_iff] at set' ⊢
        rwa [same] at set'
      rw [occupied.inner j before, same]
    · rw [carried.mutated, occupied.mutated, completed_iff carried.divides set]

theorem Occupied.foldlM (occupied : Occupied hash leaf c loop) (branchpos : ℕ) (rest : List UInt256)
    (leaves : ∀ i (h : i < rest.length), rest[i] = leaf (c + i)) (few : c + rest.length < 2 ^ 32) :
    ∃ loop', rest.foldlM (Merkle.addLeaf hash branchpos) loop = some loop' ∧
      Occupied hash leaf (c + rest.length) loop' := by
  induction rest generalizing c loop with
  | nil => exact ⟨loop, rfl, occupied⟩
  | cons x rest ih =>
    rw [length_cons] at few
    have first : x = leaf c := leaves 0 (Nat.succ_pos _)
    obtain ⟨_, ran, occupied₁⟩ := occupied.addLeaf branchpos (by omega)
    obtain ⟨loop₂, ran₂, occupied₂⟩ := ih occupied₁
      (fun i inside => (leaves (i + 1) (Nat.succ_lt_succ inside)).trans (by congr 1; omega)) (by omega)
    refine ⟨loop₂, ?_, ?_⟩
    · rw [foldlM_cons, first, ran]
      exact ran₂
    · rw [length_cons, add_comm rest.length 1, ← add_assoc]
      exact occupied₂

/-! ### The sweep -/

/-- The sweep has reached level `l`: `h` is the last node on it. -/
structure Swept (hash : PairHash) (leaf : ℕ → UInt256) (n count : ℕ) (mutated : Bool) (l : ℕ)
    (s : Carry) : Prop where
  below : l ≤ Nat.clog 2 n
  count : count = width n l * 2 ^ l
  h : s.h = node hash n leaf l (width n l - 1)
  mutated : s.mutated = mutated

theorem width_eq_of_not_dvd (uneven : ¬ 2 ^ l ∣ n) : width n l = n / 2 ^ l + 1 := by
  refine eq_of_forall_lt_iff fun pos => ?_
  rw [lt_width, Nat.lt_succ_iff, Nat.le_div_iff_mul_le (Nat.two_pow_pos l)]
  refine ⟨le_of_lt, fun le => lt_of_le_of_ne le fun same => uneven ?_⟩
  exact ⟨pos, by rw [← same, mul_comm]⟩

theorem Swept.combine (nonempty : 0 < n) (occupied : Occupied hash leaf n loop)
    (swept : Swept hash leaf n count mutated l s) (uneven : ¬ 2 ^ l ∣ n)
    (clear : count.testBit l = false) :
    Swept hash leaf n count mutated (l + 1) (combine hash false loop.inner matchlevel l s) := by
  have quotient : count / 2 ^ l = width n l := by
    rw [swept.count, Nat.mul_div_cancel _ (Nat.two_pow_pos l)]
  have even : width n l % 2 = 0 := by
    rw [← Bool.not_eq_true, testBit_iff, quotient] at clear
    omega
  obtain ⟨q, double⟩ := Nat.dvd_of_mod_eq_zero even
  have positive := width_pos nonempty l
  have full := width_eq_of_not_dvd uneven
  have half : width n (l + 1) = q := by
    rw [width_succ]
    omega
  have left : loop.inner l = node hash n leaf l (2 * (q - 1)) := by
    rw [occupied.inner l (testBit_iff.2 (by omega)), node_eq_perfect]
    · congr 1
      omega
    · refine le_trans (Nat.mul_le_mul_right _ ?_) (Nat.div_mul_le_self n (2 ^ l))
      omega
  refine ⟨?_, ?_, ?_, ?_⟩
  · have two : ¬ width n l ≤ 1 := by omega
    rw [width_le_one_iff] at two
    omega
  · rw [swept.count, half, double, pow_succ]
    ring
  · have last : 2 * (q - 1) + 1 < width n l := by omega
    rw [combine_h, left, swept.h, half, node_succ, partner_of_lt last]
    congr 2
    omega
  · rw [combine_mutated, swept.mutated, Bool.false_and, Bool.or_false]

theorem width_mul_le (below : l ≤ Nat.clog 2 n) : width n l * 2 ^ l ≤ 2 ^ Nat.clog 2 n := by
  have le : width n l ≤ 2 ^ (Nat.clog 2 n - l) := by
    rw [← not_lt, lt_width, ← Nat.pow_add, Nat.sub_add_cancel below, not_lt]
    exact Nat.le_pow_clog Nat.one_lt_two n
  calc width n l * 2 ^ l ≤ 2 ^ (Nat.clog 2 n - l) * 2 ^ l := Nat.mul_le_mul_right _ le
    _ = 2 ^ Nat.clog 2 n := by rw [← Nat.pow_add, Nat.sub_add_cancel below]

theorem sweep_spec (matchlevel : Option ℕ) (turns : ℕ) (nonempty : 0 < n) (few : n ≤ 2 ^ 31)
    (occupied : Occupied hash leaf n loop) (swept : Swept hash leaf n count mutated l s)
    (bit : count.testBit l) (uneven : ¬ 2 ^ (l + 1) ∣ n) (enough : Nat.clog 2 n < turns + l) :
    ∃ s', sweep hash loop.inner matchlevel turns count l s = some s' ∧ s'.h = root hash n leaf ∧
      s'.mutated = mutated := by
  have height : Nat.clog 2 n ≤ 31 := by rwa [Nat.clog_le_iff_le_pow Nat.one_lt_two]
  induction turns generalizing count l s with
  | zero =>
    have := swept.below
    omega
  | succ turns ih =>
    have positive := Nat.two_pow_pos l
    have quotient : count / 2 ^ l = width n l := by rw [swept.count, Nat.mul_div_cancel _ positive]
    rw [testBit_iff, quotient] at bit
    rw [sweep]
    by_cases done : count = 2 ^ l
    · have single : width n l = 1 := by rw [← quotient, done, Nat.div_self positive]
      have top := le_antisymm (width_le_one_iff.1 single.le) swept.below
      refine ⟨s, if_pos done, ?_, swept.mutated⟩
      rw [swept.h, single, root, top]
    rw [if_neg done]
    have more : 1 < width n l := by
      by_contra single
      refine done ?_
      rw [swept.count, show width n l = 1 by omega, one_mul]
    have below : l < Nat.clog 2 n := by
      rw [← not_le, ← width_le_one_iff]
      omega
    have half := width_succ n l
    have next : count + 2 ^ l = width n (l + 1) * 2 ^ (l + 1) := by
      rw [swept.count, ← add_one_mul, half, pow_succ', ← mul_assoc, Nat.div_mul_cancel (by omega)]
    have bound := width_mul_le (n := n) (l := l + 1) below
    have limit := Nat.pow_le_pow_right two_pos height
    have size : (count + 2 ^ l) % 2 ^ 32 = count + 2 ^ l := Nat.mod_eq_of_lt (by omega)
    -- The last node has no neighbour and is hashed with itself.
    have start : ∀ s₁ : Carry, s₁.h = s.h → s₁.mutated = s.mutated →
        Swept hash leaf n (count + 2 ^ l) mutated (l + 1) { s₁ with h := hash s₁.h s₁.h } := by
      intro s₁ same same'
      refine ⟨below, next, ?_, same'.trans swept.mutated⟩
      have last : 2 * (width n (l + 1) - 1) = width n l - 1 := by omega
      have missing : ¬ 2 * (width n (l + 1) - 1) + 1 < width n l := by omega
      rw [node_succ, partner_of_not_lt missing, last, ← swept.h, ← same]
    obtain ⟨t, _, set⟩ := exists_testBit (c := count + 2 ^ l) (by omega) (by omega)
    have from' : l + 1 ≤ t := by
      by_contra low
      obtain ⟨d, split⟩ := Nat.exists_eq_add_of_le (show t + 1 ≤ l + 1 by omega)
      rw [testBit_iff, next, split, Nat.pow_add, Nat.pow_succ] at set
      rw [show width n (t + 1 + d) * (2 ^ t * 2 * 2 ^ d)
          = 2 * (width n (t + 1 + d) * 2 ^ d) * 2 ^ t by ring,
        Nat.mul_div_cancel _ (Nat.two_pow_pos t)] at set
      omega
    have same : (if s.matchh then s.push s.h else s).h = s.h := by split <;> rfl
    have same' : (if s.matchh then s.push s.h else s).mutated = s.mutated := by split <;> rfl
    obtain ⟨l', s', ran, set', -, above, swept'⟩ := carry_induction
      matchlevel (32 - (l + 1))
        (P := fun l' s => l + 1 ≤ l' ∧ Swept hash leaf n (count + 2 ^ l) mutated l' s)
      (by omega) from' set ⟨le_rfl, start _ same same'⟩
      fun l' s above clear kept => ⟨by omega, kept.2.combine nonempty occupied
        (fun divides => uneven ((pow_dvd_pow 2 above).trans divides)) clear⟩
    obtain ⟨s'', rest, result⟩ := ih swept' set'
      (fun divides => uneven ((pow_dvd_pow 2 (by omega)).trans divides)) (by omega)
    refine ⟨s'', ?_, result⟩
    simp only [size, ran, Option.bind_eq_bind, Option.bind_some]
    exact rest

def leafAt (leaves : List UInt256) (i : ℕ) : UInt256 := leaves.getD i 0

theorem computeMerkleRoot_spec (nonempty : leaves ≠ []) (few : leaves.length ≤ 2 ^ 31) :
    ∃ mutated, computeMerkleRoot hash leaves
        = some (root hash leaves.length (leafAt leaves), mutated) ∧
      (mutated ↔ Twins hash leaves.length (leafAt leaves)) := by
  have positive := length_pos_iff.2 nonempty
  have start : Occupied hash (leafAt leaves) 0 ⟨0, fun _ => 0, none, false, none⟩ := by
    refine ⟨rfl, by simp, ?_⟩
    refine iff_of_false Bool.false_ne_true ?_
    rintro ⟨k, pos, whole, -⟩
    have := Nat.mul_pos (show 0 < 2 * pos + 2 by omega) (Nat.two_pow_pos k)
    omega
  obtain ⟨loop, ran, occupied⟩ := start.foldlM 0xffffffff leaves
    (fun _ inside => by simp [leafAt, inside]) (by omega)
  rw [zero_add] at occupied
  obtain ⟨t, inside, bit⟩ := exists_testBit (c := leaves.length) (by omega) (by omega)
  obtain ⟨l, _, ended, set, clears, -⟩ := @carry_induction hash loop.inner _ t 0 false
    ⟨0, false, false, none⟩ none 32 (fun _ _ => True) (by omega) t.zero_le bit trivial fun _ _ _ _ => id
  have lowest := lowestBit_eq.trans (congrArg (Option.map Prod.fst) ended)
  -- Below the lowest bit the number of leaves is even.
  have divides : ∀ j ≤ l, 2 ^ j ∣ leaves.length := by
    intro j _
    induction j with
    | zero => exact one_dvd _
    | succ j ih =>
      obtain ⟨a, split⟩ := ih (by omega)
      have clear := clears j (Nat.zero_le j) (by omega)
      rw [← Bool.not_eq_true, testBit_iff, split, Nat.mul_div_cancel_left _ (Nat.two_pow_pos j)]
        at clear
      obtain ⟨b, rfl⟩ := Nat.dvd_of_mod_eq_zero (show a % 2 = 0 by omega)
      exact ⟨b, by rw [split, pow_succ]; ring⟩
  obtain ⟨w, split⟩ := divides l le_rfl
  have quotient : leaves.length / 2 ^ l = w := by
    rw [split, Nat.mul_div_cancel_left _ (Nat.two_pow_pos l)]
  have odd : w % 2 = 1 := by rwa [testBit_iff, quotient] at set
  have wide : width leaves.length l = w := by
    refine eq_of_forall_lt_iff fun pos => ?_
    rw [lt_width, split, Nat.mul_comm, Nat.mul_lt_mul_left (Nat.two_pow_pos l)]
  have uneven : ¬ 2 ^ (l + 1) ∣ leaves.length := by
    rintro ⟨a, other⟩
    rw [split, pow_succ, mul_assoc] at other
    have := Nat.eq_of_mul_eq_mul_left (Nat.two_pow_pos l) other
    omega
  have swept : Swept hash (leafAt leaves) leaves.length leaves.length loop.mutated l
      ⟨loop.inner l, loop.matchlevel == some l, loop.mutated, loop.branch⟩ := by
    refine ⟨?_, by rw [wide, mul_comm]; exact split, ?_, rfl⟩
    · rw [← Nat.pow_le_pow_iff_right Nat.one_lt_two]
      refine le_trans ?_ (Nat.le_pow_clog Nat.one_lt_two _)
      exact Nat.le_of_dvd positive (divides l le_rfl)
    rw [occupied.inner l set, wide, quotient, node_eq_perfect]
    rw [split, mul_comm]
    exact Nat.mul_le_mul_left _ (by omega)
  obtain ⟨_, swept', top, mutated⟩ := sweep_spec loop.matchlevel 33 positive
    few occupied swept set uneven (by
      have : Nat.clog 2 leaves.length ≤ 31 := (Nat.clog_le_iff_le_pow Nat.one_lt_two).2 few
      omega)
  refine ⟨loop.mutated, ?_, ?_⟩
  · have filled : leaves.isEmpty = false := by simpa using nonempty
    simp only [computeMerkleRoot, merkleComputation, filled, Bool.false_eq_true, if_false, ran,
      occupied.count, lowest, swept', Option.bind_eq_bind, Option.bind_some, Option.map_some, top,
      mutated]
  rw [occupied.mutated]
  refine exists_congr fun k => exists_congr fun pos => and_congr_right fun whole => ?_
  have first : (2 * pos + 1) * 2 ^ k ≤ leaves.length :=
    le_trans (Nat.mul_le_mul_right _ (by omega)) whole
  rw [node_eq_perfect first, node_eq_perfect whole]

/-! ### Mutations -/

/-- The pairs hashed for two lists of leaves are kept apart from each other and from the leaves. -/
def NoCollision (hash : PairHash) (leaves leaves' : List UInt256) : Prop :=
  Separates hash
    (pairs hash leaves.length (leafAt leaves) ++ pairs hash leaves'.length (leafAt leaves'))
    (leaves ++ leaves')

theorem leafAt_mem (inside : i < leaves.length) : leafAt leaves i ∈ leaves := by
  rw [leafAt, getD_eq_getElem?_getD, getElem?_eq_getElem inside]
  exact getElem_mem inside

theorem NoCollision.twins (apart : NoCollision hash leaves leaves')
    (nonempty : leaves ≠ []) (nonempty' : leaves' ≠ []) (differ : leaves ≠ leaves')
    (roots : root hash leaves.length (leafAt leaves) = root hash leaves'.length (leafAt leaves')) :
    Twins hash leaves.length (leafAt leaves) ∨ Twins hash leaves'.length (leafAt leaves') := by
  have positive := length_pos_iff.2 nonempty
  have positive' := length_pos_iff.2 nonempty'
  rcases lt_trichotomy leaves.length leaves'.length with fewer | same | more
  · exact .inr (twins_of_root_eq apart (subset_append_left _ _) positive fewer
      (subset_append_right _ _) (mem_append_left _ (leafAt_mem positive)) roots)
  · refine absurd (ext_getElem same fun _ inside inside' => ?_) differ
    have leaf := leaves_eq_of_root_eq apart (subset_append_left _ _)
      (by rw [same]; exact subset_append_right _ _) (by rw [roots, same]) inside
    simpa [leafAt, inside, inside'] using leaf
  · exact .inl (twins_of_root_eq apart (subset_append_right _ _) positive' more
      (subset_append_left _ _) (mem_append_right _ (leafAt_mem positive')) roots.symm)

private theorem acceptBlock_corrupt (st : ChainState C) (corrupt : block.check = .corrupt)
    (header : (st.acceptBlockHeader rules block.toCBlockHeader).Ends P P) :
    (st.acceptBlock rules io block).Ends P P := by
  refine header.bind fun st kept => ?_
  refine iteInduction (fun _ => kept) fun _ => ?_
  refine iteInduction (fun _ => kept) fun _ => ?_
  rw [corrupt]
  exact kept

/-- Two different lists of leaves with one root: one of them is reported as mutated. So a variant of
a good block, with other transactions under the same root, is taken for a corrupt body and
the index is left as its header leaves it. -/
theorem computeMerkleRoot_mutated (hash : PairHash) {leaves leaves' : List UInt256} (nonempty : leaves ≠ [])
    (nonempty' : leaves' ≠ []) (few : leaves.length < 2 ^ 31) (few' : leaves'.length < 2 ^ 31)
    (differ : leaves ≠ leaves') (apart : NoCollision hash leaves leaves') :
    (∃ r r', computeMerkleRoot hash leaves = some r ∧ computeMerkleRoot hash leaves' = some r' ∧
      (r.1 = r'.1 → r.2 = true ∨ r'.2 = true)) ∧
    ∀ hashMerkleRoot rest rest', checkMerkleRoot hash hashMerkleRoot leaves .valid = some .valid →
      checkMerkleRoot hash hashMerkleRoot leaves' rest = some rest' →
      rest' = .corrupt ∧
      ∀ (C : Type) (rules : Consensus C) (io : AcceptIo) (st : ChainState C) (block : CBlock),
        block.check = rest' → ∀ P : ChainState C → Prop,
          (st.acceptBlockHeader rules block.toCBlockHeader).Ends P P →
          (st.acceptBlock rules io block).Ends P P := by
  obtain ⟨m, ran, twins⟩ := computeMerkleRoot_spec nonempty few.le
  obtain ⟨m', ran', twins'⟩ := computeMerkleRoot_spec nonempty' few'.le
  have one : root hash leaves.length (leafAt leaves) = root hash leaves'.length (leafAt leaves') →
      m = true ∨ m' = true := fun roots =>
    (apart.twins nonempty nonempty' differ roots).imp twins.2 twins'.2
  refine ⟨⟨_, _, ran, ran', one⟩, fun hashMerkleRoot rest rest' good variant => ?_⟩
  have corrupt : rest' = .corrupt := by
    simp only [checkMerkleRoot, ran, ran', Option.bind_eq_bind, Option.bind_some, Option.some.injEq]
      at good variant
    by_cases here : hashMerkleRoot ≠ root hash leaves.length (leafAt leaves)
    · rw [if_pos here] at good
      cases good
    rw [if_neg here] at good
    have clean : m ≠ true := by
      rintro rfl
      cases good
    by_cases there : hashMerkleRoot ≠ root hash leaves'.length (leafAt leaves')
    · rw [if_pos there] at variant
      exact variant.symm
    rw [if_neg there, (one ((not_not.1 here).symm.trans (not_not.1 there))).resolve_left clean]
      at variant
    exact variant.symm
  exact ⟨corrupt, fun C rules io st block check P => acceptBlock_corrupt st (check.trans corrupt)⟩

def pairing : PairHash := fun a b => 1000 * a + b + 7

/-- Three leaves, and the same with the last one twice. -/
theorem computeMerkleRoot_mutated_last_twice : NoCollision pairing [1, 2, 3] [1, 2, 3, 3] ∧
      ∃ r r', computeMerkleRoot pairing [1, 2, 3] = some r ∧
        computeMerkleRoot pairing [1, 2, 3, 3] = some r' ∧ (r.1 = r'.1 → r.2 = true ∨ r'.2 = true) ∧
        r.1 = r'.1 ∧ r.2 = false := by
  have apart : NoCollision pairing [1, 2, 3] [1, 2, 3, 3] := by
    unfold NoCollision
    decide
  obtain ⟨⟨r, r', ran, ran', reported⟩, -⟩ := @computeMerkleRoot_mutated pairing [1, 2, 3]
    [1, 2, 3, 3] (by decide) (by decide) (by decide) (by decide) (by decide) apart
  have clean : computeMerkleRoot pairing [1, 2, 3] = some (1012017, false) := by decide
  have twice : computeMerkleRoot pairing [1, 2, 3, 3] = some (1012017, true) := by decide
  refine ⟨apart, r, r', ran, ran', reported, ?_⟩
  rw [Option.mem_unique ran clean, Option.mem_unique ran' twice]
  exact ⟨rfl, rfl⟩

end Merkle
end DogecoinCore
