import Mathlib.Data.Nat.Log
import Mathlib.Data.Nat.Factorization.Basic
import Mathlib.Tactic.Ring

/-! Binary trees of hashes over any number of leaves, in which a node without a neighbour is paired
with itself. Nodes are named by their level, the leaves being on level 0, and their
position on it. -/
namespace DogecoinCore.HashTree
open Nat List
variable {H : Type}

def width (n k : ℕ) : ℕ := (n + 2 ^ k - 1) / 2 ^ k

variable {n m k pos : ℕ}

theorem lt_width : pos < width n k ↔ pos * 2 ^ k < n := by
  have positive := Nat.two_pow_pos k
  rw [width, lt_iff_add_one_le, le_div_iff_mul_le positive, add_mul, one_mul]
  omega

@[simp] theorem width_zero : width n 0 = n := by simp [width]

theorem width_le_one : width n k ≤ 1 ↔ n ≤ 2 ^ k := by
  rw [← not_lt, lt_width, one_mul, not_lt]

theorem width_le_one_iff : width n k ≤ 1 ↔ clog 2 n ≤ k := by
  rw [width_le_one, clog_le_iff_le_pow one_lt_two]

theorem width_pos (nonempty : 0 < n) (k : ℕ) : 0 < width n k := by
  rw [lt_width, zero_mul]
  exact nonempty

theorem half_lt_width (here : pos < width n k) : pos / 2 < width n (k + 1) := by
  rw [lt_width] at here ⊢
  rw [pow_succ', ← mul_assoc]
  exact lt_of_le_of_lt (mul_le_mul_right _ (div_mul_le_self pos 2)) here

theorem two_mul_lt_width : 2 * pos < width n k ↔ pos < width n (k + 1) := by
  rw [lt_width, lt_width, pow_succ', ← mul_assoc, mul_comm pos 2]

theorem width_succ (n k : ℕ) : width n (k + 1) = (width n k + 1) / 2 := by
  refine eq_of_forall_lt_iff fun _ => ?_
  rw [← two_mul_lt_width]
  omega

theorem width_mono (less : n ≤ m) (k : ℕ) : width n k ≤ width m k := Nat.div_le_div_right (by omega)

theorem one_lt_width_of_lt_clog (below : k < clog 2 n) : 1 < width n k := by
  rw [← not_le, width_le_one_iff]
  exact not_le.2 below

section Nodes
variable (hash : H → H → H) (n : ℕ) (leaf : ℕ → H)

def node : (k pos : ℕ) → H
  | 0, pos => leaf pos
  | k + 1, pos =>
    hash (node k (2 * pos))
      (if 2 * pos + 1 < width n k then node k (2 * pos + 1) else node k (2 * pos))

def partner (k pos : ℕ) : H :=
  if 2 * pos + 1 < width n k then node hash n leaf k (2 * pos + 1) else node hash n leaf k (2 * pos)

theorem node_succ :
    node hash n leaf (k + 1) pos = hash (node hash n leaf k (2 * pos)) (partner hash n leaf k pos) :=
  rfl

def root : H := node hash n leaf (clog 2 n) 0

def pairs : List (H × H) :=
  (range (clog 2 n)).flatMap fun k => (range (width n (k + 1))).map fun pos =>
    (node hash n leaf k (2 * pos), partner hash n leaf k pos)

def Twins : Prop :=
  ∃ k pos, (2 * pos + 2) * 2 ^ k ≤ n ∧ node hash n leaf k (2 * pos) = node hash n leaf k (2 * pos + 1)

def perfect : (k pos : ℕ) → H
  | 0, pos => leaf pos
  | k + 1, pos => hash (perfect k (2 * pos)) (perfect k (2 * pos + 1))

end Nodes

variable {hash : H → H → H} {leaf leaf' : ℕ → H}

theorem partner_of_lt (there : 2 * pos + 1 < width n k) :
    partner hash n leaf k pos = node hash n leaf k (2 * pos + 1) := if_pos there

theorem partner_of_not_lt (missing : ¬ 2 * pos + 1 < width n k) :
    partner hash n leaf k pos = node hash n leaf k (2 * pos) := if_neg missing

theorem mem_pairs (below : k < clog 2 n) (here : pos < width n (k + 1)) :
    (node hash n leaf k (2 * pos), partner hash n leaf k pos) ∈ pairs hash n leaf :=
  mem_flatMap.2 ⟨k, mem_range.2 below, mem_map.2 ⟨pos, mem_range.2 here, rfl⟩⟩

theorem node_eq_perfect (complete : (pos + 1) * 2 ^ k ≤ n) :
    node hash n leaf k pos = perfect hash leaf k pos := by
  induction k generalizing pos with
  | zero => rfl
  | succ k ih =>
    have twice : (pos + 1) * 2 ^ (k + 1) = (2 * pos + 1 + 1) * 2 ^ k := by ring
    rw [twice] at complete
    have step : (2 * pos + 1) * 2 ^ k ≤ (2 * pos + 1 + 1) * 2 ^ k := mul_le_mul_right _ (le_succ _)
    have right : 2 * pos + 1 < width n k := by
      rw [lt_width]
      refine lt_of_lt_of_le ?_ complete
      rw [Nat.add_one_mul (2 * pos + 1)]
      exact Nat.lt_add_of_pos_right (Nat.two_pow_pos k)
    rw [node_succ, partner_of_lt right, ih (step.trans complete), ih complete, perfect]

/-- Hashing keeps pairs apart from each other, and from the leaves. -/
structure Separates (hash : H → H → H) (pairs : List (H × H)) (leaves : List H) : Prop where
  injective : ∀ p ∈ pairs, ∀ q ∈ pairs, hash p.1 p.2 = hash q.1 q.2 → p = q
  apart : ∀ p ∈ pairs, ∀ x ∈ leaves, hash p.1 p.2 ≠ x

instance separatesDecidable [DecidableEq H] (hash : H → H → H) (pairs : List (H × H))
    (leaves : List H) : Decidable (Separates hash pairs leaves) :=
  decidable_of_iff ((∀ p ∈ pairs, ∀ q ∈ pairs, hash p.1 p.2 = hash q.1 q.2 → p = q) ∧
    ∀ p ∈ pairs, ∀ x ∈ leaves, hash p.1 p.2 ≠ x)
    ⟨fun both => ⟨both.1, both.2⟩, fun separates => ⟨separates.injective, separates.apart⟩⟩

/-! ### Two trees with the same root -/

section Compare
variable {P : List (H × H)} {L : List H} (separates : Separates hash P L)
  (inside : pairs hash n leaf ⊆ P)
include separates inside

theorem children_eq
    (inside' : pairs hash m leaf' ⊆ P) (below : k < clog 2 n) (here : pos < width n (k + 1))
    (below' : k' < clog 2 m) (here' : pos' < width m (k' + 1))
    (same : node hash n leaf (k + 1) pos = node hash m leaf' (k' + 1) pos') :
    node hash n leaf k (2 * pos) = node hash m leaf' k' (2 * pos') ∧
      partner hash n leaf k pos = partner hash m leaf' k' pos' :=
  Prod.mk.inj (separates.injective _ (inside (mem_pairs below here)) _
    (inside' (mem_pairs below' here')) same)

private theorem nodes_eq (inside' : pairs hash m leaf' ⊆ P) (roots : root hash n leaf = root hash m leaf') :
    ∀ k k' pos, k + d = clog 2 n → k' + d = clog 2 m → pos < width n k → pos < width m k' →
      node hash n leaf k pos = node hash m leaf' k' pos := by
  induction d with
  | zero =>
    rintro k k' pos rfl rfl here here'
    have top : pos = 0 := by
      have one := width_le_one_iff.2 (le_refl (clog 2 n))
      exact lt_one_iff.1 (lt_of_lt_of_le here one)
    rw [top]
    exact roots
  | succ d ih =>
    intro k k' pos _ _ here here'
    have parents := ih (k + 1) (k' + 1) (pos / 2) (by omega) (by omega) (half_lt_width here)
      (half_lt_width here')
    obtain ⟨left, right⟩ := children_eq separates inside inside' (by omega) (half_lt_width here)
      (by omega) (half_lt_width here') parents
    rcases even_or_odd' pos with ⟨q, rfl | rfl⟩
    · rwa [Nat.mul_div_cancel_left q two_pos] at left
    · have half : (2 * q + 1) / 2 = q := by omega
      rwa [half, partner_of_lt here, partner_of_lt here'] at right

private theorem clog_le_of_root_eq (nonempty : 0 < n) (inside' : pairs hash m leaf' ⊆ P) (first : leaf 0 ∈ L)
    (roots : root hash n leaf = root hash m leaf') : clog 2 m ≤ clog 2 n := by
  by_contra higher
  obtain ⟨j, _⟩ := Nat.exists_eq_add_of_lt (not_le.1 higher)
  have below : j < clog 2 m := by omega
  have there : 0 < width m (j + 1) := by
    have two := one_lt_width_of_lt_clog below
    rw [width_succ]
    omega
  have same := nodes_eq separates inside inside' roots (d := clog 2 n) 0 (j + 1) 0 (by omega)
    (by omega) (by rwa [width_zero]) there
  exact separates.apart _ (inside' (mem_pairs below there)) _ first same.symm

private theorem twins_of_incomplete (complete : (a + 1) * 2 ^ k ≤ n) (before : a < b)
    (begun : b * 2 ^ k < n) (unfinished : n < (b + 1) * 2 ^ k)
    (same : node hash n leaf k a = node hash n leaf k b) : Twins hash n leaf := by
  induction k generalizing a b with
  | zero => omega
  | succ k ih =>
    have power : 2 ^ (k + 1) = 2 * 2 ^ k := pow_succ'
    have here := lt_width.2 begun
    have below : k < clog 2 n := by
      rw [← not_le, ← width_le_one_iff, width_succ] at *
      omega
    have here' := before.trans here
    obtain ⟨left, right⟩ := children_eq separates inside inside below here' below here same
    have whole : (2 * a + 2) * 2 ^ k ≤ n := by
      rw [power] at complete
      calc (2 * a + 2) * 2 ^ k = (a + 1) * (2 * 2 ^ k) := by ring
        _ ≤ n := complete
    have second : 2 * a + 1 < width n k := by
      rw [lt_width]
      exact Nat.lt_of_lt_of_le (Nat.mul_lt_mul_of_pos_right (by omega) (Nat.two_pow_pos k)) whole
    rw [partner_of_lt second] at right
    by_cases there : 2 * b + 1 < width n k
    · rw [partner_of_lt there] at right
      refine ih whole (by omega) (lt_width.1 there) ?_ right
      calc n < (b + 1) * 2 ^ (k + 1) := unfinished
        _ = (2 * b + 1 + 1) * 2 ^ k := by rw [power]; ring
    -- The incomplete node is its left child with itself.
    rw [partner_of_not_lt there, ← left] at right
    exact ⟨k, a, whole, right.symm⟩

theorem twins_of_root_eq (nonempty : 0 < n) (more : n < m) (inside' : pairs hash m leaf' ⊆ P)
    (first : leaf 0 ∈ L) (roots : root hash n leaf = root hash m leaf') : Twins hash m leaf' := by
  have height := le_antisymm (clog_le_of_root_eq separates inside nonempty inside' first roots)
      (clog_mono_right 2 more.le)
  -- The lowest level on which the smaller tree ends with a node paired with itself.
  obtain ⟨k, _, odd, split⟩ := exists_eq_two_pow_mul_odd nonempty.ne'
  obtain ⟨q, rfl⟩ := odd
  have ends : (2 * q + 1) * 2 ^ k = n := by rw [split, mul_comm]
  have below : k < clog 2 n := by
    rw [← height, lt_clog_iff_pow_lt one_lt_two]
    refine lt_of_le_of_lt ?_ more
    rw [← ends]
    exact Nat.le_mul_of_pos_left _ (by omega)
  have last : 2 * q < width n k := by
    rw [lt_width, ← ends]
    exact Nat.mul_lt_mul_of_pos_right (by omega) (Nat.two_pow_pos k)
  have missing : ¬ 2 * q + 1 < width n k := by
    rw [lt_width, ends]
    exact lt_irrefl n
  have there : 2 * q + 1 < width m k := by
    rw [lt_width, ends]
    exact more
  have wider := width_mono more.le (k + 1)
  have parent := two_mul_lt_width.1 last
  obtain ⟨_, level⟩ := Nat.exists_eq_add_of_le (succ_le_of_lt below)
  have parents := nodes_eq separates inside inside' roots (k + 1) (k + 1) q level.symm
    (height.trans level).symm parent (parent.trans_le wider)
  obtain ⟨left, right⟩ := children_eq separates inside inside' below parent (height ▸ below)
    (parent.trans_le wider) parents
  rw [partner_of_not_lt missing, partner_of_lt there] at right
  have same := left.symm.trans right
  by_cases whole : (2 * q + 2) * 2 ^ k ≤ m
  · exact ⟨k, q, whole, same⟩
  · exact twins_of_incomplete separates inside' (ends.trans_le more.le) (lt_succ_self _)
      (lt_width.1 there) (not_le.1 whole) same

theorem leaves_eq_of_root_eq (inside' : pairs hash n leaf' ⊆ P) (roots : root hash n leaf = root hash n leaf')
    (here : pos < n) : leaf pos = leaf' pos :=
  nodes_eq separates inside inside' roots 0 0 pos (zero_add _) (zero_add _)
    (by rwa [width_zero]) (by rwa [width_zero])

end Compare

end DogecoinCore.HashTree
