import Mathlib.Data.List.Sort

/-! The median of a list, by counting: sorting does not change how many elements lie below a
value. -/
namespace DogecoinCore.Median
open List
variable {α : Type*} [LinearOrder α] {l : List α} {d m x : α}

theorem le_getElem_iff (sorted : l.Pairwise (· ≤ ·)) (inside : k < l.length) :
    m ≤ l[k] ↔ l.countP (· < m) ≤ k := by
  induction l generalizing k with
  | nil => cases inside
  | cons x _ ih =>
    obtain ⟨first, tail⟩ := pairwise_cons.1 sorted
    by_cases low : x < m
    · rw [countP_cons_of_pos (by simpa using low)]
      cases k with
      | zero => simpa using low
      | succ k => simpa using ih tail (Nat.lt_of_succ_lt_succ inside)
    have high := forall_mem_cons.2 ⟨not_lt.1 low, fun y held => (not_lt.1 low).trans (first y held)⟩
    rw [countP_eq_zero.2 (by simpa using high)]
    exact iff_of_true (high _ (getElem_mem _)) (Nat.zero_le k)

/-- The element in the middle of the sorted list, the upper one of two. -/
def median (d : α) (l : List α) : α := (l.insertionSort (· ≤ ·))[l.length / 2]?.getD d

theorem le_median_iff (nonempty : l ≠ []) : m ≤ median d l ↔ l.countP (· < m) ≤ l.length / 2 := by
  have inside : l.length / 2 < (l.insertionSort (· ≤ ·)).length := by
    rw [length_insertionSort]
    exact Nat.div_lt_self (length_pos_of_ne_nil nonempty) (by decide)
  rw [median, getElem?_eq_getElem inside, Option.getD_some,
    le_getElem_iff (pairwise_insertionSort _ l) inside, (perm_insertionSort _ l).countP_eq]

theorem median_le_window (nonempty : l ≠ []) (bound : l.length ≤ n + 1) (above : median d l ≤ x) :
    median d l ≤ median d (x :: l.take n) := by
  have before := (le_median_iff (d := d) nonempty).1 le_rfl
  have fewer : (l.take n).countP (· < median d l) ≤ l.countP (· < median d l) :=
    (take_sublist n l).countP_le
  rw [le_median_iff (cons_ne_nil x _), countP_cons_of_neg (by simpa using above), length_cons,
    length_take]
  omega

end DogecoinCore.Median
