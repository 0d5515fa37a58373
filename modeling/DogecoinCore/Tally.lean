import Mathlib.Algebra.BigOperators.Group.List.Basic
import Mathlib.Algebra.Order.Ring.Nat
import Mathlib.Data.List.Nodup
import Mathlib.Data.List.Perm.Subperm
import Mathlib.Tactic.Abel

/-! Sums of weights over the members of a list that have a property: how such a tally
changes when the list, the weights or the property change. -/
namespace DogecoinCore
open List

section
variable {M : Type} [Zero M] {P : Prop} {w : M}

open Classical in
noncomputable def whenever (P : Prop) (w : M) : M := if P then w else 0

theorem whenever_pos (holds : P) : whenever P w = w := if_pos holds
theorem whenever_neg (fails : ¬ P) : whenever P w = 0 := if_neg fails

theorem whenever_congr (same : P ↔ Q) : whenever P w = whenever Q w := by
  rw [propext same]

end

variable {ι M : Type} [AddCommGroup M] {V s : List ι} {w w' : ι → M} {P Q R : ι → Prop}

noncomputable def tally (V : List ι) (w : ι → M) (P : ι → Prop) : M :=
  (V.map fun a => whenever (P a) (w a)).sum

@[simp] theorem tally_nil : tally [] w P = 0 := rfl

@[simp] theorem tally_cons : tally (it :: V) w P = whenever (P it) (w it) + tally V w P := by
  simp [tally]

theorem tally_congr (weights : ∀ a ∈ V, P a → w a = w' a) (same : ∀ a ∈ V, (P a ↔ Q a)) :
    tally V w P = tally V w' Q := by
  refine congrArg sum (map_congr_left fun a mem => ?_)
  rw [← whenever_congr (same a mem)]
  by_cases holds : P a
  · rw [whenever_pos holds, whenever_pos holds, weights a mem holds]
  · rw [whenever_neg holds, whenever_neg holds]

theorem tally_congr_prop (same : ∀ a ∈ V, (P a ↔ Q a)) : tally V w P = tally V w Q :=
  tally_congr (fun _ _ _ => rfl) same

theorem tally_none (none : ∀ a ∈ V, ¬ P a) : tally V w P = 0 := by
  induction V with
  | nil => rfl
  | cons a V ih =>
    rw [tally_cons, whenever_neg (none a mem_cons_self),
      ih fun b mem => none b (mem_cons_of_mem a mem), add_zero]

theorem tally_all (all : ∀ a ∈ V, P a) : tally V w P = (V.map w).sum := by
  refine congrArg sum (map_congr_left fun a mem => ?_)
  exact whenever_pos (all a mem)

open Classical in
theorem tally_eq_sum : tally V w P = ((V.filter (P ·)).map w).sum := by
  induction V with
  | nil => rfl
  | cons a V ih =>
    by_cases holds : P a
    · rw [tally_cons, ih, whenever_pos holds, filter_cons_of_pos (by simpa), map_cons, sum_cons]
    · rw [tally_cons, ih, whenever_neg holds, filter_cons_of_neg (by simpa), zero_add]

theorem tally_split (split : ∀ a ∈ V, (P a ↔ Q a ∨ R a)) (apart : ∀ a ∈ V, Q a → ¬ R a) :
    tally V w P = tally V w Q + tally V w R := by
  induction V with
  | nil => simp
  | cons a V ih =>
    have rest := ih (fun b mem => split b (mem_cons_of_mem a mem))
      fun b mem => apart b (mem_cons_of_mem a mem)
    have first : whenever (P a) (w a) = whenever (Q a) (w a) + whenever (R a) (w a) := by
      rw [whenever_congr (split a mem_cons_self)]
      by_cases left : Q a
      · rw [whenever_pos (.inl left), whenever_pos left,
          whenever_neg (apart a mem_cons_self left), add_zero]
      by_cases right : R a
      · rw [whenever_pos (.inr right), whenever_neg left, whenever_pos right, zero_add]
      · rw [whenever_neg (not_or.2 ⟨left, right⟩), whenever_neg left, whenever_neg right,
          add_zero]
    rw [tally_cons, tally_cons, tally_cons, rest, first]
    exact add_add_add_comm ..

theorem tally_perm (perm : V.Perm s) : tally V w P = tally s w P := (perm.map _).sum_eq

section
variable (nodup : V.Nodup)
include nodup

theorem tally_inside (s_nodup : s.Nodup) (inside : s ⊆ V) :
    tally V w (fun a => a ∈ s ∧ P a) = tally s w P := by
  classical
  have perm : (V.filter (· ∈ s)).Perm s := by
    refine (perm_ext_iff_of_nodup (nodup.filter _) s_nodup).2 fun a => ?_
    rw [mem_filter, decide_eq_true_eq]
    exact ⟨And.right, fun mem => ⟨inside mem, mem⟩⟩
  rw [← tally_perm perm]
  clear perm nodup inside
  induction V with
  | nil => rfl
  | cons a V ih =>
    rw [tally_cons, ih]
    by_cases mem : a ∈ s
    · rw [filter_cons_of_pos (by simpa using mem), tally_cons]
      congr 1
      exact whenever_congr (and_iff_right mem)
    · rw [filter_cons_of_neg (by simpa using mem),
        whenever_neg fun both => mem both.1, zero_add]

theorem tally_filter_not_mem [DecidableEq ι] (s_nodup : s.Nodup)
    (inside : s ⊆ V) : tally (V.filter (· ∉ s)) w P = tally V w P - tally s w P := by
  have split : tally V w P
      = tally V w (fun a => a ∈ V.filter (· ∉ s) ∧ P a) + tally V w fun a => a ∈ s ∧ P a := by
    refine tally_split (fun a mem => ?_) fun a mem left right => ?_
    · simp only [mem_filter, mem, true_and, decide_eq_true_eq]
      tauto
    · simp only [mem_filter, decide_eq_true_eq] at left
      exact left.1.2 right.1
  rw [split, tally_inside nodup s_nodup inside,
    tally_inside nodup (nodup.filter _) (filter_subset_self _), add_sub_cancel_right]

theorem tally_mem (s_nodup : s.Nodup) (inside : s ⊆ V) : tally V w (· ∈ s) = (s.map w).sum := by
  rw [← tally_all (P := fun _ => True) fun _ _ => trivial, ← tally_inside nodup s_nodup inside]
  exact tally_congr_prop fun _ _ => (and_iff_left trivial).symm

theorem tally_only (mem : it ∈ V) (holds : Prop) :
    tally V w (fun a => a = it ∧ holds) = whenever holds (w it) := by
  have single : tally V w (fun a => a ∈ [it] ∧ holds) = tally [it] w fun _ => holds :=
    tally_inside nodup (nodup_singleton it) (by simpa using mem)
  simp only [mem_singleton] at single
  rw [single, tally_cons, tally_nil, add_zero]

theorem tally_update (mem : it ∈ V) (others : ∀ a ∈ V, a ≠ it → w' a = w a) :
    tally V w' P = tally V w P + whenever (P it) (w' it - w it) := by
  have old : tally V w P = tally V w (fun a => a = it ∧ P it) + tally V w fun a => a ≠ it ∧ P a :=
    tally_split (by grind) (by grind)
  have new : tally V w' P = tally V w' (fun a => a = it ∧ P it) + tally V w' fun a => a ≠ it ∧ P a :=
    tally_split (by grind) (by grind)
  have rest : tally V w' (fun a => a ≠ it ∧ P a) = tally V w fun a => a ≠ it ∧ P a :=
    tally_congr (fun a mem both => others a mem both.1) fun _ _ => Iff.rfl
  rw [old, new, rest, tally_only nodup mem, tally_only nodup mem]
  by_cases holds : P it
  · rw [whenever_pos holds, whenever_pos holds, whenever_pos holds]
    abel
  · rw [whenever_neg holds, whenever_neg holds, whenever_neg holds, add_zero]

end

end DogecoinCore
