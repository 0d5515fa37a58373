import Mathlib.Data.Option.Basic
import Mathlib.Data.Nat.Basic
import Mathlib.Tactic.Common

/-! Trees given by parent pointers and heights. `Le` is the ancestor order:
its height-indexed spelling is the one a lookup computes, and the order laws
are derived from it. The chain ending at `b` is the set of nodes below `b`. -/
namespace DogecoinCore
open List Option Nat

/-- Nodes with an optional parent and a height counting the steps to a root. -/
structure ParentTree (α : Type*) where
  parent : α → Option α
  height : α → ℕ
  height_parent : ∀ {b p}, parent b = some p → height b = height p + 1
  height_root : ∀ {b}, parent b = none → height b = 0

namespace ParentTree
variable {α : Type*} {t : ParentTree α} {a b c p : α} {n m h : ℕ}

/-- Follow `n` parent pointers. -/
def up (t : ParentTree α) : ℕ → α → Option α
  | 0, b => some b
  | n + 1, b => (t.parent b).bind (t.up n)

/-- The ancestor of `b` at height `h`, or none above `b`. -/
def ancestorAt (t : ParentTree α) (b : α) (h : ℕ) : Option α :=
  if h ≤ t.height b then t.up (t.height b - h) b else none

/-- `a` is `b` or one of its ancestors. -/
def Le (t : ParentTree α) (a b : α) : Prop := t.ancestorAt b (t.height a) = some a

instance [DecidableEq α] (t : ParentTree α) (a b : α) : Decidable (t.Le a b) :=
  inferInstanceAs (Decidable (_ = _))

theorem up_height (reached : t.up n b = some a) : t.height a + n = t.height b := by
  induction n generalizing b with
  | zero =>
    cases reached
    rfl
  | succ n ih =>
    simp only [up, bind_eq_some_iff] at reached
    obtain ⟨_, edge, rest⟩ := reached
    have := ih rest
    have := t.height_parent edge
    omega

theorem up_exists (bound : n ≤ t.height b) : ∃ a, t.up n b = some a := by
  induction n generalizing b with
  | zero => exact ⟨b, rfl⟩
  | succ n ih =>
    cases edge : t.parent b with
    | none =>
      have := t.height_root edge
      omega
    | some p =>
      have := t.height_parent edge
      obtain ⟨a, reached⟩ := ih (b := p) (by omega)
      exact ⟨a, by simp [up, edge, reached]⟩

theorem up_add (first : t.up n b = some c) (second : t.up m c = some a) :
    t.up (n + m) b = some a := by
  induction n generalizing b with
  | zero =>
    cases first
    simpa using second
  | succ n ih =>
    simp only [up, bind_eq_some_iff] at first
    obtain ⟨_, edge, rest⟩ := first
    rw [succ_add]
    simp [up, edge, ih rest]

theorem le_iff_up : t.Le a b ↔ ∃ n, t.up n b = some a := by
  constructor
  · intro le
    simp only [Le, ancestorAt] at le
    split at le
    · exact ⟨_, le⟩
    · cases le
  rintro ⟨n, reached⟩
  have := up_height reached
  simp only [Le, ancestorAt, show t.height a ≤ t.height b by omega, ↓reduceIte]
  rw [show t.height b - t.height a = n by omega]
  exact reached

theorem Le.refl (b : α) : t.Le b b := le_iff_up.2 ⟨0, rfl⟩

theorem Le.trans (first : t.Le a b) (second : t.Le b c) : t.Le a c := by
  obtain ⟨n, low⟩ := le_iff_up.1 first
  obtain ⟨m, high⟩ := le_iff_up.1 second
  exact le_iff_up.2 ⟨m + n, up_add high low⟩

theorem Le.height_le (le : t.Le a b) : t.height a ≤ t.height b := by
  obtain ⟨_, reached⟩ := le_iff_up.1 le
  have := up_height reached
  omega

theorem Le.eq_of_height (low : t.Le a c) (high : t.Le b c) (same : t.height a = t.height b) :
    a = b := by
  unfold Le at low high
  rw [same, high] at low
  exact (some.inj low).symm

theorem Le.antisymm (first : t.Le a b) (second : t.Le b a) : a = b :=
  first.eq_of_height (Le.refl b) (le_antisymm first.height_le second.height_le)

theorem le_of_parent (edge : t.parent b = some p) : t.Le p b := le_iff_up.2 ⟨1, by simp [up, edge]⟩

theorem not_le_parent (edge : t.parent b = some p) : ¬ t.Le b p := by
  intro le
  have := le.height_le
  have := t.height_parent edge
  omega

theorem le_iff_parent : t.Le a b ↔ a = b ∨ ∃ p, t.parent b = some p ∧ t.Le a p := by
  constructor
  · intro le
    obtain ⟨n, reached⟩ := le_iff_up.1 le
    cases n with
    | zero => exact .inl (some.inj reached).symm
    | succ n =>
      simp only [up, bind_eq_some_iff] at reached
      obtain ⟨p, edge, rest⟩ := reached
      exact .inr ⟨p, edge, le_iff_up.2 ⟨n, rest⟩⟩
  rintro (rfl | ⟨p, edge, le⟩)
  · exact Le.refl a
  · exact le.trans (le_of_parent edge)

theorem Le.parent (le : t.Le a b) (edge : t.parent b = some p) (ne : a ≠ b) : t.Le a p := by
  rcases le_iff_parent.1 le with same | ⟨_, edge', below⟩
  · exact absurd same ne
  rw [edge] at edge'
  cases edge'
  exact below

theorem Le.eq_root (le : t.Le a b) (root : t.parent b = none) : a = b := by
  rcases le_iff_parent.1 le with same | ⟨_, edge, _⟩
  · exact same
  · simp [root] at edge

theorem Le.le_of_height (low : t.Le a c) (high : t.Le b c) (order : t.height a ≤ t.height b) :
    t.Le a b := by
  obtain ⟨_, reached⟩ := up_exists (t := t) (b := b) (n := t.height b - t.height a) (by omega)
  have height := up_height reached
  have below := le_iff_up.2 ⟨_, reached⟩
  have same := low.eq_of_height (below.trans high) (by omega)
  exact same ▸ below

theorem Le.comparable (low : t.Le a c) (high : t.Le b c) : t.Le a b ∨ t.Le b a := by
  rcases le_total (t.height a) (t.height b) with order | order
  · exact .inl (low.le_of_height high order)
  · exact .inr (high.le_of_height low order)

theorem parents_of_level (level : t.height a = t.height b) (ne : a ≠ b) :
    (t.parent a = none ∧ t.parent b = none ∧ ∀ x, ¬ (t.Le x a ∧ t.Le x b)) ∨
      ∃ p q, t.parent a = some p ∧ t.parent b = some q ∧ t.height p = t.height q ∧
        ∀ x, t.Le x a ∧ t.Le x b ↔ t.Le x p ∧ t.Le x q := by
  cases edgeA : t.parent a with
  | none =>
    cases edgeB : t.parent b with
    | none => exact .inl ⟨rfl, rfl, fun x ⟨leA, leB⟩ =>
        ne ((leA.eq_root edgeA).symm.trans (leB.eq_root edgeB))⟩
    | some q => grind [t.height_root edgeA, t.height_parent edgeB]
  | some p =>
    cases edgeB : t.parent b with
    | none => grind [t.height_root edgeB, t.height_parent edgeA]
    | some q =>
      refine .inr ⟨p, q, rfl, rfl, ?_, fun x => ⟨fun ⟨leA, leB⟩ => ?_, fun ⟨leP, leQ⟩ =>
        ⟨leP.trans (le_of_parent edgeA), leQ.trans (le_of_parent edgeB)⟩⟩⟩
      · grind [t.height_parent edgeA, t.height_parent edgeB]
      refine ⟨leA.parent edgeA fun same => ne ?_, leB.parent edgeB fun same => ne ?_⟩
      · exact (same ▸ leB).eq_of_height (.refl b) level
      · exact ((same ▸ leA).eq_of_height (.refl a) level.symm).symm

theorem ancestorAt_eq_some : t.ancestorAt b h = some a ↔ t.Le a b ∧ t.height a = h := by
  constructor
  · intro found
    have bound : h ≤ t.height b := by
      by_contra above
      simp [ancestorAt, above] at found
    simp only [ancestorAt, bound, ↓reduceIte] at found
    have := up_height found
    exact ⟨le_iff_up.2 ⟨_, found⟩, by omega⟩
  · rintro ⟨le, rfl⟩
    exact le

theorem ancestorAt_exists (bound : h ≤ t.height b) : ∃ a, t.ancestorAt b h = some a := by
  simp only [ancestorAt, bound, ↓reduceIte]
  exact up_exists (sub_le _ _)

theorem parent_induction {motive : α → Prop}
    (step : ∀ b, (∀ p, t.parent b = some p → motive p) → motive b) (b : α) : motive b := by
  induction height : t.height b using Nat.strong_induction_on generalizing b with
  | h _ ih =>
    apply step
    intro p edge
    have := t.height_parent edge
    exact ih (t.height p) (by omega) p rfl

/-- The `n` nodes from `b` towards its root, fewer when the root comes first. -/
def down (t : ParentTree α) : ℕ → α → List α
  | 0, _ => []
  | n + 1, b => b :: (t.parent b).elim [] (t.down n)

theorem mem_down : a ∈ t.down n b ↔ t.Le a b ∧ t.height b < t.height a + n := by
  induction n generalizing b with
  | zero =>
    simp only [down, not_mem_nil, false_iff, not_and]
    intro le
    have := le.height_le
    omega
  | succ n ih =>
    cases edge : t.parent b with
    | none =>
      simp only [down, edge, elim_none, mem_singleton]
      constructor
      · rintro rfl
        exact ⟨Le.refl a, by omega⟩
      · exact fun below => below.1.eq_root edge
    | some _ =>
      have step := t.height_parent edge
      simp only [down, edge, elim_some, mem_cons, ih]
      constructor
      · rintro (rfl | ⟨le, near⟩)
        · exact ⟨Le.refl a, by omega⟩
        · exact ⟨le.trans (le_of_parent edge), by omega⟩
      rintro ⟨le, near⟩
      by_cases same : a = b
      · exact .inl same
      · exact .inr ⟨le.parent edge same, by omega⟩

theorem down_add (reached : t.up m b = some c) : t.down (m + n) b = t.down m b ++ t.down n c := by
  induction m generalizing b with
  | zero =>
    cases reached
    rw [Nat.zero_add]
    rfl
  | succ m ih =>
    obtain ⟨_, edge, rest⟩ := bind_eq_some_iff.1 reached
    rw [succ_add]
    simp [down, edge, ih rest]

theorem down_pairwise (n : ℕ) (b : α) :
    (t.down n b).Pairwise fun x y => t.height y < t.height x := by
  induction n generalizing b with
  | zero => exact List.Pairwise.nil
  | succ n ih =>
    cases edge : t.parent b with
    | none => simp [down, edge]
    | some p =>
      simp only [down, edge, elim_some, pairwise_cons]
      refine ⟨fun x mem => ?_, ih p⟩
      have below := (mem_down.1 mem).1.height_le
      have step := t.height_parent edge
      omega

theorem head_down (first : (t.down n b).head? = some a) : a = b := by
  cases n with
  | zero => cases first
  | succ n => exact (some.inj first).symm

theorem mem_down_above (below : t.Le a b) :
    c ∈ t.down (t.height b - t.height a) b ↔ t.Le a c ∧ t.Le c b ∧ c ≠ a := by
  have order := below.height_le
  rw [mem_down]
  constructor
  · rintro ⟨le, near⟩
    refine ⟨below.le_of_height le (by omega), le, ?_⟩
    rintro rfl
    omega
  rintro ⟨low, le, ne⟩
  refine ⟨le, ?_⟩
  have := low.height_le
  by_contra near
  exact ne (le.eq_of_height below (by omega))

/-- Each node of the list is a child of the one before it, the first of `start`. -/
def Climbs (t : ParentTree α) : (start : Option α) → List α → Prop
  | _, [] => True
  | start, b :: rest => t.parent b = start ∧ t.Climbs (some b) rest

theorem climbs_concat (climbs : t.Climbs start path)
    (edge : t.parent b = path.getLast?.or start) : t.Climbs start (path ++ [b]) := by
  induction path generalizing start with
  | nil => exact ⟨edge, trivial⟩
  | cons _ rest ih =>
    refine ⟨climbs.1, ih climbs.2 ?_⟩
    rw [edge, getLast?_cons]
    cases rest.getLast? <;> rfl

theorem climbs_down (below : t.Le a b) :
    t.Climbs (some a) (t.down (t.height b - t.height a) b).reverse ∧
      ((t.down (t.height b - t.height a) b).reverse.getLast?.or (some a)) = some b := by
  induction b using t.parent_induction with
  | step b ih =>
    rcases le_iff_parent.1 below with rfl | ⟨p, edge, le⟩
    · simp [down, Climbs]
    have step := t.height_parent edge
    have order := le.height_le
    obtain ⟨climbs, top⟩ := ih p edge le
    rw [show t.height b - t.height a = t.height p - t.height a + 1 by omega]
    simp only [down, edge, elim_some, reverse_cons]
    exact ⟨climbs_concat climbs (edge.trans top.symm), by simp⟩

/-- The first node satisfying `q` on the way from `b` to its root, within `n` steps. -/
def nearest (t : ParentTree α) (q : α → Bool) : ℕ → α → Option α
  | 0, b => if q b then some b else none
  | n + 1, b => if q b then some b else (t.parent b).bind (t.nearest q n)

theorem nearest_eq_some (found : t.nearest q n b = some a) :
    t.Le a b ∧ q a ∧ ∀ c, t.Le a c → t.Le c b → q c → c = a := by
  have here : ∀ b, q b → t.Le b b ∧ q b ∧ ∀ c, t.Le b c → t.Le c b → q c → c = b :=
    fun b holds => ⟨Le.refl b, holds, fun c low high _ => high.antisymm low⟩
  induction n generalizing b with
  | zero =>
    simp only [nearest, ite_none_right_eq_some, some.injEq] at found
    obtain ⟨holds, rfl⟩ := found
    exact here b holds
  | succ n ih =>
    simp only [nearest] at found
    split at found
    · cases found
      exact here a ‹_›
    obtain ⟨_, edge, rest⟩ := bind_eq_some_iff.1 found
    obtain ⟨le, holds, first⟩ := ih rest
    refine ⟨le.trans (le_of_parent edge), holds, ?_⟩
    intro c low high holdsC
    by_cases same : c = b
    · subst same
      contradiction
    · exact first c low (high.parent edge same) holdsC

theorem nearest_eq_none (bound : t.height b ≤ n)
    (missing : t.nearest q n b = none) (le : t.Le a b) : ¬ q a := by
  induction n generalizing b with
  | zero =>
    cases edge : t.parent b with
    | none =>
      rw [le.eq_root edge]
      simpa [nearest] using missing
    | some p =>
      have := t.height_parent edge
      omega
  | succ n ih =>
    simp only [nearest] at missing
    split at missing
    · cases missing
    rcases le_iff_parent.1 le with rfl | ⟨p, edge, below⟩
    · assumption
    have := t.height_parent edge
    simp only [edge, bind_some] at missing
    exact ih (by omega) missing below

theorem le_of_nearest (found : t.nearest q n b = some a) (le : t.Le c b) (holds : q c) : t.Le c a := by
  obtain ⟨below, -, first⟩ := nearest_eq_some found
  rcases le.comparable below with low | high
  · exact low
  · rw [first c high le holds]
    exact .refl a

theorem Le.child_towards (le : t.Le a b) (ne : a ≠ b) : ∃ c, t.parent c = some a ∧ t.Le c b := by
  induction b using parent_induction with
  | step b ih =>
    rcases le_iff_parent.1 le with same | ⟨p, edge, below⟩
    · exact absurd same ne
    by_cases same : a = p
    · subst same
      exact ⟨b, edge, Le.refl b⟩
    · obtain ⟨c, child, towards⟩ := ih p edge below same
      exact ⟨c, child, towards.trans (le_of_parent edge)⟩

end ParentTree
end DogecoinCore
