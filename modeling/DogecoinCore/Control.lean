import Mathlib.Order.WellFounded
import Mathlib.Tactic.Common

/-! Control flow of routines that report failure by a flag, stop in an assertion,
or loop until a condition holds. A loop is run with fuel; the rules below turn
facts about one turn into facts about the whole loop. -/
namespace DogecoinCore
/-- How a routine ends: with a value, with `false` leaving a state behind, or in an assertion. -/
inductive Outcome (σ α : Type) where
  | ok (a : α)
  | fail (s : σ)
  | abort
  deriving DecidableEq, Repr

namespace Outcome
variable {σ α β : Type} {x : Outcome σ α} {f : α → Outcome σ β}

def bind (x : Outcome σ α) (f : α → Outcome σ β) : Outcome σ β :=
  match x with
  | ok a => f a
  | fail s => fail s
  | abort => abort

instance : Monad (Outcome σ) where
  pure := ok
  bind := bind

@[simp] theorem pure_eq : (pure a : Outcome σ α) = ok a := rfl
@[simp] theorem ok_bind : (ok a : Outcome σ α) >>= f = f a := rfl
@[simp] theorem fail_bind : (fail s : Outcome σ α) >>= f = fail s := rfl
@[simp] theorem abort_bind : (abort : Outcome σ α) >>= f = abort := rfl

theorem bind_eq_ok : x >>= f = ok b ↔ ∃ a, x = ok a ∧ f a = ok b := by
  cases x <;> simp

theorem bind_eq_fail : x >>= f = fail s ↔ x = fail s ∨ ∃ a, x = ok a ∧ f a = fail s := by
  cases x <;> simp

/-- `P` holds of what a failure leaves behind and `Q` of the value. -/
def Ends (P : σ → Prop) (Q : α → Prop) : Outcome σ α → Prop
  | ok a => Q a
  | fail s => P s
  | abort => True

variable {P : σ → Prop} {Q : α → Prop} {R : β → Prop}

theorem Ends.bind (first : x.Ends P Q) (next : ∀ a, Q a → (f a).Ends P R) : (x >>= f).Ends P R := by
  cases x with
  | ok a => exact next a first
  | fail _ => exact first
  | abort => trivial

theorem Ends.imp (ends : x.Ends P Q) (left : ∀ s, P s → P' s)
    (value : ∀ a, Q a → Q' a) : x.Ends P' Q' := by
  cases x with
  | ok a => exact value a ends
  | fail s => exact left s ends
  | abort => trivial

theorem Ends.of_ok (ends : x.Ends P Q) (is : x = ok a) : Q a := by
  rw [is] at ends
  exact ends

theorem Ends.of_fail (ends : x.Ends P Q) (is : x = fail s) : P s := by
  rw [is] at ends
  exact ends

def Alike (R : α → β → Prop) : Outcome σ α → Outcome σ β → Prop
  | ok a, ok b => R a b
  | fail _, fail _ => True
  | abort, abort => True
  | _, _ => False

theorem Alike.bind {g : β → Outcome σ δ} {h : α → Outcome σ γ}
    {R : α → β → Prop} {S : γ → δ → Prop} (first : x.Alike R y)
    (next : ∀ a b, R a b → (h a).Alike S (g b)) : (x >>= h).Alike S (y >>= g) := by
  cases x <;> cases y <;> first | exact first.elim | trivial | exact next _ _ first

theorem Alike.fail_iff {R : α → β → Prop} (alike : x.Alike R y) :
    (∃ s, x = fail s) ↔ ∃ s, y = fail s := by
  cases x <;> cases y <;> simp_all [Alike]

end Outcome

inductive Turn (σ ρ : Type) where
  | again (s : σ)
  | leave (r : ρ)
  deriving DecidableEq, Repr

def Turn.leaves {σ ρ : Type} : Turn σ ρ → Bool
  | again _ => false
  | leave _ => true

def Turn.andThen {σ ρ : Type} (turn : Turn σ ρ) (next : σ → Turn σ ρ) : Turn σ ρ :=
  match turn with
  | again s => next s
  | leave r => leave r

/-- Turns of a loop, at most `fuel` of them. -/
def iterate {σ ρ : Type} (turn : σ → Turn σ ρ) : (fuel : ℕ) → σ → Option ρ
  | 0, _ => none
  | fuel + 1, s =>
    match turn s with
    | .leave r => some r
    | .again s' => iterate turn fuel s'

namespace iterate
variable {σ ρ : Type} {turn : σ → Turn σ ρ} {s s' : σ}

theorem succ_again (next : turn s = .again s') :
    iterate turn (fuel + 1) s = iterate turn fuel s' := by
  simp [iterate, next]

theorem succ_leave (last : turn s = .leave r) : iterate turn (fuel + 1) s = some r := by
  simp [iterate, last]

theorem mono (ran : iterate turn fuel s = some r) (le : fuel ≤ more) :
    iterate turn more s = some r := by
  induction fuel generalizing s more with
  | zero => cases ran
  | succ fuel ih =>
    obtain ⟨more, rfl⟩ : ∃ m, more = m + 1 := ⟨more - 1, by omega⟩
    cases step : turn s with
    | leave _ =>
      rw [succ_leave step] at ran ⊢
      exact ran
    | again _ =>
      rw [succ_again step] at ran ⊢
      exact ih ran (by omega)

theorem invariant {I : σ → Prop} {Q : ρ → Prop} (kept : ∀ s s', I s → turn s = .again s' → I s')
    (left : ∀ s r, I s → turn s = .leave r → Q r)
    (start : I s) (ran : iterate turn fuel s = some r) : Q r := by
  induction fuel generalizing s with
  | zero => cases ran
  | succ fuel ih =>
    cases step : turn s with
    | leave _ =>
      rw [succ_leave step] at ran
      cases ran
      exact left s _ start step
    | again s' =>
      rw [succ_again step] at ran
      exact ih (kept s s' start step) ran

theorem terminates {I : σ → Prop} (wf : WellFounded R)
    (kept : ∀ s s', I s → turn s = .again s' → I s' ∧ R s' s) (start : I s) :
    ∃ fuel r, iterate turn fuel s = some r := by
  induction s using wf.induction with
  | _ s ih =>
    cases step : turn s with
    | leave r => exact ⟨1, r, succ_leave step⟩
    | again s' =>
      obtain ⟨kept', less⟩ := kept s s' start step
      obtain ⟨fuel, r, ran⟩ := ih s' less kept'
      exact ⟨fuel + 1, r, by rw [succ_again step, ran]⟩

theorem within {I : σ → Prop} {m : σ → ℕ}
    (kept : ∀ s s', I s → turn s = .again s' → I s' ∧ m s' < m s) (start : I s)
    (enough : m s < fuel) : ∃ r, iterate turn fuel s = some r := by
  induction fuel generalizing s with
  | zero => cases enough
  | succ fuel ih =>
    cases step : turn s with
    | leave r => exact ⟨r, succ_leave step⟩
    | again s' =>
      obtain ⟨kept, less⟩ := kept s s' start step
      rw [succ_again step]
      exact ih kept (by omega)

theorem of_reaches (reaches : Relation.ReflTransGen (fun s s' => turn s = .again s') s s')
    (ran : iterate turn fuel s = some r) : ∃ fuel, iterate turn fuel s' = some r := by
  induction reaches with
  | refl => exact ⟨fuel, ran⟩
  | tail _ next ih =>
    obtain ⟨_ | fuel, ran⟩ := ih
    · cases ran
    · exact ⟨fuel, (succ_again next).symm.trans ran⟩

theorem diverges {I : σ → Prop}
    (next : ∀ s, I s → ∃ s', turn s = .again s' ∧ I s') (start : I s) (fuel : ℕ) :
    iterate turn fuel s = none := by
  induction fuel generalizing s with
  | zero => rfl
  | succ fuel ih =>
    obtain ⟨s', step, kept⟩ := next s start
    rw [succ_again step]
    exact ih kept

end iterate

/-- A loop bounded by a counter: `again` carries the state in which the counter ran out. -/
def loopFor {σ ρ : Type} (turn : σ → Turn σ ρ) : (n : ℕ) → σ → Turn σ ρ
  | 0, s => .again s
  | n + 1, s =>
    match turn s with
    | .leave r => .leave r
    | .again s' => loopFor turn n s'

namespace loopFor
variable {σ ρ : Type} {turn : σ → Turn σ ρ} {s s' : σ}

theorem succ_again (next : turn s = .again s') : loopFor turn (n + 1) s = loopFor turn n s' := by
  simp [loopFor, next]

theorem succ_leave (last : turn s = .leave r) : loopFor turn (n + 1) s = .leave r := by
  simp [loopFor, last]

theorem invariant {I : ℕ → σ → Prop} {Q : ρ → Prop}
    (kept : ∀ k s s', I (k + 1) s → turn s = .again s' → I k s')
    (left : ∀ k s r, I (k + 1) s → turn s = .leave r → Q r) (start : I n s) :
    (∀ s', loopFor turn n s = .again s' → I 0 s') ∧ ∀ r, loopFor turn n s = .leave r → Q r := by
  induction n generalizing s with
  | zero =>
    constructor
    · rintro s' ⟨⟩
      exact start
    · rintro r ⟨⟩
  | succ n ih =>
    cases step : turn s with
    | leave _ =>
      rw [succ_leave step]
      constructor
      · rintro s' ⟨⟩
      · rintro r ⟨⟩
        exact left n s _ start step
    | again s' =>
      rw [succ_again step]
      exact ih (kept n s s' start step)

end loopFor
end DogecoinCore
