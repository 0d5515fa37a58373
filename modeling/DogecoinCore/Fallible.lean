import Mathlib.Tactic.Common

/-! Computations that may stop with an error: what holds however they end, and when the success of
one implies the success of another. Both kinds of facts are put together along the sequence of a
`do` block. -/
namespace DogecoinCore
namespace Fallible
variable {ε α β : Type} {x y : Except ε α}

/-- `P` holds of the error and `Q` of the value. -/
def Ends (P : ε → Prop) (Q : α → Prop) : Except ε α → Prop
  | .ok a => Q a
  | .error e => P e

theorem Ends.bind (first : Ends P Q x) (next : ∀ a, Q a → Ends P R (f a)) : Ends P R (x >>= f) := by
  cases x with
  | ok a => exact next a first
  | error _ => exact first

theorem Ends.weaken (ends : Ends P Q x) (value : ∀ a, Q a → Q' a) : Ends P Q' x := by
  cases x with
  | ok a => exact value a ends
  | error _ => exact ends

theorem Ends.mapError {f : ε → ε} (ends : Ends P Q x) (keeps : ∀ e, P e → P (f e)) :
    Ends P Q (x.mapError f) := by
  cases x with
  | ok _ => exact ends
  | error e => exact keeps e ends

theorem Ends.of_ok (ends : Ends P Q x) (is : x = .ok a) : Q a := by
  rw [is] at ends
  exact ends

theorem Ends.of_error (ends : Ends P Q x) (is : x = .error e) : P e := by
  rw [is] at ends
  exact ends

theorem bind_eq_ok : x >>= f = .ok b ↔ ∃ a, x = .ok a ∧ f a = .ok b := by
  cases x with
  | ok a => exact ⟨fun is => ⟨a, rfl, is⟩, fun ⟨_, same, is⟩ => Except.ok.inj same ▸ is⟩
  | error _ => exact ⟨fun is => absurd is (by simp [bind, Except.bind]),
      fun ⟨_, same, _⟩ => absurd same (by simp)⟩

def Implies (x y : Except ε α) : Prop := ∀ a, x = .ok a → y = .ok a

theorem Implies.refl (x : Except ε α) : Implies x x := fun _ is => is
theorem Implies.error (e : ε) (y : Except ε α) : Implies (.error e) y := fun _ is => by cases is

theorem Implies.bind (first : Implies x y) (next : ∀ a, Implies (f a) (g a)) :
    Implies (x >>= f) (y >>= g) := by
  intro b is
  obtain ⟨a, one, two⟩ := bind_eq_ok.1 is
  exact bind_eq_ok.2 ⟨a, first a one, next a b two⟩

theorem Implies.after (next : ∀ a, Implies (f a) (g a)) : Implies (x >>= f) (x >>= g) :=
  (refl x).bind next

theorem Implies.mapError (implies : Implies x y) : Implies (x.mapError h) (y.mapError h) := by
  intro _ is
  cases x with
  | ok b =>
    rw [implies b rfl]
    exact is
  | error _ => cases is

end Fallible
end DogecoinCore
