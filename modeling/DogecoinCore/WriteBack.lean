import Mathlib.Logic.Function.Basic

/-! One level of a write-back cache. An entry remembers whether it differs from the level
below (`dirty`) and whether the level below has nothing for its key (`fresh`); a value
that is gone counts as no value. Everything is said for one key: what a reader sees
through the level, and which entries say the truth about the level below. -/
namespace DogecoinCore.WriteBack
structure Entry (V : Type) where
  value : V
  dirty : Bool
  fresh : Bool
  deriving DecidableEq, Repr

variable {V : Type} (gone : V → Bool)

def seen (v : Option V) : Option V := v.filter fun v => !gone v

/-- What a reader gets at a key: the entry's value, or else the one below. -/
def read (e : Option (Entry V)) (below : Option V) : Option V := (e.map (·.value)).or below

structure Sound (e : Option (Entry V)) (below : Option V) : Prop where
  clean : ∀ x, e = some x → x.dirty = false → seen gone (some x.value) = seen gone below
  fresh : ∀ x, e = some x → x.fresh = true → seen gone below = none

def filled (v : V) : Entry V := ⟨v, false, gone v⟩

/-- The entry a modification starts from: the cached one, or else one for what is below. -/
def opened (empty : V) (e : Option (Entry V)) (below : Option V) : Entry V :=
  match e, below with
  | some x, _ => { x with dirty := true }
  | none, some v => ⟨v, true, gone v⟩
  | none, none => ⟨empty, true, true⟩

/-- The end of a modification: a fresh entry whose value is gone leaves no trace. -/
def settled (x : Entry V) : Option (Entry V) := if x.fresh && gone x.value then none else some x

/-- A dirty entry `x` of the level above is written over the entry `e`; `none` if it claims to be
fresh over a value that is there. -/
def merged (e : Option (Entry V)) (x : Entry V) : Option (Option (Entry V)) :=
  match e with
  | none => some (if x.fresh && gone x.value then none else some ⟨x.value, true, x.fresh⟩)
  | some us =>
    if x.fresh && !gone us.value then none
    else some (if us.fresh && gone x.value then none else some ⟨x.value, true, us.fresh⟩)

variable {gone} {below : Option V}

theorem seen_none : seen gone none = none := rfl

theorem seen_some_of_gone (is : gone v) : seen gone (some v) = none := by
  simp [seen, Option.filter, is]

theorem seen_some_of_there (there : gone v = false) : seen gone (some v) = some v := by
  simp [seen, Option.filter, there]

theorem seen_eq_none : seen gone below = none ↔ ∀ v, below = some v → gone v := by
  cases below with
  | none => simp [seen]
  | some v => simp [seen, Option.filter]

theorem seen_eq_some : seen gone below = some v ↔ below = some v ∧ gone v = false := by
  cases below with
  | none => simp [seen]
  | some _ => simp [seen]

@[simp] theorem read_none : read none below = below := rfl
@[simp] theorem read_some : read (some x) below = some x.value := rfl
theorem Sound.none : Sound gone none below := ⟨by simp, by simp⟩

theorem Sound.filled : Sound gone (some (filled gone v)) (some v) := by
  constructor
  · rintro x ⟨⟩ -
    rfl
  · rintro x ⟨⟩ fresh
    exact seen_some_of_gone fresh

theorem opened_value (is : gone empty) :
    seen gone (some (opened gone empty e below).value) = seen gone (read e below) := by
  cases e with
  | some _ => rfl
  | none =>
    cases below with
    | some _ => rfl
    | none => exact seen_some_of_gone is

theorem opened_dirty (empty : V) : (opened gone empty e below).dirty := by
  cases e with
  | some _ => rfl
  | none => cases below <;> rfl

theorem Sound.opened_fresh (sound : Sound gone e below) (empty : V)
    (fresh : (opened gone empty e below).fresh) : seen gone below = Option.none := by
  cases e with
  | some x => exact sound.fresh x rfl fresh
  | none =>
    cases below with
    | some _ => exact seen_some_of_gone fresh
    | none => rfl

theorem Sound.settled (dirty : x.dirty)
    (fresh : x.fresh → seen gone below = Option.none) :
    Sound gone (settled gone x) below := by
  unfold WriteBack.settled
  split
  · exact .none
  constructor
  · rintro y ⟨⟩ clean
    rw [dirty] at clean
    cases clean
  · rintro y ⟨⟩
    exact fresh

theorem seen_read_settled (fresh : x.fresh → seen gone below = Option.none) :
    seen gone (read (settled gone x) below) = seen gone (some x.value) := by
  unfold WriteBack.settled
  by_cases both : (x.fresh && gone x.value)
  · rw [if_pos both, read_none]
    rw [Bool.and_eq_true] at both
    rw [fresh both.1, seen_some_of_gone both.2]
  · rw [if_neg both, read_some]

theorem Sound.merged (sound : Sound gone e below) (above : Sound gone (some x) (read e below)) :
    ∃ e', merged gone e x = some e' ∧ Sound gone e' below ∧
      seen gone (read e' below) = seen gone (some x.value) := by
  cases e with
  | none =>
    have fresh := above.fresh x rfl
    exact ⟨WriteBack.settled gone ⟨x.value, true, x.fresh⟩, rfl, .settled rfl fresh,
      seen_read_settled fresh⟩
  | some us =>
    have fits : ¬ (x.fresh && !gone us.value) := by
      rw [Bool.and_eq_true, Bool.not_eq_true']
      rintro ⟨fresh, there⟩
      have missing := above.fresh x rfl fresh
      rw [read_some, seen_some_of_there there] at missing
      cases missing
    have fresh := sound.fresh us rfl
    refine ⟨WriteBack.settled gone ⟨x.value, true, us.fresh⟩, ?_, .settled rfl fresh,
      seen_read_settled fresh⟩
    simp only [WriteBack.merged, fits, Bool.false_eq_true, if_false]
    rfl

end DogecoinCore.WriteBack
