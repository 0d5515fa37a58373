import Mathlib.Algebra.Order.Ring.Nat
import Mathlib.Data.List.Forall2

/-! Reading values back from a stream of bytes. A reader takes what it needs off the front
and fails at the end of the stream. `Reads` says that some bytes are one value's encoding,
whatever follows them; encodings that are read one after the other are written one after
the other. -/
namespace DogecoinCore
open List

/-- A computation that consumes bytes; `none` is an exception. -/
abbrev Reader (α : Type) := StateT (List UInt8) Option α

namespace Reader
variable {α β : Type}

def byte : Reader UInt8
  | [] => none
  | b :: rest => some (b, rest)

def bytes (n : ℕ) : Reader (List UInt8) := fun s =>
  if n ≤ s.length then some (s.take n, s.drop n) else none

def times (r : Reader α) : ℕ → Reader (List α)
  | 0 => pure []
  | n + 1 => do
    let a ← r
    let rest ← r.times n
    pure (a :: rest)

/-- `r` makes `a` of these bytes and leaves what follows them. -/
def Reads (r : Reader α) (written : List UInt8) (a : α) : Prop :=
  ∀ rest, r (written ++ rest) = some (a, rest)

variable {r : Reader α} {f : α → Reader β} {a a' : α} {b : β}

theorem bind_eq_some :
    (r >>= f) s = some (b, s') ↔ ∃ a s₁, r s = some (a, s₁) ∧ f a s₁ = some (b, s') := by
  change (r s).bind (fun x => f x.1 x.2) = _ ↔ _
  rw [Option.bind_eq_some_iff]
  exact ⟨fun ⟨⟨a, s₁⟩, both⟩ => ⟨a, s₁, both⟩, fun ⟨a, s₁, both⟩ => ⟨(a, s₁), both⟩⟩

theorem Reads.pure (a : α) : Reads (pure a) [] a := fun _ => rfl

theorem Reads.bind (first : Reads r w a) (second : Reads (f a) w' b) :
    Reads (r >>= f) (w ++ w') b := by
  intro rest
  change (r (w ++ w' ++ rest)).bind (fun x => f x.1 x.2) = _
  rw [append_assoc, first]
  exact second rest

theorem Reads.bind_pure (first : Reads r w a) (b : β) (ends : f a = Pure.pure b) :
    Reads (r >>= f) w b := by
  rw [← append_nil w]
  refine first.bind ?_
  rw [ends]
  exact .pure b

theorem Reads.byte (x : UInt8) : Reads byte [x] x := fun _ => rfl

theorem Reads.bytes (w : List UInt8) : Reads (bytes w.length) w w := by
  intro _
  simp [Reader.bytes]

theorem Reads.times (each : List.Forall₂ (fun a a' => Reads r (write a) a') as as') :
    Reads (r.times as.length) (as.flatMap write) as' := by
  induction each with
  | nil => exact .pure []
  | cons head _ ih => exact head.bind (ih.bind_pure _ rfl)

theorem Reads.split (first : Reads r w a) (second : Reads r w' a')
    (same : w ++ rest = w' ++ rest') : a = a' ∧ rest = rest' := by
  have one := first rest
  rw [same, second rest'] at one
  cases one
  exact ⟨rfl, rfl⟩

/-- The bytes of an item say what `f` of it is, and where the item ends. -/
def Delimits (P : α → Prop) (write : α → List UInt8) (f : α → β) : Prop :=
  ∀ a b rest rest', P a → P b → write a ++ rest = write b ++ rest' → f a = f b ∧ rest = rest'

variable {P : α → Prop} {write : α → List UInt8} {f : α → β}

theorem Delimits.of_reads {r : Reader β} (each : ∀ a, P a → Reads r (write a) (f a)) :
    Delimits P write f :=
  fun a b _ _ holdsA holdsB same => (each a holdsA).split (each b holdsB) same

theorem Delimits.terminated {r : Reader (Option β)}
    (each : ∀ a, P a → Reads r (write a) (some (f a))) (ends : Reads r mark none) :
    Delimits (fun as => ∀ a ∈ as, P a) (fun as => as.flatMap write ++ mark) (map f) := by
  intro as bs _ _ holdsA holdsB same
  dsimp only at same
  induction as generalizing bs with
  | nil =>
    cases bs with
    | nil => exact ⟨rfl, append_cancel_left same⟩
    | cons b bs =>
      rw [flatMap_nil, nil_append, flatMap_cons, append_assoc, append_assoc] at same
      cases (ends.split (each b (holdsB b mem_cons_self)) same).1
  | cons a as ih =>
    have first := each a (holdsA a mem_cons_self)
    rw [flatMap_cons, append_assoc, append_assoc] at same
    cases bs with
    | nil =>
      rw [flatMap_nil, nil_append] at same
      cases (first.split ends same).1
    | cons b bs =>
      rw [flatMap_cons, append_assoc, append_assoc] at same
      obtain ⟨head, tail⟩ := first.split (each b (holdsB b mem_cons_self)) same
      rw [← append_assoc, ← append_assoc] at tail
      obtain ⟨rest₁, rest₂⟩ := ih bs (fun x mem => holdsA x (mem_cons_of_mem a mem))
        (fun x mem => holdsB x (mem_cons_of_mem b mem)) tail
      exact ⟨by rw [map_cons, map_cons, rest₁, Option.some.inj head], rest₂⟩

theorem Delimits.append {Q : γ → Prop} {write' : γ → List UInt8} {g : α → γ}
    {h : γ → δ} (first : Delimits P write f) (second : Delimits Q write' h)
    (holds : ∀ a, P a → Q (g a)) :
    Delimits P (fun a => write a ++ write' (g a)) (fun a => (f a, h (g a))) := by
  intro a b _ _ holdsA holdsB same
  rw [append_assoc, append_assoc] at same
  obtain ⟨head, tail⟩ := first a b _ _ holdsA holdsB same
  obtain ⟨middle, last⟩ := second (g a) (g b) _ _ (holds a holdsA) (holds b holdsB) tail
  exact ⟨Prod.ext head middle, last⟩

theorem Delimits.flatMap (each : Delimits P write f) (nonempty : ∀ a, write a ≠ []) {as bs : List α}
    (holdsA : ∀ a ∈ as, P a) (holdsB : ∀ b ∈ bs, P b)
    (same : as.flatMap write = bs.flatMap write) : as.map f = bs.map f := by
  induction as generalizing bs with
  | nil =>
    cases bs with
    | nil => rfl
    | cons b bs => exact absurd (append_eq_nil_iff.1 same.symm).1 (nonempty b)
  | cons a as ih =>
    cases bs with
    | nil =>
      rw [flatMap_nil, flatMap_cons] at same
      exact absurd (append_eq_nil_iff.1 same).1 (nonempty a)
    | cons b bs =>
      obtain ⟨head, tail⟩ := each a b _ _ (holdsA a mem_cons_self) (holdsB b mem_cons_self) same
      rw [map_cons, map_cons, head, ih (fun x mem => holdsA x (mem_cons_of_mem a mem))
        (fun x mem => holdsB x (mem_cons_of_mem b mem)) tail]

end Reader

/-- The `k` lowest bytes of a number, the lowest first. -/
def littleEndian : (k n : ℕ) → List UInt8
  | 0, _ => []
  | k + 1, n => UInt8.ofNat n :: littleEndian k (n / 256)

/-- The number that was written in `k` bytes. -/
def readLittleEndian : (k : ℕ) → Reader ℕ
  | 0 => pure 0
  | k + 1 => do
    let low ← Reader.byte
    let high ← readLittleEndian k
    pure (low.toNat + 256 * high)

@[simp] theorem length_littleEndian : (littleEndian k n).length = k := by
  induction k generalizing n with
  | zero => rfl
  | succ k ih => rw [littleEndian, length_cons, ih]

theorem reads_littleEndian (k n : ℕ) (fits : n < 256 ^ k) :
    Reader.Reads (readLittleEndian k) (littleEndian k n) n := by
  induction k generalizing n with
  | zero =>
    obtain rfl : n = 0 := by simpa using fits
    exact .pure 0
  | succ k ih =>
    have high : n / 256 < 256 ^ k := by
      rw [Nat.div_lt_iff_lt_mul (by decide)]
      rwa [Nat.pow_succ] at fits
    refine Reader.Reads.bind (.byte _) ((ih (n / 256) high).bind_pure n ?_)
    congr 1
    rw [UInt8.toNat_ofNat']
    omega

end DogecoinCore
