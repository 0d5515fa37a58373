import Mathlib.Tactic.Common

/-! Files by path, and sequences of file-system calls that a crash may cut short. A call is
durable once it returns, and a rename happens whole or not at all. -/
namespace DogecoinCore
open List Function

/-- `isspace` in the C locale. -/
def isSpace (c : Char) : Bool := c = ' ' || ('\t' ≤ c && c ≤ '\r')

abbrev Files (P A : Type) := P → Option A

/-- A call that changes files. A rename replaces its target, and does nothing without its
source. -/
inductive FsCall (P A : Type) where
  | write (path : P) (content : Option A → A)
  | remove (path : P)
  | rename (source target : P)

namespace FsCall
variable {P A : Type} [DecidableEq P] {files : Files P A} {path tmp : P}
  {new : A}

def apply (files : Files P A) : FsCall P A → Files P A
  | write path content => Function.update files path (some (content (files path)))
  | remove path => Function.update files path none
  | rename source target =>
    match files source with
    | none => files
    | some content => Function.update (Function.update files target (some content)) source none

/-- The files after the calls. A crash after `k` of them runs `calls.take k`. -/
def run (calls : List (FsCall P A)) (files : Files P A) : Files P A := calls.foldl apply files

@[simp] theorem run_nil : run [] files = files := rfl

@[simp] theorem run_cons : run (call :: calls) files = run calls (call.apply files) := rfl

theorem run_append : run (calls ++ more) files = run more (run calls files) := foldl_append

/-- The calls only write to `tmp`. -/
def WriteOnly (tmp : P) (calls : List (FsCall P A)) : Prop :=
  ∀ call ∈ calls, ∃ content, call = write tmp content

theorem run_writeOnly (only : WriteOnly tmp calls) (ne : path ≠ tmp) (files : Files P A) :
    run calls files path = files path := by
  induction calls generalizing files with
  | nil => rfl
  | cons call _ ih =>
    obtain ⟨_, rfl⟩ := only call mem_cons_self
    rw [run_cons, ih fun call mem => only call (mem_cons_of_mem _ mem)]
    exact update_of_ne ne _ _

/-- Delete what is at `path`, then rename `tmp` to it. -/
def replace (files : Files P A) (tmp path : P) : List (FsCall P A) :=
  (if (files path).isSome then [remove path] else []) ++ [rename tmp path]

omit [DecidableEq P] in
theorem length_replace :
    (replace files tmp path).length = if (files path).isSome then 2 else 1 := by
  unfold replace
  split <;> rfl

theorem apply_rename (ne : path ≠ tmp) (full : files tmp = some new) :
    (rename tmp path).apply files path = some new := by
  simp only [apply, full]
  rw [update_of_ne ne, update_self]

theorem apply_rename_of_ne (ne : other ≠ tmp) (ne' : other ≠ path) :
    (rename tmp path).apply files other = files other := by
  cases full : files tmp with
  | none => simp only [apply, full]
  | some _ =>
    simp only [apply, full]
    rw [update_of_ne ne, update_of_ne ne']

theorem apply_rename_source (full : (files tmp).isSome) :
    (rename tmp path).apply files tmp = none := by
  obtain ⟨_, full⟩ := Option.isSome_iff_exists.1 full
  simp only [apply, full]
  exact update_self _ _ _

private theorem run_take_replace (ne : path ≠ tmp) (full : files tmp = some new) (k : ℕ) :
    run ((replace files tmp path).take k) files path = if k = 0 then files path
      else if k + 1 = (replace files tmp path).length then none
      else some new := by
  have kept : (remove path).apply files tmp = some new := by rw [apply, update_of_ne ne.symm, full]
  unfold replace
  cases old : files path with
  | none =>
    cases k with
    | zero => exact old
    | succ k => simpa using apply_rename ne full
  | some _ =>
    cases k with
    | zero => exact old
    | succ k =>
      cases k with
      | zero => simp [apply]
      | succ k => simpa using apply_rename ne kept

/-- After a crash that let `k` of the calls through, `path` holds what it held before, or `new`. -/
def OldOrNew (calls : List (FsCall P A)) (k : ℕ) (files : Files P A) (path : P) (new : A) : Prop :=
  run (calls.take k) files path = files path ∨ run (calls.take k) files path = some new

theorem oldOrNew_write_replace_iff (only : WriteOnly tmp writes)
    (ne : path ≠ tmp) (full : run writes files tmp = some new) (k : ℕ) :
    OldOrNew (writes ++ replace (run writes files) tmp path) k files path new ↔
      files path = none ∨ k + 1 ≠ (writes ++ replace (run writes files) tmp path).length := by
  unfold OldOrNew
  have same := run_writeOnly only ne files
  rw [length_append, length_replace, same]
  by_cases early : k ≤ writes.length
  · have before : run (writes.take k) files path = files path :=
      run_writeOnly (fun call mem => only call (mem_of_mem_take mem)) ne files
    rw [take_append_of_le_length early, before]
    refine ⟨fun _ => ?_, fun _ => .inl rfl⟩
    cases files path with
    | none => exact .inl rfl
    | some old =>
      refine .inr ?_
      simp only [Option.isSome_some, if_true]
      omega
  obtain ⟨j, rfl⟩ : ∃ j, k = writes.length + (j + 1) := ⟨k - writes.length - 1, by omega⟩
  rw [take_length_add_append, run_append, run_take_replace ne full, length_replace, same,
    if_neg (by omega)]
  cases files path with
  | none => simp
  | some old =>
    simp only [Option.isSome_some, if_true, reduceCtorEq, false_or]
    by_cases between : j + 1 + 1 = 2
    · simp only [between, if_true, reduceCtorEq, or_self, false_iff]
      omega
    · simp only [between, if_false, or_true, true_iff]
      omega

end FsCall
end DogecoinCore
