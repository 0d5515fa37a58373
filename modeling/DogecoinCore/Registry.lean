import Mathlib.Data.List.AList

/-! How many entries of a finite map have a property, and how that number changes when one entry
is added, replaced or removed. -/
namespace DogecoinCore
open List AList
variable {α β : Type} [DecidableEq α] {m : AList fun _ : α => β} (p : β → Bool)

def population (m : AList fun _ : α => β) : ℕ := m.entries.countP fun e => p e.2

private theorem entries_perm_erase (found : m.lookup a = some b) :
    m.entries.Perm (⟨a, b⟩ :: (m.erase a).entries) := by
  have known : a ∈ m.entries.keys := mem_keys.1 (lookup_isSome.1 (by simp [found]))
  obtain ⟨value, before, after, -, split, rest⟩ := exists_of_kerase known
  have same : value = b := by
    have mem : (⟨a, value⟩ : Sigma fun _ : α => β) ∈ m.entries := by simp [split]
    have lookup : m.lookup a = some value := mem_dlookup m.nodupKeys mem
    exact Option.mem_unique lookup found
  subst same
  rw [show (m.erase a).entries = before ++ after from rest, split]
  exact perm_middle

theorem population_erase (found : m.lookup a = some b) :
    population p (m.erase a) + (p b).toNat = population p m := by
  rw [population, population, (entries_perm_erase found).countP_eq, countP_cons]
  cases p b <;> rfl

theorem population_insert_new (missing : m.lookup a = none) :
    population p (m.insert a b) = population p m + (p b).toNat := by
  rw [population, population, entries_insert_of_notMem (lookup_eq_none.1 missing), countP_cons]
  cases p b <;> rfl

theorem population_insert (b' : β) (found : m.lookup a = some b) :
    population p (m.insert a b') + (p b).toNat = population p m + (p b').toNat := by
  have entries : (m.insert a b').entries = ⟨a, b'⟩ :: (m.erase a).entries := entries_insert
  have erased := population_erase p found
  rw [population, entries, countP_cons, ← erased, population]
  cases p b <;> cases p b' <;> simp

end DogecoinCore
