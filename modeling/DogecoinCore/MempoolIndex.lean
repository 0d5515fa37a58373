import DogecoinCore.MempoolLinks

/-! The vector `vTxHashes` that compact blocks are matched against mirrors the pool as
long as `clear` is only called on an empty pool: it is not among the containers
`_clear` empties. -/
namespace DogecoinCore
open List Function Option CTxMemPoolEntry

namespace CTxMemPool
open CTxMemPool
variable {p p' q : CTxMemPool} {it x : UInt256} {stage its : List UInt256} {e : CTxMemPoolEntry}
  {setAncestors : List UInt256} {policy : TrimPolicy}

/-- `vTxHashes` has one element for each entry, with its witness hash, where the entry says. -/
structure Mirrored (p : CTxMemPool) : Prop where
  each : (p.vTxHashes.map Prod.snd).Perm p.mapTx
  hashes : ∀ s ∈ p.vTxHashes, s.1 = (p.entry s.2).tx.witnessHash
  index : ∀ t ∈ p.mapTx, (p.vTxHashes[p.vTxHashesIdx t]?).map Prod.snd = some t

structure Indexed (p : CTxMemPool) : Prop where
  element : ∀ t ∈ p.mapTx, p.vTxHashes[p.vTxHashesIdx t]? = some ((p.entry t).tx.witnessHash, t)
  back : ∀ (i : ℕ) s, p.vTxHashes[i]? = some s → s.2 ∈ p.mapTx ∧ p.vTxHashesIdx s.2 = i

theorem Indexed.mirrored (indexed : p.Indexed) (nodup : p.mapTx.Nodup) : p.Mirrored where
  each := by
    refine (perm_ext_iff_of_nodup ?_ nodup).2 fun t => ⟨fun mem => ?_, fun live => ?_⟩
    · refine nodup_iff_injective_getElem.2 fun i j same => ?_
      have at_i := (indexed.back i _ (getElem?_eq_getElem (by simpa using i.2))).2
      have at_j := (indexed.back j _ (getElem?_eq_getElem (by simpa using j.2))).2
      simp only [getElem_map] at same
      rw [same] at at_i
      exact Fin.ext (at_i.symm.trans at_j)
    · obtain ⟨s, element, rfl⟩ := mem_map.1 mem
      obtain ⟨i, found⟩ := mem_iff_getElem?.mp element
      exact (indexed.back i s found).1
    · exact mem_map.2 ⟨_, mem_of_getElem? (indexed.element t live), rfl⟩
  hashes s mem := by
    obtain ⟨i, found⟩ := mem_iff_getElem?.mp mem
    obtain ⟨live, index⟩ := indexed.back i s found
    have element := indexed.element s.2 live
    rw [index, found] at element
    exact congrArg Prod.fst (some.inj element)
  index t live := by
    rw [indexed.element t live]
    rfl

theorem Indexed.of_frame (indexed : p.Indexed) (frame : Frame p p') : p'.Indexed where
  element t live := by
    rw [frame.vTxHashes, frame.vTxHashesIdx, tx_of_fixed (frame.fixed t)]
    exact indexed.element t (frame.mapTx ▸ live)
  back := by
    rw [frame.vTxHashes, frame.vTxHashesIdx, frame.mapTx]
    exact indexed.back

theorem Indexed.added (indexed : p.Indexed) (fresh : e.tx.hash ∉ p.mapTx)
    (added : Added e setAncestors p p') : p'.Indexed where
  element t live := by
    rw [added.vTxHashes, added.vTxHashesIdx]
    by_cases same : t = e.tx.hash
    · rw [same, update_self, tx_of_fixed added.new, withDelta_tx]
      simp
    rw [added.mapTx] at live
    have element := indexed.element t ((mem_cons.1 live).resolve_left same)
    rw [update_of_ne same, tx_of_fixed (added.fixed t same),
      getElem?_append_left (List.getElem?_eq_some_iff.1 element).1]
    exact element
  back i s found := by
    rw [added.vTxHashes] at found
    rw [added.vTxHashesIdx, added.mapTx]
    by_cases old : i < p.vTxHashes.length
    · rw [getElem?_append_left old] at found
      obtain ⟨live, index⟩ := indexed.back i s found
      have other : s.2 ≠ e.tx.hash := fun same => fresh (same ▸ live)
      rw [update_of_ne other]
      exact ⟨mem_cons_of_mem _ live, index⟩
    rw [getElem?_append_right (by omega)] at found
    obtain ⟨bound, here⟩ := List.getElem?_eq_some_iff.1 found
    simp only [length_singleton] at bound
    simp only [getElem_singleton] at here
    rw [← here, update_self]
    exact ⟨mem_cons_self, by omega⟩

theorem removeUnchecked_several (several : 1 < p.vTxHashes.length)
    (last : p.vTxHashes[p.vTxHashes.length - 1]? = some back) :
    (p.removeUnchecked it).vTxHashes = (p.vTxHashes.set (p.vTxHashesIdx it) back).dropLast ∧
      (p.removeUnchecked it).vTxHashesIdx
        = Function.update p.vTxHashesIdx back.2 (p.vTxHashesIdx it) := by
  unfold removeUnchecked
  rw [getLast?_eq_getElem?, last]
  simp [several]

theorem removeUnchecked_single (few : ¬ 1 < p.vTxHashes.length) :
    (p.removeUnchecked it).vTxHashes = [] := by
  unfold removeUnchecked
  cases last : p.vTxHashes.getLast? with
  | none => exact getLast?_eq_none_iff.1 last
  | some _ => simp only [gt_iff_lt, few, if_false]

theorem mem_removeUnchecked : x ∈ (p.removeUnchecked it).mapTx ↔ x ∈ p.mapTx ∧ x ≠ it := by
  rw [(removeUnchecked_spec it p).mapTx, mem_filter]
  simp

theorem Indexed.removeUnchecked (indexed : p.Indexed) (live : it ∈ p.mapTx) :
    (p.removeUnchecked it).Indexed := by
  have own := indexed.element it live
  have bound := (List.getElem?_eq_some_iff.1 own).1
  have entry := (removeUnchecked_spec it p).entry
  -- two entries never share a position
  have apart : ∀ t ∈ p.mapTx, p.vTxHashesIdx t = p.vTxHashesIdx it → t = it := by
    intro t there same
    have element := indexed.element t there
    rw [same, own] at element
    exact (congrArg Prod.snd (some.inj element)).symm
  by_cases several : 1 < p.vTxHashes.length
  · obtain ⟨back, last⟩ : ∃ back, p.vTxHashes[p.vTxHashes.length - 1]? = some back :=
      ⟨_, getElem?_eq_getElem (by omega)⟩
    obtain ⟨back_live, back_index⟩ := indexed.back _ back last
    obtain ⟨vector, index⟩ := removeUnchecked_several several last
    have get : ∀ j < p.vTxHashes.length - 1, (p.removeUnchecked it).vTxHashes[j]?
        = if p.vTxHashesIdx it = j then some back else p.vTxHashes[j]? := by
      intro j lt
      rw [vector, getElem?_dropLast, if_pos (by simpa using lt), getElem?_set]
      simp [show p.vTxHashesIdx it < p.vTxHashes.length from bound]
    refine ⟨fun t there => ?_, fun i s found => ?_⟩
    · obtain ⟨there, other⟩ := mem_removeUnchecked.1 there
      have element := indexed.element t there
      have lt := (List.getElem?_eq_some_iff.1 element).1
      rw [index, entry]
      by_cases moved : t = back.2
      · have before : p.vTxHashesIdx it ≠ p.vTxHashes.length - 1 := fun same =>
          other (moved.trans (apart _ back_live (back_index.trans same.symm)))
        rw [← moved] at back_index
        rw [moved, update_self, get _ (by omega), if_pos rfl, ← last, ← moved,
          ← back_index, element]
      have before : p.vTxHashesIdx t ≠ p.vTxHashes.length - 1 := by
        intro same
        rw [same, last] at element
        exact moved (congrArg Prod.snd (some.inj element)).symm
      rw [update_of_ne moved, get _ (by omega), if_neg fun same => other (apart t there same.symm)]
      exact element
    · have lt : i < p.vTxHashes.length - 1 := by
        have := (List.getElem?_eq_some_iff.1 found).1
        rw [vector] at this
        simpa using this
      rw [get i lt] at found
      rw [index]
      by_cases here : p.vTxHashesIdx it = i
      · rw [if_pos here] at found
        cases found
        refine ⟨mem_removeUnchecked.2 ⟨back_live, fun same => ?_⟩, by
          rw [update_self, here]⟩
        rw [same] at back_index
        omega
      rw [if_neg here] at found
      obtain ⟨there, at_i⟩ := indexed.back i s found
      have moved : s.2 ≠ back.2 := fun same => by
        rw [same] at at_i
        omega
      refine ⟨mem_removeUnchecked.2 ⟨there, fun same => here (same ▸ at_i)⟩, ?_⟩
      rw [update_of_ne moved, at_i]
  · have only : ∀ t ∈ p.mapTx, t = it := by
      intro t there
      have lt := (List.getElem?_eq_some_iff.1 (indexed.element t there)).1
      exact apart t there (by omega)
    refine ⟨fun t there => ?_, fun i s found => ?_⟩
    · obtain ⟨there, other⟩ := mem_removeUnchecked.1 there
      exact absurd (only t there) other
    · rw [removeUnchecked_single several] at found
      cases found

theorem Indexed.foldl_removeUnchecked (indexed : p.Indexed) (nodup : stage.Nodup)
    (live : ∀ it ∈ stage, it ∈ p.mapTx) : (stage.foldl CTxMemPool.removeUnchecked p).Indexed := by
  induction stage generalizing p with
  | nil => exact indexed
  | cons it stage ih =>
    obtain ⟨fresh, nodup⟩ := nodup_cons.1 nodup
    refine ih (indexed.removeUnchecked (live it mem_cons_self)) nodup fun x later => ?_
    exact mem_removeUnchecked.2
      ⟨live x (mem_cons_of_mem it later), fun same => fresh (same ▸ later)⟩

structure Consistent (p : CTxMemPool) : Prop where
  wired : p.Wired
  indexed : p.Indexed

theorem Consistent.mirrored (c : p.Consistent) : p.Mirrored := c.indexed.mirrored c.wired.nodup

theorem Consistent.empty : empty.Consistent where
  wired := by refine ⟨⟨?_, ?_, ?_⟩, ?_, ?_, ?_, ?_, ?_⟩ <;> simp [CTxMemPool.empty]
  indexed := by constructor <;> simp [CTxMemPool.empty]

section
variable (c : p.Consistent)
include c

theorem Consistent.addUnchecked (fresh : e.tx.hash ∉ p.mapTx)
    (setAncestors : List UInt256) : (p.addUnchecked e setAncestors).Consistent where
  wired := c.wired.added fresh (addUnchecked_added fresh setAncestors)
  indexed := c.indexed.added fresh (addUnchecked_added fresh setAncestors)

theorem Consistent.removeStaged (nodup : stage.Nodup)
    (live : ∀ it ∈ stage, it ∈ p.mapTx) (updateDescendants : Bool) :
    ∃ p', p.removeStaged stage updateDescendants = some p' ∧ p'.Consistent := by
  obtain ⟨_, frame, ran, removed⟩ := removeStaged_spec c.wired live updateDescendants
  refine ⟨_, ran, c.wired.removed removed, ?_⟩
  exact (c.indexed.of_frame frame).foldl_removeUnchecked nodup fun it mem =>
    frame.mapTx ▸ live it mem

theorem Consistent.removeWithDescendants (live : ∀ it ∈ its, it ∈ p.mapTx) :
    ∃ p', p.removeWithDescendants its = some p' ∧ p'.Consistent ∧
      (∀ x ∈ p'.mapTx, x ∈ p.mapTx) ∧ ∀ it ∈ its, it ∉ p'.mapTx := by
  obtain ⟨_, _, frame, nodup, -, members, inside, ran, removed⟩ :=
    removeWithDescendants_spec c.wired live
  refine ⟨_, ran, ⟨c.wired.removed removed, ?_⟩, fun x there => (removed.mem.1 there).1,
    fun it mem there => (removed.mem.1 there).2 ((members it).2 ⟨it, mem, .refl⟩)⟩
  exact (c.indexed.of_frame frame).foldl_removeUnchecked nodup fun it mem =>
    frame.mapTx ▸ inside it mem

theorem Consistent.removeRecursive (tx : CTransaction) :
    ∃ p', p.removeRecursive tx = some p' ∧ p'.Consistent := by
  obtain ⟨p', ran, c', -⟩ := c.removeWithDescendants (rootsOf_live c.wired tx)
  exact ⟨p', ran, c'⟩

theorem Consistent.clearPrioritisation (hash : UInt256) :
    (p.clearPrioritisation hash).Consistent where
  wired := ⟨⟨c.wired.key, c.wired.parents_live, c.wired.parents_nodup⟩, c.wired.nodup,
    c.wired.children_live, c.wired.linked, c.wired.children_nodup, c.wired.next_live⟩
  indexed := ⟨c.indexed.element, c.indexed.back⟩

theorem Consistent.removeConflict (hash : UInt256) (i : CTxIn) :
    ∃ p', p.removeConflict hash i = some p' ∧ p'.Consistent := by
  unfold CTxMemPool.removeConflict
  cases p.mapNextTx.lookup i.prevout with
  | none => exact ⟨p, rfl, c⟩
  | some conflict =>
    by_cases other : conflict ≠ hash
    · simp only [other, if_true, ne_eq, not_false_eq_true]
      exact (c.clearPrioritisation conflict).removeRecursive _
    · simp only [other, if_false]
      exact ⟨p, rfl, c⟩

end

theorem Consistent.foldlM {f : CTxMemPool → α → Option CTxMemPool}
    (step : ∀ p a, p.Consistent → ∃ p', f p a = some p' ∧ p'.Consistent) (c : p.Consistent)
    (l : List α) : ∃ p', l.foldlM f p = some p' ∧ p'.Consistent := by
  induction l generalizing p with
  | nil => exact ⟨p, rfl, c⟩
  | cons a l ih =>
    obtain ⟨_, ran, c'⟩ := step p a c
    rw [foldlM_cons, ran]
    exact ih c'

theorem Consistent.removeForTransaction (c : p.Consistent) (tx : CTransaction) :
    ∃ p', p.removeForTransaction tx = some p' ∧ p'.Consistent := by
  obtain ⟨q, confirmed, c⟩ : ∃ q, p.removeConfirmed tx = some q ∧ q.Consistent := by
    unfold removeConfirmed
    by_cases present : tx.hash ∈ p.mapTx
    · rw [if_pos present]
      exact c.removeStaged (nodup_singleton _) (by simpa using present) true
    · rw [if_neg present]
      exact ⟨p, rfl, c⟩
  obtain ⟨q', conflicts, c⟩ : ∃ q', q.removeConflicts tx = some q' ∧ q'.Consistent :=
    c.foldlM (fun p i c => c.removeConflict tx.hash i) tx.vin
  refine ⟨_, ?_, c.clearPrioritisation tx.hash⟩
  rw [CTxMemPool.removeForTransaction, confirmed, bind_eq_bind, bind_some, conflicts]
  rfl

theorem Consistent.trimToSize (c : p.Consistent) (policy : TrimPolicy) (sizelimit : ℕ) :
    ∃ p', p.trimToSize policy sizelimit = some p' ∧ p'.Consistent := by
  have turns : ∀ fuel p, p.Consistent → p.mapTx.length < fuel →
      ∃ p', iterate (trimTurn policy sizelimit) fuel p = some (some p') ∧ p'.Consistent := by
    intro fuel
    induction fuel with
    | zero => exact fun p _ lt => absurd lt (Nat.not_lt_zero _)
    | succ fuel ih =>
      intro p c _
      by_cases large : p.mapTx ≠ [] ∧ policy.dynamicMemoryUsage p > sizelimit
      · have live : ∀ it ∈ [policy.worst p], it ∈ p.mapTx := by
          simpa using policy.worst_mem p large.1
        obtain ⟨p', ran, c', fewer, gone⟩ := c.removeWithDescendants live
        have again : trimTurn policy sizelimit p = .again p' := by rw [trimTurn, if_pos large, ran]
        rw [iterate.succ_again again]
        refine ih p' c' ?_
        have subset : p'.mapTx ⊆ p.mapTx.erase (policy.worst p) := fun x there =>
          (c.wired.nodup.mem_erase_iff).2
            ⟨fun same => gone _ (mem_singleton_self _) (same ▸ there), fewer x there⟩
        have shorter := (c'.wired.nodup.subperm subset).length_le
        have := length_erase_of_mem (policy.worst_mem p large.1)
        have := length_pos_of_mem (policy.worst_mem p large.1)
        omega
      · exact ⟨p, iterate.succ_leave (by rw [trimTurn, if_neg large]), c⟩
  obtain ⟨p', ran, c'⟩ := turns (p.mapTx.length + 1) p c (Nat.lt_succ_self _)
  exact ⟨p', by rw [CTxMemPool.trimToSize, ran]; rfl, c'⟩

theorem Consistent.clear (c : p.Consistent) (nothing : p.mapTx = []) : p.clear.Consistent where
  wired := by refine ⟨⟨?_, ?_, ?_⟩, ?_, ?_, ?_, ?_, ?_⟩ <;> simp [CTxMemPool.clear]
  indexed := by
    refine ⟨by simp [CTxMemPool.clear], fun i s found => ?_⟩
    have there := (c.indexed.back i s found).1
    rw [nothing] at there
    cases there

inductive PoolEvent where
  | addUnchecked (e : CTxMemPoolEntry) (setAncestors : List UInt256)
  | removeStaged (stage : List UInt256) (updateDescendants : Bool)
  | removeRecursive (tx : CTransaction)
  | removeForReorg (txToRemove : List UInt256)
  | removeForBlock (vtx : List CTransaction)
  | trimToSize (policy : TrimPolicy) (sizelimit : ℕ)
  | expire (time : Int64)
  | clear

namespace PoolEvent
def apply : PoolEvent → CTxMemPool → Option CTxMemPool
  | addUnchecked e setAncestors, p => some (p.addUnchecked e setAncestors)
  | removeStaged stage updateDescendants, p => p.removeStaged stage updateDescendants
  | removeRecursive tx, p => p.removeRecursive tx
  | removeForReorg txToRemove, p => p.removeWithDescendants txToRemove
  | removeForBlock vtx, p => p.removeForBlock vtx
  | trimToSize policy sizelimit, p => p.trimToSize policy sizelimit
  | expire time, p => p.expire time
  | clear, p => some p.clear

/-- What the callers see to: a new transaction is not in the pool, iterators point into it. -/
def Called : PoolEvent → CTxMemPool → Prop
  | addUnchecked e _, p => e.tx.hash ∉ p.mapTx
  | removeStaged stage _, p => stage.Nodup ∧ ∀ it ∈ stage, it ∈ p.mapTx
  | removeForReorg txToRemove, p => ∀ it ∈ txToRemove, it ∈ p.mapTx
  | _, _ => True

/-- `clear` finds the pool empty. -/
def ClearsEmpty : PoolEvent → CTxMemPool → Prop
  | clear, p => p.mapTx = []
  | _, _ => True

theorem apply_consistent (c : p.Consistent) (event : PoolEvent) (called : event.Called p)
    (clears : event.ClearsEmpty p) : ∃ p', event.apply p = some p' ∧ p'.Consistent := by
  cases event with
  | addUnchecked _ setAncestors => exact ⟨_, rfl, c.addUnchecked called setAncestors⟩
  | removeStaged _ updateDescendants => exact c.removeStaged called.1 called.2 updateDescendants
  | removeRecursive tx => exact c.removeRecursive tx
  | removeForReorg _ =>
    obtain ⟨p', ran, c', -⟩ := c.removeWithDescendants called
    exact ⟨p', ran, c'⟩
  | removeForBlock vtx => exact c.foldlM (fun p tx c => c.removeForTransaction tx) vtx
  | trimToSize policy sizelimit => exact c.trimToSize policy sizelimit
  | expire time =>
    have live : ∀ it ∈ p.mapTx.filter fun it => (p.entry it).nTime < time, it ∈ p.mapTx :=
      fun it mem => (mem_filter.1 mem).1
    obtain ⟨p', ran, c', -⟩ := c.removeWithDescendants live
    exact ⟨p', ran, c'⟩
  | clear => exact ⟨_, rfl, c.clear clears⟩

/-- A run in which every step is called as its callers do and finds the pool empty if it clears
it. -/
inductive Run : List PoolEvent → CTxMemPool → Prop
  | start : Run [] empty
  | step {events : List PoolEvent} {p p' : CTxMemPool} (event : PoolEvent) (before : Run events p)
      (called : event.Called p) (clears : event.ClearsEmpty p) (ran : event.apply p = some p') :
      Run (events ++ [event]) p'

theorem Run.consistent (run : Run events p) : p.Consistent := by
  induction run with
  | start => exact .empty
  | step event _ called clears ran c =>
    obtain ⟨_, ran', c'⟩ := apply_consistent c event called clears
    rw [ran] at ran'
    cases ran'
    exact c'

/-- After a run of such steps the vector mirrors the pool, and it does so after one more step
exactly when that step does not clear a pool with entries. -/
theorem vTxHashes_mirrors {events : List PoolEvent} (run : Run events p) :
    p.Mirrored ∧ ∀ event : PoolEvent, event.Called p →
      ((∃ p', event.apply p = some p' ∧ p'.Mirrored) ↔ event.ClearsEmpty p) := by
  refine ⟨run.consistent.mirrored, fun event called => ⟨fun after => ?_, fun clears => ?_⟩⟩
  · cases event with
    | clear =>
      obtain ⟨p', ran, mirrored⟩ := after
      cases ran
      -- `clear` leaves the elements of the entries it dropped
      have kept := mirrored.each.length_eq.symm.trans run.consistent.mirrored.each.length_eq
      exact eq_nil_of_length_eq_zero kept.symm
    | _ => trivial
  · obtain ⟨p', ran, c⟩ := apply_consistent run.consistent event called clears
    exact ⟨p', ran, c.mirrored⟩

end PoolEvent

def sampleEntry : CTxMemPoolEntry := .create (.simple ⟨7, 0⟩ 5) 1000 0 false 4 60

def laterEntry : CTxMemPoolEntry := .create (.simple ⟨8, 0⟩ 6) 1000 9 false 4 60

/-- Accepting two transactions and expiring the first keeps the vector in step. -/
theorem vTxHashes_mirrors_expire :
    ((empty.addUnchecked sampleEntry []).addUnchecked laterEntry []).Mirrored ∧
      ∃ p', ((empty.addUnchecked sampleEntry []).addUnchecked laterEntry []).expire 1 = some p' ∧
        p'.Mirrored := by
  have new : laterEntry.tx.hash ∉ (empty.addUnchecked sampleEntry []).mapTx := by decide
  have run := PoolEvent.Run.step (.addUnchecked laterEntry []) (.step (.addUnchecked sampleEntry [])
    .start not_mem_nil trivial rfl) new trivial rfl
  obtain ⟨mirrored, next⟩ := PoolEvent.vTxHashes_mirrors run
  exact ⟨mirrored, (next (.expire 1) trivial).2 trivial⟩

/-- After `clear` the vector still refers to the entry that was in the pool. -/
theorem vTxHashes_stale : (empty.addUnchecked sampleEntry []).clear.mapTx = [] ∧
      (empty.addUnchecked sampleEntry []).clear.vTxHashes = [(5, 5)] ∧
      ¬ (empty.addUnchecked sampleEntry []).clear.Mirrored := by
  have stale : (empty.addUnchecked sampleEntry []).clear.vTxHashes = [(5, 5)] :=
    (addUnchecked_added not_mem_nil []).vTxHashes
  refine ⟨rfl, stale, fun mirrored => ?_⟩
  have count := mirrored.each.length_eq
  cases count

end CTxMemPool

end DogecoinCore
