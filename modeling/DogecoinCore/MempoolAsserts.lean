import DogecoinCore.MempoolReorg

/-! The assertions of the pool. A total that an update leaves behind is a sum over the entry and
some of its ancestors or descendants, so the assertions hold where such sums are small. -/
namespace DogecoinCore
open List Function Option

private theorem toNat_sum {l : List ι} {f : ι → UInt64}
    (small : (l.map fun a => (f a).toNat).sum < 2 ^ 64) :
    (l.map f).sum.toNat = (l.map fun a => (f a).toNat).sum := by
  induction l with
  | nil => rfl
  | cons a l ih =>
    rw [map_cons, sum_cons] at small
    rw [map_cons, sum_cons, map_cons, sum_cons, UInt64.toNat_add, ih (by omega),
      Nat.mod_eq_of_lt small]

private theorem toInt64_pos {n : UInt64} (pos : 0 < n.toNat) (small : n.toNat < 2 ^ 63) :
    0 < n.toInt64 := by
  have same : n.toInt64.toInt = n.toNat :=
    (BitVec.toInt_eq_toNat_bmod _).trans (Int.bmod_eq_of_le (by simp) (by simp; omega))
  rw [Int64.lt_iff_toInt_lt, same]
  exact Int.natCast_pos.2 pos

namespace CTxMemPool
open CTxMemPoolEntry Worklist
variable {p p' q : CTxMemPool} {a b v x it : UInt256} {stage setAncestors B N its : List UInt256}
  {e : CTxMemPoolEntry}

/-- Sizes are positive and together less than 2^63, and the sigop costs of an entry and any of its
ancestors are together less than 2^31. -/
structure Bounded (p : CTxMemPool) : Prop where
  sized : ∀ x ∈ p.mapTx, 0 < (p.entry x).nTxSize.toNat
  total : ∀ its : List UInt256, its.Nodup → its ⊆ p.mapTx →
    (its.map fun x => (p.entry x).nTxSize.toNat).sum < 2 ^ 63
  sigOps : ∀ v ∈ p.mapTx, ∀ its : List UInt256, its.Nodup → its ⊆ p.mapTx →
    (∀ a ∈ its, p.Descends a v) → p.sigOpsOf its < 2 ^ 31

theorem Bounded.shrink (bounded : p.Bounded) (inside : p'.mapTx ⊆ p.mapTx)
    (tx : ∀ x, (p'.entry x).tx = (p.entry x).tx)
    (size : ∀ x, (p'.entry x).nTxSize = (p.entry x).nTxSize)
    (cost : ∀ x, (p'.entry x).sigOpCost = (p.entry x).sigOpCost) : p'.Bounded := by
  refine ⟨fun x live => ?_, fun its nodup sub => ?_, fun v live its nodup sub up => ?_⟩
  · rw [size]
    exact bounded.sized x (inside live)
  · simp only [size]
    exact bounded.total its nodup (List.Subset.trans sub inside)
  · simp only [sigOpsOf, cost]
    refine bounded.sigOps v (inside live) its nodup (List.Subset.trans sub inside) fun a mem => ?_
    refine Relation.ReflTransGen.mono (fun b c spent => ?_) _ _ (up a mem)
    obtain ⟨live, live', spends⟩ := spent
    exact ⟨inside live, inside live', tx c ▸ spends⟩

theorem Bounded.removed (bounded : p.Bounded) (removed : Removed stage upd p p') : p'.Bounded :=
  bounded.shrink (fun _ live => (removed.mem.1 live).1) (fun x => tx_of_fixed (removed.fixed x))
    (fun x => nTxSize_of_fixed (removed.fixed x)) fun x => sigOpCost_of_fixed (removed.fixed x)

theorem Bounded.of_frame (bounded : p.Bounded) (frame : Frame p p') : p'.Bounded :=
  bounded.shrink (frame.mapTx ▸ Subset.refl _) (fun x => tx_of_fixed (frame.fixed x))
    (fun x => nTxSize_of_fixed (frame.fixed x)) fun x => sigOpCost_of_fixed (frame.fixed x)

theorem Bounded.of_few (few : p.mapTx.length ≤ 1000)
    (small : ∀ x ∈ p.mapTx, 0 < (p.entry x).nTxSize.toNat ∧ (p.entry x).nTxSize.toNat ≤ 100000)
    (standard : ∀ x ∈ p.mapTx, (p.entry x).SigOpsStandard) : p.Bounded := by
  have length {its : List UInt256} (nodup : its.Nodup) (inside : its ⊆ p.mapTx) :
      its.length ≤ 1000 := (nodup.subperm inside).length_le.trans few
  refine ⟨fun x live => (small x live).1, fun its nodup inside => ?_,
    fun v live its nodup inside _ => ?_⟩
  · have sum := sum_le_card_nsmul (its.map fun x => (p.entry x).nTxSize.toNat) 100000 (by
      simpa using fun a mem => (small a (inside mem)).2)
    have := length nodup inside
    rw [length_map, nsmul_eq_mul, Nat.cast_id] at sum
    omega
  · have sum := sum_le_card_nsmul (its.map fun a => (p.entry a).sigOpCost.toInt)
      MAX_STANDARD_TX_SIGOPS_COST (by simpa using fun a mem => (standard a (inside mem)).2)
    have := length nodup inside
    rw [length_map, nsmul_eq_mul, show MAX_STANDARD_TX_SIGOPS_COST = 16000 from rfl] at sum
    rw [sigOpsOf]
    omega

section
variable (bounded : p.Bounded) (nodup : its.Nodup) (inside : its ⊆ p.mapTx) (self : x ∈ its)
include bounded nodup inside self

private theorem Bounded.counts :
    0 < (UInt64.ofNat its.length).toInt64 ∧ 0 < (its.map fun a => (p.entry a).nTxSize).sum.toInt64 := by
  have total := bounded.total its nodup inside
  have ones : its.length ≤ (its.map fun x => (p.entry x).nTxSize.toNat).sum := by
    rw [← length_map (f := fun x => (p.entry x).nTxSize.toNat)]
    refine length_le_sum_of_one_le _ fun n mem => ?_
    obtain ⟨a, here, rfl⟩ := mem_map.1 mem
    exact bounded.sized a (inside here)
  have given := length_pos_of_mem self
  have length : (UInt64.ofNat its.length).toNat = its.length :=
    UInt64.toNat_ofNat_of_lt' (show its.length < UInt64.size by
      have : UInt64.size = 2 ^ 64 := rfl
      omega)
  have size := toNat_sum (l := its) (f := fun a => (p.entry a).nTxSize) (by omega)
  exact ⟨toInt64_pos (by omega) (by omega), toInt64_pos (by omega) (by omega)⟩

end

section
variable (bounded : p.Bounded) (t : p.Tallied) (live : x ∈ p.mapTx) {P : UInt256 → Prop} (self : P x)
include bounded t live self

theorem Bounded.ancestorsAsserted (above : ∀ a ∈ p.mapTx, P a → p.Descends a x)
    (totals : e.withAncestors = tally p.mapTx (fun a => (p.entry a).own) P) :
    e.ancestorsAsserted := by
  classical
  rw [tally_eq_sum, sum_own] at totals
  have nodup := t.wired.nodup.filter (P ·)
  have inside : p.mapTx.filter (P ·) ⊆ p.mapTx := filter_subset_self _
  have here : x ∈ p.mapTx.filter (P ·) := by simp [live, self]
  obtain ⟨count, size⟩ := bounded.counts nodup inside here
  have small := bounded.sigOps x live _ nodup inside fun a mem => by
    obtain ⟨there, holds⟩ := mem_filter.1 mem
    exact above a there (by simpa using holds)
  obtain ⟨exact_sum, nonneg⟩ := toInt_sum (fun a mem => (t.standard a (inside mem)).1) small
  simp only [withAncestors, Prod.mk.injEq] at totals
  obtain ⟨count_eq, size_eq, -, cost_eq⟩ := totals
  have cost : 0 ≤ e.nSigOpCostWithAncestors.toInt32 := by
    rw [Int32.le_iff_toInt_le, Int64.toInt_toInt32, cost_eq, exact_sum,
      Int.bmod_eq_of_le (by omega) (by rw [sigOpsOf] at small; omega)]
    exact nonneg
  simp only [CTxMemPoolEntry.ancestorsAsserted, count_eq, size_eq, Bool.and_eq_true,
    decide_eq_true_eq]
  exact ⟨⟨size, count⟩, cost⟩

theorem Bounded.descendantsAsserted
    (totals : e.withDescendants = tally p.mapTx (fun a => (p.entry a).weight) P) :
    e.descendantsAsserted := by
  classical
  rw [tally_eq_sum, sum_weight] at totals
  obtain ⟨count, size⟩ := bounded.counts (t.wired.nodup.filter (P ·)) (filter_subset_self _)
    (by simp [live, self] : x ∈ p.mapTx.filter (P ·))
  simp only [withDescendants, Prod.mk.injEq] at totals
  obtain ⟨count_eq, size_eq, -⟩ := totals
  simp only [CTxMemPoolEntry.descendantsAsserted, count_eq, size_eq, Bool.and_eq_true,
    decide_eq_true_eq]
  exact ⟨size, count⟩

end

theorem Bounded.inRange (bounded : p.Bounded) (t : p.Tallied) (l : p.Linked B) :
    ∀ x ∈ p.mapTx, (p.entry x).InRange := by
  intro x live
  refine ⟨bounded.ancestorsAsserted t live .refl (fun a here path => ?_) (t.ancestors x live),
    bounded.descendantsAsserted t live .refl (t.descendants x live)⟩
  exact ((l.below_iff t.wired here).1 path).1

/-! ### A new entry -/

theorem ancestorsAsserted_of (same : e.withAncestors = totals) : e.ancestorsAsserted =
    (0 < totals.2.1.toInt64 && 0 < totals.1.toInt64 && 0 ≤ totals.2.2.2.toInt32) := by
  rw [← same]
  rfl

theorem addUnchecked_asserted (held : p.asserted) (absent : e.tx.hash ∉ p.mapTx)
    (apart : e.tx.hash ∉ setAncestors)
    (above : ∀ x ∈ setAncestors, ((p.addUnchecked e setAncestors).entry x).descendantsAsserted)
    (new : ((p.addUnchecked e setAncestors).entry e.tx.hash).ancestorsAsserted) :
    (p.addUnchecked e setAncestors).asserted := by
  simp only [addUnchecked, linkInputs_insertEntry absent] at above new ⊢
  refine Bool.and_eq_true_iff.2 ⟨?_, ?_⟩
  · simp only [updateAncestorsOf, if_true, foldl_updateChild]
    refine modifyAll_asserted _ held fun x mem => ?_
    have ranged := above x mem
    have other : x ≠ e.tx.hash := fun same => apart (same ▸ mem)
    rw [entryForAncestors_other other] at ranged
    simpa only [updateAncestorsOf, if_true, foldl_updateChild] using ranged
  · simpa only [updateEntryForAncestors, modify, update_self] using new

theorem Bounded.added (bounded : (p.addUnchecked e setAncestors).Bounded)
    (t : (p.addUnchecked e setAncestors).Tallied) (l : (p.addUnchecked e setAncestors).Linked B)
    (held : p.asserted) (absent : e.tx.hash ∉ p.mapTx) (inside : setAncestors ⊆ p.mapTx) :
    (p.addUnchecked e setAncestors).asserted := by
  have mapTx := (addUnchecked_added absent setAncestors).mapTx
  have ranges := bounded.inRange t l
  rw [mapTx] at ranges
  exact addUnchecked_asserted held absent (fun mem => absent (inside mem))
    (fun x mem => (ranges x (mem_cons_of_mem _ (inside mem))).2) (ranges _ mem_cons_self).1

/-! ### Entries that leave -/

section
variable (t : p.Tallied) (nodup : its.Nodup) (inside : its ⊆ p.mapTx) (live : x ∈ p.mapTx)
include t nodup inside live

private theorem Tallied.ancestors_shed : (p.entry x).withAncestors
      + (its.map fun a => whenever (p.Below a x ∧ x ≠ a) (p.entry a).shed).sum
    = tally p.mapTx (fun a => (p.entry a).own) fun a => p.Below a x ∧ (a ∈ its → a = x) := by
  have shed : (its.map fun a => whenever (p.Below a x ∧ x ≠ a) (p.entry a).shed).sum
      = -tally its (fun a => (p.entry a).own) fun a => p.Below a x ∧ x ≠ a := by
    rw [tally, sum_neg, List.map_map]
    refine congrArg sum (map_congr_left fun a mem => ?_)
    rw [shed_eq_neg_own (t.standard a (inside mem)), comp_apply]
    by_cases below : p.Below a x ∧ x ≠ a
    · rw [whenever_pos below, whenever_pos below]
    · rw [whenever_neg below, whenever_neg below, neg_zero]
  rw [shed, ← tally_inside t.wired.nodup nodup inside, t.ancestors x live, ← sub_eq_add_neg,
    sub_eq_iff_eq_add]
  exact tally_split (by grind) (by grind)

private theorem Tallied.descendants_shed : (p.entry x).withDescendants
      - (its.map fun v => whenever (∃ a ∈ p.parents v, p.Above a x) (p.entry v).weight).sum
    = tally p.mapTx (fun v => (p.entry v).weight) fun v => p.Below x v ∧ (v ∈ its → v = x) := by
  have shed : (its.map fun v => whenever (∃ a ∈ p.parents v, p.Above a x) (p.entry v).weight).sum
      = tally its (fun v => (p.entry v).weight) fun v => p.Below x v ∧ x ≠ v :=
    congrArg sum (map_congr_left fun v mem => whenever_congr (t.ancestor_iff (inside mem) live))
  rw [shed, ← tally_inside t.wired.nodup nodup inside, t.descendants x live, sub_eq_iff_eq_add]
  exact tally_split (by grind) (by grind)

end

private theorem updateDescendantsForRemoval_asserted (w : p.Wired) (live : it ∈ p.mapTx)
    (ran : p.updateDescendantsForRemoval it = some p') (held : p.asserted)
    (ranges : ∀ x ∈ p.mapTx, (p'.entry x).ancestorsAsserted) : p'.asserted := by
  obtain ⟨r, found, -, -, members⟩ := calculateDescendants_spec w live nodup_nil
    (by simp [BelowClosed])
  simp only [updateDescendantsForRemoval, found, bind_eq_bind, bind_some] at ran
  cases ran
  refine modifyAll_asserted _ held fun x mem => ranges x ?_
  have path := ((members x).1 (mem_filter.1 mem).1).resolve_left not_mem_nil
  exact path.live w live

private theorem updateAncestorsForRemoval_asserted (w : p.WiredUp) (live : it ∈ p.mapTx)
    (ran : p.updateAncestorsForRemoval it = some p') (held : p.asserted)
    (ranges : ∀ x, (∃ a ∈ p.parents it, p.Above a x) → (p'.entry x).descendantsAsserted) :
    p'.asserted := by
  obtain ⟨r, found, members⟩ := calculateAncestors_spec w live
  simp only [updateAncestorsForRemoval, found, updateAncestorsOf, foldl_updateChild,
    Bool.false_eq_true, if_false, bind_eq_bind, bind_some] at ran
  cases ran
  exact modifyAll_asserted _ held fun x mem => ranges x ((members x).1 mem)

section
variable (t : p.Tallied) (l : p.Linked B) (bounded : p.Bounded) (held : p.asserted)
  (nodup : its.Nodup) (inside : its ⊆ p.mapTx)
include t l bounded nodup inside

-- Both loops are cut after any number of turns, where the totals are those of what is left.
include held in
private theorem foldlM_descendants_asserted (ran : its.foldlM updateDescendantsForRemoval p = some q) :
    q.asserted := by
  induction its using List.reverseRecOn generalizing q with
  | nil =>
    cases ran
    exact held
  | append_singleton its it ih =>
    have live : ∀ a ∈ its, a ∈ p.mapTx := fun a mem => inside (mem_append_left _ mem)
    obtain ⟨mid, first, frame, parents, children, -⟩ :=
      foldlM_updateDescendantsForRemoval t.wired live
    obtain ⟨_, both, -, -, -, totals⟩ := foldlM_updateDescendantsForRemoval t.wired inside
    cases both.symm.trans ran
    rw [foldlM_append, first] at ran
    have last : mid.updateDescendantsForRemoval it = some q := by simpa using ran
    refine updateDescendantsForRemoval_asserted (t.wired.of_frame frame parents children)
      (frame.mapTx ▸ inside (by simp)) last (ih nodup.of_append_left live first) fun x there => ?_
    rw [frame.mapTx] at there
    refine bounded.ancestorsAsserted t there ⟨.refl, fun _ => rfl⟩ (fun a here both => ?_)
      ((totals x).2.trans (t.ancestors_shed nodup inside there))
    exact ((l.below_iff t.wired here).1 both.1).1

omit l in
private theorem foldlM_ancestors_asserted (frame : Frame p q) (parents : q.parents = p.parents)
    (same : ∀ x, (q.entry x).withDescendants = (p.entry x).withDescendants) (held : q.asserted)
    (ran : its.foldlM updateAncestorsForRemoval q = some p') : p'.asserted := by
  have w := t.wired.toWiredUp.of_frame frame parents
  induction its using List.reverseRecOn generalizing p' with
  | nil =>
    cases ran
    exact held
  | append_singleton its it ih =>
    have live : ∀ a ∈ its, a ∈ q.mapTx := fun a mem => frame.mapTx ▸ inside (mem_append_left _ mem)
    have last_live : it ∈ p.mapTx := inside (by simp)
    obtain ⟨mid, first, frame', parents', -⟩ := foldlM_updateAncestorsForRemoval w live
    obtain ⟨_, both, -, -, -, -, totals⟩ := foldlM_updateAncestorsForRemoval w
      fun a mem => frame.mapTx ▸ inside mem
    cases both.symm.trans ran
    rw [foldlM_append, first] at ran
    have last : mid.updateAncestorsForRemoval it = some p' := by simpa using ran
    refine updateAncestorsForRemoval_asserted (w.of_frame frame' parents')
      (frame'.mapTx ▸ frame.mapTx ▸ last_live) last
      (ih nodup.of_append_left (fun a mem => inside (mem_append_left _ mem)) first) fun x above => ?_
    simp only [Above, parents', parents] at above
    have there : x ∈ p.mapTx := by
      obtain ⟨a, parent, path⟩ := above
      exact ((above_iff_below t.wired (t.wired.parents_live it last_live a parent)).1 path).1
    have left := t.descendants_shed nodup inside there
    rw [← same x, ← weights_of_frame frame parents, ← (totals x).2] at left
    exact bounded.descendantsAsserted t there ⟨.refl, fun _ => rfl⟩ left

include held in
theorem removeStaged_asserted (ran : p.removeStaged its updateDescendants = some p') :
    p'.asserted ∧ p'.Bounded := by
  obtain ⟨_, -, ran', removed⟩ := removeStaged_spec t.wired inside updateDescendants
  cases ran'.symm.trans ran
  refine ⟨?_, bounded.removed removed⟩
  obtain ⟨q, first, frame, parents, -, totals⟩ :=
    removeDescendants_spec t.wired inside updateDescendants
  obtain ⟨r, second, -⟩ := foldlM_updateAncestorsForRemoval
    (t.wired.toWiredUp.of_frame frame parents) fun a mem => frame.mapTx ▸ inside mem
  obtain ⟨links, folded, -⟩ := foldl_updateChildrenForRemoval its r
  simp only [removeStaged, updateForRemoveFromMempool, first, second, folded, bind_eq_bind,
    bind_some, some.injEq] at ran
  have asserted : q.asserted := by
    cases updateDescendants with
    | false =>
      cases first
      exact held
    | true => exact foldlM_descendants_asserted t l bounded held nodup inside first
  have left : r.asserted := foldlM_ancestors_asserted t bounded nodup inside frame parents
    (fun x => (totals x).1) asserted second
  rw [← ran, (foldl_removeUnchecked _ _).asserted]
  exact left

end

theorem removeWithDescendants_asserted (t : p.Tallied) (l : p.Linked B) (bounded : p.Bounded)
    (held : p.asserted) (live : ∀ it ∈ its, it ∈ p.mapTx)
    (ran : p.removeWithDescendants its = some p') : p'.asserted ∧ p'.Bounded := by
  obtain ⟨stage, found, nodup, -, members⟩ :=
    calculateAllDescendants_spec t.wired live nodup_nil (by simp [BelowClosed])
  have inside : stage ⊆ p.mapTx := by
    intro x mem
    obtain ⟨it, here, path⟩ := ((members x).1 mem).resolve_left not_mem_nil
    exact path.live t.wired (live it here)
  rw [removeWithDescendants, found] at ran
  exact removeStaged_asserted t l bounded held nodup inside ran

theorem Tallied.prioritise_asserted (t : p.Tallied) (l : p.Linked B) (bounded : p.Bounded)
    (held : p.asserted) (hash : UInt256) (nFeeDelta : CAmount) :
    ∃ p', p.prioritiseTransaction hash nFeeDelta = some p' ∧ p'.asserted ∧ p'.Bounded := by
  by_cases live : hash ∈ p.mapTx
  · obtain ⟨p', ran, set⟩ := t.prioritised live nFeeDelta
    refine ⟨p', ran, set.asserted held (bounded.inRange t l), bounded.shrink ?_ ?_ ?_ ?_⟩
    · rw [set.mapTx]
      exact Subset.refl _
    · exact set.kept (·.tx) (fun _ _ => tx_of_fixed) fun _ _ => rfl
    · exact set.kept (·.nTxSize) (fun _ _ => nTxSize_of_fixed) fun _ _ => rfl
    · exact set.kept (·.sigOpCost) (fun _ _ => sigOpCost_of_fixed) fun _ _ => rfl
  · refine ⟨{ p with
      mapDeltas := update p.mapDeltas hash (some ((p.mapDeltas hash).getD 0 + nFeeDelta)) },
      by simp [CTxMemPool.prioritiseTransaction, live], held, ?_⟩
    exact bounded.shrink (Subset.refl _) (fun _ => rfl) (fun _ => rfl) fun _ => rfl

/-! ### The transactions of a disconnected block -/

theorem Relinked.inRange (bounded : p.Bounded) (t : p.Tallied) (r : Relinked p B N s) (sub : N ⊆ B) :
    ∀ x ∈ p.mapTx, (s.1.entry x).InRange := fun x live =>
  ⟨bounded.ancestorsAsserted t live ⟨.refl, fun mem => sub mem⟩ (fun _ _ both => both.1)
      (r.ancestors x live),
    bounded.descendantsAsserted t live ⟨.refl, fun mem => sub mem⟩ (r.descendants x live)⟩

theorem updateTransactionsFromBlock_asserted (bounded : p.Bounded) (t : p.Tallied) (l : p.Linked B)
    (held : p.asserted) (live : ∀ b ∈ B, b ∈ p.mapTx) (nodup : B.Nodup)
    (order : B.Pairwise fun b c => ¬ p.Spends c b)
    (ran : p.updateTransactionsFromBlock B = some p') : p'.asserted ∧ p'.Bounded := by
  obtain ⟨s, looped, r, -, asserted⟩ := foldlM_updateFromBlock
    (R := fun N s => Relinked p B N s ∧ N ⊆ B ∧ s.1.asserted)
    (fun b N s r live mem fresh last => by
      obtain ⟨r, sub, held⟩ := r
      have sub := (cons_subset.1 sub).2
      obtain ⟨s', ran, r'⟩ := r.step l t live mem fresh last
      obtain ⟨_, again, -, counted⟩ := r.toRelinking.step l live mem fresh last
      cases ran.symm.trans again
      exact ⟨s', ran, r', sub, counted.asserted held (r'.inRange bounded t sub)⟩)
    ⟨Relinked.start t l, by simp, held⟩ (by simpa using live) (by simp) (nodup_reverse.2 nodup)
    (pairwise_reverse.2 order)
  simp only [CTxMemPool.updateTransactionsFromBlock, looped, bind_eq_bind, bind_some] at ran
  cases ran
  exact ⟨asserted, bounded.of_frame r.frame⟩

end CTxMemPool
end DogecoinCore
