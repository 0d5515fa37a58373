import DogecoinCore.MempoolLinks
import Mathlib.Algebra.Order.BigOperators.Group.List
import Mathlib.Algebra.Order.Ring.Int

/-! The package totals of the pool: every operation that follows the links keeps the
totals of each entry equal to the sums over what the links reach from it. -/
namespace DogecoinCore
open List Function CTxMemPoolEntry Worklist Prod Option CTxMemPool UInt64

def MAX_STANDARD_TX_SIGOPS_COST : ℤ := 80000 / 5

private theorem toInt32_toInt64 {n : Int64} (low : -2 ^ 31 ≤ n.toInt) (high : n.toInt < 2 ^ 31) :
    n.toInt32.toInt64 = n := by
  refine Int64.toInt_inj.1 ?_
  rw [Int32.toInt_toInt64, Int64.toInt_toInt32]
  exact Int.bmod_eq_of_le (by omega) (by omega)

theorem toInt_sum {l : List ι} {f : ι → Int64} (nonneg : ∀ a ∈ l, 0 ≤ (f a).toInt)
    (small : (l.map fun a => (f a).toInt).sum < 2 ^ 31) :
    (l.map f).sum.toInt = (l.map fun a => (f a).toInt).sum ∧
      0 ≤ (l.map fun a => (f a).toInt).sum := by
  induction l with
  | nil => exact ⟨rfl, le_refl _⟩
  | cons a l ih =>
    simp only [map_cons, sum_cons] at small ⊢
    have first := nonneg a mem_cons_self
    have rest : ∀ b ∈ l, 0 ≤ (f b).toInt := fun b mem => nonneg b (mem_cons_of_mem a mem)
    have later : 0 ≤ (l.map fun a => (f a).toInt).sum := sum_nonneg (by simpa using rest)
    obtain ⟨same, -⟩ := ih rest (by omega)
    refine ⟨?_, by omega⟩
    rw [Int64.toInt_add, same]
    exact Int.bmod_eq_of_le (by omega) (by omega)

namespace CTxMemPoolEntry
variable {e : CTxMemPoolEntry}

/-- The totals pass the assertions that are made when they change. -/
def InRange (e : CTxMemPoolEntry) : Prop := e.ancestorsAsserted ∧ e.descendantsAsserted

def Fresh (e : CTxMemPoolEntry) : Prop :=
  e = .create e.tx e.nFee e.nTime e.spendsCoinbase e.sigOpCost e.nTxSize

theorem withDelta_eq (fresh : e.Fresh) (delta : Option CAmount) :
    e.withDelta delta = e.updateFeeDelta (delta.getD 0) := by
  have same : e = e.updateFeeDelta 0 := by
    rw [fresh]
    simp [updateFeeDelta, create]
  cases delta with
  | none => exact same
  | some delta =>
    simp only [withDelta, getD_some]
    split
    · rfl
    rename_i zero
    rw [not_not.1 zero]
    exact same

theorem withAncestors_updateFeeDelta (fresh : e.Fresh) (delta : CAmount) :
    (e.updateFeeDelta delta).withAncestors = (e.updateFeeDelta delta).own := by
  rw [fresh]
  simp [withAncestors, own, updateFeeDelta, create, getModifiedFee]

theorem withDescendants_updateFeeDelta (fresh : e.Fresh) (delta : CAmount) :
    (e.updateFeeDelta delta).withDescendants = (e.updateFeeDelta delta).weight := by
  rw [fresh]
  simp [withDescendants, weight, updateFeeDelta, create, getModifiedFee]

/-- The sigop cost is one `AcceptToMemoryPool` lets through. -/
def SigOpsStandard (e : CTxMemPoolEntry) : Prop :=
  0 ≤ e.sigOpCost.toInt ∧ e.sigOpCost.toInt ≤ MAX_STANDARD_TX_SIGOPS_COST

theorem shed_eq_neg_own (standard : e.SigOpsStandard) : e.shed = -e.own := by
  obtain ⟨_, _⟩ := standard
  have bound : MAX_STANDARD_TX_SIGOPS_COST = 16000 := rfl
  have neg : (-e.sigOpCost).toInt = -e.sigOpCost.toInt := by
    rw [Int64.toInt_neg]
    exact Int.bmod_eq_of_le (by omega) (by omega)
  rw [shed, toInt32_toInt64 (by omega) (by omega)]
  rfl

theorem sigOpCost_toInt32 (standard : e.SigOpsStandard) :
    e.sigOpCost.toInt32.toInt64 = e.sigOpCost := by
  obtain ⟨_, _⟩ := standard
  have bound : MAX_STANDARD_TX_SIGOPS_COST = 16000 := rfl
  exact toInt32_toInt64 (by omega) (by omega)

end CTxMemPoolEntry

namespace CTxMemPool
variable {p p' q : CTxMemPool} {a v x it : UInt256}
  {e : CTxMemPoolEntry}

theorem above_iff_below (w : p.Wired) (live : v ∈ p.mapTx) :
    p.Above v a ↔ a ∈ p.mapTx ∧ p.Below a v := by
  constructor
  · intro path
    induction path with
    | refl => exact ⟨live, .refl⟩
    | tail _ edge ih =>
      have parent_live := w.parents_live _ ih.1 _ edge
      exact ⟨parent_live, .head ((w.linked _ parent_live _ ih.1).2 edge) ih.2⟩
  rintro ⟨live', path⟩
  induction path using Relation.ReflTransGen.head_induction_on with
  | refl => exact .refl
  | head edge _ ih =>
    have child_live := w.children_live _ live' _ edge
    exact (ih child_live).tail ((w.linked _ live' _ child_live).1 edge)

/-- The totals of every entry are the sums over what the links reach, and the fee delta is the one
`mapDeltas` has. -/
structure Tallied (p : CTxMemPool) : Prop where
  wired : p.Wired
  acyclic : ∀ v ∈ p.mapTx, ∀ a ∈ p.parents v, ¬ p.Below v a
  deltas : ∀ v ∈ p.mapTx, (p.entry v).feeDelta = (p.mapDeltas v).getD 0
  standard : ∀ v ∈ p.mapTx, (p.entry v).SigOpsStandard
  ancestors : ∀ v ∈ p.mapTx,
    (p.entry v).withAncestors = tally p.mapTx (fun a => (p.entry a).own) (p.Below · v)
  descendants : ∀ a ∈ p.mapTx,
    (p.entry a).withDescendants = tally p.mapTx (fun v => (p.entry v).weight) (p.Below a)
  totalTxSize : p.totalTxSize = (p.mapTx.map fun x => (p.entry x).nTxSize).sum

theorem Tallied.empty : empty.Tallied where
  wired := by refine ⟨⟨?_, ?_, ?_⟩, ?_, ?_, ?_, ?_, ?_⟩ <;> simp [CTxMemPool.empty]
  acyclic := by simp [CTxMemPool.empty]
  deltas := by simp [CTxMemPool.empty]
  standard := by simp [CTxMemPool.empty]
  ancestors := by simp [CTxMemPool.empty]
  descendants := by simp [CTxMemPool.empty]
  totalTxSize := rfl

theorem Tallied.ancestor_iff (t : p.Tallied) (live : v ∈ p.mapTx) (there : x ∈ p.mapTx) :
    (∃ a ∈ p.parents v, p.Above a x) ↔ p.Below x v ∧ x ≠ v := by
  constructor
  · rintro ⟨a, parent, path⟩
    have a_live := t.wired.parents_live v live a parent
    have path := ((above_iff_below t.wired a_live).1 path).2
    refine ⟨path.tail ((t.wired.linked a a_live v live).2 parent), fun same => ?_⟩
    exact t.acyclic v live a parent (same ▸ path)
  rintro ⟨path, other⟩
  rcases path.cases_tail with same | ⟨b, before, edge⟩
  · exact absurd same.symm other
  have b_live := Below.live t.wired there before
  exact ⟨b, (t.wired.linked b b_live v live).1 edge,
    (above_iff_below t.wired b_live).2 ⟨there, before⟩⟩

/-! ### A new entry -/

theorem searchForParents_spec
    (nodup : found.Nodup) (ran : p.searchForParents limit vin found = some r) :
    r.Nodup ∧ ∀ a, a ∈ r ↔ a ∈ found ∨ (a ∈ p.mapTx ∧ ∃ i ∈ vin, i.prevout.hash = a) := by
  induction vin generalizing found with
  | nil =>
    cases ran
    exact ⟨nodup, by simp⟩
  | cons i vin ih =>
    rw [searchForParents] at ran
    by_cases live : i.prevout.hash ∈ p.mapTx
    · simp only [live, if_true] at ran
      split at ran
      · cases ran
      obtain ⟨unique, members⟩ := ih nodup.insert ran
      refine ⟨unique, fun a => ?_⟩
      grind
    simp only [live, if_false] at ran
    obtain ⟨unique, members⟩ := ih nodup ran
    refine ⟨unique, fun a => ?_⟩
    grind

theorem calculateAncestors_search (w : p.Wired)
    (ran : p.calculateMemPoolAncestors limits e true = some (some setAncestors)) :
    setAncestors.Nodup ∧ ∀ x, x ∈ setAncestors ↔
      x ∈ p.mapTx ∧ ∃ a ∈ p.mapTx, (∃ i ∈ e.tx.vin, i.prevout.hash = a) ∧ p.Below x a := by
  simp only [calculateMemPoolAncestors, if_true] at ran
  cases found : p.searchForParents limits.ancestorCount e.tx.vin [] with
  | none =>
    rw [found] at ran
    cases ran
  | some _ =>
    rw [found] at ran
    obtain ⟨-, members⟩ := searchForParents_spec nodup_nil found
    refine ⟨walk_nodup nodup_nil ran, fun x => ?_⟩
    rw [mem_walk_iff (by simp) ran]
    constructor
    · rintro (none | ⟨a, mem, path⟩)
      · cases none
      obtain ⟨live, spends⟩ := ((members a).1 mem).resolve_left not_mem_nil
      obtain ⟨above, below⟩ := (above_iff_below w live).1 path
      exact ⟨above, a, live, spends, below⟩
    rintro ⟨above, a, live, spends, below⟩
    exact .inr ⟨a, (members a).2 (.inr ⟨live, spends⟩),
      (above_iff_below w live).2 ⟨above, below⟩⟩

theorem calculateAncestors_ends (w : p.WiredUp) (e : CTxMemPoolEntry)
    (limits : AncestorLimits) : ∃ r, p.calculateMemPoolAncestors limits e true = some r := by
  simp only [calculateMemPoolAncestors, if_true]
  cases found : p.searchForParents limits.ancestorCount e.tx.vin [] with
  | none => exact ⟨none, rfl⟩
  | some _ =>
    obtain ⟨nodup, members⟩ := searchForParents_spec nodup_nil found
    refine walk_ends w.parents_live (fun a mem => ?_) nodup (Nat.lt_succ_self _)
    exact (((members a).1 mem).resolve_left not_mem_nil).1

theorem searchForParents_nNoLimit (p : CTxMemPool) (vin : List CTxIn) (found : List UInt256) :
    ∃ r, p.searchForParents AncestorLimits.nNoLimit.ancestorCount vin found = some r := by
  induction vin generalizing found with
  | nil => exact ⟨found, rfl⟩
  | cons i vin ih =>
    rw [searchForParents]
    by_cases live : i.prevout.hash ∈ p.mapTx
    · simp only [live, if_true]
      rw [if_neg (show ¬ _ > AncestorLimits.nNoLimit.ancestorCount from not_gt_nNoLimit)]
      exact ih _
    · simp only [live, if_false]
      exact ih _

theorem calculateAncestors_nNoLimit (w : p.WiredUp) (e : CTxMemPoolEntry) :
    ∃ r, p.calculateMemPoolAncestors .nNoLimit e true = some (some r) := by
  obtain ⟨_, ran⟩ := calculateAncestors_ends w e .nNoLimit
  obtain ⟨_, found⟩ := searchForParents_nNoLimit p e.tx.vin []
  have walked := ran
  simp only [calculateMemPoolAncestors, if_true, found] at walked
  obtain ⟨r, rfl⟩ := walk_allowed (fun _ _ _ => withinLimits_nNoLimit) walked
  exact ⟨r, ran⟩

section
variable (added : Added e setAncestors p p')
include added

theorem Added.below_new : p'.Below e.tx.hash v ↔ v = e.tx.hash := by
  constructor
  · intro path
    induction path with
    | refl => rfl
    | tail _ edge ih =>
      subst ih
      rcases (added.children _ _).1 edge with ⟨other, -⟩ | ⟨new, -⟩
      · exact absurd rfl other
      · exact new
  · rintro rfl
    exact .refl

theorem Added.below (w : p.Wired) (absent : e.tx.hash ∉ p.mapTx) (live : a ∈ p.mapTx) :
    p'.Below a v ↔ (v ∈ p.mapTx ∧ p.Below a v) ∨ (v = e.tx.hash ∧
      ∃ q ∈ p.mapTx, (∃ i ∈ e.tx.vin, i.prevout.hash = q) ∧ p.Below a q) := by
  have old : ∀ {y}, p.Below a y → p'.Below a y := by
    intro y path
    induction path with
    | refl => exact .refl
    | tail before edge ih =>
      refine ih.tail ((added.children _ _).2 (.inl ⟨fun new => ?_, edge⟩))
      exact absent (new ▸ Below.live w live before)
  constructor
  · intro path
    induction path with
    | refl => exact .inl ⟨live, .refl⟩
    | tail _ edge ih =>
      rcases ih with ⟨here, before⟩ | ⟨rfl, before⟩
      · rcases (added.children _ _).1 edge with ⟨-, child⟩ | ⟨new, parent⟩
        · exact .inl ⟨w.children_live _ here _ child, before.tail child⟩
        · exact .inr ⟨new, _, here, ((added.parents_new _).1 parent).2, before⟩
      rcases (added.children _ _).1 edge with ⟨other, -⟩ | ⟨new, -⟩
      · exact absurd rfl other
      · exact .inr ⟨new, before⟩
  rintro (⟨-, path⟩ | ⟨rfl, q, here, spends, path⟩)
  · exact old path
  · refine (old path).tail ((added.children _ _).2 (.inr ⟨rfl, ?_⟩))
    exact (added.parents_new q).2 ⟨by rw [added.mapTx]; exact .tail _ here, spends⟩

theorem Added.below_old (w : p.Wired)
    (absent : e.tx.hash ∉ p.mapTx) (live : a ∈ p.mapTx) (live' : v ∈ p.mapTx) :
    p'.Below a v ↔ p.Below a v := by
  rw [added.below w absent live]
  refine ⟨?_, fun path => .inl ⟨live', path⟩⟩
  rintro (⟨-, path⟩ | ⟨rfl, -⟩)
  · exact path
  · exact absurd live' absent

end

/-- What the caller of `addUnchecked` sees to: a new entry for a transaction that is not in the
pool, with the sigops of a standard one, and no transaction spends itself. -/
structure Newcomer (p : CTxMemPool) (e : CTxMemPoolEntry) : Prop where
  fresh : e.Fresh
  absent : e.tx.hash ∉ p.mapTx
  standard : e.SigOpsStandard
  selfless : ∀ i ∈ e.tx.vin, i.prevout.hash ≠ e.tx.hash

def sigOpsOf (p : CTxMemPool) (its : List UInt256) : ℤ :=
  (its.map fun a => (p.entry a).sigOpCost.toInt).sum

theorem sum_own (its : List UInt256) : (its.map fun a => (p.entry a).own).sum = (ofNat its.length,
      (its.map fun a => (p.entry a).nTxSize).sum, (its.map fun a => (p.entry a).getModifiedFee).sum,
      (its.map fun a => (p.entry a).sigOpCost).sum) := by
  induction its with
  | nil => rfl
  | cons a its ih =>
    simp only [map_cons, sum_cons, ih, length_cons]
    rw [own, mk_add_mk, mk_add_mk, mk_add_mk, ofNat_add, add_comm 1]
    rfl

theorem sum_weight {its : List UInt256} :
    (its.map fun a => (p.entry a).weight).sum = (ofNat its.length,
      (its.map fun a => (p.entry a).nTxSize).sum,
      (its.map fun a => (p.entry a).getModifiedFee).sum) := by
  induction its with
  | nil => rfl
  | cons a its ih =>
    simp only [map_cons, sum_cons, ih, length_cons]
    rw [weight, mk_add_mk, mk_add_mk, ofNat_add, add_comm 1]
    rfl

theorem Tallied.added (t : p.Tallied) (new : p.Newcomer e)
    (ran : p.calculateMemPoolAncestors limits e true = some (some setAncestors))
    (sigOps : p.sigOpsOf setAncestors < 2 ^ 31) :
    (p.addUnchecked e setAncestors).Tallied := by
  have added := addUnchecked_added new.absent setAncestors
  obtain ⟨nodup, members⟩ := calculateAncestors_search t.wired ran
  generalize p.addUnchecked e setAncestors = p' at added
  have apart : e.tx.hash ∉ setAncestors := fun mem => new.absent ((members _).1 mem).1
  have wired := t.wired.added new.absent added
  have other : ∀ x ∈ p.mapTx, x ≠ e.tx.hash := fun x live same => new.absent (same ▸ live)
  have below_iff : ∀ x ∈ p.mapTx, (p'.Below x e.tx.hash ↔ x ∈ setAncestors) := by
    intro x live
    rw [added.below t.wired new.absent live, members]
    constructor
    · rintro (⟨there, -⟩ | ⟨-, found⟩)
      · exact absurd there new.absent
      · exact ⟨live, found⟩
    · rintro ⟨-, found⟩
      exact .inr ⟨rfl, found⟩
  have new_fixed := added.new
  rw [withDelta_eq new.fresh] at new_fixed
  constructor
  case wired => exact wired
  case acyclic =>
    intro v live a parent path
    by_cases same : v = e.tx.hash
    · subst same
      obtain ⟨-, i, input, spent⟩ := (added.parents_new a).1 parent
      rw [added.below_new] at path
      exact new.selfless i input (spent.trans path)
    rw [added.mapTx] at live
    have here := (mem_cons.1 live).resolve_left same
    rw [added.parents v same] at parent
    have there := t.wired.parents_live v here a parent
    exact t.acyclic v here a parent ((added.below_old t.wired new.absent here there).1 path)
  case deltas =>
    intro v live
    rw [added.mapDeltas]
    by_cases same : v = e.tx.hash
    · rw [same]
      exact congrArg (fun f => f.2.2.2.2.2.2) new_fixed
    rw [added.mapTx] at live
    rw [← t.deltas v ((mem_cons.1 live).resolve_left same)]
    exact congrArg (fun f => f.2.2.2.2.2.2) (added.fixed v same)
  case standard =>
    intro v live
    unfold CTxMemPoolEntry.SigOpsStandard
    by_cases same : v = e.tx.hash
    · rw [same, sigOpCost_of_fixed new_fixed]
      exact new.standard
    rw [added.mapTx] at live
    rw [sigOpCost_of_fixed (added.fixed v same)]
    exact t.standard v ((mem_cons.1 live).resolve_left same)
  case ancestors =>
    intro v live
    rw [added.mapTx] at live
    have old_own : ∀ x ∈ p.mapTx, (p'.entry x).own = (p.entry x).own := fun x there =>
      own_of_fixed (added.fixed x (other x there))
    rw [added.mapTx, tally_cons, added.below_new]
    rcases mem_cons.1 live with rfl | here
    · rw [whenever_pos rfl, added.ancestors_new apart, withDelta_eq new.fresh,
        withAncestors_updateFeeDelta new.fresh,
        own_of_fixed new_fixed]
      congr 1
      obtain ⟨exact_sum, _⟩ := toInt_sum
        (fun a mem => (t.standard a ((members a).1 mem).1).1) sigOps
      rw [toInt32_toInt64 (by rw [exact_sum]; omega) (by rw [exact_sum]; exact sigOps), ← sum_own,
        ← tally_mem t.wired.nodup nodup fun a mem => ((members a).1 mem).1]
      exact tally_congr (fun a there _ => (old_own a there).symm)
        fun a there => (below_iff a there).symm
    rw [whenever_neg (other v here), zero_add, added.ancestors v (other v here), t.ancestors v here]
    exact tally_congr (fun a there _ => (old_own a there).symm)
      fun a there => (added.below_old t.wired new.absent there here).symm
  case descendants =>
    intro a live
    rw [added.mapTx] at live
    have old_weight : ∀ x ∈ p.mapTx, (p'.entry x).weight = (p.entry x).weight := fun x there =>
      weight_of_fixed (added.fixed x (other x there))
    rw [added.mapTx, tally_cons]
    rcases mem_cons.1 live with rfl | here
    · rw [whenever_pos .refl, added.descendants_new apart, withDelta_eq new.fresh,
        withDescendants_updateFeeDelta new.fresh,
        weight_of_fixed new_fixed,
        tally_none fun v there path => other v there (added.below_new.1 path), add_zero]
    rw [added.descendants a (other a here), t.descendants a here,
      weight_of_fixed added.new, whenever_congr (below_iff a here), add_comm]
    congr 1
    exact tally_congr (fun v there _ => (old_weight v there).symm)
      fun v there => (added.below_old t.wired new.absent here there).symm
  case totalTxSize =>
    have sizes := map_congr_left fun x there => nTxSize_of_fixed (added.fixed x (other x there))
    rw [added.totalTxSize, added.mapTx, t.totalTxSize, map_cons, sum_cons, sizes,
      nTxSize_of_fixed new_fixed]
    exact add_comm ..

/-! ### Entries that leave -/

def AboveClosed (p : CTxMemPool) (s : List UInt256) : Prop := ∀ v ∈ s, ∀ a ∈ p.parents v, a ∈ s

theorem AboveClosed.below (w : p.Wired) (closed : p.AboveClosed stage) (live : a ∈ p.mapTx)
    (mem : v ∈ stage) (path : p.Below a v) : a ∈ stage := by
  induction path using Relation.ReflTransGen.head_induction_on with
  | refl => exact mem
  | head edge _ ih =>
    have child_live := w.children_live _ live _ edge
    exact closed _ (ih child_live) _ ((w.linked _ live _ child_live).1 edge)

theorem Removed.below (removed : Removed stage upd p p') (w : p.Wired)
    (closed : p.BelowClosed stage ∨ p.AboveClosed stage) (live : a ∈ p'.mapTx)
    (live' : v ∈ p'.mapTx) : p'.Below a v ↔ p.Below a v := by
  have w' := w.removed removed
  constructor
  · intro path
    clear live'
    induction path with
    | refl => exact .refl
    | tail before edge ih =>
      exact ih.tail ((removed.children _ (Below.live w' live before) _).1 edge).1
  intro path
  induction path with
  | refl => exact .refl
  | @tail b c before edge ih =>
    have was := Below.live w (removed.mem.1 live).1 before
    have stays : b ∉ stage := by
      intro staged
      rcases closed with down | up
      · exact (removed.mem.1 live').2 (down _ staged _ edge)
      · exact (removed.mem.1 live).2 (up.below w (removed.mem.1 live).1 staged before)
    have there := removed.mem.2 ⟨was, stays⟩
    exact (ih there).tail ((removed.children _ there _).2 ⟨edge, (removed.mem.1 live').2⟩)

theorem Tallied.removed (t : p.Tallied) (removed : Removed stage upd p p')
    (nodup : stage.Nodup) (inside : ∀ x ∈ stage, x ∈ p.mapTx)
    (closed : (upd = false ∧ p.BelowClosed stage) ∨ (upd ∧ p.AboveClosed stage)) :
    p'.Tallied := by
  have either := closed.imp And.right And.right
  have wired := t.wired.removed removed
  have was : ∀ {x}, x ∈ p'.mapTx → x ∈ p.mapTx := fun there => (removed.mem.1 there).1
  have stays : ∀ {x}, x ∈ p'.mapTx → x ∉ stage := fun there => (removed.mem.1 there).2
  constructor
  case wired => exact wired
  case acyclic =>
    intro v live a parent path
    have there := wired.parents_live v live a parent
    exact t.acyclic v (was live) a ((removed.parents v live a).1 parent).1
      ((removed.below t.wired either live there).1 path)
  case deltas =>
    intro v live
    rw [removed.mapDeltas, ← t.deltas v (was live)]
    exact congrArg (fun f => f.2.2.2.2.2.2) (removed.fixed v)
  case standard =>
    intro v live
    unfold CTxMemPoolEntry.SigOpsStandard
    rw [sigOpCost_of_fixed (removed.fixed v)]
    exact t.standard v (was live)
  case ancestors =>
    intro v live
    have kept := tally_congr (fun a _ _ => own_of_fixed (removed.fixed a))
        fun a there => removed.below t.wired either there live
    rw [kept, removed.ancestors, removed.mapTx,
      tally_filter_not_mem t.wired.nodup nodup inside, ← t.ancestors v (was live), sub_eq_add_neg]
    congr 1
    rcases closed with ⟨rfl, down⟩ | ⟨rfl, _⟩
    · rw [whenever_neg (by simp), tally_none fun a staged path =>
        stays live (down.below staged path), neg_zero]
    rw [whenever_pos rfl, tally, sum_neg, List.map_map]
    refine congrArg sum (map_congr_left fun a staged => ?_)
    have other : v ≠ a := fun same => stays live (same ▸ staged)
    rw [shed_eq_neg_own (t.standard a (inside a staged)), comp_apply]
    by_cases path : p.Below a v
    · rw [whenever_pos ⟨path, other⟩, whenever_pos path]
    · rw [whenever_neg fun both => path both.1, whenever_neg path, neg_zero]
  case descendants =>
    intro a live
    have kept := tally_congr (fun v _ _ => weight_of_fixed (removed.fixed v))
        fun v there => removed.below t.wired either live there
    rw [kept, removed.descendants, removed.mapTx,
      tally_filter_not_mem t.wired.nodup nodup inside, ← t.descendants a (was live)]
    congr 1
    refine congrArg sum (map_congr_left fun v staged => whenever_congr ?_)
    rw [t.ancestor_iff (inside v staged) (was live)]
    exact and_iff_left fun same => stays live (same ▸ staged)
  case totalTxSize =>
    have sizes : (p'.mapTx.map fun x => (p'.entry x).nTxSize)
        = p'.mapTx.map fun x => (p.entry x).nTxSize :=
      map_congr_left fun x _ => nTxSize_of_fixed (removed.fixed x)
    have left := tally_filter_not_mem (w := fun x => (p.entry x).nTxSize) (P := fun _ => True)
      t.wired.nodup nodup inside
    simp only [tally_all fun _ _ => trivial] at left
    rw [removed.totalTxSize, t.totalTxSize, sizes, removed.mapTx, left]

/-! ### Fee deltas -/

/-- What `PrioritiseTransaction` does to an entry of the pool. -/
structure Prioritised (hash : UInt256) (nFeeDelta : CAmount) (p p' : CTxMemPool) : Prop where
  mapTx : p'.mapTx = p.mapTx
  parents : p'.parents = p.parents
  children : p'.children = p.children
  mapNextTx : p'.mapNextTx = p.mapNextTx
  totalTxSize : p'.totalTxSize = p.totalTxSize
  mapDeltas : p'.mapDeltas
    = update p.mapDeltas hash (some ((p.mapDeltas hash).getD 0 + nFeeDelta))
  self : (p'.entry hash).fixed
    = ((p.entry hash).updateFeeDelta ((p.mapDeltas hash).getD 0 + nFeeDelta)).fixed
  other : ∀ x ≠ hash, (p'.entry x).fixed = (p.entry x).fixed
  ancestors : ∀ x, (p'.entry x).withAncestors
    = (p.entry x).withAncestors + whenever (p.Below hash x) (0, 0, nFeeDelta, 0)
  descendants : ∀ x ∈ p.mapTx, (p'.entry x).withDescendants
    = (p.entry x).withDescendants + whenever (p.Below x hash) (0, 0, nFeeDelta)
  asserted : p.asserted → (∀ x ∈ p.mapTx, (p.entry x).InRange) → p'.asserted

/-- The first part of `PrioritiseTransaction`: the new delta in `mapDeltas` and in the entry. -/
structure DeltaSet (hash : UInt256) (delta : CAmount) (p q : CTxMemPool) : Prop where
  mapTx : q.mapTx = p.mapTx
  parents : q.parents = p.parents
  children : q.children = p.children
  mapNextTx : q.mapNextTx = p.mapNextTx
  totalTxSize : q.totalTxSize = p.totalTxSize
  mapDeltas : q.mapDeltas = update p.mapDeltas hash (some delta)
  entry : ∀ x, q.entry x = if x = hash then (p.entry x).updateFeeDelta delta else p.entry x
  asserted : q.asserted = p.asserted

theorem modify_deltaSet (hash : UInt256) (delta : CAmount) (p : CTxMemPool) :
    DeltaSet hash delta p (modify
      { p with mapDeltas := update p.mapDeltas hash (some delta) } hash
      (·.updateFeeDelta delta) fun _ => true) where
  mapTx := rfl
  parents := rfl
  children := rfl
  mapNextTx := rfl
  totalTxSize := rfl
  mapDeltas := rfl
  entry x := by
    by_cases same : x = hash
    · simp [modify, same]
    · simp [modify, same]
  asserted := Bool.and_true _

theorem DeltaSet.wired {hash : UInt256} (set : DeltaSet hash delta p q)
    (w : p.Wired) : q.Wired := by
  refine w.of_same set.mapTx (fun _ => ?_) set.parents set.children set.mapNextTx
  rw [set.entry]
  split <;> rfl

theorem withAncestors_updateFeeDelta (e : CTxMemPoolEntry) (delta : CAmount) :
    (e.updateFeeDelta delta).withAncestors = e.withAncestors + (0, 0, delta - e.feeDelta, 0) := by
  simp [withAncestors, updateFeeDelta]

theorem withDescendants_updateFeeDelta (e : CTxMemPoolEntry) (delta : CAmount) :
    (e.updateFeeDelta delta).withDescendants = e.withDescendants + (0, 0, delta - e.feeDelta) := by
  simp [withDescendants, updateFeeDelta]

theorem own_updateFeeDelta :
    (e.updateFeeDelta delta).own = e.own + (0, 0, delta - e.feeDelta, 0) := by
  simp [own, updateFeeDelta, getModifiedFee]

theorem weight_updateFeeDelta :
    (e.updateFeeDelta delta).weight = e.weight + (0, 0, delta - e.feeDelta) := by
  simp [weight, updateFeeDelta, getModifiedFee]

theorem withAncestors_fee :
    (e.updateAncestorState 0 fee 0 0).withAncestors = e.withAncestors + (0, 0, fee, 0) := by
  rfl

private theorem asserted_updateFeeDelta :
    (e.updateFeeDelta delta).descendantsAsserted = e.descendantsAsserted ∧
      (e.updateFeeDelta delta).ancestorsAsserted = e.ancestorsAsserted := ⟨rfl, rfl⟩

private theorem asserted_updateDescendant :
    (e.updateDescendantState 0 fee 0).descendantsAsserted = e.descendantsAsserted ∧
      (e.updateDescendantState 0 fee 0).ancestorsAsserted = e.ancestorsAsserted := by
  simp only [descendantsAsserted, ancestorsAsserted, updateDescendantState, UInt64.add_zero,
    and_self]

private theorem ancestorsAsserted_fee :
    (e.updateAncestorState 0 fee 0 0).ancestorsAsserted = e.ancestorsAsserted := by
  simp only [ancestorsAsserted, updateAncestorState, UInt64.add_zero,
    show (0 : Int32).toInt64 = 0 from rfl, Int64.add_zero]

theorem Tallied.prioritised {hash : UInt256} (t : p.Tallied) (live : hash ∈ p.mapTx)
    (nFeeDelta : CAmount) :
    ∃ p', p.prioritiseTransaction hash nFeeDelta = some p' ∧ Prioritised hash nFeeDelta p p' := by
  unfold prioritiseTransaction
  have change : (p.mapDeltas hash).getD 0 + nFeeDelta - (p.entry hash).feeDelta = nFeeDelta := by
    rw [t.deltas hash live, add_sub_cancel_left]
  generalize total : (p.mapDeltas hash).getD 0 + nFeeDelta = delta at change
  simp only [live, if_true]
  have set := modify_deltaSet hash delta p
  generalize modify { p with mapDeltas := update p.mapDeltas hash (some delta) } hash
    (·.updateFeeDelta delta) (fun _ => true) = q₁ at set
  have w₁ := set.wired t.wired
  obtain ⟨setAncestors, ran₁, above⟩ :=
    calculateAncestors_spec w₁.toWiredUp (set.mapTx ▸ live)
  rw [ran₁]
  simp only [bind_eq_bind, bind_some]
  obtain ⟨q₂, same₂, frame₂, parents₂, children₂, entry₂, asserted₂⟩ := modifyAll_spec
    fun e => e.fixed_updateDescendant 0 nFeeDelta 0
  rw [same₂]
  have w₂ := w₁.of_frame frame₂ parents₂ children₂
  have live₂ : hash ∈ q₂.mapTx := by rw [frame₂.mapTx, set.mapTx]; exact live
  obtain ⟨setDescendants, ran₂, -, -, below⟩ := calculateDescendants_spec w₂ live₂ nodup_nil
    (by simp [BelowClosed])
  rw [ran₂]
  simp only [bind_some]
  obtain ⟨q₃, same₃, frame₃, parents₃, children₃, entry₃, asserted₃⟩ :=
    modifyAll_spec
      fun e => e.fixed_updateAncestor 0 nFeeDelta 0 0
  rw [same₃]
  have links := children₂.trans set.children
  have descendant : ∀ x, x ∈ setDescendants.filter (· ≠ hash) ↔ p.Below hash x ∧ x ≠ hash := by
    intro x
    simp [below, Below, links]
  have ancestor : ∀ x ∈ p.mapTx, (x ∈ setAncestors ↔ p.Below x hash ∧ x ≠ hash) := by
    intro x there
    rw [above, ← t.ancestor_iff live there]
    simp only [Above, set.parents]
  refine ⟨q₃, rfl, ?_⟩
  constructor
  case mapTx => rw [frame₃.mapTx, frame₂.mapTx, set.mapTx]
  case parents => rw [parents₃, parents₂, set.parents]
  case children => rw [children₃, links]
  case mapNextTx => rw [frame₃.mapNextTx, frame₂.mapNextTx, set.mapNextTx]
  case totalTxSize => rw [frame₃.totalTxSize, frame₂.totalTxSize, set.totalTxSize]
  case mapDeltas => rw [frame₃.mapDeltas, frame₂.mapDeltas, set.mapDeltas, total]
  case self => rw [frame₃.fixed, frame₂.fixed, set.entry, if_pos rfl, total]
  case other =>
    intro x other
    rw [frame₃.fixed, frame₂.fixed, set.entry, if_neg other]
  case ancestors =>
    intro x
    have second : (q₂.entry x).withAncestors = (q₁.entry x).withAncestors := by
      rw [entry₂]
      split
      · exact withAncestors_updateDescendant ..
      · rfl
    rw [entry₃]
    by_cases self : x = hash
    · rw [if_neg fun mem => ((descendant x).1 mem).2 self, second, set.entry, if_pos self,
        withAncestors_updateFeeDelta, self, change, whenever_pos .refl]
    by_cases path : p.Below hash x
    · rw [if_pos ((descendant x).2 ⟨path, self⟩), withAncestors_fee, second, set.entry,
        if_neg self, whenever_pos path]
    · rw [if_neg fun mem => path ((descendant x).1 mem).1, second, set.entry, if_neg self,
        whenever_neg path, add_zero]
  case descendants =>
    intro x there
    have third : (q₃.entry x).withDescendants = (q₂.entry x).withDescendants := by
      rw [entry₃]
      split
      · exact withDescendants_updateAncestor ..
      · rfl
    rw [third, entry₂]
    by_cases self : x = hash
    · rw [if_neg fun mem => ((ancestor x there).1 mem).2 self, set.entry, if_pos self,
        withDescendants_updateFeeDelta, self, change, whenever_pos .refl]
    by_cases path : p.Below x hash
    · rw [if_pos ((ancestor x there).2 ⟨path, self⟩),
        withDescendants_updateDescendant, set.entry, if_neg self,
        whenever_pos path]
    · rw [if_neg fun mem => path ((ancestor x there).1 mem).1, set.entry, if_neg self,
        whenever_neg path, add_zero]
  case asserted =>
    intro held ranges
    have above_live : ∀ x ∈ setAncestors, x ∈ p.mapTx := by
      intro x mem
      obtain ⟨a, parent, path⟩ := (above x).1 mem
      have a_live := w₁.parents_live hash (set.mapTx ▸ live) a parent
      exact set.mapTx ▸ ((above_iff_below w₁ a_live).1 path).1
    -- only fees change, of which nothing is asserted
    have same : ∀ x, (q₃.entry x).ancestorsAsserted = (p.entry x).ancestorsAsserted ∧
        (q₂.entry x).descendantsAsserted = (p.entry x).descendantsAsserted := by
      intro x
      rw [entry₃, entry₂, set.entry]
      split_ifs <;> simp only [ancestorsAsserted_fee, asserted_updateDescendant,
        asserted_updateFeeDelta, and_self]
    refine asserted₃ (asserted₂ (set.asserted.trans held) fun x mem => ?_) fun x mem => ?_
    · rw [(same x).2]
      exact (ranges x (above_live x mem)).2
    · rw [(same x).1]
      exact (ranges x (Below.live t.wired live ((descendant x).1 mem).1)).1

theorem Prioritised.kept {hash : UInt256} (set : Prioritised hash nFeeDelta p p') {α : Type}
    (f : CTxMemPoolEntry → α)
    (of_fixed : ∀ e e' : CTxMemPoolEntry, e'.fixed = e.fixed → f e' = f e)
    (of_delta : ∀ (e : CTxMemPoolEntry) delta, f (e.updateFeeDelta delta) = f e) (x : UInt256) :
    f (p'.entry x) = f (p.entry x) := by
  by_cases same : x = hash
  · rw [same, of_fixed _ _ set.self, of_delta]
  · exact of_fixed _ _ (set.other x same)

theorem Tallied.prioritiseTransaction (t : p.Tallied) (hash : UInt256) (nFeeDelta : CAmount) :
    ∃ p', p.prioritiseTransaction hash nFeeDelta = some p' ∧ p'.Tallied ∧ p'.mapTx = p.mapTx ∧
      (∀ x, (p'.entry x).tx = (p.entry x).tx) ∧ p'.parents = p.parents ∧
      p'.mapNextTx = p.mapNextTx := by
  by_cases live : hash ∈ p.mapTx
  swap
  · have ran : p.prioritiseTransaction hash nFeeDelta = some { p with
        mapDeltas := update p.mapDeltas hash (some ((p.mapDeltas hash).getD 0 + nFeeDelta)) } := by
      simp [CTxMemPool.prioritiseTransaction, live]
    refine ⟨_, ran, ⟨t.wired.of_same rfl (fun _ => rfl) rfl rfl rfl, t.acyclic, fun v there => ?_,
      t.standard, t.ancestors, t.descendants, t.totalTxSize⟩, rfl, fun _ => rfl, rfl, rfl⟩
    have other : v ≠ hash := fun same => live (same ▸ there)
    simp [t.deltas v there, update_of_ne other]
  obtain ⟨p', ran, set⟩ := t.prioritised live nFeeDelta
  have change : (p.mapDeltas hash).getD 0 + nFeeDelta - (p.entry hash).feeDelta = nFeeDelta := by
    rw [t.deltas hash live, add_sub_cancel_left]
  have own_change : (p'.entry hash).own - (p.entry hash).own = (0, 0, nFeeDelta, 0) := by
    rw [own_of_fixed set.self, own_updateFeeDelta, change, add_sub_cancel_left]
  have weight_change : (p'.entry hash).weight - (p.entry hash).weight = (0, 0, nFeeDelta) := by
    rw [weight_of_fixed set.self, weight_updateFeeDelta, change, add_sub_cancel_left]
  have tx := set.kept (·.tx) (fun _ _ => tx_of_fixed) fun _ _ => rfl
  have below : p'.Below = p.Below := by
    unfold Below
    rw [set.children]
  refine ⟨p', ran, ?_, set.mapTx, tx, set.parents, set.mapNextTx⟩
  constructor
  case wired => exact t.wired.of_same set.mapTx tx set.parents set.children set.mapNextTx
  case acyclic =>
    rw [set.mapTx, set.parents, below]
    exact t.acyclic
  case deltas =>
    intro v there
    rw [set.mapTx] at there
    rw [set.mapDeltas]
    by_cases same : v = hash
    · rw [same, update_self]
      exact congrArg (fun f => f.2.2.2.2.2.2) set.self
    · rw [update_of_ne same, ← t.deltas v there]
      exact congrArg (fun f => f.2.2.2.2.2.2) (set.other v same)
  case standard =>
    intro v there
    rw [set.mapTx] at there
    unfold CTxMemPoolEntry.SigOpsStandard
    rw [set.kept (·.sigOpCost) (fun _ _ => sigOpCost_of_fixed) fun _ _ => rfl]
    exact t.standard v there
  case ancestors =>
    intro v there
    rw [set.mapTx] at there ⊢
    have changed : tally p.mapTx (fun a => (p'.entry a).own) (p.Below · v)
        = tally p.mapTx (fun a => (p.entry a).own) (p.Below · v)
          + whenever (p.Below hash v) ((p'.entry hash).own - (p.entry hash).own) :=
      tally_update t.wired.nodup live fun a _ other => own_of_fixed (set.other a other)
    rw [below, changed, own_change, set.ancestors, t.ancestors v there]
  case descendants =>
    intro a there
    rw [set.mapTx] at there ⊢
    have changed : tally p.mapTx (fun v => (p'.entry v).weight) (p.Below a)
        = tally p.mapTx (fun v => (p.entry v).weight) (p.Below a)
          + whenever (p.Below a hash) ((p'.entry hash).weight - (p.entry hash).weight) :=
      tally_update t.wired.nodup live fun v _ other => weight_of_fixed (set.other v other)
    rw [below, changed, weight_change, set.descendants a there, t.descendants a there]
  case totalTxSize =>
    rw [set.totalTxSize, set.mapTx, t.totalTxSize]
    refine congrArg sum (map_congr_left fun x _ => ?_)
    exact (set.kept (·.nTxSize) (fun _ _ => nTxSize_of_fixed) (fun _ _ => rfl) x).symm

end CTxMemPool

end DogecoinCore
