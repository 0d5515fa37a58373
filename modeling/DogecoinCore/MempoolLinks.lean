import DogecoinCore.Mempool
import DogecoinCore.Tally
import Mathlib.Algebra.Group.Prod

/-! What the operations of the pool do to its entries and links: closed forms of the
loops, the shape every operation keeps, and the effect of adding an entry and of
removing a staged set. -/
namespace DogecoinCore
open Function List CTxMemPoolEntry Worklist

namespace CTxMemPoolEntry
variable (e : CTxMemPoolEntry)

def fixed : CTransaction × CAmount × Int64 × Bool × Int64 × UInt64 × Int64 :=
  (e.tx, e.nFee, e.nTime, e.spendsCoinbase, e.sigOpCost, e.nTxSize, e.feeDelta)

@[simp] theorem fixed_updateDescendant (size : UInt64) (fee : CAmount) (count : UInt64) :
    (e.updateDescendantState size fee count).fixed = e.fixed := rfl

@[simp] theorem fixed_updateAncestor (size : UInt64) (fee : CAmount) (count : UInt64)
    (sigOps : Int32) : (e.updateAncestorState size fee count sigOps).fixed = e.fixed := rfl

/-- What the entry adds to its descendants' totals: count, size, fees and sigops. -/
def own : UInt64 × UInt64 × CAmount × Int64 := (1, e.nTxSize, e.getModifiedFee, e.sigOpCost)

def shed : UInt64 × UInt64 × CAmount × Int64 :=
  (-1, -e.nTxSize, -e.getModifiedFee, (-e.sigOpCost).toInt32.toInt64)

def withAncestors : UInt64 × UInt64 × CAmount × Int64 :=
  (e.nCountWithAncestors, e.nSizeWithAncestors, e.nModFeesWithAncestors, e.nSigOpCostWithAncestors)

/-- What the entry adds to its ancestors' totals: count, size and fees. -/
def weight : UInt64 × UInt64 × CAmount := (1, e.nTxSize, e.getModifiedFee)

def withDescendants : UInt64 × UInt64 × CAmount :=
  (e.nCountWithDescendants, e.nSizeWithDescendants, e.nModFeesWithDescendants)

@[simp] theorem withAncestors_updateAncestor (size : UInt64) (fee : CAmount) (count : UInt64)
    (sigOps : Int32) : (e.updateAncestorState size fee count sigOps).withAncestors
      = e.withAncestors + (count, size, fee, sigOps.toInt64) := rfl

@[simp] theorem withDescendants_updateAncestor (size : UInt64) (fee : CAmount)
    (count : UInt64) (sigOps : Int32) :
    (e.updateAncestorState size fee count sigOps).withDescendants = e.withDescendants := rfl

@[simp] theorem withDescendants_updateDescendant (size : UInt64) (fee : CAmount)
    (count : UInt64) : (e.updateDescendantState size fee count).withDescendants
      = e.withDescendants + (count, size, fee) := rfl

@[simp] theorem withAncestors_updateDescendant (size : UInt64) (fee : CAmount)
    (count : UInt64) :
    (e.updateDescendantState size fee count).withAncestors = e.withAncestors := rfl

variable (t : CTxMemPoolEntry)

theorem withAncestors_shed : (e.updateAncestorState (-t.nTxSize) (-t.getModifiedFee) (-1)
      (-t.sigOpCost).toInt32).withAncestors = e.withAncestors + t.shed := by
  rw [withAncestors_updateAncestor, shed]

theorem withDescendants_sub_weight :
    (e.updateDescendantState (-t.nTxSize) (-t.getModifiedFee) (-1)).withDescendants
      = e.withDescendants - t.weight := by
  rw [withDescendants_updateDescendant, weight, sub_eq_add_neg]
  congr 1

theorem withDescendants_add_weight :
    (e.updateDescendantState t.nTxSize t.getModifiedFee 1).withDescendants
      = e.withDescendants + t.weight := by
  rw [withDescendants_updateDescendant, weight]

def withDelta (e : CTxMemPoolEntry) (delta : Option CAmount) : CTxMemPoolEntry :=
  match delta with
  | none => e
  | some delta => if delta ≠ 0 then e.updateFeeDelta delta else e

@[simp] theorem withDelta_tx : (e.withDelta delta).tx = e.tx := by
  cases delta with
  | none => rfl
  | some d =>
    simp only [withDelta]
    split <;> rfl

variable {e} {e' : CTxMemPoolEntry}

section
variable (same : e'.fixed = e.fixed)
include same

theorem tx_of_fixed : e'.tx = e.tx := congrArg Prod.fst same

theorem nTxSize_of_fixed : e'.nTxSize = e.nTxSize := congrArg (fun f => f.2.2.2.2.2.1) same

theorem getModifiedFee_of_fixed : e'.getModifiedFee = e.getModifiedFee :=
  congrArg (fun f => f.2.1 + f.2.2.2.2.2.2) same

theorem sigOpCost_of_fixed : e'.sigOpCost = e.sigOpCost := congrArg (fun f => f.2.2.2.2.1) same

theorem weight_of_fixed : e'.weight = e.weight :=
  congrArg (fun f => ((1 : UInt64), f.2.2.2.2.2.1, f.2.1 + f.2.2.2.2.2.2)) same

theorem own_of_fixed : e'.own = e.own :=
  congrArg (fun f => ((1 : UInt64), f.2.2.2.2.2.1, f.2.1 + f.2.2.2.2.2.2, f.2.2.2.2.1)) same

theorem shed_of_fixed : e'.shed = e.shed :=
  congrArg (fun f => (-(1 : UInt64), -f.2.2.2.2.2.1, -(f.2.1 + f.2.2.2.2.2.2),
    (-f.2.2.2.2.1).toInt32.toInt64)) same

end

end CTxMemPoolEntry

namespace CTxMemPool
variable {p p' : CTxMemPool} {it a v x : UInt256} {s l stage : List UInt256} {add : Bool}

/-! ### Closed forms of the loops -/

theorem mem_putLink : x ∈ putLink add it s ↔ if add then x = it ∨ x ∈ s else x ∈ s ∧ x ≠ it := by
  cases add <;> simp [putLink]

theorem nodup_putLink (nodup : s.Nodup) : (putLink add it s).Nodup := by
  cases add
  · exact nodup.filter _
  · exact nodup.insert

theorem putLink_putLink : putLink add it (putLink add it s) = putLink add it s := by
  cases add
  · simp [putLink]
  · simp [putLink, insert_of_mem]

theorem nodup_ite_putLink [Decidable c] (nodup : s.Nodup) :
    (if c then putLink add it s else s).Nodup := by
  split
  · exact nodup_putLink nodup
  · exact nodup

theorem mem_ite_putLink [Decidable c] :
    x ∈ (if c then putLink false it s else s) ↔ x ∈ s ∧ ¬ (x = it ∧ c) := by
  by_cases taken : c
  · simp [mem_putLink, taken]
  · simp [taken]

private theorem ite_putLink_cons :
    (fun x => if x ∈ l then putLink add it (Function.update f a (putLink add it (f a)) x)
      else Function.update f a (putLink add it (f a)) x)
      = fun x => if x ∈ a :: l then putLink add it (f x) else f x := by
  funext x
  by_cases here : x = a
  · subst here
    by_cases later : x ∈ l <;> simp [later, putLink_putLink]
  · simp [here]

theorem foldl_updateChild : l.foldl (updateChild add it) p
      = { p with children := fun x => if x ∈ l then putLink add it (p.children x)
          else p.children x } := by
  induction l generalizing p with
  | nil => simp
  | cons _ l ih =>
    rw [foldl_cons, ih]
    simp [updateChild, ite_putLink_cons]

theorem foldl_updateParent : l.foldl (updateParent add it) p
      = { p with parents := fun x => if x ∈ l then putLink add it (p.parents x)
          else p.parents x } := by
  induction l generalizing p with
  | nil => simp
  | cons _ l ih =>
    rw [foldl_cons, ih]
    simp [updateParent, ite_putLink_cons]

theorem foldl_addParents (hash : UInt256) (l : List UInt256) (p : CTxMemPool) :
    l.foldl (fun p phash => p.updateParent true phash hash) p = { p with
          parents :=
            Function.update p.parents hash (l.foldl (fun s a => s.insert a) (p.parents hash)) } := by
  induction l generalizing p with
  | nil => simp
  | cons a l ih =>
    rw [foldl_cons, ih]
    simp [updateParent, putLink]

theorem foldl_addChildren {hash : UInt256} {l : List UInt256} {p : CTxMemPool} :
    l.foldl (fun p c => (p.updateChild true c hash).updateParent true hash c) p = { p with
          children := Function.update p.children hash
            (l.foldl (fun s c => s.insert c) (p.children hash))
          parents := fun x => if x ∈ l then putLink true hash (p.parents x) else p.parents x } := by
  induction l generalizing p with
  | nil => simp
  | cons _ l ih =>
    rw [foldl_cons, ih]
    simp only [updateParent, updateChild, ite_putLink_cons]
    simp [putLink]

/-! ### Walks along the links -/

structure WiredUp (p : CTxMemPool) : Prop where
  key : ∀ t ∈ p.mapTx, (p.entry t).tx.hash = t
  parents_live : ∀ v ∈ p.mapTx, ∀ a ∈ p.parents v, a ∈ p.mapTx
  parents_nodup : ∀ v ∈ p.mapTx, (p.parents v).Nodup

structure Wired (p : CTxMemPool) : Prop extends WiredUp p where
  nodup : p.mapTx.Nodup
  children_live : ∀ a ∈ p.mapTx, ∀ v ∈ p.children a, v ∈ p.mapTx
  linked : ∀ a ∈ p.mapTx, ∀ v ∈ p.mapTx, (v ∈ p.children a ↔ a ∈ p.parents v)
  children_nodup : ∀ a ∈ p.mapTx, (p.children a).Nodup
  next_live : ∀ s ∈ p.mapNextTx, s.2 ∈ p.mapTx ∧ ∃ i ∈ (p.entry s.2).tx.vin, i.prevout = s.1

def Below (p : CTxMemPool) : UInt256 → UInt256 → Prop :=
  Relation.ReflTransGen fun a v => v ∈ p.children a

def Above (p : CTxMemPool) : UInt256 → UInt256 → Prop :=
  Relation.ReflTransGen fun v a => a ∈ p.parents v

theorem Below.live (w : p.Wired) (live : a ∈ p.mapTx) (path : p.Below a v) : v ∈ p.mapTx := by
  induction path with
  | refl => exact live
  | tail _ edge ih => exact w.children_live _ ih _ edge

def BelowClosed (p : CTxMemPool) (s : List UInt256) : Prop := ∀ a ∈ s, ∀ v ∈ p.children a, v ∈ s

theorem BelowClosed.below (closed : p.BelowClosed s) (mem : a ∈ s) (path : p.Below a v) :
    v ∈ s := by
  induction path with
  | refl => exact mem
  | tail _ edge ih => exact closed _ ih _ edge

theorem calculateDescendants_spec (w : p.Wired) (live : it ∈ p.mapTx) (nodup : s.Nodup)
    (closed : p.BelowClosed s) :
    ∃ r, p.calculateDescendants it s = some r ∧ r.Nodup ∧ p.BelowClosed r ∧
      ∀ x, x ∈ r ↔ x ∈ s ∨ p.Below it x := by
  unfold calculateDescendants
  by_cases known : it ∈ s
  · rw [if_pos known]
    refine ⟨s, rfl, nodup, closed, fun x => ⟨.inl, ?_⟩⟩
    rintro (mem | path)
    · exact mem
    · exact closed.below known path
  rw [if_neg known]
  obtain ⟨_, ran⟩ :=
      walk_ends w.children_live (by simpa using live) (nodup_singleton it) (Nat.lt_succ_self _)
  obtain ⟨r, rfl⟩ := walk_allowed (fun _ _ _ => rfl) ran
  have members := mem_walk_iff closed ran
  refine ⟨r, by rw [ran]; rfl, walk_nodup nodup ran, ?_, ?_⟩
  · intro y mem c edge
    rw [members] at mem ⊢
    rcases mem with old | ⟨x, here, path⟩
    · exact .inl (closed y old c edge)
    · exact .inr ⟨x, here, path.tail edge⟩
  intro x
  rw [members]
  simp [Below]

theorem calculateAllDescendants_spec (w : p.Wired) (live : ∀ it ∈ l, it ∈ p.mapTx) (nodup : s.Nodup)
    (closed : p.BelowClosed s) :
    ∃ r, p.calculateAllDescendants l s = some r ∧ r.Nodup ∧ p.BelowClosed r ∧
      ∀ x, x ∈ r ↔ x ∈ s ∨ ∃ it ∈ l, p.Below it x := by
  induction l generalizing s with
  | nil => exact ⟨s, rfl, nodup, closed, by simp⟩
  | cons it l ih =>
    obtain ⟨r, ran, nodup', closed', members⟩ :=
      calculateDescendants_spec w (live it mem_cons_self) nodup closed
    obtain ⟨r', ran', nodup'', closed'', members'⟩ :=
      ih (fun it' later => live it' (mem_cons_of_mem it later)) nodup' closed'
    refine ⟨r', ?_, nodup'', closed'', fun x => ?_⟩
    · rw [calculateAllDescendants, foldlM_cons, ran]
      exact ran'
    · rw [members', members]
      simp [or_assoc]

theorem not_gt_nNoLimit {n : UInt64} : ¬ n > 0xffffffffffffffff := by
  intro above
  have below := n.toNat_lt
  have max : (0xffffffffffffffff : UInt64).toNat = 2 ^ 64 - 1 := rfl
  have := UInt64.lt_iff_toNat_lt.1 above
  omega

theorem withinLimits_nNoLimit {e : CTxMemPoolEntry} {stageit : UInt256} {stage done : List UInt256} :
    p.withinLimits .nNoLimit e stageit stage done := by
  simp [withinLimits, AncestorLimits.nNoLimit, not_gt_nNoLimit]

theorem calculateAncestors_spec (w : p.WiredUp) (live : it ∈ p.mapTx) :
    ∃ r, p.calculateMemPoolAncestors .nNoLimit (p.entry it) false = some (some r) ∧
      ∀ x, x ∈ r ↔ ∃ a ∈ p.parents it, p.Above a x := by
  simp only [calculateMemPoolAncestors, Bool.false_eq_true, if_false, w.key it live]
  obtain ⟨_, ran⟩ :=
      walk_ends w.parents_live (w.parents_live it live) (w.parents_nodup it live) (Nat.lt_succ_self _)
  obtain ⟨r, rfl⟩ := walk_allowed (fun x _ _ => withinLimits_nNoLimit) ran
  refine ⟨r, ran, fun x => ?_⟩
  rw [mem_walk_iff (by simp) ran]
  simp [Above]

/-! ### Removal of a staged set -/

structure Frame (p p' : CTxMemPool) : Prop where
  mapTx : p'.mapTx = p.mapTx
  mapNextTx : p'.mapNextTx = p.mapNextTx
  mapDeltas : p'.mapDeltas = p.mapDeltas
  vTxHashes : p'.vTxHashes = p.vTxHashes
  vTxHashesIdx : p'.vTxHashesIdx = p.vTxHashesIdx
  totalTxSize : p'.totalTxSize = p.totalTxSize
  fixed : ∀ x, (p'.entry x).fixed = (p.entry x).fixed

theorem Frame.refl (p : CTxMemPool) : Frame p p := ⟨rfl, rfl, rfl, rfl, rfl, rfl, fun _ => rfl⟩

theorem Frame.trans (first : Frame p₁ p₂) (second : Frame p₂ p₃) : Frame p₁ p₃ where
  mapTx := second.mapTx.trans first.mapTx
  mapNextTx := second.mapNextTx.trans first.mapNextTx
  mapDeltas := second.mapDeltas.trans first.mapDeltas
  vTxHashes := second.vTxHashes.trans first.vTxHashes
  vTxHashesIdx := second.vTxHashesIdx.trans first.vTxHashesIdx
  totalTxSize := second.totalTxSize.trans first.totalTxSize
  fixed x := (second.fixed x).trans (first.fixed x)

variable {check : CTxMemPoolEntry → Bool}

section
variable (f : CTxMemPoolEntry → CTxMemPoolEntry)
include f

theorem modifyAll_entry (x : UInt256) :
    (p.modifyAll s f check).entry x = if x ∈ s then f (p.entry x) else p.entry x := rfl

@[simp] theorem modifyAll_parents : (p.modifyAll s f check).parents = p.parents := rfl
@[simp] theorem modifyAll_children : (p.modifyAll s f check).children = p.children := rfl

theorem modifyAll_asserted (held : p.asserted)
    (new : ∀ x ∈ s, check ((p.modifyAll s f check).entry x)) :
    (p.modifyAll s f check).asserted := by
  refine Bool.and_eq_true_iff.2 ⟨held, all_eq_true.2 fun x mem => ?_⟩
  have := new x mem
  rwa [modifyAll_entry, if_pos mem] at this

end

variable {f : CTxMemPoolEntry → CTxMemPoolEntry} {hash : UInt256}

theorem modifyAll_frame (keeps : ∀ e, (f e).fixed = e.fixed) : Frame p (p.modifyAll s f check) := by
  refine ⟨rfl, rfl, rfl, rfl, rfl, rfl, fun _ => ?_⟩
  simp only [modifyAll]
  split
  · exact keeps _
  · rfl

theorem modifyAll_spec (keeps : ∀ e, (f e).fixed = e.fixed) :
    ∃ q, p.modifyAll s f check = q ∧ Frame p q ∧ q.parents = p.parents ∧ q.children = p.children ∧
      (∀ x, q.entry x = if x ∈ s then f (p.entry x) else p.entry x) ∧
      (p.asserted → (∀ x ∈ s, check (q.entry x)) → q.asserted) :=
  ⟨_, rfl, modifyAll_frame keeps, modifyAll_parents f, modifyAll_children f, modifyAll_entry f,
    modifyAll_asserted f⟩

theorem WiredUp.of_frame (w : p.WiredUp) (frame : Frame p p') (parents : p'.parents = p.parents) :
    p'.WiredUp where
  key t live := by
    rw [tx_of_fixed (frame.fixed t)]
    exact w.key t (frame.mapTx ▸ live)
  parents_live := by rw [parents, frame.mapTx]; exact w.parents_live
  parents_nodup := by rw [parents, frame.mapTx]; exact w.parents_nodup

theorem Wired.of_same (w : p.Wired) (mapTx : p'.mapTx = p.mapTx)
    (tx : ∀ x, (p'.entry x).tx = (p.entry x).tx) (parents : p'.parents = p.parents)
    (children : p'.children = p.children) (next : p'.mapNextTx = p.mapNextTx) : p'.Wired where
  key t live := by rw [tx]; exact w.key t (mapTx ▸ live)
  parents_live := by rw [parents, mapTx]; exact w.parents_live
  parents_nodup := by rw [parents, mapTx]; exact w.parents_nodup
  nodup := mapTx ▸ w.nodup
  children_live := by rw [children, mapTx]; exact w.children_live
  linked := by rw [parents, children, mapTx]; exact w.linked
  children_nodup := by rw [children, mapTx]; exact w.children_nodup
  next_live := by
    rw [next, mapTx]
    simp only [tx]
    exact w.next_live

theorem Wired.of_frame (w : p.Wired) (frame : Frame p p') (parents : p'.parents = p.parents)
    (children : p'.children = p.children) : p'.Wired :=
  w.of_same frame.mapTx (fun x => tx_of_fixed (frame.fixed x)) parents children frame.mapNextTx

private theorem updateDescendantsForRemoval_spec (w : p.Wired) (live : it ∈ p.mapTx) :
    ∃ p', p.updateDescendantsForRemoval it = some p' ∧ Frame p p' ∧
      p'.parents = p.parents ∧ p'.children = p.children ∧
      ∀ x, (p'.entry x).withDescendants = (p.entry x).withDescendants ∧
        (p'.entry x).withAncestors = (p.entry x).withAncestors
          + whenever (p.Below it x ∧ x ≠ it) (p.entry it).shed := by
  obtain ⟨r, ran, -, -, members⟩ := calculateDescendants_spec w live nodup_nil
    (by simp [BelowClosed])
  have mem : ∀ x, x ∈ r.filter (· ≠ it) ↔ p.Below it x ∧ x ≠ it := by simp [members]
  simp only [updateDescendantsForRemoval, ran, Option.bind_eq_bind, Option.bind_some]
  refine ⟨_, rfl, modifyAll_frame fun _ => fixed_updateAncestor ..,
    modifyAll_parents _, modifyAll_children _, fun x => ?_⟩
  rw [modifyAll_entry]
  by_cases below : p.Below it x ∧ x ≠ it
  · rw [if_pos ((mem x).2 below), whenever_pos below,
      withDescendants_updateAncestor, withAncestors_shed]
    exact ⟨rfl, rfl⟩
  · rw [if_neg (below ∘ (mem x).1), whenever_neg below, add_zero]
    exact ⟨rfl, rfl⟩

theorem foldlM_updateDescendantsForRemoval (w : p.Wired) (live : ∀ it ∈ l, it ∈ p.mapTx) :
    ∃ p', l.foldlM updateDescendantsForRemoval p = some p' ∧ Frame p p' ∧
      p'.parents = p.parents ∧ p'.children = p.children ∧
      ∀ x, (p'.entry x).withDescendants = (p.entry x).withDescendants ∧
        (p'.entry x).withAncestors = (p.entry x).withAncestors
          + (l.map fun t => whenever (p.Below t x ∧ x ≠ t) (p.entry t).shed).sum := by
  induction l generalizing p with
  | nil => exact ⟨p, rfl, .refl p, rfl, rfl, by simp⟩
  | cons it l ih =>
    obtain ⟨q, step, frame, parents, children, here⟩ :=
      updateDescendantsForRemoval_spec w (live it mem_cons_self)
    obtain ⟨p', rest, frame', parents', children', totals⟩ :=
      ih (w.of_frame frame parents children)
        fun it' later => frame.mapTx ▸ live it' (mem_cons_of_mem it later)
    refine ⟨p', by rw [foldlM_cons, step]; exact rest, frame.trans frame',
      parents'.trans parents, children'.trans children, fun x => ?_⟩
    have later : (l.map fun t => whenever (q.Below t x ∧ x ≠ t) (q.entry t).shed)
        = l.map fun t => whenever (p.Below t x ∧ x ≠ t) (p.entry t).shed := by
      refine map_congr_left fun t _ => ?_
      rw [shed_of_fixed (frame.fixed t), Below, Below, children]
    rw [(totals x).1, (totals x).2, (here x).1, (here x).2, later, map_cons, sum_cons, add_assoc]
    exact ⟨rfl, rfl⟩

theorem updateAncestorsForRemoval_spec (w : p.WiredUp) (live : it ∈ p.mapTx) :
    ∃ p', p.updateAncestorsForRemoval it = some p' ∧ Frame p p' ∧ p'.parents = p.parents ∧
      (∀ a, p'.children a
        = if a ∈ p.parents it then putLink false it (p.children a) else p.children a) ∧
      ∀ x, (p'.entry x).withAncestors = (p.entry x).withAncestors ∧
        (p'.entry x).withDescendants = (p.entry x).withDescendants
          - whenever (∃ a ∈ p.parents it, p.Above a x) (p.entry it).weight := by
  obtain ⟨_, ran, members⟩ := calculateAncestors_spec w live
  simp only [updateAncestorsForRemoval, ran, updateAncestorsOf, foldl_updateChild,
    Bool.false_eq_true, if_false, Option.bind_eq_bind, Option.bind_some]
  refine ⟨_, rfl, ?_, modifyAll_parents _, fun a => congrFun (modifyAll_children _) a, fun x => ?_⟩
  · refine Frame.trans (?_ : Frame p { p with children := _ })
      (modifyAll_frame fun _ => fixed_updateDescendant ..)
    exact ⟨rfl, rfl, rfl, rfl, rfl, rfl, fun _ => rfl⟩
  rw [modifyAll_entry]
  by_cases above : ∃ a ∈ p.parents it, p.Above a x
  · rw [if_pos ((members x).2 above), whenever_pos above, withAncestors_updateDescendant,
      withDescendants_sub_weight]
    exact ⟨rfl, rfl⟩
  · rw [if_neg (above ∘ (members x).1), whenever_neg above, sub_zero]
    exact ⟨rfl, rfl⟩

theorem weights_of_frame (frame : Frame p p') (parents : p'.parents = p.parents) (x : UInt256) :
    (l.map fun t => whenever (∃ a ∈ p'.parents t, p'.Above a x) (p'.entry t).weight)
      = l.map fun t => whenever (∃ a ∈ p.parents t, p.Above a x) (p.entry t).weight := by
  refine map_congr_left fun t _ => ?_
  rw [weight_of_fixed (frame.fixed t)]
  simp [Above, parents]

theorem foldlM_updateAncestorsForRemoval (w : p.WiredUp) (live : ∀ it ∈ l, it ∈ p.mapTx) :
    ∃ p', l.foldlM updateAncestorsForRemoval p = some p' ∧ Frame p p' ∧ p'.parents = p.parents ∧
      (∀ a v, v ∈ p'.children a ↔ v ∈ p.children a ∧ ¬ (v ∈ l ∧ a ∈ p.parents v)) ∧
      (∀ a, (p.children a).Nodup → (p'.children a).Nodup) ∧
      ∀ x, (p'.entry x).withAncestors = (p.entry x).withAncestors ∧
        (p'.entry x).withDescendants = (p.entry x).withDescendants
          - (l.map fun t => whenever (∃ a ∈ p.parents t, p.Above a x) (p.entry t).weight).sum := by
  induction l generalizing p with
  | nil => exact ⟨p, rfl, .refl p, rfl, by simp, fun _ => id, by simp⟩
  | cons it l ih =>
    obtain ⟨_, step, frame, parents, children, here⟩ :=
      updateAncestorsForRemoval_spec w (live it mem_cons_self)
    obtain ⟨p', rest, frame', parents', children', nodup', totals⟩ :=
      ih (w.of_frame frame parents)
        fun it' later => frame.mapTx ▸ live it' (mem_cons_of_mem it later)
    refine ⟨p', by rw [foldlM_cons, step]; exact rest, frame.trans frame',
      parents'.trans parents, fun a v => ?_, fun a nodup => nodup' a ?_, fun x => ?_⟩
    · rw [children', children, parents, mem_cons, mem_ite_putLink]
      grind
    · rw [children]
      exact nodup_ite_putLink nodup
    rw [(totals x).1, (totals x).2, (here x).1, (here x).2, weights_of_frame frame parents, map_cons,
      sum_cons, sub_sub]
    exact ⟨rfl, rfl⟩

theorem foldl_updateChildrenForRemoval (l : List UInt256) (p : CTxMemPool) :
    ∃ parents, l.foldl updateChildrenForRemoval p = { p with parents := parents } ∧
      (∀ v a, a ∈ parents v ↔ a ∈ p.parents v ∧ ¬ (a ∈ l ∧ v ∈ p.children a)) ∧
      ∀ v, (p.parents v).Nodup → (parents v).Nodup := by
  induction l generalizing p with
  | nil => exact ⟨p.parents, rfl, by simp, fun _ => id⟩
  | cons it l ih =>
    rw [foldl_cons, updateChildrenForRemoval, foldl_updateParent]
    obtain ⟨parents, folded, members, nodup⟩ := ih { p with
        parents := fun x => if x ∈ p.children it then putLink false it (p.parents x)
          else p.parents x }
    refine ⟨parents, folded, fun v a => ?_, fun v unique => nodup v ?_⟩
    · rw [members, mem_cons, mem_ite_putLink]
      grind
    exact nodup_ite_putLink unique

/-- The loop over `removeUnchecked`, apart from the vector of hashes. -/
structure Unchecked (l : List UInt256) (p p' : CTxMemPool) : Prop where
  mapTx : p'.mapTx = p.mapTx.filter (· ∉ l)
  entry : p'.entry = p.entry
  next : ∀ s, s ∈ p'.mapNextTx ↔
    s ∈ p.mapNextTx ∧ ∀ x ∈ l, ∀ i ∈ (p.entry x).tx.vin, i.prevout ≠ s.1
  parents : ∀ v ∉ l, p'.parents v = p.parents v
  children : ∀ a ∉ l, p'.children a = p.children a
  mapDeltas : p'.mapDeltas = p.mapDeltas
  totalTxSize : p'.totalTxSize = p.totalTxSize - (l.map fun x => (p.entry x).nTxSize).sum
  asserted : p'.asserted = p.asserted

theorem removeUnchecked_spec (it : UInt256) (p : CTxMemPool) :
    Unchecked [it] p (p.removeUnchecked it) := by
  have shape : ∃ vTxHashes vTxHashesIdx, p.removeUnchecked it = { p with
        vTxHashes := vTxHashes
        vTxHashesIdx := vTxHashesIdx
        mapNextTx := p.mapNextTx.filter fun s => !(p.entry it).tx.vin.any (·.prevout = s.1)
        totalTxSize := p.totalTxSize - (p.entry it).nTxSize
        parents := Function.update p.parents it []
        children := Function.update p.children it []
        mapTx := p.mapTx.filter (· ≠ it) } := by
    unfold removeUnchecked
    cases p.vTxHashes.getLast? with
    | none => exact ⟨_, _, rfl⟩
    | some _ =>
      by_cases several : p.vTxHashes.length > 1
      · simp only [several, if_true]
        exact ⟨_, _, rfl⟩
      · simp only [several, if_false]
        exact ⟨_, _, rfl⟩
  obtain ⟨vTxHashes, vTxHashesIdx, eq⟩ := shape
  rw [eq]
  refine ⟨by simp, rfl, fun s => ?_, fun _ other => ?_, fun _ other => ?_, rfl, by simp, rfl⟩
  · simp
  · exact update_of_ne (by simpa using other) _ _
  · exact update_of_ne (by simpa using other) _ _

theorem foldl_removeUnchecked (l : List UInt256) (p : CTxMemPool) :
    Unchecked l p (l.foldl removeUnchecked p) := by
  induction l generalizing p with
  | nil => exact ⟨by simp, rfl, by simp, fun _ _ => rfl, fun _ _ => rfl, rfl, by simp, rfl⟩
  | cons it l ih =>
    have first := removeUnchecked_spec it p
    have rest := ih (p.removeUnchecked it)
    rw [foldl_cons]
    refine ⟨?_, rest.entry.trans first.entry, fun _ => ?_, fun v other => ?_, fun a other => ?_,
      rest.mapDeltas.trans first.mapDeltas, ?_, rest.asserted.trans first.asserted⟩
    · rw [rest.mapTx, first.mapTx, filter_filter]
      refine filter_congr fun _ _ => ?_
      simp [Bool.and_comm]
    · rw [rest.next, first.next, first.entry]
      simp [and_assoc]
    · rw [rest.parents v (fun later => other (mem_cons_of_mem it later)),
        first.parents v (fun here => other (by simp at here; simp [here]))]
    · rw [rest.children a (fun later => other (mem_cons_of_mem it later)),
        first.children a (fun here => other (by simp at here; simp [here]))]
    · rw [rest.totalTxSize, first.totalTxSize, first.entry, map_cons, map_cons,
        map_nil, sum_cons, sum_cons, sum_nil, add_zero, sub_sub]

/-- What `RemoveStaged` does: the entries of the stage go with their links and outpoints, and their
weight leaves the totals of those above them and, if asked for, of those below. -/
structure Removed (stage : List UInt256) (updateDescendants : Bool) (p p' : CTxMemPool) :
    Prop where
  mapTx : p'.mapTx = p.mapTx.filter (· ∉ stage)
  fixed : ∀ x, (p'.entry x).fixed = (p.entry x).fixed
  next : ∀ s, s ∈ p'.mapNextTx ↔
    s ∈ p.mapNextTx ∧ ∀ x ∈ stage, ∀ i ∈ (p.entry x).tx.vin, i.prevout ≠ s.1
  parents : ∀ v ∈ p'.mapTx, ∀ a, a ∈ p'.parents v ↔ a ∈ p.parents v ∧ a ∉ stage
  children : ∀ a ∈ p'.mapTx, ∀ v, v ∈ p'.children a ↔ v ∈ p.children a ∧ v ∉ stage
  parents_nodup : ∀ v ∈ p'.mapTx, (p'.parents v).Nodup
  children_nodup : ∀ a ∈ p'.mapTx, (p'.children a).Nodup
  mapDeltas : p'.mapDeltas = p.mapDeltas
  totalTxSize : p'.totalTxSize = p.totalTxSize - (stage.map fun x => (p.entry x).nTxSize).sum
  descendants : ∀ x, (p'.entry x).withDescendants = (p.entry x).withDescendants
    - (stage.map fun t => whenever (∃ a ∈ p.parents t, p.Above a x) (p.entry t).weight).sum
  ancestors : ∀ x, (p'.entry x).withAncestors = (p.entry x).withAncestors
    + whenever (updateDescendants = true)
        (stage.map fun t => whenever (p.Below t x ∧ x ≠ t) (p.entry t).shed).sum

theorem Removed.mem (removed : Removed stage add p p') :
    x ∈ p'.mapTx ↔ x ∈ p.mapTx ∧ x ∉ stage := by
  rw [removed.mapTx, mem_filter]
  simp

section
variable (w : p.Wired)
include w

section
variable (live : ∀ it ∈ stage, it ∈ p.mapTx)
include live

theorem removeDescendants_spec (updateDescendants : Bool) :
    ∃ q, p.updateAllDescendantsForRemoval stage updateDescendants = some q ∧ Frame p q ∧
      q.parents = p.parents ∧ q.children = p.children ∧
      ∀ x, (q.entry x).withDescendants = (p.entry x).withDescendants ∧
        (q.entry x).withAncestors = (p.entry x).withAncestors + whenever (updateDescendants)
              (stage.map fun t => whenever (p.Below t x ∧ x ≠ t) (p.entry t).shed).sum := by
  cases updateDescendants with
  | false =>
    refine ⟨p, rfl, .refl p, rfl, rfl, fun x => ⟨rfl, ?_⟩⟩
    rw [whenever_neg (by simp), add_zero]
  | true =>
    simp only [updateAllDescendantsForRemoval, if_true, whenever_pos]
    exact foldlM_updateDescendantsForRemoval w live

theorem updateForRemove_spec (updateDescendants : Bool) :
    ∃ q, p.updateForRemoveFromMempool stage updateDescendants = some q ∧ Frame p q ∧
      (∀ v a, v ∉ stage → (a ∈ q.parents v ↔ a ∈ p.parents v ∧ ¬ (a ∈ stage ∧ v ∈ p.children a))) ∧
      (∀ a v, v ∈ q.children a ↔ v ∈ p.children a ∧ ¬ (v ∈ stage ∧ a ∈ p.parents v)) ∧
      (∀ v, (p.parents v).Nodup → (q.parents v).Nodup) ∧
      (∀ a, (p.children a).Nodup → (q.children a).Nodup) ∧
      ∀ x, (q.entry x).withDescendants = (p.entry x).withDescendants - (stage.map fun t =>
              whenever (∃ a ∈ p.parents t, p.Above a x) (p.entry t).weight).sum ∧
        (q.entry x).withAncestors = (p.entry x).withAncestors + whenever (updateDescendants)
              (stage.map fun t => whenever (p.Below t x ∧ x ≠ t) (p.entry t).shed).sum := by
  obtain ⟨_, ran₁, frame₁, parents₁, children₁, totals₁⟩ :=
    removeDescendants_spec w live updateDescendants
  obtain ⟨p₂, ran₂, frame₂, parents₂, children₂, nodup₂, totals₂⟩ :=
    foldlM_updateAncestorsForRemoval (w.toWiredUp.of_frame frame₁ parents₁)
      fun it mem => frame₁.mapTx ▸ live it mem
  obtain ⟨parents₃, folded, members₃, nodup₃⟩ := foldl_updateChildrenForRemoval stage p₂
  have both := frame₁.trans frame₂
  refine ⟨{ p₂ with parents := parents₃ }, ?_, ⟨both.mapTx, both.mapNextTx, both.mapDeltas,
    both.vTxHashes, both.vTxHashesIdx, both.totalTxSize, both.fixed⟩, fun v a outside => ?_,
    fun a v => ?_, fun v nodup => ?_, fun a nodup => ?_, fun x => ?_⟩
  · simp [updateForRemoveFromMempool, ran₁, ran₂, folded]
  · simp [members₃, parents₂, parents₁, children₂, children₁, outside]
  · rw [children₂, children₁, parents₁]
  · apply nodup₃
    rw [parents₂, parents₁]
    exact nodup
  · apply nodup₂
    rw [children₁]
    exact nodup
  rw [(totals₂ x).2, (totals₂ x).1, (totals₁ x).1, (totals₁ x).2, weights_of_frame frame₁ parents₁]
  exact ⟨rfl, rfl⟩

theorem removeStaged_spec (updateDescendants : Bool) :
    ∃ q, Frame p q ∧ p.removeStaged stage updateDescendants = some (stage.foldl removeUnchecked q) ∧
      Removed stage updateDescendants p (stage.foldl removeUnchecked q) := by
  obtain ⟨q, ran, frame, parents, children, parents_nodup, children_nodup, totals⟩ :=
    updateForRemove_spec w live updateDescendants
  have gone := foldl_removeUnchecked stage q
  have mem : ∀ x, x ∈ (stage.foldl removeUnchecked q).mapTx ↔ x ∈ p.mapTx ∧ x ∉ stage := by
    intro x
    rw [gone.mapTx, frame.mapTx, mem_filter]
    simp
  refine ⟨q, frame, by rw [removeStaged, ran]; rfl, ?_⟩
  constructor
  case mapTx => rw [gone.mapTx, frame.mapTx]
  case fixed =>
    intro x
    rw [gone.entry]
    exact frame.fixed x
  case next =>
    intro _
    rw [gone.next, frame.mapNextTx]
    simp [tx_of_fixed (frame.fixed _)]
  case parents =>
    intro v live' a
    obtain ⟨here, outside⟩ := (mem v).1 live'
    rw [gone.parents v outside, parents v a outside]
    refine and_congr_right fun parent => not_congr (and_iff_left ?_)
    exact (w.linked a (w.parents_live v here a parent) v here).2 parent
  case children =>
    intro a live' v
    obtain ⟨here, outside⟩ := (mem a).1 live'
    rw [gone.children a outside, children]
    refine and_congr_right fun child => not_congr (and_iff_left ?_)
    exact (w.linked a here v (w.children_live a here v child)).1 child
  case parents_nodup =>
    intro v live'
    obtain ⟨here, outside⟩ := (mem v).1 live'
    rw [gone.parents v outside]
    exact parents_nodup v (w.parents_nodup v here)
  case children_nodup =>
    intro a live'
    obtain ⟨here, outside⟩ := (mem a).1 live'
    rw [gone.children a outside]
    exact children_nodup a (w.children_nodup a here)
  case mapDeltas => rw [gone.mapDeltas, frame.mapDeltas]
  case totalTxSize =>
    rw [gone.totalTxSize, frame.totalTxSize]
    simp [nTxSize_of_fixed (frame.fixed _)]
  case descendants =>
    intro x
    rw [gone.entry, (totals x).1]
  case ancestors =>
    intro x
    rw [gone.entry, (totals x).2]

end

theorem Wired.removed (removed : Removed stage add p p') : p'.Wired where
  key t live := by
    rw [tx_of_fixed (removed.fixed t)]
    exact w.key t (removed.mem.1 live).1
  parents_live v live a parent := by
    obtain ⟨was, unstaged⟩ := (removed.parents v live a).1 parent
    exact removed.mem.2 ⟨w.parents_live v (removed.mem.1 live).1 a was, unstaged⟩
  parents_nodup := removed.parents_nodup
  nodup := by
    rw [removed.mapTx]
    exact w.nodup.filter _
  children_live a live v child := by
    obtain ⟨was, unstaged⟩ := (removed.children a live v).1 child
    exact removed.mem.2 ⟨w.children_live a (removed.mem.1 live).1 v was, unstaged⟩
  linked a live v live' := by
    rw [removed.children a live v, removed.parents v live' a,
      w.linked a (removed.mem.1 live).1 v (removed.mem.1 live').1]
    exact and_congr_right fun _ =>
      ⟨fun _ => (removed.mem.1 live).2, fun _ => (removed.mem.1 live').2⟩
  children_nodup := removed.children_nodup
  next_live s mem := by
    obtain ⟨was, kept⟩ := (removed.next s).1 mem
    obtain ⟨live, i, input, spent⟩ := w.next_live s was
    refine ⟨removed.mem.2 ⟨live, fun staged => kept s.2 staged i input spent⟩, i, ?_, spent⟩
    rw [tx_of_fixed (removed.fixed s.2)]
    exact input

theorem removeWithDescendants_spec (live : ∀ it ∈ l, it ∈ p.mapTx) :
    ∃ stage q, Frame p q ∧ stage.Nodup ∧ p.BelowClosed stage ∧
      (∀ x, x ∈ stage ↔ ∃ it ∈ l, p.Below it x) ∧ (∀ x ∈ stage, x ∈ p.mapTx) ∧
      p.removeWithDescendants l = some (stage.foldl removeUnchecked q) ∧
      Removed stage false p (stage.foldl removeUnchecked q) := by
  obtain ⟨stage, ran, nodup, closed, members⟩ :=
    calculateAllDescendants_spec w live nodup_nil (by simp [BelowClosed])
  simp only [not_mem_nil, false_or] at members
  have inside : ∀ x ∈ stage, x ∈ p.mapTx := by
    intro x mem
    obtain ⟨it, here, path⟩ := (members x).1 mem
    exact path.live w (live it here)
  obtain ⟨q, frame, removed, spec⟩ := removeStaged_spec w inside false
  refine ⟨stage, q, frame, nodup, closed, members, inside, ?_, spec⟩
  rw [removeWithDescendants, ran]
  exact removed

theorem Wired.lookup_live (found : p.mapNextTx.lookup o = some x) : x ∈ p.mapTx := by
  obtain ⟨_, _, split, -⟩ := lookup_eq_some_iff.1 found
  exact (w.next_live (o, x) (by simp [split])).1

theorem rootsOf_live (tx : CTransaction) : ∀ it ∈ p.rootsOf tx, it ∈ p.mapTx := by
  unfold rootsOf
  intro it mem
  by_cases present : tx.hash ∈ p.mapTx
  · rw [if_pos present, mem_singleton] at mem
    exact mem ▸ present
  rw [if_neg present, mem_foldl_insert, mem_filterMap] at mem
  obtain ⟨_, -, found⟩ := mem.resolve_right not_mem_nil
  exact w.lookup_live found

end

/-! ### A new entry -/

variable {e : CTxMemPoolEntry}

theorem insertEntry_fresh (fresh : e.tx.hash ∉ p.mapTx) : p.insertEntry e = { p with
        mapTx := e.tx.hash :: p.mapTx
        entry := Function.update p.entry e.tx.hash (e.withDelta (p.mapDeltas e.tx.hash))
        parents := Function.update p.parents e.tx.hash []
        children := Function.update p.children e.tx.hash [] } := by
  simp only [insertEntry, fresh, if_false]
  cases p.mapDeltas e.tx.hash with
  | none => rfl
  | some _ =>
    simp only [withDelta, modify]
    split
    · simp
    · rfl

theorem lookup_insertNext :
    (insertNext m o hash).lookup o' = none ↔ m.lookup o' = none ∧ o' ≠ o := by
  unfold insertNext
  by_cases present : (m.lookup o).isSome
  · rw [if_pos present]
    refine ⟨fun missing => ⟨missing, fun same => ?_⟩, And.left⟩
    rw [← same, missing] at present
    cases present
  rw [if_neg present]
  by_cases same : o' = o
  · simp [same]
  · have apart : (o' == o) = false := by simpa using same
    simp [lookup_cons, apart, same]

theorem mem_foldl_insertNext {vin : List CTxIn} {s : COutPoint × UInt256} :
    s ∈ vin.foldl (fun m i => insertNext m i.prevout hash) m ↔
      s ∈ m ∨ (s.2 = hash ∧ (∃ i ∈ vin, i.prevout = s.1) ∧ m.lookup s.1 = none) := by
  induction vin generalizing m with
  | nil => simp
  | cons i vin ih =>
    rw [foldl_cons, ih, lookup_insertNext]
    have first : s ∈ insertNext m i.prevout hash ↔
        s ∈ m ∨ (s = (i.prevout, hash) ∧ m.lookup i.prevout = none) := by
      unfold insertNext
      cases present : m.lookup i.prevout <;> simp [or_comm]
    rw [first]
    obtain ⟨o, _⟩ := s
    simp only [mem_cons, exists_eq_or_imp, Prod.mk.injEq]
    by_cases same : o = i.prevout
    · subst same
      simp
    · simp only [same, false_and, or_false, ne_eq, not_false_eq_true, and_true, Ne.symm same,
        false_or, eq_comm]

/-- `addUnchecked` up to the totals: the entry, its outpoints and its parents. -/
def placed (p : CTxMemPool) (e : CTxMemPoolEntry) : CTxMemPool :=
  { p with
    mapTx := e.tx.hash :: p.mapTx
    entry := Function.update p.entry e.tx.hash (e.withDelta (p.mapDeltas e.tx.hash))
    parents := Function.update p.parents e.tx.hash
      (((e.tx.vin.map (·.prevout.hash)).filter (· ∈ e.tx.hash :: p.mapTx)).foldl
        (fun s a => s.insert a) [])
    children := Function.update p.children e.tx.hash []
    mapNextTx := e.tx.vin.foldl (fun m i => insertNext m i.prevout e.tx.hash) p.mapNextTx }

theorem linkInputs_insertEntry (fresh : e.tx.hash ∉ p.mapTx) :
    (p.insertEntry e).linkInputs e.tx.hash = p.placed e := by
  rw [insertEntry_fresh fresh, linkInputs, foldl_addParents]
  simp only [update_self, withDelta_tx, update_idem]
  rfl

/-- What `addUnchecked` does with a transaction that is not in the pool. -/
structure Added (e : CTxMemPoolEntry) (setAncestors : List UInt256) (p p' : CTxMemPool) : Prop where
  mapTx : p'.mapTx = e.tx.hash :: p.mapTx
  new : (p'.entry e.tx.hash).fixed = (e.withDelta (p.mapDeltas e.tx.hash)).fixed
  fixed : ∀ x ≠ e.tx.hash, (p'.entry x).fixed = (p.entry x).fixed
  next : ∀ s, s ∈ p'.mapNextTx ↔ s ∈ p.mapNextTx ∨
    (s.2 = e.tx.hash ∧ (∃ i ∈ e.tx.vin, i.prevout = s.1) ∧ p.mapNextTx.lookup s.1 = none)
  parents_new : ∀ a, a ∈ p'.parents e.tx.hash ↔ a ∈ p'.mapTx ∧ ∃ i ∈ e.tx.vin, i.prevout.hash = a
  parents : ∀ x ≠ e.tx.hash, p'.parents x = p.parents x
  children : ∀ a v, v ∈ p'.children a ↔
    (a ≠ e.tx.hash ∧ v ∈ p.children a) ∨ (v = e.tx.hash ∧ a ∈ p'.parents e.tx.hash)
  parents_nodup : (p'.parents e.tx.hash).Nodup
  children_nodup : ∀ a, (a ≠ e.tx.hash → (p.children a).Nodup) → (p'.children a).Nodup
  mapDeltas : p'.mapDeltas = p.mapDeltas
  totalTxSize : p'.totalTxSize = p.totalTxSize + e.nTxSize
  descendants : ∀ x ≠ e.tx.hash, (p'.entry x).withDescendants = (p.entry x).withDescendants
    + whenever (x ∈ setAncestors) (e.withDelta (p.mapDeltas e.tx.hash)).weight
  descendants_new : e.tx.hash ∉ setAncestors →
    (p'.entry e.tx.hash).withDescendants = (e.withDelta (p.mapDeltas e.tx.hash)).withDescendants
  ancestors : ∀ x ≠ e.tx.hash, (p'.entry x).withAncestors = (p.entry x).withAncestors
  ancestors_new : e.tx.hash ∉ setAncestors →
    (p'.entry e.tx.hash).withAncestors = (e.withDelta (p.mapDeltas e.tx.hash)).withAncestors
      + (UInt64.ofNat setAncestors.length, (setAncestors.map fun a => (p.entry a).nTxSize).sum,
        (setAncestors.map fun a => (p.entry a).getModifiedFee).sum,
        (setAncestors.map fun a => (p.entry a).sigOpCost).sum.toInt32.toInt64)
  vTxHashes : p'.vTxHashes = p.vTxHashes ++ [(e.tx.witnessHash, e.tx.hash)]
  vTxHashesIdx : p'.vTxHashesIdx = Function.update p.vTxHashesIdx e.tx.hash p.vTxHashes.length

theorem updateAncestorsOf_add_entry (p : CTxMemPool) (it : UInt256) (setAncestors : List UInt256)
    (x : UInt256) :
    (p.updateAncestorsOf true it setAncestors).entry x
      = if x ∈ setAncestors then (p.entry x).updateDescendantState (p.entry it).nTxSize
          (p.entry it).getModifiedFee 1 else p.entry x := by
  simp [updateAncestorsOf, foldl_updateChild, modifyAll_entry]

theorem updateAncestorsOf_add_children (p : CTxMemPool) (it : UInt256)
    (setAncestors : List UInt256) (x : UInt256) :
    (p.updateAncestorsOf true it setAncestors).children x
      = if x ∈ p.parents it then putLink true it (p.children x) else p.children x := by
  simp [updateAncestorsOf, foldl_updateChild, modifyAll_children]

theorem updateAncestorsOf_frame : Frame p (p.updateAncestorsOf add it setAncestors) ∧
      (p.updateAncestorsOf add it setAncestors).parents = p.parents := by
  have links : ∀ children, Frame p { p with children := children } := fun _ =>
    ⟨rfl, rfl, rfl, rfl, rfl, rfl, fun _ => rfl⟩
  cases add with
  | true =>
    simp only [updateAncestorsOf, foldl_updateChild, if_true]
    exact ⟨(links _).trans (modifyAll_frame fun _ =>
      fixed_updateDescendant ..), modifyAll_parents _⟩
  | false =>
    simp only [updateAncestorsOf, foldl_updateChild, Bool.false_eq_true, if_false]
    exact ⟨(links _).trans (modifyAll_frame fun _ =>
      fixed_updateDescendant ..), modifyAll_parents _⟩

theorem modify_frame (keeps : ∀ e, (f e).fixed = e.fixed) : Frame p (p.modify it f check) := by
  refine ⟨rfl, rfl, rfl, rfl, rfl, rfl, fun x => ?_⟩
  simp only [modify]
  by_cases same : x = it
  · rw [same, update_self]
    exact keeps _
  · rw [update_of_ne same]

theorem modify_spec (keeps : ∀ e, (f e).fixed = e.fixed) :
    ∃ q, p.modify it f check = q ∧ Frame p q ∧ q.parents = p.parents ∧ q.children = p.children ∧
      q.entry it = f (p.entry it) ∧ (∀ x ≠ it, q.entry x = p.entry x) ∧
      (p.asserted → check (q.entry it) → q.asserted) := by
  have self : (p.modify it f check).entry it = f (p.entry it) := update_self ..
  refine ⟨_, rfl, modify_frame keeps, rfl, rfl, self, fun _ other => update_of_ne other _ _,
    fun held new => Bool.and_eq_true_iff.2 ⟨held, ?_⟩⟩
  rwa [self] at new

theorem entryForAncestors_frame (p : CTxMemPool) (it : UInt256) (setAncestors : List UInt256) :
    Frame p (p.updateEntryForAncestors it setAncestors) :=
  modify_frame fun _ => fixed_updateAncestor ..

theorem entryForAncestors_links :
    (p.updateEntryForAncestors it setAncestors).parents = p.parents ∧
      (p.updateEntryForAncestors it setAncestors).children = p.children := ⟨rfl, rfl⟩

theorem entryForAncestors_other
    (other : x ≠ it) : (p.updateEntryForAncestors it setAncestors).entry x = p.entry x :=
  update_of_ne other _ _

theorem entryForAncestors_self (p : CTxMemPool) (it : UInt256) (setAncestors : List UInt256) :
    ((p.updateEntryForAncestors it setAncestors).entry it).withDescendants
        = (p.entry it).withDescendants ∧
      ((p.updateEntryForAncestors it setAncestors).entry it).withAncestors
        = (p.entry it).withAncestors
          + (UInt64.ofNat setAncestors.length, (setAncestors.map fun a => (p.entry a).nTxSize).sum,
            (setAncestors.map fun a => (p.entry a).getModifiedFee).sum,
            (setAncestors.map fun a => (p.entry a).sigOpCost).sum.toInt32.toInt64) := by
  rw [updateEntryForAncestors, modify]
  simp only [update_self]
  exact ⟨withDescendants_updateAncestor .., withAncestors_updateAncestor ..⟩

theorem mem_placed_parents : a ∈ (p.placed e).parents e.tx.hash ↔
    a ∈ e.tx.hash :: p.mapTx ∧ ∃ i ∈ e.tx.vin, i.prevout.hash = a := by
  simp only [placed, update_self, mem_foldl_insert, mem_filter,
    mem_map, decide_eq_true_eq, not_mem_nil, or_false]
  exact and_comm

theorem placed_entry_self :
    (p.placed e).entry e.tx.hash = e.withDelta (p.mapDeltas e.tx.hash) := update_self ..

theorem placed_entry_other (other : x ≠ e.tx.hash) : (p.placed e).entry x = p.entry x :=
  update_of_ne other _ _

theorem addUnchecked_added (fresh : e.tx.hash ∉ p.mapTx) (setAncestors : List UInt256) :
    Added e setAncestors p (p.addUnchecked e setAncestors) := by
  obtain ⟨frame₁, parents₁⟩ := updateAncestorsOf_frame
  have children₁ := updateAncestorsOf_add_children (p.placed e) e.tx.hash setAncestors
  have entry₁ := updateAncestorsOf_add_entry (p.placed e) e.tx.hash setAncestors
  rw [addUnchecked, linkInputs_insertEntry fresh]
  generalize (p.placed e).updateAncestorsOf true e.tx.hash setAncestors = q₁ at *
  have frame₂ := entryForAncestors_frame q₁ e.tx.hash setAncestors
  obtain ⟨parents₂, children₂⟩ := entryForAncestors_links
  have other₂ : ∀ x ≠ e.tx.hash,
      (q₁.updateEntryForAncestors e.tx.hash setAncestors).entry x = q₁.entry x :=
    fun x other => entryForAncestors_other other
  have self₂ := entryForAncestors_self q₁ e.tx.hash setAncestors
  generalize q₁.updateEntryForAncestors e.tx.hash setAncestors = q₂ at *
  have frame := frame₁.trans frame₂
  have tx : (q₂.entry e.tx.hash).tx = e.tx := by
    rw [tx_of_fixed (frame.fixed _), placed_entry_self, withDelta_tx]
  have parent : ∀ a, a ∈ q₂.parents e.tx.hash ↔
      a ∈ e.tx.hash :: p.mapTx ∧ ∃ i ∈ e.tx.vin, i.prevout.hash = a := by
    intro a
    rw [parents₂, parents₁, mem_placed_parents]
  constructor
  case mapTx => exact frame.mapTx
  case new => rw [← placed_entry_self]; exact frame.fixed _
  case fixed =>
    intro x other
    exact (frame.fixed x).trans (by rw [placed_entry_other other])
  case next =>
    intro _
    simp only [frame.mapNextTx]
    exact mem_foldl_insertNext
  case parents_new =>
    intro a
    rw [parent, frame.mapTx]
    rfl
  case parents =>
    intro x other
    rw [parents₂, parents₁]
    exact update_of_ne other _ _
  case children =>
    intro a v
    simp only [children₂, children₁, parents₂, parents₁]
    have old : v ∈ (p.placed e).children a ↔ a ≠ e.tx.hash ∧ v ∈ p.children a := by
      by_cases same : a = e.tx.hash
      · simp [placed, same]
      · simp [placed, same]
    by_cases linked : a ∈ (p.placed e).parents e.tx.hash
    · rw [if_pos linked, mem_putLink, if_pos rfl, old]
      tauto
    · rw [if_neg linked, old]
      tauto
  case parents_nodup =>
    rw [parents₂, parents₁]
    simp only [placed, update_self]
    exact nodup_foldl_insert nodup_nil
  case children_nodup =>
    intro a nodup
    have old : ((p.placed e).children a).Nodup := by
      by_cases same : a = e.tx.hash
      · simp [placed, same]
      · simpa [placed, same] using nodup same
    simp only [children₂, children₁]
    exact nodup_ite_putLink old
  case mapDeltas => exact frame.mapDeltas
  case totalTxSize =>
    simp only [frame.totalTxSize]
    rfl
  case descendants =>
    intro x other
    simp only [other₂ x other, entry₁, placed_entry_self, placed_entry_other other]
    by_cases above : x ∈ setAncestors
    · rw [if_pos above, whenever_pos above, withDescendants_add_weight]
    · rw [if_neg above, whenever_neg above, add_zero]
  case descendants_new =>
    intro apart
    rw [self₂.1, entry₁, if_neg apart, placed_entry_self]
  case ancestors =>
    intro x other
    simp only [other₂ x other, entry₁, placed_entry_other other]
    split
    · exact withAncestors_updateDescendant ..
    · rfl
  case ancestors_new =>
    intro apart
    have same : ∀ a ∈ setAncestors, (q₁.entry a).fixed = (p.entry a).fixed := by
      intro a mem
      exact (frame₁.fixed a).trans (by rw [placed_entry_other (fun same => apart (same ▸ mem))])
    have sizes := map_congr_left fun a mem => nTxSize_of_fixed (same a mem)
    have fees := map_congr_left fun a mem => getModifiedFee_of_fixed (same a mem)
    have sigops := map_congr_left fun a mem => sigOpCost_of_fixed (same a mem)
    rw [self₂.2, entry₁, if_neg apart, placed_entry_self, sizes, fees, sigops]
  case vTxHashes =>
    simp only [tx, frame.vTxHashes]
    rfl
  case vTxHashesIdx =>
    simp only [frame.vTxHashesIdx, frame.vTxHashes]
    rfl

theorem Wired.added (w : p.Wired) (fresh : e.tx.hash ∉ p.mapTx)
    (added : Added e setAncestors p p') : p'.Wired where
  key t live := by
    by_cases same : t = e.tx.hash
    · rw [same, tx_of_fixed added.new, withDelta_tx]
    rw [tx_of_fixed (added.fixed t same)]
    rw [added.mapTx] at live
    exact w.key t ((mem_cons.1 live).resolve_left same)
  parents_live v live a parent := by
    by_cases same : v = e.tx.hash
    · rw [same] at parent
      exact ((added.parents_new a).1 parent).1
    rw [added.parents v same] at parent
    rw [added.mapTx] at live ⊢
    exact mem_cons_of_mem _ (w.parents_live v ((mem_cons.1 live).resolve_left same) a parent)
  parents_nodup v live := by
    by_cases same : v = e.tx.hash
    · rw [same]
      exact added.parents_nodup
    rw [added.parents v same]
    rw [added.mapTx] at live
    exact w.parents_nodup v ((mem_cons.1 live).resolve_left same)
  nodup := by
    rw [added.mapTx]
    exact nodup_cons.2 ⟨fresh, w.nodup⟩
  children_live a live v child := by
    rcases (added.children a v).1 child with ⟨other, old⟩ | ⟨rfl, -⟩
    · rw [added.mapTx] at live ⊢
      exact mem_cons_of_mem _ (w.children_live a ((mem_cons.1 live).resolve_left other) v old)
    · rw [added.mapTx]
      exact mem_cons_self
  linked a live v live' := by
    rw [added.children a v]
    rw [added.mapTx] at live live'
    by_cases same : v = e.tx.hash
    · subst same
      refine ⟨?_, fun parent => .inr ⟨rfl, parent⟩⟩
      rintro (⟨other, old⟩ | ⟨-, parent⟩)
      · exact absurd (w.children_live a ((mem_cons.1 live).resolve_left other) _ old) fresh
      · exact parent
    have here := (mem_cons.1 live').resolve_left same
    rw [added.parents v same]
    constructor
    · rintro (⟨other, old⟩ | ⟨new, -⟩)
      · exact (w.linked a ((mem_cons.1 live).resolve_left other) v here).1 old
      · exact absurd new same
    intro parent
    have was := w.parents_live v here a parent
    exact .inl ⟨fun new => fresh (new ▸ was), (w.linked a was v here).2 parent⟩
  children_nodup a live := by
    rw [added.mapTx] at live
    exact added.children_nodup a fun other =>
      w.children_nodup a ((mem_cons.1 live).resolve_left other)
  next_live s mem := by
    rw [added.mapTx]
    rcases (added.next s).1 mem with old | ⟨same, ⟨i, input, spent⟩, -⟩
    · obtain ⟨live, i, input, spent⟩ := w.next_live s old
      have other : s.2 ≠ e.tx.hash := fun same => fresh (same ▸ live)
      refine ⟨mem_cons_of_mem _ live, i, ?_, spent⟩
      rw [tx_of_fixed (added.fixed _ other)]
      exact input
    refine ⟨by rw [same]; exact mem_cons_self, i, ?_, spent⟩
    rw [same, tx_of_fixed added.new, withDelta_tx]
    exact input

end CTxMemPool

end DogecoinCore
