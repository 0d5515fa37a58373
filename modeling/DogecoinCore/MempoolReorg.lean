import DogecoinCore.MempoolAccounting

/-! The links of the pool against the inputs of its transactions. While a block is being
disconnected its transactions come back without links to what spends them outside the
block; `UpdateTransactionsFromBlock` adds those links and brings the totals in line. -/
namespace DogecoinCore
open List Function Option CTxMemPool

namespace CTxMemPool
open CTxMemPoolEntry Worklist
variable {p p' q : CTxMemPool} {a b v x it : UInt256} {stage setAncestors B N : List UInt256}
  {e : CTxMemPoolEntry}

/-- Both are in the pool and `v` spends an output of `a`. -/
def Spends (p : CTxMemPool) (a v : UInt256) : Prop :=
  a ∈ p.mapTx ∧ v ∈ p.mapTx ∧ ∃ i ∈ (p.entry v).tx.vin, i.prevout.hash = a

def Descends (p : CTxMemPool) : UInt256 → UInt256 → Prop := Relation.ReflTransGen p.Spends

theorem Descends.live (live : a ∈ p.mapTx) (path : p.Descends a v) : v ∈ p.mapTx := by
  rcases path.cases_tail with same | ⟨_, -, edge⟩
  · exact same ▸ live
  · exact edge.2.1

/-- The links and the outpoints are those of the inputs, except that the re-added transactions `B`
have no links yet to what spends them outside `B`. -/
structure Linked (p : CTxMemPool) (B : List UInt256) : Prop where
  parents : ∀ v ∈ p.mapTx, ∀ a, a ∈ p.parents v ↔ p.Spends a v ∧ (a ∈ B → v ∈ B)
  next : ∀ s, s ∈ p.mapNextTx ↔ s.2 ∈ p.mapTx ∧ ∃ i ∈ (p.entry s.2).tx.vin, i.prevout = s.1
  unique : ∀ s ∈ p.mapNextTx, ∀ s' ∈ p.mapNextTx, s.1 = s'.1 → s.2 = s'.2
  inward : ∀ a v, p.Spends a v → v ∈ B → a ∈ B

theorem Linked.empty : empty.Linked [] where
  parents := by simp [CTxMemPool.empty]
  next := by simp [CTxMemPool.empty]
  unique := by simp [CTxMemPool.empty]
  inward := by simp

theorem linked_whole : p.Linked p.mapTx ↔ p.Linked [] := by
  constructor
  · intro l
    refine ⟨fun v live a => ?_, l.next, l.unique, by simp⟩
    rw [l.parents v live]
    simp [live]
  intro l
  refine ⟨fun v live a => ?_, l.next, l.unique, fun a v spends _ => spends.1⟩
  rw [l.parents v live]
  simp [live]

theorem Linked.children (l : p.Linked B) (w : p.Wired) (live : a ∈ p.mapTx) :
    v ∈ p.children a ↔ p.Spends a v ∧ (a ∈ B → v ∈ B) := by
  constructor
  · intro child
    have there := w.children_live a live v child
    exact (l.parents v there a).1 ((w.linked a live v there).1 child)
  intro linked
  have there := linked.1.2.1
  exact (w.linked a live v there).2 ((l.parents v there a).2 linked)

/-- What a transaction of a disconnected block finds: its parents in the pool came back before it,
nothing that came back spends it, and its inputs are not spent. -/
structure Returns (p : CTxMemPool) (B : List UInt256) (e : CTxMemPoolEntry) : Prop
    extends Newcomer p e where
  unspent : ∀ i ∈ e.tx.vin, p.mapNextTx.lookup i.prevout = none
  parents : ∀ i ∈ e.tx.vin, i.prevout.hash ∈ p.mapTx → i.prevout.hash ∈ B
  first : ∀ x ∈ B, ∀ i ∈ (p.entry x).tx.vin, i.prevout.hash ≠ e.tx.hash

structure Enters (p : CTxMemPool) (B : List UInt256) (e : CTxMemPoolEntry) : Prop where
  absent : e.tx.hash ∉ p.mapTx
  selfless : ∀ i ∈ e.tx.vin, i.prevout.hash ≠ e.tx.hash
  unspent : ∀ i ∈ e.tx.vin, p.mapNextTx.lookup i.prevout = none
  parents : ∀ i ∈ e.tx.vin, i.prevout.hash ∈ p.mapTx → i.prevout.hash ∈ B
  first : ∀ x ∈ B, ∀ i ∈ (p.entry x).tx.vin, i.prevout.hash ≠ e.tx.hash

theorem Returns.enters (returns : p.Returns B e) : p.Enters B e :=
  ⟨returns.absent, returns.selfless, returns.unspent, returns.parents, returns.first⟩

section
variable (l : p.Linked B)
include l

theorem Linked.added (returns : p.Enters B e)
    (inside : ∀ x ∈ B, x ∈ p.mapTx) (added : Added e setAncestors p p') :
    p'.Linked (e.tx.hash :: B) := by
  have new_tx : (p'.entry e.tx.hash).tx = e.tx := by rw [tx_of_fixed added.new, withDelta_tx]
  have old_tx : ∀ x ∈ p.mapTx, (p'.entry x).tx = (p.entry x).tx := fun x live =>
    tx_of_fixed (added.fixed x fun same => returns.absent (same ▸ live))
  have other : ∀ x ∈ p.mapTx, x ≠ e.tx.hash := fun x live same => returns.absent (same ▸ live)
  have spends_new : ∀ a, p'.Spends a e.tx.hash ↔ a ∈ B ∧ ∃ i ∈ e.tx.vin, i.prevout.hash = a := by
    intro a
    simp only [Spends, added.mapTx, new_tx, mem_cons_self, true_and]
    constructor
    · rintro ⟨live, i, input, rfl⟩
      have there := (mem_cons.1 live).resolve_left (returns.selfless i input)
      exact ⟨returns.parents i input there, i, input, rfl⟩
    · rintro ⟨mem, spent⟩
      exact ⟨mem_cons_of_mem _ (inside a mem), spent⟩
  have spends_old : ∀ v ∈ p.mapTx, ∀ a, p'.Spends a v ↔ p.Spends a v ∨
      (a = e.tx.hash ∧ ∃ i ∈ (p.entry v).tx.vin, i.prevout.hash = e.tx.hash) := by
    intro v live a
    simp only [Spends, added.mapTx, old_tx v live, mem_cons, live, or_true, true_and]
    constructor
    · rintro ⟨rfl | there, spent⟩
      · exact .inr ⟨rfl, spent⟩
      · exact .inl ⟨there, spent⟩
    rintro (⟨there, spent⟩ | ⟨rfl, spent⟩)
    · exact ⟨.inr there, spent⟩
    · exact ⟨.inl rfl, spent⟩
  constructor
  case parents =>
    intro v live a
    rw [added.mapTx] at live
    rcases mem_cons.1 live with rfl | here
    · have spends : a ∈ p'.parents e.tx.hash ↔ p'.Spends a e.tx.hash := by
        rw [added.parents_new]
        simp [Spends, added.mapTx, new_tx]
      rw [spends]
      exact ⟨fun s => ⟨s, fun _ => mem_cons_self⟩, And.left⟩
    rw [added.parents v (other v here), l.parents v here, spends_old v here]
    simp only [mem_cons, other v here, false_or]
    constructor
    · rintro ⟨spends, stays⟩
      refine ⟨.inl spends, ?_⟩
      rintro (rfl | mem)
      · exact absurd spends.1 returns.absent
      · exact stays mem
    rintro ⟨spends | ⟨rfl, i, input, spent⟩, stays⟩
    · exact ⟨spends, fun mem => stays (.inr mem)⟩
    · exact absurd spent (returns.first v (stays (.inl rfl)) i input)
  case next =>
    intro s
    rw [added.next, l.next, added.mapTx, mem_cons]
    constructor
    · rintro (⟨live, spent⟩ | ⟨same, spent, -⟩)
      · rw [old_tx s.2 live]
        exact ⟨.inr live, spent⟩
      · rw [same, new_tx]
        exact ⟨.inl rfl, spent⟩
    rintro ⟨same | live, spent⟩
    · rw [same, new_tx] at spent
      obtain ⟨i, input, at_s⟩ := spent
      exact .inr ⟨same, ⟨i, input, at_s⟩, at_s ▸ returns.unspent i input⟩
    · rw [old_tx s.2 live] at spent
      exact .inl ⟨live, spent⟩
  case unique =>
    have unspent : ∀ s ∈ p.mapNextTx, p.mapNextTx.lookup s.1 ≠ none := by
      intro s mem missing
      have := lookup_eq_none_iff.1 missing s mem
      simp at this
    intro s mem s' mem' same
    rcases (added.next s).1 mem with old | ⟨new, -, missing⟩
    · rcases (added.next s').1 mem' with old' | ⟨-, -, missing'⟩
      · exact l.unique s old s' old' same
      · exact absurd (same ▸ missing') (unspent s old)
    rcases (added.next s').1 mem' with old' | ⟨new', -, -⟩
    · exact absurd (same ▸ missing) (unspent s' old')
    · rw [new, new']
  case inward =>
    intro a v spends mem
    rcases mem_cons.1 mem with rfl | old
    · exact mem_cons_of_mem _ ((spends_new a).1 spends).1
    rcases (spends_old v (inside v old) a).1 spends with was | ⟨rfl, -⟩
    · exact mem_cons_of_mem _ (l.inward a v was old)
    · exact mem_cons_self

theorem Linked.removed (removed : Removed stage upd p p')
    (inside : ∀ x ∈ stage, x ∈ p.mapTx) : p'.Linked B := by
  have tx : ∀ x, (p'.entry x).tx = (p.entry x).tx := fun x => tx_of_fixed (removed.fixed x)
  have spends : ∀ a v, p'.Spends a v ↔ p.Spends a v ∧ a ∉ stage ∧ v ∉ stage := by
    intro a v
    simp only [Spends, removed.mem, tx]
    tauto
  constructor
  case parents =>
    intro v live a
    obtain ⟨was, stays⟩ := removed.mem.1 live
    rw [removed.parents v live, l.parents v was, spends]
    tauto
  case next =>
    intro s
    rw [removed.next, removed.mem, tx]
    constructor
    · rintro ⟨old, apart⟩
      obtain ⟨live, i, input, spent⟩ := (l.next s).1 old
      exact ⟨⟨live, fun staged => apart s.2 staged i input spent⟩, i, input, spent⟩
    rintro ⟨⟨live, stays⟩, spent⟩
    have old := (l.next s).2 ⟨live, spent⟩
    refine ⟨old, fun x staged i input same => stays ?_⟩
    have there := (l.next (s.1, x)).2 ⟨inside x staged, i, input, same⟩
    exact l.unique s old _ there rfl ▸ staged
  case unique =>
    intro s mem s' mem'
    exact l.unique s ((removed.next s).1 mem).1 s' ((removed.next s').1 mem').1
  case inward =>
    intro a v edge
    exact l.inward a v ((spends a v).1 edge).1

theorem Linked.of_same (mapTx : p'.mapTx = p.mapTx)
    (tx : ∀ x, (p'.entry x).tx = (p.entry x).tx) (parents : p'.parents = p.parents)
    (next : p'.mapNextTx = p.mapNextTx) : p'.Linked B := by
  have spends : p'.Spends = p.Spends := by
    funext a v
    simp [Spends, mapTx, tx]
  constructor
  · rw [mapTx, parents, spends]
    exact l.parents
  · simp only [next, mapTx, tx]
    exact l.next
  · rw [next]
    exact l.unique
  · rw [spends]
    exact l.inward

/-! ### `UpdateTransactionsFromBlock` -/

theorem Linked.inward_path (path : p.Descends a v) (mem : v ∈ B) : a ∈ B := by
  induction path with
  | refl => exact mem
  | tail _ edge ih => exact ih (l.inward _ _ edge mem)

theorem Linked.below_iff (w : p.Wired) (live : a ∈ p.mapTx) :
    p.Below a v ↔ p.Descends a v ∧ (a ∈ B → v ∈ B) := by
  constructor
  · intro path
    induction path with
    | refl => exact ⟨.refl, id⟩
    | tail before edge ih =>
      obtain ⟨spends, stays⟩ := (l.children w (Below.live w live before)).1 edge
      exact ⟨ih.1.tail spends, stays ∘ ih.2⟩
  rintro ⟨path, stays⟩
  induction path with
  | refl => exact .refl
  | @tail b c before edge ih =>
    refine (ih fun mem => l.inward b c edge (stays mem)).tail ((l.children w edge.1).2 ?_)
    exact ⟨edge, fun mem => stays (l.inward_path before mem)⟩

end

/-- What the walk from a re-added entry needs to know of the links below it. -/
structure Walkable (p₀ q : CTxMemPool) (B N : List UInt256)
    (cache : UInt256 → Option (List UInt256)) : Prop where
  children : ∀ a ∈ p₀.mapTx, ∀ v, v ∈ q.children a ↔ p₀.Spends a v ∧ (a ∈ N → v ∈ B)
  cached : ∀ c known, cache c = some known → c ∈ p₀.mapTx ∧ ∀ x, x ∈ known ↔ x ∉ B ∧ p₀.Descends c x
  behind : ∀ y, y ∉ N → ∀ z, p₀.Spends y z → z ∉ N

variable {p₀ : CTxMemPool} {cache : UInt256 → Option (List UInt256)}
  {s : CTxMemPool × (UInt256 → Option (List UInt256))}

private theorem walkDescendants_spec
    (l : p₀.Linked B) (walkable : Walkable p₀ q B N cache) (mapTx : q.mapTx = p₀.mapTx)
    (live : b ∈ p₀.mapTx) (nodup : (q.children b).Nodup) (mem : b ∈ B) (handled : b ∉ N) :
    ∃ r, q.walkDescendants b cache = some r ∧ r.Nodup ∧ ∀ x, x ∉ B → (x ∈ r ↔ p₀.Descends b x) := by
  have inside : ∀ a ∈ p₀.mapTx, ∀ v ∈ q.children a, v ∈ p₀.mapTx := fun a there v child =>
    ((walkable.children a there v).1 child).1.2.1
  obtain ⟨result, ran⟩ : ∃ result, walk q.children cache (fun _ _ _ => true)
      (q.mapTx.length + 1) (q.children b) [] = some result := by
    rw [mapTx]
    exact walk_ends inside (inside b live) nodup (Nat.lt_succ_self _)
  obtain ⟨r, rfl⟩ := walk_allowed (fun _ _ _ => rfl) ran
  -- every mark is a descendant that has been handled or lies outside the block
  have sound : ∀ x ∈ r, p₀.Descends b x ∧ x ∈ p₀.mapTx ∧ x ∉ N := by
    have step : ∀ x, p₀.Descends b x ∧ x ∈ p₀.mapTx ∧ x ∉ N → ∀ c ∈ q.children x,
        p₀.Descends b c ∧ c ∈ p₀.mapTx ∧ c ∉ N := by
      rintro x ⟨path, there, ahead⟩ c child
      have spends := ((walkable.children x there c).1 child).1
      exact ⟨path.tail spends, spends.2.1, walkable.behind x ahead c spends⟩
    refine walk_sound step ?_ (step b ⟨.refl, live, handled⟩) (by simp) ran
    intro x here c child known hit y remembered
    obtain ⟨path, there, ahead⟩ := step x here c child
    have below := (((walkable.cached c known hit).2 y).1 remembered).2
    refine ⟨path.trans below, Descends.live there below, ?_⟩
    clear remembered
    induction below with
    | refl => exact ahead
    | tail _ edge ih => exact walkable.behind _ ih _ edge
  have closed : ∀ y ∈ r, ∀ c ∈ q.children y, Worklist.Known cache [] r c := by
    refine walk_closed (fun c known hit y remembered c' child => ?_) (by simp) ran
    obtain ⟨cached_live, members⟩ := walkable.cached c known hit
    obtain ⟨outside, below⟩ := (members y).1 remembered
    have spends := ((walkable.children y (Descends.live cached_live below) c').1 child).1
    exact .inl ((members c').2 ⟨fun back => outside (l.inward y c' spends back),
      below.tail spends⟩)
  have complete : ∀ x, x ∉ B → ∀ y, p₀.Descends y x → y ∈ r → x ∈ r := by
    intro x outside y path
    induction path using Relation.ReflTransGen.head_induction_on with
    | refl => exact id
    | @head y c edge rest ih =>
      intro marked
      obtain ⟨-, there, ahead⟩ := sound y marked
      have child := (walkable.children y there c).2 ⟨edge, fun waiting => absurd waiting ahead⟩
      rcases closed y marked c child with mark | waiting | ⟨known, hit, whole⟩
      · exact ih mark
      · cases waiting
      · exact whole (((walkable.cached c known hit).2 x).2 ⟨outside, rest⟩)
  refine ⟨r, by rw [walkDescendants, ran]; rfl, walk_nodup nodup_nil ran,
    fun x outside => ⟨fun marked => (sound x marked).1, fun path => ?_⟩⟩
  rcases path.cases_head with same | ⟨c, edge, rest⟩
  · exact absurd (same ▸ mem) outside
  · have child := (walkable.children b live c).2 ⟨edge, fun waiting => absurd waiting handled⟩
    exact complete x outside c rest ((walk_start ran).1 child)

private theorem updateForDescendants_spec (ran : q.walkDescendants b cache = some r) :
    ∃ q' cache', q.updateForDescendants b cache B = some (q', cache') ∧ Frame q q' ∧
      q'.parents = q.parents ∧ q'.children = q.children ∧
      (∀ x, (q'.entry x).withAncestors = (q.entry x).withAncestors
        + whenever (x ∈ r ∧ x ∉ B) (1, (q.entry b).nTxSize, (q.entry b).getModifiedFee,
          (q.entry b).sigOpCost.toInt32.toInt64)) ∧
      (∀ x ≠ b, (q'.entry x).withDescendants = (q.entry x).withDescendants) ∧
      (q'.entry b).withDescendants = (q.entry b).withDescendants
        + ((r.filter (· ∉ B)).map fun d => (q.entry d).weight).sum ∧
      (∀ c known, cache' c = some known → cache c = some known ∨
        (c = b ∧ ∀ x, x ∈ known ↔ (x ∈ r ∧ x ∉ B) ∨ x ∈ (cache b).getD [])) ∧
      (q.asserted → (∀ x, x ∈ r ∧ x ∉ B ∨ x = b → (q'.entry x).InRange) → q'.asserted) := by
  have mem : ∀ x, x ∈ r.filter (· ∉ B) ↔ x ∈ r ∧ x ∉ B := by simp
  simp only [updateForDescendants, ran, bind_eq_bind, bind_some]
  generalize r.filter (· ∉ B) = found at mem ⊢
  obtain ⟨q₁, same₁, frame₁, parents₁, children₁, entry₁, asserted₁⟩ := modifyAll_spec fun e =>
    e.fixed_updateAncestor (q.entry b).nTxSize (q.entry b).getModifiedFee 1
      (q.entry b).sigOpCost.toInt32
  obtain ⟨q₂, same₂, frame₂, parents₂, children₂, self₂, other₂, asserted₂⟩ := modify_spec fun e =>
    e.fixed_updateDescendant (found.map fun d => (q.entry d).nTxSize).sum
      (found.map fun d => (q.entry d).getModifiedFee).sum (UInt64.ofNat found.length)
  have down₁ : ∀ x, (q₁.entry x).withDescendants = (q.entry x).withDescendants := by
    intro x
    rw [entry₁]
    split
    · exact withDescendants_updateAncestor ..
    · rfl
  rw [same₁, same₂]
  refine ⟨q₂, _, rfl, frame₁.trans frame₂, parents₂.trans parents₁, children₂.trans children₁,
    fun x => ?_, fun x other => ?_, ?_, fun c known hit => ?_, fun held ranges => ?_⟩
  · have up₂ : (q₂.entry x).withAncestors = (q₁.entry x).withAncestors := by
      by_cases same : x = b
      · rw [same, self₂]
        exact withAncestors_updateDescendant ..
      · rw [other₂ x same]
    rw [up₂, entry₁, ← whenever_congr (mem x)]
    by_cases here : x ∈ found
    · rw [if_pos here, whenever_pos here, withAncestors_updateAncestor]
    · rw [if_neg here, whenever_neg here, add_zero]
  · rw [other₂ x other, down₁]
  · rw [self₂, withDescendants_updateDescendant, down₁, sum_weight]
  · by_cases none : found = []
    · rw [if_pos none] at hit
      exact .inl hit
    rw [if_neg none] at hit
    by_cases same : c = b
    · rw [same, update_self] at hit
      refine .inr ⟨same, fun x => ?_⟩
      rw [← some.inj hit, mem_foldl_insert, mem]
    · rw [update_of_ne same] at hit
      exact .inl hit
  · refine asserted₂ (asserted₁ held fun x here => ?_) (ranges b (.inr rfl)).2
    have ranged := (ranges x (.inl ((mem x).1 here))).1
    by_cases same : x = b
    · rwa [same, self₂, ← same] at ranged
    · rwa [other₂ x same] at ranged

/-- The links in the loop of `UpdateTransactionsFromBlock` with the re-added entries `N` of `B` still
to come: they lack what leads from those to outside the block. -/
structure Relinking (p₀ : CTxMemPool) (B N : List UInt256)
    (s : CTxMemPool × (UInt256 → Option (List UInt256))) : Prop where
  frame : Frame p₀ s.1
  parents : ∀ v ∈ p₀.mapTx, ∀ a, a ∈ s.1.parents v ↔ p₀.Spends a v ∧ (a ∈ N → v ∈ B)
  children : ∀ a ∈ p₀.mapTx, ∀ v, v ∈ s.1.children a ↔ p₀.Spends a v ∧ (a ∈ N → v ∈ B)
  parents_nodup : ∀ v ∈ p₀.mapTx, (s.1.parents v).Nodup
  children_nodup : ∀ a ∈ p₀.mapTx, (s.1.children a).Nodup
  cached : ∀ c known, s.2 c = some known → c ∈ p₀.mapTx ∧ ∀ x, x ∈ known ↔ x ∉ B ∧ p₀.Descends c x
  behind : ∀ y, y ∉ N → ∀ z, p₀.Spends y z → z ∉ N

structure Relinked (p₀ : CTxMemPool) (B N : List UInt256)
    (s : CTxMemPool × (UInt256 → Option (List UInt256))) : Prop extends Relinking p₀ B N s where
  ancestors : ∀ v ∈ p₀.mapTx, (s.1.entry v).withAncestors
    = tally p₀.mapTx (fun a => (p₀.entry a).own) fun a => p₀.Descends a v ∧ (a ∈ N → v ∈ B)
  descendants : ∀ a ∈ p₀.mapTx, (s.1.entry a).withDescendants
    = tally p₀.mapTx (fun v => (p₀.entry v).weight) fun v => p₀.Descends a v ∧ (a ∈ N → v ∈ B)

theorem mem_spendersOf (l : p.Linked B) (live : b ∈ p.mapTx) :
    x ∈ p.spendersOf b ↔ p.Spends b x := by
  simp only [spendersOf, mem_foldl_insert, List.mem_map, mem_filter,
    decide_eq_true_eq, not_mem_nil, or_false]
  constructor
  · rintro ⟨s, ⟨mem, rfl⟩, rfl⟩
    obtain ⟨there, i, input, spent⟩ := (l.next s).1 mem
    exact ⟨live, there, i, input, by rw [spent]⟩
  · rintro ⟨-, there, i, input, rfl⟩
    exact ⟨(i.prevout, x), ⟨(l.next _).2 ⟨there, i, input, rfl⟩, rfl⟩, rfl⟩

theorem Relinking.link
    (l : p₀.Linked B) (r : Relinking p₀ B (b :: N) s) (live : b ∈ p₀.mapTx) (fresh : b ∉ N) :
    ∃ q, ((s.1.spendersOf b).filter (· ∉ B)).foldl
        (fun p c => (p.updateChild true c b).updateParent true b c) s.1 = q ∧
      Frame p₀ q ∧ q.entry = s.1.entry ∧ q.asserted = s.1.asserted ∧
      (∀ v ∈ p₀.mapTx, ∀ a, a ∈ q.parents v ↔ p₀.Spends a v ∧ (a ∈ N → v ∈ B)) ∧
      (∀ a ∈ p₀.mapTx, ∀ v, v ∈ q.children a ↔ p₀.Spends a v ∧ (a ∈ N → v ∈ B)) ∧
      (∀ v ∈ p₀.mapTx, (q.parents v).Nodup) ∧ ∀ a ∈ p₀.mapTx, (q.children a).Nodup := by
  have spenders : ∀ x, x ∈ (s.1.spendersOf b).filter (· ∉ B) ↔ p₀.Spends b x ∧ x ∉ B := by
    intro x
    have same : s.1.spendersOf b = p₀.spendersOf b := by
      unfold spendersOf
      rw [r.frame.mapNextTx]
    rw [same, mem_filter, mem_spendersOf l live, decide_eq_true_eq]
  generalize (s.1.spendersOf b).filter (· ∉ B) = found at spenders
  refine ⟨_, foldl_addChildren, ⟨r.frame.mapTx, r.frame.mapNextTx, r.frame.mapDeltas,
    r.frame.vTxHashes, r.frame.vTxHashesIdx, r.frame.totalTxSize, r.frame.fixed⟩, rfl, rfl,
    fun v there a => ?_, fun a there v => ?_, fun v there => ?_, fun a there => ?_⟩
  · have old := r.parents v there a
    rw [mem_cons] at old
    by_cases linked : v ∈ found
    · obtain ⟨spends, outside⟩ := (spenders v).1 linked
      simp only [linked, if_true, mem_putLink, old]
      by_cases same : a = b
      · simp [same, spends, fresh]
      · simp [same]
    simp only [linked, if_false, old]
    by_cases same : a = b
    · subst same
      have inside : p₀.Spends a v → v ∈ B := fun spends =>
        by_contra fun outside => linked ((spenders v).2 ⟨spends, outside⟩)
      simp only [true_or, forall_const, fresh, false_imp_iff, and_true]
      exact ⟨And.left, fun spends => ⟨spends, inside spends⟩⟩
    · simp [same]
  · by_cases same : a = b
    · subst same
      simp only [update_self, mem_foldl_insert, spenders, r.children a there,
        mem_cons_self, fresh, false_imp_iff, and_true, forall_const]
      tauto
    · simp [r.children a there, same]
  · simp only
    split
    · exact nodup_putLink (r.parents_nodup v there)
    · exact r.parents_nodup v there
  · by_cases same : a = b
    · simp only [same, update_self]
      exact nodup_foldl_insert (r.children_nodup b live)
    · simp only [update_of_ne same]
      exact r.children_nodup a there

/-- What one turn of the loop adds to the totals: the pairs that lead from `b` to outside the
block. -/
structure Counted (p₀ : CTxMemPool) (B : List UInt256) (b : UInt256) (q q' : CTxMemPool) : Prop where
  ancestors : ∀ x, (q'.entry x).withAncestors = (q.entry x).withAncestors
    + whenever (p₀.Descends b x ∧ x ∉ B) (1, (p₀.entry b).nTxSize, (p₀.entry b).getModifiedFee,
      (p₀.entry b).sigOpCost.toInt32.toInt64)
  other : ∀ x ≠ b, (q'.entry x).withDescendants = (q.entry x).withDescendants
  self : ∃ found : List UInt256, found.Nodup ∧ (∀ x, x ∈ found ↔ p₀.Descends b x ∧ x ∉ B) ∧
    (q'.entry b).withDescendants = (q.entry b).withDescendants
      + (found.map fun d => (p₀.entry d).weight).sum
  asserted : q.asserted → (∀ x ∈ p₀.mapTx, (q'.entry x).InRange) → q'.asserted

theorem Relinking.step
    (l : p₀.Linked B) (r : Relinking p₀ B (b :: N) s) (live : b ∈ p₀.mapTx) (mem : b ∈ B)
    (fresh : b ∉ N) (last : ∀ z ∈ N, ¬ p₀.Spends b z) :
    ∃ s', updateFromBlock B s b = some s' ∧ Relinking p₀ B N s' ∧ Counted p₀ B b s.1 s'.1 := by
  obtain ⟨q, folded, frame, entry, asserted, parents, children, parents_nodup, children_nodup⟩ :=
    r.link l live fresh
  have behind : ∀ y, y ∉ N → ∀ z, p₀.Spends y z → z ∉ N := by
    intro y handled z spends waiting
    by_cases same : y = b
    · exact last z waiting (same ▸ spends)
    · exact r.behind y (not_mem_cons_of_ne_of_not_mem same handled) z spends
        (mem_cons_of_mem b waiting)
  obtain ⟨found, walked, nodup, outside⟩ := walkDescendants_spec l
    ⟨children, r.cached, behind⟩ frame.mapTx live (children_nodup b live) mem fresh
  obtain ⟨q', cache', ran, frame', parents', children', up, other, self, cached, checked⟩ :=
    updateForDescendants_spec (B := B) walked
  have found_iff : ∀ x, x ∈ found ∧ x ∉ B ↔ p₀.Descends b x ∧ x ∉ B := fun x =>
    ⟨fun both => ⟨(outside x both.2).1 both.1, both.2⟩,
      fun both => ⟨(outside x both.2).2 both.1, both.2⟩⟩
  refine ⟨(q', cache'), ?_, ?_, ?_⟩
  · rw [updateFromBlock, if_pos (r.frame.mapTx ▸ live)]
    simp only [folded, ran]
  · constructor
    case frame => exact frame.trans frame'
    case parents => simpa only [parents'] using parents
    case children => simpa only [children'] using children
    case parents_nodup => simpa only [parents'] using parents_nodup
    case children_nodup => simpa only [children'] using children_nodup
    case cached =>
      intro c known hit
      rcases cached c known hit with old | ⟨rfl, members⟩
      · exact r.cached c known old
      refine ⟨live, fun x => ?_⟩
      rw [members, found_iff]
      cases before : s.2 c with
      | none => simp [and_comm]
      | some remembered =>
        simp only [getD_some, (r.cached c remembered before).2 x]
        tauto
    case behind => exact behind
  · constructor
    case ancestors =>
      intro x
      rw [up, entry, whenever_congr (found_iff x), ← entry, nTxSize_of_fixed (frame.fixed b),
        getModifiedFee_of_fixed (frame.fixed b),
        sigOpCost_of_fixed (frame.fixed b)]
    case other =>
      intro x apart
      rw [other x apart, entry]
    case self =>
      have weights : ((found.filter (· ∉ B)).map fun d => (q.entry d).weight)
          = (found.filter (· ∉ B)).map fun d => (p₀.entry d).weight :=
        map_congr_left fun d _ => weight_of_fixed (frame.fixed d)
      refine ⟨found.filter (· ∉ B), nodup.filter _, fun x => ?_, ?_⟩
      · rw [mem_filter, decide_eq_true_eq, found_iff]
      · rw [self, weights, entry]
    case asserted =>
      intro held ranges
      refine checked (asserted.trans held) fun x mem => ranges x ?_
      rcases mem with here | rfl
      · exact Descends.live live ((found_iff x).1 here).1
      · exact live

theorem Relinked.step
    (l : p₀.Linked B) (t : p₀.Tallied) (r : Relinked p₀ B (b :: N) s) (live : b ∈ p₀.mapTx)
    (mem : b ∈ B) (fresh : b ∉ N) (last : ∀ z ∈ N, ¬ p₀.Spends b z) :
    ∃ s', updateFromBlock B s b = some s' ∧ Relinked p₀ B N s' := by
  obtain ⟨s', ran, links, counted⟩ := r.toRelinking.step l live mem fresh last
  refine ⟨s', ran, links, fun v there => ?_, fun a there => ?_⟩
  · have own : (1, (p₀.entry b).nTxSize, (p₀.entry b).getModifiedFee,
        (p₀.entry b).sigOpCost.toInt32.toInt64) = (p₀.entry b).own := by
      rw [sigOpCost_toInt32 (t.standard b live), own]
    rw [counted.ancestors, own, r.ancestors v there,
      ← tally_only (w := fun a => (p₀.entry a).own) t.wired.nodup live]
    refine (tally_split (fun a _ => ?_) fun a _ => ?_).symm
    · by_cases same : a = b
      · subst same
        tauto
      · simp [same]
    · rintro ⟨-, stays⟩ ⟨rfl, -, away⟩
      exact away (stays mem_cons_self)
  by_cases same : a = b
  · subst same
    obtain ⟨found, nodup, found_iff, self⟩ := counted.self
    have inside : found ⊆ p₀.mapTx := fun x here => Descends.live live ((found_iff x).1 here).1
    rw [self, r.descendants a there, ← tally_mem t.wired.nodup nodup inside]
    refine (tally_split (fun v _ => ?_) fun v _ => ?_).symm
    · simp only [fresh, mem_cons_self, false_imp_iff, forall_const, and_true, found_iff]
      tauto
    · simp only [mem_cons_self, forall_const, found_iff]
      tauto
  rw [counted.other a same, r.descendants a there]
  refine tally_congr_prop fun v _ => ?_
  simp [same]

theorem foldlM_updateFromBlock
    {R : List UInt256 → CTxMemPool × (UInt256 → Option (List UInt256)) → Prop}
    (step : ∀ b N s, R (b :: N) s → b ∈ p₀.mapTx → b ∈ B → b ∉ N → (∀ z ∈ N, ¬ p₀.Spends b z) →
      ∃ s', updateFromBlock B s b = some s' ∧ R N s') (r : R N s)
    (live : ∀ b ∈ N, b ∈ p₀.mapTx) (members : N ⊆ B) (nodup : N.Nodup)
    (order : N.Pairwise fun b z => ¬ p₀.Spends b z) :
    ∃ s', N.foldlM (updateFromBlock B) s = some s' ∧ R [] s' := by
  induction N generalizing s with
  | nil => exact ⟨s, rfl, r⟩
  | cons b N ih =>
    obtain ⟨fresh, nodup⟩ := nodup_cons.1 nodup
    obtain ⟨last, order⟩ := pairwise_cons.1 order
    obtain ⟨here, members⟩ := cons_subset.1 members
    obtain ⟨s', ran, r'⟩ := step b N s r (live b mem_cons_self) here fresh last
    rw [foldlM_cons, ran]
    exact ih r' (fun b later => live b (mem_cons_of_mem _ later)) members nodup order

theorem Relinking.start (w : p.Wired) (l : p.Linked B) :
    Relinking p B B.reverse (p, fun _ => none) := by
  constructor
  case frame => exact .refl p
  case cached => simp
  case parents => simpa only [mem_reverse] using l.parents
  case children =>
    intro _ there _
    rw [mem_reverse]
    exact l.children w there
  case parents_nodup => exact w.parents_nodup
  case children_nodup => exact w.children_nodup
  case behind =>
    intro y away z spends inside
    rw [mem_reverse] at away inside
    exact away (l.inward y z spends inside)

theorem Relinked.start (t : p.Tallied) (l : p.Linked B) :
    Relinked p B B.reverse (p, fun _ => none) := by
  refine ⟨Relinking.start t.wired l, fun v there => ?_, fun a there => ?_⟩
  · rw [t.ancestors v there]
    refine tally_congr_prop fun a here => ?_
    rw [mem_reverse]
    exact l.below_iff t.wired here
  rw [t.descendants a there]
  refine tally_congr_prop fun v _ => ?_
  rw [mem_reverse]
  exact l.below_iff t.wired there

theorem Tallied.spends_acyclic (t : p.Tallied) (l : p.Linked B) (spends : p.Spends a v) :
    ¬ p.Descends v a := by
  intro path
  have stays := l.inward a v spends
  have back := l.inward_path path
  exact t.acyclic v spends.2.1 a ((l.parents v spends.2.1 a).2 ⟨spends, back⟩)
    ((l.below_iff t.wired spends.2.1).2 ⟨path, stays⟩)

theorem Frame.spends (frame : Frame p p') : p'.Spends = p.Spends := by
  funext a v
  simp [Spends, frame.mapTx, tx_of_fixed (frame.fixed v)]

theorem Relinking.done (w : p.Wired)
    (l : p.Linked B) (r : Relinking p B [] s) : s.1.Wired ∧ s.1.Linked [] := by
  have tx : ∀ x, (s.1.entry x).tx = (p.entry x).tx := fun x => tx_of_fixed (r.frame.fixed x)
  have parents : ∀ v ∈ p.mapTx, ∀ a, a ∈ s.1.parents v ↔ p.Spends a v := by
    simpa only [not_mem_nil, false_imp_iff, and_true] using r.parents
  have children : ∀ a ∈ p.mapTx, ∀ v, v ∈ s.1.children a ↔ p.Spends a v := by
    simpa only [not_mem_nil, false_imp_iff, and_true] using r.children
  refine ⟨⟨⟨fun x live => ?_, fun v live a parent => ?_, ?_⟩, ?_, fun a live v child => ?_,
    fun a live v live' => ?_, ?_, fun x mem => ?_⟩, fun v live a => ?_, fun x => ?_, ?_, by simp⟩
  · rw [tx]
    exact w.key x (r.frame.mapTx ▸ live)
  · rw [r.frame.mapTx] at live ⊢
    exact ((parents v live a).1 parent).1
  · rw [r.frame.mapTx]
    exact r.parents_nodup
  · rw [r.frame.mapTx]
    exact w.nodup
  · rw [r.frame.mapTx] at live ⊢
    exact ((children a live v).1 child).2.1
  · rw [r.frame.mapTx] at live live'
    rw [children a live, parents v live']
  · rw [r.frame.mapTx]
    exact r.children_nodup
  · rw [r.frame.mapTx, tx]
    exact w.next_live x (r.frame.mapNextTx ▸ mem)
  · rw [r.frame.mapTx] at live
    simp [parents v live, r.frame.spends]
  · rw [r.frame.mapNextTx, r.frame.mapTx, tx, l.next]
  · rw [r.frame.mapNextTx]
    exact l.unique

theorem Relinked.done (t : p.Tallied)
    (l : p.Linked B) (r : Relinked p B [] s) : s.1.Tallied ∧ s.1.Linked [] := by
  obtain ⟨wired, linked⟩ := r.toRelinking.done t.wired l
  have below : ∀ a ∈ p.mapTx, ∀ v, s.1.Below a v ↔ p.Descends a v := by
    intro a live v
    rw [linked.below_iff wired (r.frame.mapTx ▸ live), Descends, r.frame.spends]
    simp only [not_mem_nil, false_imp_iff, and_true]
    rfl
  refine ⟨?_, linked⟩
  constructor
  case wired => exact wired
  case acyclic =>
    intro v live a parent path
    have spends := ((linked.parents v live a).1 parent).1
    rw [r.frame.spends] at spends
    exact t.spends_acyclic l spends ((below v spends.2.1 a).1 path)
  case deltas =>
    intro v live
    rw [r.frame.mapTx] at live
    rw [r.frame.mapDeltas, ← t.deltas v live]
    exact congrArg (fun f => f.2.2.2.2.2.2) (r.frame.fixed v)
  case standard =>
    intro v live
    rw [r.frame.mapTx] at live
    unfold CTxMemPoolEntry.SigOpsStandard
    rw [sigOpCost_of_fixed (r.frame.fixed v)]
    exact t.standard v live
  case ancestors =>
    intro v live
    rw [r.frame.mapTx] at live ⊢
    rw [r.ancestors v live]
    refine tally_congr (fun a _ _ => (own_of_fixed (r.frame.fixed a)).symm) fun a here => ?_
    simp [below a here]
  case descendants =>
    intro a live
    rw [r.frame.mapTx] at live ⊢
    rw [r.descendants a live]
    refine tally_congr (fun v _ _ => (weight_of_fixed (r.frame.fixed v)).symm) fun v _ => ?_
    simp [below a live]
  case totalTxSize =>
    rw [r.frame.totalTxSize, r.frame.mapTx, t.totalTxSize]
    exact congrArg sum (map_congr_left fun x _ => (nTxSize_of_fixed (r.frame.fixed x)).symm)

theorem Tallied.updateTransactionsFromBlock (t : p.Tallied) (l : p.Linked B)
    (live : ∀ b ∈ B, b ∈ p.mapTx) (nodup : B.Nodup)
    (order : B.Pairwise fun b c => ¬ p.Spends c b) :
    ∃ p', p.updateTransactionsFromBlock B = some p' ∧ p'.Tallied ∧ p'.Linked [] := by
  obtain ⟨s, ran, r⟩ := foldlM_updateFromBlock
    (fun b _ s r live mem fresh last => r.step l t live mem fresh last)
    (Relinked.start t l) (by simpa using live) (by simp) (nodup_reverse.2 nodup)
    (pairwise_reverse.2 order)
  refine ⟨s.1, ?_, r.done t l⟩
  rw [CTxMemPool.updateTransactionsFromBlock, ran]
  rfl

end CTxMemPool

end DogecoinCore
