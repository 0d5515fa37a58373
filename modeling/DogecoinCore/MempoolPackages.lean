import DogecoinCore.MempoolAsserts

/-! Runs of the pool: transactions come and go, fees are prioritised and blocks are
disconnected. The package totals stay exact as long as the sigop cost of a new entry's
ancestors fits the `int` it is handed on in, and no assertion fails as long as that of an
entry with its ancestors does. -/
namespace DogecoinCore
open List

namespace CTxMemPool
open CTxMemPoolEntry
variable {p p' q : CTxMemPool} {a b v x it : UInt256} {stage setAncestors B : List UInt256}
  {e : CTxMemPoolEntry} {limits : AncestorLimits} {s s' : CTxMemPool × List UInt256}

/-- Links are the spend relation, and totals the sums over its closures. -/
structure Exact (p : CTxMemPool) : Prop where
  parents : ∀ v ∈ p.mapTx, ∀ a, a ∈ p.parents v ↔ p.Spends a v
  children : ∀ a ∈ p.mapTx, ∀ v, v ∈ p.children a ↔ p.Spends a v
  ancestors : ∀ v ∈ p.mapTx,
    (p.entry v).withAncestors = tally p.mapTx (fun a => (p.entry a).own) (p.Descends · v)
  descendants : ∀ a ∈ p.mapTx,
    (p.entry a).withDescendants = tally p.mapTx (fun v => (p.entry v).weight) (p.Descends a)
  totalTxSize : p.totalTxSize = (p.mapTx.map fun x => (p.entry x).nTxSize).sum

theorem Tallied.exact (t : p.Tallied) (l : p.Linked []) : p.Exact := by
  have below : ∀ a ∈ p.mapTx, ∀ v, p.Below a v ↔ p.Descends a v := by
    intro a live v
    rw [l.below_iff t.wired live]
    simp
  constructor
  case parents =>
    intro v live a
    rw [l.parents v live]
    simp
  case children =>
    intro a live v
    rw [l.children t.wired live]
    simp
  case ancestors =>
    intro v live
    rw [t.ancestors v live]
    exact tally_congr_prop fun a here => below a here v
  case descendants =>
    intro a live
    rw [t.descendants a live]
    exact tally_congr_prop fun v _ => below a live v
  case totalTxSize => exact t.totalTxSize

/-! ### The transactions of a disconnected block -/

/-- A transaction of a disconnected block: `AcceptToMemoryPool` makes an entry of it and goes by the
limits, or refuses it. -/
inductive Resurrected where
  | accepted (e : CTxMemPoolEntry) (limits : AncestorLimits)
  | refused (tx : CTransaction)

/-- `CalculateMemPoolAncestors` and, if the limits allow it, `addUnchecked`. -/
def acceptEntry (p : CTxMemPool) (e : CTxMemPoolEntry) (limits : AncestorLimits) :
    Option (Option CTxMemPool) :=
  (p.calculateMemPoolAncestors limits e true).map (Option.map (p.addUnchecked e))

/-- The loop of `DisconnectTip` for one transaction; the second component is `vHashUpdate`. -/
def resurrect (s : CTxMemPool × List UInt256) : Resurrected → Option (CTxMemPool × List UInt256)
  | .accepted e limits =>
    match s.1.acceptEntry e limits with
    | some (some p) => some (p, s.2 ++ [e.tx.hash])
    | some none => (s.1.removeRecursive e.tx).map (·, s.2)
    | none => none
  | .refused tx => (s.1.removeRecursive tx).map (·, s.2)

/-- `DisconnectTip` after the block is undone: its transactions come back in block order. -/
def resurrectBlock (p : CTxMemPool) (vtx : List Resurrected) : Option CTxMemPool := do
  let s ← vtx.foldlM resurrect (p, [])
  s.1.updateTransactionsFromBlock s.2

/-- The pool while a block comes back; `B` are the transactions that are there again. -/
structure Resurrecting (p : CTxMemPool) (B : List UInt256) : Prop where
  tallied : p.Tallied
  linked : p.Linked B
  live : ∀ b ∈ B, b ∈ p.mapTx
  nodup : B.Nodup
  order : B.Pairwise fun b c => ¬ p.Spends c b

theorem Linked.congr (l : p.Linked B) (same : ∀ x, x ∈ B ↔ x ∈ B') : p.Linked B' := by
  refine ⟨fun v live a => ?_, l.next, l.unique, fun a v spends => ?_⟩
  · rw [← same, ← same]
    exact l.parents v live a
  · rw [← same, ← same]
    exact l.inward a v spends

theorem Resurrecting.added (r : p.Resurrecting B) (returns : p.Returns B e)
    (ran : p.calculateMemPoolAncestors limits e true = some (some setAncestors))
    (sigOps : p.sigOpsOf setAncestors < 2 ^ 31) :
    (p.addUnchecked e setAncestors).Resurrecting (B ++ [e.tx.hash]) := by
  have added := addUnchecked_added returns.absent setAncestors
  have fresh : e.tx.hash ∉ B := fun mem => returns.absent (r.live _ mem)
  have old_tx : ∀ x ∈ B, ((p.addUnchecked e setAncestors).entry x).tx = (p.entry x).tx :=
    fun x mem => tx_of_fixed (added.fixed x fun same => fresh (same ▸ mem))
  constructor
  case tallied => exact r.tallied.added returns.toNewcomer ran sigOps
  case linked =>
    refine (r.linked.added returns.enters r.live added).congr fun x => ?_
    simp [or_comm]
  case live =>
    intro b mem
    rw [added.mapTx]
    rcases mem_append.1 mem with old | new
    · exact mem_cons_of_mem _ (r.live b old)
    · rw [mem_singleton.1 new]
      exact mem_cons_self
  case nodup =>
    refine nodup_append.2 ⟨r.nodup, nodup_singleton _, fun x old _ new same => ?_⟩
    exact fresh (mem_singleton.1 new ▸ same ▸ old)
  case order =>
    refine pairwise_append.2 ⟨?_, pairwise_singleton _ _, fun b old c new => ?_⟩
    · refine r.order.imp_of_mem fun {b c} mem mem' apart => ?_
      rintro ⟨-, -, spent⟩
      rw [old_tx b mem] at spent
      exact apart ⟨r.live c mem', r.live b mem, spent⟩
    rintro ⟨-, -, i, input, spent⟩
    rw [old_tx b old] at input
    exact returns.first b old i input (spent.trans (mem_singleton.1 new))

private theorem spends_of_mem_rootsOf {tx : CTransaction} (w : p.Wired) (root : x ∈ p.rootsOf tx) :
    x = tx.hash ∨ ∃ i ∈ (p.entry x).tx.vin, i.prevout.hash = tx.hash := by
  unfold rootsOf at root
  by_cases present : tx.hash ∈ p.mapTx
  · rw [if_pos present, mem_singleton] at root
    exact .inl root
  rw [if_neg present, Worklist.mem_foldl_insert, mem_filterMap] at root
  obtain ⟨n, -, found⟩ := root.resolve_right not_mem_nil
  obtain ⟨_, _, split, -⟩ := lookup_eq_some_iff.1 found
  obtain ⟨-, i, input, spent⟩ := w.next_live (⟨tx.hash, UInt32.ofNat n⟩, x) (by simp [split])
  exact .inr ⟨i, input, by rw [spent]⟩

theorem Resurrecting.removeRecursive {tx : CTransaction} (r : p.Resurrecting B)
    (apart : ∀ b ∈ B, b ≠ tx.hash ∧ ∀ i ∈ (p.entry b).tx.vin, i.prevout.hash ≠ tx.hash) :
    ∃ p', p.removeRecursive tx = some p' ∧ p'.Resurrecting B := by
  have w := r.tallied.wired
  obtain ⟨stage, _, -, nodup, closed, members, inside, ran, removed⟩ :=
    removeWithDescendants_spec w (rootsOf_live w tx)
  have stays : ∀ b ∈ B, b ∉ stage := by
    intro b mem staged
    obtain ⟨root, start, path⟩ := (members b).1 staged
    have path := ((r.linked.below_iff w (rootsOf_live w tx root start)).1 path).1
    have back := r.linked.inward_path path mem
    rcases spends_of_mem_rootsOf w start with same | ⟨i, input, spent⟩
    · exact (apart root back).1 same
    · exact (apart root back).2 i input spent
  refine ⟨_, ran, ?_⟩
  constructor
  case tallied => exact r.tallied.removed removed nodup inside (.inl ⟨rfl, closed⟩)
  case linked => exact r.linked.removed removed inside
  case live => exact fun b mem => removed.mem.2 ⟨r.live b mem, stays b mem⟩
  case nodup => exact r.nodup
  case order =>
    refine r.order.imp fun {b c} before => ?_
    rintro ⟨live, live', spent⟩
    rw [tx_of_fixed (removed.fixed b)] at spent
    exact before ⟨(removed.mem.1 live).1, (removed.mem.1 live').1, spent⟩

/-- What holds of a block of the active chain: a transaction does not come back before those it
spends, and it does not come back twice. -/
def Resurrected.Called (s : CTxMemPool × List UInt256) : Resurrected → Prop
  | .accepted e _ => s.1.Returns s.2 e
  | .refused tx => ∀ b ∈ s.2, b ≠ tx.hash ∧ ∀ i ∈ (s.1.entry b).tx.vin, i.prevout.hash ≠ tx.hash

/-- The sigop costs of the ancestors of a new entry fit an `int`. -/
def SigOpsFit (p : CTxMemPool) (e : CTxMemPoolEntry) (limits : AncestorLimits) : Prop :=
  ∀ setAncestors, p.calculateMemPoolAncestors limits e true = some (some setAncestors) →
    p.sigOpsOf setAncestors < 2 ^ 31

/-- The sums that are formed for a new entry fit, and so do all sums in the pool that has it. -/
def Fits (p : CTxMemPool) (e : CTxMemPoolEntry) (limits : AncestorLimits) : Prop :=
  ∀ setAncestors, p.calculateMemPoolAncestors limits e true = some (some setAncestors) →
    p.sigOpsOf setAncestors < 2 ^ 31 ∧ (p.addUnchecked e setAncestors).Bounded

theorem Fits.sigOpsFit (fits : p.Fits e limits) : p.SigOpsFit e limits :=
  fun setAncestors ran => (fits setAncestors ran).1

def Resurrected.SigOpsFit (s : CTxMemPool × List UInt256) : Resurrected → Prop
  | .accepted e limits => s.1.SigOpsFit e limits
  | .refused _ => True

def Resurrected.Fits (s : CTxMemPool × List UInt256) : Resurrected → Prop
  | .accepted e limits => s.1.Fits e limits
  | .refused _ => True

def Throughout (P : CTxMemPool × List UInt256 → Resurrected → Prop) :
    List Resurrected → CTxMemPool × List UInt256 → Prop
  | [], _ => True
  | r :: rest, s => P s r ∧ ∀ s', resurrect s r = some s' → Throughout P rest s'

theorem Throughout.imp (weaker : ∀ s r, P s r → Q s r) (holds : Throughout P vtx s) :
    Throughout Q vtx s := by
  induction vtx generalizing s with
  | nil => trivial
  | cons r vtx ih => exact ⟨weaker s r holds.1, fun s' ran => ih (holds.2 s' ran)⟩

theorem Resurrected.Fits.sigOpsFit {r : Resurrected} (fits : r.Fits s) : r.SigOpsFit s := by
  cases r with
  | accepted e limits => exact CTxMemPool.Fits.sigOpsFit fits
  | refused tx => trivial

theorem acceptEntry_cases (w : p.Wired) (e : CTxMemPoolEntry) (limits : AncestorLimits) :
    p.acceptEntry e limits = some none ∨
      ∃ setAncestors, p.calculateMemPoolAncestors limits e true = some (some setAncestors) ∧
        p.acceptEntry e limits = some (some (p.addUnchecked e setAncestors)) := by
  obtain ⟨result, ran⟩ := calculateAncestors_ends w.toWiredUp e limits
  cases result with
  | none =>
    left
    rw [acceptEntry, ran]
    rfl
  | some setAncestors =>
    right
    refine ⟨setAncestors, ran, ?_⟩
    rw [acceptEntry, ran]
    rfl

theorem Resurrecting.resurrect (inv : s.1.Resurrecting s.2) (called : r.Called s)
    (fit : r.SigOpsFit s) : ∃ s', resurrect s r = some s' ∧ s'.1.Resurrecting s'.2 := by
  cases r with
  | accepted e limits =>
    have returns := called
    rcases acceptEntry_cases inv.tallied.wired e limits with refused | ⟨setAncestors, ran, accepted⟩
    · have apart : ∀ b ∈ s.2,
          b ≠ e.tx.hash ∧ ∀ i ∈ (s.1.entry b).tx.vin, i.prevout.hash ≠ e.tx.hash :=
        fun b mem => ⟨fun same => returns.absent (same ▸ inv.live b mem),
          returns.first b mem⟩
      obtain ⟨p', removed, inv'⟩ := inv.removeRecursive apart
      refine ⟨(p', s.2), ?_, inv'⟩
      simp [CTxMemPool.resurrect, refused, removed]
    refine ⟨(s.1.addUnchecked e setAncestors, s.2 ++ [e.tx.hash]), ?_,
      inv.added returns ran (fit setAncestors ran)⟩
    simp [CTxMemPool.resurrect, accepted]
  | refused tx =>
    obtain ⟨p', removed, inv'⟩ := inv.removeRecursive called
    refine ⟨(p', s.2), ?_, inv'⟩
    simp [CTxMemPool.resurrect, removed]

theorem Resurrecting.foldlM (inv : s.1.Resurrecting s.2)
    (called : Throughout (fun s r => r.Called s) vtx s)
    (fit : Throughout (fun s r => r.SigOpsFit s) vtx s) :
    ∃ s', vtx.foldlM CTxMemPool.resurrect s = some s' ∧ s'.1.Resurrecting s'.2 := by
  induction vtx generalizing s with
  | nil => exact ⟨s, rfl, inv⟩
  | cons r vtx ih =>
    obtain ⟨s', ran, inv'⟩ := inv.resurrect called.1 fit.1
    rw [foldlM_cons, ran]
    exact ih inv' (called.2 s' ran) (fit.2 s' ran)

private theorem Resurrecting.resurrect_asserted (inv : s.1.Resurrecting s.2)
    (bounded : s.1.Bounded) (held : s.1.asserted) (called : r.Called s) (fits : r.Fits s)
    (ran : CTxMemPool.resurrect s r = some s') : s'.1.asserted ∧ s'.1.Bounded := by
  have removal {tx : CTransaction} (ran : (s.1.removeRecursive tx).map (·, s.2) = some s') :
      s'.1.asserted ∧ s'.1.Bounded := by
    obtain ⟨p', removed, rfl⟩ := Option.map_eq_some_iff.1 ran
    exact removeWithDescendants_asserted inv.tallied inv.linked bounded held
      (rootsOf_live inv.tallied.wired tx) removed
  cases r with
  | accepted e limits =>
    rcases acceptEntry_cases inv.tallied.wired e limits with refused | ⟨setAncestors, found, accepted⟩
    · simp only [CTxMemPool.resurrect, refused] at ran
      exact removal ran
    simp only [CTxMemPool.resurrect, accepted, Option.some.injEq] at ran
    obtain ⟨small, after⟩ := fits setAncestors found
    have returns : s.1.Returns s.2 e := called
    have inv' := inv.added returns found small
    subst ran
    refine ⟨after.added inv'.tallied inv'.linked held returns.absent fun a mem => ?_, after⟩
    exact (((calculateAncestors_search inv.tallied.wired found).2 a).1 mem).1
  | refused tx => exact removal ran

private theorem Resurrecting.foldlM_asserted (inv : s.1.Resurrecting s.2) (bounded : s.1.Bounded)
    (held : s.1.asserted) (called : Throughout (fun s r => r.Called s) vtx s)
    (fits : Throughout (fun s r => r.Fits s) vtx s)
    (ran : vtx.foldlM CTxMemPool.resurrect s = some s') : s'.1.asserted ∧ s'.1.Bounded := by
  induction vtx generalizing s with
  | nil =>
    cases ran
    exact ⟨held, bounded⟩
  | cons r vtx ih =>
    obtain ⟨mid, first, inv'⟩ := inv.resurrect called.1 fits.1.sigOpsFit
    obtain ⟨held', bounded'⟩ := inv.resurrect_asserted bounded held called.1 fits.1 first
    rw [foldlM_cons, first] at ran
    exact ih inv' bounded' held' (called.2 mid first) (fits.2 mid first) ran

private theorem Tallied.resurrectBlock_asserted (t : p.Tallied) (l : p.Linked [])
    (bounded : p.Bounded) (held : p.asserted)
    (called : Throughout (fun s r => r.Called s) vtx (p, []))
    (fits : Throughout (fun s r => r.Fits s) vtx (p, []))
    (ran : p.resurrectBlock vtx = some p') : p'.asserted ∧ p'.Bounded := by
  have start : p.Resurrecting [] := ⟨t, l, by simp, nodup_nil, .nil⟩
  obtain ⟨s, first, inv⟩ :=
    Resurrecting.foldlM start called (fits.imp fun _ _ fits => fits.sigOpsFit)
  obtain ⟨held', bounded'⟩ := start.foldlM_asserted bounded held called fits first
  rw [CTxMemPool.resurrectBlock, first] at ran
  exact updateTransactionsFromBlock_asserted bounded' inv.tallied inv.linked held' inv.live
    inv.nodup inv.order ran

theorem Tallied.resurrectBlock (t : p.Tallied) (l : p.Linked [])
    (called : Throughout (fun s r => r.Called s) vtx (p, []))
    (fit : Throughout (fun s r => r.SigOpsFit s) vtx (p, [])) :
    ∃ p', p.resurrectBlock vtx = some p' ∧ p'.Tallied ∧ p'.Linked [] := by
  have start : p.Resurrecting [] := ⟨t, l, by simp, nodup_nil, .nil⟩
  obtain ⟨s, ran, inv⟩ := Resurrecting.foldlM start called fit
  obtain ⟨p', relinked, done⟩ :=
    inv.tallied.updateTransactionsFromBlock inv.linked inv.live inv.nodup inv.order
  refine ⟨p', ?_, done⟩
  rw [CTxMemPool.resurrectBlock, ran]
  exact relinked

/-! ### Runs -/

inductive PackageEvent where
  | accept (e : CTxMemPoolEntry) (limits : AncestorLimits)
  | removeRecursive (tx : CTransaction)
  | removeStaged (stage : List UInt256) (updateDescendants : Bool)
  | prioritiseTransaction (hash : UInt256) (nFeeDelta : CAmount)
  | disconnect (vtx : List Resurrected)

namespace PackageEvent
/-- What an operation does; a transaction the limits do not allow is not added. -/
def update : PackageEvent → CTxMemPool → Option CTxMemPool
  | accept e limits, p => (p.acceptEntry e limits).map (Option.getD · p)
  | removeRecursive tx, p => p.removeRecursive tx
  | removeStaged stage updateDescendants, p => p.removeStaged stage updateDescendants
  | prioritiseTransaction hash nFeeDelta, p => p.prioritiseTransaction hash nFeeDelta
  | disconnect vtx, p => p.resurrectBlock vtx

def apply (event : PackageEvent) (p : CTxMemPool) : Option CTxMemPool :=
  (event.update p).filter (·.asserted)

/-- What the callers see to. A new transaction is not in the pool, conflicts with nothing in it and
has no children there; a stage is closed under descendants or, for confirmed transactions, under
ancestors. -/
def Called : PackageEvent → CTxMemPool → Prop
  | accept e _, p => p.Returns p.mapTx e
  | removeStaged stage updateDescendants, p =>
    stage.Nodup ∧ (∀ it ∈ stage, it ∈ p.mapTx) ∧
      if updateDescendants then p.AboveClosed stage else p.BelowClosed stage
  | disconnect vtx, p => Throughout (fun s r => r.Called s) vtx (p, [])
  | _, _ => True

/-- Where a new entry meets its ancestors, their sigop costs fit an `int`. -/
def SigOpsFit : PackageEvent → CTxMemPool → Prop
  | accept e limits, p => p.SigOpsFit e limits
  | disconnect vtx, p => Throughout (fun s r => r.SigOpsFit s) vtx (p, [])
  | _, _ => True

/-- Every entry's sigop cost together with its ancestors' fits an `int`, now and with each new
entry. -/
def Fits : PackageEvent → CTxMemPool → Prop
  | accept e limits, p => p.Fits e limits
  | disconnect vtx, p => Throughout (fun s r => r.Fits s) vtx (p, [])
  | _, _ => True

theorem Fits.sigOpsFit {event : PackageEvent} (fits : event.Fits p) : event.SigOpsFit p := by
  cases event with
  | accept e limits => exact CTxMemPool.Fits.sigOpsFit fits
  | disconnect vtx => exact Throughout.imp (fun _ _ fits => fits.sigOpsFit) fits
  | _ => trivial

theorem update_exact (t : p.Tallied) (l : p.Linked []) (event : PackageEvent)
    (called : event.Called p) (fit : event.SigOpsFit p) :
    ∃ p', event.update p = some p' ∧ p'.Tallied ∧ p'.Linked [] := by
  cases event with
  | accept e limits =>
    have returns := called
    rcases acceptEntry_cases t.wired e limits with refused | ⟨setAncestors, ran, accepted⟩
    · exact ⟨p, by rw [update, refused]; rfl, t, l⟩
    have added := addUnchecked_added returns.absent setAncestors
    have whole := (linked_whole.2 l).added returns.enters (fun _ => id) added
    rw [← added.mapTx] at whole
    exact ⟨_, by rw [update, accepted]; rfl, t.added returns.toNewcomer ran (fit setAncestors ran),
      linked_whole.1 whole⟩
  | removeRecursive tx =>
    have start : p.Resurrecting [] := ⟨t, l, by simp, nodup_nil, .nil⟩
    obtain ⟨p', ran, inv⟩ : ∃ p', p.removeRecursive tx = some p' ∧ p'.Resurrecting [] :=
      start.removeRecursive (by simp)
    exact ⟨p', ran, inv.tallied, inv.linked⟩
  | removeStaged _ updateDescendants =>
    obtain ⟨nodup, inside, closed⟩ := called
    obtain ⟨_, -, ran, removed⟩ := removeStaged_spec t.wired inside updateDescendants
    refine ⟨_, ran, t.removed removed nodup inside ?_, l.removed removed inside⟩
    cases updateDescendants with
    | false => exact .inl ⟨rfl, closed⟩
    | true => exact .inr ⟨rfl, closed⟩
  | prioritiseTransaction hash nFeeDelta =>
    obtain ⟨p', ran, t', mapTx, tx, parents, next⟩ := t.prioritiseTransaction hash nFeeDelta
    exact ⟨p', ran, t', l.of_same mapTx tx parents next⟩
  | disconnect _ => exact t.resurrectBlock l called fit

theorem update_asserted (t : p.Tallied) (l : p.Linked []) (bounded : p.Bounded) (held : p.asserted)
    {event : PackageEvent} (called : event.Called p) (fits : event.Fits p)
    (ran : event.update p = some p') : p'.asserted ∧ p'.Bounded := by
  cases event with
  | accept e limits =>
    rcases acceptEntry_cases t.wired e limits with refused | ⟨setAncestors, found, accepted⟩
    · rw [update, refused] at ran
      cases ran
      exact ⟨held, bounded⟩
    obtain ⟨_, ran', t', l'⟩ := update_exact t l (.accept e limits) called fits.sigOpsFit
    cases ran'.symm.trans ran
    rw [update, accepted] at ran
    cases ran
    have after := (fits setAncestors found).2
    refine ⟨after.added t' l' held called.absent fun a mem => ?_, after⟩
    exact (((calculateAncestors_search t.wired found).2 a).1 mem).1
  | removeRecursive tx =>
    exact removeWithDescendants_asserted t l bounded held (rootsOf_live t.wired tx) ran
  | removeStaged stage updateDescendants =>
    exact removeStaged_asserted t l bounded held called.1 called.2.1 ran
  | prioritiseTransaction hash nFeeDelta =>
    obtain ⟨_, ran', asserted, bounded'⟩ := t.prioritise_asserted l bounded held hash nFeeDelta
    cases ran'.symm.trans ran
    exact ⟨asserted, bounded'⟩
  | disconnect vtx => exact t.resurrectBlock_asserted l bounded held called fits ran

/-- A run from an empty pool in which every step is called as its callers do and meets a
condition. -/
inductive Run (condition : PackageEvent → CTxMemPool → Prop) : List PackageEvent → CTxMemPool → Prop
  | start : Run condition [] empty
  | step {events : List PackageEvent} {p p' : CTxMemPool} (event : PackageEvent)
      (before : Run condition events p) (called : event.Called p) (meets : condition event p)
      (ran : event.apply p = some p') : Run condition (events ++ [event]) p'

theorem Run.tallied (run : Run SigOpsFit events p) : p.Tallied ∧ p.Linked [] := by
  induction run with
  | start => exact ⟨.empty, .empty⟩
  | step event _ called fit ran ih =>
    obtain ⟨_, ran', after⟩ := update_exact ih.1 ih.2 event called fit
    rw [apply, ran'] at ran
    cases (Option.filter_eq_some_iff.1 ran).1
    exact after

theorem Run.weaken (run : Run condition events p)
    (weaker : ∀ event p, condition event p → condition' event p) : Run condition' events p := by
  induction run with
  | start => exact .start
  | step event _ called meets ran ih => exact .step event ih called (weaker _ _ meets) ran

private theorem Run.sigOpsFit (run : Run Fits events p) : Run SigOpsFit events p :=
  run.weaken fun _ _ fits => fits.sigOpsFit

theorem Run.asserted (run : Run Fits events p) : p.asserted ∧ p.Bounded := by
  induction run with
  | start => exact ⟨rfl, by simp [empty], by simp_all [empty], by simp [empty]⟩
  | step event before called fits ran ih =>
    obtain ⟨t, l⟩ := before.sigOpsFit.tallied
    obtain ⟨ran, -⟩ := Option.filter_eq_some_iff.1 ran
    exact update_asserted t l ih.2 ih.1 called fits ran

end PackageEvent

private theorem calculateAncestors_orphan (orphan : ∀ i ∈ e.tx.vin, i.prevout.hash ∉ p.mapTx) :
    p.calculateMemPoolAncestors limits e true = some (some []) := by
  have search : ∀ vin : List CTxIn, (∀ i ∈ vin, i.prevout.hash ∉ p.mapTx) →
      p.searchForParents limits.ancestorCount vin [] = some [] := by
    intro vin
    induction vin with
    | nil => exact fun _ => rfl
    | cons i vin ih =>
      intro orphan
      rw [searchForParents, if_neg (orphan i mem_cons_self)]
      exact ih fun j later => orphan j (mem_cons_of_mem i later)
  simp only [calculateMemPoolAncestors, if_true, search e.tx.vin orphan]
  exact iterate.succ_leave rfl

/-- The id of the `i`-th transaction of a fan. -/
def fanHash (i : ℕ) : UInt256 := BitVec.ofNat 256 (i + 1)

theorem fanHash_inj (hi : i ≤ 2 ^ 32) (hj : j ≤ 2 ^ 32) (same : fanHash i = fanHash j) : i = j := by
  have := congrArg BitVec.toNat same
  simp only [fanHash, BitVec.toNat_ofNat] at this
  omega

theorem fanHash_ne_zero (hi : i ≤ 2 ^ 32) : (0 : UInt256) ≠ fanHash i := by
  intro same
  have := congrArg BitVec.toNat same
  simp only [fanHash, BitVec.toNat_ofNat] at this
  simp at this
  omega

/-- A transaction that spends a confirmed output, with as many sigops as are standard. -/
def fanLeaf (i : ℕ) : CTxMemPoolEntry :=
  .create (.simple ⟨0, UInt32.ofNat i⟩ (fanHash i)) 1000 0 false 16000 200

def fanTop (n : ℕ) : CTxMemPoolEntry :=
  .create { CTransaction.simple ⟨0, 0⟩ (fanHash n) with
    vin := (range n).map fun i => ⟨⟨fanHash i, 0⟩, [], 0, []⟩ } 1000 0 false 16000
    (UInt64.ofNat (41 * n + 51))

def fanPool : ℕ → CTxMemPool
  | 0 => empty
  | n + 1 => (fanPool n).addUnchecked (fanLeaf n) []

def fanEvents (n : ℕ) : List PackageEvent := (range n).map fun i => .accept (fanLeaf i) .nNoLimit

/-- What the pool holds after `n` leaves. -/
structure Fanned (n : ℕ) (p : CTxMemPool) : Prop where
  run : PackageEvent.Run PackageEvent.SigOpsFit (fanEvents n) p
  mem : ∀ x, x ∈ p.mapTx ↔ ∃ i < n, fanHash i = x
  length : p.mapTx.length = n
  entry : ∀ i < n, (p.entry (fanHash i)).fixed = (fanLeaf i).fixed
  alone : ∀ i < n, (p.entry (fanHash i)).withDescendants = (1, 200, 1000)
  deltas : p.mapDeltas = fun _ => none
  asserted : p.asserted

theorem Fanned.tx (fan : Fanned n p) (lt : i < n) :
    (p.entry (fanHash i)).tx = .simple ⟨0, UInt32.ofNat i⟩ (fanHash i) :=
  tx_of_fixed (fan.entry i lt)

theorem Fanned.prevout (fan : Fanned n p) (live : x ∈ p.mapTx)
    (input : i ∈ (p.entry x).tx.vin) : ∃ j < n, i.prevout = ⟨0, UInt32.ofNat j⟩ := by
  obtain ⟨j, lt, rfl⟩ := (fan.mem x).1 live
  rw [fan.tx lt] at input
  simp only [CTransaction.simple, mem_singleton] at input
  exact ⟨j, lt, by rw [input]⟩

theorem Fanned.unspent (fan : Fanned n p)
    (apart : ∀ j < n, o ≠ ⟨0, UInt32.ofNat j⟩) : p.mapNextTx.lookup o = none := by
  refine lookup_eq_none_iff.2 fun s mem => ?_
  obtain ⟨live, _, input, spent⟩ := (fan.run.tallied.2.next s).1 mem
  obtain ⟨j, lt, out⟩ := fan.prevout live input
  rw [bne_iff_ne, ← spent, out]
  exact apart j lt

theorem Fanned.zero : Fanned 0 empty where
  run := .start
  mem := by simp [empty]
  length := rfl
  entry := by simp
  alone := by simp
  deltas := rfl
  asserted := rfl

section
variable (fan : Fanned n p) (small : n < 2 ^ 32)
include fan small

private theorem Fanned.absent : (fanLeaf n).tx.hash ∉ p.mapTx := by
  intro live
  obtain ⟨i, lt, same⟩ := (fan.mem _).1 live
  have := fanHash_inj (by omega) (by omega) (show fanHash i = fanHash n from same)
  omega

private theorem Fanned.zero_absent : (0 : UInt256) ∉ p.mapTx := by
  intro live
  obtain ⟨i, lt, same⟩ := (fan.mem _).1 live
  exact fanHash_ne_zero (by omega) same.symm

omit fan small in
private theorem fanLeaf_input (input : i ∈ (fanLeaf n).tx.vin) : i.prevout = ⟨0, UInt32.ofNat n⟩ := by
  simp only [fanLeaf, create, CTransaction.simple, mem_singleton] at input
  rw [input]

private theorem Fanned.returns : p.Returns p.mapTx (fanLeaf n) := by
  have standard : (fanLeaf n).SigOpsStandard :=
    show 0 ≤ (16000 : Int64).toInt ∧ (16000 : Int64).toInt ≤ MAX_STANDARD_TX_SIGOPS_COST by decide
  refine ⟨⟨rfl, fan.absent small, standard, fun i input => ?_⟩, fun i input => ?_, fun _ _ => id,
    fun x live i input => ?_⟩
  · rw [fanLeaf_input input]
    exact fanHash_ne_zero (by omega)
  · rw [fanLeaf_input input]
    refine fan.unspent fun j lt same => ?_
    have := congrArg (fun o => o.n.toNat) same
    simp only [UInt32.toNat_ofNat_of_lt' (show n < UInt32.size from small),
      UInt32.toNat_ofNat_of_lt' (show j < UInt32.size from lt.trans small)] at this
    omega
  obtain ⟨j, -, out⟩ := fan.prevout live input
  rw [out]
  exact fanHash_ne_zero (by omega)

private theorem Fanned.ancestors :
    p.calculateMemPoolAncestors .nNoLimit (fanLeaf n) true = some (some []) :=
  calculateAncestors_orphan fun i input => by
    rw [fanLeaf_input input]
    exact fan.zero_absent small

private theorem Fanned.leaf_asserted : (p.addUnchecked (fanLeaf n) []).asserted := by
  have new : ((p.addUnchecked (fanLeaf n) []).entry (fanLeaf n).tx.hash).withAncestors =
      (1, 200, 1000, 16000) := by
    rw [(addUnchecked_added (fan.absent small) []).ancestors_new not_mem_nil, fan.deltas]
    rfl
  refine addUnchecked_asserted fan.asserted (fan.absent small) not_mem_nil (by simp) ?_
  rw [ancestorsAsserted_of new]
  decide

private theorem Fanned.applied : (PackageEvent.accept (fanLeaf n) .nNoLimit).apply p
    = some (p.addUnchecked (fanLeaf n) []) := by
  rw [PackageEvent.apply, PackageEvent.update, acceptEntry, fan.ancestors small]
  exact Option.filter_eq_some_iff.2 ⟨rfl, fan.leaf_asserted small⟩

theorem Fanned.succ : Fanned (n + 1) (p.addUnchecked (fanLeaf n) []) := by
  have added := addUnchecked_added (fan.absent small) []
  have other : ∀ i < n, fanHash i ≠ (fanLeaf n).tx.hash := fun i lt same => by
    have := fanHash_inj (by omega) (by omega) (show fanHash i = fanHash n from same)
    omega
  constructor
  case run =>
    rw [fanEvents, range_succ, map_append]
    refine .step _ fan.run (fan.returns small) (fun _ ran => ?_) (fan.applied small)
    rw [fan.ancestors small] at ran
    cases ran
    exact show (0 : ℤ) < 2 ^ 31 by decide
  case mem =>
    intro x
    rw [added.mapTx, mem_cons, fan.mem]
    constructor
    · rintro (rfl | ⟨i, lt, same⟩)
      · exact ⟨n, by omega, rfl⟩
      · exact ⟨i, by omega, same⟩
    rintro ⟨i, lt, rfl⟩
    rcases Nat.lt_succ_iff_lt_or_eq.1 lt with old | new
    · exact .inr ⟨i, old, rfl⟩
    · exact .inl (by rw [new]; rfl)
  case length => rw [added.mapTx, length_cons, fan.length]
  case entry =>
    intro i lt
    rcases Nat.lt_succ_iff_lt_or_eq.1 lt with old | rfl
    · rw [added.fixed (fanHash i) (other i old), fan.entry i old]
    have new := added.new
    rw [fan.deltas] at new
    exact new
  case alone =>
    intro i lt
    rcases Nat.lt_succ_iff_lt_or_eq.1 lt with old | rfl
    · rw [added.descendants (fanHash i) (other i old), fan.alone i old, whenever_neg not_mem_nil,
        add_zero]
    have new := added.descendants_new not_mem_nil
    rw [fan.deltas] at new
    exact new
  case deltas => rw [added.mapDeltas, fan.deltas]
  case asserted => exact fan.leaf_asserted small

end

theorem fanPool_fanned (small : n ≤ 2 ^ 32) : Fanned n (fanPool n) := by
  induction n with
  | zero => exact .zero
  | succ n ih => exact (ih (by omega)).succ (by omega)

private theorem Fanned.small (fan : Fanned n p) (live : x ∈ p.mapTx) :
    (p.entry x).nTxSize.toNat = 200 ∧ (p.entry x).sigOpCost = 16000 := by
  obtain ⟨i, lt, rfl⟩ := (fan.mem x).1 live
  rw [nTxSize_of_fixed (fan.entry i lt), sigOpCost_of_fixed (fan.entry i lt)]
  exact ⟨rfl, rfl⟩

private theorem Fanned.bounded (fan : Fanned n p) (few : n ≤ 1000) : p.Bounded := by
  refine .of_few (fan.length ▸ few) (fun x live => ?_) fun x live => ?_
  · rw [(fan.small live).1]
    decide
  · rw [CTxMemPoolEntry.SigOpsStandard, (fan.small live).2]
    decide

theorem fanTop_input : i ∈ (fanTop n).tx.vin → ∃ j < n, i.prevout = ⟨fanHash j, 0⟩ := by
  intro input
  simp only [fanTop, create, List.mem_map, List.mem_range] at input
  obtain ⟨j, lt, rfl⟩ := input
  exact ⟨j, lt, rfl⟩

theorem Fanned.top (fan : Fanned n p) (small : n < 2 ^ 32) :
    p.Returns p.mapTx (fanTop n) ∧ ∃ setAncestors, setAncestors.Perm p.mapTx ∧
      p.calculateMemPoolAncestors .nNoLimit (fanTop n) true = some (some setAncestors) := by
  have wired := fan.run.tallied.1.wired
  constructor
  · have standard : (fanTop n).SigOpsStandard :=
      show 0 ≤ (16000 : Int64).toInt ∧ (16000 : Int64).toInt ≤ MAX_STANDARD_TX_SIGOPS_COST by decide
    refine ⟨⟨rfl, fun live => ?_, standard, fun i input same => ?_⟩, fun i input => ?_,
      fun _ _ => id, fun x live i input => ?_⟩
    · obtain ⟨i, lt, same⟩ := (fan.mem _).1 live
      have := fanHash_inj (by omega) (by omega) (show fanHash i = fanHash n from same)
      omega
    · obtain ⟨j, lt, out⟩ := fanTop_input input
      rw [out] at same
      have := fanHash_inj (by omega) (by omega) (show fanHash j = fanHash n from same)
      omega
    · obtain ⟨j, lt, out⟩ := fanTop_input input
      rw [out]
      refine fan.unspent fun _ _ same => ?_
      exact fanHash_ne_zero (show j ≤ 2 ^ 32 by omega) (congrArg COutPoint.hash same).symm
    obtain ⟨j, -, out⟩ := fan.prevout live input
    rw [out]
    exact fanHash_ne_zero (by omega)
  · obtain ⟨setAncestors, ran⟩ := calculateAncestors_nNoLimit wired.toWiredUp (fanTop n)
    obtain ⟨nodup, members⟩ := calculateAncestors_search wired ran
    refine ⟨setAncestors, (perm_ext_iff_of_nodup nodup wired.nodup).2 fun x => ?_, ran⟩
    rw [members]
    refine ⟨And.left, fun live => ⟨live, x, live, ?_, .refl⟩⟩
    obtain ⟨j, lt, rfl⟩ := (fan.mem x).1 live
    refine ⟨⟨⟨fanHash j, 0⟩, [], 0, []⟩, ?_, rfl⟩
    simp only [fanTop, create, List.mem_map, List.mem_range]
    exact ⟨j, lt, rfl⟩

/-- **No two entries conflict, and none descends from itself.** -/
theorem conflict_free (run : PackageEvent.Run PackageEvent.SigOpsFit events p) :
    (∀ v ∈ p.mapTx, ∀ w ∈ p.mapTx, ∀ i ∈ (p.entry v).tx.vin, ∀ j ∈ (p.entry w).tx.vin,
      i.prevout = j.prevout → v = w) ∧ ∀ a v, p.Spends a v → ¬ p.Descends v a := by
  obtain ⟨t, l⟩ := run.tallied
  refine ⟨fun v live w live' i mem j mem' => ?_, fun _ _ => t.spends_acyclic l⟩
  exact l.unique (_, v) ((l.next _).2 ⟨live, i, mem, rfl⟩) (_, w)
    ((l.next _).2 ⟨live', j, mem', rfl⟩)

theorem conflict_free_fan : (fanPool 3).mapTx.length = 3 ∧ ∀ v ∈ (fanPool 3).mapTx,
    ∀ w ∈ (fanPool 3).mapTx, ∀ i ∈ ((fanPool 3).entry v).tx.vin,
      ∀ j ∈ ((fanPool 3).entry w).tx.vin, i.prevout = j.prevout → v = w := by
  have fan : Fanned 3 (fanPool 3) := fanPool_fanned (by decide)
  exact ⟨fan.length, (conflict_free fan.run).1⟩

end CTxMemPool

end DogecoinCore
