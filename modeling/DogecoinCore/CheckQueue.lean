import Mathlib.Algebra.Order.BigOperators.Group.Finset
import Mathlib.Algebra.Order.Ring.Int
import Mathlib.Data.Fintype.BigOperators
import Mathlib.Data.UInt
import Mathlib.Tactic.Abel

/-! Parallel script verification: `CCheckQueue`, the loop its threads run, and the controller a
block's connection holds on it. A step is one critical section of the mutex or one check that a
thread finishes, and a waiting thread may wake at any time, so that notifications need no model. -/
namespace DogecoinCore
open List Multiset UInt32 Finset Option Nat Function

structure CCheckQueue (T : Type) where
  queue : List T
  nIdle : ℤ
  nTotal : ℤ
  fAllOk : Bool
  nTodo : UInt32
  fQuit : Bool
  nBatchSize : UInt32

namespace CCheckQueue
variable {T ι : Type}

def new (nBatchSizeIn : UInt32) : CCheckQueue T where
  queue := []
  nIdle := 0
  nTotal := 0
  fAllOk := true
  nTodo := 0
  fQuit := false
  nBatchSize := nBatchSizeIn

def add (q : CCheckQueue T) (vChecks : List T) : CCheckQueue T :=
  { q with queue := q.queue ++ vChecks, nTodo := q.nTodo + ofNat vChecks.length }

/-- The head of the critical section: the clean-up of the previous run of the loop, or the count of
a thread that enters. -/
def cleanUp (q : CCheckQueue T) (nNow : UInt32) (fOk : Bool) : CCheckQueue T :=
  if nNow ≠ 0 then { q with fAllOk := q.fAllOk && fOk, nTodo := q.nTodo - nNow }
  else { q with nTotal := q.nTotal + 1 }

def nextBatch (q : CCheckQueue T) : UInt32 :=
  max 1 (min q.nBatchSize (ofNat q.queue.length / ofInt (q.nTotal + q.nIdle + 1)))

def batch (q : CCheckQueue T) : List T :=
  (q.queue.drop (q.queue.length - q.nextBatch.toNat)).reverse

def takeBatch (q : CCheckQueue T) : CCheckQueue T :=
  { q with queue := q.queue.take (q.queue.length - q.nextBatch.toNat) }

section
variable (q : CCheckQueue T)
include q

theorem toNat_nextBatch : q.nextBatch.toNat = max 1 (min q.nBatchSize.toNat
      (q.queue.length % 2 ^ 32 / (UInt32.ofInt (q.nTotal + q.nIdle + 1)).toNat)) := by
  rw [nextBatch, UInt32.toNat_max, UInt32.toNat_min, UInt32.toNat_div, UInt32.toNat_ofNat']
  rfl

theorem nextBatch_le (filled : q.queue ≠ []) :
    q.nextBatch.toNat ≤ q.queue.length := by
  have one := length_pos_iff.2 filled
  rw [toNat_nextBatch]
  refine max_le one ((min_le_right _ _).trans ?_)
  exact (div_le_self _ _).trans (mod_le _ _)

theorem nextBatch_le_size : q.nextBatch.toNat ≤ max 1 q.nBatchSize.toNat := by
  rw [toNat_nextBatch]
  exact max_le_max_left 1 (min_le_left _ _)

theorem nextBatch_pos : 0 < q.nextBatch.toNat := by
  rw [toNat_nextBatch]
  exact le_max_left 1 _

end

/-- Where a thread stands in `Loop`, with the variables that are still read. -/
inductive LoopPoint (T : Type) where
  | out
  | top (nNow : UInt32) (fOk : Bool)
  | waiting
  | working (vChecks : List T) (nNow : UInt32) (fOk : Bool)

namespace LoopPoint
def isOut : LoopPoint T → Bool
  | out => true
  | _ => false

theorem eq_out (isOut : p.isOut) : p = out := by
  cases p <;> first | rfl | cases isOut

def held : LoopPoint T → List T
  | working vChecks _ _ => vChecks
  | _ => []

/-- The checks it has not yet subtracted from `nTodo`. -/
def owed : LoopPoint T → ℕ
  | top nNow _ => nNow.toNat
  | working _ nNow _ => nNow.toNat
  | _ => 0

/-- It saw a failure that it has not yet put into `fAllOk`, or that it found there. -/
def failed : LoopPoint T → Bool
  | top nNow fOk => nNow ≠ 0 && !fOk
  | working _ nNow fOk => nNow ≠ 0 && !fOk
  | _ => false

theorem failed_eq_false {p : LoopPoint T} (settled : p.owed = 0) : p.failed = false := by
  cases p with
  | out | waiting => rfl
  | top nNow fOk | working _ nNow fOk =>
    simp [failed, show nNow = 0 from UInt32.toNat_inj.1 settled]

end LoopPoint

inductive Report (T : Type) where
  | added (vChecks : List T)
  | ran (check : T)
  | skipped (check : T)
  | returned (fRet : Bool)
  deriving DecidableEq

/-- The queue with the threads that use it. `control` is the `fDone` of the controller that holds
`ControlMutex`. -/
structure Pool (ι T : Type) where
  pqueue : CCheckQueue T
  control : Option Bool
  point : ι → LoopPoint T

inductive Event (ι T : Type) where
  | construct
  | add (vChecks : List T)
  | wait
  | destroy
  | start (thread : ι)
  | enter (thread : ι)
  | wake (thread : ι)
  | check (thread : ι)

namespace Pool
def new (nBatchSize : UInt32) : Pool ι T := ⟨.new nBatchSize, none, fun _ => .out⟩

variable [DecidableEq ι]

def goto (s : Pool ι T) (thread : ι) (point : LoopPoint T) : Pool ι T :=
  { s with point := update s.point thread point }

@[simp] theorem goto_point (s : Pool ι T) (thread other : ι) (p : LoopPoint T) :
    (s.goto thread p).point other = if other = thread then p else s.point other := by
  simp [goto, update_apply]

/-- The rest of the critical section: return, wait, or take a batch. -/
def proceed (master : ι) (s : Pool ι T) (thread : ι) : Pool ι T × Option (Report T) :=
  let q := s.pqueue
  if q.queue = [] then
    if (thread = master ∨ q.fQuit) ∧ q.nTodo = 0 then
      let left := { q with nTotal := q.nTotal - 1, fAllOk := if thread = master then true else q.fAllOk }
      -- `CCheckQueueControl::Wait` then sets `fDone`
      let control := if thread = master then some true else s.control
      ({ s.goto thread .out with pqueue := left, control := control }, some (.returned q.fAllOk))
    else
      ({ s.goto thread .waiting with pqueue := { q with nIdle := q.nIdle + 1 } }, none)
  else
    ({ s.goto thread (.working q.batch q.nextBatch q.fAllOk) with pqueue := q.takeBatch }, none)

/-- One step. `none` stands for an event that cannot happen now. Once `fDone` is set, the destructor
of the controller waits no more. -/
def step (check : T → Bool) (master : ι) (s : Pool ι T) :
    Event ι T → Option (Pool ι T × Option (Report T))
  | .construct => if s.control = none then some ({ s with control := some false }, none) else none
  | .add vChecks =>
    if s.control ≠ none ∧ (s.point master).isOut then
      some ({ s with pqueue := s.pqueue.add vChecks }, some (.added vChecks))
    else none
  | .wait =>
    if s.control ≠ none ∧ (s.point master).isOut then some (s.goto master (.top 0 true), none)
    else none
  | .destroy =>
    if s.control = some true ∧ (s.point master).isOut then some ({ s with control := none }, none)
    else none
  | .start thread =>
    if thread ≠ master ∧ (s.point thread).isOut then some (s.goto thread (.top 0 true), none)
    else none
  | .enter thread =>
    match s.point thread with
    | .top nNow fOk => some (proceed master { s with pqueue := s.pqueue.cleanUp nNow fOk } thread)
    | _ => none
  | .wake thread =>
    match s.point thread with
    | .waiting =>
      some (proceed master { s with pqueue := { s.pqueue with nIdle := s.pqueue.nIdle - 1 } } thread)
    | _ => none
  | .check thread =>
    match s.point thread with
    | .working (c :: vChecks) nNow true =>
      some (s.goto thread (.working vChecks nNow (check c)), some (.ran c))
    | .working (c :: vChecks) nNow false =>
      some (s.goto thread (.working vChecks nNow false), some (.skipped c))
    | .working [] nNow fOk => some (s.goto thread (.top nNow fOk), none)
    | _ => none

end Pool

/-- The checks added, run and skipped since the last return of `Wait`. -/
structure Session (T : Type) where
  added : List T
  ran : List T
  skipped : List T

namespace Session
def new : Session T := ⟨[], [], []⟩

def note (h : Session T) : Option (Report T) → Session T
  | some (.added vChecks) => { h with added := h.added ++ vChecks }
  | some (.ran check) => { h with ran := h.ran ++ [check] }
  | some (.skipped check) => { h with skipped := h.skipped ++ [check] }
  | some (.returned _) => new
  | none => h

end Session

namespace Pool
variable [Fintype ι]

/-- `nTodo` is an `unsigned int`: the threads together hold fewer than `2 ^ 32` checks, be it
because of their number and the size of a batch or because no more were added. -/
def Fits (ι : Type) [Fintype ι] (nBatchSize : UInt32) (h : Session T) : Prop :=
  Fintype.card ι * max 1 nBatchSize.toNat < 2 ^ 32 ∨ h.added.length < 2 ^ 32

structure Clean (s : Pool ι T) : Prop where
  queue : s.pqueue.queue = []
  nTodo : s.pqueue.nTodo = 0
  fAllOk : s.pqueue.fAllOk = true
  idle : ∀ thread, (s.point thread).held = [] ∧ (s.point thread).owed = 0

structure Exact (check : T → Bool) (nBatchSize : UInt32) (s : Pool ι T) (h : Session T) : Prop where
  conserved : (h.added : Multiset T) =
    h.ran + h.skipped + s.pqueue.queue + ∑ thread, ((s.point thread).held : Multiset T)
  counted : s.pqueue.nTodo = ofNat (s.pqueue.queue.length + ∑ thread, (s.point thread).owed)
  bounded : s.pqueue.queue.length + ∑ thread, (s.point thread).owed ≤ h.added.length
  batches : ∀ thread, (s.point thread).owed ≤ max 1 nBatchSize.toNat
  holding : ∀ thread, (s.point thread).held ≠ [] → (s.point thread).owed ≠ 0
  failure : (s.pqueue.fAllOk = false ∨ ∃ thread, (s.point thread).failed = true) ↔
    ∃ c ∈ h.ran, check c = false
  skipped : h.skipped ≠ [] → ∃ c ∈ h.ran, check c = false
  fQuit : s.pqueue.fQuit = false
  nBatchSize : s.pqueue.nBatchSize = nBatchSize
  waited : s.control = none → h.added = []

variable {check : T → Bool} {nBatchSize : UInt32} {s : Pool ι T} {h : Session T}

namespace Exact
theorem fresh (queue : s.pqueue.queue = []) (nTodo : s.pqueue.nTodo = 0)
    (fAllOk : s.pqueue.fAllOk) (fQuit : s.pqueue.fQuit = false)
    (size : s.pqueue.nBatchSize = nBatchSize)
    (idle : ∀ thread, (s.point thread).owed = 0 ∧ (s.point thread).held = []) :
    Exact check nBatchSize s .new where
  conserved := by simp [queue, Session.new, (idle _).2]
  counted := by simp [queue, nTodo, (idle _).1]
  bounded := by simp [queue, (idle _).1]
  batches thread := by simp [(idle thread).1]
  holding thread holds := absurd (idle thread).2 holds
  failure := by simp [fAllOk, Session.new, LoopPoint.failed_eq_false (idle _).1]
  skipped more := absurd rfl more
  fQuit := fQuit
  nBatchSize := size
  waited _ := rfl

private theorem held_eq_nil (inv : Exact check nBatchSize s h)
    (settled : (s.point thread).owed = 0) : (s.point thread).held = [] := by
  by_contra holds
  exact inv.holding thread holds settled

theorem add (inv : Exact check nBatchSize s h) (vChecks : List T) (open_ : s.control ≠ none) :
    Exact check nBatchSize { s with pqueue := s.pqueue.add vChecks }
      { h with added := h.added ++ vChecks } where
  conserved := by
    simp only [CCheckQueue.add, ← Multiset.coe_add, inv.conserved]
    abel
  counted := by
    simp only [CCheckQueue.add, inv.counted, length_append, ← ofNat_add]
    congr 1
    omega
  bounded := by
    have bounded := inv.bounded
    simp only [CCheckQueue.add, length_append]
    omega
  batches := inv.batches
  holding := inv.holding
  failure := inv.failure
  skipped := inv.skipped
  fQuit := inv.fQuit
  nBatchSize := inv.nBatchSize
  waited closed := absurd closed open_

end Exact

variable [DecidableEq ι]

/-- The states the threads can bring the queue to, each with the session it belongs to. A controller
is not destroyed with checks added after its last `Wait`. -/
inductive Reachable (check : T → Bool) (master : ι) (nBatchSize : UInt32) :
    Pool ι T → Session T → Prop
  | new : Reachable check master nBatchSize (.new nBatchSize) .new
  | step {s s' : Pool ι T} {h : Session T} {report : Option (Report T)} (event : Event ι T)
      (before : Reachable check master nBatchSize s h)
      (happens : s.step check master event = some (s', report))
      (awaited : event = .destroy → h.added = []) (fits : Fits ι nBatchSize (h.note report)) :
      Reachable check master nBatchSize s' (h.note report)

variable {M : Type} {s' : Pool ι T} {master : ι}

private theorem sum_point [AddCommMonoid M] (s : Pool ι T) (thread : ι) (f : LoopPoint T → M) :
    ∑ other, f (s.point other) =
      ∑ other ∈ univ.erase thread, f (s.point other) + f (s.point thread) :=
  (sum_erase_add _ _ (mem_univ thread)).symm

theorem sum_goto [AddCommMonoid M] {s : Pool ι T} {thread : ι} (p : LoopPoint T)
    (f : LoopPoint T → M) :
    ∑ other, f ((s.goto thread p).point other) =
      ∑ other ∈ univ.erase thread, f (s.point other) + f p := by
  have others : ∑ other ∈ univ.erase thread, f ((s.goto thread p).point other) =
      ∑ other ∈ univ.erase thread, f (s.point other) := by
    refine sum_congr rfl fun other mem => ?_
    rw [goto_point, if_neg (ne_of_mem_erase mem)]
  rw [sum_point _ thread, others, goto_point, if_pos rfl]

omit [Fintype ι] in
theorem exists_failed : (∃ other, (s.point other).failed) ↔
    (s.point thread).failed ∨ ∃ other, other ≠ thread ∧ (s.point other).failed := by
  constructor
  · rintro ⟨other, failed⟩
    by_cases same : other = thread
    · exact .inl (same ▸ failed)
    · exact .inr ⟨other, same, failed⟩
  rintro (failed | ⟨other, -, failed⟩)
  · exact ⟨thread, failed⟩
  · exact ⟨other, failed⟩

omit [Fintype ι] in
theorem exists_failed_goto {s : Pool ι T} {thread : ι} {p : LoopPoint T} :
    (∃ other, ((s.goto thread p).point other).failed) ↔
      p.failed ∨ ∃ other, other ≠ thread ∧ (s.point other).failed := by
  have others : (∃ other, other ≠ thread ∧ ((s.goto thread p).point other).failed) ↔
      ∃ other, other ≠ thread ∧ (s.point other).failed := by
    refine exists_congr fun other => and_congr_right fun apart => ?_
    rw [goto_point, if_neg apart]
  rw [exists_failed, others, goto_point, if_pos rfl]

namespace Exact
variable {thread : ι} {nNow : UInt32} {fOk : Bool}

section
variable (inv : Exact check nBatchSize s h)
include inv

private theorem move (added : h'.added = h.added)
    (conserved : (h'.ran + h'.skipped + q.queue + p.held : Multiset T) =
      h.ran + h.skipped + s.pqueue.queue + (s.point thread).held) (counted : ∀ rest,
      s.pqueue.nTodo = ofNat (s.pqueue.queue.length + (rest + (s.point thread).owed)) →
      q.nTodo = ofNat (q.queue.length + (rest + p.owed)))
    (fewer : q.queue.length + p.owed ≤ s.pqueue.queue.length + (s.point thread).owed)
    (batch : p.owed ≤ max 1 nBatchSize.toNat) (holding : p.held ≠ [] → p.owed ≠ 0)
    (failure : ∀ others : Prop,
      ((s.pqueue.fAllOk = false ∨ (s.point thread).failed ∨ others) ↔
        ∃ c ∈ h.ran, check c = false) →
      ((q.fAllOk = false ∨ p.failed ∨ others) ↔ ∃ c ∈ h'.ran, check c = false))
    (skipped : h'.skipped ≠ [] → ∃ c ∈ h'.ran, check c = false)
    (fQuit : q.fQuit = s.pqueue.fQuit) (size : q.nBatchSize = s.pqueue.nBatchSize) :
    Exact check nBatchSize { s.goto thread p with pqueue := q } h' := by
  exact {
    conserved := by
      simp only [sum_goto p fun p => (p.held : Multiset T), added, inv.conserved,
        sum_point s thread fun p => (p.held : Multiset T)]
      rw [add_left_comm, ← conserved]
      abel
    counted := by
      simp only [sum_goto]
      exact counted _ (by rw [← sum_point]; exact inv.counted)
    bounded := by
      have bounded := inv.bounded
      rw [sum_point s thread] at bounded
      simp only [sum_goto, added]
      omega
    batches := fun other => by
      simp only [goto_point]
      split
      · exact batch
      · exact inv.batches other
    holding := fun other => by
      simp only [goto_point]
      split
      · exact holding
      · exact inv.holding other
    failure := by
      have before := inv.failure
      rw [exists_failed] at before
      exact (or_congr_right (exists_failed_goto)).trans (failure _ before)
    skipped := skipped
    fQuit := fQuit.trans inv.fQuit
    nBatchSize := size.trans inv.nBatchSize
    waited := fun closed => added.trans (inv.waited closed) }

private theorem goto (held : p.held = (s.point thread).held) (owed : p.owed = (s.point thread).owed)
    (failed : p.failed = (s.point thread).failed) : Exact check nBatchSize (s.goto thread p) h := by
  refine inv.move rfl (by rw [held]) (fun _ counted => by rw [owed]; exact counted) (by rw [owed])
    (owed ▸ inv.batches thread) ?_ ?_ inv.skipped rfl rfl
  · rw [held, owed]
    exact inv.holding thread
  · rw [failed]
    exact fun _ before => before

private theorem cleanUp (at_ : s.point thread = .top nNow fOk) :
    Exact check nBatchSize { s.goto thread .out with pqueue := s.pqueue.cleanUp nNow fOk } h := by
  have owed : (s.point thread).owed = nNow.toNat := by rw [at_]; rfl
  by_cases first : nNow = 0
  · refine inv.move rfl ?_ ?_ ?_ (zero_le _) (by simp [LoopPoint.held]) ?_ inv.skipped ?_ ?_ <;>
      simp [CCheckQueue.cleanUp, first, at_, LoopPoint.held, LoopPoint.owed, LoopPoint.failed]
  refine inv.move rfl ?_ ?_ ?_ (zero_le _) (by simp [LoopPoint.held]) ?_ inv.skipped ?_ ?_
  · simp [CCheckQueue.cleanUp, first, at_, LoopPoint.held]
  · intro _ counted
    rw [owed, ← add_assoc, UInt32.ofNat_add, UInt32.ofNat_toNat] at counted
    simp [CCheckQueue.cleanUp, first, counted, LoopPoint.owed]
  · simp [CCheckQueue.cleanUp, first, LoopPoint.owed]
  · intro _ before
    rw [← before]
    cases fOk <;> simp [CCheckQueue.cleanUp, first, at_, LoopPoint.failed]
  · simp [CCheckQueue.cleanUp, first]
  · simp [CCheckQueue.cleanUp, first]

theorem takeBatch (settled : (s.point thread).owed = 0) (filled : s.pqueue.queue ≠ []) :
    Exact check nBatchSize { s.goto thread (.working s.pqueue.batch s.pqueue.nextBatch s.pqueue.fAllOk)
      with pqueue := s.pqueue.takeBatch } h := by
  have most := s.pqueue.nextBatch_le filled
  have length : s.pqueue.takeBatch.queue.length + s.pqueue.nextBatch.toNat =
      s.pqueue.queue.length := by
    simp only [CCheckQueue.takeBatch, length_take]
    omega
  refine inv.move rfl ?_ ?_ ?_ ?_ ?_ ?_ inv.skipped rfl rfl
  · have split : (s.pqueue.takeBatch.queue + s.pqueue.batch : Multiset T) = s.pqueue.queue := by
      rw [CCheckQueue.batch, coe_reverse, Multiset.coe_add]
      exact congrArg _ (take_append_drop _ _)
    rw [inv.held_eq_nil settled, LoopPoint.held, add_assoc, split, coe_nil, add_zero]
  · intro _ counted
    rw [settled] at counted
    rw [show (s.pqueue.takeBatch).nTodo = s.pqueue.nTodo from rfl, counted, LoopPoint.owed]
    congr 1
    omega
  · rw [settled, LoopPoint.owed, length, add_zero]
  · rw [LoopPoint.owed, ← inv.nBatchSize]
    exact s.pqueue.nextBatch_le_size
  · exact fun _ => s.pqueue.nextBatch_pos.ne'
  intro _ before
  rw [LoopPoint.failed_eq_false settled] at before
  rw [← before]
  cases allOk : s.pqueue.fAllOk <;> simp [CCheckQueue.takeBatch, LoopPoint.failed, allOk]

private theorem runCheck (at_ : s.point thread = .working (c :: vChecks) nNow fOk) :
    Exact check nBatchSize (s.goto thread (.working vChecks nNow (fOk && check c)))
      (if fOk then { h with ran := h.ran ++ [c] } else { h with skipped := h.skipped ++ [c] }) := by
  have owed : (s.point thread).owed = nNow.toNat := by rw [at_]; rfl
  have owes : nNow ≠ 0 := by
    intro none
    exact inv.holding thread (by simp [at_, LoopPoint.held]) (by rw [owed, none]; rfl)
  have batch := owed ▸ inv.batches thread
  cases fOk with
  | true =>
    refine inv.move rfl ?_ ?_ (by rw [owed]; rfl) batch ?_ ?_ ?_ rfl rfl
    · simp [at_, LoopPoint.held, ← Multiset.coe_add, ← cons_coe, ← Multiset.singleton_add]
      abel
    · exact fun rest counted => by rwa [owed] at counted
    · exact fun _ => fun none => owes (UInt32.toNat_inj.1 none)
    · intro others before
      cases passed : check c <;> simp_all [LoopPoint.failed, or_and_right, exists_or]
    intro skipped
    obtain ⟨bad, mem, fails⟩ := inv.skipped skipped
    exact ⟨bad, mem_append_left _ mem, fails⟩
  | false =>
    have fails := inv.failure.1 (.inr ⟨thread, by simp [at_, LoopPoint.failed, owes]⟩)
    refine inv.move rfl ?_ ?_ (by rw [owed]; rfl) batch ?_ ?_ (fun _ => fails) rfl rfl
    · simp [at_, LoopPoint.held, ← Multiset.coe_add, ← cons_coe, ← Multiset.singleton_add]
      abel
    · exact fun rest counted => by rwa [owed] at counted
    · exact fun _ => fun none => owes (UInt32.toNat_inj.1 none)
    · intro others before
      simpa [at_, LoopPoint.failed, owes] using before

end

omit [DecidableEq ι] in
private theorem owed_eq_zero (inv : Exact check nBatchSize s h) (fits : Fits ι nBatchSize h)
    (empty : s.pqueue.queue = []) (done : s.pqueue.nTodo = 0) (thread : ι) :
    (s.point thread).owed = 0 := by
  have bounded := inv.bounded
  have counted := inv.counted
  rw [empty, length_nil, zero_add] at bounded counted
  have batches : ∑ thread, (s.point thread).owed ≤ Fintype.card ι * max 1 nBatchSize.toNat :=
    sum_le_card_nsmul _ _ _ fun thread _ => inv.batches thread
  have small : ∑ thread, (s.point thread).owed < 2 ^ 32 := by rcases fits with few | few <;> omega
  have none : ∑ thread, (s.point thread).owed = 0 := by
    have zero := congrArg toNat (counted.symm.trans done)
    rwa [toNat_ofNat', mod_eq_of_lt small] at zero
  exact sum_eq_zero_iff.1 none thread (mem_univ thread)

omit [DecidableEq ι] in
theorem settled (inv : Exact check nBatchSize s h) (empty : s.pqueue.queue = [])
    (owed : ∀ thread, (s.point thread).owed = 0) :
    h.added.Perm (h.ran ++ h.skipped) ∧
      (s.pqueue.fAllOk ↔ ∀ c ∈ h.added, check c) := by
  have all : h.added.Perm (h.ran ++ h.skipped) := by
    have conserved := inv.conserved
    simp only [empty, inv.held_eq_nil (owed _), coe_nil, sum_const_zero,
      add_zero, Multiset.coe_add] at conserved
    exact coe_eq_coe.1 conserved
  have failure : s.pqueue.fAllOk = false ↔ ∃ c ∈ h.ran, check c = false := by
    rw [← inv.failure]
    simp [LoopPoint.failed_eq_false (owed _)]
  refine ⟨all, fun allOk c mem => ?_, fun passes => ?_⟩
  · have noFailure : ¬ ∃ c ∈ h.ran, check c = false := by
      rw [← failure, allOk]
      exact Bool.noConfusion
    have noSkip : h.skipped = [] := by
      by_contra skipped
      exact noFailure (inv.skipped skipped)
    rw [all.mem_iff, noSkip, append_nil] at mem
    by_contra fails
    exact noFailure ⟨c, mem, Bool.eq_false_iff.2 fails⟩
  by_contra bad
  obtain ⟨c, mem, fails⟩ := failure.1 (Bool.eq_false_iff.2 bad)
  have passed := passes c (all.mem_iff.2 (mem_append_left _ mem))
  exact Bool.noConfusion (fails.symm.trans passed)

omit [DecidableEq ι] in
theorem clean (inv : Exact check nBatchSize s h) (nothing : h.added = []) : Clean s := by
  have bounded := inv.bounded
  rw [nothing, length_nil, Nat.le_zero, Nat.add_eq_zero_iff] at bounded
  have empty := eq_nil_of_length_eq_zero bounded.1
  have owed (thread : ι) : (s.point thread).owed = 0 :=
    sum_eq_zero_iff.1 bounded.2 thread (mem_univ thread)
  refine ⟨empty, ?_, ?_, fun thread => ⟨inv.held_eq_nil (owed thread), owed thread⟩⟩
  · rw [inv.counted, bounded.1, bounded.2]
    rfl
  · rw [(inv.settled empty owed).2, nothing]
    simp

private theorem proceed (inv : Exact check nBatchSize s h) (fits : Fits ι nBatchSize h) (master : ι)
    (settled : (s.point thread).owed = 0) :
    Exact check nBatchSize (s.proceed master thread).1 (h.note (s.proceed master thread).2) := by
  by_cases empty : s.pqueue.queue = []
  · by_cases returns : (thread = master ∨ s.pqueue.fQuit) ∧ s.pqueue.nTodo = 0
    · have isMaster : thread = master := by
        rcases returns.1 with same | quit
        · exact same
        · exact absurd (inv.fQuit.symm.trans quit) Bool.noConfusion
      simp only [Pool.proceed, if_pos empty, if_pos returns, if_pos isMaster, Session.note]
      refine fresh empty returns.2 rfl inv.fQuit inv.nBatchSize fun other => ?_
      have owed := inv.owed_eq_zero fits empty returns.2 other
      rw [goto_point]
      split
      · exact ⟨rfl, rfl⟩
      · exact ⟨owed, inv.held_eq_nil owed⟩
    simp only [Pool.proceed, if_pos empty, if_neg returns, Session.note]
    have moved : Exact check nBatchSize (s.goto thread .waiting) h :=
      inv.goto (inv.held_eq_nil settled).symm settled.symm (LoopPoint.failed_eq_false settled).symm
    exact { moved with }
  · simp only [Pool.proceed, if_neg empty, Session.note]
    exact inv.takeBatch settled empty

end Exact

omit [Fintype ι] in
private theorem proceed_goto : ({ s.goto thread p with pqueue := q } : Pool ι T).proceed master thread =
      ({ s with pqueue := q } : Pool ι T).proceed master thread := by
  simp [proceed, goto]

omit [Fintype ι] in
private theorem proceed_returned (returns : s.proceed master thread = (s', some (.returned fRet))) :
    s.pqueue.queue = [] ∧ s.pqueue.nTodo = 0 ∧ fRet = s.pqueue.fAllOk := by
  simp only [proceed] at returns
  split at returns
  · next empty =>
    split at returns
    · next done =>
      cases returns
      exact ⟨empty, done.2, rfl⟩
    · cases returns
  · cases returns

private theorem step_cases
    (inv : Exact check nBatchSize s h) (happens : s.step check master event = some (s', report))
    (awaited : event = .destroy → h.added = []) :
    (Exact check nBatchSize s' (h.note report) ∧ ∀ fRet, report ≠ some (.returned fRet)) ∨
      ∃ (r : Pool ι T) (thread : ι), Exact check nBatchSize r h ∧ (r.point thread).owed = 0 ∧
        r.proceed master thread = (s', report) := by
  have quiet (fRet : Bool) : (none : Option (Report T)) ≠ some (.returned fRet) := by simp
  cases event with
  | construct =>
    obtain ⟨closed, ⟨⟩⟩ := ite_none_right_eq_some.1 happens
    exact .inl ⟨{ inv with waited := fun _ => inv.waited closed }, quiet⟩
  | add vChecks =>
    obtain ⟨can, ⟨⟩⟩ := ite_none_right_eq_some.1 happens
    exact .inl ⟨inv.add vChecks can.1, by simp⟩
  | wait | start thread =>
    obtain ⟨can, ⟨⟩⟩ := ite_none_right_eq_some.1 happens
    have outside := LoopPoint.eq_out can.2
    exact .inl ⟨inv.goto (by rw [outside]; rfl) (by rw [outside]; rfl) (by rw [outside]; rfl), quiet⟩
  | destroy =>
    obtain ⟨can, ⟨⟩⟩ := ite_none_right_eq_some.1 happens
    exact .inl ⟨{ inv with waited := fun _ => awaited rfl }, quiet⟩
  | enter thread =>
    simp only [step] at happens
    split at happens
    · next nNow fOk at_ =>
      refine .inr ⟨_, thread, inv.cleanUp at_, by simp [LoopPoint.owed], ?_⟩
      rw [proceed_goto]
      exact some.inj happens
    · cases happens
  | wake thread =>
    simp only [step] at happens
    split at happens
    · next at_ =>
      refine .inr ⟨{ s with pqueue := { s.pqueue with nIdle := s.pqueue.nIdle - 1 } }, thread,
        { inv with }, ?_, some.inj happens⟩
      simp [at_, LoopPoint.owed]
    · cases happens
  | check thread =>
    simp only [step] at happens
    split at happens
    · next c vChecks nNow at_ =>
      cases happens
      exact .inl ⟨inv.runCheck at_, by simp⟩
    · next c vChecks nNow at_ =>
      cases happens
      exact .inl ⟨inv.runCheck at_, by simp⟩
    · next nNow fOk at_ =>
      cases happens
      exact .inl ⟨inv.goto (by rw [at_]; rfl) (by rw [at_]; rfl) (by rw [at_]; rfl), quiet⟩
    · cases happens

theorem Reachable.exact (reached : Reachable check master nBatchSize s h) :
    Exact check nBatchSize s h ∧ Fits ι nBatchSize h := by
  induction reached with
  | new => exact ⟨.fresh rfl rfl rfl rfl rfl fun _ => ⟨rfl, rfl⟩, .inr (by simp [Session.new])⟩
  | step _ _ happens awaited fits ih =>
    refine ⟨?_, fits⟩
    rcases step_cases ih.1 happens awaited with ⟨kept, -⟩ | ⟨_, _, inv, settled, proceeds⟩
    · exact kept
    · have kept := inv.proceed ih.2 master settled
      rwa [proceeds] at kept

/-- The parallel verification of scripts is exact. At any time each check was run at most once and
checks are skipped only after a failure. `Wait` returns when every check added since its last return
was run or skipped and no thread still holds one; it returns whether they all succeed, and leaves the
queue clean. So the next controller finds it. -/
theorem wait_exact {master : ι} (reached : Reachable check master nBatchSize s h) :
    (h.ran.Subperm h.added ∧ (h.skipped ≠ [] → ∃ c ∈ h.ran, check c = false)) ∧
    (∀ event s' fRet, s.step check master event = some (s', some (.returned fRet)) →
      h.added.Perm (h.ran ++ h.skipped) ∧
      (fRet = true ↔ ∀ c ∈ h.added, check c = true) ∧ s'.Clean) ∧
    (∀ s' report, s.step check master .construct = some (s', report) → s.Clean) := by
  obtain ⟨inv, fits⟩ := reached.exact
  refine ⟨⟨?_, inv.skipped⟩, fun event s' fRet happens => ?_, fun s' report happens => ?_⟩
  · rw [← coe_le, inv.conserved, add_assoc, add_assoc]
    exact le_add_right _ _
  · have stays : event = .destroy → h.added = [] := by
      rintro rfl
      obtain ⟨-, ⟨⟩⟩ := ite_none_right_eq_some.1 happens
    rcases step_cases inv happens stays with ⟨-, quiet⟩ | ⟨_, _, inv, settled, proceeds⟩
    · exact absurd rfl (quiet fRet)
    obtain ⟨empty, done, rfl⟩ := proceed_returned proceeds
    obtain ⟨all, result⟩ := inv.settled empty (inv.owed_eq_zero fits empty done)
    have kept := inv.proceed fits master settled
    rw [proceeds] at kept
    exact ⟨all, result, kept.clean rfl⟩
  obtain ⟨closed, -⟩ := ite_none_right_eq_some.1 happens
  exact inv.clean (inv.waited closed)

def run (check : T → Bool) (master : ι) : List (Event ι T) → Pool ι T × Session T →
    Option (Pool ι T × Session T)
  | [], found => some found
  | event :: events, (s, h) =>
    (s.step check master event).bind fun after => run check master events (after.1, h.note after.2)

private theorem reachable_of_run
    (few : Fintype.card ι * max 1 nBatchSize.toNat < 2 ^ 32) (events : List (Event ι T))
    (stays : .destroy ∉ events) (reached : Reachable check master nBatchSize s h)
    (ran : run check master events (s, h) = some (s', h')) :
    Reachable check master nBatchSize s' h' := by
  induction events generalizing s h with
  | nil =>
    cases ran
    exact reached
  | cons event events ih =>
    obtain ⟨_, happens, rest⟩ := bind_eq_some_iff.1 ran
    obtain ⟨here, later⟩ := not_or.1 (mem_cons.not.1 stays)
    exact ih later (.step event reached happens (fun same => absurd same.symm here) (.inl few)) rest

/-- A controller waits, adds three checks and waits again. Two threads share the checks, the second
of which fails: one check is skipped, and `Wait` is about to return the failure. -/
def failingRun : List (Event Bool ℕ) :=
  [.construct, .wait, .enter false, .start true, .enter true, .add [5, 0, 7], .wait, .enter false,
    .wake true, .check false, .check true, .check false, .check true, .enter true, .check true,
    .check true, .enter true]

theorem wait_exact_failing : ∃ s h s',
    run (fun n => n ≠ 0) false failingRun (.new 128, .new) = some (s, h) ∧
    s.step (fun n => n ≠ 0) false (.enter false) = some (s', some (.returned false)) ∧
    h.ran = [7, 0] ∧ h.skipped = [5] ∧ h.added.Perm (h.ran ++ h.skipped) ∧ s'.Clean := by
  obtain ⟨s, h, s', ran, returns, run_, skipped⟩ : ∃ s h s',
      run (fun n => n ≠ 0) false failingRun (.new 128, .new) = some (s, h) ∧
      s.step (fun n => n ≠ 0) false (.enter false) = some (s', some (.returned false)) ∧
      h.ran = [7, 0] ∧ h.skipped = [5] := ⟨_, _, _, rfl, rfl, rfl, rfl⟩
  have reached := reachable_of_run (by decide) failingRun (by simp [failingRun]) .new ran
  obtain ⟨all, -, clean⟩ := (wait_exact reached).2.1 _ _ _ returns
  exact ⟨s, h, s', ran, returns, run_, skipped, all, clean⟩

end Pool

end CCheckQueue
end DogecoinCore
