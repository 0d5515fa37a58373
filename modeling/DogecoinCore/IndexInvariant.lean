import DogecoinCore.BestChainProgress

/-! What holds of the block index in every reachable state, with or without a
snapshot: bodies and their counts agree, transactions are counted only on top of
counted parents, and `mapBlocksUnlinked` holds blocks that wait for their parent. -/
namespace DogecoinCore.ChainState
open List Function Bool
variable {C : Type} {st st' : ChainState C}

structure IndexInv (rules : Consensus C) (st : ChainState C) : Prop where
  genesis_known : rules.hashGenesisBlock ∈ st.tree.blocks
  genesis_root : st.tree.parent rules.hashGenesisBlock = none
  genesis_linked : (st.data rules.hashGenesisBlock).nChainTx ≠ 0
  only_root : ∀ b ∈ st.tree.blocks, st.tree.parent b = none → b = rules.hashGenesisBlock
  body : ∀ b, (st.data b).haveData ↔ 0 < (st.data b).nTx
  known : ∀ b, 0 < (st.data b).nTx → b ∈ st.tree.blocks
  known_valid : ∀ b ∈ st.tree.blocks, BlockValidity.tree.toNat ≤ (st.data b).validity.toNat
  valid : ∀ b, 0 < (st.data b).nTx → BlockValidity.transactions.toNat ≤ (st.data b).validity.toNat
  linked_tx : ∀ b, (st.data b).nChainTx ≠ 0 → 0 < (st.data b).nTx
  linked_parent : ∀ b p, st.tree.parent b = some p → (st.data b).nChainTx ≠ 0 →
    (st.data p).nChainTx ≠ 0
  candidate_linked : ∀ b ∈ st.setBlockIndexCandidates, (st.data b).nChainTx ≠ 0
  unlinked_waits : ∀ p b, (p, b) ∈ st.mapBlocksUnlinked →
    st.tree.parent b = some p ∧ 0 < (st.data b).nTx ∧ (st.data p).nChainTx = 0
  unlinked_nodup : (st.mapBlocksUnlinked.map Prod.snd).Nodup

namespace IndexInv
theorem toLinked (inv : IndexInv rules st) : Linked rules st where
  root := inv.genesis_root
  linked_body b counted := (inv.body b).2 (inv.linked_tx b counted)
  linked_parent := inv.linked_parent
  candidate_linked := inv.candidate_linked

private theorem unlinked_zero (inv : IndexInv rules st) (waiting : (p, b) ∈ st.mapBlocksUnlinked) :
    (st.data b).nChainTx = 0 := by
  obtain ⟨edge, _, parentZero⟩ := inv.unlinked_waits p b waiting
  by_contra counted
  exact inv.linked_parent b p edge counted parentZero

theorem of_same (inv : IndexInv rules st) (tree : st'.tree = st.tree)
    (nTx : ∀ b, (st'.data b).nTx = (st.data b).nTx)
    (nChainTx : ∀ b, (st'.data b).nChainTx = (st.data b).nChainTx)
    (haveData : ∀ b, (st'.data b).haveData = (st.data b).haveData)
    (validity : ∀ b, (st.data b).validity.toNat ≤ (st'.data b).validity.toNat)
    (candidates : ∀ b ∈ st'.setBlockIndexCandidates, (st.data b).nChainTx ≠ 0)
    (unlinked : st'.mapBlocksUnlinked = st.mapBlocksUnlinked) : IndexInv rules st' where
  genesis_known := tree ▸ inv.genesis_known
  genesis_root := tree ▸ inv.genesis_root
  genesis_linked := by
    rw [nChainTx]
    exact inv.genesis_linked
  only_root := tree ▸ inv.only_root
  body b := by
    rw [haveData, nTx]
    exact inv.body b
  known b stored := by
    rw [tree]
    exact inv.known b (nTx b ▸ stored)
  known_valid b mem := (inv.known_valid b (tree ▸ mem)).trans (validity b)
  valid b stored := (inv.valid b (nTx b ▸ stored)).trans (validity b)
  linked_tx b counted := by
    rw [nTx]
    exact inv.linked_tx b (nChainTx b ▸ counted)
  linked_parent b p edge counted := by
    rw [nChainTx] at counted ⊢
    exact inv.linked_parent b p (tree ▸ edge) counted
  candidate_linked b mem := by
    rw [nChainTx]
    exact candidates b mem
  unlinked_waits p b waiting := by
    rw [tree, nTx, nChainTx]
    exact inv.unlinked_waits p b (unlinked ▸ waiting)
  unlinked_nodup := unlinked ▸ inv.unlinked_nodup

end IndexInv

/-- The entry `link` gives a block. -/
def linkedEntry (st : ChainState C) (b : UInt256) : BlockData :=
  { st.data b with
    nChainTx := ((st.tree.parent b).elim 0 fun p => (st.data p).nChainTx) + (st.data b).nTx
    nSequenceId := st.nBlockSequenceId }

theorem link_eq : ∃ candidates, st.link q = { st with
        data := update st.data q (st.linkedEntry q)
        nBlockSequenceId := st.nBlockSequenceId + 1
        setBlockIndexCandidates := candidates } ∧
      ∀ b, b ∈ candidates ↔ b ∈ st.setBlockIndexCandidates ∨
        b = q ∧ ∀ t, st.chainActive = some t → (st.link q).sortKey t ≤ (st.link q).sortKey q := by
  have key : (st.link q).sortKey =
      ({ st with data := update st.data q (st.linkedEntry q) }).sortKey := by
    unfold link
    simp only
    split <;> rfl
  rw [key]
  unfold link
  simp only
  split
  · rename_i notBefore
    refine ⟨_, rfl, fun b => ?_⟩
    simp only [modify, mem_insert_iff]
    constructor
    · rintro (rfl | mem)
      · refine .inr ⟨rfl, fun t active => ?_⟩
        simp only [modify, active, Option.all_some, not_eq_true', comparator_eq_false] at notBefore
        exact notBefore
      · exact .inl mem
    rintro (mem | ⟨rfl, _⟩)
    · exact .inr mem
    · exact .inl rfl
  rename_i before
  refine ⟨_, rfl, fun b => ?_⟩
  constructor
  · exact .inl
  rintro (mem | ⟨rfl, order⟩)
  · exact mem
  exfalso
  apply before
  cases active : st.chainActive with
  | none => simp [modify, active]
  | some t =>
    simp only [modify, active, Option.all_some, not_eq_true', comparator_eq_false]
    exact order t active

/-- A block may be a candidate beside the tip: it does not sort before it. -/
def NotBefore (st : ChainState C) (b : UInt256) : Prop :=
  ∀ t, st.chainActive = some t → st.sortKey t ≤ st.sortKey b

/-- What storing a body does to an entry: flags and undo stay, validity may rise. -/
structure Grown (d d' : BlockData) : Prop where
  failedValid : d'.failedValid = d.failedValid
  failedChild : d'.failedChild = d.failedChild
  haveUndo : d'.haveUndo = d.haveUndo
  haveData : d.haveData → d'.haveData
  nTx : 0 < d.nTx → d'.nTx = d.nTx
  validity : d.validity.toNat ≤ d'.validity.toNat

namespace Grown
theorem refl (d : BlockData) : Grown d d := ⟨rfl, rfl, rfl, id, fun _ => rfl, le_rfl⟩

theorem trans (first : Grown d d') (second : Grown d' d'') : Grown d d'' where
  failedValid := second.failedValid.trans first.failedValid
  failedChild := second.failedChild.trans first.failedChild
  haveUndo := second.haveUndo.trans first.haveUndo
  haveData held := second.haveData (first.haveData held)
  nTx stored := by
    have same := first.nTx stored
    rw [second.nTx (same ▸ stored), same]
  validity := first.validity.trans second.validity

theorem failed (grown : Grown d d') : d'.failed = d.failed := by
  simp [BlockData.failed, grown.failedValid, grown.failedChild]

theorem of_link (n : ℕ) (s : ℤ) : Grown d { d with nChainTx := n, nSequenceId := s } :=
  ⟨rfl, rfl, rfl, id, fun _ => rfl, le_rfl⟩

end Grown

/-- What storing and linking bodies does: entries that counted no transactions may do so, and the
blocks that newly do become candidates unless they sort before the tip. -/
structure Relinked (st st' : ChainState C) : Prop where
  frame : ∃ data seq candidates unlinked dirty files, st' = { st with
    data := data
    nBlockSequenceId := seq
    setBlockIndexCandidates := candidates
    mapBlocksUnlinked := unlinked
    setDirtyBlockIndex := dirty
    files := files }
  grown : ∀ b, Grown (st.data b) (st'.data b)
  dirty : ∀ b ∈ st.setDirtyBlockIndex, b ∈ st'.setDirtyBlockIndex
  clean : ∀ b, b ∈ st'.setDirtyBlockIndex ∨
    ∃ n s, st'.data b = { st.data b with nChainTx := n, nSequenceId := s }
  counted : ∀ b, (st.data b).nChainTx ≠ 0 → st'.data b = st.data b
  candidates : ∀ b ∈ st.setBlockIndexCandidates, b ∈ st'.setBlockIndexCandidates
  fresh : ∀ b ∈ st'.setBlockIndexCandidates,
    b ∈ st.setBlockIndexCandidates ∨ (st.data b).nChainTx = 0 ∧ (st'.data b).nChainTx ≠ 0
  ordered : (∀ t, st.chainActive = some t → (st.data t).nChainTx ≠ 0) → ∀ b,
    (st.data b).nChainTx = 0 → (st'.data b).nChainTx ≠ 0 →
      (b ∈ st'.setBlockIndexCandidates ↔ b ∈ st.setBlockIndexCandidates ∨ st'.NotBefore b)

namespace Relinked
theorem of_unlinked (st : ChainState C) (unlinked : List (UInt256 × UInt256)) (files : BlockFiles) :
    Relinked st { st with mapBlocksUnlinked := unlinked, files := files } where
  frame := ⟨_, _, _, _, _, _, rfl⟩
  grown _ := .refl _
  dirty _ := id
  clean _ := .inr ⟨_, _, rfl⟩
  counted _ _ := rfl
  candidates _ := id
  fresh _ := .inl
  ordered _ _ zero counted := absurd zero counted

theorem refl (st : ChainState C) : Relinked st st := .of_unlinked st st.mapBlocksUnlinked st.files

section
variable (relinked : Relinked st st')
include relinked

theorem tree : st'.tree = st.tree := by
  obtain ⟨_, _, _, _, _, _, rfl⟩ := relinked.frame
  rfl

theorem addr : st'.addr = st.addr := by
  obtain ⟨_, _, _, _, _, _, rfl⟩ := relinked.frame
  rfl

theorem chainActive : st'.chainActive = st.chainActive := by
  obtain ⟨_, _, _, _, _, _, rfl⟩ := relinked.frame
  rfl

theorem sortKey (counted : (st.data b).nChainTx ≠ 0) : st'.sortKey b = st.sortKey b := by
  unfold ChainState.sortKey
  rw [relinked.tree, relinked.addr, relinked.counted b counted]

end

theorem trans (first : Relinked st st') (second : Relinked st' st'') : Relinked st st'' where
  frame := by
    obtain ⟨_, _, _, _, _, _, rfl⟩ := first.frame
    obtain ⟨_, _, _, _, _, _, rfl⟩ := second.frame
    exact ⟨_, _, _, _, _, _, rfl⟩
  grown b := (first.grown b).trans (second.grown b)
  dirty b mem := second.dirty b (first.dirty b mem)
  clean b := by
    rcases first.clean b with mem | ⟨_, _, once⟩
    · exact .inl (second.dirty b mem)
    rcases second.clean b with mem | ⟨n, s, twice⟩
    · exact .inl mem
    · exact .inr ⟨n, s, by rw [twice, once]⟩
  counted b counted := by
    have same := first.counted b counted
    rw [second.counted b (same ▸ counted), same]
  candidates b mem := second.candidates b (first.candidates b mem)
  fresh b mem := by
    rcases second.fresh b mem with held | ⟨zero, counted⟩
    · rcases first.fresh b held with held | ⟨zero, counted⟩
      · exact .inl held
      · exact .inr ⟨zero, by rwa [second.counted b counted]⟩
    refine .inr ⟨?_, counted⟩
    by_contra counted
    exact counted (first.counted b counted ▸ zero)
  ordered tip b zero counted := by
    have tip' : ∀ t, st'.chainActive = some t → (st'.data t).nChainTx ≠ 0 := by
      intro t active
      rw [first.chainActive] at active
      rw [first.counted t (tip t active)]
      exact tip t active
    by_cases early : (st'.data b).nChainTx = 0
    · have before : b ∈ st'.setBlockIndexCandidates ↔ b ∈ st.setBlockIndexCandidates := by
        refine ⟨fun mem => ?_, first.candidates b⟩
        exact (first.fresh b mem).resolve_right fun new => new.2 early
      rw [second.ordered tip' b early counted, before]
    have order : st''.NotBefore b ↔ st'.NotBefore b := by
      unfold NotBefore
      rw [second.chainActive, second.sortKey early]
      refine forall₂_congr fun t active => ?_
      rw [second.sortKey (tip' t active)]
    have after : b ∈ st''.setBlockIndexCandidates ↔ b ∈ st'.setBlockIndexCandidates := by
      refine ⟨fun mem => ?_, second.candidates b⟩
      exact (second.fresh b mem).resolve_right fun new => early new.1
    rw [order, after, first.ordered tip b zero early]

end Relinked

/-- One turn of the queue: link a block and release those that wait for it. -/
def release (st : ChainState C) (q : UInt256) : ChainState C :=
  { st.link q with mapBlocksUnlinked := st.mapBlocksUnlinked.filter fun e => e.1 ≠ q }

def waitingFor (st : ChainState C) (q : UInt256) : List UInt256 :=
  (st.mapBlocksUnlinked.filter fun e => e.1 = q).map (·.2)

theorem linkQueue_cons :
    linkQueue (n + 1) (q :: queue) st = linkQueue n (queue ++ st.waitingFor q) (st.release q) := by
  obtain ⟨_, shape, _⟩ := link_eq
  have unlinked : (st.link q).mapBlocksUnlinked = st.mapBlocksUnlinked := by rw [shape]
  simp [linkQueue, release, waitingFor, unlinked]

/-- A queue of `ReceivedBlockTransactions`: blocks with bodies on counted parents, none of them
queued twice or waiting as well. -/
structure Queued (rules : Consensus C) (queue : List UInt256) (st : ChainState C) : Prop
    extends IndexInv rules st where
  stored : ∀ q ∈ queue, 0 < (st.data q).nTx
  uncounted : ∀ q ∈ queue, (st.data q).nChainTx = 0
  parents : ∀ q ∈ queue, ∃ p, st.tree.parent q = some p ∧ (st.data p).nChainTx ≠ 0
  distinct : (queue ++ st.mapBlocksUnlinked.map Prod.snd).Nodup

theorem release_data : (st.release q).data = update st.data q (st.linkedEntry q) := by
  obtain ⟨_, shape, _⟩ := link_eq
  rw [release, shape]

private theorem release_entry (st : ChainState C) (q b : UInt256) :
    ∃ n s, (st.release q).data b = { st.data b with nChainTx := n, nSequenceId := s } := by
  rw [release_data]
  by_cases same : b = q
  · rw [same, update_self]
    exact ⟨_, _, rfl⟩
  · rw [update_of_ne same]
    exact ⟨_, _, rfl⟩

theorem release_tree (st : ChainState C) (q : UInt256) : (st.release q).tree = st.tree := by
  obtain ⟨_, shape, _⟩ := link_eq
  rw [release, shape]

theorem mem_release_candidates : b ∈ (st.release q).setBlockIndexCandidates ↔
      b ∈ st.setBlockIndexCandidates ∨ b = q ∧ (st.release q).NotBefore q := by
  obtain ⟨_, shape, candidates⟩ := link_eq
  have active : (st.release q).chainActive = st.chainActive := by rw [release, shape]
  have same : (st.release q).setBlockIndexCandidates = (st.link q).setBlockIndexCandidates := rfl
  have key : (st.release q).sortKey = (st.link q).sortKey := rfl
  rw [same, NotBefore, active, key, ← candidates, shape]

theorem linkedEntry_counted (body : 0 < (st.data q).nTx) : (st.linkedEntry q).nChainTx ≠ 0 := by
  simp only [linkedEntry]
  omega

theorem Queued.relinked (inv : Queued rules (q :: queue) st) : Relinked st (st.release q) := by
  have zero := inv.uncounted q (by simp)
  have counted : ((st.release q).data q).nChainTx ≠ 0 := by
    rw [release_data, update_self]
    exact linkedEntry_counted (inv.stored q (by simp))
  have others : ∀ b, b ≠ q → (st.release q).data b = st.data b := by
    intro b ne
    rw [release_data, update_of_ne ne]
  obtain ⟨_, shape, _⟩ := link_eq
  refine ⟨?_, fun b => ?_, fun b mem => ?_, fun b => .inr (st.release_entry q b),
    fun b held => ?_, fun b mem => ?_, fun b mem => ?_, fun _ b before after => ?_⟩
  · rw [release, shape]
    exact ⟨_, _, _, _, _, _, rfl⟩
  · obtain ⟨n, s, entry⟩ := st.release_entry q b
    rw [entry]
    exact .of_link n s
  · rw [release, shape]
    exact mem
  · apply others
    rintro rfl
    exact held zero
  · exact mem_release_candidates.2 (.inl mem)
  · refine (mem_release_candidates.1 mem).imp_right ?_
    rintro ⟨rfl, _⟩
    exact ⟨zero, counted⟩
  have same : b = q := by
    by_contra ne
    rw [others b ne] at after
    exact after before
  rw [mem_release_candidates]
  simp [same]

theorem Queued.step (inv : Queued rules (q :: queue) st) :
    Queued rules (queue ++ st.waitingFor q) (st.release q) := by
  have tree := st.release_tree q
  have relinked := inv.relinked
  have unlinked : (st.release q).mapBlocksUnlinked =
      st.mapBlocksUnlinked.filter fun e => e.1 ≠ q := rfl
  have nTx : ∀ b, ((st.release q).data b).nTx = (st.data b).nTx := by
    intro b
    obtain ⟨_, _, entry⟩ := st.release_entry q b
    rw [entry]
  have counted : ((st.release q).data q).nChainTx ≠ 0 := by
    rw [release_data, update_self]
    exact linkedEntry_counted (inv.stored q (by simp))
  have grows : ∀ b, (st.data b).nChainTx ≠ 0 → ((st.release q).data b).nChainTx ≠ 0 := by
    intro b held
    rwa [relinked.counted b held]
  have others : ∀ b, b ≠ q → (st.release q).data b = st.data b := by
    intro b ne
    rw [release_data, update_of_ne ne]
  have waiting : ∀ b, b ∈ st.waitingFor q ↔ (q, b) ∈ st.mapBlocksUnlinked := by
    intro b
    simp [waitingFor]
  have rearranged : (queue ++ st.waitingFor q ++ (st.release q).mapBlocksUnlinked.map Prod.snd).Perm
        (queue ++ st.mapBlocksUnlinked.map Prod.snd) := by
    rw [append_assoc, unlinked, waitingFor, ← map_append]
    have halves := filter_append_perm (fun e : UInt256 × UInt256 => decide (e.1 = q))
      st.mapBlocksUnlinked
    simpa using (halves.map Prod.snd).append_left queue
  have distinct := rearranged.nodup_iff.2 (nodup_cons.1 inv.distinct).2
  have absent : q ∉ queue ++ st.waitingFor q := by
    intro mem
    have within := rearranged.subset (mem_append_left _ mem)
    exact (nodup_cons.1 inv.distinct).1 within
  have ne : ∀ b ∈ queue ++ st.waitingFor q, b ≠ q := by
    rintro b mem rfl
    exact absent mem
  refine ⟨⟨?_, ?_, ?_, ?_, ?_, ?_, ?_, ?_, ?_, ?_, ?_, ?_, ?_⟩, ?_, ?_, ?_, distinct⟩
  · exact tree ▸ inv.genesis_known
  · exact tree ▸ inv.genesis_root
  · exact grows _ inv.genesis_linked
  · exact tree ▸ inv.only_root
  · intro b
    obtain ⟨_, _, entry⟩ := st.release_entry q b
    rw [entry]
    exact inv.body b
  · intro b stored
    rw [tree]
    exact inv.known b (nTx b ▸ stored)
  · intro b mem
    exact (inv.known_valid b (tree ▸ mem)).trans (relinked.grown b).validity
  · intro b stored
    have valid := inv.valid b (nTx b ▸ stored)
    obtain ⟨_, _, entry⟩ := st.release_entry q b
    rwa [entry]
  · intro b held
    rw [nTx]
    by_cases same : b = q
    · exact same ▸ inv.stored q (by simp)
    · exact inv.linked_tx b (others b same ▸ held)
  · intro b p edge held
    rw [tree] at edge
    by_cases same : b = q
    · subst same
      obtain ⟨_, edge', counted'⟩ := inv.parents b (by simp)
      rw [edge] at edge'
      cases edge'
      exact grows p counted'
    · exact grows p (inv.linked_parent b p edge (others b same ▸ held))
  · intro b mem
    rcases relinked.fresh b mem with held | ⟨_, held⟩
    · exact grows b (inv.candidate_linked b held)
    · exact held
  · intro p b mem
    rw [unlinked, mem_filter] at mem
    obtain ⟨edge, stored, zero⟩ := inv.unlinked_waits p b mem.1
    have other := of_decide_eq_true mem.2
    rw [tree, nTx, others p other]
    exact ⟨edge, stored, zero⟩
  · exact List.Nodup.of_append_right distinct
  · intro b mem
    rw [nTx]
    rcases mem_append.1 mem with queued | released
    · exact inv.stored b (mem_cons_of_mem q queued)
    · exact (inv.unlinked_waits q b ((waiting b).1 released)).2.1
  · intro b mem
    rw [others b (ne b mem)]
    rcases mem_append.1 mem with queued | released
    · exact inv.uncounted b (mem_cons_of_mem q queued)
    · exact inv.unlinked_zero ((waiting b).1 released)
  intro b mem
  rw [tree]
  rcases mem_append.1 mem with queued | released
  · obtain ⟨p, edge, held⟩ := inv.parents b (mem_cons_of_mem q queued)
    exact ⟨p, edge, grows p held⟩
  · exact ⟨q, (inv.unlinked_waits q b ((waiting b).1 released)).1, counted⟩

theorem linkQueue_entry (n : ℕ) (queue : List UInt256) (st : ChainState C) (b : UInt256) :
    ∃ k s, (linkQueue n queue st).data b = { st.data b with nChainTx := k, nSequenceId := s } := by
  induction n generalizing queue st with
  | zero => exact ⟨_, _, rfl⟩
  | succ n ih =>
    cases queue with
    | nil => exact ⟨_, _, rfl⟩
    | cons q queue =>
      rw [linkQueue_cons]
      obtain ⟨k, s, later⟩ := ih (queue ++ st.waitingFor q) (st.release q)
      obtain ⟨_, _, now⟩ := st.release_entry q b
      exact ⟨k, s, by rw [later, now]⟩

theorem linkQueue_descends
    (edges : ∀ p x, (p, x) ∈ st.mapBlocksUnlinked → st.tree.parent x = some p)
    (queued : ∀ q ∈ queue, st.tree.Le b q) (x : UInt256) :
    (linkQueue n queue st).data x = st.data x ∨ st.tree.Le b x := by
  induction n generalizing queue st with
  | zero => exact .inl rfl
  | succ n ih =>
    cases queue with
    | nil => exact .inl rfl
    | cons q queue =>
      rw [linkQueue_cons]
      have tree := st.release_tree q
      have released : ∀ y ∈ queue ++ st.waitingFor q, (st.release q).tree.Le b y := by
        intro y mem
        rw [tree]
        rcases mem_append.1 mem with later | waiting
        · exact queued y (mem_cons_of_mem q later)
        obtain ⟨⟨p, _⟩, entry, rfl⟩ := List.mem_map.1 waiting
        obtain ⟨held, same⟩ := mem_filter.1 entry
        obtain rfl := of_decide_eq_true same
        exact (queued p mem_cons_self).trans (ParentTree.le_of_parent (edges p _ held))
      have edges' : ∀ p y, (p, y) ∈ (st.release q).mapBlocksUnlinked →
          (st.release q).tree.parent y = some p := by
        intro p y mem
        rw [tree]
        exact edges p y (mem_of_mem_filter mem)
      rcases ih edges' released with same | descends
      · by_cases own : x = q
        · exact .inr (own ▸ queued q mem_cons_self)
        · exact .inl (by rw [same, release_data, update_of_ne own])
      · exact .inr (tree ▸ descends)

/-- **The queue links every block it is given** and every block that waited for one of them, and
keeps the index invariant. -/
theorem Queued.linkQueue (inv : Queued rules queue st)
    (enough : queue.length + st.mapBlocksUnlinked.length ≤ n) :
    IndexInv rules (linkQueue n queue st) ∧ Relinked st (linkQueue n queue st) ∧
      (∀ q ∈ queue, ((linkQueue n queue st).data q).nChainTx ≠ 0) ∧
      ∀ e ∈ st.mapBlocksUnlinked, e ∈ (linkQueue n queue st).mapBlocksUnlinked ∨
        ((linkQueue n queue st).data e.2).nChainTx ≠ 0 := by
  induction n generalizing queue st with
  | zero =>
    obtain rfl : queue = [] := eq_nil_of_length_eq_zero (by omega)
    exact ⟨inv.toIndexInv, .refl st, by simp, fun e => .inl⟩
  | succ n ih =>
    cases queue with
    | nil => exact ⟨inv.toIndexInv, .refl st, by simp, fun e => .inl⟩
    | cons q queue =>
      rw [linkQueue_cons]
      have size : (queue ++ st.waitingFor q).length + (st.release q).mapBlocksUnlinked.length =
          queue.length + st.mapBlocksUnlinked.length := by
        have halves := length_eq_length_filter_add (l := st.mapBlocksUnlinked)
          fun e => decide (e.1 = q)
        simp only [waitingFor, release, length_append, length_map, ne_eq, decide_not]
        omega
      obtain ⟨kept, relinked, linked, moved⟩ := ih inv.step (by
        simp only [length_cons] at enough
        omega)
      refine ⟨kept, inv.relinked.trans relinked, fun b mem => ?_, fun e mem => ?_⟩
      · rcases mem_cons.1 mem with rfl | later
        · have counted : ((st.release b).data b).nChainTx ≠ 0 := by
            rw [release_data, update_self]
            exact linkedEntry_counted (inv.stored b (by simp))
          rwa [relinked.counted b counted]
        · exact linked b (mem_append_left _ later)
      by_cases own : e.1 = q
      · refine .inr (linked e.2 (mem_append_right _ ?_))
        exact List.mem_map_of_mem (mem_filter.2 ⟨mem, by simpa using own⟩)
      · exact moved e (mem_filter.2 ⟨mem, by simpa using own⟩)

end DogecoinCore.ChainState
