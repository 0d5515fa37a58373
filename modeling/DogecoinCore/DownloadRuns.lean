import DogecoinCore.InFlight
import DogecoinCore.Node
import DogecoinCore.Prune

/-! Whole runs of block download: peers come and go, blocks are requested on every path and arrive,
and the chain moves on in between. -/
namespace DogecoinCore
namespace NetProcessing
open List Option AList NetProcessing
variable {s s' : NetProcessing} {peer q : NodeId} {st st' : CNodeState} {hash : UInt256}

theorem mem_mapNodeState : peer ∈ s.mapNodeState ↔ (s.state peer).isSome := lookup_isSome.symm

theorem Consistent.initializeNode (books : s.Consistent) (new : s.state peer = none) :
    ∃ s', s.initializeNode peer = some s' ∧ s'.Consistent ∧ s' = s.setState peer .new := by
  have missing : peer ∉ s.mapNodeState := by simp [mem_mapNodeState, new]
  have unannounced : (s.txrequest.any (·.1 = peer)) = false := by
    refine any_eq_false.2 fun a mem same => ?_
    have known := books.announced a mem
    rw [of_decide_eq_true same, new] at known
    cases known
  refine ⟨s.setState peer .new, ?_, ?_, rfl⟩
  · simp only [NetProcessing.initializeNode, if_neg missing]
    rw [show (s.setState peer .new).txrequest = s.txrequest from rfl, unannounced]
    rfl
  have other {q : NodeId} {it : ℕ} {hash : UInt256}
      (found : s.mapBlocksInFlight.lookup hash = some (q, it)) : q ≠ peer := by
    rintro rfl
    have known := books.connected found
    rw [new] at known
    cases known
  refine ⟨fun hash q it found => ?_, fun q r known entry mem => ?_, fun q r known => ?_, ?_, ?_,
    fun a mem => ?_⟩
  · rw [state_setState, if_neg (other found)]
    exact books.listed hash q it found
  · rw [state_setState] at known
    split at known
    · cases known
      cases mem
    · exact books.mapped q r known entry mem
  · rw [state_setState] at known
    split at known
    · cases known
      exact ⟨rfl, rfl, nodup_nil, fun _ mem => by cases mem⟩
    · exact books.counted q r known
  · have populated := population_insert_new (b := CNodeState.new)
      (fun st : CNodeState => st.nBlocksInFlightValidHeaders ≠ 0) new
    have before := books.validating
    change s.nPeersWithValidatedDownloads = ((population _ (s.mapNodeState.insert peer .new) : ℕ) : ℤ)
    rw [populated]
    exact before
  · have populated := population_insert_new (b := CNodeState.new)
      (fun st : CNodeState => st.fPreferredDownload) new
    have before := books.preferring
    change s.nPreferredDownload = ((population _ (s.mapNodeState.insert peer .new) : ℕ) : ℤ)
    rw [populated]
    exact before
  rw [state_setState]
  split
  · rfl
  · exact books.announced a mem

theorem Consistent.updatePreferredDownload (books : s.Consistent) (known : s.state peer = some st)
    (preferred : Bool) :
    ∃ s', s.updatePreferredDownload peer preferred = some s' ∧ s'.Consistent ∧ SamePeers s s' := by
  refine ⟨{ s.setState peer { st with fPreferredDownload := preferred } with
    nPreferredDownload := s.nPreferredDownload - st.fPreferredDownload.toNat + preferred.toNat },
    by simp [NetProcessing.updatePreferredDownload, known], ?_, SamePeers.setState known rfl⟩
  have counted := books.counted peer st known
  refine books.update known ?_ (books.mapped peer st known) (fun _ _ _ _ found => found)
    ⟨counted.length, counted.validated, counted.nodup, counted.fresh⟩ le_rfl rfl (by dsimp only; omega)
  intro hash q it found
  by_cases mine : q = peer
  · subst mine
    obtain ⟨_, knows, entry, mem, points⟩ := books.listed hash q it found
    cases known.symm.trans knows
    exact .inr ⟨rfl, entry, mem, points⟩
  · exact .inl ⟨mine, found⟩

private theorem lookup_erase_all (l : List QueuedBlock) (m : AList fun _ : UInt256 => NodeId × ℕ) (hash : UInt256) :
    (l.foldl (fun m entry => m.erase entry.hash) m).lookup hash =
      if ∃ entry ∈ l, entry.hash = hash then none else m.lookup hash := by
  induction l generalizing m with
  | nil => simp
  | cons first l ih =>
    rw [foldl_cons, ih]
    by_cases later : ∃ entry ∈ l, entry.hash = hash
    · obtain ⟨entry, mem, is⟩ := later
      rw [if_pos ⟨entry, mem, is⟩, if_pos ⟨entry, mem_cons_of_mem _ mem, is⟩]
    rw [if_neg later]
    by_cases here : hash = first.hash
    · rw [if_pos ⟨first, mem_cons_self, here.symm⟩, here, lookup_erase]
    rw [lookup_erase_ne here, if_neg]
    rintro ⟨entry, mem, is⟩
    rcases mem_cons.1 mem with rfl | mem
    · exact here is.symm
    · exact later ⟨entry, mem, is⟩

theorem entries_eq_nil [DecidableEq α] {m : AList fun _ : α => β}
    (none : ∀ a, m.lookup a = none) : m.entries = [] := by
  cases is : m.entries with
  | nil => rfl
  | cons e _ =>
    have known : e.1 ∈ m := by
      rw [AList.mem_keys, AList.keys, is]
      exact mem_cons_self
    exact absurd known (AList.lookup_eq_none.1 (none e.1))

/-- The state behind the assertions of `FinalizeNode`. -/
def withoutNode (s : NetProcessing) (peer : NodeId) (st : CNodeState) : NetProcessing :=
  { s with
    mapNodeState := s.mapNodeState.erase peer
    mapBlocksInFlight := st.vBlocksInFlight.foldl (fun m entry => m.erase entry.hash) s.mapBlocksInFlight
    txrequest := s.txrequest.filter (·.1 ≠ peer)
    nPreferredDownload := s.nPreferredDownload - st.fPreferredDownload.toNat
    nPeersWithValidatedDownloads :=
      s.nPeersWithValidatedDownloads - if st.nBlocksInFlightValidHeaders ≠ 0 then 1 else 0 }

theorem state_withoutNode :
    (s.withoutNode peer st).state q = if q = peer then none else s.state q := by
  by_cases same : q = peer
  · subst same
    rw [if_pos rfl]
    exact lookup_erase _ s.mapNodeState
  · rw [if_neg same]
    exact lookup_erase_ne same

theorem Consistent.withoutNode (books : s.Consistent) (known : s.state peer = some st) :
    (s.withoutNode peer st).Consistent := by
  refine ⟨fun hash q it found => ?_, fun q r knows entry mem => ?_, fun q r knows => ?_, ?_, ?_,
    fun a mem => ?_⟩
  · replace found := (lookup_erase_all st.vBlocksInFlight s.mapBlocksInFlight hash).symm.trans found
    split at found
    · cases found
    next other =>
    have apart : q ≠ peer := by
      rintro rfl
      obtain ⟨r, knows, entry, mem, -, is⟩ := books.listed hash q it found
      cases known.symm.trans knows
      exact other ⟨entry, mem, is⟩
    rw [state_withoutNode, if_neg apart]
    exact books.listed hash q it found
  · rw [state_withoutNode] at knows
    split at knows
    · cases knows
    next apart =>
    have place := books.mapped q r knows entry mem
    refine (lookup_erase_all st.vBlocksInFlight s.mapBlocksInFlight entry.hash).trans ?_
    rw [if_neg, place]
    rintro ⟨other, inside, is⟩
    have elsewhere := books.mapped peer st known other inside
    rw [is, place] at elsewhere
    exact apart (congrArg Prod.fst (some.inj elsewhere))
  · rw [state_withoutNode] at knows
    split at knows
    · cases knows
    · exact books.counted q r knows
  · have populated := population_erase (fun st : CNodeState => st.nBlocksInFlightValidHeaders ≠ 0) known
    have before := books.validating
    change s.nPeersWithValidatedDownloads - (if st.nBlocksInFlightValidHeaders ≠ 0 then 1 else 0) =
      ((population _ (s.mapNodeState.erase peer) : ℕ) : ℤ)
    have one : ((decide (st.nBlocksInFlightValidHeaders ≠ 0)).toNat : ℤ) =
        if st.nBlocksInFlightValidHeaders ≠ 0 then 1 else 0 := by
      by_cases zero : st.nBlocksInFlightValidHeaders = 0 <;> simp [zero]
    omega
  · have populated := population_erase (fun st : CNodeState => st.fPreferredDownload) known
    have before := books.preferring
    change s.nPreferredDownload - st.fPreferredDownload.toNat =
      ((population _ (s.mapNodeState.erase peer) : ℕ) : ℤ)
    omega
  obtain ⟨inside, apart⟩ := mem_filter.1 mem
  rw [state_withoutNode, if_neg (by simpa using apart)]
  exact books.announced a inside

theorem Consistent.empty (books : s.Consistent) (none : s.mapNodeState.entries = []) :
    s.mapBlocksInFlight.entries = [] ∧ s.nPreferredDownload = 0 ∧
      s.nPeersWithValidatedDownloads = 0 ∧ s.txrequest = [] := by
  have nobody (q : NodeId) : s.state q = Option.none := by
    rw [state, AList.lookup_eq_none, AList.mem_keys, AList.keys, none]
    exact not_mem_nil
  refine ⟨entries_eq_nil fun hash => ?_, ?_, ?_, eq_nil_iff_forall_not_mem.2 fun a mem => ?_⟩
  · cases found : s.mapBlocksInFlight.lookup hash with
    | none => rfl
    | some _ =>
      have connected := books.connected found
      rw [nobody] at connected
      cases connected
  · rw [books.preferring, population, none]
    rfl
  · rw [books.validating, population, none]
    rfl
  have connected := books.announced a mem
  rw [nobody] at connected
  cases connected

theorem Consistent.finalizeNode (books : s.Consistent) (known : s.state peer = some st) :
    s.finalizeNode peer = some (s.withoutNode peer st) := by
  have kept := books.withoutNode known
  have nonneg : ¬ (s.withoutNode peer st).nPeersWithValidatedDownloads < 0 := by
    rw [kept.validating]
    exact not_lt.2 (Int.natCast_nonneg _)
  have checks : ¬ ((s.withoutNode peer st).mapNodeState.entries = [] ∧
      ¬ ((s.withoutNode peer st).mapBlocksInFlight.entries = [] ∧
        (s.withoutNode peer st).nPreferredDownload = 0 ∧
        (s.withoutNode peer st).nPeersWithValidatedDownloads = 0 ∧
        (s.withoutNode peer st).txrequest = [])) :=
    fun last => last.2 (kept.empty last.1)
  simp only [NetProcessing.finalizeNode, known, bind_eq_bind, bind_some]
  exact (if_neg nonneg).trans (if_neg checks)

end NetProcessing

structure NetNode (C : Type) where
  node : NodeState C
  net : NetProcessing

/-- What reaches block download: the chain moved on, a peer came, told something about itself, about
blocks or about transactions, or left, a block arrived, or it is the turn of a peer in
`SendMessages`. -/
inductive NetEvent (C : Type) where
  | chain (node : NodeState C)
  | initializeNode (nodeid : NodeId)
  | updatePreferredDownload (nodeid : NodeId) (preferred : Bool)
  | services (nodeid : NodeId) (fHaveWitness fSupportsDesiredCmpctVersion : Bool)
  | blockAvailability (nodeid : NodeId) (hash : UInt256)
  | txrequest (announcements : List (NodeId × UInt256))
  | received (now : ℤ) (hash : UInt256)
  | headers (c : NetProcessing.MessageContext) (pindexLast : UInt256)
  | cmpctblock (c : NetProcessing.MessageContext) (initInvalid : Bool) (pindex : UInt256)
  | sendMessages (c : SendContext)
  | finalizeNode (nodeid : NodeId)

namespace NetNode
variable {C : Type} {genesis : UInt256} {sys sys' : NetNode C} {event : NetEvent C}

/-- The effect of an event, none when the process ends in an assertion or a bad pointer. -/
def apply (sys : NetNode C) : NetEvent C → Option (NetNode C)
  | .chain node => some { sys with node := node }
  | .initializeNode nodeid => (sys.net.initializeNode nodeid).map ({ sys with net := · })
  | .updatePreferredDownload nodeid preferred =>
    (sys.net.updatePreferredDownload nodeid preferred).map ({ sys with net := · })
  | .services nodeid fHaveWitness fSupportsDesiredCmpctVersion =>
    (sys.net.state nodeid).map fun st =>
      let st := { st with
        fHaveWitness := fHaveWitness
        fSupportsDesiredCmpctVersion := fSupportsDesiredCmpctVersion }
      { sys with net := sys.net.setState nodeid st }
  | .blockAvailability nodeid hash =>
    (sys.net.state nodeid).map fun st =>
      let st := updateBlockAvailability sys.node.chain st hash
      { sys with net := sys.net.setState nodeid st }
  | .txrequest announcements => some { sys with net := { sys.net with txrequest := announcements } }
  | .received now hash =>
    (sys.net.markBlockAsReceived now hash).map fun found => { sys with net := found.1 }
  | .headers c pindexLast =>
    (sys.net.directFetch sys.node.chain c pindexLast).map ({ sys with net := · })
  | .cmpctblock c initInvalid pindex =>
    (sys.net.cmpctBlock sys.node.chain c initInvalid pindex).map ({ sys with net := · })
  | .sendMessages c => (sys.net.sendGetData sys.node c).map fun found => { sys with net := found.1 }
  | .finalizeNode nodeid => (sys.net.finalizeNode nodeid).map ({ sys with net := · })

/-- What the callers keep to: the index only grows and has one root, the ids of peers are new, only
connected peers are served, and only accepted headers have an entry of the index. -/
def Promised (genesis : UInt256) (sys : NetNode C) : NetEvent C → Prop
  | .chain node =>
    Ready node.chain genesis ∧ ∀ b ∈ sys.node.chain.tree.blocks, b ∈ node.chain.tree.blocks
  | .initializeNode nodeid => sys.net.state nodeid = none
  | .updatePreferredDownload nodeid _ => (sys.net.state nodeid).isSome
  | .services nodeid _ _ => (sys.net.state nodeid).isSome
  | .blockAvailability nodeid _ => (sys.net.state nodeid).isSome
  | .txrequest announcements => ∀ a ∈ announcements, (sys.net.state a.1).isSome
  | .received _ _ => True
  | .headers c pindexLast => (sys.net.state c.pfrom).isSome ∧ pindexLast ∈ sys.node.chain.tree.blocks
  | .cmpctblock c _ _ => (sys.net.state c.pfrom).isSome
  | .sendMessages c => (sys.net.state c.pto).isSome
  | .finalizeNode nodeid => (sys.net.state nodeid).isSome

/-- Whenever it is a peer's turn, the blocks of the snapshot's chain without a body are on the active
chain. -/
def Historic (sys : NetNode C) : NetEvent C → Prop
  | .sendMessages _ => NetProcessing.HistoryOnChain sys.node
  | _ => True

inductive Reachable (genesis : UInt256) : NetNode C → Prop
  | start (node : NodeState C) (ready : Ready node.chain genesis) : Reachable genesis ⟨node, .new⟩
  | step {sys sys' : NetNode C} (event : NetEvent C) (before : Reachable genesis sys)
      (promised : sys.Promised genesis event) (historic : sys.Historic event)
      (happens : sys.apply event = some sys') : Reachable genesis sys'

/-- The books agree, and the peers' pointers lead into a well-formed index. -/
structure Sound (genesis : UInt256) (sys : NetNode C) : Prop where
  ready : Ready sys.node.chain genesis
  books : sys.net.Consistent
  pointed : NetProcessing.Pointed sys.node.chain sys.net

theorem Sound.new {node : NodeState C} (ready : Ready node.chain genesis) :
    Sound genesis ⟨node, .new⟩ := by
  have nobody (q : NodeId) : (NetProcessing.new).state q = none := AList.lookup_empty q
  have nothing (b : UInt256) : (NetProcessing.new).mapBlocksInFlight.lookup b = none :=
    AList.lookup_empty b
  refine ⟨ready, ⟨fun hash q _ found => ?_, fun q st known => ?_, fun q st known => ?_, rfl, rfl,
    fun _ mem => ?_⟩, fun q st known => ?_⟩
  · exact absurd ((nothing hash).symm.trans found) (by simp)
  · exact absurd ((nobody q).symm.trans known) (by simp)
  · exact absurd ((nobody q).symm.trans known) (by simp)
  · cases mem
  · exact absurd ((nobody q).symm.trans known) (by simp)

theorem Sound.rewrite (sound : Sound genesis sys)
    (known : sys.net.state nodeid = some st) (same : SameBooks st st')
    (points : PointsTo sys.node.chain st') :
    Sound genesis { sys with net := sys.net.setState nodeid st' } :=
  ⟨sound.ready, sound.books.rewrite known same, sound.pointed.setState nodeid points⟩

theorem Sound.apply (sound : Sound genesis sys) (promised : sys.Promised genesis event)
    (historic : sys.Historic event) : ∃ sys', sys.apply event = some sys' ∧ Sound genesis sys' := by
  have ⟨ready, books, pointed⟩ := sound
  cases event with
  | chain node =>
    refine ⟨_, rfl, promised.1, books, fun q st known => ?_⟩
    have points := pointed q st known
    exact ⟨fun b is => promised.2 b (points.best b is), fun b is => promised.2 b (points.common b is)⟩
  | initializeNode nodeid =>
    obtain ⟨s', initializes, kept, rfl⟩ := books.initializeNode promised
    refine ⟨⟨sys.node, sys.net.setState nodeid .new⟩,
      by rw [NetNode.apply, initializes, Option.map_some], ready, kept, pointed.setState nodeid ?_⟩
    exact ⟨fun b is => by simp [CNodeState.new] at is, fun b is => by simp [CNodeState.new] at is⟩
  | updatePreferredDownload nodeid preferred =>
    obtain ⟨st, known⟩ := Option.isSome_iff_exists.1 promised
    obtain ⟨s', updates, kept, same⟩ := books.updatePreferredDownload known preferred
    exact ⟨⟨sys.node, s'⟩, by rw [NetNode.apply, updates, Option.map_some], ready, kept,
      pointed.of_samePeers same⟩
  | services nodeid fHaveWitness fSupportsDesiredCmpctVersion =>
    obtain ⟨st, known⟩ := Option.isSome_iff_exists.1 promised
    have points := pointed nodeid st known
    have same : SameBooks st { st with
        fHaveWitness := fHaveWitness
        fSupportsDesiredCmpctVersion := fSupportsDesiredCmpctVersion } := ⟨rfl, rfl, rfl, rfl⟩
    exact ⟨_, by rw [NetNode.apply, known, Option.map_some],
      sound.rewrite known same ⟨points.best, points.common⟩⟩
  | blockAvailability nodeid hash =>
    obtain ⟨st, known⟩ := Option.isSome_iff_exists.1 promised
    exact ⟨_, by rw [NetNode.apply, known, Option.map_some],
      sound.rewrite known (updateAvailability_sameBooks sys.node.chain st hash)
        ((pointed nodeid st known).updateBlockAvailability hash)⟩
  | txrequest _ => exact ⟨_, rfl, ready, { books with announced := promised }, pointed⟩
  | received now hash =>
    obtain ⟨s', _, received, kept, -, same⟩ := books.markBlockAsReceived now hash
    exact ⟨⟨sys.node, s'⟩, by rw [NetNode.apply, received, Option.map_some], ready, kept,
      pointed.of_samePeers same⟩
  | headers c _ =>
    obtain ⟨s', fetches, kept, points⟩ := books.directFetch ready pointed promised.1 promised.2
    exact ⟨⟨sys.node, s'⟩, by rw [NetNode.apply, fetches, Option.map_some], ready, kept, points⟩
  | cmpctblock c initInvalid pindex =>
    obtain ⟨s', handles, kept, points⟩ := books.cmpctBlock ready pointed promised initInvalid pindex
    exact ⟨⟨sys.node, s'⟩, by rw [NetNode.apply, handles, Option.map_some], ready, kept, points⟩
  | sendMessages c =>
    obtain ⟨s', _, sends, kept, points⟩ := books.sendGetData ready historic pointed promised
    exact ⟨⟨sys.node, s'⟩, by rw [NetNode.apply, sends, Option.map_some], ready, kept, points⟩
  | finalizeNode nodeid =>
    obtain ⟨st, known⟩ := Option.isSome_iff_exists.1 promised
    refine ⟨⟨sys.node, sys.net.withoutNode nodeid st⟩,
      by rw [NetNode.apply, books.finalizeNode known, Option.map_some], ready,
      books.withoutNode known, fun q r knows => ?_⟩
    rw [NetProcessing.state_withoutNode] at knows
    split at knows
    · cases knows
    · exact pointed q r knows

theorem Reachable.sound (reached : Reachable genesis sys) : Sound genesis sys := by
  induction reached with
  | start _ ready => exact .new ready
  | step _ _ promised historic happens ih =>
    obtain ⟨_, happens', sound⟩ := ih.apply promised historic
    cases happens.symm.trans happens'
    exact sound

/-- In every run in which the historical blocks are on the active chain, the books on the blocks in
flight agree: the map with the lists of the peers, node by node, and each counter with what it counts.
No event ends in an assertion, a null `pit` or another bad pointer. -/
theorem inFlight_consistent (reached : Reachable genesis sys) :
    sys.net.Consistent ∧ ∀ event, sys.Promised genesis event → sys.Historic event →
      ∃ sys', sys.apply event = some sys' := by
  have sound := reached.sound
  refine ⟨sound.books, fun event promised historic => ?_⟩
  obtain ⟨sys', happens, -⟩ := sound.apply promised historic
  exact ⟨sys', happens⟩

private theorem ready_of {node : NodeState Unit} (tip : UInt256)
    (holds : (decide (tip ∈ node.chain.tree.blocks) && node.chain.chainActive == some tip &&
      node.chain.tree.blocks.all fun b => decide (node.chain.tree.Le 1 b)) = true) :
    Ready node.chain 1 := by
  simp only [Bool.and_eq_true, decide_eq_true_eq, beq_iff_eq, List.all_eq_true] at holds
  exact ⟨⟨tip, holds.1.1, holds.1.2⟩, holds.2⟩

/-- A snapshot of a block is activated of which only the header is known, and its validation in the
background waits for the block. -/
def waitingNode : NodeState Unit :=
  ((NodeState.genesis .permissive () hashOrder).run .permissive [.header (.child 2 1),
    .header (.child 4 2), .loadSnapshot {} (.of 2), .activateSnapshot {},
    .stepBackground {} 100]).get (by decide +kernel)

def turnOfPeer : SendContext where
  pto := 0
  fClient := false
  fOneShot := false
  isInitialBlockDownload := false
  ibdRescue := false
  isWitnessEnabled _ := false
  nNow := 1

/-- The node with one peer, which has announced the block 4. -/
def announced (node : NodeState Unit) : NetNode Unit :=
  (((⟨node, .new⟩ : NetNode Unit).apply (.initializeNode 0)).bind
    (·.apply (.blockAvailability 0 4))).get rfl

private theorem announced_reachable {node : NodeState Unit} (ready : Ready node.chain 1) :
    Reachable 1 (announced node) :=
  .step (.blockAvailability 0 4) (.step (.initializeNode 0) (.start _ ready) rfl trivial rfl) rfl
    trivial rfl

private theorem announced_promised (node : NodeState Unit) :
    (announced node).Promised 1 (.sendMessages turnOfPeer) := rfl

private theorem waitingNode_history : NetProcessing.HistoryOnChain waitingNode := by
  intro b below bare
  have base : decide (waitingNode.snapshotBaseHash ∈ waitingNode.chain.tree.blocks) = true := by
    decide +kernel
  have all : (waitingNode.chain.tree.blocks.all fun b =>
      !decide (waitingNode.chain.tree.Le b waitingNode.snapshotBaseHash) ||
        waitingNode.chain.contains b) = true := by decide +kernel
  have known := HeaderTree.mem_of_le below (of_decide_eq_true base)
  have held := List.all_eq_true.1 all b known
  rw [decide_eq_true below] at held
  exact held

/-- The block of the snapshot and its child are requested from the peer. -/
theorem inFlight_consistent_waitingNode : ∃ sys',
    (announced waitingNode).apply (.sendMessages turnOfPeer) = some sys' ∧ sys'.net.Consistent ∧
      sys'.net.inFlight 2 ∧ sys'.net.inFlight 4 := by
  have sent : (((announced waitingNode).apply (.sendMessages turnOfPeer)).any fun sys =>
      sys.net.inFlight 2 && sys.net.inFlight 4) = true := by decide +kernel
  obtain ⟨sys', sends, both⟩ := (Option.any_eq_true _ _).1 sent
  have ready : Ready waitingNode.chain 1 := ready_of 2 (by decide +kernel)
  have reached : Reachable 1 sys' := .step (.sendMessages turnOfPeer) (announced_reachable ready)
    (announced_promised _) waitingNode_history sends
  exact ⟨sys', sends, (inFlight_consistent reached).1, Bool.and_eq_true_iff.1 both⟩

/-- The node after its block file `nFile` was pruned. -/
def pruneFile (nFile : ℕ) (node : NodeState Unit) : NodeState Unit :=
  (PruneState.pruneOneBlockFile nFile ⟨node, fun _ => ⟨0, 0⟩, [], [], fun _ => .null,
    ⟨fun _ => none, fun _ => none, fun _ => none⟩⟩).node

/-- The blocks 2 and 6 are connected, and the operator rolls them back. -/
def rolledBack : List (Event Unit) :=
  [.block { filesFull := 1 } (.child 2 1), .block { filesFull := 1 } (.child 6 2),
    .activateBestChain {} 5, .header (.child 4 6), .header (.child 3 2), .header (.child 5 3),
    .invalidateBlock {} 2]

/-- They are reconsidered, a snapshot of 6 is activated, and the node leaves 6 for more work. -/
def leftBase : List (Event Unit) :=
  [.resetBlockFailureFlags 2, .activateBestChain {} 5, .loadSnapshot {} (.of 6),
    .activateSnapshot {}, .block { filesFull := 1 } (.child 3 2), .block {} (.child 5 3),
    .activateBestChain {} 5]

/-- Block 2 is pruned before it is reconsidered, and block 6 after the node has left it. -/
def prunedNode : NodeState Unit :=
  pruneFile 2 ((((NodeState.genesis .permissive () hashOrder).run .permissive rolledBack).bind
    fun node => (pruneFile 1 node).run .permissive leftBase).get (by decide +kernel))

/-- The block of the snapshot, off the active chain and without a body, is requested both as a
historical block and on the way to the block the peer announced, and the second time there is no
`pit`. -/
theorem inFlight_twice : Reachable 1 (announced prunedNode) ∧
      (announced prunedNode).Promised 1 (.sendMessages turnOfPeer) ∧
      (announced prunedNode).net.requested prunedNode turnOfPeer.isWitnessEnabled 0 16 =
        [2, 6, 6, 4] ∧
      (∃ s', (announced prunedNode).net.markBlockAsInFlight 1 0 6 (some 6) false = some (s', true) ∧
        s'.markBlockAsInFlight 1 0 6 (some 6) false = none) ∧
      (announced prunedNode).apply (.sendMessages turnOfPeer) = none := by
  have requested : ((announced prunedNode).net.requested prunedNode turnOfPeer.isWitnessEnabled 0 16 ==
      [2, 6, 6, 4]) = true := by decide +kernel
  have marks : (((announced prunedNode).net.markBlockAsInFlight 1 0 6 (some 6) false).any fun r =>
      r.2 && (r.1.markBlockAsInFlight 1 0 6 (some 6) false).isNone) = true := by decide +kernel
  have ends : ((announced prunedNode).apply (.sendMessages turnOfPeer)).isNone = true := by
    decide +kernel
  obtain ⟨⟨s', _⟩, first, again⟩ := (Option.any_eq_true _ _).1 marks
  obtain ⟨rfl, second⟩ := Bool.and_eq_true_iff.1 again
  exact ⟨announced_reachable (ready_of 5 (by decide +kernel)), announced_promised _,
    beq_iff_eq.1 requested, ⟨s', first, Option.isNone_iff_eq_none.1 second⟩,
    Option.isNone_iff_eq_none.1 ends⟩

end NetNode
end DogecoinCore
