import DogecoinCore.DownloadRuns
import Mathlib.Data.List.TakeWhile

/-! Which blocks a peer is asked for: none is passed over, and the limit on those in flight. A pass
of `SendMessages` fills one vector twice, with the historical blocks and with the blocks the peer can
send, and compares its size only for equality with what the first filling left over. -/
namespace DogecoinCore
namespace NetProcessing
open List Option NetNode
variable {C : Type} {node : NodeState C} {genesis : UInt256} {s s' : NetProcessing}
  {peer : NodeId} {st st' : CNodeState} {b : UInt256}

/-- The contract of one pass: at most as many blocks are requested as the peer has slots left, each
once and none that is in flight, and the peer ends within the limit. -/
def WithinLimit (node : NodeState C) (c : SendContext) (s : NetProcessing) (st : CNodeState) : Prop :=
  ∃ s' vGetData st', s.sendGetData node c = some (s', vGetData) ∧
    (vGetData.length : ℤ) ≤ maxBlocksInTransitPerPeer c.isInitialBlockDownload - st.nBlocksInFlight ∧
    vGetData.Nodup ∧ (∀ b ∈ vGetData, s.inFlight b = false) ∧
    s'.state c.pto = some st' ∧
    st'.nBlocksInFlight ≤ maxBlocksInTransitPerPeer c.isInitialBlockDownload

/-- The two fillings do not get in each other's way: the historical blocks take every slot, or fewer
than half of them, or leave room for everything the peer can send; and no block is in both. -/
def RoomForBoth (nSlots : ℕ) (historical missing : List UInt256) : Prop :=
  historical.length = nSlots ∨ 2 * historical.length < nSlots ∧
      historical.Disjoint (missing.take (nSlots - 2 * historical.length)) ∨
    nSlots ≤ 2 * historical.length ∧ historical.length + missing.length ≤ nSlots ∧
      historical.Disjoint missing

private theorem markBlockAsInFlight_free (known : s.state peer = some st)
    (free : s.mapBlocksInFlight.lookup b = none) (now : ℤ) :
    s.markBlockAsInFlight now peer b (some b) false =
      some (s.enterInFlight now peer st b (some b) false, true) := by
  simp [markBlockAsInFlight, markBlockAsReceived, known, free]

theorem state_enterInFlight (now : ℤ) (q : NodeId) (pindex : Option UInt256) (pit : Bool) :
    (s.enterInFlight now peer st b pindex pit).state q =
      if q = peer then some (putOn now st ⟨s.nextNode, b, pindex, pindex.isSome, pit⟩) else s.state q :=
  state_setState ..

private theorem requestBlocks_length (known : s.state peer = some st) (now : ℤ) (nodup : l.Nodup)
    (free : ∀ b ∈ l, s.mapBlocksInFlight.lookup b = none) :
    ∃ s' st', requestBlocks now peer s l = some s' ∧ s'.state peer = some st' ∧
      st'.nBlocksInFlight = st.nBlocksInFlight + l.length ∧
      ∀ q, (s.state q).isSome → (s'.state q).isSome := by
  induction l generalizing s st with
  | nil => exact ⟨s, st, rfl, known, by simp, fun _ some_ => some_⟩
  | cons b l ih =>
    obtain ⟨apart, nodup⟩ := nodup_cons.1 nodup
    have marks := markBlockAsInFlight_free known (free b mem_cons_self) now
    have free' : ∀ a ∈ l,
        (s.enterInFlight now peer st b (some b) false).mapBlocksInFlight.lookup a = none := by
      intro a mem
      have other : a ≠ b := fun same => apart (same ▸ mem)
      rw [enterInFlight, AList.lookup_insert_ne other]
      exact free a (mem_cons_of_mem b mem)
    have known' := @state_enterInFlight s peer st b now peer (some b) false
    rw [if_pos rfl] at known'
    obtain ⟨s', st', requests, knows, length, peers⟩ := ih known' nodup free'
    refine ⟨s', st', by simp [requestBlocks, marks, requests], knows, ?_, fun q some_ => peers q ?_⟩
    · rw [length, putOn, length_cons]
      dsimp only
      omega
    rw [state_enterInFlight]
    split
    · rfl
    · exact some_

theorem noteStaller_length (known : s.state peer = some st) (now : ℤ)
    (names : staller = -1 ∨ (s.state staller).isSome) :
    ∃ s' st', s.noteStaller now peer staller = some s' ∧ s'.state peer = some st' ∧
      st'.nBlocksInFlight = st.nBlocksInFlight := by
  by_cases stalls : st.nBlocksInFlight = 0 ∧ staller ≠ -1
  · obtain ⟨other, knows⟩ := isSome_iff_exists.1 (names.resolve_left stalls.2)
    by_cases first : other.nStallingSince = 0
    · refine ⟨s.setState staller { other with nStallingSince := now }, ?_⟩
      by_cases same : peer = staller
      · subst same
        cases known.symm.trans knows
        exact ⟨{ st with nStallingSince := now }, by simp [noteStaller, known, stalls, first],
          by simp, rfl⟩
      · exact ⟨st, by simp [noteStaller, known, stalls, knows, first], by simp [same, known], rfl⟩
    · exact ⟨s, st, by simp [noteStaller, known, stalls, knows, first], known, rfl⟩
  · exact ⟨s, st, by simp [noteStaller, known, stalls], known, rfl⟩

private theorem requested_fits_iff : (s.requested node isWitnessEnabled peer nSlots).length ≤ nSlots ∧
        (s.requested node isWitnessEnabled peer nSlots).Nodup ↔
      RoomForBoth nSlots (s.historicalBlocks node nSlots)
        (missingFromPeer node.chain isWitnessEnabled s peer) := by
  obtain ⟨nodup, short, -⟩ := historicalBlocks_spec
  have distinct : (missingFromPeer node.chain isWitnessEnabled s peer).Nodup := missingFromPeer_nodup
  simp only [requested, RoomForBoth]
  generalize s.historicalBlocks node nSlots = historical at nodup short ⊢
  generalize missingFromPeer node.chain isWitnessEnabled s peer = missing at distinct ⊢
  by_cases room : historical.length < nSlots
  · rw [if_pos room, fill]
    by_cases few : 2 * historical.length < nSlots
    · rw [if_pos (by omega), nodup_append']
      have left : nSlots - historical.length - historical.length = nSlots - 2 * historical.length := by
        omega
      have cut := distinct.sublist (take_sublist (nSlots - 2 * historical.length) missing)
      rw [left]
      constructor
      · rintro ⟨-, -, -, disjoint⟩
        exact .inr (.inl ⟨few, disjoint⟩)
      rintro (full | ⟨-, disjoint⟩ | ⟨_, -⟩)
      · omega
      · exact ⟨by rw [length_append, length_take]; omega, nodup, cut, disjoint⟩
      · omega
    rw [if_neg (by omega), nodup_append', length_append]
    constructor
    · rintro ⟨fits, -, -, disjoint⟩
      exact .inr (.inr ⟨by omega, fits, disjoint⟩)
    rintro (full | ⟨less, -⟩ | ⟨-, fits, disjoint⟩)
    · omega
    · exact absurd less few
    · exact ⟨fits, nodup, distinct, disjoint⟩
  · rw [if_neg room]
    exact ⟨fun _ => .inl (by omega), fun _ => ⟨short, nodup⟩⟩

/-- A pass over a peer keeps its limit exactly when the peer is not over the limit already and, if it
may download, the historical blocks and those the peer can send have room beside each other. -/
theorem sendGetData_within_iff (ready : Ready node.chain genesis) (books : s.Consistent)
    (pointed : Pointed node.chain s) (known : s.state c.pto = some st) :
    WithinLimit node c s st ↔
      st.nBlocksInFlight ≤ maxBlocksInTransitPerPeer c.isInitialBlockDownload ∧
        (s.mayDownload c st → RoomForBoth (slots c st) (s.historicalBlocks node (slots c st))
          (missingFromPeer node.chain c.isWitnessEnabled s c.pto)) := by
  by_cases enter : s.mayDownload c st = true
  · obtain ⟨r, st', staller, -, -, map, knows, _, peers, names, is⟩ :=
      sendGetData_eq ready books pointed known enter
    have below := of_decide_eq_true (Bool.and_eq_true_iff.1 enter).2
    have left : (slots c st : ℤ) =
        maxBlocksInTransitPerPeer c.isInitialBlockDownload - st.nBlocksInFlight :=
      Int.toNat_of_nonneg (by omega)
    rw [← requested_fits_iff]
    constructor
    · rintro ⟨s', vGetData, -, sends, short, nodup, -⟩
      rw [is] at sends
      obtain ⟨_, _, noted⟩ := bind_eq_some_iff.1 sends
      obtain ⟨_, _, result⟩ := bind_eq_some_iff.1 noted
      obtain ⟨rfl, rfl⟩ := Prod.mk.inj (some.inj result)
      exact ⟨below.le, fun _ => ⟨by omega, nodup⟩⟩
    rintro ⟨-, fits⟩
    obtain ⟨short, nodup⟩ := fits enter
    have free : ∀ b ∈ s.requested node c.isWitnessEnabled c.pto (slots c st),
        r.mapBlocksInFlight.lookup b = none := by
      intro b member
      rw [map]
      simpa [inFlight] using requested_free member
    obtain ⟨_, _, requests, knows, _, still⟩ := requestBlocks_length knows c.nNow nodup free
    obtain ⟨s', st₂, notes, knows, _⟩ := noteStaller_length knows c.nNow
      (names.imp_right fun some_ => still staller (by rw [peers]; exact some_))
    refine ⟨s', _, st₂, by rw [is, requests, bind_some, notes, bind_some], ?_, nodup,
      fun b => requested_free, knows, ?_⟩
    · omega
    · omega
  have stays : s.sendGetData node c = some (s, []) := sendGetData_closed known enter
  constructor
  · rintro ⟨s', vGetData, st', sends, -, -, -, knows, limit⟩
    rw [stays] at sends
    cases sends
    cases known.symm.trans knows
    exact ⟨limit, fun may => absurd may enter⟩
  · rintro ⟨limit, -⟩
    exact ⟨s, [], st, stays, by simp [limit], nodup_nil, by simp, known, limit⟩

/-- The first block's header is the base of an active snapshot, and two more headers follow. -/
def snapshotThenHeaders : List (Event Unit) :=
  [.header (.child 2 1), .loadSnapshot {} (.of 2), .activateSnapshot {}, .header (.child 3 2),
    .header (.child 4 3)]

def snapshotNode : NodeState Unit :=
  ((NodeState.genesis .permissive () hashOrder).run .permissive snapshotThenHeaders).get rfl

def idlePeer : NetProcessing :=
  (new.setState 0 .new).setState 0 (updateBlockAvailability snapshotNode.chain .new 4)

def busyPeer : NetProcessing :=
  (requestBlocks 0 0 idlePeer ((range 14).map fun i => 100 + BitVec.ofNat 256 i)).get rfl

theorem snapshotNode_ready : Ready snapshotNode.chain 1 := by
  have blocks : snapshotNode.chain.tree.blocks = [4, 3, 2, 1] := rfl
  refine ⟨⟨2, by rw [blocks]; decide, rfl⟩, fun _ known => ?_⟩
  rw [blocks] at known
  simp only [mem_cons, not_mem_nil, or_false] at known
  rcases known with rfl | rfl | rfl | rfl
  · decide
  · decide
  · decide
  · decide

theorem idlePeer_sound : NetNode.Sound 1 ⟨snapshotNode, idlePeer⟩ := by
  have new : NetNode.Promised 1 ⟨snapshotNode, .new⟩ (.initializeNode 0) := rfl
  obtain ⟨_, joins, sound⟩ := (NetNode.Sound.new snapshotNode_ready).apply new trivial
  cases joins
  exact sound.rewrite rfl (updateAvailability_sameBooks ..)
    ((sound.pointed 0 .new rfl).updateBlockAvailability 4)

theorem busyPeer_sound : NetNode.Sound 1 ⟨snapshotNode, busyPeer⟩ := by
  have sound := idlePeer_sound
  have unasked : Unasked idlePeer 0 ((range 14).map fun i => 100 + BitVec.ofNat 256 i) :=
    unasked_of_free (by decide) fun _ _ => rfl
  obtain ⟨s, requests, kept, same⟩ := sound.books.requestBlocks rfl 0 unasked
  have is : busyPeer = s := some.inj ((some_get _).trans requests)
  rw [is]
  exact ⟨sound.ready, kept, sound.pointed.of_samePeers same⟩

/-- A block of the peer's chain behind the last common block that is to be fetched: within the
window, without data, off the active chain and not in flight. -/
def Eligible (chain : ChainState C) (s : NetProcessing) (common best b : UInt256) : Prop :=
  chain.tree.Le b best ∧ chain.tree.height common < chain.tree.height b ∧
    chain.tree.height b ≤ chain.tree.height common + blockDownloadWindow ∧
    (chain.data b).haveData = false ∧ chain.contains b = false ∧ s.inFlight b = false

/-- **`FindNextBlocksToDownload` skips nothing.** For a peer with at least the work of the tip the
vector gets at most `count` eligible blocks, in ascending height, and every eligible block below one
of them. -/
theorem findNextBlocksToDownload_complete {chain : ChainState C} {tip best : UInt256} {count : ℕ}
    (isWitnessEnabled : UInt256 → Bool) (ready : Ready chain genesis)
    (known : s.state peer = some st) (points : PointsTo chain st)
    (isBest : (processBlockAvailability chain st).pindexBestKnownBlock = some best)
    (active : chain.chainActive = some tip)
    (work : chain.tree.nChainWork tip ≤ chain.tree.nChainWork best) (some_ : 0 < count) :
    ∃ common s' vBlocks staller,
      startOfFetch chain (processBlockAvailability chain st) tip best = some common ∧
      findNextBlocksToDownload chain isWitnessEnabled s peer count [] (-1) =
        some (s', vBlocks, staller) ∧
      vBlocks.length ≤ count ∧
      vBlocks.Pairwise (fun x y => chain.tree.height x < chain.tree.height y) ∧
      (∀ b ∈ vBlocks, Eligible chain s common best b) ∧
      ∀ b ∈ vBlocks, ∀ e, Eligible chain s common best e →
        chain.tree.height e < chain.tree.height b → e ∈ vBlocks := by
  obtain ⟨common, starts, below⟩ := startOfFetch_exists ready points.processBlockAvailability active
    (points.processBlockAvailability.best best isBest)
  obtain ⟨_, staller, found, -⟩ :=
    findNextBlocks_spec isWitnessEnabled ready known points some_.ne' []
  let f := fetchWindow chain isWitnessEnabled s peer (processBlockAvailability chain st) best
    common count
  let way := f.path (f.nMaxHeight - chain.tree.height common)
  have missing : missingFromPeer chain isWitnessEnabled s peer = f.missing way :=
    missingFromPeer_of_work known isBest active (not_lt.2 work) starts count
  have sorted : way.Pairwise fun x y => chain.tree.height x < chain.tree.height y := f.path_pairwise
  have ascending := sorted.sublist (f.missing_sublist)
  have vector : fill count ([] : List UInt256).length (f.missing way) = (f.missing way).take count := by
    simp [fill, some_]
  rw [missing, nil_append, vector] at found
  have on_way (b : UInt256) : b ∈ way ↔ chain.tree.Le b best ∧
      chain.tree.height b ≤ f.nMaxHeight ∧ chain.tree.height common < chain.tree.height b := by
    have low : chain.tree.height common ≤ f.nMaxHeight := by
      have := below.height_le
      simp only [f, fetchWindow]
      omega
    rw [f.mem_path (min_le_left _ _)]
    refine and_congr_right fun _ => and_congr_right fun _ => ?_
    change f.nMaxHeight < chain.tree.height b + (f.nMaxHeight - chain.tree.height common) ↔ _
    omega
  refine ⟨common, _, _, staller, starts, found, length_take_le _ _,
    ascending.sublist (take_sublist _ _), fun b member => ?_, fun b member e free lower => ?_⟩
  · have inside := mem_of_mem_take member
    obtain ⟨le, -, high⟩ := (on_way b).1 ((f.missing_sublist).subset inside)
    have near : f.chain.tree.height b ≤ f.nWindowEnd := by simpa using mem_takeWhile_imp inside
    obtain ⟨flying, data, off⟩ := missingFromPeer_free (missing ▸ inside)
    exact ⟨le, high, near, data, off, flying⟩
  obtain ⟨le, high, near, data, off, flying⟩ := free
  have order := le_min le.height_le (near.trans (Nat.le_succ _))
  have there :=
      f.mem_missing_of_lower sorted (mem_of_mem_take member) ((on_way e).2 ⟨le, order, high⟩)
      (by simp [FetchWindow.wanted, f, fetchWindow, data, off, flying]) lower
  refine FetchWindow.mem_of_lower ascending ?_ member there lower
  exact take_prefix _ _

/-- With room for one block the idle peer is asked for the first of the blocks it can send. -/
theorem findNextBlocksToDownload_complete_idlePeer : ∃ common s' vBlocks staller,
    findNextBlocksToDownload snapshotNode.chain (fun _ => false) idlePeer 0 1 [] (-1) =
        some (s', vBlocks, staller) ∧ vBlocks = [3] ∧
      ∀ b ∈ vBlocks, Eligible snapshotNode.chain idlePeer common 4 b := by
  obtain ⟨st, known⟩ : ∃ st, idlePeer.state 0 = some st := ⟨_, rfl⟩
  have announced : (processBlockAvailability snapshotNode.chain st).pindexBestKnownBlock = some 4 := by
    cases known
    rfl
  obtain ⟨common, s', vBlocks, staller, -, found, -, -, all, -⟩ :=
    findNextBlocksToDownload_complete (fun _ => false) snapshotNode_ready known
      (idlePeer_sound.pointed 0 st known) announced rfl (by decide) one_pos
  refine ⟨common, s', vBlocks, staller, found, ?_, all⟩
  have is : (findNextBlocksToDownload snapshotNode.chain (fun _ => false) idlePeer 0 1 [] (-1)).map
      (·.2.1) = some [3] := rfl
  rw [found] at is
  exact some.inj is

/-- An idle peer is asked for the base and for the blocks behind it. -/
theorem sendGetData_within_idlePeer :
    (idlePeer.sendGetData snapshotNode turnOfPeer).map (·.2) = some [2, 3, 4] ∧
      ∃ st, idlePeer.state 0 = some st ∧ WithinLimit snapshotNode turnOfPeer idlePeer st := by
  have sound := idlePeer_sound
  refine ⟨rfl, _, rfl, ?_⟩
  apply (sendGetData_within_iff sound.ready sound.books sound.pointed rfl).2
  have room : RoomForBoth 16 [2] [3, 4] := .inr (.inl ⟨by decide, by simp⟩)
  exact ⟨by decide, fun _ => room⟩

/-- A peer with fourteen of sixteen blocks in flight is asked for three more: the base takes one of
two slots, one is left over, and with one block in it the vector is never found to have one. -/
theorem sendGetData_over : ∃ st,
    NetNode.Sound 1 ⟨snapshotNode, busyPeer⟩ ∧ busyPeer.state 0 = some st ∧ st.nBlocksInFlight = 14 ∧
      (busyPeer.sendGetData snapshotNode turnOfPeer).map (·.2) = some [2, 3, 4] ∧
      ¬ WithinLimit snapshotNode turnOfPeer busyPeer st := by
  have asks : (busyPeer.sendGetData snapshotNode turnOfPeer).map (·.2) = some [2, 3, 4] := rfl
  refine ⟨_, busyPeer_sound, rfl, rfl, asks, ?_⟩
  rintro ⟨_, _, -, sends, short, -⟩
  rw [sends] at asks
  cases asks
  exact absurd short (by decide)

end NetProcessing
end DogecoinCore
