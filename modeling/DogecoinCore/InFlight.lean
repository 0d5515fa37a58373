import DogecoinCore.FetchPath
import DogecoinCore.Registry

/-! The books on the blocks in flight agree with each other. Every operation on them changes the
state of one peer, the map and the counters together; `Consistent.update` says what such a change
has to respect, and the operations are instances of it. -/
namespace DogecoinCore
namespace NetProcessing
open List Option NetProcessing AList
variable {s s' : NetProcessing} {now : ℤ} {peer q : NodeId} {st st' : CNodeState} {hash : UInt256}

@[simp] theorem state_setState :
    (s.setState peer st).state q = if q = peer then some st else s.state q := by
  by_cases same : q = peer
  · subst same
    rw [if_pos rfl]
    exact lookup_insert s.mapNodeState
  · rw [if_neg same]
    exact lookup_insert_ne same

private theorem indicator_add_toNat {v : ℤ} (b : Bool) (nonneg : 0 ≤ v) :
    ((decide (v + b.toNat ≠ 0)).toNat : ℤ) =
      (decide (v ≠ 0)).toNat + if v = 0 ∧ b then 1 else 0 := by
  cases b with
  | false => simp
  | true =>
    have more : v + 1 ≠ 0 := by omega
    by_cases zero : v = 0 <;> simp [zero, more]

structure Counted (nextNode : ℕ) (st : CNodeState) : Prop where
  length : st.nBlocksInFlight = st.vBlocksInFlight.length
  validated : st.nBlocksInFlightValidHeaders = st.vBlocksInFlight.countP (·.fValidatedHeaders)
  nodup : (st.vBlocksInFlight.map (·.node)).Nodup
  fresh : ∀ entry ∈ st.vBlocksInFlight, entry.node < nextNode

/-- The map and the lists of the peers are in bijection, each entry of the map with the list node it
points to, and every counter counts what it is meant to count. -/
structure Consistent (s : NetProcessing) : Prop where
  listed : ∀ hash peer it, s.mapBlocksInFlight.lookup hash = some (peer, it) →
    ∃ st, s.state peer = some st ∧ ∃ entry ∈ st.vBlocksInFlight, entry.node = it ∧ entry.hash = hash
  mapped : ∀ peer st, s.state peer = some st → ∀ entry ∈ st.vBlocksInFlight,
    s.mapBlocksInFlight.lookup entry.hash = some (peer, entry.node)
  counted : ∀ peer st, s.state peer = some st → Counted s.nextNode st
  validating : s.nPeersWithValidatedDownloads =
    population (fun st : CNodeState => st.nBlocksInFlightValidHeaders ≠ 0) s.mapNodeState
  preferring : s.nPreferredDownload =
    population (fun st : CNodeState => st.fPreferredDownload) s.mapNodeState
  announced : ∀ a ∈ s.txrequest, (s.state a.1).isSome

theorem Counted.mono (counted : Counted n st) (le : n ≤ m) : Counted m st :=
  ⟨counted.length, counted.validated, counted.nodup,
    fun entry mem => (counted.fresh entry mem).trans_le le⟩

theorem Consistent.update (books : s.Consistent) (known : s.state peer = some st) {nextNode : ℕ}
    (listed : ∀ hash q it, m.lookup hash = some (q, it) →
      q ≠ peer ∧ s.mapBlocksInFlight.lookup hash = some (q, it) ∨
      q = peer ∧ ∃ entry ∈ st'.vBlocksInFlight, entry.node = it ∧ entry.hash = hash)
    (mapped : ∀ entry ∈ st'.vBlocksInFlight, m.lookup entry.hash = some (peer, entry.node))
    (others : ∀ hash q it, q ≠ peer → s.mapBlocksInFlight.lookup hash = some (q, it) →
      m.lookup hash = some (q, it))
    (counted : Counted nextNode st') (le : s.nextNode ≤ nextNode)
    (validating : nPeers + (decide (st.nBlocksInFlightValidHeaders ≠ 0)).toNat =
      s.nPeersWithValidatedDownloads + (decide (st'.nBlocksInFlightValidHeaders ≠ 0)).toNat)
    (preferring : nPreferred + st.fPreferredDownload.toNat =
      s.nPreferredDownload + st'.fPreferredDownload.toNat) :
    Consistent { s.setState peer st' with
      mapBlocksInFlight := m
      nPreferredDownload := nPreferred
      nPeersWithValidatedDownloads := nPeers
      nextNode := nextNode } where
  listed hash q it found := by
    change ∃ st, (s.setState peer st').state q = some st ∧ _
    rcases listed hash q it found with ⟨other, before⟩ | ⟨rfl, entry, mem, points⟩
    · rw [state_setState, if_neg other]
      exact books.listed hash q it before
    · exact ⟨st', by rw [state_setState, if_pos rfl], entry, mem, points⟩
  mapped q r knows entry mem := by
    replace knows : (s.setState peer st').state q = some r := knows
    rw [state_setState] at knows
    split at knows
    · next same =>
      cases knows
      rw [same]
      exact mapped entry mem
    · next other => exact others _ q _ other (books.mapped q r knows entry mem)
  counted q r knows := by
    replace knows : (s.setState peer st').state q = some r := knows
    rw [state_setState] at knows
    split at knows
    · cases knows
      exact counted
    · exact (books.counted q r knows).mono le
  validating := by
    have populated := population_insert
      (fun st : CNodeState => st.nBlocksInFlightValidHeaders ≠ 0) st' known
    have before := books.validating
    change nPeers = ((population _ (s.mapNodeState.insert peer st') : ℕ) : ℤ)
    omega
  preferring := by
    have populated := population_insert (fun st : CNodeState => st.fPreferredDownload) st' known
    have before := books.preferring
    change nPreferred = ((population _ (s.mapNodeState.insert peer st') : ℕ) : ℤ)
    omega
  announced a mem := by
    change ((s.setState peer st').state a.1).isSome
    rw [state_setState]
    split
    · rfl
    · exact books.announced a mem

theorem Consistent.rewrite (books : s.Consistent) (known : s.state peer = some st)
    (same : SameBooks st st') : Consistent (s.setState peer st') := by
  have counted := books.counted peer st known
  refine books.update known ?_ ?_ (fun _ _ _ _ found => found) ?_ le_rfl (by rw [same.valid])
    (by rw [same.preferred])
  · intro hash q it found
    by_cases mine : q = peer
    · subst mine
      obtain ⟨_, knows, entry, mem, points⟩ := books.listed hash q it found
      cases known.symm.trans knows
      exact .inr ⟨rfl, entry, same.list ▸ mem, points⟩
    · exact .inl ⟨mine, found⟩
  · rw [same.list]
    exact books.mapped peer st known
  exact ⟨by rw [same.length, same.list, counted.length],
    by rw [same.valid, same.list, counted.validated], by rw [same.list]; exact counted.nodup,
    by rw [same.list]; exact counted.fresh⟩

variable {entry : QueuedBlock} {n : ℕ} {l : List UInt256}

theorem perm_cons_filter {l : List QueuedBlock} (nodup : (l.map (·.node)).Nodup)
    (mem : entry ∈ l) : l.Perm (entry :: l.filter (·.node ≠ entry.node)) := by
  induction l with
  | nil => cases mem
  | cons first rest ih =>
    obtain ⟨apart, nodup⟩ := nodup_cons.1 nodup
    rcases mem_cons.1 mem with rfl | later
    · have others : rest.filter (·.node ≠ entry.node) = rest := by
        refine filter_eq_self.2 fun other inside => ?_
        have differs : other.node ≠ entry.node := fun same =>
          apart (mem_map.2 ⟨other, inside, same⟩)
        simpa using differs
      rw [filter_cons_of_neg (by simp), others]
    have differs : first.node ≠ entry.node := fun same =>
      apart (mem_map.2 ⟨entry, later, same.symm⟩)
    rw [filter_cons_of_pos (by simpa using differs)]
    exact ((ih nodup later).cons first).trans (.swap entry first _)

theorem find_node {l : List QueuedBlock} (nodup : (l.map (·.node)).Nodup)
    (mem : entry ∈ l) : l.find? (·.node = entry.node) = some entry := by
  obtain ⟨found, is⟩ : ∃ found, l.find? (·.node = entry.node) = some found := by
    refine isSome_iff_exists.1 (find?_isSome.2 ⟨entry, mem, by simp⟩)
  have same : found.node = entry.node := by simpa using find?_some is
  rw [is, inj_on_of_nodup_map nodup (mem_of_find?_eq_some is) mem same]

theorem Counted.takeOff (counted : Counted n st)
    (mem : entry ∈ st.vBlocksInFlight) (now : ℤ) : Counted n (takeOff now st entry) := by
  have perm := perm_cons_filter counted.nodup mem
  refine ⟨?_, ?_, counted.nodup.sublist (filter_sublist.map _), fun other inside =>
    counted.fresh other (mem_of_mem_filter inside)⟩
  · have lengths := perm.length_eq
    rw [length_cons] at lengths
    simp only [NetProcessing.takeOff, counted.length]
    omega
  have counts := perm.countP_eq (·.fValidatedHeaders)
  simp only [NetProcessing.takeOff, counted.validated]
  cases checked : entry.fValidatedHeaders <;> simp [checked] at counts ⊢ <;> omega

theorem putOn_valid : (putOn now st it).nBlocksInFlightValidHeaders =
      st.nBlocksInFlightValidHeaders + it.fValidatedHeaders.toNat := rfl

theorem Counted.putOn (counted : Counted n st) (is : it.node = n)
    (now : ℤ) : Counted (n + 1) (putOn now st it) := by
  refine ⟨?_, ?_, ?_, ?_⟩
  · simp [NetProcessing.putOn, counted.length]
  · simp only [NetProcessing.putOn, counted.validated, countP_append]
    cases checked : it.fValidatedHeaders <;> simp [checked]
  · simp only [NetProcessing.putOn, map_append, map_cons, map_nil]
    refine nodup_append.2 ⟨counted.nodup, nodup_singleton _, ?_⟩
    rintro node old _ new rfl
    obtain ⟨entry, mem, rfl⟩ := mem_map.1 old
    have less := counted.fresh entry mem
    rw [mem_singleton.1 new, is] at less
    exact lt_irrefl _ less
  intro entry mem
  rcases mem_append.1 mem with old | new
  · exact (counted.fresh entry old).trans (Nat.lt_succ_self n)
  · rw [mem_singleton.1 new, is]
    exact Nat.lt_succ_self n

theorem Consistent.removeInFlight (books : s.Consistent)
    (known : s.state peer = some st) (mem : entry ∈ st.vBlocksInFlight) (now : ℤ) :
    (s.removeInFlight now peer st entry entry.hash).Consistent := by
  have counted := books.counted peer st known
  have after := counted.takeOff mem now
  have place := books.mapped peer st known entry mem
  refine books.update known ?_ ?_ ?_ after le_rfl ?_ rfl
  · intro hash q it found
    have apart : hash ≠ entry.hash := by
      rintro rfl
      rw [lookup_erase] at found
      cases found
    rw [lookup_erase_ne apart] at found
    by_cases same : q = peer
    · subst same
      obtain ⟨_, knows, other, inside, points, is⟩ := books.listed hash q it found
      cases known.symm.trans knows
      refine .inr ⟨rfl, other, mem_filter.2 ⟨inside, ?_⟩, points, is⟩
      have differs : other.node ≠ entry.node := fun twin =>
        apart (is ▸ congrArg _ (inj_on_of_nodup_map counted.nodup inside mem twin))
      simpa using differs
    · exact .inl ⟨same, found⟩
  · intro other inside
    obtain ⟨inside, differs⟩ := mem_filter.1 inside
    have apart : other.hash ≠ entry.hash := by
      intro same
      have twice := books.mapped peer st known other inside
      rw [same, place] at twice
      simp_all
    rw [lookup_erase_ne apart]
    exact books.mapped peer st known other inside
  · intro hash q it other found
    have apart : hash ≠ entry.hash := by
      rintro rfl
      rw [place] at found
      exact other (congrArg Prod.fst (some.inj found)).symm
    rw [lookup_erase_ne apart]
    exact found
  · have nonneg : 0 ≤ (takeOff now st entry).nBlocksInFlightValidHeaders := by
      rw [after.validated]
      exact Int.natCast_nonneg _
    have moved := indicator_add_toNat entry.fValidatedHeaders nonneg
    simp only [takeOff, Int.sub_add_cancel] at moved ⊢
    omega

def pointers (st : CNodeState) : Option UInt256 × Option UInt256 :=
  (st.pindexBestKnownBlock, st.pindexLastCommonBlock)

/-- The same peers are connected, and their states point to the same blocks. -/
def SamePeers (s s' : NetProcessing) : Prop :=
  ∀ q, (s'.state q).map pointers = (s.state q).map pointers

theorem SamePeers.refl (s : NetProcessing) : SamePeers s s := fun _ => rfl

theorem SamePeers.trans (first : SamePeers s s') (second : SamePeers s' r) :
    SamePeers s r := fun q => (second q).trans (first q)

theorem SamePeers.isSome (same : SamePeers s s') (q : NodeId) :
    (s'.state q).isSome = (s.state q).isSome := by
  have eq := congrArg Option.isSome (same q)
  simpa using eq

theorem SamePeers.setState (known : s.state peer = some st) (same : pointers st' = pointers st) :
    SamePeers s (s.setState peer st') := by
  intro _
  rw [state_setState]
  split
  · next mine => rw [mine, known, map_some, map_some, same]
  · rfl

theorem Consistent.markBlockAsReceived (books : s.Consistent) (now : ℤ) (hash : UInt256) :
    ∃ s' known, s.markBlockAsReceived now hash = some (s', known) ∧ s'.Consistent ∧
      (∀ other, s'.mapBlocksInFlight.lookup other =
        if other = hash then none else s.mapBlocksInFlight.lookup other) ∧ SamePeers s s' := by
  cases found : s.mapBlocksInFlight.lookup hash with
  | none =>
    refine ⟨s, false, by simp [NetProcessing.markBlockAsReceived, found], books, fun other => ?_,
      .refl s⟩
    split
    · next same => rw [same, found]
    · rfl
  | some place =>
    obtain ⟨peer, it⟩ := place
    obtain ⟨st, known, entry, mem, rfl, rfl⟩ := books.listed hash peer it found
    have counted := books.counted peer st known
    refine ⟨s.removeInFlight now peer st entry entry.hash, true, ?_, ?_, fun other => ?_,
      SamePeers.setState known rfl⟩
    · simp [NetProcessing.markBlockAsReceived, found, known, find_node counted.nodup mem]
    · exact books.removeInFlight known mem now
    dsimp only [NetProcessing.removeInFlight]
    split
    · next same => rw [same, lookup_erase]
    · next apart => exact lookup_erase_ne apart

theorem Consistent.enterInFlight (books : s.Consistent) (known : s.state peer = some st)
    (free : s.mapBlocksInFlight.lookup hash = none) (now : ℤ) (pindex : Option UInt256) (pit : Bool) :
    (s.enterInFlight now peer st hash pindex pit).Consistent := by
  have counted := books.counted peer st known
  refine books.update known ?_ ?_ ?_ (counted.putOn rfl now) (Nat.le_succ _) ?_ rfl
  · intro other q it found
    by_cases same : other = hash
    · subst same
      rw [lookup_insert] at found
      cases found
      exact .inr ⟨rfl, _, mem_append_right _ (mem_singleton_self _), rfl, rfl⟩
    rw [lookup_insert_ne same] at found
    by_cases mine : q = peer
    · subst mine
      obtain ⟨_, knows, entry, inside, points⟩ := books.listed other q it found
      cases known.symm.trans knows
      exact .inr ⟨rfl, entry, mem_append_left _ inside, points⟩
    · exact .inl ⟨mine, found⟩
  · intro entry mem
    rcases mem_append.1 mem with old | new
    · have place := books.mapped peer st known entry old
      have apart : entry.hash ≠ hash := by
        intro same
        rw [same, free] at place
        cases place
      rw [lookup_insert_ne apart]
      exact place
    · rw [mem_singleton.1 new]
      exact lookup_insert _
  · intro other q it _ found
    have apart : other ≠ hash := by
      rintro rfl
      rw [free] at found
      cases found
    rw [lookup_insert_ne apart]
    exact found
  have nonneg : 0 ≤ st.nBlocksInFlightValidHeaders := by
    rw [counted.validated]
    exact Int.natCast_nonneg _
  have moved := indicator_add_toNat pindex.isSome nonneg
  have first : (st.nBlocksInFlightValidHeaders + (pindex.isSome.toNat : ℤ) = 1 ∧ pindex ≠ none) ↔
      (st.nBlocksInFlightValidHeaders = 0 ∧ pindex.isSome) := by
    cases pindex <;> simp
  rw [putOn_valid, if_congr first rfl rfl, moved]
  omega

/-- What `MarkBlockAsInFlight` does when it ends. -/
structure Marks (s : NetProcessing) (nodeid : NodeId) (hash : UInt256) (s' : NetProcessing) : Prop where
  books : s'.Consistent
  flight : ∀ other, other ≠ hash → s'.mapBlocksInFlight.lookup other = s.mapBlocksInFlight.lookup other
  mine : (s'.mapBlocksInFlight.lookup hash).map (·.1) = some nodeid
  peers : SamePeers s s'

theorem Consistent.markBlockAsInFlight (books : s.Consistent) (known : (s.state peer).isSome) (now : ℤ)
    (hash : UInt256) (pindex : Option UInt256) (pit : Bool)
    (safe : pit = false → (s.mapBlocksInFlight.lookup hash).map (·.1) ≠ some peer) :
    ∃ s' fresh, s.markBlockAsInFlight now peer hash pindex pit = some (s', fresh) ∧
      Marks s peer hash s' := by
  obtain ⟨st, knows⟩ := isSome_iff_exists.1 known
  by_cases mine : (s.mapBlocksInFlight.lookup hash).map (·.1) = some peer
  · cases pit with
    | false => exact absurd mine (safe rfl)
    | true =>
      refine ⟨s, false, ?_, books, fun _ _ => rfl, mine, .refl s⟩
      simp [NetProcessing.markBlockAsInFlight, knows, mine]
  obtain ⟨r, _, received, kept, flight, peers⟩ := books.markBlockAsReceived now hash
  obtain ⟨st, knows'⟩ := isSome_iff_exists.1 ((peers.isSome peer).trans known)
  refine ⟨r.enterInFlight now peer st hash pindex pit, true, ?_, ?_, fun _ apart => ?_, ?_,
    peers.trans (SamePeers.setState knows' rfl)⟩
  · simp [NetProcessing.markBlockAsInFlight, knows, mine, received, knows']
  · exact kept.enterInFlight knows' (by simp [flight]) now pindex pit
  · rw [NetProcessing.enterInFlight, lookup_insert_ne apart, flight, if_neg apart]
  · rw [NetProcessing.enterInFlight, lookup_insert]
    rfl

def Unasked (s : NetProcessing) (peer : NodeId) (l : List UInt256) : Prop :=
  l.Nodup ∧ ∀ b ∈ l, (s.mapBlocksInFlight.lookup b).map (·.1) ≠ some peer

section
variable (books : s.Consistent)
include books

section
variable (known : (s.state peer).isSome)
include known

private theorem Consistent.requestNext (now : ℤ)
    (unasked : Unasked s peer (b :: l)) :
    ∃ r fresh, s.markBlockAsInFlight now peer b (some b) false = some (r, fresh) ∧ r.Consistent ∧
      SamePeers s r ∧ Unasked r peer l := by
  obtain ⟨apart, nodup⟩ := nodup_cons.1 unasked.1
  obtain ⟨r, fresh, marks, marked⟩ := books.markBlockAsInFlight known now b (some b) false
    fun _ => unasked.2 b mem_cons_self
  refine ⟨r, fresh, marks, marked.books, marked.peers, nodup, fun c mem => ?_⟩
  rw [marked.flight c (fun same => apart (same ▸ mem))]
  exact unasked.2 c (mem_cons_of_mem b mem)

theorem Consistent.requestBlocks (now : ℤ) (unasked : Unasked s peer l) :
    ∃ s', requestBlocks now peer s l = some s' ∧ s'.Consistent ∧ SamePeers s s' := by
  induction l generalizing s with
  | nil => exact ⟨s, rfl, books, .refl s⟩
  | cons _ l ih =>
    obtain ⟨_, _, marks, kept, peers, unasked⟩ := books.requestNext known now unasked
    obtain ⟨s', requests, kept, peers'⟩ := ih kept ((peers.isSome peer).trans known) unasked
    exact ⟨s', by simp [requestBlocks, marks, requests], kept, peers.trans peers'⟩

theorem Consistent.requestWithin
    (nMaxInTransit now : ℤ) (unasked : Unasked s peer l) :
    ∃ s', requestWithin nMaxInTransit now peer s l = some s' ∧ s'.Consistent ∧ SamePeers s s' := by
  induction l generalizing s with
  | nil => exact ⟨s, rfl, books, .refl s⟩
  | cons _ l ih =>
    obtain ⟨st, knows⟩ := isSome_iff_exists.1 known
    by_cases full : nMaxInTransit ≤ st.nBlocksInFlight
    · exact ⟨s, by simp [requestWithin, knows, full], books, .refl s⟩
    obtain ⟨_, _, marks, kept, peers, unasked⟩ := books.requestNext known now unasked
    obtain ⟨s', requests, kept, peers'⟩ := ih kept ((peers.isSome peer).trans known) unasked
    exact ⟨s', by simp [requestWithin, knows, full, marks, requests], kept, peers.trans peers'⟩

end

theorem Consistent.connected
    (found : s.mapBlocksInFlight.lookup hash = some (peer, it)) : (s.state peer).isSome := by
  obtain ⟨_, known, -⟩ := books.listed hash peer it found
  simp [known]

theorem Consistent.noteStaller (known : (s.state peer).isSome) (now : ℤ)
    (names : staller = -1 ∨ (s.state staller).isSome) :
    ∃ s', s.noteStaller now peer staller = some s' ∧ s'.Consistent ∧ SamePeers s s' := by
  obtain ⟨st, knows⟩ := isSome_iff_exists.1 known
  by_cases stalls : st.nBlocksInFlight = 0 ∧ staller ≠ -1
  · obtain ⟨other, knowsOther⟩ := isSome_iff_exists.1 (names.resolve_left stalls.2)
    by_cases first : other.nStallingSince = 0
    · refine ⟨s.setState staller { other with nStallingSince := now }, ?_,
        books.rewrite knowsOther ⟨rfl, rfl, rfl, rfl⟩, SamePeers.setState knowsOther rfl⟩
      simp [NetProcessing.noteStaller, knows, stalls, knowsOther, first]
    · exact ⟨s, by simp [NetProcessing.noteStaller, knows, stalls, knowsOther, first], books, .refl s⟩
  · exact ⟨s, by simp [NetProcessing.noteStaller, knows, stalls], books, .refl s⟩

end

theorem unasked_of_free (nodup : l.Nodup) (free : ∀ b ∈ l, s.inFlight b = false) :
    Unasked s peer l := by
  refine ⟨nodup, fun b mem => ?_⟩
  have none : s.mapBlocksInFlight.lookup b = none := by simpa [inFlight] using free b mem
  simp [none]

def Pointed {C : Type} (chain : ChainState C) (s : NetProcessing) : Prop :=
  ∀ q st, s.state q = some st → PointsTo chain st

section Chain
variable {C : Type} {chain : ChainState C} {node : NodeState C} {genesis : UInt256}

theorem Pointed.of_samePeers (pointed : Pointed chain s) (same : SamePeers s s') : Pointed chain s' := by
  intro q _ known
  have eq := same q
  rw [known, map_some] at eq
  obtain ⟨old, knew, is⟩ := map_eq_some_iff.1 eq.symm
  have points := pointed q old knew
  exact ⟨fun b best => points.best b ((congrArg Prod.fst is).trans best),
    fun b common => points.common b ((congrArg Prod.snd is).trans common)⟩

theorem Pointed.setState (peer : NodeId) (pointed : Pointed chain s) (points : PointsTo chain st) :
    Pointed chain (s.setState peer st) := by
  intro q r known
  rw [state_setState] at known
  split at known
  · cases known
    exact points
  · exact pointed q r known

/-- What a pass asks for: the historical blocks, then what the peer can send, until the vector has as
many blocks as slots are left. -/
def requested (node : NodeState C) (isWitnessEnabled : UInt256 → Bool) (s : NetProcessing) (pto : NodeId)
    (nSlots : ℕ) : List UInt256 :=
  let historical := s.historicalBlocks node nSlots
  if historical.length < nSlots then
    historical ++ fill (nSlots - historical.length) historical.length
      (missingFromPeer node.chain isWitnessEnabled s pto)
  else historical

def mayDownload (s : NetProcessing) (c : SendContext) (st : CNodeState) : Bool :=
  !c.fClient && s.canDownloadBlocks c st &&
    decide (st.nBlocksInFlight < maxBlocksInTransitPerPeer c.isInitialBlockDownload)

def slots (c : SendContext) (st : CNodeState) : ℕ :=
  (maxBlocksInTransitPerPeer c.isInitialBlockDownload - st.nBlocksInFlight).toNat

variable {c : SendContext} {count n : ℕ} {found : List UInt256} {b : UInt256}

theorem sendGetData_eq (ready : Ready node.chain genesis) (books : s.Consistent)
    (pointed : Pointed node.chain s) (known : s.state c.pto = some st)
    (enter : s.mayDownload c st) :
    ∃ r st' staller, r.Consistent ∧ Pointed node.chain r ∧
      r.mapBlocksInFlight = s.mapBlocksInFlight ∧ r.state c.pto = some st' ∧
      st'.nBlocksInFlight = st.nBlocksInFlight ∧ (∀ q, (r.state q).isSome = (s.state q).isSome) ∧
      (staller = -1 ∨ (s.state staller).isSome) ∧
      s.sendGetData node c =
        (requestBlocks c.nNow c.pto r (s.requested node c.isWitnessEnabled c.pto (slots c st))).bind
          fun s' => (s'.noteStaller c.nNow c.pto staller).bind fun s' =>
            some (s', s.requested node c.isWitnessEnabled c.pto (slots c st)) := by
  have enter' : (!c.fClient && s.canDownloadBlocks c st && decide (st.nBlocksInFlight <
    maxBlocksInTransitPerPeer c.isInitialBlockDownload)) := enter
  by_cases room : (s.historicalBlocks node (slots c st)).length < slots c st
  · have some_ : slots c st - (s.historicalBlocks node (slots c st)).length ≠ 0 := by omega
    obtain ⟨st', staller, finds, same, points, names⟩ :=
      findNextBlocks_spec c.isWitnessEnabled ready known
        (pointed c.pto st known) some_ (s.historicalBlocks node (slots c st))
    refine ⟨s.setState c.pto st', st', staller, books.rewrite known same,
      pointed.setState c.pto points, rfl,
      by simp, same.length, fun q => ?_, ?_, ?_⟩
    · rw [state_setState]
      split
      · next mine => rw [mine, known]; rfl
      · rfl
    · rcases names with none | ⟨_, _, found⟩
      · exact .inl none
      · exact .inr (books.connected found)
    simp only [slots] at room finds ⊢
    simp only [sendGetData, known, bind_eq_bind, bind_some, enter', if_true, room, finds, requested]
  refine ⟨s, st, -1, books, pointed, rfl, known, rfl, fun _ => rfl, .inl rfl, ?_⟩
  simp only [slots] at room ⊢
  simp only [sendGetData, known, bind_eq_bind, bind_some, enter', if_true, room,
    if_false, requested]

theorem sendGetData_closed (known : s.state c.pto = some st)
    (closed : ¬ s.mayDownload c st) : s.sendGetData node c = some (s, []) := by
  have closed' : ¬ (!c.fClient && s.canDownloadBlocks c st && decide (st.nBlocksInFlight <
    maxBlocksInTransitPerPeer c.isInitialBlockDownload)) := closed
  simp only [sendGetData, known, bind_eq_bind, bind_some, if_neg closed']

theorem mem_fill (mem : b ∈ fill count n found) : b ∈ found := by
  rw [fill] at mem
  split at mem
  · exact mem_of_mem_take mem
  · exact mem

theorem fill_nodup (nodup : found.Nodup) : (fill count n found).Nodup := by
  rw [fill]
  split
  · exact nodup.sublist (take_sublist _ _)
  · exact nodup

theorem requested_free
    (mem : b ∈ s.requested node isWitnessEnabled peer nSlots) : s.inFlight b = false := by
  obtain ⟨-, -, free⟩ := historicalBlocks_spec
  simp only [requested] at mem
  split at mem
  · rcases mem_append.1 mem with historical | found
    · exact (free b historical).1
    · exact (missingFromPeer_free (mem_fill found)).1
  · exact (free b mem).1

/-- The blocks of the snapshot's chain that have no body are on the active chain. -/
def HistoryOnChain (node : NodeState C) : Prop :=
  ∀ b, node.chain.tree.Le b node.snapshotBaseHash → (node.chain.data b).haveData = false →
    node.chain.contains b = true

theorem requested_nodup (history : HistoryOnChain node) (isWitnessEnabled : UInt256 → Bool)
    (s : NetProcessing) (peer : NodeId) (nSlots : ℕ) :
    (s.requested node isWitnessEnabled peer nSlots).Nodup := by
  obtain ⟨nodup, -, all⟩ := historicalBlocks_spec
  simp only [requested]
  split
  · refine nodup_append.2 ⟨nodup, fill_nodup missingFromPeer_nodup, ?_⟩
    rintro b historical _ found rfl
    have off := (missingFromPeer_free (mem_fill found)).2.2
    rw [history b (all b historical).2.1 (all b historical).2.2] at off
    cases off
  · exact nodup

theorem Consistent.sendGetData (ready : Ready node.chain genesis) (history : HistoryOnChain node)
    (books : s.Consistent) (pointed : Pointed node.chain s)
    (known : (s.state c.pto).isSome) :
    ∃ s' vGetData, s.sendGetData node c = some (s', vGetData) ∧ s'.Consistent ∧
      Pointed node.chain s' := by
  obtain ⟨st, knows⟩ := isSome_iff_exists.1 known
  by_cases enter : s.mayDownload c st
  · obtain ⟨r, _, staller, kept, points, map, knows', -, peers, names, is⟩ :=
      sendGetData_eq ready books pointed knows enter
    have unasked : Unasked r c.pto (s.requested node c.isWitnessEnabled c.pto (slots c st)) := by
      refine unasked_of_free (requested_nodup history _ _ _ _) fun _ mem => ?_
      rw [inFlight, map]
      exact requested_free mem
    obtain ⟨_, requests, kept, same⟩ := kept.requestBlocks (by simp [knows']) c.nNow unasked
    obtain ⟨s', notes, kept, same'⟩ := kept.noteStaller
      ((same.isSome c.pto).trans (by simp [knows'])) c.nNow
      (names.imp_right fun some_ => (same.isSome staller).trans ((peers staller).trans some_))
    exact ⟨s', _, by rw [is, requests, bind_some, notes, bind_some], kept,
      (points.of_samePeers same).of_samePeers same'⟩
  · exact ⟨s, [], sendGetData_closed knows enter, books, pointed⟩

private theorem directFetchWalk_spec (ready : Ready chain genesis) (s : NetProcessing) (c : MessageContext)
    (st : CNodeState) (known : pindex ∈ chain.tree.blocks)
    (enough : chain.tree.height pindex < fuel)
    (above : ∀ b ∈ vToFetch, s.inFlight b = false ∧ chain.tree.height pindex < chain.tree.height b)
    (nodup : vToFetch.Nodup) :
    ∃ l b, directFetchWalk chain s c st fuel (some pindex) vToFetch = (l, some b) ∧ l.Nodup ∧
      ∀ b ∈ l, s.inFlight b = false := by
  induction fuel generalizing pindex vToFetch with
  | zero => omega
  | succ fuel ih =>
    by_cases more : (!chain.contains pindex && decide ((vToFetch.length : ℤ) ≤
        maxBlocksInTransitPerPeer c.isInitialBlockDownload))
    · have off : ¬ chain.contains pindex := by
        simpa using (Bool.and_eq_true_iff.1 more).1
      obtain ⟨_, edge⟩ := ready.parent known off
      have step := chain.tree.height_parent edge
      have knownP := (chain.tree.parent_mem edge).2
      simp only [directFetchWalk, more, if_true, edge]
      split
      · next wanted =>
        have free : s.inFlight pindex = false := by
          simpa using (Bool.and_eq_true_iff.1 (Bool.and_eq_true_iff.1 wanted).1).2
        refine ih knownP (by omega) ?_ ?_
        · intro b mem
          rcases mem_append.1 mem with old | new
          · exact ⟨(above b old).1, by have := (above b old).2; omega⟩
          · rw [mem_singleton.1 new]
            exact ⟨free, by omega⟩
        refine nodup_append.2 ⟨nodup, nodup_singleton _, ?_⟩
        rintro b old c new rfl
        have higher := (above b old).2
        rw [mem_singleton.1 new] at higher
        exact lt_irrefl _ higher
      · refine ih knownP (by omega) (fun b mem => ?_) nodup
        exact ⟨(above b mem).1, by have := (above b mem).2; omega⟩
    · refine ⟨vToFetch, pindex, ?_, nodup, fun b mem => (above b mem).1⟩
      simp only [directFetchWalk, if_neg more]

theorem Consistent.directFetch (ready : Ready chain genesis) (books : s.Consistent)
    (pointed : Pointed chain s) {c : MessageContext} (known : (s.state c.pfrom).isSome)
    (accepted : pindexLast ∈ chain.tree.blocks) :
    ∃ s', s.directFetch chain c pindexLast = some s' ∧ s'.Consistent ∧ Pointed chain s' := by
  obtain ⟨st, knows⟩ := isSome_iff_exists.1 known
  obtain ⟨tip, _, active⟩ := ready.tip
  have kept := books.rewrite knows (updateAvailability_sameBooks chain st pindexLast)
  have points := Pointed.setState c.pfrom pointed
    ((pointed c.pfrom st knows).updateBlockAvailability pindexLast)
  have short : chain.tree.height pindexLast < chain.tree.height pindexLast + 2 := by omega
  have nothing : ∀ b ∈ ([] : List UInt256), (s.setState c.pfrom
      (updateBlockAvailability chain st pindexLast)).inFlight b = false ∧
        chain.tree.height pindexLast < chain.tree.height b := by simp
  obtain ⟨_, b, walks, nodup, free⟩ := directFetchWalk_spec ready _ c
    (updateBlockAvailability chain st pindexLast) accepted short nothing nodup_nil
  simp only [NetProcessing.directFetch, knows, bind_eq_bind, bind_some, active, walks]
  split
  · split
    · have connected : ((s.setState c.pfrom (updateBlockAvailability chain st pindexLast)).state
          c.pfrom).isSome := by simp
      obtain ⟨s', requests, kept, same⟩ := kept.requestWithin connected
        (maxBlocksInTransitPerPeer c.isInitialBlockDownload) c.now
        (unasked_of_free (nodup_reverse.2 nodup) (fun b mem => free b (mem_reverse.1 mem)))
      exact ⟨s', requests, kept, points.of_samePeers same⟩
    · exact ⟨_, rfl, kept, points⟩
  · exact ⟨_, rfl, kept, points⟩

theorem mem_startPartial :
    entry ∈ (startPartial st it).vBlocksInFlight → ∃ old ∈ st.vBlocksInFlight,
      entry.node = old.node ∧ entry.hash = old.hash := by
  intro mem
  obtain ⟨old, inside, rfl⟩ := mem_map.1 mem
  refine ⟨old, inside, ?_⟩
  split <;> exact ⟨rfl, rfl⟩

theorem Counted.startPartial (counted : Counted n st) (it : ℕ) : Counted n (startPartial st it) := by
  have nodes : (NetProcessing.startPartial st it).vBlocksInFlight.map (·.node) =
      st.vBlocksInFlight.map (·.node) := by
    simp only [NetProcessing.startPartial, List.map_map]
    refine map_congr_left fun entry _ => ?_
    simp only [Function.comp_apply]
    split <;> rfl
  refine ⟨?_, ?_, nodes ▸ counted.nodup, fun entry mem => ?_⟩
  · simp [NetProcessing.startPartial, counted.length]
  · simp only [NetProcessing.startPartial, counted.validated, countP_map]
    congr 1
    refine countP_congr fun entry _ => ?_
    simp only [Function.comp_apply]
    split <;> rfl
  obtain ⟨old, inside, same, -⟩ := mem_startPartial mem
  rw [same]
  exact counted.fresh old inside

theorem Consistent.startPartial (books : s.Consistent) (known : s.state peer = some st) (it : ℕ) :
    (s.setState peer (startPartial st it)).Consistent := by
  refine books.update known ?_ ?_ (fun _ _ _ _ found => found)
    ((books.counted peer st known).startPartial it) le_rfl rfl rfl
  · intro hash q node found
    by_cases mine : q = peer
    · subst mine
      obtain ⟨_, knows, entry, mem, points, is⟩ := books.listed hash q node found
      cases known.symm.trans knows
      refine .inr ⟨rfl, _, mem_map_of_mem mem, ?_⟩
      split <;> exact ⟨points, is⟩
    · exact .inl ⟨mine, found⟩
  intro entry mem
  obtain ⟨old, inside, node, hash⟩ := mem_startPartial mem
  rw [node, hash]
  exact books.mapped peer st known old inside

theorem exists_ite {P : α → Prop} {p : Prop} [Decidable p] {a b : Option α}
    (yes : ∃ x, a = some x ∧ P x) (no : ∃ x, b = some x ∧ P x) :
    ∃ x, (if p then a else b) = some x ∧ P x := by
  split <;> assumption

theorem Consistent.cmpctBlock (ready : Ready chain genesis) (books : s.Consistent)
    (pointed : Pointed chain s) {c : MessageContext} (known : (s.state c.pfrom).isSome)
    (initInvalid : Bool) (pindex : UInt256) :
    ∃ s', s.cmpctBlock chain c initInvalid pindex = some s' ∧ s'.Consistent ∧ Pointed chain s' := by
  obtain ⟨st, knows⟩ := isSome_iff_exists.1 known
  obtain ⟨tip, _, active⟩ := ready.tip
  have kept := books.rewrite knows (updateAvailability_sameBooks chain st pindex)
  have points := Pointed.setState c.pfrom pointed
    ((pointed c.pfrom st knows).updateBlockAvailability pindex)
  have connected : ((s.setState c.pfrom (updateBlockAvailability chain st pindex)).state
    c.pfrom).isSome := by simp
  obtain ⟨r, fresh, marks, marked⟩ := kept.markBlockAsInFlight connected c.now pindex (some pindex) true
    (fun none => absurd none (by decide))
  obtain ⟨place, found, is⟩ := map_eq_some_iff.1 marked.mine
  obtain ⟨rst, knowsR, entry, mem, node, -⟩ := marked.books.listed pindex place.1 place.2 found
  rw [is] at knowsR
  have finds : rst.vBlocksInFlight.find? (·.node = place.2) = some entry := by
    rw [← node]
    exact find_node (marked.books.counted _ _ knowsR).nodup mem
  have pointsR := points.of_samePeers marked.peers
  simp only [NetProcessing.cmpctBlock, knows, bind_eq_bind, bind_some, active, marks, found,
    knowsR, finds]
  refine exists_ite ⟨_, rfl, kept, points⟩ (exists_ite ⟨_, rfl, kept, points⟩ ?_)
  refine exists_ite ⟨_, rfl, kept, points⟩ (exists_ite ⟨_, rfl, kept, points⟩ ?_)
  refine exists_ite (exists_ite ⟨_, rfl, marked.books, pointsR⟩ ?_) ⟨_, rfl, kept, points⟩
  -- the block is downloaded as a compact block from now on
  obtain ⟨keptR, pointsR⟩ : (if fresh then r else
      r.setState c.pfrom (NetProcessing.startPartial rst place.2)).Consistent ∧
      Pointed chain (if fresh then r else
        r.setState c.pfrom (NetProcessing.startPartial rst place.2)) := by
    split
    · exact ⟨marked.books, pointsR⟩
    · exact ⟨marked.books.startPartial knowsR place.2,
        pointsR.of_samePeers (SamePeers.setState knowsR rfl)⟩
  refine exists_ite ?_ ⟨_, rfl, keptR, pointsR⟩
  obtain ⟨s', _, received, kept, -, same⟩ := keptR.markBlockAsReceived c.now pindex
  exact ⟨s', by rw [received]; rfl, kept, pointsR.of_samePeers same⟩

end Chain

end NetProcessing
end DogecoinCore
