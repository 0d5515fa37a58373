import DogecoinCore.BlockDownload

/-! What `FindNextBlocksToDownload` finds. Its chunks together are the way from the last common
block towards the peer's best block; the walk reads it once, in order, and stops where the blocks
run out, the window ends or the vector has the size asked for. -/
namespace DogecoinCore
open List Option Bool ParentTree NetProcessing Turn Nat

/-- What is put behind `n` blocks until there are `count`: the size is compared with `count` after
each push, so that a vector that has as many blocks before is never full. -/
def fill (count n : ℕ) (found : List UInt256) : List UInt256 :=
  if n < count then found.take (count - n) else found

namespace FetchWindow
variable {C : Type} (f : FetchWindow C)

/-- The way up to `nMaxHeight`, from `remaining` levels below it. -/
def path (remaining : ℕ) : List UInt256 :=
  (f.chain.tree.ancestorAt f.pindexBestKnownBlock f.nMaxHeight).elim [] fun top =>
    (f.chain.tree.down remaining top).reverse

/-- The peer's chain is valid up to the block and the peer can send the block. -/
def fetchable (b : UInt256) : Bool :=
  (f.chain.data b).isValid .tree && (f.fHaveWitness || !f.isWitnessEnabled b)

def wanted (b : UInt256) : Bool :=
  !(f.chain.data b).haveData && !f.chain.contains b && !f.net.inFlight b

def missing (l : List UInt256) : List UInt256 :=
  ((l.takeWhile f.fetchable).filter f.wanted).takeWhile fun b => f.chain.tree.height b ≤ f.nWindowEnd

def reached : Turn FetchWalk FetchWalk → FetchWalk
  | .again w => w
  | .leave w => w

theorem visitAll_append (w : FetchWalk) :
    f.visitAll (l ++ l') w = (f.visitAll l w).andThen (f.visitAll l') := by
  induction l generalizing w with
  | nil => rfl
  | cons b l ih =>
    simp only [cons_append, visitAll]
    cases f.visit b w with
    | leave w => rfl
    | again w => exact ih w

theorem path_split (low : n ≤ remaining) (high : remaining ≤ f.nMaxHeight)
    (known : f.nMaxHeight ≤ f.chain.tree.height f.pindexBestKnownBlock) :
    f.path remaining =
      (f.chain.tree.ancestorAt f.pindexBestKnownBlock (f.nMaxHeight - remaining + n)).elim []
        (fun b => (f.chain.tree.down n b).reverse) ++ f.path (remaining - n) := by
  obtain ⟨_, isTop⟩ := ancestorAt_exists known
  obtain ⟨_, isMid⟩ := ancestorAt_exists (t := f.chain.tree.toParentTree)
    (b := f.pindexBestKnownBlock) (h := f.nMaxHeight - remaining + n) (by omega)
  obtain ⟨topLe, _⟩ := ancestorAt_eq_some.1 isTop
  obtain ⟨midLe, _⟩ := ancestorAt_eq_some.1 isMid
  have below := midLe.le_of_height topLe (by omega)
  obtain ⟨m, up⟩ := le_iff_up.1 below
  have levels := up_height up
  have steps : m = remaining - n := by omega
  subst steps
  have whole := down_add (n := n) up
  rw [Nat.sub_add_cancel low] at whole
  simp [path, isTop, isMid, whole]

private theorem walk_eq (enough : remaining ≤ fuel) (high : remaining ≤ f.nMaxHeight)
    (known : f.nMaxHeight ≤ f.chain.tree.height f.pindexBestKnownBlock) (w : FetchWalk) :
    f.walk fuel remaining w = reached (f.visitAll (f.path remaining) w) := by
  induction fuel generalizing remaining w with
  | zero =>
    obtain rfl : remaining = 0 := by omega
    cases top : f.chain.tree.ancestorAt f.pindexBestKnownBlock f.nMaxHeight <;>
      simp [walk, path, top, down, visitAll, reached]
  | succ fuel ih =>
    by_cases done : remaining = 0
    · subst done
      cases top : f.chain.tree.ancestorAt f.pindexBestKnownBlock f.nMaxHeight <;>
        simp [walk, path, top, down, visitAll, reached]
    have nonzero : 1 ≤ min remaining (f.chunk w) := by
      simp only [chunk]
      omega
    have part := min_le_left remaining (f.chunk w)
    have left : remaining - min remaining (f.chunk w) ≤ fuel := by omega
    rw [walk, if_neg done, f.path_split part high known, visitAll_append]
    dsimp only
    split
    · next stopped => rw [stopped]; rfl
    next w' goesOn =>
    rw [goesOn]
    exact ih left ((sub_le _ _).trans high) w'

private theorem visit_eq (b : UInt256) (w : FetchWalk) : (f.fetchable b = false ∧ f.visit b w = .leave w) ∨
    (f.fetchable b ∧ f.wanted b = false ∧
      ∃ w', f.visit b w = .again w' ∧ w'.vBlocks = w.vBlocks) ∨
    (f.fetchable b ∧ f.wanted b ∧ f.nWindowEnd < f.chain.tree.height b ∧
      ∃ w', f.visit b w = .leave w' ∧ w'.vBlocks = w.vBlocks) ∨
    (f.fetchable b ∧ f.wanted b ∧ f.chain.tree.height b ≤ f.nWindowEnd ∧
      ∃ w', w'.vBlocks = w.vBlocks ++ [b] ∧
        f.visit b w = if w.vBlocks.length + 1 = f.count then .leave w' else .again w') := by
  by_cases goes : f.fetchable b
  · obtain ⟨valid, _⟩ := and_eq_true_iff.1 goes
    have served : (!f.fHaveWitness && f.isWitnessEnabled b) = false := by
      cases has : f.fHaveWitness <;> simp_all
    by_cases here : ((f.chain.data b).haveData || f.chain.contains b)
    · refine .inr (.inl ⟨goes, ?_, _, by simp [visit, valid, served, here]; rfl, ?_⟩)
      · rcases or_eq_true_iff.1 here with data | active <;> simp [wanted, *]
      · split <;> rfl
    obtain ⟨data, active⟩ := or_eq_false_iff.1 (not_eq_true _ ▸ here)
    cases flight : f.net.mapBlocksInFlight.lookup b with
    | some _ =>
      refine .inr (.inl ⟨goes, ?_, _, by simp [visit, valid, served, data, active, flight]; rfl, ?_⟩)
      · simp [wanted, inFlight, flight]
      · split <;> rfl
    | none =>
      have take : f.wanted b := by simp [wanted, inFlight, flight, data, active]
      by_cases late : f.nWindowEnd < f.chain.tree.height b
      · refine .inr (.inr (.inl ⟨goes, take, late, _,
          by simp only [visit, valid, served, data, active, flight, late]; rfl, ?_⟩))
        split <;> rfl
      refine .inr (.inr (.inr ⟨goes, take, not_lt.1 late,
        { w with vBlocks := w.vBlocks ++ [b] }, rfl, ?_⟩))
      simp [visit, valid, served, data, active, flight, late]
  refine .inl ⟨not_eq_true _ ▸ goes, ?_⟩
  rw [fetchable, and_eq_true_iff, not_and_or] at goes
  rcases goes with invalid | _
  · simp [visit, invalid]
  have refused : (!f.fHaveWitness && f.isWitnessEnabled b) := by
    cases has : f.fHaveWitness <;> simp_all
  by_cases valid : (f.chain.data b).isValid .tree <;> simp [visit, valid, refused]

private theorem vBlocks_visitAll (l : List UInt256) (w : FetchWalk) :
    (reached (f.visitAll l w)).vBlocks = w.vBlocks ++ fill f.count w.vBlocks.length (f.missing l) := by
  induction l generalizing w with
  | nil => simp [visitAll, reached, missing, fill]
  | cons b l ih =>
    rcases f.visit_eq b w with ⟨stop, visits⟩ | ⟨goes, skip, w', visits, same⟩ |
      ⟨goes, take, late, w', visits, same⟩ | ⟨goes, take, early, w', pushed, visits⟩
    · simp [visitAll, visits, andThen, reached, missing, stop, fill]
    · simp [visitAll, visits, andThen, ih, same, missing, goes, skip]
    · simp [visitAll, visits, andThen, reached, same, missing, goes, take, not_le.2 late, fill]
    have found : f.missing (b :: l) = b :: f.missing l := by simp [missing, goes, take, early]
    by_cases full : w.vBlocks.length + 1 = f.count
    · rw [visitAll, visits, if_pos full, found, fill, if_pos (by omega),
        show f.count - w.vBlocks.length = 1 by omega]
      exact pushed
    rw [visitAll, visits, if_neg full, found, andThen, ih, pushed, length_append,
      length_singleton, append_assoc]
    congr 1
    by_cases room : w.vBlocks.length < f.count
    · have left : f.count - w.vBlocks.length = f.count - (w.vBlocks.length + 1) + 1 := by omega
      rw [fill, fill, if_pos room, if_pos (by omega), left]
      rfl
    · rw [fill, fill, if_neg room, if_neg (by omega)]
      rfl

private theorem visit_names (b : UInt256) (w : FetchWalk) :
    ((reached (f.visit b w)).waitingfor = w.waitingfor ∨ ∃ it,
      f.net.mapBlocksInFlight.lookup b = some ((reached (f.visit b w)).waitingfor, it)) ∧
    ((reached (f.visit b w)).nodeStaller = w.nodeStaller ∨
      (reached (f.visit b w)).nodeStaller = w.waitingfor) ∧
    ((reached (f.visit b w)).pindexLastCommonBlock = w.pindexLastCommonBlock ∨
      (reached (f.visit b w)).pindexLastCommonBlock = b) := by
  simp only [visit]
  split
  · simp [reached]
  split
  · simp [reached]
  split
  · split <;> simp [reached]
  cases flight : f.net.mapBlocksInFlight.lookup b with
  | none =>
    dsimp only
    split
    · split <;> simp [reached]
    · split <;> simp [reached]
  | some place =>
    dsimp only
    split
    · exact ⟨.inr ⟨place.2, rfl⟩, .inl rfl, .inl rfl⟩
    · simp [reached]

def Names (q : NodeId) : Prop := q = -1 ∨ ∃ b it, f.net.mapBlocksInFlight.lookup b = some (q, it)

theorem visitAll_names (w : FetchWalk) (waiting : f.Names w.waitingfor)
    (stalling : f.Names w.nodeStaller) :
    f.Names (reached (f.visitAll l w)).nodeStaller ∧
      ((reached (f.visitAll l w)).pindexLastCommonBlock = w.pindexLastCommonBlock ∨
        (reached (f.visitAll l w)).pindexLastCommonBlock ∈ l) := by
  induction l generalizing w with
  | nil => exact ⟨stalling, .inl rfl⟩
  | cons b l ih =>
    obtain ⟨waits, stalls, common⟩ := f.visit_names b w
    cases visits : f.visit b w with
    | leave w' =>
      simp only [visits, reached] at waits stalls common
      simp only [visitAll, visits, andThen, reached]
      constructor
      · rcases stalls with same | same <;> rwa [same]
      rcases common with before | here
      · exact .inl before
      · exact .inr (here ▸ mem_cons_self)
    | again w' =>
      simp only [visits, reached] at waits stalls common
      simp only [visitAll, visits, andThen]
      have waiting' : f.Names w'.waitingfor := by
        rcases waits with same | ⟨it, found⟩
        · rwa [same]
        · exact .inr ⟨b, it, found⟩
      have stalling' : f.Names w'.nodeStaller := by rcases stalls with same | same <;> rwa [same]
      obtain ⟨names, last⟩ := ih w' waiting' stalling'
      refine ⟨names, ?_⟩
      rcases last with same | mem
      · rcases common with before | here
        · exact .inl (same.trans before)
        · exact .inr (same.trans here ▸ mem_cons_self)
      · exact .inr (mem_cons_of_mem b mem)

theorem path_pairwise :
    (f.path remaining).Pairwise fun x y => f.chain.tree.height x < f.chain.tree.height y := by
  cases top : f.chain.tree.ancestorAt f.pindexBestKnownBlock f.nMaxHeight with
  | none => simp [path, top]
  | some b =>
    simp only [path, top, elim_some, pairwise_reverse]
    exact f.chain.tree.down_pairwise remaining b

theorem path_nodup : (f.path remaining).Nodup :=
  (f.path_pairwise).imp fun less same => less.ne (congrArg f.chain.tree.height same)

theorem mem_path (known : f.nMaxHeight ≤ f.chain.tree.height f.pindexBestKnownBlock) :
    b ∈ f.path remaining ↔ f.chain.tree.Le b f.pindexBestKnownBlock ∧
      f.chain.tree.height b ≤ f.nMaxHeight ∧ f.nMaxHeight < f.chain.tree.height b + remaining := by
  obtain ⟨_, is⟩ := ancestorAt_exists known
  obtain ⟨below, level⟩ := ancestorAt_eq_some.1 is
  simp only [path, is, elim_some, mem_reverse, mem_down, level]
  constructor
  · rintro ⟨le, near⟩
    exact ⟨le.trans below, level ▸ le.height_le, near⟩
  · rintro ⟨le, low, near⟩
    exact ⟨le.le_of_height below (level ▸ low), near⟩

theorem le_of_mem_path (mem : b ∈ f.path remaining) :
    f.chain.tree.Le b f.pindexBestKnownBlock := by
  cases top : f.chain.tree.ancestorAt f.pindexBestKnownBlock f.nMaxHeight with
  | none => simp [path, top] at mem
  | some _ =>
    simp only [path, top, elim_some, mem_reverse] at mem
    exact (mem_down.1 mem).1.trans (ancestorAt_eq_some.1 top).1

theorem missing_sublist : (f.missing l).Sublist l :=
  (takeWhile_sublist _).trans (filter_sublist.trans (takeWhile_sublist _))

theorem wanted_of_mem_missing (mem : b ∈ f.missing l) : f.wanted b :=
  (mem_filter.1 ((takeWhile_sublist _).subset mem)).2

theorem mem_of_lower {height : UInt256 → ℕ}
    (sorted : l.Pairwise fun x y => height x < height y) (part : first <+: l) (mem : b ∈ first)
    (other : e ∈ l) (lower : height e < height b) : e ∈ first := by
  obtain ⟨_, rfl⟩ := part
  rcases mem_append.1 other with inside | behind
  · exact inside
  · have := (pairwise_append.1 sorted).2.2 b mem e behind
    omega

theorem mem_missing_of_lower
    (sorted : l.Pairwise fun x y => f.chain.tree.height x < f.chain.tree.height y)
    (mem : b ∈ f.missing l) (other : e ∈ l) (wanted : f.wanted e)
    (lower : f.chain.tree.height e < f.chain.tree.height b) : e ∈ f.missing l := by
  have inside := (takeWhile_sublist _).subset mem
  have walked : l.takeWhile f.fetchable <+: l := takeWhile_prefix _
  have reached := mem_of_lower sorted walked (mem_filter.1 inside).1 other lower
  have ascending := (sorted.sublist walked.sublist).filter f.wanted
  have first : f.missing l <+: (l.takeWhile f.fetchable).filter f.wanted := takeWhile_prefix _
  exact mem_of_lower ascending first mem (mem_filter.2 ⟨reached, wanted⟩) lower

end FetchWindow

section FindNext
variable {C : Type} {chain : ChainState C} {genesis : UInt256} {st : CNodeState}

structure Ready (chain : ChainState C) (genesis : UInt256) : Prop where
  tip : ∃ tip ∈ chain.tree.blocks, chain.chainActive = some tip
  rooted : ∀ b ∈ chain.tree.blocks, chain.tree.Le genesis b

structure PointsTo (chain : ChainState C) (st : CNodeState) : Prop where
  best : ∀ b, st.pindexBestKnownBlock = some b → b ∈ chain.tree.blocks
  common : ∀ b, st.pindexLastCommonBlock = some b → b ∈ chain.tree.blocks

/-- A change of a peer's state that leaves its blocks in flight alone. -/
structure SameBooks (st st' : CNodeState) : Prop where
  list : st'.vBlocksInFlight = st.vBlocksInFlight
  length : st'.nBlocksInFlight = st.nBlocksInFlight
  valid : st'.nBlocksInFlightValidHeaders = st.nBlocksInFlightValidHeaders
  preferred : st'.fPreferredDownload = st.fPreferredDownload

theorem processAvailability_sameBooks (chain : ChainState C) (st : CNodeState) :
    SameBooks st (processBlockAvailability chain st) := by
  simp only [processBlockAvailability]
  split <;> exact ⟨rfl, rfl, rfl, rfl⟩

theorem PointsTo.processBlockAvailability (points : PointsTo chain st) :
    PointsTo chain (processBlockAvailability chain st) := by
  simp only [DogecoinCore.processBlockAvailability]
  split
  · next old =>
    refine ⟨fun _ is => ?_, points.common⟩
    split at is
    · cases is
      exact old.2.1
    next best isBest =>
    split at is
    · cases is
      exact old.2.1
    · cases is
      exact points.best _ isBest
  · exact points

theorem updateAvailability_sameBooks (chain : ChainState C) (st : CNodeState) (hash : UInt256) :
    SameBooks st (updateBlockAvailability chain st hash) := by
  have same := processAvailability_sameBooks chain st
  simp only [updateBlockAvailability]
  split <;> exact ⟨same.list, same.length, same.valid, same.preferred⟩

theorem PointsTo.updateBlockAvailability (points : PointsTo chain st) (hash : UInt256) :
    PointsTo chain (updateBlockAvailability chain st hash) := by
  have points := points.processBlockAvailability
  simp only [DogecoinCore.updateBlockAvailability]
  split
  · next announced =>
    refine ⟨fun _ is => ?_, points.common⟩
    split at is
    · cases is
      exact announced.1
    next best isBest =>
    split at is
    · cases is
      exact announced.1
    · cases is
      exact points.best _ isBest
  · exact ⟨points.best, points.common⟩

theorem Ready.parent (ready : Ready chain genesis) (known : b ∈ chain.tree.blocks)
    (off : ¬ chain.contains b) : ∃ p, chain.tree.parent b = some p := by
  rcases le_iff_parent.1 (ready.rooted b known) with rfl | ⟨p, edge, -⟩
  · obtain ⟨tip, tipKnown, active⟩ := ready.tip
    exact absurd (ChainState.contains_iff.2 ⟨tip, active, ready.rooted tip tipKnown⟩) off
  · exact ⟨p, edge⟩

private theorem meetingPoint_exists (rootedA : t.Le genesis pa) (rootedB : t.Le genesis pb)
    (level : t.height pa = t.height pb) (enough : t.height pa ≤ fuel) :
    ∃ c, meetingPoint t fuel pa pb = some c ∧ t.Le c pa ∧ t.Le c pb := by
  induction fuel generalizing pa pb with
  | zero =>
    have low := rootedA.height_le
    obtain rfl := rootedA.eq_of_height (.refl pa) (by omega)
    obtain rfl := rootedB.eq_of_height (.refl pb) level
    exact ⟨genesis, by simp [meetingPoint], .refl genesis, .refl genesis⟩
  | succ fuel ih =>
    by_cases same : pa = pb
    · subst same
      exact ⟨pa, by simp [meetingPoint], .refl pa, .refl pa⟩
    rcases parents_of_level level same with ⟨-, -, no⟩ | ⟨_, _, edgeA, edgeB, level', common⟩
    · exact absurd ⟨rootedA, rootedB⟩ (no genesis)
    have step := t.height_parent edgeA
    obtain ⟨rootedP, rootedQ⟩ := (common genesis).1 ⟨rootedA, rootedB⟩
    obtain ⟨c, meets, under⟩ := ih rootedP rootedQ level' (by omega)
    exact ⟨c, by simp [meetingPoint, same, edgeA, edgeB, meets], (common c).2 under⟩

theorem commonAncestor_exists (rootedA : t.Le genesis pa)
    (rootedB : t.Le genesis pb) : ∃ c, lastCommonAncestor t pa pb = some c ∧ t.Le c pb := by
  obtain ⟨_, isA⟩ := ancestorAt_exists (min_le_left (t.height pa) (t.height pb))
  obtain ⟨_, isB⟩ := ancestorAt_exists (min_le_right (t.height pa) (t.height pb))
  obtain ⟨underA, levelA⟩ := ancestorAt_eq_some.1 isA
  obtain ⟨underB, levelB⟩ := ancestorAt_eq_some.1 isB
  have lowA := rootedA.height_le
  have lowB := rootedB.height_le
  obtain ⟨c, meets, -, below⟩ := meetingPoint_exists (rootedA.le_of_height underA (by omega))
    (rootedB.le_of_height underB (by omega)) (levelA.trans levelB.symm) levelA.le
  refine ⟨c, ?_, below.trans underB⟩
  simp [lastCommonAncestor, isA, isB, meets]

theorem startOfFetch_exists (ready : Ready chain genesis) (points : PointsTo chain st)
    (active : chain.chainActive = some tip) (known : best ∈ chain.tree.blocks) :
    ∃ common, startOfFetch chain st tip best = some common ∧ chain.tree.Le common best := by
  have rooted := ready.rooted best known
  cases last : st.pindexLastCommonBlock with
  | some guess =>
    obtain ⟨c, meets, below⟩ := commonAncestor_exists
      (ready.rooted guess (points.common guess last)) rooted
    exact ⟨c, by simp [startOfFetch, last, meets], below⟩
  | none =>
    obtain ⟨guess, isGuess⟩ := ancestorAt_exists
      (min_le_right (chain.tree.height best) (chain.tree.height tip))
    obtain ⟨_, tipKnown, isTip⟩ := ready.tip
    cases active.symm.trans isTip
    obtain ⟨under, _⟩ := ancestorAt_eq_some.1 isGuess
    have low := (ready.rooted tip tipKnown).height_le
    have low' := rooted.height_le
    obtain ⟨c, meets, below⟩ := commonAncestor_exists
      ((ready.rooted tip tipKnown).le_of_height under (by omega)) rooted
    exact ⟨c, by simp [startOfFetch, last, isGuess, meets], below⟩

/-- The blocks of the peer's chain that `FindNextBlocksToDownload` could ask it for. -/
def missingFromPeer (chain : ChainState C) (isWitnessEnabled : UInt256 → Bool) (s : NetProcessing)
    (nodeid : NodeId) : List UInt256 :=
  ((s.state nodeid).bind fun st =>
    let st := processBlockAvailability chain st
    st.pindexBestKnownBlock.bind fun best => chain.chainActive.bind fun tip =>
      if chain.tree.nChainWork best < chain.tree.nChainWork tip then none
      else (startOfFetch chain st tip best).map fun common =>
        let f := fetchWindow chain isWitnessEnabled s nodeid st best common 0
        f.missing (f.path (f.nMaxHeight - chain.tree.height common))).getD []

theorem missingFromPeer_of_work (known : s.state nodeid = some st)
    (isBest : (processBlockAvailability chain st).pindexBestKnownBlock = some best)
    (active : chain.chainActive = some tip)
    (work : ¬ chain.tree.nChainWork best < chain.tree.nChainWork tip)
    (starts : startOfFetch chain (processBlockAvailability chain st) tip best = some common)
    (count : ℕ) :
    missingFromPeer chain isWitnessEnabled s nodeid =
      let f := fetchWindow chain isWitnessEnabled s nodeid (processBlockAvailability chain st) best
        common count
      f.missing (f.path (f.nMaxHeight - chain.tree.height common)) := by
  simp [missingFromPeer, known, isBest, active, work, starts]
  rfl

theorem findNextBlocks_spec (isWitnessEnabled : UInt256 → Bool)
    (ready : Ready chain genesis) (known : s.state nodeid = some st)
    (points : PointsTo chain st) {count : ℕ} (some_ : count ≠ 0) (vBlocks : List UInt256) :
    ∃ st' staller, findNextBlocksToDownload chain isWitnessEnabled s nodeid count vBlocks (-1) =
        some (s.setState nodeid st',
          vBlocks ++ fill count vBlocks.length (missingFromPeer chain isWitnessEnabled s nodeid),
          staller) ∧
      SameBooks st st' ∧ PointsTo chain st' ∧
      (staller = -1 ∨ ∃ b it, s.mapBlocksInFlight.lookup b = some (staller, it)) := by
  have points' := points.processBlockAvailability
  have same := processAvailability_sameBooks chain st
  have fill_nil : fill count vBlocks.length [] = [] := by simp [fill]
  obtain ⟨tip, _, active⟩ := ready.tip
  cases isBest : (processBlockAvailability chain st).pindexBestKnownBlock with
  | none =>
    refine ⟨processBlockAvailability chain st, -1, ?_, same, points', .inl rfl⟩
    simp [findNextBlocksToDownload, some_, known, isBest, missingFromPeer, fill_nil]
  | some best =>
    by_cases less : chain.tree.nChainWork best < chain.tree.nChainWork tip
    · refine ⟨processBlockAvailability chain st, -1, ?_, same, points', .inl rfl⟩
      simp [findNextBlocksToDownload, some_, known, isBest, active, less, missingFromPeer, fill_nil]
    have bestKnown := points'.best best isBest
    obtain ⟨common, starts, below⟩ := startOfFetch_exists ready points' active bestKnown
    let f := fetchWindow chain isWitnessEnabled s nodeid (processBlockAvailability chain st) best
      common count
    have commonKnown := HeaderTree.mem_of_le below bestKnown
    have missing : missingFromPeer chain isWitnessEnabled s nodeid =
        f.missing (f.path (f.nMaxHeight - chain.tree.height common)) :=
      missingFromPeer_of_work known isBest active less starts count
    by_cases done : common = best
    · subst done
      have nothing : missingFromPeer chain isWitnessEnabled s nodeid = [] := by
        have level : f.nMaxHeight - chain.tree.height common = 0 := by
          simp only [f, fetchWindow]
          omega
        have empty : f.path 0 = [] := by
          simp only [FetchWindow.path]
          cases f.chain.tree.ancestorAt f.pindexBestKnownBlock f.nMaxHeight <;> rfl
        rw [missing, level, empty]
        rfl
      refine ⟨{ processBlockAvailability chain st with pindexLastCommonBlock := some common }, -1,
        ?_, ⟨same.list, same.length, same.valid, same.preferred⟩, ⟨points'.best, ?_⟩, .inl rfl⟩
      · simp [findNextBlocksToDownload, some_, known, isBest, active, if_neg less, starts, nothing,
          fill_nil]
      · rintro b ⟨⟩
        exact commonKnown
    let w := f.walk (f.nMaxHeight - chain.tree.height common)
      (f.nMaxHeight - chain.tree.height common) ⟨vBlocks, common, -1, -1⟩
    have walks : w = FetchWindow.reached (f.visitAll (f.path _) _) :=
      f.walk_eq le_rfl (sub_le _ _) (min_le_left _ _) ⟨vBlocks, common, -1, -1⟩
    obtain ⟨names, last⟩ := f.visitAll_names
      ⟨vBlocks, common, -1, -1⟩ (.inl rfl) (.inl rfl)
    rw [← walks] at names last
    refine ⟨{ processBlockAvailability chain st with
      pindexLastCommonBlock := some w.pindexLastCommonBlock }, w.nodeStaller, ?_,
      ⟨same.list, same.length, same.valid, same.preferred⟩, ⟨points'.best, ?_⟩, names⟩
    · have found : w.vBlocks = vBlocks ++ fill count vBlocks.length
          (f.missing (f.path (f.nMaxHeight - chain.tree.height common))) := by
        rw [walks]
        exact f.vBlocks_visitAll _ ⟨vBlocks, common, -1, -1⟩
      rw [missing, ← found]
      simp [findNextBlocksToDownload, some_, known, isBest, active, if_neg less, starts, done]
      exact ⟨rfl, rfl, rfl⟩
    rintro b ⟨⟩
    rcases last with same | mem
    · rw [same]
      exact commonKnown
    · exact HeaderTree.mem_of_le (f.le_of_mem_path mem) bestKnown

theorem missingFromPeer_eq (chain : ChainState C) (isWitnessEnabled : UInt256 → Bool) (s : NetProcessing)
    (nodeid : NodeId) : missingFromPeer chain isWitnessEnabled s nodeid = [] ∨
      ∃ (f : FetchWindow C) (remaining : ℕ), f.chain = chain ∧ f.net = s ∧
        missingFromPeer chain isWitnessEnabled s nodeid = f.missing (f.path remaining) := by
  cases found : (s.state nodeid).bind fun st =>
    (processBlockAvailability chain st).pindexBestKnownBlock.bind fun best =>
      chain.chainActive.bind fun tip =>
        if chain.tree.nChainWork best < chain.tree.nChainWork tip then none
        else (startOfFetch chain (processBlockAvailability chain st) tip best).map fun common =>
          let f := fetchWindow chain isWitnessEnabled s nodeid (processBlockAvailability chain st) best
            common 0
          f.missing (f.path (f.nMaxHeight - chain.tree.height common)) with
  | none => exact .inl (by rw [missingFromPeer]; exact congrArg (getD · []) found)
  | some l =>
    have is : missingFromPeer chain isWitnessEnabled s nodeid = l := by
      exact congrArg (getD · []) found
    simp only [bind_eq_some_iff, ite_none_left_eq_some, map_eq_some_iff] at found
    obtain ⟨st, -, best, -, tip, -, -, common, -, rfl⟩ := found
    exact .inr ⟨_, _, rfl, rfl, is⟩

theorem missingFromPeer_nodup : (missingFromPeer chain isWitnessEnabled s nodeid).Nodup := by
  rcases missingFromPeer_eq chain isWitnessEnabled s nodeid with none | ⟨f, _, -, -, is⟩
  · rw [none]
    exact nodup_nil
  · rw [is]
    exact (f.path_nodup).sublist (f.missing_sublist)

theorem missingFromPeer_free (mem : b ∈ missingFromPeer chain isWitnessEnabled s nodeid) :
    s.inFlight b = false ∧ (chain.data b).haveData = false ∧ chain.contains b = false := by
  rcases missingFromPeer_eq chain isWitnessEnabled s nodeid with none | ⟨f, _, rfl, rfl, is⟩
  · rw [none] at mem
    cases mem
  rw [is] at mem
  have wanted := f.wanted_of_mem_missing mem
  simp only [FetchWindow.wanted, and_eq_true, not_eq_true'] at wanted
  exact ⟨wanted.2, wanted.1⟩

end FindNext

section Historical
variable {C : Type}

private theorem missingFrom_spec (heights : List ℕ) (out : List UInt256) :
    ∃ more, missingFrom chain target max_count heights out = out ++ more ∧
      (more.map chain.tree.height).Sublist heights ∧
      ∀ b ∈ more, chain.tree.Le b target ∧ (chain.data b).haveData = false := by
  induction heights generalizing out with
  | nil => exact ⟨[], by simp [missingFrom], by simp, by simp⟩
  | cons h heights ih =>
    by_cases room : out.length < max_count
    · cases found : chain.tree.ancestorAt target h with
      | none => exact ⟨[], by simp [missingFrom, found], by simp, by simp⟩
      | some b =>
        obtain ⟨below, level⟩ := ancestorAt_eq_some.1 found
        cases data : (chain.data b).haveData with
        | true =>
          obtain ⟨more, is, levels, all⟩ := ih out
          exact ⟨more, by simp [missingFrom, room, found, data, is], levels.cons h, all⟩
        | false =>
          obtain ⟨more, is, levels, all⟩ := ih (out ++ [b])
          refine ⟨b :: more, by simp [missingFrom, room, found, data, is], ?_, ?_⟩
          · simp only [map_cons, level]
            exact levels.cons_cons h
          rintro c (- | ⟨_, mem⟩)
          · exact ⟨below, data⟩
          · exact all c mem
    · exact ⟨[], by simp [missingFrom, room], by simp, by simp⟩

theorem missingBlocks_spec :
    (getBackgroundValidationMissingBlocks node max_count).Nodup ∧
      ∀ b ∈ getBackgroundValidationMissingBlocks node max_count,
        node.chain.tree.Le b node.snapshotBaseHash ∧ (node.chain.data b).haveData = false := by
  simp only [getBackgroundValidationMissingBlocks]
  split
  · simp
  split
  · simp
  split
  · simp
  obtain ⟨_, is, levels, all⟩ := missingFrom_spec
    (range' (node.bgHeight + 1).toNat
      (node.chain.tree.height node.snapshotBaseHash + 1 - (node.bgHeight + 1).toNat)) []
  rw [is, nil_append]
  exact ⟨.of_map _ ((nodup_range' ..).sublist levels), all⟩

theorem historicalBlocks_spec {node : NodeState C} {s : NetProcessing} {nSlots : ℕ} :
    (s.historicalBlocks node nSlots).Nodup ∧ (s.historicalBlocks node nSlots).length ≤ nSlots ∧
      ∀ b ∈ s.historicalBlocks node nSlots, s.inFlight b = false ∧
        node.chain.tree.Le b node.snapshotBaseHash ∧ (node.chain.data b).haveData = false := by
  obtain ⟨nodup, all⟩ := missingBlocks_spec
  simp only [historicalBlocks]
  split
  · refine ⟨(nodup.filter _).sublist (take_sublist _ _), length_take_le _ _, fun b mem => ?_⟩
    obtain ⟨inside, free⟩ := mem_filter.1 (mem_of_mem_take mem)
    exact ⟨by simpa using free, all b inside⟩
  · simp

end Historical
end DogecoinCore
