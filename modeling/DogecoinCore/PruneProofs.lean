import DogecoinCore.ActivationSteps
import DogecoinCore.Node
import DogecoinCore.Prune

/-! Which files a pruning flush picks, in terms of the state before it, and what follows: how
close to the tip it prunes, whether it takes blocks that background validation still
needs, and whether the index agrees with the files afterwards. -/
namespace DogecoinCore.PruneState
open List Nat BlockDirs
variable {C : Type} {st st' : PruneState C} {nFile other : ℕ}

theorem info_pruneOneBlockFile :
    (st.pruneOneBlockFile nFile).info other = if other = nFile then .null else st.info other := by
  unfold info pruneOneBlockFile
  by_cases same : other = nFile
  · rw [if_pos same, same, getD_eq_getElem?_getD, getElem?_set_self']
    cases st.vinfoBlockFile[nFile]? <;> rfl
  · rw [if_neg same, getD_eq_getElem?_getD, getD_eq_getElem?_getD, getElem?_set_ne (Ne.symm same)]

def pruneFiles (set : List ℕ) (st : PruneState C) : PruneState C :=
  set.foldl (fun st nFile => st.pruneOneBlockFile nFile) st

theorem info_pruneFiles (set : List ℕ) (st : PruneState C) (nFile : ℕ) :
    (st.pruneFiles set).info nFile = if nFile ∈ set then .null else st.info nFile := by
  induction set generalizing st with
  | nil => rfl
  | cons first rest ih =>
    change ((st.pruneOneBlockFile first).pruneFiles rest).info nFile = _
    rw [ih, info_pruneOneBlockFile]
    by_cases later : nFile ∈ rest
    · rw [if_pos later, if_pos (mem_cons_of_mem _ later)]
    by_cases same : nFile = first
    · rw [if_neg later, if_pos same, if_pos (same ▸ mem_cons_self)]
    · rw [if_neg later, if_neg same, if_neg (by simp [same, later])]

def Stored (st : PruneState C) (nFile : ℕ) (b : UInt256) : Prop :=
  b ∈ st.node.chain.tree.blocks ∧ (st.node.chain.data b).haveData = true ∧
    (st.node.chain.data b).nFile = nFile

private theorem data_pruneOneBlockFile : ((st.pruneOneBlockFile nFile).node.chain.data b =
        if b ∈ st.node.chain.tree.blocks ∧ (st.node.chain.data b).nFile = nFile then
          { st.node.chain.data b with haveData := false, haveUndo := false, nFile := 0 }
        else st.node.chain.data b) ∧
      ((st.pruneOneBlockFile nFile).pos b =
        if b ∈ st.node.chain.tree.blocks ∧ (st.node.chain.data b).nFile = nFile then ⟨0, 0⟩
        else st.pos b) := by
  constructor
  · simp [pruneOneBlockFile, ChainState.modifyAll]
  · simp [pruneOneBlockFile]

theorem pruneFiles_frame (set : List ℕ) (st : PruneState C) :
    (st.pruneFiles set).node.chain.tree = st.node.chain.tree ∧
      (st.pruneFiles set).dirs = st.dirs := by
  induction set generalizing st with
  | nil => exact ⟨rfl, rfl⟩
  | cons first _ ih => exact ih (st.pruneOneBlockFile first)

private theorem data_pruneFiles (set : List ℕ) (st : PruneState C) (b : UInt256)
    (known : b ∈ st.node.chain.tree.blocks) :
    (((st.pruneFiles set).node.chain.data b).haveData ↔
        (st.node.chain.data b).haveData ∧ (st.node.chain.data b).nFile ∉ set) ∧
      ((st.node.chain.data b).nFile ∉ set →
        (st.pruneFiles set).node.chain.data b = st.node.chain.data b ∧
          (st.pruneFiles set).pos b = st.pos b) := by
  induction set generalizing st with
  | nil => exact ⟨by simp [pruneFiles], fun _ => ⟨rfl, rfl⟩⟩
  | cons first rest ih =>
    obtain ⟨data, pos⟩ := data_pruneOneBlockFile
    obtain ⟨kept, same⟩ := ih (st.pruneOneBlockFile first) known
    change (((st.pruneOneBlockFile first).pruneFiles rest).node.chain.data b).haveData ↔ _
      at kept
    by_cases here : (st.node.chain.data b).nFile = first
    · rw [if_pos ⟨known, here⟩] at data
      refine ⟨⟨fun has => ?_, fun ⟨_, away⟩ => (away (here ▸ mem_cons_self)).elim⟩,
        fun away => (away (here ▸ mem_cons_self)).elim⟩
      have gone := (kept.1 has).1
      rw [data] at gone
      cases gone
    rw [if_neg fun both => here both.2] at data pos
    rw [data] at kept same
    rw [pos] at same
    refine ⟨kept.trans ?_, fun away => same fun later => away (mem_cons_of_mem _ later)⟩
    rw [mem_cons, not_or]
    exact ⟨fun ⟨has, away⟩ => ⟨has, here, away⟩, fun ⟨has, _, away⟩ => ⟨has, away⟩⟩

def eligible (st : PruneState C) (nLastBlockWeCanPrune : UInt32) (nFile : ℕ) : Bool :=
  (st.info nFile).nSize ≠ 0 && (st.info nFile).nHeightLast ≤ nLastBlockWeCanPrune

/-- What the files take up when the eligible ones below `nFile` are gone. -/
def usageAt (st : PruneState C) (nLastBlockWeCanPrune : UInt32) (nFile : ℕ) : UInt64 :=
  st.calculateCurrentUsage - (((range nFile).filter (st.eligible nLastBlockWeCanPrune)).map
      fun f => (st.info f).bytes).sum

theorem usageAt_succ (st : PruneState C) (nLast : UInt32) (nFile : ℕ) :
    st.usageAt nLast (nFile + 1) = if st.eligible nLast nFile
      then st.usageAt nLast nFile - (st.info nFile).bytes else st.usageAt nLast nFile := by
  unfold usageAt
  rw [range_succ, filter_append]
  cases is : st.eligible nLast nFile with
  | true =>
    rw [if_pos rfl, filter_cons_of_pos is, filter_nil, map_append, List.sum_append,
      map_singleton, sum_singleton, sub_sub]
  | false =>
    rw [if_neg Bool.false_ne_true, filter_cons_of_neg (by simp [is]), filter_nil, append_nil]

theorem pruneLoop_snd (usage : UInt64) (st : PruneState C) :
    (st.pruneLoop target nLast files usage).2 =
      st.pruneFiles (st.pruneLoop target nLast files usage).1 := by
  induction files generalizing usage st with
  | nil => rfl
  | cons _ _ ih =>
    unfold pruneLoop
    dsimp only
    split
    · exact ih usage st
    split
    · rfl
    split
    · exact ih usage st
    · exact ih _ _

variable {before : PruneState C} {b : UInt256} {io : FlushIo}
  {hex : List UInt8 → String} {archive : ArchiveIo} {request : PruneRequest}

private theorem mem_pruneLoop (m k : ℕ)
    (st : PruneState C) (same : ∀ f, k ≤ f → st.info f = before.info f) :
    nFile ∈ (st.pruneLoop target nLast (range' k m) (before.usageAt nLast k)).1 ↔
      k ≤ nFile ∧ nFile < k + m ∧ before.eligible nLast nFile ∧
        ∀ g, k ≤ g → g ≤ nFile → (before.info g).nSize ≠ 0 →
          target ≤ before.usageAt nLast g + pruneBuffer := by
  induction m generalizing k st with
  | zero =>
    simp only [range'_zero, pruneLoop, not_mem_nil, false_iff]
    omega
  | succ m ih =>
    have next := before.usageAt_succ nLast k
    -- What is said of the files from `k` on, split at `k`.
    have cut : (∀ g, k ≤ g → g ≤ nFile → (before.info g).nSize ≠ 0 →
        target ≤ before.usageAt nLast g + pruneBuffer) ↔
        (k ≤ nFile → (before.info k).nSize ≠ 0 → target ≤ before.usageAt nLast k + pruneBuffer) ∧
          ∀ g, k + 1 ≤ g → g ≤ nFile → (before.info g).nSize ≠ 0 →
            target ≤ before.usageAt nLast g + pruneBuffer := by
      refine ⟨fun all => ⟨all k le_rfl, fun g above => all g (by omega)⟩, ?_⟩
      intro both g above below
      rcases above.eq_or_lt with rfl | above
      · exact both.1 below
      · exact both.2 g above below
    rw [range'_succ, pruneLoop, same k le_rfl, cut]
    split
    case isTrue empty =>
      have skip : before.eligible nLast k = false := by simp [eligible, empty]
      rw [skip, if_neg Bool.false_ne_true] at next
      rw [← next, ih (k + 1) st fun f above => same f (by omega)]
      grind
    case isFalse size =>
      split
      case isTrue low =>
        have stop := UInt64.not_le.2 low
        simp only [not_mem_nil, false_iff]
        exact fun all => stop (all.2.2.2.1 all.1 size)
      case isFalse high =>
        split
        case isTrue recent =>
          have skip : before.eligible nLast k = false := by simp [eligible, size, recent]
          grind
        case isFalse old =>
          have takes : before.eligible nLast k := by
            simp [eligible, size, UInt32.not_lt.1 old]
          rw [takes, if_pos rfl] at next
          have away : ∀ f, k + 1 ≤ f → (st.pruneOneBlockFile k).info f = before.info f := by
            intro f above
            rw [info_pruneOneBlockFile, if_neg (by omega), same f (by omega)]
          rw [← next, mem_cons, ih (k + 1) _ away]
          grind

theorem pruneLoop_sublist (target : UInt64) (nLast : UInt32) (files : List ℕ) (usage : UInt64)
    (st : PruneState C) : (st.pruneLoop target nLast files usage).1.Sublist files := by
  induction files generalizing usage st with
  | nil => exact .slnil
  | cons _ _ ih =>
    unfold pruneLoop
    dsimp only
    split
    · exact (ih usage st).cons _
    split
    · exact nil_sublist _
    split
    · exact (ih usage st).cons _
    · exact (ih _ _).cons_cons _

theorem pruneManualLoop_spec (distinct : files.Nodup) (st : PruneState C)
    (same : ∀ f ∈ files, st.info f = before.info f) :
    (st.pruneManualLoop nLast files).1 = files.filter (before.eligible nLast) ∧
      (st.pruneManualLoop nLast files).2 =
        st.pruneFiles (files.filter (before.eligible nLast)) := by
  induction files generalizing st with
  | nil => exact ⟨rfl, rfl⟩
  | cons first rest ih =>
    obtain ⟨fresh, distinct⟩ := nodup_cons.1 distinct
    have later : ∀ f ∈ rest, st.info f = before.info f :=
      fun f mem => same f (mem_cons_of_mem _ mem)
    have skipped : ((before.info first).nSize = 0 || (before.info first).nHeightLast > nLast) =
        !before.eligible nLast first := by
      simp [eligible, ← UInt32.not_le]
    rw [pruneManualLoop, same first mem_cons_self]
    rw [skipped]
    cases fits : before.eligible nLast first with
    | false =>
      rw [filter_cons_of_neg (by simp [fits])]
      exact ih distinct st later
    | true =>
      have away : ∀ f ∈ rest, (st.pruneOneBlockFile first).info f = before.info f := by
        intro f mem
        have ne : f ≠ first := fun hit => fresh (hit ▸ mem)
        rw [info_pruneOneBlockFile, if_neg ne, later f mem]
      obtain ⟨set, pruned⟩ := ih distinct (st.pruneOneBlockFile first) away
      rw [filter_cons_of_pos fits, ← set]
      exact ⟨rfl, pruned.trans (by rw [← set]; rfl)⟩

def PruneRequest.bound (height : ℕ) : PruneRequest → UInt32
  | .automatic _ _ => lastBlockWeCanPrune height.toUInt32
  | .manual nManualPruneHeight =>
    min nManualPruneHeight.toUInt32 (lastBlockWeCanPrune height.toUInt32)

/-- Up to a file there is no room below the target. A manual request has no target. -/
def PruneRequest.Presses (st : PruneState C) (height nFile : ℕ) : PruneRequest → Prop
  | .automatic nPruneTarget nPruneAfterHeight =>
    nPruneTarget ≠ 0 ∧ nPruneAfterHeight < height.toUInt64 ∧
      nPruneTarget ≤ st.calculateCurrentUsage + pruneBuffer ∧
      ∀ g ≤ nFile, (st.info g).nSize ≠ 0 →
        nPruneTarget ≤ st.usageAt (lastBlockWeCanPrune height.toUInt32) g + pruneBuffer
  | .manual _ => True

def Picked (st : PruneState C) (request : PruneRequest) (nFile : ℕ) : Prop :=
  ∃ height, st.chainHeight = some height ∧ nFile < st.node.chain.files.nLastBlockFile ∧
    st.eligible (request.bound height) nFile = true ∧ request.Presses st height nFile

theorem mem_selectFiles :
    nFile ∈ (st.selectFiles request).1 ↔ st.Picked request nFile := by
  unfold Picked
  cases request with
  | automatic _ _ =>
    simp only [selectFiles, findFilesToPrune]
    cases st.chainHeight with
    | none => simp
    | some height =>
      simp only [Option.some.injEq, exists_eq_left', PruneRequest.bound, PruneRequest.Presses]
      split
      case isTrue off => simp [off]
      case isFalse on =>
        split
        case isTrue short => simp [UInt64.not_lt.2 short]
        case isFalse long =>
          split
          case isTrue full =>
            have start : st.usageAt (lastBlockWeCanPrune height.toUInt32) 0 =
                st.calculateCurrentUsage := by simp [usageAt]
            rw [← start, range_eq_range', mem_pruneLoop _ 0 st fun _ _ => rfl, start]
            simp [on, UInt64.not_le.1 long, ge_iff_le.1 full]
          case isFalse room => simp [room]
  | manual _ =>
    simp only [selectFiles, findFilesToPruneManual]
    cases st.chainHeight with
    | none => simp
    | some height =>
      simp only [Option.some.injEq, exists_eq_left', PruneRequest.bound, PruneRequest.Presses]
      rw [(pruneManualLoop_spec nodup_range st fun _ _ => rfl).1]
      simp

private theorem selectFiles_spec (st : PruneState C) (request : PruneRequest) :
    (st.selectFiles request).1.Nodup ∧
      (st.selectFiles request).2 = st.pruneFiles (st.selectFiles request).1 := by
  cases request with
  | automatic target _ =>
    simp only [selectFiles, findFilesToPrune]
    cases st.chainHeight with
    | none => exact ⟨nodup_nil, rfl⟩
    | some height =>
      dsimp only
      split
      · exact ⟨nodup_nil, rfl⟩
      split
      · exact ⟨nodup_nil, rfl⟩
      split
      · have taken := pruneLoop_sublist target (lastBlockWeCanPrune height.toUInt32)
          (range st.node.chain.files.nLastBlockFile) st.calculateCurrentUsage st
        exact ⟨nodup_range.sublist taken, pruneLoop_snd _ st⟩
      · exact ⟨nodup_nil, rfl⟩
  | manual _ =>
    simp only [selectFiles, findFilesToPruneManual]
    cases st.chainHeight with
    | none => exact ⟨nodup_nil, rfl⟩
    | some height =>
      rw [(pruneManualLoop_spec nodup_range st fun _ _ => rfl).1,
        (pruneManualLoop_spec nodup_range st fun _ _ => rfl).2]
      exact ⟨nodup_range.filter _, rfl⟩

private theorem data_selectFiles (st : PruneState C) (request : PruneRequest)
    (known : b ∈ st.node.chain.tree.blocks) :
    ((st.selectFiles request).2.node.chain.data b).haveData ↔
      (st.node.chain.data b).haveData ∧
        ¬ st.Picked request (st.node.chain.data b).nFile := by
  rw [(selectFiles_spec st request).2, (data_pruneFiles _ st b known).1, mem_selectFiles]

/-- `CBlockFileInfo::AddBlock` keeps the height of a file's last block. -/
def Tracked (st : PruneState C) : Prop :=
  ∀ nFile b, st.Stored nFile b → st.node.chain.tree.height b ≤ (st.info nFile).nHeightLast.toNat

theorem toNat_lastBlockWeCanPrune (int : height < 2 ^ 31) (long : MIN_BLOCKS_TO_KEEP ≤ height) :
    (lastBlockWeCanPrune height.toUInt32).toNat = height - MIN_BLOCKS_TO_KEEP := by
  unfold MIN_BLOCKS_TO_KEEP at *
  simp [lastBlockWeCanPrune, MIN_BLOCKS_TO_KEEP, UInt32.toNat_sub]
  omega

theorem PruneRequest.bound_le (request : PruneRequest) (height : ℕ) :
    (request.bound height).toNat ≤ (lastBlockWeCanPrune height.toUInt32).toNat := by
  cases request with
  | automatic _ _ => exact le_rfl
  | manual limit =>
    have le : min limit.toUInt32 (lastBlockWeCanPrune height.toUInt32) ≤
        lastBlockWeCanPrune height.toUInt32 := by
      rw [UInt32.min_def]
      split
      · assumption
      · exact UInt32.le_refl _
    exact UInt32.le_iff_toNat_le.1 le

theorem linear_edge (edge : (if 0 < b.toNat ∧ b.toNat ≤ n then some (b - 1) else none) = some p) :
    p.toNat + 1 = b.toNat ∧ b.toNat ≤ n := by
  obtain ⟨inside, same⟩ := Option.ite_none_right_eq_some.1 edge
  obtain rfl := Option.some.inj same
  have pred : (b - 1).toNat = b.toNat - 1 := BitVec.toNat_sub_of_le (BitVec.le_def.2 inside.1)
  omega

theorem mem_linear (inside : b.toNat ≤ n) : b ∈ (range (n + 1)).map (BitVec.ofNat 256) :=
  List.mem_map.2 ⟨b.toNat, List.mem_range.2 (by omega), by simp⟩

/-- The chain of the blocks 0 to `n`, each block's hash its height. -/
def linearTree (n : ℕ) (small : n < 2 ^ 256) : HeaderTree where
  parent b := if 0 < b.toNat ∧ b.toNat ≤ n then some (b - 1) else none
  height b := if b.toNat ≤ n then b.toNat else 0
  height_parent edge := by
    obtain ⟨pred, inside⟩ := linear_edge edge
    rw [if_pos inside, if_pos (by omega)]
    exact pred.symm
  height_root {b} root := by
    have outside : ¬ (0 < b.toNat ∧ b.toNat ≤ n) := by simpa using root
    split <;> omega
  blocks := (range (n + 1)).map (BitVec.ofNat 256)
  nodup := by
    refine nodup_range.map_on fun i below j below' same => ?_
    rw [List.mem_range] at below below'
    have value := congrArg BitVec.toNat same
    rwa [BitVec.toNat_ofNat, BitVec.toNat_ofNat, mod_eq_of_lt (by omega),
      mod_eq_of_lt (by omega)] at value
  nChainWork b := b.toNat
  parent_mem edge := by
    obtain ⟨pred, inside⟩ := linear_edge edge
    exact ⟨mem_linear inside, mem_linear (by omega)⟩
  work_parent edge := by
    obtain ⟨pred, -⟩ := linear_edge edge
    omega

theorem mem_linearTree (small : n < 2 ^ 256) (inside : b.toNat ≤ n) :
    b ∈ (linearTree n small).blocks := mem_linear inside

theorem le_linearTree (small : n < 2 ^ 256) (le : a.toNat ≤ b.toNat)
    (inside : b.toNat ≤ n) : (linearTree n small).Le a b := by
  induction b using (linearTree n small).parent_induction with
  | step b ih =>
    rw [ParentTree.le_iff_parent]
    by_cases same : a = b
    · exact .inl same
    have ne : a.toNat ≠ b.toNat := fun value => same (BitVec.eq_of_toNat_eq value)
    have edge : (linearTree n small).parent b = some (b - 1) := if_pos ⟨by omega, inside⟩
    obtain ⟨_, -⟩ := linear_edge edge
    exact .inr ⟨b - 1, edge, ih (b - 1) edge (by omega) (by omega)⟩

/-- A chain of the blocks 0 to `n`, the first `last` of them in block file 0 and the rest in
file 1. -/
def twoFiles (n last : ℕ) (small : n < 2 ^ 256) (dirs : BlockDirs) : PruneState Unit :=
  let genesis := NodeState.genesis .permissive () hashOrder
  { node := { genesis with
      chain := { genesis.chain with
        tree := linearTree n small
        data := fun b => { genesisData with nFile := if b.toNat ≤ last then 0 else 1 }
        chainActive := some (BitVec.ofNat 256 n)
        files := { genesis.chain.files with nLastBlockFile := 1 } } }
    pos := fun b => ⟨(1000 * b.toNat).toUInt32, (100 * b.toNat).toUInt32⟩
    vinfoBlockFile := [⟨0x7000000, 0x100000, last.toUInt32⟩, ⟨0x7000000, 0x100000, n.toUInt32⟩]
    setDirtyFileInfo := []
    fileInfoDb := fun _ => .null
    dirs := dirs }

theorem stored_twoFiles (small : n < 2 ^ 256) (dirs : BlockDirs)
    (inside : b.toNat ≤ n) (first : b.toNat ≤ last) : (twoFiles n last small dirs).Stored 0 b :=
  ⟨mem_linearTree small inside, rfl, if_pos first⟩

theorem tracked_twoFiles (small : n < 2 ^ 32) (below : last < 2 ^ 32)
    (small' : n < 2 ^ 256) (dirs : BlockDirs) : (twoFiles n last small' dirs).Tracked := by
  rintro nFile b ⟨_, -, rfl⟩
  change (if b.toNat ≤ n then b.toNat else 0) ≤ _
  split
  case isFalse => exact Nat.zero_le _
  case isTrue inside =>
    by_cases first : b.toNat ≤ last
    · have file : ((twoFiles n last small' dirs).node.chain.data b).nFile = 0 := if_pos first
      have info : (twoFiles n last small' dirs).info 0 = ⟨0x7000000, 0x100000, last.toUInt32⟩ := rfl
      rw [file, info]
      simp only [toUInt32_eq, UInt32.toNat_ofNat', mod_eq_of_lt below]
      exact first
    have file : ((twoFiles n last small' dirs).node.chain.data b).nFile = 1 := if_neg first
    have info : (twoFiles n last small' dirs).info 1 = ⟨0x7000000, 0x100000, n.toUInt32⟩ := rfl
    rw [file, info]
    simp only [toUInt32_eq, UInt32.toNat_ofNat', mod_eq_of_lt small]
    exact inside

/-- No picked file has a block less than `MIN_BLOCKS_TO_KEEP` below the tip, exactly if the chain is
that long or no picked file has a block: on a shorter chain the bound wraps around. -/
theorem selectFiles_keeps_recent_iff (st : PruneState C) (request : PruneRequest) (height : ℕ)
    (tip : st.chainHeight = some height) (int : height < 2 ^ 31) (tracked : st.Tracked) :
    (∀ nFile ∈ (st.selectFiles request).1, ∀ b, st.Stored nFile b →
        (st.node.chain.tree.height b : ℤ) ≤ height - MIN_BLOCKS_TO_KEEP) ↔
      MIN_BLOCKS_TO_KEEP ≤ height ∨
        ∀ nFile, st.Picked request nFile → ∀ b, ¬ st.Stored nFile b := by
  simp only [mem_selectFiles]
  constructor
  · intro keeps
    by_cases long : MIN_BLOCKS_TO_KEEP ≤ height
    · exact .inl long
    refine .inr fun nFile picked b stored => ?_
    have low := keeps nFile picked b stored
    omega
  rintro (long | none) nFile picked b stored
  · obtain ⟨_, tip', -, fits, -⟩ := picked
    obtain rfl := Option.mem_unique tip tip'
    have last := tracked nFile b stored
    have bound : (st.info nFile).nHeightLast.toNat ≤ (request.bound height).toNat := by
      simp only [eligible, Bool.and_eq_true, decide_eq_true_eq] at fits
      exact UInt32.le_iff_toNat_le.1 fits.2
    have below := request.bound_le height
    rw [toNat_lastBlockWeCanPrune int long] at below
    omega
  · exact (none nFile picked b stored).elim

theorem selectFiles_keeps_recent_twoFiles :
    ∃ st : PruneState Unit, (st.selectFiles (.manual 500)).1 = [0] ∧
      ∀ nFile ∈ (st.selectFiles (.manual 500)).1, ∀ b, st.Stored nFile b →
        (st.node.chain.tree.height b : ℤ) ≤ (2000 : ℕ) - MIN_BLOCKS_TO_KEEP :=
  ⟨twoFiles 2000 500 (by decide) (oneFile none), by decide,
    (selectFiles_keeps_recent_iff _ (.manual 500) 2000 (by decide) (by decide)
      (tracked_twoFiles (by decide) (by decide) _ _)).2 (.inl (by decide))⟩

/-- On a chain of 1200 blocks the RPC lets a user prune to height 1100, and block 1100 goes. -/
theorem selectFiles_prunes_recent :
    ∃ st : PruneState Unit, st.chainHeight = some 1200 ∧ st.Tracked ∧
      st.pruneblockchain 1000 (fun _ => none) 1100 = .ok 1100 ∧
      0 ∈ (st.selectFiles (.manual 1100)).1 ∧ st.Stored 0 1100 ∧
      ¬ (st.node.chain.tree.height 1100 : ℤ) ≤ (1200 : ℕ) - MIN_BLOCKS_TO_KEEP := by
  exact ⟨twoFiles 1200 1100 (by decide) (oneFile none), by decide,
    tracked_twoFiles (by decide) (by decide) _ _, by decide, by decide,
    stored_twoFiles _ _ (by decide) (by decide), by decide⟩

def Needed (st : PruneState C) (b : UInt256) : Prop :=
  st.node.chain.tree.Le b st.node.snapshotBaseHash ∧ st.node.bgHeight < st.node.chain.tree.height b

/-- While background validation is under way, the manual request is refused, and an automatic
one leaves every block that it needs exactly if none of them lies in a file picked for the target:
`FindFilesToPrune` knows of the active chain only. -/
theorem prune_keeps_history_iff (st : PruneState C) (nPruneTarget nPruneAfterHeight : UInt64)
    (active : st.node.chain.snapshotActive = true)
    (base : st.node.snapshotBaseHash ∈ st.node.chain.tree.blocks)
    (going : st.node.bgStatus = .running ∨ st.node.bgStatus = .waitingBlocks)
    (validated : st.node.assumeutxoValidated = true → st.node.bgStatus = .completed) :
    ((∀ b, st.Needed b → (st.node.chain.data b).haveData = true →
        ((st.findFilesToPrune nPruneTarget nPruneAfterHeight).2.node.chain.data b).haveData =
          true) ↔
      ∀ b, st.Needed b → (st.node.chain.data b).haveData = true →
        ¬ st.Picked (.automatic nPruneTarget nPruneAfterHeight) (st.node.chain.data b).nFile) ∧
      ∀ findEarliestAtLeast heightParam,
        st.pruneblockchain nPruneAfterHeight findEarliestAtLeast heightParam =
          .error "Cannot prune while AssumeUTXO background validation is in progress" := by
  constructor
  · refine forall₃_congr fun b needed has => ?_
    have known := HeaderTree.mem_of_le needed.1 base
    exact (data_selectFiles st (.automatic nPruneTarget nPruneAfterHeight) known).trans
      (and_iff_right has)
  intro findEarliestAtLeast heightParam
  have open' : st.node.assumeutxoValidated = false := by
    rw [← Bool.not_eq_true]
    intro on
    rcases going with going | going <;> cases going.symm.trans (validated on)
  simp [pruneblockchain, active, open']

/-- A snapshot at height 4000 is active. Blocks 1 to 2412 of a megabyte each have been fetched, 134
to a file, and the first is yet to be connected. -/
def fetchingHistory : PruneState Unit :=
  let files := twoFiles 4000 0 (by decide) (oneFile none)
  { files with
    node := { files.node with
      chain := { files.node.chain with
        data := fun b => { genesisData with
          haveData := b.toNat ≤ 2412
          nFile := (b.toNat - 1) / 134 }
        snapshotActive := true
        files := { files.node.chain.files with nLastBlockFile := 17 } }
      background := .parked (some 0)
      bgStatus := .waitingBlocks
      bgHeight := 0
      bgTargetHeight := 4000
      snapshotBaseHash := 4000 }
    vinfoBlockFile := (range 18).map fun f => ⟨134001072, 0, (134 * f + 134).toUInt32⟩ }

theorem prune_keeps_history_below_target : fetchingHistory.node.bgStatus = .waitingBlocks ∧
      ∀ b, fetchingHistory.Needed b → (fetchingHistory.node.chain.data b).haveData = true →
        ((fetchingHistory.findFilesToPrune 0x100000000 1000).2.node.chain.data b).haveData =
          true := by
  refine ⟨rfl, (prune_keeps_history_iff fetchingHistory 0x100000000 1000 rfl
    (mem_linearTree (show 4000 < 2 ^ 256 by decide) (by decide)) (.inr rfl) (by rintro ⟨⟩)).1.2 ?_⟩
  intro b _ _
  rintro ⟨_, -, -, -, -, -, full, -⟩
  exact absurd full (by decide)

/-- With the smallest target a node accepts, block 1 goes although it is needed next. -/
theorem findFilesToPrune_takes_history :
    fetchingHistory.Needed 1 ∧ (fetchingHistory.node.chain.data 1).haveData = true ∧
      ((fetchingHistory.findFilesToPrune (2200 * 1024 * 1024) 1000).2.node.chain.data 1).haveData =
        false := by
  have known : (1 : UInt256) ∈ fetchingHistory.node.chain.tree.blocks :=
    mem_linearTree (show 4000 < 2 ^ 256 by decide) (by decide)
  have picked : fetchingHistory.Picked (.automatic (2200 * 1024 * 1024) 1000)
      (fetchingHistory.node.chain.data 1).nFile := by
    refine ⟨4000, by decide, by decide, by decide, by decide, by decide,
      by decide, fun _ first _ => ?_⟩
    obtain rfl := le_zero.1 first
    decide
  have needed : fetchingHistory.Needed 1 :=
    ⟨le_linearTree (show 4000 < 2 ^ 256 by decide) (by decide) (by decide), by decide⟩
  refine ⟨needed, by decide, ?_⟩
  have kept := data_selectFiles fetchingHistory (.automatic (2200 * 1024 * 1024) 1000) known
  rw [← Bool.not_eq_true]
  exact fun has => (kept.1 has).2 picked

theorem flushed_of_pruned {chain chain' : ChainState C}
    (ran : chain.flushStateToDisk .ifNeeded { io with fCacheFull := true } = .ok chain') :
    io.diskSpace ∧ io.writeBatchSync := by
  simp only [ChainState.flushStateToDisk, or_true, true_or, if_true] at ran
  cases space : io.diskSpace with
  | false => simp [space] at ran
  | true =>
    cases sync : io.writeBatchSync with
    | false => simp [space, sync] at ran
    | true => exact ⟨rfl, rfl⟩

section
variable (ran : st.flushAndPrune hex archive io request = .ok st')
include ran

private theorem flushAndPrune_ok :
    st'.dirs = (st.dirs.unlinkPrunedFiles hex archive (st.selectFiles request).1).2 ∧
      (∀ nFile, st'.info nFile = (st.pruneFiles (st.selectFiles request).1).info nFile) ∧
      st'.node.chain.tree = st.node.chain.tree ∧
      st'.node.chain.data = (st.pruneFiles (st.selectFiles request).1).node.chain.data := by
  unfold flushAndPrune at ran
  have after := (selectFiles_spec st request).2
  generalize st.selectFiles request = selected at ran after
  obtain ⟨set, pruned⟩ := selected
  obtain rfl : pruned = st.pruneFiles set := after
  obtain ⟨tree, dirs⟩ := pruneFiles_frame set st
  cases set with
  | nil =>
    simp only [isEmpty_nil, Bool.not_true, Bool.false_and, Bool.false_eq_true, if_false,
      Bool.or_false] at ran
    split at ran
    case h_1 chain flushed =>
      cases ran
      obtain ⟨_, _, _, _, rfl⟩ := (ChainState.flushState_ok flushed).memory
      exact ⟨rfl, fun _ => rfl, rfl, rfl⟩
    all_goals cases ran
  | cons _ _ =>
    simp only [isEmpty_cons, Bool.not_false, Bool.true_and, Bool.or_true] at ran
    split at ran
    case h_1 chain flushed =>
      cases ran
      obtain ⟨space, sync⟩ := flushed_of_pruned flushed
      simp only [space, sync, Bool.and_self, if_true] at flushed ⊢
      obtain ⟨_, _, _, _, rfl⟩ := (ChainState.flushState_ok flushed).memory
      exact ⟨by rw [dirs], fun _ => rfl, tree, rfl⟩
    all_goals cases ran

private theorem flushAndPrune_clears
    (mem : nFile ∈ (st.selectFiles request).1) :
    (st'.info nFile).nSize = 0 ∧ (∀ b, ¬ st'.Stored nFile b) ∧
      ∀ later, nFile ∉ (st'.selectFiles later).1 := by
  obtain ⟨-, info, tree, data⟩ := flushAndPrune_ok ran
  have empty : (st'.info nFile).nSize = 0 := by
    rw [info, info_pruneFiles, if_pos mem]
    rfl
  refine ⟨empty, ?_, fun later again => ?_⟩
  · rintro b ⟨known, has, file⟩
    rw [tree] at known
    rw [data] at has file
    have away := ((data_pruneFiles _ st b known).1.1 has).2
    rw [((data_pruneFiles _ st b known).2 away).1] at file
    exact away (file ▸ mem)
  · obtain ⟨_, _, _, fits, _⟩ := (mem_selectFiles).1 again
    simp [eligible, empty] at fits

end

/-- The index and the directory agree on a file number: a picked file whose block file was kept is
still in the index, with its blocks where they were, and can be picked again; one that was
removed is not and cannot. -/
structure FilesAgree (request : PruneRequest) (st st' : PruneState C) (nFile : ℕ) : Prop where
  kept : nFile ∈ (st.selectFiles request).1 → (st'.dirs.live ⟨.blk, nFile⟩).isSome →
    (st'.info nFile).nSize ≠ 0 ∧
      (∀ b, st.Stored nFile b → st'.Stored nFile b ∧ st'.pos b = st.pos b) ∧
      ∃ later, nFile ∈ (st'.selectFiles later).1
  removed : (st.dirs.live ⟨.blk, nFile⟩).isSome → st'.dirs.live ⟨.blk, nFile⟩ = none →
    (st'.info nFile).nSize = 0 ∧ (∀ b, ¬ st'.Stored nFile b) ∧
      ∀ later, nFile ∉ (st'.selectFiles later).1

/-- The index agrees with the directory after a flush exactly if the archive takes every picked
file that is there: the index is written before the archive is asked. -/
theorem flushAndPrune_agrees_iff (hex : List UInt8 → String) (archive : ArchiveIo) (io : FlushIo)
    (request : PruneRequest) (st st' : PruneState C)
    (ran : st.flushAndPrune hex archive io request = .ok st') :
    (∀ nFile, FilesAgree request st st' nFile) ↔
      ∀ nFile, st.Picked request nFile → (st.dirs.live ⟨.blk, nFile⟩).isSome →
        BlockDirs.Passes hex archive st.dirs nFile := by
  have dirs := (flushAndPrune_ok ran).1
  have distinct := (selectFiles_spec st request).1
  constructor
  · intro agree nFile picked there
    by_contra failed
    have member := (mem_selectFiles).2 picked
    have kept : (st'.dirs.live ⟨.blk, nFile⟩).isSome := by
      rw [dirs, (live_unlinkPrunedFiles distinct st.dirs member).2 failed]
      exact there
    exact ((agree nFile).kept member kept).1 (flushAndPrune_clears ran member).1
  intro passes nFile
  refine ⟨fun member kept => ?_, fun there gone => ?_⟩
  · exfalso
    have live : (BlockDirs.Passes hex archive st.dirs nFile → _ = _) ∧ _ :=
      live_unlinkPrunedFiles distinct st.dirs member
    rw [dirs] at kept
    by_cases there : (st.dirs.live ⟨.blk, nFile⟩).isSome
    · have passed := passes nFile ((mem_selectFiles).1 member) there
      rw [live.1 passed] at kept
      cases kept
    · rw [live.2 fun passed => there passed.1] at kept
      exact there kept
  have member : nFile ∈ (st.selectFiles request).1 := by
    by_contra away
    have same : BlockDirs.Agree st.dirs st'.dirs ⟨.blk, nFile⟩ :=
      dirs ▸ agree_unlinkPrunedFiles _ st.dirs away
    rw [same.live] at gone
    rw [gone] at there
    cases there
  exact flushAndPrune_clears ran member

theorem flushAndPrune_agrees_twoFiles :
    ∃ st', (twoFiles 2000 500 (by decide) (.oneFile none)).flushAndPrune shortHex {} {}
        (.manual 500) = .ok st' ∧
      ∀ nFile,
        FilesAgree (.manual 500) (twoFiles 2000 500 (by decide) (.oneFile none)) st' nFile := by
  refine ⟨_, rfl, (flushAndPrune_agrees_iff shortHex {} {} (.manual 500) _ _ rfl).2
    fun nFile _ there => ⟨there, fun _ => ?_⟩⟩
  exact .inr ⟨rfl, .inr ⟨rfl, rfl⟩⟩

/-- The copy fails: the block file stays, but the index has forgotten it, and no later request
picks it. -/
theorem flushAndPrune_forgets_kept_file :
    ∃ st', (twoFiles 2000 500 (by decide) (.oneFile none)).flushAndPrune shortHex
        { copyFails := fun _ => some none } {} (.manual 500) = .ok st' ∧
      (st'.dirs.live ⟨.blk, 0⟩).isSome ∧ (st'.info 0).nSize = 0 ∧
      (twoFiles 2000 500 (by decide) (.oneFile none)).Stored 0 500 ∧
      (∀ b, ¬ st'.Stored 0 b) ∧ ∀ later, 0 ∉ (st'.selectFiles later).1 := by
  have member : 0 ∈ ((twoFiles 2000 500 (by decide) (.oneFile none)).selectFiles
      (.manual 500)).1 := by
    decide
  obtain ⟨st', ran, kept⟩ : ∃ st', (twoFiles 2000 500 (by decide) (.oneFile none)).flushAndPrune
      shortHex { copyFails := fun _ => some none } {} (.manual 500) = .ok st' ∧
      (st'.dirs.live ⟨.blk, 0⟩).isSome := ⟨_, rfl, by decide⟩
  obtain ⟨empty, none, never⟩ := flushAndPrune_clears ran member
  exact ⟨st', ran, kept, empty, stored_twoFiles _ _ (by decide) (by decide), none, never⟩

end DogecoinCore.PruneState
