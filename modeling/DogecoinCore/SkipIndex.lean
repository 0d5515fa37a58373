import DogecoinCore.BlockIndex

/-! The `pskip` pointers of the block index (`chain.cpp`): `GetAncestor` follows them by a rule that
compares heights only, and `BuildSkip` sets them by `GetAncestor`. -/
namespace DogecoinCore
def invertLowestOne (n : ℕ) : ℕ := n &&& (n - 1)

def getSkipHeight (height : ℕ) : ℕ :=
  if height < 2 then 0
  else if height &&& 1 ≠ 0 then invertLowestOne (invertLowestOne (height - 1)) + 1
  else invertLowestOne height

theorem getSkipHeight_lt (positive : 0 < n) : getSkipHeight n < n := by
  have fewer : ∀ n, invertLowestOne n ≤ n - 1 := fun n => Nat.and_le_right
  unfold getSkipHeight
  split
  · exact positive
  split
  · have inner := fewer (n - 1)
    have outer := fewer (invertLowestOne (n - 1))
    omega
  · have once := fewer n
    omega

/-- The block index with its `pskip` pointers. -/
structure SkipIndex where
  tree : HeaderTree
  pskip : UInt256 → Option UInt256

namespace SkipIndex
open List Option ParentTree HeaderTree
variable (t : SkipIndex)

/-- One turn of `GetAncestor`: to `pskip` if the heights are in favour of it, else to `pprev`.
`none` is the assertion that there is a `pprev`. -/
def walkTurn (height : ℕ) (pindexWalk : UInt256) (heightWalk : ℕ) : Option (UInt256 × ℕ) :=
  let heightSkip := getSkipHeight heightWalk
  let heightSkipPrev := getSkipHeight (heightWalk - 1)
  match (t.pskip pindexWalk).filter fun _ => heightSkip = height ∨ (heightSkip > height ∧
      ¬ (heightSkipPrev + 2 < heightSkip ∧ heightSkipPrev ≥ height)) with
  | some pskip => some (pskip, heightSkip)
  | none => (t.tree.parent pindexWalk).map (·, heightWalk - 1)

/-- The loop of `GetAncestor`; `none` is a failed assertion, or that the turns ran out. -/
def walkDown (height : ℕ) : (turns : ℕ) → UInt256 → (heightWalk : ℕ) → Option UInt256
  | 0, pindexWalk, heightWalk => if heightWalk > height then none else some pindexWalk
  | turns + 1, pindexWalk, heightWalk =>
    if heightWalk > height then
      (t.walkTurn height pindexWalk heightWalk).bind fun next => walkDown height turns next.1 next.2
    else some pindexWalk

def getAncestor (b : UInt256) (height : ℤ) : Option (Option UInt256) :=
  if height > t.tree.height b ∨ height < 0 then some none
  else (t.walkDown height.toNat (t.tree.height b) b (t.tree.height b)).map some

/-- `AddToBlockIndex`, with `BuildSkip` for a block that has a `pprev`. -/
def addToBlockIndex (block : CBlockHeader) : Option SkipIndex :=
  if known : block.hash ∈ t.tree.blocks then some t
  else do
    let pskip ← (t.tree.newParent block).elim (some none) fun pprev =>
      t.getAncestor pprev (getSkipHeight (t.tree.height pprev + 1))
    some ⟨t.tree.insert block known, Function.update t.pskip block.hash pskip⟩

def empty : SkipIndex := ⟨.empty, fun _ => none⟩

/-- A `pskip` is the ancestor at the height `GetAncestor` takes it to have. -/
def Sound : Prop := ∀ b s, t.pskip b = some s →
  b ∈ t.tree.blocks ∧ t.tree.Le s b ∧ t.tree.height s = getSkipHeight (t.tree.height b)

variable {t}

section
variable (sound : t.Sound)
include sound

theorem walkTurn_spec (above : h < t.tree.height b) :
    ∃ c, t.walkTurn h b (t.tree.height b) = some (c, t.tree.height c) ∧ t.tree.Le c b ∧
      h ≤ t.tree.height c ∧ t.tree.height c < t.tree.height b := by
  unfold walkTurn
  dsimp only
  split
  case h_1 s skips =>
    obtain ⟨pskip, rule⟩ := filter_eq_some_iff.1 skips
    obtain ⟨-, le, height⟩ := sound b s pskip
    have lower := getSkipHeight_lt (Nat.zero_lt_of_lt above)
    rw [decide_eq_true_eq] at rule
    refine ⟨s, by rw [height], le, ?_, height ▸ lower⟩
    rw [height]
    rcases rule with at' | ⟨over', -⟩
    · exact at'.ge
    · exact le_of_lt over'
  case h_2 =>
    cases edge : t.tree.parent b with
    | none =>
      have root := t.tree.height_root edge
      omega
    | some p =>
      have height := t.tree.height_parent edge
      exact ⟨p, by simp [height], le_of_parent edge, by omega, by omega⟩

private theorem walkDown_eq (low : h ≤ t.tree.height b) (enough : t.tree.height b ≤ turns) :
    t.walkDown h turns b (t.tree.height b) = t.tree.ancestorAt b h := by
  have here (b) : t.tree.ancestorAt b (t.tree.height b) = some b :=
    ancestorAt_eq_some.2 ⟨.refl b, rfl⟩
  induction turns generalizing b with
  | zero =>
    obtain rfl : h = t.tree.height b := by omega
    simp [walkDown, here]
  | succ turns ih =>
    rw [walkDown]
    split
    case isTrue above =>
      obtain ⟨_, turn, le, high, _⟩ := walkTurn_spec sound above
      obtain ⟨_, found⟩ := ancestorAt_exists high
      obtain ⟨below, height⟩ := ancestorAt_eq_some.1 found
      rw [turn, bind_some, ih high (by omega), found,
        ancestorAt_eq_some.2 ⟨below.trans le, height⟩]
    case isFalse at' =>
      obtain rfl : h = t.tree.height b := by omega
      exact (here b).symm

private theorem getAncestor_eq (b : UInt256) (h : ℤ) :
    t.getAncestor b h = some (if h < 0 then none else t.tree.ancestorAt b h.toNat) := by
  unfold getAncestor
  split
  case isTrue outside =>
    split
    · rfl
    · rw [ancestorAt, if_neg (by omega)]
  case isFalse inside =>
    rw [walkDown_eq sound (by omega) le_rfl, if_neg (by omega)]
    have within : h.toNat ≤ t.tree.height b := by omega
    obtain ⟨_, found⟩ := ancestorAt_exists within
    rw [found, map_some]

theorem Sound.addToBlockIndex (block : CBlockHeader) :
    ∃ t', t.addToBlockIndex block = some t' ∧ t'.Sound := by
  unfold SkipIndex.addToBlockIndex
  split
  · exact ⟨t, rfl, sound⟩
  rename_i fresh
  set tree' := t.tree.insert block fresh
  have lift (s b) (known : b ∈ t.tree.blocks) (le : t.tree.Le s b) :
      tree'.Le s b ∧ tree'.height s = t.tree.height s := by
    refine ⟨(insert_le_iff fresh known).2 le, insert_height_of_ne fresh ?_⟩
    rintro rfl
    exact fresh (mem_of_le le known)
  obtain ⟨q, found, built⟩ : ∃ q, ((t.tree.newParent block).elim (some none) fun pprev =>
      t.getAncestor pprev (getSkipHeight (t.tree.height pprev + 1))) = some q ∧ ∀ s, q = some s →
        tree'.Le s block.hash ∧ tree'.height s = getSkipHeight (tree'.height block.hash) := by
    cases edge : t.tree.newParent block with
    | none => exact ⟨none, rfl, by simp⟩
    | some p =>
      have known := newParent_mem t.tree block edge
      have edge' := (insert_parent_self fresh).trans edge
      refine ⟨_, getAncestor_eq sound .., fun s skips => ?_⟩
      rw [if_neg (by omega), Int.toNat_natCast, ancestorAt_eq_some] at skips
      obtain ⟨le, height⟩ := lift s p known skips.1
      refine ⟨le.trans (le_of_parent edge'), ?_⟩
      rw [height, skips.2, tree'.height_parent edge', (lift p p known (.refl p)).2]
  refine ⟨⟨tree', Function.update t.pskip block.hash q⟩, by rw [found]; rfl, fun b s pskip => ?_⟩
  by_cases same : b = block.hash
  · subst same
    exact ⟨mem_cons_self, built s (by simpa using pskip)⟩
  obtain ⟨known, le, height⟩ := sound b s (by simpa [same] using pskip)
  obtain ⟨le', height'⟩ := lift s b known le
  refine ⟨mem_cons_of_mem _ known, le', ?_⟩
  rw [height', height, ← (lift b b known (.refl b)).2]

end

theorem built_sound {blocks : List CBlockHeader} :
    ∃ t, blocks.foldlM addToBlockIndex empty = some t ∧ t.Sound := by
  have run : ∀ t : SkipIndex, t.Sound →
      ∃ t', blocks.foldlM addToBlockIndex t = some t' ∧ t'.Sound := by
    induction blocks with
    | nil => exact fun t sound => ⟨t, rfl, sound⟩
    | cons block _ ih =>
      intro t sound
      obtain ⟨mid, added, sound'⟩ := sound.addToBlockIndex block
      obtain ⟨t', ran, sound''⟩ := ih mid sound'
      exact ⟨t', by rw [foldlM_cons, added]; exact ran, sound''⟩
  exact run empty fun _ _ pskip => by cases pskip

/-- In every index that `AddToBlockIndex` builds, `GetAncestor` ends and is the walk along `pprev`
down to the height. -/
theorem getAncestor_follows_pprev (blocks : List CBlockHeader) :
    ∃ t, blocks.foldlM addToBlockIndex empty = some t ∧ ∀ b ∈ t.tree.blocks, ∀ h : ℤ,
      t.getAncestor b h = some (if h < 0 then none else t.tree.ancestorAt b h.toNat) := by
  obtain ⟨t, ran, sound⟩ := built_sound
  exact ⟨t, ran, fun b _ h => getAncestor_eq sound b h⟩

section Chain
/-! A chain is given by its tip: `SetTip` fills `vChain` along `pprev`. -/

variable (t) (tip : Option UInt256)

/-- `CChain::operator[]`. -/
def chainAt (nHeight : ℕ) : Option UInt256 := tip.bind (t.tree.ancestorAt · nHeight)

def contains (b : UInt256) : Bool := t.chainAt tip (t.tree.height b) = some b

def chainHeight : ℤ := tip.elim (-1) fun b => t.tree.height b

/-- The loop of `GetLocator`; `none` is a failed assertion, or that the turns ran out. -/
def locatorLoop : (turns : ℕ) → (pindex : Option UInt256) → (nStep : ℕ) → (vHave : List UInt256) →
    Option (List UInt256)
  | _, none, _, vHave => some vHave
  | 0, some _, _, _ => none
  | turns + 1, some b, nStep, vHave =>
    let vHave := vHave ++ [b]
    if t.tree.height b = 0 then some vHave
    else
      let nHeight := t.tree.height b - nStep
      (if t.contains tip b then some (t.chainAt tip nHeight) else t.getAncestor b nHeight).bind
        fun pindex =>
          locatorLoop turns pindex (if vHave.length > 10 then nStep * 2 else nStep) vHave

def getLocator (pindex : Option UInt256) : Option (List UInt256) :=
  let pindex := pindex.or tip
  t.locatorLoop tip (pindex.elim 0 t.tree.height + 1) pindex 1 []

/-- A block, or its ancestor at `height` if it is higher. -/
def lower (b : UInt256) (height : ℤ) : Option (Option UInt256) :=
  if t.tree.height b > height then t.getAncestor b height else some (some b)

/-- `CChain::FindFork`, for a block. -/
def findFork (b : UInt256) : Option (Option UInt256) :=
  (t.lower b (t.chainHeight tip)).map fun pindex =>
    pindex.bind fun b => t.tree.nearest (t.contains tip) (t.tree.height b) b

/-- `r` is the highest block with `P`: the blocks with `P` are its chain. -/
def Highest (P : UInt256 → Prop) (r : Option UInt256) : Prop :=
  ∀ x, P x ↔ ∃ c, r = some c ∧ t.tree.Le x c

/-- The loop of `LastCommonAncestor`; `none` is its assertion, or that the turns ran out. -/
def meet : (turns : ℕ) → (pa pb : Option UInt256) → Option (Option UInt256)
  | turns + 1, some a, some b =>
    if a = b then some (some a) else meet turns (t.tree.parent a) (t.tree.parent b)
  | _, pa, pb => if pa = pb then some pa else none

def lastCommonAncestor (a b : UInt256) : Option (Option UInt256) := do
  let pa ← t.lower a (t.tree.height b)
  let pb ← t.lower b (t.tree.height a)
  t.meet (t.tree.height a + 1) pa pb

end Chain

variable {tip : Option UInt256}

theorem contains_iff : t.contains tip b ↔ ∃ top, tip = some top ∧ t.tree.Le b top := by
  cases tip with
  | none => simp [contains, chainAt]
  | some top => exact decide_eq_true_iff.trans (by simp [chainAt, Le])

section
variable (sound : t.Sound)
include sound

theorem locatorLoop_spec (enough : t.tree.height b < turns) (step : 0 < nStep)
    (vHave : List UInt256) :
    ∃ l, t.locatorLoop tip turns (some b) nStep vHave = some (vHave ++ l) ∧ l.head? = some b ∧
      (∃ g, l.getLast? = some g ∧ t.tree.parent g = none) ∧ (∀ x ∈ l, t.tree.Le x b) ∧
      l.Pairwise fun x y => t.tree.height y < t.tree.height x := by
  induction turns generalizing b nStep vHave with
  | zero => omega
  | succ turns ih =>
    simp only [locatorLoop]
    split
    case isTrue bottom =>
      refine ⟨[b], rfl, rfl, ⟨b, rfl, ?_⟩, by simp [Le.refl], by simp⟩
      cases edge : t.tree.parent b with
      | none => rfl
      | some _ => simp [t.tree.height_parent edge] at bottom
    case isFalse above =>
      obtain ⟨c, found⟩ := ancestorAt_exists (Nat.sub_le (t.tree.height b) nStep)
      obtain ⟨le, height⟩ := ancestorAt_eq_some.1 found
      have next : (if t.contains tip b then some (t.chainAt tip (t.tree.height b - nStep))
          else t.getAncestor b ↑(t.tree.height b - nStep)) = some (some c) := by
        split
        case isTrue on =>
          obtain ⟨_, rfl, under⟩ := contains_iff.1 on
          exact congrArg some (ancestorAt_eq_some.2 ⟨le.trans under, height⟩)
        case isFalse => rw [getAncestor_eq sound, if_neg (by omega), Int.toNat_natCast, found]
      have step' : 0 < if (vHave ++ [b]).length > 10 then nStep * 2 else nStep := by split <;> omega
      obtain ⟨l, ran, head, ⟨g, last, root⟩, below, sorted⟩ :=
        ih (b := c) (by omega) step' (vHave ++ [b])
      refine ⟨b :: l, ?_, rfl, ⟨g, ?_, root⟩, ?_, pairwise_cons.2 ⟨fun x mem => ?_, sorted⟩⟩
      · rw [next]
        simpa using ran
      · rw [getLast?_cons, last]
        rfl
      · exact forall_mem_cons.2 ⟨.refl b, fun x mem => (below x mem).trans le⟩
      · have := (below x mem).height_le
        omega

theorem lower_spec (b : UInt256) (h : ℕ) :
    ∃ c, t.lower b h = some (some c) ∧ t.tree.height c = min (t.tree.height b) h ∧
      ∀ x, t.tree.height x ≤ h → (t.tree.Le x b ↔ t.tree.Le x c) := by
  unfold lower
  split
  case isTrue higher =>
    obtain ⟨c, found⟩ := ancestorAt_exists (t := t.tree.toParentTree) (b := b) (h := h) (by omega)
    obtain ⟨le, height⟩ := ancestorAt_eq_some.1 found
    refine ⟨c, ?_, by omega, fun x _ => ⟨fun under => ?_, fun under => under.trans le⟩⟩
    · rw [getAncestor_eq sound, if_neg (by omega), Int.toNat_natCast, found]
    · exact under.le_of_height le (by omega)
  case isFalse => exact ⟨b, rfl, by omega, fun x _ => .rfl⟩

theorem findFork_highest (b : UInt256) : ∃ r, t.findFork tip b = some r ∧
    t.Highest (fun x => t.contains tip x ∧ t.tree.Le x b) r := by
  cases tip with
  | none =>
    refine ⟨none, ?_, fun x => by simp [contains, chainAt]⟩
    rfl
  | some top =>
    obtain ⟨c, low, -, same⟩ := lower_spec sound b (t.tree.height top)
    have run : t.findFork (some top) b =
        some (t.tree.nearest (t.contains (some top)) (t.tree.height c) c) := by
      rw [findFork, chainHeight, elim_some, low]
      rfl
    refine ⟨_, run, fun x => ?_⟩
    have under : t.contains (some top) x ∧ t.tree.Le x b ↔
        t.contains (some top) x ∧ t.tree.Le x c := by
      refine and_congr_right fun on => same x ?_
      obtain ⟨_, ⟨⟩, le⟩ := contains_iff.1 on
      exact le.height_le
    refine under.trans ?_
    cases found : t.tree.nearest (t.contains (some top)) (t.tree.height c) c with
    | none =>
      have off (le : t.tree.Le x c) := nearest_eq_none le_rfl found le
      simpa [and_comm] using off
    | some f =>
      obtain ⟨le, on, -⟩ := nearest_eq_some found
      refine ⟨fun ⟨onX, leX⟩ => ⟨f, rfl, le_of_nearest found leX onX⟩, ?_⟩
      rintro ⟨_, ⟨⟩, below⟩
      obtain ⟨_, ⟨⟩, leTop⟩ := contains_iff.1 on
      exact ⟨contains_iff.2 ⟨top, rfl, below.trans leTop⟩, below.trans le⟩

omit sound in
theorem meet_highest (level : t.tree.height a = t.tree.height b)
    (enough : t.tree.height a < turns) :
    ∃ r, t.meet turns (some a) (some b) = some r ∧
      t.Highest (fun x => t.tree.Le x a ∧ t.tree.Le x b) r := by
  induction turns generalizing a b with
  | zero => omega
  | succ turns ih =>
    rw [meet]
    split
    case isTrue same => exact ⟨some a, rfl, fun x => by simp [same]⟩
    case isFalse apart =>
      rcases parents_of_level level apart with
        ⟨rootA, rootB, no⟩ | ⟨p, q, edgeA, edgeB, level', same⟩
      · rw [rootA, rootB]
        exact ⟨none, by simp [meet], fun x => by simp [no x]⟩
      have step := t.tree.height_parent edgeA
      rw [edgeA, edgeB]
      obtain ⟨r, met, highest⟩ := ih level' (by omega)
      exact ⟨r, met, fun x => (same x).trans (highest x)⟩

theorem commonAncestor_highest (a b : UInt256) : ∃ r, t.lastCommonAncestor a b = some r ∧
    t.Highest (fun x => t.tree.Le x a ∧ t.tree.Le x b) r := by
  obtain ⟨c, lowA, _, sameA⟩ := lower_spec sound a (t.tree.height b)
  obtain ⟨d, lowB, _, sameB⟩ := lower_spec sound b (t.tree.height a)
  have level : t.tree.height c = t.tree.height d := by omega
  have enough : t.tree.height c < t.tree.height a + 1 := by omega
  obtain ⟨r, met, highest⟩ := meet_highest level enough
  refine ⟨r, by simp [lastCommonAncestor, lowA, lowB, met], fun x => ?_⟩
  rw [← highest x]
  constructor
  · rintro ⟨leA, leB⟩
    exact ⟨(sameA x leB.height_le).1 leA, (sameB x leA.height_le).1 leB⟩
  rintro ⟨leC, leD⟩
  have := leD.height_le
  exact ⟨(sameA x (by omega)).2 leC, (sameB x (by omega)).2 leD⟩

end

/-- For every chain and every block of the index, the locator goes from the block down to a block
without parent, and the searches find the highest common block. -/
theorem locator_and_fork (blocks : List CBlockHeader) :
    ∃ t, blocks.foldlM addToBlockIndex empty = some t ∧ ∀ b ∈ t.tree.blocks,
      (∀ tip, ∃ vHave, t.getLocator tip (some b) = some vHave ∧ vHave.head? = some b ∧
        (∃ g, vHave.getLast? = some g ∧ t.tree.parent g = none) ∧ (∀ x ∈ vHave, t.tree.Le x b) ∧
        vHave.Pairwise fun x y => t.tree.height y < t.tree.height x) ∧
      (∀ tip, ∃ r, t.findFork tip b = some r ∧
        t.Highest (fun x => t.contains tip x ∧ t.tree.Le x b) r) ∧
      ∀ a ∈ t.tree.blocks, ∃ r, t.lastCommonAncestor a b = some r ∧
        t.Highest (fun x => t.tree.Le x a ∧ t.tree.Le x b) r := by
  obtain ⟨t, ran, sound⟩ := built_sound
  refine ⟨t, ran, fun b _ => ⟨fun tip => ?_, fun tip => findFork_highest sound b, fun a _ =>
    commonAncestor_highest sound a b⟩⟩
  exact locatorLoop_spec sound (Nat.lt_succ_self _) Nat.one_pos []

end SkipIndex
end DogecoinCore
