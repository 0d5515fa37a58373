import DogecoinCore.CoinsRecord
import DogecoinCore.ConnectBlock
import DogecoinCore.Merkle

/-! Merkle proofs: `CPartialMerkleTree` as it arrives from another party, `ExtractMatches`, and the
call `verifytxoutproof`. The tree is walked in the order of its bits; the claimed number of
transactions decides how high it is. -/
namespace DogecoinCore
open List Nat HashTree Merkle Coins Option

structure CPartialMerkleTree where
  nTransactions : UInt32
  vBits : List Bool
  vHash : List UInt256
  fBad : Bool

namespace CPartialMerkleTree
/-- What `SerializationOp` makes of the bytes it reads. -/
def received (nTransactions : UInt32) (vHash : List UInt256) (vBytes : List UInt8) :
    CPartialMerkleTree where
  nTransactions := nTransactions
  vBits := vBytes.flatMap availBits
  vHash := vHash
  fBad := false

/-- The bytes `SerializationOp` writes for the bits. -/
def vBytes (vBits : List Bool) : List UInt8 :=
  (range ((vBits.length + 7) / 8)).map fun b => chAvail fun i => vBits.getD (8 * b + i) false

def calcTreeWidth (t : CPartialMerkleTree) (height : ℕ) : ℕ := width t.nTransactions.toNat height

/-- The variables of `TraverseAndExtract`. -/
structure Traversal where
  nBitsUsed : ℕ
  nHashUsed : ℕ
  vMatch : List UInt256
  vnIndex : List ℕ
  fBad : Bool

/-- The end of the walk at a node that is not opened: it takes the next hash. -/
def useHash (t : CPartialMerkleTree) (matched : Bool) (pos : ℕ) (s : Traversal) : UInt256 × Traversal :=
  match t.vHash[s.nHashUsed]? with
  | none => (0, { s with fBad := true })
  | some hash =>
    let s := { s with nHashUsed := s.nHashUsed + 1 }
    (hash, if matched then { s with vMatch := s.vMatch ++ [hash], vnIndex := s.vnIndex ++ [pos] } else s)

def traverseAndExtract (hash : PairHash) (t : CPartialMerkleTree) :
    (height pos : ℕ) → Traversal → UInt256 × Traversal
  | height, pos, s =>
    match t.vBits[s.nBitsUsed]? with
    | none => (0, { s with fBad := true })
    | some fParentOfMatch =>
      let s := { s with nBitsUsed := s.nBitsUsed + 1 }
      match height with
      | 0 => t.useHash fParentOfMatch pos s
      | height + 1 =>
        if !fParentOfMatch then t.useHash false pos s
        else
          let (left, s) := traverseAndExtract hash t height (2 * pos) s
          if 2 * pos + 1 < t.calcTreeWidth height then
            let (right, s) := traverseAndExtract hash t height (2 * pos + 1) s
            -- equal branches would let one transaction stand at two places
            (hash left right, if right = left then { s with fBad := true } else s)
          else (hash left left, s)

/-- `while (CalcTreeWidth(nHeight) > 1) nHeight++`. -/
def treeHeight (n : ℕ) : (turns nHeight : ℕ) → ℕ
  | 0, nHeight => nHeight
  | turns + 1, nHeight => if width n nHeight > 1 then treeHeight n turns (nHeight + 1) else nHeight

/-- The root or null, `vMatch`, and `vnIndex`, which is not cleared. -/
def extractMatches (hash : PairHash) (t : CPartialMerkleTree) (vnIndex : List ℕ) :
    UInt256 × List UInt256 × List ℕ :=
  if t.nTransactions = 0 then (0, [], vnIndex)
  else if t.nTransactions.toNat > MAX_BLOCK_BASE_SIZE / 60 then (0, [], vnIndex)
  else if t.vHash.length > t.nTransactions.toNat then (0, [], vnIndex)
  else if t.vBits.length < t.vHash.length then (0, [], vnIndex)
  else
    let (hashMerkleRoot, s) := t.traverseAndExtract hash (treeHeight t.nTransactions.toNat 32 0) 0
      ⟨0, 0, [], vnIndex, t.fBad⟩
    if s.fBad then (0, s.vMatch, s.vnIndex)
    else if (s.nBitsUsed + 7) / 8 ≠ (t.vBits.length + 7) / 8 then (0, s.vMatch, s.vnIndex)
    else if s.nHashUsed ≠ t.vHash.length then (0, s.vMatch, s.vnIndex)
    else (hashMerkleRoot, s.vMatch, s.vnIndex)

/-- `verifytxoutproof`, once the proof is read: the txids it returns. `inChain` says whether the block
of the header is in the active chain. -/
def verifyTxOutProof (hash : PairHash) (hashMerkleRoot : UInt256) (inChain : Bool)
    (txn : CPartialMerkleTree) : Except String (List UInt256) :=
  let (root, vMatch, _) := txn.extractMatches hash []
  if root ≠ hashMerkleRoot then .ok []
  else if !inChain then .error "Block not found in chain"
  else .ok vMatch

def traversePairs (hash : PairHash) (t : CPartialMerkleTree) :
    (height pos : ℕ) → Traversal → List (UInt256 × UInt256)
  | 0, _, _ => []
  | height + 1, pos, s =>
    if t.vBits[s.nBitsUsed]? = some true then
      let (left, s₂) := t.traverseAndExtract hash height (2 * pos) { s with nBitsUsed := s.nBitsUsed + 1 }
      let lower := t.traversePairs hash height (2 * pos) { s with nBitsUsed := s.nBitsUsed + 1 }
      if 2 * pos + 1 < t.calcTreeWidth height then
        let (right, _) := t.traverseAndExtract hash height (2 * pos + 1) s₂
        lower ++ t.traversePairs hash height (2 * pos + 1) s₂ ++ [(left, right)]
      else lower ++ [(left, left)]
    else []

/-- The pairs hashed by `ExtractMatches`. -/
def extractPairs (hash : PairHash) (t : CPartialMerkleTree) : List (UInt256 × UInt256) :=
  t.traversePairs hash (treeHeight t.nTransactions.toNat 32 0) 0 ⟨0, 0, [], [], t.fBad⟩

variable {hash : PairHash} {t : CPartialMerkleTree} {height pos n : ℕ} {s s' : Traversal}

theorem treeHeight_eq (turns start : ℕ) (low : start ≤ clog 2 n)
    (enough : clog 2 n ≤ start + turns) : treeHeight n turns start = clog 2 n := by
  induction turns generalizing start with
  | zero => exact le_antisymm low enough
  | succ turns ih =>
    rw [treeHeight]
    by_cases done : width n start > 1
    · rw [if_pos done]
      have below : start < clog 2 n := by
        rw [← not_le, ← width_le_one_iff]
        omega
      exact ih (start + 1) below (by omega)
    · rw [if_neg done]
      exact le_antisymm low (width_le_one_iff.1 (not_lt.1 done))

theorem treeHeight_toNat (n : UInt32) : treeHeight n.toNat 32 0 = clog 2 n.toNat := by
  refine treeHeight_eq 32 0 (zero_le _) ?_
  rw [zero_add, clog_le_iff_le_pow one_lt_two]
  exact n.toNat_lt.le

theorem extract_open (bit : t.vBits[s.nBitsUsed]? = some true) :
    t.traverseAndExtract hash (height + 1) pos s =
      let l := t.traverseAndExtract hash height (2 * pos) { s with nBitsUsed := s.nBitsUsed + 1 }
      if 2 * pos + 1 < t.calcTreeWidth height then
        let r := t.traverseAndExtract hash height (2 * pos + 1) l.2
        (hash l.1 r.1, if r.1 = l.1 then { r.2 with fBad := true } else r.2)
      else (hash l.1 l.1, l.2) := by
  rw [traverseAndExtract, bit]
  rfl

theorem extract_leaf {bit : Bool} (found : t.vBits[s.nBitsUsed]? = some bit) :
    t.traverseAndExtract hash 0 pos s = t.useHash bit pos { s with nBitsUsed := s.nBitsUsed + 1 } := by
  rw [traverseAndExtract, found]

theorem extract_closed (bit : t.vBits[s.nBitsUsed]? = some false) :
    t.traverseAndExtract hash height pos s =
      t.useHash false pos { s with nBitsUsed := s.nBitsUsed + 1 } := by
  cases height with
  | zero => exact extract_leaf bit
  | succ height =>
    rw [traverseAndExtract, bit]
    rfl

theorem extract_overflow (missing : t.vBits[s.nBitsUsed]? = none) :
    t.traverseAndExtract hash height pos s = (0, { s with fBad := true }) := by
  rw [traverseAndExtract, missing]

theorem useHash_bad (bad : s.fBad) : (t.useHash matched pos s).2.fBad := by
  unfold useHash
  split
  · rfl
  · split <;> exact bad

private theorem extract_bad (bad : s.fBad) :
    (t.traverseAndExtract hash height pos s).2.fBad := by
  induction height generalizing pos s with
  | zero =>
    cases found : t.vBits[s.nBitsUsed]? with
    | none => rw [extract_overflow found]
    | some bit =>
      rw [extract_leaf found]
      exact useHash_bad bad
  | succ height ih =>
    cases found : t.vBits[s.nBitsUsed]? with
    | none => rw [extract_overflow found]
    | some bit =>
      cases bit with
      | false =>
        rw [extract_closed found]
        exact useHash_bad bad
      | true =>
        have left := @ih (2 * pos) { s with nBitsUsed := s.nBitsUsed + 1 } bad
        rw [extract_open found]
        split
        · have right := @ih (2 * pos + 1) _ left
          dsimp only
          split
          · rfl
          · exact right
        · exact left

theorem traversePairs_open (bit : t.vBits[s.nBitsUsed]? = some true) :
    t.traversePairs hash (height + 1) pos s =
      let s₁ := { s with nBitsUsed := s.nBitsUsed + 1 }
      let l := t.traverseAndExtract hash height (2 * pos) s₁
      if 2 * pos + 1 < t.calcTreeWidth height then
        t.traversePairs hash height (2 * pos) s₁ ++ t.traversePairs hash height (2 * pos + 1) l.2 ++
          [(l.1, (t.traverseAndExtract hash height (2 * pos + 1) l.2).1)]
      else t.traversePairs hash height (2 * pos) s₁ ++ [(l.1, l.1)] := by
  rw [traversePairs, if_pos bit]

/-! ### What an accepted proof shows -/

/-- What a walk has added to the matches: leaves of the tree, with their positions. -/
def Found (n : ℕ) (leaf : ℕ → UInt256) (s s' : Traversal) : Prop :=
  ∃ new : List ℕ, s'.vMatch = s.vMatch ++ new.map leaf ∧ s'.vnIndex = s.vnIndex ++ new ∧ ∀ i ∈ new, i < n

variable {leaf : ℕ → UInt256}

theorem Found.nothing (s : Traversal) (same : s'.vMatch = s.vMatch)
    (same' : s'.vnIndex = s.vnIndex) : Found n leaf s s' :=
  ⟨[], by rw [same, map_nil, append_nil], by rw [same', append_nil], by simp⟩

theorem Found.trans (first : Found n leaf s s₁) (second : Found n leaf s₁ s') :
    Found n leaf s s' := by
  obtain ⟨new, matches', positions, inside⟩ := first
  obtain ⟨new', matches'', positions', inside'⟩ := second
  refine ⟨new ++ new', ?_, ?_, fun i mem => (mem_append.1 mem).elim (inside i) (inside' i)⟩
  · rw [matches'', matches', map_append, append_assoc]
  · rw [positions', positions, append_assoc]

theorem useHash_cases (fine : (t.useHash matched pos s).2.fBad = false) :
    ∃ h, (t.useHash matched pos s).1 = h ∧
      (t.useHash matched pos s).2.vMatch = s.vMatch ++ (if matched then [h] else []) ∧
      (t.useHash matched pos s).2.vnIndex = s.vnIndex ++ (if matched then [pos] else []) := by
  cases found : t.vHash[s.nHashUsed]? with
  | none =>
    simp only [useHash, found] at fine
    cases fine
  | some h =>
    refine ⟨h, ?_⟩
    cases matched <;> simp [useHash, found]

variable {L txids : List UInt256} {nTransactions : UInt32}

private theorem extract_sound
    (separates : Separates hash P L) (inside : pairs hash n leaf ⊆ P) (leaves : ∀ i < n, leaf i ∈ L)
    (walked : t.traversePairs hash (e + k) pos s ⊆ P) (level : k ≤ clog 2 n)
    (here : pos < width n k)
    (same : (t.traverseAndExtract hash (e + k) pos s).1 = node hash n leaf k pos)
    (fine : (t.traverseAndExtract hash (e + k) pos s).2.fBad = false) :
    Found n leaf s (t.traverseAndExtract hash (e + k) pos s).2 := by
  induction k generalizing pos s with
  | zero =>
    rw [width_zero] at here
    cases found : t.vBits[s.nBitsUsed]? with
    | none =>
      rw [extract_overflow found] at fine
      cases fine
    | some bit =>
      cases e with
      | zero =>
        rw [extract_leaf found] at same fine ⊢
        obtain ⟨h, value, matches', positions⟩ := useHash_cases fine
        cases bit with
        | false => exact .nothing s (by simpa using matches') (by simpa using positions)
        | true =>
          refine ⟨[pos], ?_, positions, by simpa using here⟩
          rw [matches', ← value, same]
          rfl
      | succ e =>
        cases bit with
        | false =>
          rw [extract_closed found] at fine ⊢
          obtain ⟨h, -, matches', positions⟩ := useHash_cases fine
          exact .nothing s (by simpa using matches') (by simpa using positions)
        | true =>
          -- A leaf would be the hash of a pair.
          exfalso
          rw [add_zero] at same walked
          rw [extract_open found] at same
          rw [traversePairs_open found] at walked
          split at same <;> rename_i branch <;> simp only [branch, ↓reduceIte] at walked
          all_goals
            exact separates.apart _ (walked (mem_append_right _ (mem_singleton_self _))) _
              (leaves pos here) same
  | succ k ih =>
    rw [← add_assoc] at same fine walked ⊢
    cases found : t.vBits[s.nBitsUsed]? with
    | none =>
      rw [extract_overflow found] at fine
      cases fine
    | some bit =>
    cases bit with
    | false =>
      rw [extract_closed found] at fine ⊢
      obtain ⟨h, -, matches', positions⟩ := useHash_cases fine
      exact .nothing s (by simpa using matches') (by simpa using positions)
    | true =>
      have left_here := two_mul_lt_width.2 here
      have pair := inside (mem_pairs (lt_of_succ_le level) here)
      rw [extract_open found] at same fine ⊢
      rw [traversePairs_open found] at walked
      dsimp only at same fine walked ⊢
      generalize first : t.traverseAndExtract hash (e + k) (2 * pos)
        { s with nBitsUsed := s.nBitsUsed + 1 } = l at same fine walked ⊢
      split at fine
      next there =>
        rw [if_pos there] at same walked ⊢
        generalize second : t.traverseAndExtract hash (e + k) (2 * pos + 1) l.2 = r
          at same fine walked ⊢
        have hashed := walked (mem_append_right _ (mem_singleton_self _))
        obtain ⟨left, right⟩ := Prod.mk.inj (separates.injective _ hashed _ pair same)
        by_cases equal : r.1 = l.1
        · rw [if_pos equal] at fine
          cases fine
        rw [if_neg equal] at fine ⊢
        have fine_left : l.2.fBad = false := by
          by_contra bad
          have later := @extract_bad hash t (e + k) (2 * pos + 1) l.2
            (Bool.not_eq_false _ ▸ bad)
          rw [second, fine] at later
          cases later
        -- The right branch differs from the left, so the tree has it too.
        have right_here : 2 * pos + 1 < width n k := by
          by_contra missing
          rw [partner_of_not_lt missing, ← left] at right
          exact equal right
        rw [partner_of_lt right_here] at right
        subst first second
        have lower := ih (fun p mem => walked (mem_append_left _ (mem_append_left _ mem)))
          (le_of_succ_le level) left_here left fine_left
        have upper := ih (fun p mem =>
          walked (mem_append_left _ (mem_append_right _ mem)))
          (le_of_succ_le level) right_here right fine
        exact lower.trans upper
      next missing =>
        rw [if_neg missing] at same walked ⊢
        have hashed := walked (mem_append_right _ (mem_singleton_self _))
        obtain ⟨left, -⟩ := Prod.mk.inj (separates.injective _ hashed _ pair same)
        subst first
        exact ih (fun p mem => walked (mem_append_left _ mem)) (le_of_succ_le level)
          left_here left fine

/-! ### Inner nodes for leaves -/

private theorem extract_edge (j : ℕ) {s : Traversal}
    (bits : ∀ i < 2 * j + 1, t.vBits[s.nBitsUsed + i]? = some (decide (i ≤ j)))
    (first : t.vHash[s.nHashUsed]? = some (node hash n leaf d 0))
    (others : ∀ i < j, t.vHash[s.nHashUsed + (i + 1)]? = some (node hash n leaf (d + i) 1))
    (wide : ∀ i < j, 1 < t.calcTreeWidth i) (wide' : ∀ i < j, 1 < width n (d + i))
    (differ : ∀ i < j, node hash n leaf (d + i) 1 ≠ node hash n leaf (d + i) 0) :
    t.traverseAndExtract hash j 0 s = (node hash n leaf (d + j) 0,
        { nBitsUsed := s.nBitsUsed + (2 * j + 1), nHashUsed := s.nHashUsed + (j + 1)
          vMatch := s.vMatch ++ [node hash n leaf d 0], vnIndex := s.vnIndex ++ [0]
          fBad := s.fBad }) ∧
      t.traversePairs hash j 0 s =
        (range j).map fun i => (node hash n leaf (d + i) 0, node hash n leaf (d + i) 1) := by
  induction j generalizing s with
  | zero =>
    have bit := bits 0 one_pos
    rw [add_zero, decide_eq_true (le_refl 0)] at bit
    refine ⟨?_, rfl⟩
    rw [extract_leaf bit]
    simp only [useHash, first, if_true]
    rfl
  | succ j ih =>
    have bit := bits 0 (by omega)
    rw [add_zero, decide_eq_true (zero_le _)] at bit
    obtain ⟨left, lower⟩ := @ih { s with nBitsUsed := s.nBitsUsed + 1 }
      (fun i below => by
        have next := bits (1 + i) (by omega)
        rw [← add_assoc] at next
        rw [next]
        congr 2
        exact propext (by omega))
      first (fun i below => others i (by omega)) (fun i below => wide i (by omega))
      (fun i below => wide' i (by omega)) (fun i below => differ i (by omega))
    have there := wide j (lt_succ_self j)
    have closed : t.vBits[s.nBitsUsed + 1 + (2 * j + 1)]? = some false := by
      have next := bits (2 * j + 2) (by omega)
      rw [decide_eq_false (by omega)] at next
      rw [← next]
      congr 1
      omega
    have parent : node hash n leaf (d + (j + 1)) 0
        = hash (node hash n leaf (d + j) 0) (node hash n leaf (d + j) 1) := by
      rw [← add_assoc, node_succ, mul_zero, partner_of_lt (wide' j (lt_succ_self j))]
    -- The neighbour is not opened.
    have right : t.traverseAndExtract hash j (2 * 0 + 1)
        { nBitsUsed := s.nBitsUsed + 1 + (2 * j + 1), nHashUsed := s.nHashUsed + (j + 1)
          vMatch := s.vMatch ++ [node hash n leaf d 0], vnIndex := s.vnIndex ++ [0], fBad := s.fBad } =
        (node hash n leaf (d + j) 1,
          { nBitsUsed := s.nBitsUsed + 1 + (2 * j + 1) + 1, nHashUsed := s.nHashUsed + (j + 1) + 1
            vMatch := s.vMatch ++ [node hash n leaf d 0], vnIndex := s.vnIndex ++ [0]
            fBad := s.fBad }) := by
      rw [extract_closed closed]
      have hash' := others j (lt_succ_self j)
      simp [useHash, hash']
    constructor
    · rw [extract_open bit]
      rw [Nat.mul_zero, left, if_pos there, right]
      dsimp only
      rw [if_neg (differ j (lt_succ_self j)), parent]
      congr 2
      omega
    rw [traversePairs_open bit]
    dsimp only
    have none' : t.traversePairs hash j (2 * 0 + 1)
        { nBitsUsed := s.nBitsUsed + 1 + (2 * j + 1), nHashUsed := s.nHashUsed + (j + 1)
          vMatch := s.vMatch ++ [node hash n leaf d 0], vnIndex := s.vnIndex ++ [0]
          fBad := s.fBad } = [] := by
      cases j with
      | zero => rfl
      | succ j =>
        rw [traversePairs, closed]
        exact if_neg (by decide)
    rw [Nat.mul_zero, left, if_pos there]
    rw [none', right, lower, append_nil, range_succ, map_append]
    rfl

theorem node_injective (separates : Separates hash P L) (inside : pairs hash n leaf ⊆ P)
    (distinct : ∀ i < n, ∀ j < n, leaf i = leaf j → i = j) (level : k ≤ clog 2 n)
    (left : a < width n k) (right : b < width n k)
    (same : node hash n leaf k a = node hash n leaf k b) : a = b := by
  induction k generalizing a b with
  | zero =>
    rw [width_zero] at left right
    exact distinct a left b right same
  | succ k ih =>
    obtain ⟨children, -⟩ := children_eq separates inside inside level left level right same
    have double := ih (le_of_succ_le level) (two_mul_lt_width.2 left)
      (two_mul_lt_width.2 right) children
    omega

theorem flatMap_range_eight : ((range m).flatMap fun b => (range 8).map fun i => f (8 * b + i)) =
      (range (8 * m)).map f := by
  induction m with
  | zero => rfl
  | succ m ih =>
    rw [range_succ (n := m), flatMap_append, ih, mul_succ, range_add, map_append,
      List.map_map, flatMap_singleton]
    rfl

private theorem flatMap_vBytes (vBits : List Bool) : (vBytes vBits).flatMap availBits =
      (range (8 * ((vBits.length + 7) / 8))).map fun i => vBits.getD i false := by
  rw [vBytes, flatMap_map, ← flatMap_range_eight]
  simp [availBits_chAvail]

/-- The proof that shows the first node on level `d` as the first transaction. -/
def edgeProof (hash : PairHash) (n : ℕ) (leaf : ℕ → UInt256) (nTransactions : UInt32) (d j : ℕ) :
    CPartialMerkleTree :=
  received nTransactions
    (node hash n leaf d 0 :: (range j).map fun i => node hash n leaf (d + i) 1)
    (vBytes (replicate (j + 1) true ++ replicate j false))

theorem getD_edgeBits :
    (replicate (j + 1) true ++ replicate j false).getD i false = decide (i ≤ j) := by
  rw [getD_eq_getElem?_getD]
  by_cases low : i ≤ j
  · rw [getElem?_append_left (by rw [length_replicate]; omega),
      getElem?_replicate_of_lt (by omega), decide_eq_true low]
    rfl
  rw [getElem?_append_right (by rw [length_replicate]; omega), getElem?_replicate,
    decide_eq_false low]
  split <;> rfl

private theorem extractMatches_edge (separates : Separates hash P L) (inside : pairs hash n leaf ⊆ P)
    (distinct : ∀ i < n, ∀ j < n, leaf i = leaf j → i = j) (nonempty : nTransactions ≠ 0)
    (few : nTransactions.toNat ≤ MAX_BLOCK_BASE_SIZE / 60)
    (lower : clog 2 nTransactions.toNat < clog 2 n) :
    let d := clog 2 n - clog 2 nTransactions.toNat
    let t := edgeProof hash n leaf nTransactions d (clog 2 nTransactions.toNat)
    t.extractMatches hash [] = (root hash n leaf, [node hash n leaf d 0], [0]) ∧
      t.extractPairs hash ⊆ pairs hash n leaf := by
  intro d t
  obtain ⟨j, height⟩ : ∃ j, j = clog 2 nTransactions.toNat := ⟨_, rfl⟩
  have top : d + j = clog 2 n := by
    rw [height]
    exact Nat.sub_add_cancel lower.le
  have positive := pos_of_ne_zero fun zero => nonempty (UInt32.toNat_inj.1 zero)
  have hashes : t.vHash =
      node hash n leaf d 0 :: (range j).map fun i => node hash n leaf (d + i) 1 := by
    rw [height]
    rfl
  have bits : t.vBits = (range (8 * ((2 * j + 1 + 7) / 8))).map fun i => decide (i ≤ j) := by
    have same := flatMap_vBytes (replicate (j + 1) true ++ replicate j false)
    rw [length_append, length_replicate, length_replicate,
      show j + 1 + j = 2 * j + 1 by omega] at same
    simp only [getD_edgeBits] at same
    rw [← same, height]
    rfl
  have length : t.vBits.length = 8 * ((2 * j + 1 + 7) / 8) := by rw [bits, length_map, length_range]
  have length' : t.vHash.length = j + 1 := by rw [hashes, length_cons, length_map, length_range]
  have enough : j + 1 ≤ nTransactions.toNat := by
    rcases Nat.eq_zero_or_pos j with rfl | _
    · exact positive
    have power : 2 ^ (j - 1) < nTransactions.toNat := by
      rw [← lt_clog_iff_pow_lt one_lt_two]
      omega
    have := (j - 1).lt_two_pow_self
    omega
  have wide : ∀ i < j, 1 < width n (d + i) := fun i below => one_lt_width_of_lt_clog (by omega)
  obtain ⟨walk, walked⟩ := @extract_edge hash t n leaf d j ⟨0, 0, [], [], t.fBad⟩
    (fun i below => by
      rw [bits, getElem?_map, zero_add, getElem?_range (by omega)]
      rfl)
    (by rw [hashes]; rfl)
    (fun i below => by
      rw [hashes, zero_add, getElem?_cons_succ, getElem?_map, getElem?_range below]
      rfl)
    (fun i below => one_lt_width_of_lt_clog (by
      change i < clog 2 nTransactions.toNat
      omega))
    wide
    (fun i below same => by
      have := node_injective separates inside distinct (by omega) (wide i below)
        (zero_lt_of_lt (wide i below)) same
      omega)
  have steps : treeHeight t.nTransactions.toNat 32 0 = j :=
    (treeHeight_toNat nTransactions).trans height.symm
  constructor
  · rw [extractMatches, if_neg (show ¬ t.nTransactions = 0 from nonempty),
      if_neg (show ¬ t.nTransactions.toNat > _ from not_lt.2 few),
      if_neg (by rw [length']; exact not_lt.2 enough), if_neg (by omega), steps, walk]
    dsimp only
    rw [if_neg (show ¬ t.fBad from Bool.false_ne_true), if_neg (by rw [length]; omega),
      if_neg (by rw [length']; omega), top]
    rfl
  intro _ mem
  rw [extractPairs, steps, walked] at mem
  obtain ⟨i, below, rfl⟩ := mem_map.1 mem
  have below := mem_range.1 below
  have parent : 0 < width n (d + i + 1) := by
    rw [← two_mul_lt_width]
    exact zero_lt_of_lt (wide i below)
  have pair : (node hash n leaf (d + i) (2 * 0), partner hash n leaf (d + i) 0) ∈ pairs hash n leaf :=
    mem_pairs (by omega) parent
  rwa [partner_of_lt (wide i below)] at pair

/-- No proof with this number of transactions, whatever its hashes and bits, shows a transaction at a
place where the block has none. The hashes computed for it and for the block do not collide. -/
def ProvesMembership (hash : PairHash) (txids : List UInt256) (hashMerkleRoot : UInt256)
    (nTransactions : UInt32) : Prop :=
  ∀ vHash vBytes vMatch vnIndex,
    Separates hash (pairs hash txids.length (leafAt txids) ++
      (received nTransactions vHash vBytes).extractPairs hash) txids →
    (received nTransactions vHash vBytes).extractMatches hash [] = (hashMerkleRoot, vMatch, vnIndex) →
    vMatch.length = vnIndex.length ∧ (∀ p ∈ vMatch.zip vnIndex, txids[p.2]? = some p.1) ∧
      ∀ inChain ids, verifyTxOutProof hash hashMerkleRoot inChain (received nTransactions vHash vBytes)
        = .ok ids → ∀ txid ∈ ids, txid ∈ txids

theorem extractMatches_refused
    (refused : t.nTransactions = 0 ∨ t.nTransactions.toNat > MAX_BLOCK_BASE_SIZE / 60) :
    t.extractMatches hash vnIndex = (0, [], vnIndex) := by
  rw [extractMatches, ← ite_or, if_pos refused]

private theorem extractMatches_eq (real : h ≠ 0)
    (ran : t.extractMatches hash vnIndex = (h, vMatch, vnIndex')) :
    ∃ s, t.traverseAndExtract hash (treeHeight t.nTransactions.toNat 32 0) 0
        ⟨0, 0, [], vnIndex, t.fBad⟩ = (h, s) ∧
      s.fBad = false ∧ s.vMatch = vMatch ∧ s.vnIndex = vnIndex' := by
  have null : ∀ {m : List UInt256} {v : List ℕ}, ((0, m, v) : UInt256 × _) ≠ (h, vMatch, vnIndex') :=
    fun same => real (Prod.mk.inj same).1.symm
  unfold extractMatches at ran
  split at ran
  · exact absurd ran null
  split at ran
  · exact absurd ran null
  split at ran
  · exact absurd ran null
  split at ran
  · exact absurd ran null
  generalize t.traverseAndExtract hash (treeHeight t.nTransactions.toNat 32 0) 0
    ⟨0, 0, [], vnIndex, t.fBad⟩ = r at ran
  dsimp only at ran
  split at ran
  · exact absurd ran null
  next fine =>
  split at ran
  · exact absurd ran null
  split at ran
  · exact absurd ran null
  obtain ⟨rfl, rfl, rfl⟩ : r.1 = h ∧ r.2.vMatch = vMatch ∧ r.2.vnIndex = vnIndex' := by simpa using ran
  exact ⟨r.2, rfl, Bool.not_eq_true _ ▸ fine, rfl, rfl⟩

theorem getElem?_leafAt (inside : i < txids.length) : txids[i]? = some (leafAt txids i) := by
  simp [leafAt, inside]

private theorem provesMembership_of_le
    (nonempty : txids ≠ []) (roots : root hash txids.length (leafAt txids) = hashMerkleRoot)
    (real : hashMerkleRoot ≠ 0) (high : clog 2 txids.length ≤ clog 2 nTransactions.toNat) :
    ProvesMembership hash txids hashMerkleRoot nTransactions := by
  intro vHash vBytes vMatch vnIndex separates ran
  obtain ⟨t, is⟩ : ∃ t, t = received nTransactions vHash vBytes := ⟨_, rfl⟩
  rw [← is] at separates ran ⊢
  have found : Found txids.length (leafAt txids) ⟨0, 0, [], [], t.fBad⟩
      ⟨0, 0, vMatch, vnIndex, t.fBad⟩ := by
    obtain ⟨e, height⟩ := Nat.exists_eq_add_of_le' high
    have steps : treeHeight t.nTransactions.toNat 32 0 = e + clog 2 txids.length := by
      rw [is, ← height]
      exact treeHeight_toNat nTransactions
    obtain ⟨_, walk, fine, rfl, rfl⟩ := extractMatches_eq real ran
    rw [steps] at walk
    have start : 0 < width txids.length (clog 2 txids.length) :=
      width_pos (length_pos_iff.2 nonempty) _
    have walked : t.traversePairs hash (e + clog 2 txids.length) 0 ⟨0, 0, [], [], t.fBad⟩ ⊆
        pairs hash txids.length (leafAt txids) ++ t.extractPairs hash := by
      rw [← steps]
      exact subset_append_right _ _
    have found := extract_sound separates (subset_append_left _ _)
      (fun i inside => leafAt_mem inside) walked le_rfl start (by rw [walk]; exact roots.symm)
      (by rw [walk]; exact fine)
    rw [walk] at found
    exact found
  obtain ⟨new, matches', positions, inside⟩ := found
  rw [nil_append] at matches' positions
  dsimp only at matches' positions
  refine ⟨by rw [matches', positions, length_map], fun _ mem => ?_,
    fun _ _ shown _ mem => ?_⟩
  · have zipped : (new.map (leafAt txids)).zip (new.map id) = new.map fun i => (leafAt txids i, i) :=
      zip_map'
    rw [List.map_id] at zipped
    rw [matches', positions, zipped] at mem
    obtain ⟨i, here, rfl⟩ := mem_map.1 mem
    exact getElem?_leafAt (inside i here)
  rw [verifyTxOutProof, ran] at shown
  simp only [ne_eq, not_true_eq_false, if_false] at shown
  split at shown
  · cases shown
  cases shown
  rw [matches'] at mem
  obtain ⟨i, here, rfl⟩ := mem_map.1 mem
  exact leafAt_mem (inside i here)

theorem leafAt_injective (distinct : txids.Nodup) :
    ∀ i < txids.length, ∀ j < txids.length, leafAt txids i = leafAt txids j → i = j := by
  intro i inside j inside' same
  have found : txids[i]? = txids[j]? := by
    rw [getElem?_leafAt inside, getElem?_leafAt inside', same]
  rw [getElem?_eq_getElem inside, getElem?_eq_getElem inside', some.injEq] at found
  exact distinct.getElem_inj_iff.1 found

/-- Which numbers of transactions make proofs that prove membership: those for which `ExtractMatches`
walks a tree at least as high as the block's, and those it refuses. -/
theorem provesMembership_iff {txids : List UInt256} {hashMerkleRoot : UInt256} {mutated : Bool}
    (nonempty : txids ≠ []) (few : txids.length ≤ 2 ^ 31) (distinct : txids.Nodup)
    (apart : Separates hash (pairs hash txids.length (leafAt txids)) txids)
    (merkle : computeMerkleRoot hash txids = some (hashMerkleRoot, mutated)) (real : hashMerkleRoot ≠ 0)
    (nTransactions : UInt32) :
    ProvesMembership hash txids hashMerkleRoot nTransactions ↔
      nTransactions = 0 ∨ nTransactions.toNat > MAX_BLOCK_BASE_SIZE / 60 ∨
        treeHeight txids.length 32 0 ≤ treeHeight nTransactions.toNat 32 0 := by
  have height : treeHeight txids.length 32 0 = clog 2 txids.length := by
    refine treeHeight_eq 32 0 (zero_le _) ?_
    rw [zero_add, clog_le_iff_le_pow one_lt_two]
    exact few.trans (by decide)
  obtain ⟨_, ran, -⟩ := computeMerkleRoot_spec nonempty few
  have roots := (Prod.mk.inj (mem_unique ran merkle)).1
  rw [height, treeHeight_toNat]
  constructor
  · intro sound
    by_contra refused
    simp only [not_or, not_lt, not_le] at refused
    obtain ⟨nonempty', bounded, lower⟩ := refused
    obtain ⟨extracted, walked⟩ := extractMatches_edge apart (List.Subset.refl _) (leafAt_injective distinct)
      nonempty' bounded lower
    rw [roots] at extracted
    obtain ⟨-, members, -⟩ := sound _ _ _ _
      ⟨fun p member q member' => apart.injective p ((mem_append.1 member).elim id (@walked p))
          q ((mem_append.1 member').elim id (@walked q)),
        fun p member => apart.apart p ((mem_append.1 member).elim id (@walked p))⟩ extracted
    have first := members (_, 0) (mem_singleton_self _)
    rw [getElem?_leafAt (length_pos_iff.2 nonempty)] at first
    -- The first transaction would be the hash of a pair.
    obtain ⟨d, _⟩ := Nat.exists_eq_add_of_lt lower
    have here : 0 < width txids.length (d + 1) := width_pos (length_pos_iff.2 nonempty) _
    have top : clog 2 txids.length - clog 2 nTransactions.toNat = d + 1 := by omega
    rw [top, node_succ] at first
    exact apart.apart _ (mem_pairs (by omega) here) _ (leafAt_mem (length_pos_iff.2 nonempty))
      (some.inj first).symm
  · rintro (zero | many | high)
    · intro vHash vBytes vMatch vnIndex _ ran
      rw [extractMatches_refused (.inl zero)] at ran
      exact absurd (Prod.mk.inj ran).1.symm real
    · intro vHash vBytes vMatch vnIndex _ ran
      rw [extractMatches_refused (.inr many)] at ran
      exact absurd (Prod.mk.inj ran).1.symm real
    · exact provesMembership_of_le nonempty roots real high

/-- Four transactions, and a proof that claims two of them: the hash of the first pair is returned as
the txid of the first transaction. -/
theorem verifyTxOutProof_inner_node :
    ∃ hashMerkleRoot, computeMerkleRoot pairing [1, 2, 3, 4] = some (hashMerkleRoot, false) ∧
      Separates pairing (pairs pairing 4 (leafAt [1, 2, 3, 4]) ++
        (received 2 [1009, 3011] [3]).extractPairs pairing) [1, 2, 3, 4] ∧
      (received 2 [1009, 3011] [3]).extractMatches pairing [] = (hashMerkleRoot, [1009], [0]) ∧
      ¬ ProvesMembership pairing [1, 2, 3, 4] hashMerkleRoot 2 ∧
      verifyTxOutProof pairing hashMerkleRoot true (received 2 [1009, 3011] [3]) = .ok [1009] := by
  have apart : Separates pairing (pairs pairing 4 (leafAt [1, 2, 3, 4]) ++
      (received 2 [1009, 3011] [3]).extractPairs pairing) [1, 2, 3, 4] := by decide
  have ran : (received 2 [1009, 3011] [3]).extractMatches pairing [] = (1012018, [1009], [0]) := by
    decide
  refine ⟨1012018, by decide, apart, ran, fun sound => ?_, rfl⟩
  obtain ⟨-, members, -⟩ := sound _ _ _ _ apart ran
  exact absurd (members (1009, 0) (mem_singleton_self _)) (by decide)

/-- With all four transactions claimed, proofs prove membership. -/
theorem provesMembership_four : ProvesMembership pairing [1, 2, 3, 4] 1012018 4 :=
  (provesMembership_iff (by decide) (by decide) (by decide) (by decide)
    (show computeMerkleRoot pairing [1, 2, 3, 4] = some (1012018, false) by decide) (by decide) 4).2
    (.inr (.inr (by decide)))

end CPartialMerkleTree
end DogecoinCore
