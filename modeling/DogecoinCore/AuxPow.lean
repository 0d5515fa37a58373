import DogecoinCore.ByteStream
import DogecoinCore.Transaction

/-! Merged mining: `CAuxPow::check`, which ties a block of this chain to the work done on a
parent block through the parent's coinbase. One coinbase vouches for one block hash. The
double SHA-256 of two concatenated hashes is free. -/
namespace DogecoinCore
open List Nat

section MerkleBranch
variable {α : Type} (node : α → α → α)

/-- The two hashes a level of the tree concatenates; the lowest bit of the index says on which
side the branch's own is. -/
def siblings (nIndex : Int32) (hash other : α) : α × α :=
  if nIndex &&& 1 ≠ 0 then (other, hash) else (hash, other)

/-- The loop of `CheckMerkleBranch`. -/
def climb : (nIndex : Int32) → (vMerkleBranch : List α) → (hash : α) → α
  | _, [], hash => hash
  | nIndex, other :: rest, hash =>
    climb (nIndex >>> 1) rest (node (siblings nIndex hash other).1 (siblings nIndex hash other).2)

def hashedPairs : (nIndex : Int32) → (vMerkleBranch : List α) → (hash : α) → List (α × α)
  | _, [], _ => []
  | nIndex, other :: rest, hash =>
    siblings nIndex hash other :: hashedPairs (nIndex >>> 1) rest
        (node (siblings nIndex hash other).1 (siblings nIndex hash other).2)

def CollisionFree (first second : List (α × α)) : Prop :=
  ∀ p ∈ first, ∀ q ∈ second, node p.1 p.2 = node q.1 q.2 → p = q

variable {node}

theorem siblings_fst_eq {hash hash' other other' : α}
    (same : siblings nIndex hash other = siblings nIndex hash' other') : hash = hash' := by
  unfold siblings at same
  split at same
  · exact congrArg Prod.snd same
  · exact congrArg Prod.fst same

private theorem climb_injective {first second : List α} {hash hash' : α}
    (length : first.length = second.length)
    (free : CollisionFree node (hashedPairs node nIndex first hash)
      (hashedPairs node nIndex second hash'))
    (root : climb node nIndex first hash = climb node nIndex second hash') : hash = hash' := by
  induction first generalizing nIndex second hash hash' with
  | nil =>
    obtain rfl := length_eq_zero_iff.1 length.symm
    exact root
  | cons _ _ ih =>
    cases second with
    | nil => cases length
    | cons _ _ =>
      have below := ih (succ.inj length)
        (fun p inside q inside' => free p (mem_cons_of_mem _ inside) q
          (mem_cons_of_mem _ inside')) root
      exact siblings_fst_eq (free _ mem_cons_self _ mem_cons_self below)

end MerkleBranch

def search (script pattern : List UInt8) : Option ℕ :=
  (range (script.length + 1)).find? fun i => pattern.isPrefixOf (script.drop i)

theorem search_eq_some (found : search script pattern = some i) :
    (script.drop i).take pattern.length = pattern := by
  have stands := find?_some found
  have leads := isPrefixOf_iff_prefix.1 stands
  exact (prefix_iff_eq_take.1 leads).symm

/-- The part of a `CPureBlockHeader` that the check reads. -/
structure CPureBlockHeader where
  nVersion : Int32
  hashMerkleRoot : UInt256

def CPureBlockHeader.getChainId (header : CPureBlockHeader) : Int32 := header.nVersion >>> 16

/-- `CAuxPow`, with the fields of `CMerkleTx`. -/
structure CAuxPow where
  tx : CTransaction
  vMerkleBranch : List UInt256
  nIndex : Int32
  vChainMerkleBranch : List UInt256
  nChainIndex : Int32
  parentBlock : CPureBlockHeader

/-- `{ 0xfa, 0xbe, 'm', 'm' }`. -/
def pchMergedMiningHeader : List UInt8 := [0xfa, 0xbe, 0x6d, 0x6d]

/-- The bytes of a hash in the order they are written in the coinbase. -/
def reversedBytes (hash : UInt256) : List UInt8 := (littleEndian 32 hash.toNat).reverse

/-- A `uint32_t` read from four bytes. -/
def le32toh (bytes : List UInt8) : UInt32 :=
  (bytes.take 4).foldr (fun byte high => byte.toUInt32 + 256 * high) 0

namespace CAuxPow
def checkMerkleBranch (node : UInt256 → UInt256 → UInt256) (hash : UInt256)
    (vMerkleBranch : List UInt256) (nIndex : Int32) : UInt256 :=
  if nIndex = -1 then 0 else climb node nIndex vMerkleBranch hash

def getExpectedIndex (nNonce : UInt32) (nChainId : Int32) (h : ℕ) : Int32 :=
  let rand := nNonce * 1103515245 + 12345
  let rand := rand + nChainId.toUInt32
  let rand := rand * 1103515245 + 12345
  (rand % (1 <<< h.toUInt32)).toInt32

/-- The place of the chain merkle root in the coinbase: behind the only merged mining header, or
early in the script if there is none. -/
def rootPosition (script vchRootHash : List UInt8) : Except String ℕ :=
  match search script vchRootHash with
  | none => .error "Aux POW missing chain merkle root in parent coinbase"
  | some pc =>
    match search script pchMergedMiningHeader with
    | some pcHead =>
      if (search (script.drop (pcHead + 1)) pchMergedMiningHeader).isSome then
        .error "Multiple merged mining headers in coinbase"
      else if pcHead + pchMergedMiningHeader.length ≠ pc then
        .error "Merged mining header is not just before chain merkle root"
      else .ok pc
    | none =>
      if pc > 20 then
        .error "Aux POW chain merkle root must start in the first 20 bytes of the parent coinbase"
      else .ok pc

def checkScript (aux : CAuxPow) (nChainId : Int32) (script : List UInt8) (nRootHash : UInt256) :
    Except String Unit := do
  let pc ← rootPosition script (reversedBytes nRootHash)
  let rest := script.drop (pc + 32)
  if rest.length < 8 then
    .error "Aux POW missing chain merkle tree size and nonce in parent coinbase"
  else if le32toh rest ≠ 1 <<< aux.vChainMerkleBranch.length.toUInt32 then
    .error "Aux POW merkle branch size does not match parent coinbase"
  else if aux.nChainIndex ≠
      getExpectedIndex (le32toh (rest.drop 4)) nChainId aux.vChainMerkleBranch.length then
    .error "Aux POW wrong index"
  else .ok ()

def check (node : UInt256 → UInt256 → UInt256) (fStrictChainId : Bool) (nChainId : Int32)
    (aux : CAuxPow) (hashAuxBlock : UInt256) : Except String Unit :=
  if aux.nIndex ≠ 0 then .error "AuxPow is not a generate"
  else if fStrictChainId && aux.parentBlock.getChainId = nChainId then
    .error "Aux POW parent has our chain ID"
  else if aux.vChainMerkleBranch.length > 30 then .error "Aux POW chain merkle branch too long"
  else
    let nRootHash := checkMerkleBranch node hashAuxBlock aux.vChainMerkleBranch aux.nChainIndex
    if checkMerkleBranch node aux.tx.hash aux.vMerkleBranch aux.nIndex ≠
        aux.parentBlock.hashMerkleRoot then .error "Aux POW merkle root incorrect"
    else
      match aux.tx.vin with
      | [] => .error "Aux POW coinbase has no inputs"
      | txin :: _ => aux.checkScript nChainId txin.scriptSig nRootHash

variable {node : UInt256 → UInt256 → UInt256} {fStrictChainId : Bool} {nChainId : Int32}

private theorem rootPosition_eq_ok (header : search script pchMergedMiningHeader = some pcHead)
    (found : rootPosition script vchRootHash = .ok pc) :
    pc = pcHead + 4 ∧ (script.drop (pcHead + 4)).take vchRootHash.length = vchRootHash := by
  unfold rootPosition at found
  cases position : search script vchRootHash with
  | none =>
    rw [position] at found
    cases found
  | some _ =>
    simp only [position, header] at found
    split at found
    · cases found
    split at found
    · cases found
    next place =>
    cases found
    obtain rfl := not_not.1 place
    exact ⟨rfl, search_eq_some position⟩

/-- The coinbase fixes the root, the height of the tree and the slot in it. -/
structure Fixed (nChainId : Int32) (script : List UInt8) (pcHead : ℕ) (aux : CAuxPow)
    (nRootHash : UInt256) : Prop where
  root : (script.drop (pcHead + 4)).take 32 = reversedBytes nRootHash
  size : le32toh (script.drop (pcHead + 36)) = 1 <<< aux.vChainMerkleBranch.length.toUInt32
  index : aux.nChainIndex = getExpectedIndex (le32toh (script.drop (pcHead + 40))) nChainId
    aux.vChainMerkleBranch.length

theorem checkScript_fixed (header : search script pchMergedMiningHeader = some pcHead)
    (passed : aux.checkScript nChainId script nRootHash = .ok ()) :
    Fixed nChainId script pcHead aux nRootHash := by
  unfold checkScript at passed
  cases position : rootPosition script (reversedBytes nRootHash) with
  | error _ =>
    rw [position] at passed
    cases passed
  | ok _ =>
    obtain ⟨rfl, bytes⟩ := rootPosition_eq_ok header position
    rw [position] at passed
    change (if _ then _ else if _ then _ else if _ then _ else _) = _ at passed
    split at passed
    · cases passed
    split at passed
    · cases passed
    next size =>
    split at passed
    · cases passed
    next index =>
    rw [drop_drop] at index
    exact ⟨bytes, not_not.1 size, not_not.1 index⟩

private theorem check_fixed (vin : aux.tx.vin = txin :: others)
    (header : search txin.scriptSig pchMergedMiningHeader = some pcHead)
    (passed : aux.check node fStrictChainId nChainId hashAuxBlock = .ok ()) :
    aux.vChainMerkleBranch.length ≤ 30 ∧ Fixed nChainId txin.scriptSig pcHead aux
      (checkMerkleBranch node hashAuxBlock aux.vChainMerkleBranch aux.nChainIndex) := by
  unfold check at passed
  split at passed
  · cases passed
  split at passed
  · cases passed
  split at passed
  · cases passed
  next short =>
  rw [vin] at passed
  split at passed
  · cases passed
  · exact ⟨not_lt.1 short, checkScript_fixed header passed⟩

theorem toNat_shift (small : h ≤ 30) : ((1 : UInt32) <<< h.toUInt32).toNat = 2 ^ h := by
  have power : 2 ^ h ≤ 2 ^ 30 := Nat.pow_le_pow_right (by decide) small
  rw [UInt32.toNat_shiftLeft]
  simp only [toUInt32_eq, UInt32.toNat_ofNat', UInt32.toNat_one, shiftLeft_eq, one_mul]
  rw [mod_eq_of_lt (a := h % 2 ^ 32) (by omega), mod_eq_of_lt (a := h) (by omega),
    mod_eq_of_lt (by omega)]

theorem size_injective {h h' : ℕ} (small : h ≤ 30) (small' : h' ≤ 30)
    (same : (1 : UInt32) <<< h.toUInt32 = 1 <<< h'.toUInt32) : h = h' := by
  have power := congrArg UInt32.toNat same
  rw [toNat_shift small, toNat_shift small'] at power
  exact Nat.pow_right_injective le_rfl power

theorem getExpectedIndex_ne (small : h ≤ 30) : getExpectedIndex nNonce nChainId h ≠ -1 := by
  intro none
  have value := congrArg (fun index => index.toUInt32.toNat) none
  simp only [getExpectedIndex, UInt32.toUInt32_toInt32, UInt32.toNat_mod, toNat_shift small] at value
  generalize ((nNonce * 1103515245 + 12345 + nChainId.toUInt32) * 1103515245 + 12345).toNat = rand
    at value
  have bound := Nat.mod_lt rand (Nat.two_pow_pos h)
  have power : 2 ^ h ≤ 2 ^ 30 := Nat.pow_le_pow_right (by decide) small
  rw [value] at bound
  exact absurd (bound.trans_le power) (by decide)

theorem reversedBytes_injective : Function.Injective reversedBytes := by
  intro first second same
  have bytes := congrArg (· ++ []) (reverse_injective same)
  have values := (reads_littleEndian 32 _ first.isLt).split (reads_littleEndian 32 _ second.isLt) bytes
  exact BitVec.eq_of_toNat_eq values.1

def hashed (node : UInt256 → UInt256 → UInt256) (aux : CAuxPow) (hashAuxBlock : UInt256) :
    List (UInt256 × UInt256) :=
  hashedPairs node aux.nChainIndex aux.vChainMerkleBranch hashAuxBlock

/-- A parent coinbase with the merged mining header counts for one block hash, whatever else the
auxpows that carry it say. -/
theorem check_unique {first second : CAuxPow} {hash hash' : UInt256} {txin : CTxIn}
    {others : List CTxIn} (coinbase : first.tx = second.tx) (vin : first.tx.vin = txin :: others)
    (header : (search txin.scriptSig pchMergedMiningHeader).isSome)
    (free : CollisionFree node (first.hashed node hash) (second.hashed node hash'))
    (passed : first.check node fStrictChainId nChainId hash = .ok ())
    (passed' : second.check node fStrictChainId nChainId hash' = .ok ()) : hash = hash' := by
  obtain ⟨_, header⟩ := Option.isSome_iff_exists.1 header
  obtain ⟨small, fixed⟩ := check_fixed vin header passed
  obtain ⟨small', fixed'⟩ := check_fixed (coinbase ▸ vin) header passed'
  have length := size_injective small small' (fixed.size.symm.trans fixed'.size)
  have slot : first.nChainIndex = second.nChainIndex := by rw [fixed.index, fixed'.index, length]
  have root := reversedBytes_injective (fixed.root.symm.trans fixed'.root)
  have inside := fixed.index ▸ getExpectedIndex_ne small
  rw [checkMerkleBranch, checkMerkleBranch, if_neg inside, if_neg (slot ▸ inside), ← slot] at root
  refine climb_injective length ?_ root
  rw [hashed, hashed, ← slot] at free
  exact free

def smallNode (left right : UInt256) : UInt256 := left * 256 + right

/-- A coinbase that commits to the tree of the hashes 5 and 9, with nonce 0. -/
def smallCoinbase : CTransaction where
  nVersion := 1
  vin := [⟨⟨0, 0xffffffff⟩, pchMergedMiningHeader ++ reversedBytes 1289 ++ [2, 0, 0, 0, 0, 0, 0, 0],
    0, []⟩]
  vout := []
  nLockTime := 0
  hash := 77
  witnessHash := 77

/-- An auxpow that hangs on it, alone in a parent block of some version. -/
def smallAuxPow (nVersion : Int32) : CAuxPow where
  tx := smallCoinbase
  vMerkleBranch := []
  nIndex := 0
  vChainMerkleBranch := [9]
  nChainIndex := 0
  parentBlock := ⟨nVersion, 77⟩

theorem check_unique_smallAuxPow : (smallAuxPow 1).check smallNode true 98 5 = .ok () ∧
      (smallAuxPow 2).check smallNode true 98 5 = .ok () ∧ (5 : UInt256) = 5 := by
  have passed : (smallAuxPow 1).check smallNode true 98 5 = .ok () := by decide
  have passed' : (smallAuxPow 2).check smallNode true 98 5 = .ok () := by decide
  have free : CollisionFree smallNode ((smallAuxPow 1).hashed smallNode 5)
      ((smallAuxPow 2).hashed smallNode 5) := by
    intro _ inside _ inside' _
    rw [mem_singleton.1 inside, mem_singleton.1 inside']
    rfl
  exact ⟨passed, passed', check_unique rfl rfl (by decide) free passed passed'⟩

end CAuxPow

end DogecoinCore
