import DogecoinCore.ConnectChecks

/-! Disconnecting a block takes back what connecting it did. Undoing does not restore the
records themselves: outputs that are spent may be written differently, and a negative version
is lost. So the coins on the way back are related to those on the way there by what a
reader can see, and one more property that the comparison in `DisconnectBlock` needs. -/
namespace DogecoinCore.Coins
open List Option Function Bool WriteBack DogecoinCore.Coins.CScript Outcome CBlockUndo Nat

namespace CCoins
open CCoins CoinsMap
variable {a b c left : CCoins}

structure Same (a b : CCoins) : Prop where
  fCoinBase : a.fCoinBase = b.fCoinBase
  nHeight : a.nHeight = b.nHeight
  nVersion : 0 ≤ b.nVersion → a.nVersion = b.nVersion
  unspent : ∀ i, a.unspent i = b.unspent i

/-- Coins `a` on the way back, where `b` was on the way there. -/
structure Like (a b : CCoins) : Prop extends a.Same b where
  canonical : b.Canonical → a.Canonical

/-- Coins that undo data can bring back: the height marks the last output, and positions and scripts
fit the formats. -/
structure Restorable (c : CCoins) : Prop where
  height : 0 < c.nHeight
  positions : c.vout.length < 2 ^ 32
  scripts : ∀ i out, c.unspent i = some out → out.scriptPubKey.length ≤ 10000

section
variable (restorable : c.Restorable)
include restorable

theorem Restorable.cleanup : c.cleanup.Restorable where
  height := restorable.height
  positions := by
    have shorter := rdropWhile_prefix (·.isNull) c.vout |>.length_le
    exact lt_of_le_of_lt shorter restorable.positions
  scripts := fun i out found => restorable.scripts i out (unspent_cleanup i ▸ found)

theorem Restorable.spend (spent : c.spend n = some left) :
    left.Restorable := by
  obtain ⟨rfl, -⟩ := spend_eq_some spent
  refine ⟨restorable.height, ?_, fun i out found => ?_⟩
  · have shorter := rdropWhile_prefix (·.isNull) (c.vout.set n.toNat .null) |>.length_le
    rw [length_set] at shorter
    exact lt_of_le_of_lt shorter restorable.positions
  rw [unspent_spend spent] at found
  split at found
  · cases found
  · exact restorable.scripts i out found

theorem Restorable.kept (found : c.kept = some left) :
    left.Restorable := by
  obtain ⟨same, -⟩ := seen_eq_some.1 found
  exact some.inj same ▸ restorable.cleanup

end

theorem Like.refl (c : CCoins) : c.Like c := ⟨⟨rfl, rfl, fun _ => rfl, fun _ => rfl⟩, id⟩

private theorem isPruned_of_like_none (like : Option.Rel Like (seen isPruned (some a)) none) :
    a.isPruned := by
  cases found : seen isPruned (some a) with
  | none => exact seen_eq_none.1 found a rfl
  | some _ =>
    rw [found] at like
    cases like

theorem like_of_like_some (like : Option.Rel Like (seen isPruned (some a)) (some b)) :
    a.isPruned = false ∧ Like a b := by
  cases found : seen isPruned (some a) with
  | none =>
    rw [found] at like
    cases like
  | some _ =>
    rw [found] at like
    obtain ⟨⟨⟩, there⟩ := seen_eq_some.1 found
    cases like with
    | some like => exact ⟨there, like⟩

end CCoins

open CCoins

namespace CTxInUndo
variable {c left held : CCoins} {out : CTxOut}

theorem unspent_putOutput (base : CCoins) (room : (n + 1).toNat = n.toNat + 1)
    (there : out.isNull = false) (i : ℕ) :
    (base.putOutput n out).unspent i = if i = n.toNat then some out else base.unspent i := by
  unfold putOutput unspent
  by_cases here : i = n.toNat
  · have inside : n.toNat < (base.vout ++
        replicate ((n + 1).toNat - base.vout.length) CTxOut.null).length := by
      rw [length_append, length_replicate]
      omega
    rw [if_pos here, here]
    simp only [getElem?_set_self inside, Option.filter, there]
    rfl
  rw [if_neg here]
  simp only [getElem?_set_ne (Ne.symm here)]
  by_cases inside : i < base.vout.length
  · rw [getElem?_append_left inside]
  rw [getElem?_append_right (not_lt.1 inside),
    getElem?_eq_none (not_lt.1 inside), getElem?_replicate]
  split <;> rfl

theorem nullsClear_putOutput {base : CCoins} (clear : base.NullsClear) (there : out.isNull = false) :
    (base.putOutput n out).NullsClear := by
  intro o mem null
  obtain old | rfl := mem_or_eq_of_mem_set mem
  · obtain kept | pad := mem_append.1 old
    · exact clear o kept null
    · exact (mem_replicate.1 pad).2
  · rw [there] at null
    cases null

private theorem putOutput_like (base : CCoins) (positions : c.vout.length < 2 ^ 32)
    (found : c.available n = some out) (spent : c.spend n = some left)
    (fCoinBase : base.fCoinBase = c.fCoinBase) (nHeight : base.nHeight = c.nHeight)
    (nVersion : 0 ≤ c.nVersion → base.nVersion = c.nVersion)
    (others : ∀ i, base.unspent i = left.unspent i) (clear : c.Canonical → base.NullsClear) :
    base.isAvailable n = false ∧ Option.Rel Like (base.putOutput n out).kept (some c) := by
  have here : c.unspent n.toNat = some out := found
  obtain ⟨position, there⟩ := unspent_eq_some.1 here
  obtain ⟨_, -⟩ := List.getElem?_eq_some_iff.1 position
  have room : (n + 1).toNat = n.toNat + 1 := by
    rw [UInt32.toNat_add]
    exact mod_eq_of_lt (by change n.toNat + 1 < 2 ^ 32; omega)
  have put := unspent_putOutput base room there
  have unpruned : (base.putOutput n out).isPruned = false := by
    rw [← not_eq_true, isPruned_iff]
    intro pruned
    have gone := pruned n.toNat
    rw [put, if_pos rfl] at gone
    cases gone
  refine ⟨?_, ?_⟩
  · change (base.unspent n.toNat).isSome = false
    rw [others, unspent_spend spent, if_pos rfl]
    rfl
  rw [kept_of_not_isPruned unpruned]
  refine .some ⟨⟨fCoinBase, nHeight, nVersion, fun i => ?_⟩, fun canonical =>
    (nullsClear_putOutput (clear canonical) there).cleanup⟩
  rw [unspent_cleanup, put]
  split
  · next same => rw [same, here]
  · next ne => rw [others, unspent_spend spent, if_neg ne]

private theorem restore_spent (restorable : c.Restorable) (found : c.available n = some out)
    (spent : c.spend n = some left) (after : Option.Rel Like (seen isPruned (some held)) left.kept) :
    ((ofSpent out left).image.restore n held).1 ∧
      Option.Rel Like ((ofSpent out left).image.restore n held).2.kept (some c) := by
  obtain ⟨shape, -⟩ := spend_eq_some spent
  have tidy := shape ▸ tidy_cleanup _
  by_cases last : left.vout = []
  · -- the last output: the record has the transaction's data, and the coins are gone
    have pruned := tidy.vout_eq_nil.1 last
    rw [kept_of_isPruned pruned] at after
    have gone := isPruned_of_like_none after
    have height : c.nHeight.toUInt32 ≠ 0 := by
      intro zero
      have same : c.nHeight = 0 := congrArg UInt32.toInt32 zero
      exact absurd restorable.height (by rw [same]; decide)
    have record : (ofSpent out left).image =
        ⟨out, c.fCoinBase, c.nHeight.toUInt32, varIntImage c.nVersion⟩ := by
      have positive := UInt32.pos_iff_ne_zero.2 height
      rw [ofSpent, last, shape]
      simp [image, cleanup, if_pos positive]
    obtain ⟨free, like⟩ := putOutput_like ⟨c.fCoinBase, [], c.nHeight, varIntImage c.nVersion⟩
      restorable.positions found spent rfl rfl
      (fun positive => if_neg (Int32.not_lt.2 positive))
      (fun i => (isPruned_iff.1 pruned i).symm ▸ rfl) (fun _ => by simp [NullsClear])
    simp only [record, restore, height, ne_eq, not_false_eq_true, if_true, gone, Bool.true_and]
    exact ⟨by simpa using free, like⟩
  -- others are left: the record has the output only
  have unpruned : left.isPruned = false := by
    rw [← not_eq_true, ← tidy.vout_eq_nil]
    exact last
  rw [kept_of_not_isPruned unpruned, show left.cleanup = left from tidy] at after
  obtain ⟨there, like⟩ := like_of_like_some after
  have record : (ofSpent out left).image = ⟨out, false, 0, 0⟩ := by
    rw [ofSpent, if_neg (by simpa using last)]
    rfl
  obtain ⟨free, like⟩ := putOutput_like held restorable.positions found spent
    (like.fCoinBase.trans (shape ▸ rfl)) (like.nHeight.trans (shape ▸ rfl))
    (fun positive => (like.nVersion (shape ▸ positive)).trans (shape ▸ rfl)) like.unspent
    (fun canonical => (like.canonical (canonical.spend spent)).nullsClear)
  simp only [record, restore, ne_eq, not_true_eq_false, if_false, there, Bool.not_false,
    Bool.true_and]
  exact ⟨by simpa using free, like⟩

end CTxInUndo

section Created
variable {tx : CTransaction} {nHeight : Int32} {held : CCoins}

private theorem mem_fromTx (mem : out ∈ (fromTx tx nHeight).vout) :
    out = .null ∨ out ∈ tx.vout ∧ isUnspendable out.scriptPubKey = false := by
  have cleared := rdropWhile_prefix _ _ |>.subset mem
  obtain ⟨txout, inside, rfl⟩ := mem_map.1 cleared
  by_cases unspendable : isUnspendable txout.scriptPubKey
  · rw [if_pos unspendable]
    exact .inl rfl
  · rw [if_neg unspendable]
    exact .inr ⟨inside, not_eq_true _ ▸ unspendable⟩

theorem canonical_fromTx (values : ∀ out ∈ tx.vout, moneyRange out.nValue) :
    (fromTx tx nHeight).Canonical := by
  refine ⟨tidy_cleanup _, fun out mem null => ?_⟩
  obtain rfl | ⟨inside, -⟩ := mem_fromTx mem
  · rfl
  have negative : out.nValue = -1 := by simpa [CTxOut.isNull] using null
  have range := values out inside
  rw [negative] at range
  exact absurd range (by decide)

theorem restorable_fromTx (formed : WellFormed tx) (positive : 0 < nHeight) :
    (fromTx tx nHeight).Restorable := by
  refine ⟨positive, ?_, fun _ _ found => ?_⟩
  · have shorter := rdropWhile_prefix (·.isNull) (tx.vout.map fun txout =>
      if isUnspendable txout.scriptPubKey then .null else txout) |>.length_le
    rw [length_map] at shorter
    have few := formed.lengths.2
    unfold MAX_BLOCK_BASE_SIZE at few
    change (fromTx tx nHeight).vout.length ≤ _ at shorter
    omega
  obtain rfl | ⟨-, spendable⟩ := mem_fromTx (mem_of_getElem? (unspent_eq_some.1 found).1)
  · exact zero_le _
  · simp only [isUnspendable, or_eq_false_iff, decide_eq_false_iff_not] at spendable
    exact not_lt.1 spendable.2

private theorem clearUnspendable_of_vout_eq (same : held.vout = (fromTx tx nHeight).vout) :
    held.clearUnspendable = held := by
  have each : held.vout.map (fun txout =>
      if isUnspendable txout.scriptPubKey then .null else txout) = held.vout := by
    refine (map_congr_left fun _ mem => ?_).trans (map_id _)
    rw [same] at mem
    obtain rfl | ⟨-, spendable⟩ := mem_fromTx mem
    · rfl
    · rw [spendable]
      rfl
  have tidy : (fromTx tx nHeight).vout.rdropWhile (·.isNull) =
      (fromTx tx nHeight).vout := congrArg vout (tidy_cleanup _)
  simp only [clearUnspendable, cleanup, each]
  rw [same, tidy, ← same]

theorem isPruned_clearUnspendable {c : CCoins} (pruned : c.isPruned) :
    c.clearUnspendable.isPruned := by
  rw [clearUnspendable, isPruned_cleanup, isPruned, List.all_map, List.all_eq_true]
  intro out mem
  rw [isPruned, List.all_eq_true] at pruned
  simp only [comp]
  split
  · rfl
  · exact pruned out mem

private theorem matchesTx_of_like (values : ∀ out ∈ tx.vout, moneyRange out.nValue)
    (like : Option.Rel Like (seen isPruned (some held)) (fromTx tx nHeight).kept) :
    held.matchesTx tx nHeight := by
  have canonical : (fromTx tx nHeight).Canonical := canonical_fromTx values
  cases pruned : (fromTx tx nHeight).isPruned with
  | true =>
    rw [kept_of_isPruned pruned] at like
    have gone := isPruned_clearUnspendable (isPruned_of_like_none like)
    simp only [matchesTx, equals, pruned, Bool.and_true, or_eq_true]
    left
    split
    · exact gone
    · exact gone
  | false =>
    rw [kept_of_not_isPruned pruned, show (fromTx tx nHeight).cleanup = _ from canonical.tidy]
      at like
    obtain ⟨-, like⟩ := like_of_like_some like
    have vout := (like.canonical canonical).vout_eq canonical like.unspent
    simp only [matchesTx, equals, clearUnspendable_of_vout_eq vout, or_eq_true, decide_eq_true_eq]
    right
    split
    · rw [mk.injEq]
      exact ⟨like.fCoinBase, vout, like.nHeight, rfl⟩
    next positive =>
    rw [mk.injEq]
    exact ⟨like.fCoinBase, vout, like.nHeight, like.nVersion (Int32.not_lt.1 positive)⟩

end Created

namespace CoinsMap
variable {m m' : CoinsMap} {out : COutPoint}

/-- The coins on the way back, where `m` was on the way there. -/
def Like (m' m : CoinsMap) : Prop := ∀ txid, Option.Rel CCoins.Like (m' txid) (m txid)

theorem Like.refl (m : CoinsMap) : m.Like m := by
  intro txid
  cases m txid with
  | none => exact .none
  | some coins => exact .some (.refl coins)

theorem Like.update (like : m'.Like m) (txid : UInt256) (rel : Option.Rel CCoins.Like here' here) :
    Like (update m' txid here') (update m txid here) := by
  intro other
  by_cases same : other = txid
  · rw [same, update_self, update_self]
    exact rel
  · rw [update_of_ne same, update_of_ne same]
    exact like other

theorem Like.same (like : m'.Like m) (txid : UInt256) :
    Option.Rel CCoins.Same (m' txid) (m txid) := by
  have here := like txid
  generalize m' txid = held at here
  generalize m txid = coins at here
  cases here with
  | none => exact .none
  | some like => exact .some like.toSame

def Restorable (m : CoinsMap) : Prop := ∀ txid c, m txid = some c → c.Restorable

section
variable (restorable : m.Restorable)
include restorable

theorem Restorable.update {coins : CCoins}
    (here : coins.Restorable) : Restorable (update m txid coins.kept) := by
  intro other c found
  by_cases same : other = txid
  · rw [same, update_self] at found
    exact here.kept found
  · rw [update_of_ne same] at found
    exact restorable other c found

theorem Restorable.spend (out : COutPoint) : (m.spend out).Restorable := by
  unfold CoinsMap.spend
  cases spent : (m out.hash).bind (·.spend out.n) with
  | none => exact restorable
  | some _ =>
    obtain ⟨_, found, removed⟩ := bind_eq_some_iff.1 spent
    exact restorable.update ((restorable _ _ found).spend removed)

theorem Restorable.spendInputs (tx : CTransaction) : (m.spendInputs tx).Restorable := by
  unfold CoinsMap.spendInputs
  split
  · exact restorable
  · exact foldlRecOn tx.vin _ restorable fun _ kept txin _ => kept.spend txin.prevout

theorem Restorable.apply (formed : WellFormed tx)
    {nHeight : Int32} (positive : 0 < nHeight) : (m.apply nHeight tx).Restorable :=
  (restorable.spendInputs tx).update (restorable_fromTx formed positive)

end

end CoinsMap

section Inputs
variable {c c' : CCoinsViewCache} {m m' : CoinsMap} {undo : CTxUndo}

theorem applyTxInUndo_spec (view : c.Shows m') (undo : CTxInUndo) (out : COutPoint) :
    ∃ held c', seen isPruned (some held) = m' out.hash ∧
      applyTxInUndo undo c out = ((undo.restore out.n held).1, c') ∧
      c'.Shows (update m' out.hash (undo.restore out.n held).2.kept) :=
  ⟨(c.modifyCoins out.hash).1.value, _, view.modifyCoins_value out.hash, rfl,
    view.modifyCoins_endModify out.hash _⟩

private theorem applyTxInUndo_spent (restorable : coins.Restorable) (there : m out.hash = some coins)
    (found : coins.available out.n = some txout) (spent : coins.spend out.n = some left)
    (view : c.Shows m') (like : m'.Like (m.spend out)) :
    ∃ c' m'', applyTxInUndo (CTxInUndo.ofSpent txout left).image c out = (true, c') ∧ c'.Shows m'' ∧
      m''.Like m := by
  have after : m.spend out = update m out.hash left.kept := by
    rw [CoinsMap.spend, there, bind_some, spent]
    rfl
  rw [after] at like
  obtain ⟨_, c', seen, applied, view'⟩ :=
    applyTxInUndo_spec view (CTxInUndo.ofSpent txout left).image out
  have here := like out.hash
  rw [← seen, update_self] at here
  obtain ⟨clean, restored⟩ := CTxInUndo.restore_spent restorable found spent here
  refine ⟨c', _, applied.trans (by rw [clean]), view', ?_⟩
  have back := like.update out.hash restored
  rwa [update_idem, ← there, update_eq_self] at back

theorem applyTxInUndos_append : applyTxInUndos (first ++ second) c =
      ((applyTxInUndos first c).1 && (applyTxInUndos second (applyTxInUndos first c).2).1,
        (applyTxInUndos second (applyTxInUndos first c).2).2) := by
  induction first generalizing c with
  | nil => rfl
  | cons _ _ ih => simp [applyTxInUndos, ih, Bool.and_assoc]

private theorem applyTxInUndos_spent (restorable : m.Restorable) (view : c.Shows m)
    (spent : spendInputs c vin = some (undo, c')) (shows : back.Shows m')
    (like : m'.Like (vin.foldl (fun m txin => CoinsMap.spend m txin.prevout) m)) :
    ∃ back' m'', applyTxInUndos ((undo.map CTxInUndo.image).zip vin).reverse back = (true, back') ∧
      back'.Shows m'' ∧ m''.Like m := by
  induction vin generalizing c m undo with
  | nil =>
    cases spent
    exact ⟨back, m', rfl, shows, like⟩
  | cons txin _ ih =>
    obtain ⟨_, _, _, head, last, rfl⟩ := spendInputs_cons spent
    obtain ⟨_, _, _, there, found, removed, rfl, view₁⟩ := spendInput_spec view head
    obtain ⟨_, _, undone, shows₁, like₁⟩ := ih (restorable.spend txin.prevout) view₁ last like
    obtain ⟨back₂, m₂, applied, shows₂, like₂⟩ :=
      applyTxInUndo_spent (restorable _ _ there) there found removed shows₁ like₁
    refine ⟨back₂, m₂, ?_, shows₂, like₂⟩
    rw [map_cons, zip_cons_cons, reverse_cons, applyTxInUndos_append, undone]
    simp [applyTxInUndos, applied]

private theorem storable_ofSpent {coins left : CCoins} {out : CTxOut}
    (restorable : coins.Restorable) (found : coins.available n = some out)
    (spent : coins.spend n = some left) (value : moneyRange out.nValue) :
    (CTxInUndo.ofSpent out left).Storable := by
  have script := restorable.scripts n.toNat out found
  unfold CTxInUndo.ofSpent
  split
  · refine ⟨value, script, ?_⟩
    have positive := Int32.lt_iff_toInt_lt.1 (restorable.spend spent).height
    have bits : left.nHeight.toInt = if 2 * left.nHeight.toUInt32.toNat < 2 ^ 32 then
        (left.nHeight.toUInt32.toNat : ℤ) else left.nHeight.toUInt32.toNat - 2 ^ 32 :=
      BitVec.toInt_eq_toNat_cond left.nHeight.toBitVec
    have bound := left.nHeight.toUInt32.toNat_lt
    change (0 : ℤ) < _ at positive
    dsimp only
    split at bits <;> omega
  · exact ⟨value, script, Nat.two_pow_pos 31⟩

theorem spendInputs_storable (restorable : m.Restorable) (view : c.Shows m)
    (values : ∀ txin ∈ vin, ∀ out, m.output txin.prevout = some out → moneyRange out.nValue)
    (spent : spendInputs c vin = some (undo, c')) : ∀ u ∈ undo, u.Storable := by
  induction vin generalizing c m undo with
  | nil =>
    cases spent
    simp
  | cons txin _ ih =>
    obtain ⟨_, _, _, head, last, rfl⟩ := spendInputs_cons spent
    obtain ⟨_, out, _, there, found, removed, rfl, view₁⟩ := spendInput_spec view head
    obtain ⟨value, later⟩ := forall_mem_cons.1 values
    refine forall_mem_cons.2 ⟨?_, ?_⟩
    · refine storable_ofSpent (restorable _ _ there) found removed (value out ?_)
      rw [CoinsMap.output, there, bind_some, found]
    refine ih (restorable.spend txin.prevout) view₁ (fun other mem txout output => ?_) last
    rw [CoinsMap.output_spend] at output
    split at output
    · cases output
    · exact later other mem txout output

end Inputs

section Transactions
variable {ctx : ConnectContext} {c c' back : CCoinsViewCache} {m m' : CoinsMap} {tx : CTransaction}
  {nHeight : Int32} {txundo : CTxUndo}

/-- The undo data that `DisconnectBlock` has for a transaction. -/
def readBack (tx : CTransaction) (txundo : CTxUndo) : Option CTxUndo :=
  if tx.isCoinBase then none else some (txundo.map CTxInUndo.image)

private theorem disconnectTx_updated (restorable : m.Restorable) (formed : WellFormed tx)
    (view : c.Shows m) (new : m.spendInputs tx tx.hash = none)
    (updated : updateCoins tx c nHeight = some (txundo, c')) (shows : back.Shows m')
    (like : m'.Like (m.apply nHeight tx)) :
    ∃ back' m'', disconnectTransaction nHeight tx (readBack tx txundo) back = .ok (true, back') ∧
      back'.Shows m'' ∧ m''.Like m := by
  obtain ⟨_, spent, -⟩ := updateCoins_eq_some updated
  have value := shows.modifyCoins_value tx.hash
  have removed := shows.modifyCoins_endModify tx.hash .empty
  have here := like tx.hash
  rw [← value, CoinsMap.apply, update_self] at here
  have clean := matchesTx_of_like formed.values here
  have before : CoinsMap.Like (update m' tx.hash CCoins.empty.kept) (m.spendInputs tx) := by
    have rel : Option.Rel CCoins.Like CCoins.empty.kept (m.spendInputs tx tx.hash) := by
      rw [new]
      exact .none
    have gone := like.update tx.hash rel
    rwa [CoinsMap.apply, update_idem, update_eq_self] at gone
  unfold disconnectTransaction readBack
  generalize back.modifyCoins tx.hash = opened at clean removed
  unfold CoinsMap.spendInputs at before
  by_cases coinbase : tx.isCoinBase
  · rw [if_pos coinbase] at before ⊢
    exact ⟨_, _, by simp only [clean], removed, before⟩
  rw [if_neg coinbase] at before spent ⊢
  have length := (spendInputs_spec view spent).1
  obtain ⟨back₂, m₂, undone, shows₂, like₂⟩ := applyTxInUndos_spent restorable view spent removed before
  refine ⟨back₂, m₂, ?_, shows₂, like₂⟩
  simp only [length_map, length, ne_eq, not_true_eq_false, if_false, clean]
  rw [undone]
  rfl

/-- Turns of the loop in `DisconnectBlock` lead from coins like `m₁` back to coins like `m`. -/
def Undoes (nHeight : Int32) (turns : List (CTransaction × Option CTxUndo)) (m₁ m : CoinsMap) :
    Prop :=
  ∀ back m', back.Shows m' → m'.Like m₁ → ∃ back' m'',
    disconnectTransactions nHeight turns back = .ok (true, back') ∧ back'.Shows m'' ∧ m''.Like m

theorem Undoes.nil (m : CoinsMap) : Undoes nHeight [] m m :=
  fun back m' shows like => ⟨back, m', rfl, shows, like⟩

theorem disconnectTxs_cons :
    disconnectTransactions nHeight ((tx, undo) :: rest) c = .ok (true, c') ↔
      ∃ c₁, disconnectTransaction nHeight tx undo c = .ok (true, c₁) ∧
        disconnectTransactions nHeight rest c₁ = .ok (true, c') := by
  rw [disconnectTransactions]
  constructor
  · intro done
    obtain ⟨⟨_, c₁⟩, head, tail⟩ := bind_eq_ok.1 done
    obtain ⟨⟨_, _⟩, last, result⟩ := bind_eq_ok.1 tail
    simp only [ok.injEq, Prod.mk.injEq, and_eq_true] at result
    obtain ⟨⟨rfl, rfl⟩, rfl⟩ := result
    exact ⟨c₁, head, last⟩
  · rintro ⟨c₁, head, last⟩
    simp [head, last, ok_bind]

variable {first second : List (CTransaction × Option CTxUndo)}

theorem disconnectTxs_append
    (head : disconnectTransactions nHeight first c = .ok (true, c₁))
    (last : disconnectTransactions nHeight second c₁ = .ok (true, c')) :
    disconnectTransactions nHeight (first ++ second) c = .ok (true, c') := by
  induction first generalizing c with
  | nil =>
    cases head
    exact last
  | cons _ _ ih =>
    obtain ⟨c₂, one, others⟩ := disconnectTxs_cons.1 head
    exact disconnectTxs_cons.2 ⟨c₂, one, ih others⟩

theorem Undoes.append (last : Undoes nHeight first m₂ m₁) (others : Undoes nHeight second m₁ m) :
    Undoes nHeight (first ++ second) m₂ m := by
  intro back m' shows like
  obtain ⟨back₁, m₁, head, shows₁, like₁⟩ := last back m' shows like
  obtain ⟨back₂, m₂, tail, shows₂, like₂⟩ := others back₁ m₁ shows₁ like₁
  exact ⟨back₂, m₂, disconnectTxs_append head tail, shows₂, like₂⟩

private theorem undoes_updateCoins (restorable : m.Restorable) (formed : WellFormed tx) (view : c.Shows m)
    (new : m.spendInputs tx tx.hash = none)
    (updated : updateCoins tx c nHeight = some (txundo, c')) :
    Undoes nHeight [(tx, readBack tx txundo)] (m.apply nHeight tx) m := by
  intro _ _ shows like
  obtain ⟨back', m'', undone, after⟩ :=
    disconnectTx_updated restorable formed view new updated shows like
  exact ⟨back', m'', disconnectTxs_cons.2 ⟨back', undone, rfl⟩, after⟩

theorem updateCoins_storable (restorable : m.Restorable) (formed : WellFormed tx)
    (view : s.view.Shows m) (checked : Checked ctx tx s s₁)
    (updated : updateCoins tx s₁.view nHeight = some (txundo, c')) :
    txundo.length ≤ MAX_SIZE ∧ ∀ u ∈ txundo, u.Storable := by
  obtain ⟨_, spent, -⟩ := updateCoins_eq_some updated
  by_cases coinbase : tx.isCoinBase
  · rw [if_pos coinbase] at spent
    cases spent
    exact ⟨zero_le _, by simp⟩
  rw [if_neg coinbase] at spent
  have view₁ := checked.filled.shows view
  refine ⟨?_, spendInputs_storable restorable view₁ (fun txin mem _ output => ?_) spent⟩
  · rw [(spendInputs_spec view₁ spent).1]
    exact formed.lengths.1.trans (by decide)
  · rw [← view.output] at output
    exact (checked.spendable (not_eq_true _ ▸ coinbase) txin mem).moneyRange output

private theorem connectTxs_undoes {first : Bool}
    (positive : 0 < ctx.nHeight) (restorable : m.Restorable) (formed : ∀ tx ∈ vtx, WellFormed tx)
    (view : s.view.Shows m) (new : m.NoOverwrite ctx.nHeight vtx)
    (connected : connectTransactions ctx first vtx s = .ok s') :
    ∃ undos : CBlockUndo, s'.vtxundo = s.vtxundo ++ (if first then undos.tail else undos) ∧
      undos.length = vtx.length ∧
      (∀ txundo ∈ undos, txundo.length ≤ MAX_SIZE ∧ ∀ u ∈ txundo, u.Storable) ∧
      s'.view.Shows (vtx.foldl (CoinsMap.apply ctx.nHeight) m) ∧
      Undoes ctx.nHeight (zipWith (fun tx u => (tx, readBack tx u)) vtx undos).reverse
        (vtx.foldl (CoinsMap.apply ctx.nHeight) m) m := by
  induction vtx generalizing first s m with
  | nil =>
    cases connected
    exact ⟨[], by simp, rfl, by simp, view, .nil m⟩
  | cons tx _ ih =>
    obtain ⟨_, head, tail⟩ := bind_eq_ok.1 connected
    obtain ⟨_, txundo, checked, updated, -, undos⟩ := connectTx_eq_ok head
    obtain ⟨one, others⟩ := forall_mem_cons.1 formed
    have view₁ := checked.filled.shows view
    have view₂ := updateCoins_spec view₁ (fun _ => new.1) updated
    obtain ⟨more, vtxundo, length, storable, shown, back⟩ :=
      ih (restorable.apply one positive) others view₂ new.2 tail
    refine ⟨txundo :: more, ?_, congrArg (· + 1) length, ?_, shown, ?_⟩
    · rw [vtxundo, undos]
      cases first <;> simp
    · exact forall_mem_cons.2 ⟨updateCoins_storable restorable one view checked updated, storable⟩
    · rw [zipWith_cons_cons, reverse_cons]
      exact back.append (undoes_updateCoins restorable one view₁ new.1 updated)

end Transactions

section Block
variable {ctx : ConnectContext} {block : CBlock} {c c' : CCoinsViewCache} {m : CoinsMap}
  {undo : CBlockUndo}

theorem undoReadFromDisk_written (keys : PubKeys) (hasher : List UInt8 → UInt256)
    (hashBlock : UInt256) (more : List UInt8) (small : undo.length ≤ MAX_SIZE)
    (each : ∀ tx ∈ undo, tx.length ≤ MAX_SIZE ∧ ∀ u ∈ tx, u.Storable) :
    undoReadFromDisk keys hasher hashBlock (undoWriteToDisk keys hasher hashBlock undo ++ more) =
      some undo.image := by
  unfold undoReadFromDisk undoWriteToDisk
  rw [append_assoc, reads small each]
  simp only [bind_eq_bind, bind_some]
  rw [reads_littleEndian 32 _ (BitVec.isLt _)]
  simp [serialize_image]

private theorem zipWith_readBack (spend : ∀ tx ∈ vtx, tx.isCoinBase = false) (undos : CBlockUndo) :
    zipWith (fun tx u => (tx, readBack tx u)) vtx undos = vtx.zip (undos.image.map some) := by
  induction vtx generalizing undos with
  | nil => rfl
  | cons tx _ ih =>
    obtain ⟨one, others⟩ := forall_mem_cons.1 spend
    cases undos with
    | nil => rfl
    | cons _ more =>
      rw [zipWith_cons_cons, ih others more, readBack, one]
      rfl

theorem connectBlock_undone (keys : PubKeys) (hasher : List UInt8 → UInt256)
    (more : List UInt8) (view : c.Shows m) (restorable : m.Restorable) (positive : 0 < ctx.nHeight)
    (later : block.hash ≠ ctx.hashGenesisBlock) (new : m.NoOverwrite ctx.nHeight block.vtx)
    (connected : connectBlock ctx block c = .ok (c', undo)) :
    ∃ blockundo back m', undoReadFromDisk keys hasher ctx.hashPrevBlock
        (undoWriteToDisk keys hasher ctx.hashPrevBlock undo ++ more) = some blockundo ∧
      blockundo.length + 1 = block.vtx.length ∧
      disconnectTransactions ctx.nHeight (block.vtx.zip (none :: blockundo.map some)).reverse c' =
        .ok (true, back) ∧
      back.Shows m' ∧ (∀ txid, Option.Rel CCoins.Same (m' txid) (m txid)) ∧
      (ctx.fJustCheck = false → block.hash ≠ 0 → disconnectBlock keys hasher ctx block
            (undoWriteToDisk keys hasher ctx.hashPrevBlock undo ++ more) c' =
          .ok (true, back.setBestBlock ctx.hashPrevBlock)) := by
  obtain ⟨formed, _, s, filled, loop, -, rfl, rfl⟩ := connectBlock_eq_ok later connected
  obtain ⟨tx, _, vtx, coinbase, others⟩ := formed.coinbase
  have shows := filled.shows view.getBestBlock
  obtain ⟨undos, vtxundo, length, storable, after, undoes⟩ :=
    connectTxs_undoes positive restorable formed.each shows new loop
  obtain ⟨first, undos, rfl⟩ : ∃ first rest', undos = first :: rest' := by
    cases undos with
    | nil => rw [vtx] at length; cases length
    | cons first rest' => exact ⟨first, rest', rfl⟩
  have same : s.vtxundo = undos := vtxundo
  have count : undos.length + 1 = block.vtx.length := length
  have read := undoReadFromDisk_written keys hasher ctx.hashPrevBlock more
    (by have := formed.length; unfold MAX_BLOCK_BASE_SIZE at this; unfold MAX_SIZE; omega)
    (forall_mem_cons.1 storable).2
  have turns : zipWith (fun tx u => (tx, readBack tx u)) block.vtx (first :: undos) =
      block.vtx.zip (none :: (image undos).map some) := by
    rw [vtx, zipWith_cons_cons, zipWith_readBack others, readBack, if_pos coinbase]
    rfl
  rw [turns] at undoes
  have connected' : CCoinsViewCache.Shows
      (if ctx.fJustCheck then s.view else s.view.setBestBlock block.hash)
      (block.vtx.foldl (CoinsMap.apply ctx.nHeight) m) := by
    split
    · exact after
    · exact after.setBestBlock block.hash
  obtain ⟨back, m', undone, shows', like⟩ := undoes _ _ connected' (.refl _)
  rw [same]
  refine ⟨_, back, m', read, by rw [image, length_map, count], undone, shows',
    like.same, fun whole nonzero => ?_⟩
  rw [whole] at undone ⊢
  have tip : (s.view.setBestBlock block.hash).getBestBlock =
      (block.hash, s.view.setBestBlock block.hash) := if_neg nonzero
  simp only [false_eq_true, if_false, disconnectBlock, tip, ne_eq, not_true_eq_false, read,
    image, length_map, count] at undone ⊢
  rw [undone]
  rfl

/-- Connecting a block and disconnecting it with the undo data read back from the disk leaves
every transaction's coins as they were, up to a version that is negative. -/
theorem disconnectBlock_connectBlock (keys : PubKeys) (hasher : List UInt8 → UInt256)
    (more : List UInt8) (view : c.Shows m) (restorable : m.Restorable) (positive : 0 < ctx.nHeight)
    (later : block.hash ≠ ctx.hashGenesisBlock) (new : m.NoOverwrite ctx.nHeight block.vtx)
    (connected : connectBlock ctx block c = .ok (c', undo)) :
    ∃ blockundo back m', undoReadFromDisk keys hasher ctx.hashPrevBlock
        (undoWriteToDisk keys hasher ctx.hashPrevBlock undo ++ more) = some blockundo ∧
      blockundo.length + 1 = block.vtx.length ∧
      disconnectTransactions ctx.nHeight (block.vtx.zip (none :: blockundo.map some)).reverse c' =
        .ok (true, back) ∧
      back.Shows m' ∧ (∀ txid, Option.Rel CCoins.Same (m' txid) (m txid)) ∧
      (ctx.fJustCheck = false → block.hash ≠ 0 → disconnectBlock keys hasher ctx block
            (undoWriteToDisk keys hasher ctx.hashPrevBlock undo ++ more) c' =
          .ok (true, back.setBestBlock ctx.hashPrevBlock)) :=
  connectBlock_undone keys hasher more view restorable positive later new connected

theorem plainView_restorable : CoinsMap.Restorable plainView.toView.shown := by
  intro _ _ found
  rw [shown_plainView found]
  refine ⟨by decide, by decide, fun _ _ here => ?_⟩
  have mem := mem_of_getElem? (unspent_eq_some.1 here).1
  rw [mem_singleton.1 mem]
  exact zero_le _

theorem disconnectBlock_plainBlock : ∃ c' undo back,
    connectBlock (plainContext 9 2) plainBlock plainView = .ok (c', undo) ∧
    disconnectBlock noKeys (fun _ => 0) (plainContext 9 2) plainBlock
      (undoWriteToDisk noKeys (fun _ => 0) 2 undo ++ []) c' = .ok (true, back) := by
  have shows : plainView.Shows plainView.toView.shown := CCoinsViewCache.shows_ofBase trivial
  have new : CoinsMap.NoOverwrite (plainContext 9 2).nHeight plainView.toView.shown plainBlock.vtx :=
    ⟨by decide, by decide, by decide, trivial⟩
  obtain ⟨⟨c', undo⟩, connected⟩ : ∃ r,
      connectBlock (plainContext 9 2) plainBlock plainView = .ok r := ⟨_, rfl⟩
  obtain ⟨_, back, _, -, -, -, -, -, whole⟩ := disconnectBlock_connectBlock noKeys (fun _ => 0) []
    shows plainView_restorable (by decide) (by decide) new connected
  exact ⟨c', undo, _, connected, whole rfl (by decide)⟩

end Block

end DogecoinCore.Coins
