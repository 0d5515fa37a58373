import DogecoinCore.ConnectChecks
import Mathlib.Algebra.BigOperators.Group.Finset.Piecewise
import Mathlib.Algebra.Order.BigOperators.Group.Finset

/-! A block creates no more than its subsidy. The total of a view is followed through the loop of
`ConnectBlock` together with what fresh entries hide: without the check for BIP 30 a
transaction can be added over coins of the level below, and those come back when all its
outputs are spent. -/
namespace DogecoinCore.Coins
open List Option DogecoinCore.Coins.CCoinsViewCache CCoins CCoinsView Function Int32
open WriteBack

def amount (out : CTxOut) : ℤ := if out.isNull then 0 else out.nValue.toInt

theorem amount_null : amount .null = 0 := rfl
theorem amount_of_isNull (null : out.isNull) : amount out = 0 := if_pos null

theorem amount_of_moneyRange (range : moneyRange out.nValue) :
    0 ≤ amount out ∧ amount out ≤ out.nValue.toInt := by
  have bounds := moneyRange_iff.1 range
  unfold amount
  split <;> omega

namespace CCoins
variable {c left : CCoins}

def total (c : CCoins) : ℤ := (c.vout.map amount).sum

def Valued (c : CCoins) : Prop := ∀ out ∈ c.vout, 0 ≤ amount out

theorem Valued.total_nonneg (valued : c.Valued) : 0 ≤ c.total := by
  refine sum_nonneg fun _ mem => ?_
  obtain ⟨out, inside, rfl⟩ := List.mem_map.1 mem
  exact valued out inside

theorem total_eq_zero (pruned : c.isPruned) : c.total = 0 := by
  refine sum_eq_zero fun _ mem => ?_
  obtain ⟨out, inside, rfl⟩ := List.mem_map.1 mem
  exact amount_of_isNull (List.all_eq_true.1 pruned out inside)

theorem valued_of_isPruned (pruned : c.isPruned) : c.Valued :=
  fun out inside => (amount_of_isNull (List.all_eq_true.1 pruned out inside)).ge

theorem valued_of_moneyRange
    (values : ∀ out ∈ c.vout, out.isNull = false → moneyRange out.nValue) : c.Valued := by
  intro out inside
  cases null : out.isNull with
  | true => exact (amount_of_isNull null).ge
  | false => exact (amount_of_moneyRange (values out inside null)).1

theorem total_cleanup : c.cleanup.total = c.total := by
  have parts : c.cleanup.vout ++ c.vout.rtakeWhile (·.isNull) = c.vout :=
    rdropWhile_append_rtakeWhile
  have dropped : ((c.vout.rtakeWhile (·.isNull)).map amount).sum = 0 := by
    refine sum_eq_zero fun _ mem => ?_
    obtain ⟨_, inside, rfl⟩ := List.mem_map.1 mem
    exact amount_of_isNull (mem_rtakeWhile_imp inside)
  rw [total, total, ← parts, map_append, List.sum_append, dropped, add_zero]

theorem Valued.cleanup (valued : c.Valued) : c.cleanup.Valued := by
  intro out inside
  have held := rdropWhile_prefix _ c.vout |>.subset inside
  exact valued out held

theorem total_spend (spent : c.spend n = some left) (found : c.available n = some out) :
    left.total = c.total - out.nValue.toInt := by
  obtain ⟨rfl, -⟩ := spend_eq_some spent
  obtain ⟨here, there⟩ := unspent_eq_some.1 found
  obtain ⟨_, is⟩ := List.getElem?_eq_some_iff.1 here
  have value : amount out = out.nValue.toInt := by rw [amount, there]; rfl
  have length : n.toNat < (c.vout.map amount).length := by rwa [length_map]
  rw [total_cleanup, total, total, map_set, sum_set', dif_pos length, getElem_map,
    is, value, amount_null]
  omega

theorem Valued.spend (valued : c.Valued) (spent : c.spend n = some left) : left.Valued := by
  obtain ⟨rfl, -⟩ := spend_eq_some spent
  refine Valued.cleanup fun out inside => ?_
  rcases mem_or_eq_of_mem_set inside with old | rfl
  · exact valued out old
  · exact le_rfl

variable {tx : CTransaction} {nHeight : Int32}

section
variable (values : ∀ out ∈ tx.vout, moneyRange out.nValue = true)
include values

theorem valued_fromTx :
    (fromTx tx nHeight).Valued := by
  refine Valued.cleanup fun out inside => ?_
  obtain ⟨txout, mem, rfl⟩ := List.mem_map.1 inside
  split
  · exact le_rfl
  · exact (amount_of_moneyRange (values txout mem)).1

theorem total_fromTx :
    (fromTx tx nHeight).total ≤ valueOut tx.vout := by
  rw [fromTx, clearUnspendable, total_cleanup, total, valueOut, List.map_map]
  refine sum_le_sum fun txout mem => ?_
  obtain ⟨low, high⟩ := amount_of_moneyRange (values txout mem)
  simp only [comp_apply]
  split
  · exact low.trans high
  · exact high

end

end CCoins

def total (found : Option CCoins) : ℤ := found.elim 0 CCoins.total

theorem total_seen : total (seen CCoins.isPruned found) = total found := by
  cases found with
  | none => rfl
  | some coins =>
    cases pruned : coins.isPruned with
    | true =>
      rw [seen_some_of_gone pruned]
      exact (CCoins.total_eq_zero pruned).symm
    | false => rw [seen_some_of_there pruned]

namespace CCoinsView
def txids : CCoinsView → Finset UInt256
  | .db coins _ => coins.keys.toFinset
  | .cache cacheCoins _ base => cacheCoins.keys.toFinset ∪ base.txids

def totalAmount (v : CCoinsView) : ℤ := ∑ txid ∈ v.txids, total (v.shown txid)

theorem peek_eq_none {v : CCoinsView} (missing : txid ∉ v.txids) : v.peek txid = none := by
  induction v with
  | db _ _ =>
    exact AList.lookup_eq_none.2 fun mem => missing (List.mem_toFinset.2 mem)
  | cache _ _ _ ih =>
    obtain ⟨top, below⟩ := not_or.1 (missing ∘ Finset.mem_union.2)
    have here := AList.lookup_eq_none.2 fun mem => top (List.mem_toFinset.2 mem)
    rw [peek, here, read_none, ih below]

private theorem totalAmount_eq {v : CCoinsView} (all : ∀ txid, txid ∉ S → v.peek txid = none) :
    v.totalAmount = ∑ txid ∈ S, total (v.peek txid) := by
  have zero : ∀ txid, v.peek txid = none → total (v.peek txid) = 0 := by
    intro txid missing
    rw [missing]
    rfl
  calc v.totalAmount = ∑ txid ∈ v.txids, total (v.peek txid) :=
        Finset.sum_congr rfl fun txid _ => total_seen
    _ = ∑ txid ∈ v.txids ∪ S, total (v.peek txid) :=
        Finset.sum_subset Finset.subset_union_left fun txid _ missing => zero txid (peek_eq_none missing)
    _ = ∑ txid ∈ S, total (v.peek txid) :=
        (Finset.sum_subset Finset.subset_union_right fun txid _ missing =>
          zero txid (all txid missing)).symm

theorem totalAmount_congr {v w : CCoinsView} (same : ∀ txid, w.peek txid = v.peek txid) :
    w.totalAmount = v.totalAmount := by
  have all : ∀ txid, txid ∉ v.txids → w.peek txid = none :=
    fun txid missing => (same txid).trans (peek_eq_none missing)
  rw [totalAmount_eq all, totalAmount_eq fun txid => peek_eq_none]
  exact Finset.sum_congr rfl fun txid _ => congrArg total (same txid)

end CCoinsView

/-- What an entry shows and what it hides, if it claims that there is nothing below. -/
def worth (e : Option CCoinsCacheEntry) (below : Option CCoins) : ℤ :=
  total (read e below) + if e.any (·.fresh) then total below else 0

/-- What holds of an entry all through a block, although a fresh one may hide coins. -/
structure Accounted (e : Option CCoinsCacheEntry) (below : Option CCoins) : Prop where
  shown : ∀ coins, read e below = some coins → coins.Valued
  hidden : (∀ x, e = some x → x.fresh = true) → ∀ coins, below = some coins → coins.Valued
  clean : ∀ x, e = some x → x.dirty = false → seen isPruned (some x.value) = seen isPruned below

section Entry
variable {below : Option CCoins}

theorem worth_none : worth none below = total below := add_zero _
theorem worth_some : worth (some x) below = x.value.total + if x.fresh then total below else 0 := rfl

theorem total_nonneg (valued : ∀ coins, found = some coins → coins.Valued) : 0 ≤ total found := by
  cases found with
  | none => exact le_rfl
  | some coins => exact (valued coins rfl).total_nonneg

private theorem worth_of_sound (sound : Sound CCoins.isPruned e below) :
    worth e below = total (read e below) := by
  cases e with
  | none => exact worth_none
  | some x =>
    rw [worth_some, read_some]
    split
    · next fresh =>
      rw [← total_seen, sound.fresh x rfl fresh]
      exact add_zero _
    · exact add_zero _

theorem accounted_of_sound (sound : Sound isPruned e below)
    (valued : ∀ coins, seen isPruned (read e below) = some coins → coins.Valued) :
    Accounted e below := by
  have valued' : ∀ coins, read e below = some coins → coins.Valued := by
    intro coins found
    cases pruned : coins.isPruned with
    | true => exact valued_of_isPruned pruned
    | false => exact valued coins (seen_eq_some.2 ⟨found, pruned⟩)
  refine ⟨valued', fun fresh coins found => ?_, sound.clean⟩
  cases e with
  | none => exact valued' coins found
  | some x =>
    exact valued_of_isPruned (seen_eq_none.1 (sound.fresh x rfl (fresh x rfl)) coins found)

theorem worth_filled :
    worth (some (filled CCoins.isPruned coins)) (some coins) = worth none (some coins) := by
  rw [worth_none, worth_some]
  split
  · next pruned =>
    have zero : total (some coins) = 0 := CCoins.total_eq_zero pruned
    rw [zero]
    exact (add_zero _).trans zero
  · exact add_zero _

theorem Accounted.filled (accounted : Accounted none (some coins)) :
    Accounted (some (filled isPruned coins)) (some coins) := by
  refine ⟨accounted.shown, fun _ => accounted.shown, ?_⟩
  rintro _ ⟨⟩ -
  rfl

private theorem worth_opened : worth (some (opened CCoins.isPruned .empty e below)) below = worth e below := by
  cases e with
  | some _ => rfl
  | none =>
    cases below with
    | none => rfl
    | some _ => exact worth_filled

private theorem worth_settled : worth (settled isPruned x) below = worth (some x) below := by
  unfold settled
  split
  · next both =>
    rw [Bool.and_eq_true] at both
    rw [worth_none, worth_some, total_eq_zero both.2, if_pos both.1, zero_add]
  · rfl

theorem Accounted.settled (dirty : x.dirty) (valued : x.value.Valued)
    (hidden : x.fresh → ∀ coins, below = some coins → coins.Valued) :
    Accounted (settled isPruned x) below := by
  unfold WriteBack.settled
  split
  · next both =>
    rw [Bool.and_eq_true] at both
    exact ⟨hidden both.1, fun _ => hidden both.1, nofun⟩
  refine ⟨?_, fun fresh => hidden (fresh x rfl), ?_⟩
  · rintro coins ⟨⟩
    exact valued
  rintro _ ⟨⟩ clean
  rw [dirty] at clean
  cases clean

theorem Accounted.opened_fresh (accounted : Accounted e below)
    (fresh : (opened isPruned .empty e below).fresh) :
    ∀ coins, below = some coins → coins.Valued := by
  cases e with
  | none => exact accounted.shown
  | some _ =>
    refine accounted.hidden ?_
    rintro _ ⟨⟩
    exact fresh

theorem Accounted.opened_valued (accounted : Accounted e below) :
    (opened isPruned .empty e below).value.Valued := by
  cases e with
  | some x => exact accounted.shown x.value rfl
  | none =>
    cases below with
    | some coins => exact accounted.shown coins rfl
    | none => exact nofun

end Entry

namespace CCoinsViewCache
variable {c c' : CCoinsViewCache} {txid : UInt256}

def worth (c : CCoinsViewCache) (txid : UInt256) : ℤ :=
  Coins.worth (c.cacheCoins.lookup txid) (c.base.peek txid)

structure Accounted (c : CCoinsViewCache) (S : Finset UInt256) : Prop where
  each : ∀ txid, Coins.Accounted (c.cacheCoins.lookup txid) (c.base.peek txid)
  inside : ∀ txid, txid ∉ S → c.toView.peek txid = none

def worthOf (c : CCoinsViewCache) (S : Finset UInt256) : ℤ := ∑ txid ∈ S, c.worth txid

variable {S : Finset UInt256}

section
variable (accounted : c.Accounted S)
include accounted

theorem Accounted.fetchCoins (txid : UInt256) :
    (c.fetchCoins txid).2.Accounted S ∧ (c.fetchCoins txid).2.worthOf S = c.worthOf S := by
  have peek : ∀ other, (c.fetchCoins txid).2.toView.peek other = c.toView.peek other := by
    intro other
    rw [(fetchCoins_eq c txid).2, peek_getCoins]
  have entries : ∀ other, Coins.Accounted ((c.fetchCoins txid).2.cacheCoins.lookup other)
      ((c.fetchCoins txid).2.base.peek other) ∧ (c.fetchCoins txid).2.worth other = c.worth other := by
    intro other
    unfold CCoinsViewCache.fetchCoins worth
    cases found : c.cacheCoins.lookup txid with
    | some _ => exact ⟨accounted.each other, rfl⟩
    | none =>
      simp only [peek_getCoins, getCoins_fst, CCoinsMap.lookup_fill c.cacheCoins txid other _ found]
      by_cases same : other = txid
      · subst same
        have here := accounted.each other
        rw [found] at here
        rw [if_pos rfl, found]
        cases below : c.base.peek other with
        | none =>
          rw [below] at here
          exact ⟨here, rfl⟩
        | some _ =>
          rw [below] at here
          exact ⟨here.filled, worth_filled⟩
      · rw [if_neg same]
        exact ⟨accounted.each other, rfl⟩
  refine ⟨⟨fun other => (entries other).1, fun other outside => ?_⟩, ?_⟩
  · rw [peek other, accounted.inside other outside]
  · exact Finset.sum_congr rfl fun other _ => (entries other).2

theorem Accounted.filled (filled : c.Filled c') : c'.Accounted S ∧ c'.worthOf S = c.worthOf S := by
  induction filled with
  | refl => exact ⟨accounted, rfl⟩
  | tail _ step ih =>
    obtain ⟨txid, rfl⟩ := step
    obtain ⟨next, same⟩ := ih.1.fetchCoins txid
    exact ⟨next, same.trans ih.2⟩

theorem Accounted.endModify (mem : txid ∈ S) (dirty : it.dirty) (valued : it.value.Valued)
    (hidden : it.fresh → ∀ coins, c.base.peek txid = some coins → coins.Valued) :
    (c.endModify txid it).Accounted S ∧ (c.endModify txid it).worthOf S =
      c.worthOf S - c.worth txid + Coins.worth (some it) (c.base.peek txid) := by
  have entry : (c.endModify txid it).worth = update c.worth txid
      (Coins.worth (some it) (c.base.peek txid)) := by
    funext other
    unfold worth
    rw [lookup_endModify, base_endModify]
    by_cases same : other = txid
    · subst same
      rw [if_pos rfl, update_self, worth_settled, worth_some, worth_some, total_cleanup]
    · rw [if_neg same, update_of_ne same]
  refine ⟨⟨fun other => ?_, fun other outside => ?_⟩, ?_⟩
  · rw [lookup_endModify, base_endModify]
    split
    · next same =>
      subst same
      exact .settled dirty valued.cleanup hidden
    · exact accounted.each other
  · have ne : other ≠ txid := fun same => outside (same ▸ mem)
    rw [toView, peek, lookup_endModify, base_endModify, if_neg ne]
    exact accounted.inside other outside
  rw [worthOf, entry, Finset.sum_update_of_mem mem, worthOf,
    ← Finset.sum_sdiff (Finset.singleton_subset_iff.2 mem), Finset.sum_singleton]
  omega

theorem Accounted.modifyCoins (txid : UInt256) :
    (c.modifyCoins txid).2.Accounted S ∧ (c.modifyCoins txid).2.worth = c.worth := by
  refine ⟨⟨fun other => ?_, fun other outside => ?_⟩, funext fun other => ?_⟩
  · rw [cacheCoins_modifyCoins, base_peek_modifyCoins]
    exact accounted.each other
  · rw [toView, peek, cacheCoins_modifyCoins, base_peek_modifyCoins]
    exact accounted.inside other outside
  · rw [worth, cacheCoins_modifyCoins, base_peek_modifyCoins]
    rfl

end

private theorem peek_opened
    (opened : it = opened isPruned .empty (c.cacheCoins.lookup txid) (c.base.peek txid))
    (found : it.value.available n = some out) : c.toView.peek txid = some it.value := by
  rw [toView, peek]
  subst opened
  cases top : c.cacheCoins.lookup txid with
  | some _ => rfl
  | none =>
    rw [top] at found
    cases below : c.base.peek txid with
    | some _ => rfl
    | none =>
      rw [below] at found
      cases found

end CCoinsViewCache

section Update
variable {tx : CTransaction} {c c' : CCoinsViewCache} {S : Finset UInt256}

private theorem spendInput_worth (accounted : c.Accounted S) (spent : spendInput c txin = some (undo, c')) :
    ∃ out, c.output txin.prevout = some out ∧ c'.Accounted S ∧
      c'.worthOf S = c.worthOf S - out.nValue.toInt ∧
      ∀ other, other ≠ txin.prevout → ∀ o, c.output other = some o → c'.output other = some o := by
  obtain ⟨it, c₁, out, left, modifier, found, removed, -, rfl⟩ := spendInput_eq_some spent
  have opened := (modifyCoins_eq c txin.prevout.hash).1
  obtain ⟨accounted₁, worth₁⟩ := accounted.modifyCoins txin.prevout.hash
  have lookup₁ := cacheCoins_modifyCoins c txin.prevout.hash
  have base₁ := base_peek_modifyCoins c txin.prevout.hash
  rw [modifier] at opened accounted₁ worth₁ lookup₁ base₁
  dsimp only at opened accounted₁ worth₁ lookup₁ base₁
  have peek := peek_opened opened found
  have mem : txin.prevout.hash ∈ S := by
    by_contra outside
    rw [accounted.inside _ outside] at peek
    cases peek
  have each := accounted.each txin.prevout.hash
  have valued : it.value.Valued := by
    rw [opened]
    exact each.opened_valued
  have before : c.worth txin.prevout.hash = worth (some it) (c.base.peek txin.prevout.hash) := by
    rw [opened]
    exact worth_opened.symm
  have dirty : { it with value := left }.dirty := by
    rw [opened]
    exact opened_dirty empty
  obtain ⟨accounted₂, worth₂⟩ := accounted₁.endModify mem dirty (valued.spend removed)
    (by rw [opened, base₁]; exact each.opened_fresh)
  refine ⟨out, ?_, accounted₂, ?_, ?_⟩
  · rw [output, peek]
    exact found
  · have same : c₁.worthOf S = c.worthOf S := by
      rw [worthOf, worth₁]
      rfl
    rw [worth₂, same, worth₁, before, base₁, worth_some, worth_some, total_spend removed found]
    simp only
    omega
  intro other ne o there
  rw [output] at there ⊢
  rw [toView, CCoinsView.peek, lookup_endModify, base_endModify, lookup₁, base₁]
  by_cases hash : other.hash = txin.prevout.hash
  · rw [hash, peek, bind_some] at there
    have n : other.n.toNat ≠ txin.prevout.n.toNat := by
      intro same
      exact ne (COutPoint.ext hash (UInt32.toNat_inj.1 same))
    have stays : left.cleanup.available other.n = some o := by
      have spent' := unspent_spend removed other.n.toNat
      rw [if_neg n, ← unspent_cleanup] at spent'
      exact spent'.trans there
    rw [if_pos hash, settled, isPruned_of_available stays, Bool.and_false]
    exact stays
  · rw [if_neg hash]
    exact there

variable {undo : CTxUndo} {txid : UInt256}

section
variable (accounted : c.Accounted S)
include accounted

private theorem spendInputs_worth
    (distinct : (vin.map (·.prevout)).Nodup) (spent : spendInputs c vin = some (undo, c'))
    (there : ∀ txin ∈ vin, (c.output txin.prevout).isSome) :
    c'.Accounted S ∧ c'.worthOf S = c.worthOf S - c.valueIn vin := by
  induction vin generalizing c undo with
  | nil =>
    cases spent
    exact ⟨accounted, (sub_zero _).symm⟩
  | cons txin rest ih =>
    obtain ⟨_, c₁, _, head, last, rfl⟩ := spendInputs_cons spent
    obtain ⟨out, output, accounted₁, _, kept⟩ := spendInput_worth accounted head
    rw [map_cons, nodup_cons] at distinct
    have same : ∀ other ∈ rest, c₁.output other.prevout = c.output other.prevout := by
      intro other mem
      obtain ⟨o, found⟩ := isSome_iff_exists.1 (there other (mem_cons_of_mem _ mem))
      rw [found]
      refine kept other.prevout (fun again => distinct.1 ?_) o found
      rw [← again]
      exact List.mem_map_of_mem mem
    obtain ⟨accounted₂, _⟩ := ih accounted₁ distinct.2 last fun other mem => by
      rw [same other mem]
      exact there other (mem_cons_of_mem _ mem)
    have values : c₁.valueIn rest = c.valueIn rest := by
      unfold valueIn
      rw [map_congr_left fun other mem => by rw [same other mem]]
    refine ⟨accounted₂, ?_⟩
    have total : c.valueIn (txin :: rest) = out.nValue.toInt + c.valueIn rest := by
      simp [valueIn, output]
    omega

private theorem modifyNewCoins_worth (opened : c.modifyNewCoins txid coinbase = some it) :
    it.dirty ∧ (it.fresh → ∀ coins, c.base.peek txid = some coins → coins.Valued) ∧
      (if it.fresh then total (c.base.peek txid) else 0) ≤ c.worth txid := by
  have each := accounted.each txid
  have shown := total_nonneg each.shown
  unfold CCoinsViewCache.modifyNewCoins at opened
  unfold CCoinsViewCache.worth
  generalize c.base.peek txid = below at each shown ⊢
  cases found : c.cacheCoins.lookup txid with
  | none =>
    rw [found] at opened each shown
    rw [worth_none]
    cases coinbase with
    | true =>
      cases opened
      exact ⟨rfl, nofun, shown⟩
    | false =>
      cases opened
      exact ⟨rfl, fun _ => each.shown, le_rfl⟩
  | some x =>
    rw [found] at opened each shown
    rw [worth_some]
    rw [read_some] at shown
    have same : x.fresh → ∀ coins, below = some coins → coins.Valued := by
      intro fresh
      refine each.hidden ?_
      rintro _ ⟨⟩
      exact fresh
    have low : (if x.fresh then total below else 0) ≤
        x.value.total + if x.fresh then total below else 0 := le_add_of_nonneg_left shown
    cases coinbase with
    | true =>
      cases opened
      exact ⟨rfl, same, low⟩
    | false =>
      simp only [Bool.false_eq_true, if_false, getD_some] at opened
      split at opened
      · cases opened
      next pruned =>
      cases opened
      refine ⟨rfl, ?_⟩
      cases dirty : x.dirty with
      | true =>
        simp only [Bool.not_true, Bool.or_false]
        exact ⟨same, low⟩
      | false =>
        -- A clean entry says what is below, here that nothing is.
        have gone : x.value.isPruned := by simpa using pruned
        have nothing := each.clean x rfl dirty
        rw [seen_some_of_gone gone] at nothing
        have zero : total below = 0 := by
          rw [← total_seen, ← nothing]
          rfl
        refine ⟨fun _ coins there => CCoins.valued_of_isPruned ?_, ?_⟩
        · exact seen_eq_none.1 nothing.symm coins there
        · simp only [zero, ite_self, add_zero]
          exact shown

private theorem modifyNew_worth (mem : txid ∈ S) (valued : coins.Valued)
    (created : c.modifyNew txid coinbase (fun _ => coins) = some c') :
    c'.Accounted S ∧ c'.worthOf S ≤ c.worthOf S + coins.total := by
  obtain ⟨it, opened, rfl⟩ := modifyNew_eq_some created
  obtain ⟨dirty, hidden, _⟩ := modifyNewCoins_worth accounted opened
  have dirty' : { it with value := coins }.dirty := dirty
  obtain ⟨accounted', worth'⟩ := accounted.endModify mem dirty' valued hidden
  refine ⟨accounted', ?_⟩
  rw [worth', worth_some]
  simp only
  omega

private theorem updateCoins_worth {nHeight : Int32} (mem : tx.hash ∈ S) (formed : WellFormed tx)
    (there : tx.isCoinBase = false → ∀ txin ∈ tx.vin, (c.output txin.prevout).isSome)
    (updated : updateCoins tx c nHeight = some (undo, c')) : c'.Accounted S ∧ c'.worthOf S ≤
      c.worthOf S - (if tx.isCoinBase then 0 else c.valueIn tx.vin) + valueOut tx.vout := by
  obtain ⟨c₁, spent, created⟩ := updateCoins_eq_some updated
  have inputs : c₁.Accounted S ∧
      c₁.worthOf S = c.worthOf S - if tx.isCoinBase then 0 else c.valueIn tx.vin := by
    split at spent
    · next coinbase =>
      cases spent
      rw [if_pos coinbase]
      exact ⟨accounted, (sub_zero _).symm⟩
    next spends =>
    rw [if_neg spends]
    exact spendInputs_worth accounted formed.inputs spent (there (Bool.not_eq_true _ ▸ spends))
  obtain ⟨accounted', worth'⟩ := modifyNew_worth inputs.1 mem
    (valued_fromTx formed.values) created
  refine ⟨accounted', worth'.trans ?_⟩
  rw [inputs.2]
  exact Int.add_le_add_left (total_fromTx formed.values) _

end

end Update

section Block
variable {S : Finset UInt256}

private theorem toInt_add_le {nFees subsidy : CAmount} (nonneg : 0 ≤ fees)
    (wrapped : nFees.toInt = fees.bmod (2 ^ 64)) :
    (nFees + subsidy).toInt ≤ fees + subsidy.toInt := by
  have low := subsidy.le_toInt
  rw [Int64.toInt_add, wrapped, Int.bmod_add_bmod, Int.bmod_def]
  split <;> omega

theorem bmod_toInt (n : CAmount) : n.toInt.bmod (2 ^ 64) = n.toInt := by
  have low := n.le_toInt
  have high := n.toInt_lt
  exact Int.bmod_eq_of_le (by omega) (by omega)

def minted (vtx : List CTransaction) : ℤ :=
  ((vtx.filter (·.isCoinBase)).map fun tx => valueOut tx.vout).sum

/-- Some transactions were connected: what the view is worth went down by their fees, which are
counted in 64 bits, and up by what coinbases claim. -/
structure Paid (S : Finset UInt256) (vtx : List CTransaction) (s s' : ConnectLoop) (fees : ℤ) :
    Prop where
  accounted : s'.view.Accounted S
  nonneg : 0 ≤ fees
  nFees : s'.nFees.toInt = (s.nFees.toInt + fees).bmod (2 ^ 64)
  worth : s'.view.worthOf S ≤ s.view.worthOf S - fees + minted vtx

variable {c c' : CCoinsViewCache} {tx : CTransaction} {s s' : ConnectLoop} {first : Bool}

theorem CCoinsViewCache.Filled.output (filled : c.Filled c')
    (out : COutPoint) : c'.output out = c.output out := by
  rw [CCoinsViewCache.output, filled.peek]
  rfl

theorem CCoinsViewCache.Filled.valueIn (filled : c.Filled c')
    (vin : List CTxIn) : c'.valueIn vin = c.valueIn vin := by
  simp [CCoinsViewCache.valueIn, filled.output]

theorem connectTx_paid
    (accounted : s.view.Accounted S) (mem : tx.hash ∈ S) (formed : WellFormed tx)
    (connected : connectTransaction ctx first tx s = .ok s') : ∃ fee, Paid S [tx] s s' fee := by
  obtain ⟨s₁, _, checked, updated, fees, -⟩ := connectTx_eq_ok connected
  obtain ⟨accounted₁, worth₁⟩ := accounted.filled checked.filled
  have there : tx.isCoinBase = false → ∀ txin ∈ tx.vin, (s₁.view.output txin.prevout).isSome := by
    intro spends txin inside
    obtain ⟨_, _, record, available, -⟩ := checked.spendable spends txin inside
    rw [checked.filled.output, output, record, bind_some, available]
    rfl
  obtain ⟨accounted', worth'⟩ := updateCoins_worth accounted₁ mem formed there updated
  rw [worth₁, checked.filled.valueIn] at worth'
  cases coinbase : tx.isCoinBase with
  | true =>
    refine ⟨0, accounted', le_rfl, ?_, ?_⟩
    · rw [fees, checked.coinbase coinbase, add_zero, bmod_toInt]
    have claims : minted [tx] = valueOut tx.vout := by simp [minted, coinbase]
    rw [coinbase, if_pos rfl] at worth'
    rw [claims]
    exact worth'
  | false =>
    obtain ⟨fee, added, value⟩ := checked.nFees coinbase
    refine ⟨fee.toInt, accounted', ?_, ?_, ?_⟩
    · rw [value]
      exact Int.sub_nonneg_of_le (checked.paid coinbase)
    · rw [fees, added, Int64.toInt_add]
    have claims : minted [tx] = 0 := by simp [minted, coinbase]
    rw [coinbase, if_neg Bool.false_ne_true] at worth'
    omega

theorem connectTxs_paid
    (accounted : s.view.Accounted S) (members : ∀ tx ∈ vtx, tx.hash ∈ S)
    (formed : ∀ tx ∈ vtx, WellFormed tx)
    (connected : connectTransactions ctx first vtx s = .ok s') : ∃ fees, Paid S vtx s s' fees := by
  induction vtx generalizing s first with
  | nil =>
    cases connected
    refine ⟨0, accounted, le_rfl, ?_, ?_⟩
    · rw [add_zero, bmod_toInt]
    · simp [minted]
  | cons tx rest ih =>
    obtain ⟨_, turn, loop⟩ := Outcome.bind_eq_ok.1 connected
    obtain ⟨mem, members⟩ := forall_mem_cons.1 members
    obtain ⟨formed₁, formed⟩ := forall_mem_cons.1 formed
    obtain ⟨fee, one⟩ := connectTx_paid accounted mem formed₁ turn
    obtain ⟨fees, others⟩ := ih one.accounted members formed loop
    refine ⟨fee + fees, others.accounted, add_nonneg one.nonneg others.nonneg, ?_, ?_⟩
    · rw [others.nFees, one.nFees, Int.bmod_add_bmod, add_assoc]
    have split : minted (tx :: rest) = minted [tx] + minted rest := by
      rw [minted, ← singleton_append, filter_append, map_append, List.sum_append]
      rfl
    have first := one.worth
    have later := others.worth
    omega

variable {block : CBlock} {c c' : CCoinsViewCache}

theorem CCoinsViewCache.Accounted.totalAmount_le (accounted : c.Accounted S) :
    c.toView.totalAmount ≤ c.worthOf S := by
  rw [totalAmount_eq accounted.inside]
  refine Finset.sum_le_sum fun txid _ => le_add_of_nonneg_right ?_
  split
  · next fresh =>
    refine total_nonneg ((accounted.each txid).hidden ?_)
    intro _ found
    rw [found] at fresh
    exact fresh
  · exact le_rfl

theorem CCoinsViewCache.Shows.accounted (view : c.Shows m)
    (valued : ∀ txid coins, m txid = some coins → coins.Valued) :
    c.Accounted (c.toView.txids ∪ S) ∧
      c.worthOf (c.toView.txids ∪ S) = c.toView.totalAmount := by
  have inside : ∀ txid, txid ∉ c.toView.txids ∪ S → c.toView.peek txid = none :=
    fun _ outside => peek_eq_none (outside ∘ Finset.mem_union_left S)
  refine ⟨⟨fun txid => ?_, inside⟩, ?_⟩
  · refine accounted_of_sound (view.coherent.2 txid) fun coins found => valued txid coins ?_
    rw [← view.shown]
    exact found
  · rw [totalAmount_eq inside]
    exact Finset.sum_congr rfl fun txid _ => worth_of_sound (view.coherent.2 txid)

theorem minted_eq (formed : WellFormedBlock vtx)
    (first : vtx.head? = some tx) : minted vtx = valueOut tx.vout := by
  obtain ⟨coinbase, rest, rfl, is, others⟩ := formed.coinbase
  cases first
  have none : rest.filter (·.isCoinBase) = [] := by
    rw [filter_eq_nil_iff]
    intro other mem
    rw [others other mem]
    exact Bool.false_ne_true
  rw [minted, filter_cons_of_pos is, none]
  exact add_zero _

private theorem subsidy_nonneg (random : ∀ seed range, 1 ≤ range →
      1 ≤ params.generateMTRandom seed range ∧ params.generateMTRandom seed range ≤ range) :
    0 ≤ (getDogecoinBlockSubsidy params 0 prevHash).toInt := by
  have halvings : (0 : Int32) / params.nSubsidyHalvingInterval = 0 := Int32.zero_div
  unfold getDogecoinBlockSubsidy
  simp only [halvings]
  split
  · have maxReward : (1000000 >>> (0 : Int32)) - 1 = (999999 : Int32) := by decide
    obtain ⟨low, high⟩ := random ((prevHash >>> 200).toNat % 2 ^ 28) 999999 (by decide)
    rw [maxReward]
    generalize params.generateMTRandom ((prevHash >>> 200).toNat % 2 ^ 28) 999999 = rand at low high ⊢
    have one : (1 : Int32).toInt = 1 := by decide
    have most : (999999 : Int32).toInt = 999999 := by decide
    rw [le_iff_toInt_le, one] at low
    rw [le_iff_toInt_le, most] at high
    have reward : (1 + rand).toInt = 1 + rand.toInt := by
      rw [toInt_add, one]
      exact Int.bmod_eq_of_le (by omega) (by omega)
    have coin : COIN.toInt = 100000000 := by decide
    rw [Int64.toInt_mul, toInt_toInt64, reward, coin, Int.bmod_eq_of_le (by omega) (by omega)]
    omega
  · split <;> decide

private theorem connectBlock_genesis (first : block.hash = ctx.hashGenesisBlock)
    (connected : connectBlock ctx block c = .ok (c', undo)) :
    c'.toView.totalAmount = c.getBestBlock.2.toView.totalAmount := by
  obtain ⟨_, -, connected⟩ := Outcome.bind_eq_ok.1 connected
  generalize c.getBestBlock = best at connected ⊢
  simp only [if_pos first] at connected
  split at connected
  · cases connected
  · cases connected
    split <;> rfl

/-- No inflation: `ConnectBlock` raises the value of the unspent outputs by the subsidy at most. -/
theorem connectBlock_no_inflation {undo : CBlockUndo} (view : c.Shows m)
    (values : ∀ txid coins, m txid = some coins →
      ∀ out ∈ coins.vout, out.isNull = false → moneyRange out.nValue = true)
    (genesis : block.hash = ctx.hashGenesisBlock → ctx.nHeight = 0)
    (random : ∀ seed range, 1 ≤ range → 1 ≤ ctx.subsidy.generateMTRandom seed range ∧
      ctx.subsidy.generateMTRandom seed range ≤ range)
    (connected : connectBlock ctx block c = .ok (c', undo)) :
    c'.toView.totalAmount ≤ c.toView.totalAmount +
      (getDogecoinBlockSubsidy ctx.subsidy ctx.nHeight ctx.hashPrevBlock).toInt := by
  have valued : ∀ txid coins, m txid = some coins → coins.Valued := fun txid coins found =>
    valued_of_moneyRange (values txid coins found)
  have start : c.getBestBlock.2.toView.totalAmount = c.toView.totalAmount := by
    refine totalAmount_congr fun txid => ?_
    rw [toView_getBestBlock, peek_getBestBlock]
  by_cases first : block.hash = ctx.hashGenesisBlock
  · have same := connectBlock_genesis first connected
    rw [same, start, genesis first]
    exact le_add_of_nonneg_right (subsidy_nonneg random)
  obtain ⟨formed, _, s, filled, loop, ⟨_, claimed, enough⟩, -, rfl⟩ :=
    connectBlock_eq_ok first connected
  obtain ⟨accounted, before⟩ :=
    view.getBestBlock.accounted (S := (block.vtx.map (·.hash)).toFinset) valued
  obtain ⟨accounted₁, worth₁⟩ := accounted.filled filled
  obtain ⟨fees, paid⟩ := connectTxs_paid accounted₁
    (fun _ member => Finset.mem_union_right _ (List.mem_toFinset.2 (List.mem_map_of_mem member)))
    formed.each loop
  obtain ⟨_, head, isOut⟩ := bind_eq_some_iff.1 claimed
  have last : (if ctx.fJustCheck then s.view else s.view.setBestBlock block.hash).toView.totalAmount =
      s.view.toView.totalAmount := by
    split <;> rfl
  have after := paid.accounted.totalAmount_le
  have moved := paid.worth
  rw [minted_eq formed head, ← (getValueOut_spec isOut).1, worth₁, before, start] at moved
  have counted : s.nFees.toInt = fees.bmod (2 ^ 64) := by
    rw [paid.nFees]
    exact congrArg (Int.bmod · _) (zero_add fees)
  rw [Int64.le_iff_toInt_le] at enough
  have allowed := enough.trans (toInt_add_le paid.nonneg counted)
  rw [last]
  omega

def luckyContext : ConnectContext :=
  { plainContext 4 2 with subsidy := ⟨100000, false, fun _ range => range⟩ }

theorem connectBlock_no_inflation_plainBlock : ∃ c' undo,
    connectBlock luckyContext plainBlock plainView = .ok (c', undo) ∧
      c'.toView.totalAmount = 1044 ∧ plainView.toView.totalAmount = 50 ∧
      c'.toView.totalAmount ≤ plainView.toView.totalAmount +
        (getDogecoinBlockSubsidy luckyContext.subsidy 4 2).toInt := by
  obtain ⟨c', undo, connected, total⟩ : ∃ c' undo,
      connectBlock luckyContext plainBlock plainView = .ok (c', undo) ∧
        c'.toView.totalAmount = 1044 := ⟨_, _, rfl, by decide⟩
  refine ⟨c', undo, connected, total, by decide, ?_⟩
  refine connectBlock_no_inflation (CCoinsViewCache.shows_ofBase trivial) ?_ ?_ ?_ connected
  · intro _ _ found _ member _
    rw [shown_plainView found] at member
    rw [mem_singleton.1 member]
    rfl
  · intro same
    cases same
  · exact fun _ range positive => ⟨positive, Int32.le_refl range⟩

end Block

end DogecoinCore.Coins
