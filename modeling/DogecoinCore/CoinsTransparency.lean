import DogecoinCore.CoinsStack

/-! Any sequence of calls at the top of a stack of coins caches has the effect of the same
modifications on a plain map. -/
namespace DogecoinCore.Coins
open List Option WriteBack DogecoinCore.Coins.CCoinsViewCache CCoinsView AList CoinsRecords CCoins

namespace CCoinsView
theorem Holds.peek {v : CCoinsView} (holds : v.Holds P) (found : v.peek txid = some c) : P c := by
  induction v with
  | db coins bestBlock => exact holds txid c found
  | cache cacheCoins hashBlock base ih =>
    unfold CCoinsView.peek at found
    cases cached : cacheCoins.lookup txid with
    | none =>
      rw [cached] at found
      exact ih holds.1 found
    | some e =>
      rw [cached, read_some, Option.some.injEq] at found
      exact found ▸ holds.2 txid e cached

theorem Holds.getCoins {v : CCoinsView} (holds : v.Holds P) (txid : UInt256) :
    (v.getCoins txid).2.Holds P := by
  induction v with
  | db _ _ => exact holds
  | cache cacheCoins _ _ ih =>
    unfold CCoinsView.getCoins
    cases found : cacheCoins.lookup txid with
    | some _ => exact holds
    | none =>
      refine ⟨ih holds.1, fun other e => ?_⟩
      rw [getCoins_fst, CCoinsMap.lookup_fill cacheCoins txid other _ found]
      split
      · intro filled
        obtain ⟨_, below, rfl⟩ := map_eq_some_iff.1 filled
        exact holds.1.peek below
      · exact holds.2 other e

end CCoinsView

variable {m m' : CCoinsMap} {txid : UInt256}

private theorem CCoinsMap.lookup_writeEntry (written : m.writeEntry it = some m') (found : m'.lookup txid = some e) :
    m.lookup txid = some e ∨ e.value = it.2.value := by
  have inserted : ∀ entry : CCoinsCacheEntry, entry.value = it.2.value →
      (m.insert it.1 entry).lookup txid = some e → m.lookup txid = some e ∨ e.value = it.2.value := by
    intro entry value found
    by_cases same : txid = it.1
    · subst same
      rw [lookup_insert] at found
      cases found
      exact .inr value
    · rw [lookup_insert_ne same] at found
      exact .inl found
  unfold CCoinsMap.writeEntry at written
  split at written
  · split at written
    · split at written
      · cases written
        exact .inl found
      · cases written
        exact inserted ⟨it.2.value, true, it.2.fresh⟩ rfl found
    next itUs _ =>
    split at written
    · cases written
    split at written
    · cases written
      by_cases same : txid = it.1
      · rw [same, lookup_erase] at found
        cases found
      · rw [lookup_erase_ne same] at found
        exact .inl found
    · cases written
      exact inserted ⟨it.2.value, true, itUs.fresh⟩ rfl found
  · cases written
    exact .inl found

theorem CoinsRecords.lookup_writeEntry {coins : CoinsRecords}
    (found : (coins.writeEntry it).lookup txid = some c) :
    coins.lookup txid = some c ∨ c = it.2.value := by
  unfold writeEntry at found
  by_cases same : txid = it.1
  · subst same
    split at found
    · split at found
      · rw [lookup_erase] at found
        cases found
      rw [lookup_insert] at found
      cases found
      exact .inr rfl
    · exact .inl found
  split at found
  · split at found
    · rw [lookup_erase_ne same] at found
      exact .inl found
    · rw [lookup_insert_ne same] at found
      exact .inl found
  · exact .inl found

private theorem CCoinsMap.forall_foldlM_writeEntry {P : CCoins → Prop}
    {entries : List (Sigma fun _ : UInt256 => CCoinsCacheEntry)}
    (start : ∀ txid e, m.lookup txid = some e → P e.value) (above : ∀ it ∈ entries, P it.2.value)
    (loop : entries.foldlM writeEntry m = some m') :
    ∀ txid e, m'.lookup txid = some e → P e.value := by
  induction entries generalizing m with
  | nil =>
    cases loop
    exact start
  | cons it _ ih =>
    obtain ⟨_, first, rest'⟩ := bind_eq_some_iff.1 loop
    refine ih ?_ (fun other mem => above other (mem_cons_of_mem it mem)) rest'
    intro txid e found
    obtain old | new := lookup_writeEntry first found
    · exact start txid e old
    · exact new ▸ above it mem_cons_self

namespace CCoinsView
theorem Holds.batchWrite {v w : CCoinsView} {hashBlock : UInt256}
    (holds : v.Holds P) (above : ∀ txid e, m.lookup txid = some e → P e.value)
    (written : v.batchWrite m hashBlock = some w) : w.Holds P := by
  have above : ∀ it ∈ m.entries, P it.2.value := fun it mem =>
    above it.1 it.2 (mem_dlookup m.nodupKeys mem)
  cases v with
  | db coins bestBlock =>
    cases written
    refine foldlRecOn (motive := fun coins => Holds P (.db coins bestBlock)) m.entries
      writeEntry holds ?_
    intro coins before it mem txid c found
    obtain old | rfl := lookup_writeEntry found
    · exact before txid c old
    · exact above it mem
  | cache cacheCoins oldHash base =>
    obtain ⟨m', loop, ⟨⟩⟩ := bind_eq_some_iff.1 written
    exact ⟨holds.1, CCoinsMap.forall_foldlM_writeEntry holds.2 above loop⟩

end CCoinsView

namespace CCoinsViewCache
variable {c : CCoinsViewCache} {m : CoinsMap}

section
variable (holds : c.toView.Holds P)
include holds

theorem holds_fetchCoins (txid : UInt256) : (c.fetchCoins txid).2.toView.Holds P := by
  rw [(fetchCoins_eq c txid).2]
  exact holds.getCoins txid

theorem holds_endModify (txid : UInt256) (it : CCoinsCacheEntry)
    (new : P it.value.cleanup) : (c.endModify txid it).toView.Holds P := by
  refine ⟨by rw [base_endModify]; exact holds.1, fun other e found => ?_⟩
  rw [lookup_endModify] at found
  split at found
  · unfold settled at found
    split at found
    · cases found
    · cases found
      exact new
  · exact holds.2 other e found

theorem holds_modify (txid : UInt256) (f : CCoins → CCoins)
    (new : ∀ coins, P (cleanup coins)) : (c.modify txid f).toView.Holds P := by
  have opened : (c.modifyCoins txid).2.toView.Holds P := by
    obtain same | filled := (modifyCoins_eq c txid).2
    · rw [same]
      exact holds
    · rw [filled]
      exact ⟨holds.1.getCoins txid, holds.2⟩
  exact holds_endModify opened txid _ (new _)

theorem holds_uncache (txid : UInt256) : (c.uncache txid).toView.Holds P := by
  unfold uncache
  split
  · exact holds
  split
  · exact holds
  refine ⟨holds.1, fun other e found => ?_⟩
  by_cases same : other = txid
  · rw [same, lookup_erase] at found
    cases found
  · rw [lookup_erase_ne same] at found
    exact holds.2 other e found

theorem holds_flush {c' : CCoinsViewCache} (flushed : c.flush = some c') : c'.toView.Holds P := by
  obtain ⟨_, written, ⟨⟩⟩ := bind_eq_some_iff.1 flushed
  exact ⟨holds.1.batchWrite holds.2 written, fun _ _ found => by cases found⟩

end

theorem Shows.haveCoins (view : c.Shows m) (tidy : c.toView.Holds CCoins.Tidy) (txid : UInt256) :
    (c.haveCoins txid).1 = (m txid).isSome := by
  have found : (c.haveCoins txid).1 = (c.toView.peek txid).any fun coins => !coins.vout.isEmpty := by
    rw [← (fetchCoins_eq c txid).1]
    rfl
  rw [found, ← view.shown, CCoinsView.shown]
  cases record : c.toView.peek txid with
  | none => rfl
  | some coins =>
    have empty := (tidy.peek record).vout_eq_nil
    cases pruned : coins.isPruned with
    | true =>
      rw [seen_some_of_gone pruned, any_some, empty.2 pruned]
      rfl
    | false =>
      rw [seen_some_of_there pruned, any_some]
      have nonempty : coins.vout ≠ [] := fun none => by
        rw [empty.1 none] at pruned
        cases pruned
      simpa using nonempty

end CCoinsViewCache

/-- A call at the top of the stack. Each modifier is released before the next call; `layer` puts
one more cache on the stack. -/
inductive CoinsCall where
  | getCoins (txid : UInt256)
  | accessCoins (txid : UInt256)
  | haveCoins (txid : UInt256)
  | modifyCoins (txid : UInt256) (f : CCoins → CCoins)
  | modifyNewCoins (txid : UInt256) (coinbase : Bool) (f : CCoins → CCoins)
  | uncache (txid : UInt256)
  | flush
  | layer

namespace CoinsCall
/-- The call on the stack; `none` is an exception. -/
def apply (c : CCoinsViewCache) : CoinsCall → Option CCoinsViewCache
  | getCoins txid => some (c.getCoins txid).2
  | accessCoins txid => some (c.accessCoins txid).2
  | haveCoins txid => some (c.haveCoins txid).2
  | modifyCoins txid f => some (c.modify txid f)
  | modifyNewCoins txid coinbase f => c.modifyNew txid coinbase f
  | uncache txid => some (c.uncache txid)
  | flush => c.flush
  | layer => some (.ofBase c.toView)

def applyMap (m : CoinsMap) : CoinsCall → CoinsMap
  | modifyCoins txid f => Function.update m txid (f ((m txid).getD .empty)).kept
  | modifyNewCoins txid _ f => Function.update m txid (f .empty).kept
  | _ => m

/-- Where the map has no coins, a modification does the same to every record without unspent
outputs; new coins, other than those of a coinbase, are new. -/
def Allowed (m : CoinsMap) : CoinsCall → Prop
  | modifyCoins txid f =>
    m txid = none → ∀ coins : CCoins, coins.isPruned = true → (f coins).kept = (f .empty).kept
  | modifyNewCoins txid coinbase _ => coinbase = false → m txid = none
  | _ => True

def Run (m : CoinsMap) : List CoinsCall → Prop
  | [] => True
  | call :: rest => call.Allowed m ∧ Run (call.applyMap m) rest

variable {m : CoinsMap} {c : CCoinsViewCache}

private theorem kept_modified (allowed : (modifyCoins txid f).Allowed m)
    (value : seen isPruned (some held) = m txid) :
    (f held).kept = (f ((m txid).getD .empty)).kept := by
  cases found : m txid with
  | none =>
    rw [found, seen_eq_none] at value
    exact allowed found held (value held rfl)
  | some _ =>
    rw [found, seen_eq_some] at value
    obtain ⟨⟨⟩, -⟩ := value
    rfl

theorem apply_spec (view : c.Shows m) (call : CoinsCall) (allowed : call.Allowed m) :
    ∃ c', call.apply c = some c' ∧ c'.Shows (call.applyMap m) ∧
      (c.toView.Holds CCoins.Tidy → c'.toView.Holds CCoins.Tidy) := by
  cases call with
  | getCoins txid | accessCoins txid | haveCoins txid =>
    exact ⟨_, rfl, (view.fetchCoins txid).2, fun tidy => holds_fetchCoins tidy txid⟩
  | modifyCoins txid f =>
    refine ⟨_, rfl, ?_, fun tidy => holds_modify tidy txid f tidy_cleanup⟩
    rw [applyMap, ← kept_modified allowed (view.modifyCoins_value txid)]
    exact view.modify txid f
  | modifyNewCoins txid coinbase f =>
    obtain ⟨c', modified, view'⟩ := view.modifyNew txid coinbase f allowed
    refine ⟨c', modified, view', fun tidy => ?_⟩
    obtain ⟨_, -, ⟨⟩⟩ := bind_eq_some_iff.1 modified
    exact holds_endModify tidy txid _ (tidy_cleanup _)
  | uncache txid => exact ⟨_, rfl, view.uncache txid, fun tidy => holds_uncache tidy txid⟩
  | flush =>
    obtain ⟨c', flushed, view', -⟩ := view.flush
    exact ⟨c', flushed, view', fun tidy => holds_flush tidy flushed⟩
  | layer =>
    refine ⟨_, rfl, view.shown ▸ shows_ofBase view.coherent,
      fun tidy => ⟨tidy, fun _ _ found => by cases found⟩⟩

theorem run_spec (view : c.Shows m) (calls : List CoinsCall) (run : Run m calls) :
    ∃ c', calls.foldlM apply c = some c' ∧ c'.Shows (calls.foldl applyMap m) ∧
      (c.toView.Holds CCoins.Tidy → c'.toView.Holds CCoins.Tidy) := by
  induction calls generalizing c m with
  | nil => exact ⟨c, rfl, view, id⟩
  | cons call _ ih =>
    obtain ⟨_, first, view₁, tidy₁⟩ := apply_spec view call run.1
    obtain ⟨c₂, rest', view₂, tidy₂⟩ := ih view₁ run.2
    exact ⟨c₂, by rw [foldlM_cons, first]; exact rest', view₂, tidy₂ ∘ tidy₁⟩

end CoinsCall

namespace CCoinsView
/-- Flushes the upper `layers` caches, from the top down. -/
def flushAll : (layers : Nat) → CCoinsView → Option CCoinsView
  | layers + 1, .cache cacheCoins hashBlock base => do
    let c ← flush ⟨cacheCoins, hashBlock, base⟩
    let base ← flushAll layers c.base
    some (.cache c.cacheCoins c.hashBlock base)
  | _, v => some v

def records : CCoinsView → CoinsRecords
  | .db coins _ => coins
  | .cache _ _ base => base.records

theorem Coherent.flushAll {v : CCoinsView} (coherent : v.Coherent) :
    ∃ w, v.flushAll v.layers = some w ∧
      ∀ txid, seen isPruned (w.records.lookup txid) = v.shown txid := by
  generalize depth : v.layers = layers
  induction layers generalizing v with
  | zero =>
    cases v with
    | db coins bestBlock => exact ⟨_, rfl, fun _ => rfl⟩
    | cache cacheCoins hashBlock base => cases depth
  | succ layers ih =>
    cases v with
    | db coins bestBlock => cases depth
    | cache cacheCoins hashBlock base =>
      have view : CCoinsViewCache.Shows ⟨cacheCoins, hashBlock, base⟩
          (cache cacheCoins hashBlock base).shown := ⟨coherent, rfl⟩
      obtain ⟨c, flushed, -, below, shown, same⟩ := view.flush
      obtain ⟨w, rest, held⟩ := ih below (same.trans (Nat.succ.inj depth))
      refine ⟨.cache c.cacheCoins c.hashBlock w, ?_, fun txid => ?_⟩
      · rw [CCoinsView.flushAll, flushed]
        change (do let base ← c.base.flushAll layers; some _) = _
        rw [rest]
        rfl
      · rw [← shown]
        exact held txid

end CCoinsView

/-- The cache stack over a database is the map the calls make of it: no call throws, every lookup
finds what the map has, and flushing every cache leaves the map in the database. -/
theorem CoinsCall.stack_transparent (coins : CoinsRecords) (bestBlock : UInt256)
    (calls : List CoinsCall) (run : Run (db coins bestBlock).shown calls) :
    ∃ c, calls.foldlM apply (.ofBase (.db coins bestBlock)) = some c ∧
      (∀ txid, seen isPruned (c.getCoins txid).1 =
          calls.foldl applyMap (db coins bestBlock).shown txid ∧
        seen isPruned (c.accessCoins txid).1 =
          calls.foldl applyMap (db coins bestBlock).shown txid) ∧
      ((db coins bestBlock).Holds CCoins.Tidy → ∀ txid, (c.haveCoins txid).1 =
          (calls.foldl applyMap (db coins bestBlock).shown txid).isSome) ∧
      ∃ w, c.toView.flushAll c.toView.layers = some w ∧
        ∀ txid, seen isPruned (w.records.lookup txid) =
          calls.foldl applyMap (db coins bestBlock).shown txid := by
  have start : CCoinsViewCache.Shows (.ofBase (.db coins bestBlock))
      (db coins bestBlock).shown := shows_ofBase trivial
  obtain ⟨c, reached, view, tidy⟩ := run_spec start calls run
  obtain ⟨w, flushed, held⟩ := view.coherent.flushAll
  refine ⟨c, reached, fun txid => ⟨(view.fetchCoins txid).1, (view.fetchCoins txid).1⟩,
    fun base => view.haveCoins (tidy ⟨base, fun _ _ found => by cases found⟩),
    w, flushed, fun txid => ?_⟩
  rw [held txid, view.shown]

namespace CoinsCall
/-- One unspent output of a coinbase at height 7, in the database under the id 1. -/
def oneCoin : CoinsRecords := singleton 1 ⟨true, [⟨5, []⟩], 7, 1⟩

/-- The output is spent and its coins are overwritten with new ones while they wait in the
cache; coins of another transaction are created over two levels. -/
def oneCoinCalls : List CoinsCall :=
  [modifyCoins 1 fun coins => (coins.spend 0).getD coins, layer,
    modifyNewCoins 1 false fun _ => ⟨false, [⟨3, []⟩], 9, 1⟩, uncache 1,
    modifyNewCoins 2 true fun _ => ⟨true, [⟨8, []⟩], 9, 1⟩, flush, haveCoins 2,
    modifyCoins 2 fun coins => { coins with vout := [] }]

theorem oneCoinCalls_run : Run (CCoinsView.db oneCoin 0).shown oneCoinCalls := by
  refine ⟨?_, trivial, ?_, trivial, ?_, trivial, trivial, ?_, trivial⟩
  · intro missing
    exact absurd missing (by decide)
  · intro _
    decide
  · intro coinbase
    cases coinbase
  · intro _ _ _
    rfl

theorem stack_transparent_one_coin :
    ∃ c, oneCoinCalls.foldlM apply (.ofBase (.db oneCoin 0)) = some c ∧
      seen isPruned (c.getCoins 1).1 = some ⟨false, [⟨3, []⟩], 9, 1⟩ ∧
      (c.haveCoins 2).1 = false := by
  obtain ⟨c, reached, lookups, have', -⟩ := stack_transparent oneCoin 0 oneCoinCalls oneCoinCalls_run
  refine ⟨c, reached, ?_, ?_⟩
  · rw [(lookups 1).1]
    decide
  rw [have' ?_ 2]
  · decide
  intro txid _ found
  by_cases same : txid = 1
  · subst same
    cases found
    exact show cleanup _ = _ by decide
  · rw [show oneCoin.lookup txid = none from dlookup_cons_ne [] _ same] at found
    cases found

/-- A modification that adds an output and relies on the height the spent record still has. -/
def addOutput : CoinsCall := modifyCoins 1 fun coins => { coins with vout := [⟨5, []⟩] }

/-- The same modifications show different coins with and without a flush between them. -/
theorem spent_record_forgotten :
    ([modifyCoins 1 fun coins => (coins.spend 0).getD coins, addOutput].foldlM apply
        (.ofBase (.db oneCoin 0))).map (fun c => (c.getCoins 1).1) =
      some (some ⟨true, [⟨5, []⟩], 7, 1⟩) ∧
    ([modifyCoins 1 fun coins => (coins.spend 0).getD coins, flush, addOutput].foldlM apply
        (.ofBase (.db oneCoin 0))).map (fun c => (c.getCoins 1).1) =
      some (some ⟨false, [⟨5, []⟩], 0, 0⟩) := by
  decide

end CoinsCall

end DogecoinCore.Coins
