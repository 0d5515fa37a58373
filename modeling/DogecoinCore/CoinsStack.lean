import DogecoinCore.Coins

/-! A stack of coins caches is one map from transaction ids to coins. The map a view shows
is defined without the caches' flags; every operation of a cache is then an operation on
that map, as long as the flags at every level are true of the level below. -/
namespace DogecoinCore.Coins
open List CCoins CCoinsView AList Option Bool Function
open WriteBack

/-- What a reader may count on: coins whose outputs are all spent are no coins. -/
abbrev CoinsMap := UInt256 → Option CCoins

namespace CCoins
@[simp] theorem isPruned_empty : empty.isPruned := rfl

def kept (c : CCoins) : Option CCoins := seen isPruned (some c.cleanup)

def Tidy (c : CCoins) : Prop := c.cleanup = c

theorem tidy_cleanup (c : CCoins) : c.cleanup.Tidy := by
  simp [Tidy, cleanup, rdropWhile_idempotent]

theorem Tidy.vout_eq_nil {c : CCoins} (tidy : c.Tidy) : c.vout = [] ↔ c.isPruned := by
  have same : c.vout.rdropWhile (·.isNull) = c.vout := congrArg vout tidy
  constructor
  · intro none
    simp [isPruned, none]
  intro pruned
  rw [← same, rdropWhile_eq_nil_iff]
  simpa [isPruned] using pruned

variable {c left : CCoins}

def unspent (c : CCoins) (i : ℕ) : Option CTxOut := c.vout[i]?.filter fun out => !out.isNull

theorem unspent_eq_some : c.unspent i = some out ↔ c.vout[i]? = some out ∧ out.isNull = false := by
  simp [unspent]

theorem unspent_eq_none :
    c.unspent i = none ↔ ∀ out, c.vout[i]? = some out → out.isNull := by
  simp [unspent]

theorem isPruned_iff : c.isPruned ↔ ∀ i, c.unspent i = none := by
  simp only [unspent_eq_none, isPruned, List.all_eq_true, mem_iff_getElem?]
  exact ⟨fun all i out here => all out ⟨i, here⟩, fun all out ⟨i, here⟩ => all i out here⟩

theorem unspent_cleanup (i : ℕ) : c.cleanup.unspent i = c.unspent i := by
  have parts : c.cleanup.vout ++ c.vout.rtakeWhile (·.isNull) = c.vout :=
    rdropWhile_append_rtakeWhile
  by_cases inside : i < c.cleanup.vout.length
  · rw [unspent, unspent, ← getElem?_append_left inside, parts]
  rw [unspent, unspent, getElem?_eq_none (Nat.not_lt.1 inside), ← parts,
    getElem?_append_right (Nat.not_lt.1 inside)]
  cases dropped : (c.vout.rtakeWhile (·.isNull))[i - c.cleanup.vout.length]? with
  | none => rfl
  | some _ =>
    have null := mem_rtakeWhile_imp (mem_of_getElem? dropped)
    simp [Option.filter, null]

theorem isPruned_cleanup : c.cleanup.isPruned = c.isPruned := by
  rw [Bool.eq_iff_iff, isPruned_iff, isPruned_iff]
  simp [unspent_cleanup]

theorem kept_of_isPruned (pruned : c.isPruned) : c.kept = none :=
  seen_some_of_gone ((isPruned_cleanup).trans pruned)

theorem kept_of_not_isPruned (unpruned : c.isPruned = false) : c.kept = some c.cleanup :=
  seen_some_of_there ((isPruned_cleanup).trans unpruned)

theorem spend_eq_some (spent : c.spend n = some left) :
    left = cleanup { c with vout := c.vout.set n.toNat .null } ∧
      ∃ out, c.unspent n.toNat = some out := by
  unfold spend at spent
  split at spent
  · next available =>
    cases spent
    exact ⟨rfl, isSome_iff_exists.1 available⟩
  · cases spent

theorem unspent_spend (spent : c.spend n = some left) (i : ℕ) :
    left.unspent i = if i = n.toNat then none else c.unspent i := by
  obtain ⟨rfl, _, found⟩ := spend_eq_some spent
  obtain ⟨inside, -⟩ := List.getElem?_eq_some_iff.1 (unspent_eq_some.1 found).1
  rw [unspent_cleanup, unspent]
  by_cases here : i = n.toNat
  · rw [if_pos here, here]
    simp only [getElem?_set_self inside]
    rfl
  rw [if_neg here]
  simp only [getElem?_set_ne (Ne.symm here)]
  rfl

theorem isPruned_of_available (found : c.available n = some out) : c.isPruned = false := by
  rw [← not_eq_true, isPruned_iff]
  intro pruned
  have gone : c.available n = none := pruned n.toNat
  rw [gone] at found
  cases found

variable {a b : CCoins}

def NullsClear (c : CCoins) : Prop := ∀ out ∈ c.vout, out.isNull = true → out = .null

structure Canonical (c : CCoins) : Prop where
  tidy : c.Tidy
  nullsClear : c.NullsClear

theorem NullsClear.cleanup (clear : c.NullsClear) : c.cleanup.Canonical where
  tidy := tidy_cleanup c
  nullsClear := fun out mem => by
    have inside := rdropWhile_prefix _ _ |>.subset mem
    exact clear out inside

theorem Canonical.spend (canonical : c.Canonical) (spent : c.spend n = some left) :
    left.Canonical := by
  obtain ⟨rfl, -⟩ := spend_eq_some spent
  refine NullsClear.cleanup fun out mem null => ?_
  obtain old | new := mem_or_eq_of_mem_set mem
  · exact canonical.nullsClear out old null
  · exact new

theorem Tidy.last (tidy : c.Tidy) (positive : 0 < c.vout.length) :
    ∃ out, c.unspent (c.vout.length - 1) = some out := by
  have nonempty := ne_nil_of_length_pos positive
  have same := congrArg vout tidy
  refine ⟨c.vout.getLast nonempty, unspent_eq_some.2 ⟨?_, ?_⟩⟩
  · rw [← getLast?_eq_getElem?, getLast?_eq_getLast_of_ne_nil nonempty]
  · simpa using rdropWhile_eq_self_iff.1 same nonempty

theorem Tidy.length_le (tidy : a.Tidy) (same : ∀ i, a.unspent i = b.unspent i) :
    a.vout.length ≤ b.vout.length := by
  by_contra longer
  obtain ⟨_, last⟩ := tidy.last (by omega)
  rw [same, unspent, getElem?_eq_none (by omega)] at last
  cases last

theorem Canonical.vout_eq (first : a.Canonical) (second : b.Canonical)
    (same : ∀ i, a.unspent i = b.unspent i) : a.vout = b.vout := by
  have length :=
    Nat.le_antisymm (first.tidy.length_le same) (second.tidy.length_le fun i => (same i).symm)
  refine ext_getElem length fun i insideA insideB => ?_
  have here := same i
  rw [unspent, unspent, getElem?_eq_getElem insideA, getElem?_eq_getElem insideB] at here
  cases nullA : a.vout[i].isNull <;> cases nullB : b.vout[i].isNull <;>
    simp only [Option.filter, nullA, nullB, Bool.not_true, Bool.not_false, if_true,
      false_eq_true, if_false, some.injEq, reduceCtorEq] at here
  · exact here
  · rw [first.nullsClear _ (getElem_mem insideA) nullA,
      second.nullsClear _ (getElem_mem insideB) nullB]

end CCoins

namespace CCoinsView
def peek : CCoinsView → UInt256 → Option CCoins
  | .db coins _, txid => coins.lookup txid
  | .cache cacheCoins _ base, txid => read (cacheCoins.lookup txid) (base.peek txid)

def shown (v : CCoinsView) : CoinsMap := fun txid => seen isPruned (v.peek txid)

theorem shown_singleton (hashBlock : UInt256) {a : UInt256} {coins : CCoins}
    (found : (db (AList.singleton a c) hashBlock).shown txid = some coins) : txid = a ∧ coins = c := by
  have mem := AList.mem_lookup_iff.1 (seen_eq_some.1 found).1
  cases mem_singleton.1 mem
  exact ⟨rfl, rfl⟩

def Coherent : CCoinsView → Prop
  | .db _ _ => True
  | .cache cacheCoins _ base =>
    base.Coherent ∧ ∀ txid, Sound isPruned (cacheCoins.lookup txid) (base.peek txid)

def Holds (P : CCoins → Prop) : CCoinsView → Prop
  | .db coins _ => ∀ txid c, coins.lookup txid = some c → P c
  | .cache cacheCoins _ base => base.Holds P ∧ ∀ txid e, cacheCoins.lookup txid = some e → P e.value

def layers : CCoinsView → Nat
  | .db _ _ => 0
  | .cache _ _ base => base.layers + 1

end CCoinsView

namespace CCoinsMap
theorem lookup_fill (m : CCoinsMap) (txid other : UInt256) (found : Option CCoins)
    (missing : m.lookup txid = none) :
    (m.fill txid found).lookup other =
      if other = txid then found.map (filled isPruned) else m.lookup other := by
  cases found with
  | none =>
    by_cases same : other = txid
    · rw [if_pos same, same]
      exact missing
    · rw [if_neg same]
      rfl
  | some coins =>
    by_cases same : other = txid
    · rw [if_pos same, same]
      exact lookup_insert m
    · rw [if_neg same]
      exact lookup_insert_ne same

private theorem writeEntry_merged (m : CCoinsMap) (it : Sigma fun _ : UInt256 => CCoinsCacheEntry)
    (dirty : it.2.dirty)
    (fits : merged isPruned (m.lookup it.1) it.2 = some e) :
    ∃ m', m.writeEntry it = some m' ∧ m'.lookup it.1 = e ∧
      ∀ txid, txid ≠ it.1 → m'.lookup txid = m.lookup txid := by
  unfold writeEntry
  rw [if_pos dirty]
  cases found : m.lookup it.1 with
  | none =>
    rw [found] at fits
    by_cases skip : (it.2.fresh && it.2.value.isPruned)
    · rw [merged, if_pos skip, some.injEq] at fits
      exact ⟨m, if_pos skip, found.trans fits, fun _ _ => rfl⟩
    rw [merged, if_neg skip, some.injEq] at fits
    exact ⟨_, if_neg skip, (lookup_insert m).trans fits, fun _ other => lookup_insert_ne other⟩
  | some itUs =>
    rw [found] at fits
    by_cases misapplied : (it.2.fresh && !itUs.value.isPruned)
    · rw [merged, if_pos misapplied] at fits
      cases fits
    rw [merged, if_neg misapplied, some.injEq] at fits
    simp only [if_neg misapplied]
    by_cases drop : (itUs.fresh && it.2.value.isPruned)
    · rw [if_pos drop] at fits
      exact ⟨_, if_pos drop, (lookup_erase it.1 m).trans fits, fun _ other => lookup_erase_ne other⟩
    rw [if_neg drop] at fits
    exact ⟨_, if_neg drop, (lookup_insert m).trans fits, fun _ other => lookup_insert_ne other⟩

variable {m : CCoinsMap} {below : UInt256 → Option CCoins}

private theorem writeEntry_spec (it : Sigma fun _ : UInt256 => CCoinsCacheEntry)
    (sound : ∀ txid, Sound isPruned (m.lookup txid) (below txid))
    (above : Sound isPruned (some it.2) (read (m.lookup it.1) (below it.1))) :
    ∃ m', m.writeEntry it = some m' ∧ (∀ txid, Sound isPruned (m'.lookup txid) (below txid)) ∧
      seen isPruned (read (m'.lookup it.1) (below it.1)) = seen isPruned (some it.2.value) ∧
      ∀ txid, txid ≠ it.1 → m'.lookup txid = m.lookup txid := by
  cases dirty : it.2.dirty with
  | false =>
    refine ⟨m, ?_, sound, (above.clean it.2 rfl dirty).symm, fun _ _ => rfl⟩
    rw [writeEntry, dirty]
    rfl
  | true =>
    obtain ⟨_, fits, stays, view⟩ := (sound it.1).merged above
    obtain ⟨m', written, here, elsewhere⟩ := writeEntry_merged m it dirty fits
    refine ⟨m', written, ?_, by rw [here]; exact view, elsewhere⟩
    intro txid
    by_cases same : txid = it.1
    · rw [same, here]
      exact stays
    · rw [elsewhere txid same]
      exact sound txid

theorem foldlM_writeEntry (entries : List (Sigma fun _ : UInt256 => CCoinsCacheEntry))
    (keys : entries.NodupKeys)
    (sound : ∀ txid, Sound isPruned (m.lookup txid) (below txid))
    (above : ∀ txid, Sound isPruned (entries.dlookup txid) (read (m.lookup txid) (below txid))) :
    ∃ m', entries.foldlM writeEntry m = some m' ∧
      (∀ txid, Sound isPruned (m'.lookup txid) (below txid)) ∧
      ∀ txid, seen isPruned (read (m'.lookup txid) (below txid)) =
        seen isPruned (read (entries.dlookup txid) (read (m.lookup txid) (below txid))) := by
  induction entries generalizing m with
  | nil => exact ⟨m, rfl, sound, fun _ => rfl⟩
  | cons it rest ih =>
    rw [nodupKeys_cons] at keys
    have first := dlookup_cons_eq rest it.1 it.2
    have later := dlookup_eq_none.2 keys.1
    obtain ⟨m₁, written, sound₁, here, elsewhere⟩ := writeEntry_spec it sound (first ▸ above it.1)
    have above₁ : ∀ txid, Sound isPruned (rest.dlookup txid)
        (read (m₁.lookup txid) (below txid)) := by
      intro txid
      by_cases same : txid = it.1
      · rw [same, later]
        exact .none
      have other := above txid
      rw [dlookup_cons_ne rest it same] at other
      rw [elsewhere txid same]
      exact other
    obtain ⟨m₂, rest', sound₂, shown₂⟩ := ih keys.2 sound₁ above₁
    refine ⟨m₂, by rw [foldlM_cons, written]; exact rest', sound₂, ?_⟩
    intro txid
    rw [shown₂ txid]
    by_cases same : txid = it.1
    · rw [same, later, first, read_none, read_some]
      exact here
    · rw [elsewhere txid same, dlookup_cons_ne rest it same]

end CCoinsMap

private theorem CoinsRecords.foldl_writeEntry (coins : CoinsRecords)
    (entries : List (Sigma fun _ : UInt256 => CCoinsCacheEntry)) (keys : entries.NodupKeys)
    (above : ∀ txid, Sound isPruned (entries.dlookup txid) (coins.lookup txid))
    (txid : UInt256) :
    seen isPruned ((entries.foldl writeEntry coins).lookup txid) =
      seen isPruned (read (entries.dlookup txid) (coins.lookup txid)) := by
  induction entries generalizing coins with
  | nil => rfl
  | cons it rest ih =>
    rw [nodupKeys_cons] at keys
    have first := dlookup_cons_eq rest it.1 it.2
    have later := dlookup_eq_none.2 keys.1
    have elsewhere : ∀ other, other ≠ it.1 →
        (coins.writeEntry it).lookup other = coins.lookup other := by
      intro other ne
      unfold writeEntry
      split
      · split
        · exact lookup_erase_ne ne
        · exact lookup_insert_ne ne
      · rfl
    have here : seen isPruned ((coins.writeEntry it).lookup it.1) =
        seen isPruned (some it.2.value) := by
      unfold writeEntry
      split
      · split
        · next pruned => rw [lookup_erase, seen_none, seen_some_of_gone pruned]
        · rw [lookup_insert]
      · next clean => exact ((first ▸ above it.1).clean it.2 rfl (not_eq_true _ ▸ clean)).symm
    rw [foldl_cons, ih (coins.writeEntry it) keys.2]
    · by_cases same : txid = it.1
      · rw [same, later, first, read_none, read_some, here]
      · rw [elsewhere txid same, dlookup_cons_ne rest it same]
    intro other
    by_cases same : other = it.1
    · rw [same, later]
      exact .none
    have there := above other
    rw [dlookup_cons_ne rest it same] at there
    rw [elsewhere other same]
    exact there

namespace CCoinsView
theorem getCoins_fst (v : CCoinsView) (txid : UInt256) : (v.getCoins txid).1 = v.peek txid := by
  induction v with
  | db coins bestBlock => rfl
  | cache cacheCoins hashBlock base ih =>
    unfold getCoins peek
    cases cacheCoins.lookup txid with
    | some it => rfl
    | none => exact ih

theorem peek_getCoins (v : CCoinsView) (txid other : UInt256) :
    (v.getCoins txid).2.peek other = v.peek other := by
  induction v with
  | db _ _ => rfl
  | cache cacheCoins _ base ih =>
    unfold getCoins
    cases found : cacheCoins.lookup txid with
    | some _ => rfl
    | none =>
      simp only [peek, ih, getCoins_fst, CCoinsMap.lookup_fill cacheCoins txid other _ found]
      by_cases same : other = txid
      · subst same
        rw [if_pos rfl, found]
        cases base.peek other <;> rfl
      · rw [if_neg same]

theorem Coherent.getCoins {v : CCoinsView} (coherent : v.Coherent) (txid : UInt256) :
    (v.getCoins txid).2.Coherent := by
  induction v with
  | db _ _ => trivial
  | cache cacheCoins _ base ih =>
    unfold CCoinsView.getCoins
    cases found : cacheCoins.lookup txid with
    | some _ => exact coherent
    | none =>
      refine ⟨ih coherent.1, fun other => ?_⟩
      rw [peek_getCoins, getCoins_fst, CCoinsMap.lookup_fill cacheCoins txid other _ found]
      by_cases same : other = txid
      · subst same
        rw [if_pos rfl]
        cases base.peek other with
        | none => exact .none
        | some _ => exact .filled
      · rw [if_neg same]
        exact coherent.2 other

theorem peek_getBestBlock (v : CCoinsView) (txid : UInt256) :
    v.getBestBlock.2.peek txid = v.peek txid := by
  induction v with
  | db _ _ => rfl
  | cache _ _ _ ih =>
    unfold getBestBlock
    split
    · simp [peek, ih]
    · rfl

theorem Coherent.getBestBlock {v : CCoinsView} (coherent : v.Coherent) :
    v.getBestBlock.2.Coherent := by
  induction v with
  | db _ _ => trivial
  | cache _ _ _ ih =>
    unfold CCoinsView.getBestBlock
    split
    · refine ⟨ih coherent.1, fun txid => ?_⟩
      rw [peek_getBestBlock]
      exact coherent.2 txid
    · exact coherent

theorem Coherent.batchWrite {v : CCoinsView} (coherent : v.Coherent) (m : CCoinsMap)
    (hashBlock : UInt256) (above : ∀ txid, Sound CCoins.isPruned (m.lookup txid) (v.peek txid)) :
    ∃ w, v.batchWrite m hashBlock = some w ∧ w.Coherent ∧ w.layers = v.layers ∧
      ∀ txid, w.shown txid = seen CCoins.isPruned (read (m.lookup txid) (v.peek txid)) := by
  cases v with
  | db coins _ => exact ⟨_, rfl, trivial, rfl, coins.foldl_writeEntry m.entries m.nodupKeys above⟩
  | cache _ _ base =>
    obtain ⟨m', written, sound, view⟩ :=
      CCoinsMap.foldlM_writeEntry m.entries m.nodupKeys coherent.2 above
    refine ⟨.cache m' hashBlock base, ?_, ⟨coherent.1, sound⟩, rfl, view⟩
    rw [CCoinsView.batchWrite, written]
    rfl

end CCoinsView

namespace CCoinsViewCache
variable {c : CCoinsViewCache} {m : CoinsMap}

structure Shows (c : CCoinsViewCache) (m : CoinsMap) : Prop where
  coherent : c.toView.Coherent
  shown : c.toView.shown = m

theorem fetchCoins_eq (c : CCoinsViewCache) (txid : UInt256) :
    (c.fetchCoins txid).1 = c.toView.peek txid ∧
      (c.fetchCoins txid).2.toView = (c.toView.getCoins txid).2 := by
  simp only [fetchCoins, toView, CCoinsView.getCoins, CCoinsView.peek]
  cases c.cacheCoins.lookup txid with
  | some _ => exact ⟨rfl, rfl⟩
  | none => exact ⟨CCoinsView.getCoins_fst c.base txid, rfl⟩

theorem Shows.fetchCoins (view : c.Shows m) (txid : UInt256) :
    seen CCoins.isPruned (c.fetchCoins txid).1 = m txid ∧ (c.fetchCoins txid).2.Shows m := by
  obtain ⟨found, after⟩ := fetchCoins_eq c txid
  refine ⟨?_, ?_, ?_⟩
  · rw [found, ← view.shown]
    rfl
  · rw [after]
    exact view.coherent.getCoins txid
  rw [after, ← view.shown]
  funext other
  rw [CCoinsView.shown, CCoinsView.peek_getCoins]
  rfl

theorem modifyCoins_eq (c : CCoinsViewCache) (txid : UInt256) : (c.modifyCoins txid).1 =
        opened isPruned .empty (c.cacheCoins.lookup txid) (c.base.peek txid) ∧
      ((c.modifyCoins txid).2 = c ∨
        (c.modifyCoins txid).2 = { c with base := (c.base.getCoins txid).2 }) := by
  unfold modifyCoins
  cases c.cacheCoins.lookup txid with
  | some _ => exact ⟨rfl, .inl rfl⟩
  | none =>
    refine ⟨?_, .inr rfl⟩
    rw [← getCoins_fst]
    rcases c.base.getCoins txid with ⟨found, base⟩
    cases found <;> rfl

theorem base_peek_modifyCoins (c : CCoinsViewCache) (txid other : UInt256) :
    (c.modifyCoins txid).2.base.peek other = c.base.peek other := by
  obtain same | filled := (modifyCoins_eq c txid).2
  · rw [same]
  · rw [filled]
    exact peek_getCoins c.base txid other

theorem cacheCoins_modifyCoins (c : CCoinsViewCache) (txid : UInt256) :
    (c.modifyCoins txid).2.cacheCoins = c.cacheCoins := by
  obtain same | filled := (modifyCoins_eq c txid).2
  · rw [same]
  · rw [filled]

theorem Shows.modifyCoins_snd (view : c.Shows m) (txid : UInt256) :
    (c.modifyCoins txid).2.Shows m := by
  refine ⟨⟨?_, ?_⟩, ?_⟩
  · obtain same | filled := (modifyCoins_eq c txid).2
    · rw [same]
      exact view.coherent.1
    · rw [filled]
      exact view.coherent.1.getCoins txid
  · intro other
    rw [cacheCoins_modifyCoins, base_peek_modifyCoins]
    exact view.coherent.2 other
  rw [← view.shown]
  funext other
  simp [CCoinsView.shown, toView, CCoinsView.peek, cacheCoins_modifyCoins, base_peek_modifyCoins]

theorem lookup_endModify : (c.endModify txid it).cacheCoins.lookup other =
      if other = txid then settled isPruned { it with value := it.value.cleanup }
      else c.cacheCoins.lookup other := by
  unfold endModify settled
  by_cases drop : (it.fresh && it.value.cleanup.isPruned)
  · simp only [if_pos drop]
    split
    · next same =>
      rw [same]
      exact lookup_erase txid c.cacheCoins
    · next ne => exact lookup_erase_ne ne
  simp only [if_neg drop]
  split
  · next same =>
    rw [same]
    exact lookup_insert c.cacheCoins
  · next ne => exact lookup_insert_ne ne

theorem base_endModify : (c.endModify txid it).base = c.base := by
  simp only [endModify]
  split <;> rfl

section
variable (view : c.Shows m)
include view

theorem Shows.endModify (dirty : it.dirty)
    (fresh : it.fresh → seen CCoins.isPruned (c.base.peek txid) = none) :
    (c.endModify txid it).Shows (update m txid it.value.kept) := by
  refine ⟨⟨by rw [base_endModify]; exact view.coherent.1, fun other => ?_⟩, funext fun other => ?_⟩
  · rw [lookup_endModify, base_endModify]
    split
    · next same =>
      rw [same]
      exact .settled dirty fresh
    · exact view.coherent.2 other
  simp only [CCoinsView.shown, toView, CCoinsView.peek, lookup_endModify, base_endModify]
  by_cases same : other = txid
  · rw [if_pos same, same, update_self]
    exact seen_read_settled fresh
  · rw [if_neg same, update_of_ne same, ← view.shown]
    rfl

section
variable (txid : UInt256)
include txid

theorem Shows.modifyCoins_value :
    seen isPruned (some (c.modifyCoins txid).1.value) = m txid := by
  rw [(modifyCoins_eq c txid).1, opened_value isPruned_empty, ← view.shown]
  rfl

theorem Shows.modifyCoins_endModify (after : CCoins) :
    ((c.modifyCoins txid).2.endModify txid { (c.modifyCoins txid).1 with value := after }).Shows
      (update m txid after.kept) := by
  refine (view.modifyCoins_snd txid).endModify ?_ ?_
  · rw [(modifyCoins_eq c txid).1]
    exact opened_dirty empty
  · rw [(modifyCoins_eq c txid).1, base_peek_modifyCoins]
    exact (view.coherent.2 txid).opened_fresh empty

theorem Shows.modify (f : CCoins → CCoins) : (c.modify txid f).Shows
      (update m txid (f (c.modifyCoins txid).1.value).kept) :=
  view.modifyCoins_endModify txid (f (c.modifyCoins txid).1.value)

theorem Shows.modifyNewCoins (coinbase : Bool)
    (new : coinbase = false → m txid = none) :
    ∃ it, c.modifyNewCoins txid coinbase = some it ∧ it.value = .empty ∧
      ∀ after, (c.endModify txid { it with value := after }).Shows
        (update m txid after.kept) := by
  have sound := view.coherent.2 txid
  have unchanged : ∀ x, c.cacheCoins.lookup txid = some x → x.fresh →
      seen isPruned (c.base.peek txid) = none := fun x found => sound.fresh x found
  unfold CCoinsViewCache.modifyNewCoins
  cases coinbase with
  | true =>
    refine ⟨_, if_pos rfl, rfl, fun after => view.endModify rfl ?_⟩
    cases found : c.cacheCoins.lookup txid with
    | none => intro fresh; cases fresh
    | some x => exact unchanged x found
  | false =>
    have missing : seen isPruned (read (c.cacheCoins.lookup txid) (c.base.peek txid)) = none := by
      rw [← new rfl, ← view.shown]
      rfl
    cases found : c.cacheCoins.lookup txid with
    | none =>
      rw [found, read_none] at missing
      exact ⟨_, rfl, rfl, fun after => view.endModify rfl fun _ => missing⟩
    | some x =>
      rw [found, read_some] at missing
      have pruned := seen_eq_none.1 missing _ rfl
      refine ⟨⟨.empty, true, x.fresh || !x.dirty⟩, ?_, rfl, fun after => view.endModify rfl ?_⟩
      · simp [pruned]
      -- a clean entry says what is below; here, that nothing is
      cases dirty : x.dirty with
      | true =>
        simp only [Bool.not_true, Bool.or_false]
        exact unchanged x found
      | false =>
        intro _
        rw [← sound.clean x found dirty]
        exact missing

end

end

theorem modifyNew_eq_some (created : c.modifyNew txid coinbase f = some c') :
    ∃ it, c.modifyNewCoins txid coinbase = some it ∧
      c' = c.endModify txid { it with value := f it.value } := by
  obtain ⟨it, opened, ⟨⟩⟩ := bind_eq_some_iff.1 created
  exact ⟨it, opened, rfl⟩

theorem Shows.modifyNew (view : c.Shows m) (txid : UInt256) (coinbase : Bool)
    (f : CCoins → CCoins) (new : coinbase = false → m txid = none) :
    ∃ c', c.modifyNew txid coinbase f = some c' ∧
      c'.Shows (update m txid (f .empty).kept) := by
  obtain ⟨it, opened, cleared, after⟩ := view.modifyNewCoins txid coinbase new
  refine ⟨c.endModify txid { it with value := f it.value }, ?_, ?_⟩
  · rw [CCoinsViewCache.modifyNew, opened]
    rfl
  · rw [cleared]
    exact after (f .empty)

theorem Shows.uncache (view : c.Shows m) (txid : UInt256) : (c.uncache txid).Shows m := by
  unfold CCoinsViewCache.uncache
  cases found : c.cacheCoins.lookup txid with
  | none => exact view
  | some it =>
    by_cases flags : (it.dirty || it.fresh)
    · simp only [if_pos flags]
      exact view
    simp only [if_neg flags]
    have clean : it.dirty = false := by simp_all
    refine ⟨⟨view.coherent.1, fun other => ?_⟩, ?_⟩
    · by_cases same : other = txid
      · rw [same, lookup_erase]
        exact .none
      · rw [lookup_erase_ne same]
        exact view.coherent.2 other
    rw [← view.shown]
    funext other
    simp only [CCoinsView.shown, toView, CCoinsView.peek]
    by_cases same : other = txid
    · rw [same, lookup_erase, read_none, found, read_some]
      exact ((view.coherent.2 txid).clean it found clean).symm
    · rw [lookup_erase_ne same]

theorem Shows.flush (view : c.Shows m) :
    ∃ c', c.flush = some c' ∧ c'.Shows m ∧ c'.base.Coherent ∧ c'.base.shown = m ∧
      c'.base.layers = c.base.layers := by
  obtain ⟨base, written, coherent, layers, shown⟩ :=
    view.coherent.1.batchWrite c.cacheCoins c.hashBlock view.coherent.2
  have same : base.shown = m := by
    rw [← view.shown]
    exact funext shown
  refine ⟨{ c with cacheCoins := ∅, base := base }, ?_, ⟨⟨coherent, fun _ => .none⟩, same⟩,
    coherent, same, layers⟩
  rw [CCoinsViewCache.flush, written]
  rfl

theorem toView_getBestBlock : c.getBestBlock.2.toView = c.toView.getBestBlock.2 := by
  simp only [getBestBlock, toView, CCoinsView.getBestBlock]
  split <;> rfl

theorem Shows.getBestBlock (view : c.Shows m) : c.getBestBlock.2.Shows m := by
  refine ⟨?_, ?_⟩
  · rw [toView_getBestBlock]
    exact view.coherent.getBestBlock
  rw [toView_getBestBlock, ← view.shown]
  funext txid
  rw [CCoinsView.shown, CCoinsView.peek_getBestBlock]
  rfl

theorem Shows.setBestBlock (view : c.Shows m) (hashBlock : UInt256) :
    (c.setBestBlock hashBlock).Shows m :=
  ⟨view.coherent, view.shown⟩

theorem shows_ofBase (coherent : v.Coherent) : (ofBase v).Shows v.shown :=
  ⟨⟨coherent, fun _ => .none⟩, rfl⟩

end CCoinsViewCache
end DogecoinCore.Coins
