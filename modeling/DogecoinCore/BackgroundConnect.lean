import DogecoinCore.ConnectChecks

/-! A block that the background validation cannot connect. `ConnectTip` gives `ConnectBlock` a cache
of its own and drops it on failure; `StepBackgroundValidation` gives it the coins view of the
parked chainstate, and what the block did before it failed stays there. -/
namespace DogecoinCore.Coins
open List Option Bool DogecoinCore.Coins.CCoinsViewCache CCoins CCoinsView
open Outcome WriteBack

/-- Why a turn of `StepBackgroundValidation` fails at the coins. -/
inductive BackgroundError where
  /-- "Background coins bestblock %s != expected prev %s". -/
  | bestBlock (found expected : UInt256)
  /-- "ConnectBlock failed at height %d: %s". -/
  | connectBlock (height : Int32) (reason : String)
  deriving DecidableEq, Repr

/-- The coins in a turn of `StepBackgroundValidation`, from the check of their best block on. A
failure leaves the view of the parked chainstate as it then is. -/
def backgroundConnect (ctx : ConnectContext) (block : CBlock) (view : CCoinsViewCache) :
    Outcome (BackgroundError × CCoinsViewCache) CCoinsViewCache :=
  let (bestBlock, view) := view.getBestBlock
  if bestBlock ≠ ctx.hashPrevBlock then .fail (.bestBlock bestBlock ctx.hashPrevBlock, view)
  else
    match connectBlock ctx block view with
    | .abort => .abort
    | .fail r => .fail (.connectBlock ctx.nHeight r.reason, r.view)
    | .ok (view, _) => .ok view

section Alike
variable {tx : CTransaction} {c₁ c₂ view₁ view₂ : CCoinsViewCache}

theorem orReject_alike : (orReject view₁ (refuse failed reason)).Alike (fun _ _ => failed = false)
      (orReject view₂ (refuse failed reason')) := by
  cases failed with
  | true => trivial
  | false => rfl

theorem orAbort_alike : (orAbort x).Alike (fun a b => a = b) (orAbort x) := by
  cases x with
  | none => trivial
  | some a => rfl

structure SameInputs (tx : CTransaction) (c₁ c₂ view₁ view₂ : CCoinsViewCache) : Prop where
  filled₁ : c₁.Filled view₁
  filled₂ : c₂.Filled view₂
  output : ∀ out, c₁.output out = c₂.output out
  peek : ∀ txin ∈ tx.vin, (c₁.output txin.prevout).isSome →
    c₁.toView.peek txin.prevout.hash = c₂.toView.peek txin.prevout.hash

section
variable (same : SameInputs tx c₁ c₂ view₁ view₂)
include same

theorem SameInputs.haveInputs (spends : tx.isCoinBase = false) : ∃ found view₁' view₂',
    view₁.haveInputs tx = (found, view₁') ∧ view₂.haveInputs tx = (found, view₂') ∧
      SameInputs tx c₁ c₂ view₁' view₂' ∧
      (found → ∀ txin ∈ tx.vin, (c₁.output txin.prevout).isSome) := by
  obtain ⟨view₁', have₁, next₁⟩ := haveInputs_spec same.filled₁ spends
  obtain ⟨view₂', have₂, next₂⟩ := haveInputs_spec same.filled₂ spends
  simp only [← same.output] at have₂
  exact ⟨_, view₁', view₂', have₁, have₂, ⟨next₁, next₂, same.output, same.peek⟩, List.all_eq_true.1⟩

theorem SameInputs.accessInputs
    (there : ∀ txin ∈ tx.vin, (c₁.output txin.prevout).isSome) : ∃ coins view₁' view₂',
    view₁.accessInputs tx.vin = (coins, view₁') ∧ view₂.accessInputs tx.vin = (coins, view₂') ∧
      SameInputs tx c₁ c₂ view₁' view₂' := by
  obtain ⟨view₁', coins₁, next₁⟩ := accessInputs_spec same.filled₁ tx.vin
  obtain ⟨view₂', coins₂, next₂⟩ := accessInputs_spec same.filled₂ tx.vin
  rw [← map_congr_left fun txin mem => same.peek txin mem (there txin mem)] at coins₂
  exact ⟨_, view₁', view₂', coins₁, coins₂, ⟨next₁, next₂, same.output, same.peek⟩⟩

theorem checkFinal_alike (spends : tx.isCoinBase = false) :
    (checkFinal ctx tx view₁).Alike (fun view₁ view₂ => SameInputs tx c₁ c₂ view₁ view₂ ∧
      ∀ txin ∈ tx.vin, (c₁.output txin.prevout).isSome) (checkFinal ctx tx view₂) := by
  obtain ⟨_, _, _, have₁, have₂, same', there⟩ := same.haveInputs spends
  simp only [checkFinal, have₁, have₂]
  refine (orReject_alike ..).bind fun _ _ all => ?_
  have there := there (by simpa using all)
  obtain ⟨_, _, _, coins₁, coins₂, same''⟩ := same'.accessInputs there
  simp only [coins₁, coins₂]
  exact (orReject_alike ..).bind fun _ _ _ => ⟨same'', there⟩

end

theorem checkTxInputsLoop_alike (filled₁ : c₁.Filled view₁) (filled₂ : c₂.Filled view₂)
    (peek : ∀ txin ∈ vin, c₁.toView.peek txin.prevout.hash = c₂.toView.peek txin.prevout.hash) :
    (checkTxInputsLoop ctx nSpendHeight nValueIn vin view₁).Alike
      (fun p q => p.1 = q.1 ∧ c₁.Filled p.2 ∧ c₂.Filled q.2)
      (checkTxInputsLoop ctx nSpendHeight nValueIn vin view₂) := by
  induction vin generalizing view₁ view₂ nValueIn with
  | nil => exact ⟨rfl, filled₁, filled₂⟩
  | cons txin _ ih =>
    obtain ⟨here, later⟩ := forall_mem_cons.1 peek
    obtain ⟨_, access₁, next₁⟩ := accessCoins_spec filled₁ txin.prevout.hash
    obtain ⟨_, access₂, next₂⟩ := accessCoins_spec filled₂ txin.prevout.hash
    simp only [checkTxInputsLoop, access₁, access₂, ← here]
    refine (orAbort_alike).bind ?_
    rintro _ _ rfl
    refine (orReject_alike ..).bind fun _ _ _ => (orReject_alike ..).bind fun _ _ _ => ?_
    exact ih next₁ next₂ later

section
variable (same : SameInputs tx c₁ c₂ view₁ view₂)
include same

theorem checkTxInputs_alike
    (spends : tx.isCoinBase = false) :
    (checkTxInputs ctx tx nSpendHeight view₁).Alike (fun view₁ view₂ =>
      SameInputs tx c₁ c₂ view₁ view₂ ∧ ∀ txin ∈ tx.vin, (c₁.output txin.prevout).isSome)
      (checkTxInputs ctx tx nSpendHeight view₂) := by
  obtain ⟨_, _, _, have₁, have₂, same', there⟩ := same.haveInputs spends
  simp only [checkTxInputs, have₁, have₂]
  refine (orReject_alike ..).bind fun _ _ all => ?_
  have there := there (by simpa using all)
  refine (checkTxInputsLoop_alike same'.filled₁ same'.filled₂
    fun txin mem => same'.peek txin mem (there txin mem)).bind ?_
  rintro ⟨_, _⟩ ⟨_, _⟩ ⟨rfl, filled₁, filled₂⟩
  refine (orAbort_alike).bind ?_
  rintro _ _ rfl
  refine (orReject_alike ..).bind fun _ _ _ => (orReject_alike ..).bind fun _ _ _ =>
    (orReject_alike ..).bind fun _ _ _ => ?_
  exact ⟨⟨filled₁, filled₂, same.output, same.peek⟩, there⟩

theorem checkInputs_alike (spends : tx.isCoinBase = false) :
    (checkInputs ctx tx view₁).Alike (fun _ _ => True) (checkInputs ctx tx view₂) := by
  refine (checkTxInputs_alike same spends).bind ?_
  rintro _ _ ⟨same', there⟩
  obtain ⟨_, _, _, coins₁, coins₂, -⟩ := same'.accessInputs there
  split
  · simp only [coins₁, coins₂]
    split
    · trivial
    · exact (orReject_alike ..).bind fun _ _ _ => trivial
  · trivial

end

theorem sameInputs_of_shows (shows₁ : c₁.Shows m) (shows₂ : c₂.Shows m) :
    SameInputs tx c₁ c₂ c₁ c₂ := by
  refine ⟨.refl, .refl, fun out => (shows₁.output out).trans (shows₂.output out).symm, ?_⟩
  intro txin _ there
  obtain ⟨out, found⟩ := isSome_iff_exists.1 there
  obtain ⟨coins, record, available⟩ := bind_eq_some_iff.1 found
  have shown : c₂.toView.shown txin.prevout.hash = some coins := by
    rw [shows₂.shown, ← shows₁.shown, shown, record]
    exact seen_some_of_there (isPruned_of_available available)
  rw [record, (seen_eq_some.1 shown).1]

private theorem checkConnect_alike (shows₁ : s₁.view.Shows m)
    (shows₂ : s₂.view.Shows m) (sigops : s₁.nSigOpsCost = s₂.nSigOpsCost)
    (spends : tx.isCoinBase = false) :
    (checkConnect ctx tx s₁).Alike (fun _ _ => True) (checkConnect ctx tx s₂) := by
  unfold checkConnect
  rw [if_neg (by rw [spends]; exact Bool.false_ne_true), if_neg (by rw [spends]; exact Bool.false_ne_true)]
  refine (checkFinal_alike (sameInputs_of_shows shows₁ shows₂) spends).bind ?_
  rintro _ _ ⟨same, there⟩
  obtain ⟨_, _, _, coins₁, coins₂, same'⟩ := same.accessInputs there
  obtain ⟨_, amount₁, filled₁⟩ := getValueIn_spec same'.filled₁ spends
  obtain ⟨_, amount₂, filled₂⟩ := getValueIn_spec same'.filled₂ spends
  have amounts : s₂.view.amountIn 0 tx.vin = s₁.view.amountIn 0 tx.vin := by
    simp [amountIn, same.output]
  simp only [← same.output, amounts] at amount₂
  simp only [coins₁, coins₂, amount₁, amount₂, sigops]
  refine (orReject_alike ..).bind fun _ _ _ => ?_
  refine (orAbort_alike).bind fun _ _ _ => (orAbort_alike).bind fun _ _ _ => ?_
  exact (checkInputs_alike ⟨filled₁, filled₂, same.output, same.peek⟩ spends).bind fun _ _ _ => trivial

theorem refused_congr (shows₁ : c₁.Shows m) (shows₂ : c₂.Shows m) (spends : tx.isCoinBase = false) :
    (∃ r, checkConnect ctx tx ⟨c₁, 0, nSigOpsCost, [], true⟩ = .fail r) ↔
      ∃ r, checkConnect ctx tx ⟨c₂, 0, nSigOpsCost, [], true⟩ = .fail r :=
  Alike.fail_iff (checkConnect_alike shows₁ shows₂ rfl spends)

end Alike

theorem CCoinsViewCache.Filled.keeps {P : CCoinsViewCache → Prop}
    (filled : c.Filled c') (fetch : ∀ c txid, P c → P (c.fetchCoins txid).2) (here : P c) : P c' := by
  induction filled with
  | refl => exact here
  | tail _ step ih =>
    obtain ⟨txid, rfl⟩ := step
    exact fetch _ txid ih

private theorem connectTxs_keeps {P : CCoinsViewCache → Prop}
    (fetch : ∀ c txid, P c → P (c.fetchCoins txid).2)
    (turn : ∀ tx ∈ vtx, ∀ s s₁ undo view', P s₁.view → Checked ctx tx s s₁ →
      updateCoins tx s₁.view ctx.nHeight = some (undo, view') → P view')
    {first : Bool} (start : P s.view) :
    (connectTransactions ctx first vtx s).Ends (fun r => P r.view) fun s' => P s'.view := by
  induction vtx generalizing s first with
  | nil => exact start
  | cons tx _ ih =>
    obtain ⟨here, later⟩ := forall_mem_cons.1 turn
    have one : (connectTransaction ctx first tx s).Ends (fun r => P r.view) fun s' => P s'.view := by
      refine ((checkConnect_ends).imp (fun r left => left.keeps fetch start) fun _ => id).bind ?_
      intro s₁ checked
      refine (orAbort_ends).bind ?_
      rintro ⟨undo, view'⟩ updated
      exact here s s₁ undo view' (checked.filled.keeps fetch start) checked updated
    exact one.bind fun s' kept => ih later kept

section Entry
variable {below : Option CCoins}

/-- Output `i` of some coins is gone for good in a block of height `H`: the entry does not have it,
other coins than those of this block are not written over it, and nothing below can come back. -/
structure Lost (i : ℕ) (H : Int32) (e : Option CCoinsCacheEntry) (below : Option CCoins) : Prop where
  gone : ∀ coins, read e below = some coins → coins.unspent i = none ∨ coins.nHeight = H
  flags : ∀ x, e = some x → x.fresh = true ∨ x.dirty = false → seen isPruned below = none
  absent : e = none → seen isPruned below = none

theorem Lost.settled (dirty : x.dirty) (gone : x.value.unspent i = none ∨ x.value.nHeight = H)
    (fresh : x.fresh → seen isPruned below = none) :
    Lost i H (settled isPruned x) below := by
  unfold WriteBack.settled
  split
  · next both =>
    have nothing := fresh (and_eq_true _ _ ▸ both).1
    refine ⟨fun coins found => .inl ?_, nofun, fun _ => nothing⟩
    exact isPruned_iff.1 (seen_eq_none.1 nothing coins found) i
  refine ⟨?_, ?_, nofun⟩
  · rintro coins ⟨⟩
    exact gone
  rintro _ ⟨⟩ flag
  rcases flag with flag | clean
  · exact fresh flag
  · rw [dirty] at clean
    cases clean

theorem Lost.filled (lost : Lost i H none (some coins)) :
    Lost i H (some (filled isPruned coins)) (some coins) :=
  ⟨lost.gone, fun _ _ _ => lost.absent rfl, nofun⟩

theorem Lost.opened (lost : Lost i H e below) :
    ((opened isPruned .empty e below).value.unspent i = none ∨
      (opened isPruned .empty e below).value.nHeight = H) ∧
    ((opened isPruned .empty e below).fresh → seen isPruned below = none) := by
  cases e with
  | some x => exact ⟨lost.gone x.value rfl, fun fresh => lost.flags x rfl (.inl fresh)⟩
  | none =>
    refine ⟨?_, fun _ => lost.absent rfl⟩
    cases below with
    | some coins => exact lost.gone coins rfl
    | none => exact .inl rfl

end Entry

namespace CCoinsViewCache
variable {c c' : CCoinsViewCache}

def Lost (c : CCoinsViewCache) (txid : UInt256) (i : ℕ) (H : Int32) : Prop :=
  Coins.Lost i H (c.cacheCoins.lookup txid) (c.base.peek txid)

theorem Lost.fetchCoins (lost : c.Lost txid i H) (other : UInt256) :
    (c.fetchCoins other).2.Lost txid i H := by
  unfold Lost CCoinsViewCache.fetchCoins
  cases found : c.cacheCoins.lookup other with
  | some _ => exact lost
  | none =>
    simp only [peek_getCoins, getCoins_fst, CCoinsMap.lookup_fill c.cacheCoins other txid _ found]
    by_cases same : txid = other
    · subst same
      rw [Lost, found] at lost
      rw [if_pos rfl]
      cases below : c.base.peek txid with
      | none =>
        rw [below] at lost
        exact lost
      | some _ =>
        rw [below] at lost
        exact lost.filled
    · rw [if_neg same]
      exact lost

theorem Lost.endModify (elsewhere : other ≠ txid → c.Lost txid i H)
    (here : other = txid → it.dirty ∧ (it.value.unspent i = none ∨ it.value.nHeight = H) ∧
      (it.fresh → seen isPruned (c.base.peek txid) = none)) :
    (c.endModify other it).Lost txid i H := by
  rw [Lost, lookup_endModify, base_endModify]
  split
  · next same =>
    obtain ⟨dirty, gone, fresh⟩ := here same.symm
    refine .settled dirty ?_ fresh
    rw [unspent_cleanup]
    exact gone
  · next ne => exact elsewhere (Ne.symm ne)

theorem Lost.modifyCoins (lost : c.Lost txid i H) (other : UInt256) :
    (c.modifyCoins other).2.Lost txid i H := by
  rw [Lost, cacheCoins_modifyCoins, base_peek_modifyCoins]
  exact lost

theorem Lost.shown_ne (lost : c.Lost txid i H)
    (there : coins.unspent i = some out) (earlier : coins.nHeight ≠ H) :
    c.toView.shown txid ≠ some coins := by
  intro shown
  rcases lost.gone coins (seen_eq_some.1 shown).1 with gone | height
  · rw [gone] at there
    cases there
  · exact earlier height

end CCoinsViewCache

section Update
variable {tx : CTransaction} {c c' : CCoinsViewCache}

theorem spendInput_lost (lost : c.Lost txid i H)
    (spent : spendInput c txin = some (undo, c')) : c'.Lost txid i H := by
  obtain ⟨_, _, _, _, modifier, -, removed, -, rfl⟩ := spendInput_eq_some spent
  have opened := (modifyCoins_eq c txin.prevout.hash).1
  have lost₁ := lost.modifyCoins txin.prevout.hash
  have base₁ := base_peek_modifyCoins c txin.prevout.hash
  rw [modifier] at opened lost₁ base₁
  dsimp only at opened lost₁ base₁
  refine .endModify (fun _ => lost₁) fun same => ?_
  rw [same] at opened
  obtain ⟨gone, fresh⟩ := Coins.Lost.opened lost
  rw [← opened] at gone fresh
  refine ⟨?_, ?_, ?_⟩
  · rw [opened]
    exact opened_dirty empty
  · rcases gone with gone | height
    · refine .inl ?_
      rw [unspent_spend removed, gone, ite_self]
    refine .inr ?_
    rw [(spend_eq_some removed).1]
    exact height
  · rw [base₁]
    exact fresh

variable {undo : CTxUndo}

section
variable (lost : c.Lost txid i H)
include lost

theorem spendInputs_lost
    (spent : spendInputs c vin = some (undo, c')) : c'.Lost txid i H := by
  induction vin generalizing c undo with
  | nil =>
    cases spent
    exact lost
  | cons _ _ ih =>
    obtain ⟨_, _, _, head, last, rfl⟩ := spendInputs_cons spent
    exact ih (spendInput_lost lost head) last

theorem modifyNew_lost
    (created : c.modifyNew other coinbase (fun _ => .fromTx tx H) = some c') : c'.Lost txid i H := by
  obtain ⟨it, opened, rfl⟩ := modifyNew_eq_some created
  refine .endModify (fun _ => lost) ?_
  rintro rfl
  have flags : it.dirty ∧ (it.fresh → seen isPruned (c.base.peek other) = none) := by
    unfold modifyNewCoins at opened
    rw [CCoinsViewCache.Lost] at lost
    cases found : c.cacheCoins.lookup other with
    | none =>
      rw [found] at opened lost
      cases coinbase <;> cases opened <;> exact ⟨rfl, fun _ => lost.absent rfl⟩
    | some x =>
      rw [found] at opened lost
      have kept := lost.flags x rfl
      cases coinbase with
      | true =>
        cases opened
        exact ⟨rfl, fun fresh => kept (.inl fresh)⟩
      | false =>
        simp only [false_eq_true, if_false, getD_some] at opened
        split at opened
        · cases opened
        · cases opened
          exact ⟨rfl, fun fresh => kept (by simpa using fresh)⟩
  exact ⟨flags.1, .inr rfl, flags.2⟩

theorem updateCoins_lost
    (updated : updateCoins tx c H = some (undo, c')) : c'.Lost txid i H := by
  obtain ⟨_, spent, created⟩ := updateCoins_eq_some updated
  refine modifyNew_lost ?_ created
  split at spent
  · cases spent
    exact lost
  · exact spendInputs_lost lost spent

end

private theorem updateCoins_loses (view : c.Shows m) (spends : tx.isCoinBase = false) (inputs : tx.vin ≠ [])
    (updated : updateCoins tx c H = some (undo, c')) :
    ∃ txid i coins out, m txid = some coins ∧ coins.unspent i = some out ∧ c'.Lost txid i H := by
  obtain ⟨_, spent, created⟩ := updateCoins_eq_some updated
  rw [if_neg (by rw [spends]; exact Bool.false_ne_true)] at spent
  obtain ⟨txin, _, vin⟩ := exists_cons_of_ne_nil inputs
  rw [vin] at spent
  obtain ⟨_, _, _, head, last, rfl⟩ := spendInputs_cons spent
  obtain ⟨coins, out, _, found, available, -⟩ := spendInput_spec view head
  refine ⟨txin.prevout.hash, txin.prevout.n.toNat, coins, out, found, available, ?_⟩
  refine modifyNew_lost (spendInputs_lost ?_ last) created
  obtain ⟨_, _, _, _, modifier, -, removed, -, rfl⟩ := spendInput_eq_some head
  have opened := (modifyCoins_eq c txin.prevout.hash).1
  have base₄ := base_peek_modifyCoins c txin.prevout.hash
  rw [modifier] at opened base₄
  dsimp only at opened base₄
  refine .endModify (fun ne => absurd rfl ne) fun _ => ⟨?_, .inl ?_, ?_⟩
  · rw [opened]
    exact opened_dirty empty
  · rw [unspent_spend removed, if_pos rfl]
  · rw [opened, base₄]
    exact (view.coherent.2 txin.prevout.hash).opened_fresh empty

private theorem modifyNew_loses (view : c.Shows m)
    (created : c.modifyNew txid true (fun _ => .fromTx tx H) = some c') : c'.Lost txid i H := by
  obtain ⟨_, opened, rfl⟩ := modifyNew_eq_some created
  cases opened
  refine .endModify (fun ne => absurd rfl ne) fun _ => ⟨rfl, .inr rfl, ?_⟩
  cases top : c.cacheCoins.lookup txid with
  | none => exact nofun
  | some x => exact (view.coherent.2 txid).fresh x top

end Update

namespace CCoinsViewCache
variable {c c' : CCoinsViewCache}

/-- The cache has coins of a coinbase of height `H`. -/
def Minted (c : CCoinsViewCache) (txid : UInt256) (H : Int32) : Prop :=
  ∃ x, c.cacheCoins.lookup txid = some x ∧ x.value.isPruned = false ∧ x.value.nHeight = H ∧
    x.value.fCoinBase = true

theorem Minted.fetchCoins (minted : c.Minted txid H) (other : UInt256) :
    (c.fetchCoins other).2.Minted txid H := by
  obtain ⟨x, top, rest⟩ := minted
  refine ⟨x, ?_, rest⟩
  unfold CCoinsViewCache.fetchCoins
  cases found : c.cacheCoins.lookup other with
  | some _ => exact top
  | none =>
    have ne : txid ≠ other := by
      rintro rfl
      rw [found] at top
      cases top
    simp only [CCoinsMap.lookup_fill c.cacheCoins other txid _ found, if_neg ne]
    exact top

theorem Minted.peek (minted : c.Minted txid H) : ∃ coins, c.toView.peek txid = some coins ∧
    coins.isPruned = false ∧ coins.nHeight = H ∧ coins.fCoinBase := by
  obtain ⟨x, top, rest⟩ := minted
  refine ⟨x.value, ?_, rest⟩
  rw [toView, CCoinsView.peek, top]
  rfl

end CCoinsViewCache

section Coinbase
variable {tx : CTransaction} {c c' : CCoinsViewCache}

theorem spendInputs_lookup
    (others : ∀ txin ∈ vin, txin.prevout.hash ≠ txid) (spent : spendInputs c vin = some (undo, c')) :
    c'.cacheCoins.lookup txid = c.cacheCoins.lookup txid := by
  induction vin generalizing c undo with
  | nil =>
    cases spent
    rfl
  | cons txin _ ih =>
    obtain ⟨here, later⟩ := forall_mem_cons.1 others
    obtain ⟨_, _, _, head, last, rfl⟩ := spendInputs_cons spent
    obtain ⟨_, _, _, _, modifier, -, -, -, rfl⟩ := spendInput_eq_some head
    have lookup₃ := cacheCoins_modifyCoins c txin.prevout.hash
    rw [modifier] at lookup₃
    rw [ih later last, lookup_endModify, if_neg (Ne.symm here), lookup₃]

private theorem updateCoins_minted (spends : tx.isCoinBase = false)
    (minted : s₁.view.Minted txid ctx.nHeight) (checked : Checked ctx tx s s₁)
    (updated : updateCoins tx s₁.view ctx.nHeight = some (undo, c')) : c'.Minted txid ctx.nHeight := by
  obtain ⟨_, spent, created⟩ := updateCoins_eq_some updated
  rw [if_neg (by rw [spends]; exact Bool.false_ne_true)] at spent
  obtain ⟨_, peek, -, height, coinbase⟩ := minted.peek
  have others : ∀ txin ∈ tx.vin, txin.prevout.hash ≠ txid := by
    rintro txin mem rfl
    obtain ⟨_, _, record, -, -, mature⟩ := checked.spendable spends txin mem
    rw [← checked.filled.peek, peek] at record
    cases record
    refine mature coinbase ?_
    rw [height, Int32.sub_self]
    exact ctx.nCoinbaseMaturity_pos _
  obtain ⟨x, top, unpruned, rest⟩ := minted
  have top₁ := (spendInputs_lookup others spent).trans top
  obtain ⟨_, opened, rfl⟩ := modifyNew_eq_some created
  have ne : txid ≠ tx.hash := by
    rintro rfl
    simp only [modifyNewCoins, spends, top₁, getD_some, unpruned] at opened
    cases opened
  refine ⟨x, ?_, unpruned, rest⟩
  rw [lookup_endModify, if_neg ne]
  exact top₁

theorem modifyNew_minted (coinbase : tx.isCoinBase)
    (outputs : (fromTx tx H).isPruned = false)
    (created : c.modifyNew txid true (fun _ => .fromTx tx H) = some c') : c'.Minted txid H := by
  obtain ⟨it, _, rfl⟩ := modifyNew_eq_some created
  have kept := (isPruned_cleanup).trans outputs
  refine ⟨{ it with value := (fromTx tx H).cleanup }, ?_, kept, rfl, coinbase⟩
  rw [lookup_endModify, if_pos rfl, settled]
  simp [kept]

end Coinbase

section Block
variable {block : CBlock} {c c' view : CCoinsViewCache}

theorem checkBIP30_shown (shows : c.Shows m) (filled : c.Filled view) (vtx : List CTransaction) :
    (∃ r, checkBIP30 vtx view = .fail r ∧ c.Filled r.view ∧ ∃ tx ∈ vtx, m tx.hash ≠ none) ∨
      ∃ view', checkBIP30 vtx view = .ok view' ∧ c.Filled view' ∧ ∀ tx ∈ vtx, m tx.hash = none := by
  induction vtx generalizing view with
  | nil => exact .inr ⟨view, rfl, filled, forall_mem_nil _⟩
  | cons tx _ ih =>
    obtain ⟨view₁, access, next⟩ := accessCoins_spec filled tx.hash
    have shown : m tx.hash = seen isPruned (c.toView.peek tx.hash) := by
      rw [← shows.shown]
      rfl
    have found : (c.toView.peek tx.hash).any (fun coins => !coins.isPruned) = (m tx.hash).isSome := by
      rw [shown]
      cases c.toView.peek tx.hash with
      | none => rfl
      | some coins => cases pruned : coins.isPruned <;> simp [seen, Option.filter, pruned]
    simp only [checkBIP30, access, found]
    cases there : m tx.hash with
    | some coins =>
      exact .inl ⟨⟨view₁, _⟩, rfl, next, tx, mem_cons_self, by rw [there]; exact some_ne_none coins⟩
    | none =>
      rcases ih next with ⟨r, failed, last, other, mem, present⟩ | ⟨view', passed, last, none'⟩
      · exact .inl ⟨r, failed, last, other, mem_cons_of_mem _ mem, present⟩
      · exact .inr ⟨view', passed, last, forall_mem_cons.2 ⟨there, none'⟩⟩

/-- A block is refused before `UpdateCoins` is called for its first transaction. -/
def RefusedEarly (ctx : ConnectContext) (block : CBlock) (m : CoinsMap) : Prop :=
  checkBlock ctx.legacySigOpCount block ≠ .ok () ∨
    (ctx.fEnforceBIP30 = true ∧ ∃ tx ∈ block.vtx, m tx.hash ≠ none) ∨
    ∃ coinbase ∈ block.vtx.head?, ctx.sigOpCost coinbase [] > MAX_BLOCK_SIGOPS_COST

/-- A block that cannot be connected leaves the coins alone only if it is refused early, or if its
coinbase has no effect on them and the next transaction, if there is one, is refused. -/
def LeavesCoins (ctx : ConnectContext) (block : CBlock) (view : CCoinsViewCache) : Prop :=
  RefusedEarly ctx block view.toView.shown ∨
    ∃ coinbase rest, block.vtx = coinbase :: rest ∧ view.toView.shown coinbase.hash = none ∧
      (fromTx coinbase ctx.nHeight).isPruned = true ∧
      ∀ tx ∈ rest.head?, ∃ r, checkConnect ctx tx
        ⟨view, 0, ctx.sigOpCost coinbase [], [], true⟩ = .fail r

/-- The loop of `ConnectBlock` and what follows end with this view. -/
def EndsAt (x : Outcome Rejected ConnectLoop) (view : CCoinsViewCache) : Prop :=
  (∃ r, x = .fail r ∧ r.view = view) ∨ ∃ s, x = .ok s ∧ s.view = view

theorem EndsAt.of_ends {P : CCoinsViewCache → Prop}
    (at' : EndsAt x view) (ends : x.Ends (fun r => P r.view) fun s => P s.view) : P view := by
  rcases at' with ⟨r, failed, rfl⟩ | ⟨s, done, rfl⟩
  · exact ends.of_fail failed
  · exact ends.of_ok done

theorem not_endsAt_abort : ¬ EndsAt .abort view := by
  rintro (⟨_, ⟨⟩, -⟩ | ⟨_, ⟨⟩, -⟩)

variable {r : Rejected} {tx : CTransaction}
  {s : ConnectLoop}

theorem orReject_eq_fail
    (failed : orReject view check = .fail r) : check ≠ .ok () ∧ r.view = view := by
  cases check with
  | ok _ => cases failed
  | error _ =>
    cases failed
    exact ⟨nofun, rfl⟩

private theorem connectBlock_eq_fail (failed : connectBlock ctx block c = .fail r) :
    (checkBlock ctx.legacySigOpCount block ≠ .ok () ∧ r.view = c) ∨
      (checkBlock ctx.legacySigOpCount block = .ok () ∧
        ((if ctx.fEnforceBIP30 then checkBIP30 block.vtx c.getBestBlock.2 else .ok c.getBestBlock.2)
            = .fail r ∨
          ∃ view, (if ctx.fEnforceBIP30 then checkBIP30 block.vtx c.getBestBlock.2
            else .ok c.getBestBlock.2) = .ok view ∧
            EndsAt (connectTransactions ctx true block.vtx ⟨view, 0, 0, [], true⟩) r.view)) := by
  rcases bind_eq_fail.1 failed with early | ⟨_, passed, failed⟩
  · exact .inl (orReject_eq_fail early)
  refine .inr ⟨orReject_eq_ok passed, ?_⟩
  generalize c.getBestBlock = best at failed ⊢
  dsimp only at failed ⊢
  split at failed
  · cases failed
  split at failed
  · cases failed
  rcases bind_eq_fail.1 failed with bip30 | ⟨view, passed, failed⟩
  · exact .inl bip30
  refine .inr ⟨view, passed, ?_⟩
  rcases bind_eq_fail.1 failed with loop | ⟨s, loop, failed⟩
  · exact .inl ⟨r, loop, rfl⟩
  refine .inr ⟨s, loop, ?_⟩
  refine Ends.of_fail (P := fun r => s.view = r.view) (Q := fun _ => True) ?_ failed
  have rejects : ∀ failed reason, (orReject s.view (refuse failed reason)).Ends
      (fun r => s.view = r.view) fun _ => failed = false :=
    fun failed reason => orReject_ends rfl
  refine (orAbort_ends).bind fun _ _ => (rejects ..).bind fun _ _ => (rejects ..).bind fun _ _ => ?_
  split
  · trivial
  · exact (rejects ..).bind fun _ _ => (rejects ..).bind fun _ _ => trivial

private theorem connectTx_coinbase (ctx : ConnectContext) (shows : view.Shows m)
    (coinbase : tx.isCoinBase) :
    if ctx.sigOpCost tx [] > MAX_BLOCK_SIGOPS_COST then
      ∃ r, connectTransaction ctx true tx ⟨view, 0, 0, [], true⟩ = .fail r ∧ r.view = view
    else ∃ view', view.modifyNew tx.hash true (fun _ => .fromTx tx ctx.nHeight) = some view' ∧
      connectTransaction ctx true tx ⟨view, 0, 0, [], true⟩ =
        .ok ⟨view', 0, ctx.sigOpCost tx [], [], true⟩ ∧
      view'.Shows (Function.update m tx.hash (fromTx tx ctx.nHeight).kept) := by
  have sum : 0 + ctx.sigOpCost tx [] = ctx.sigOpCost tx [] := Int64.zero_add _
  unfold connectTransaction checkConnect
  simp only [if_pos coinbase, sum]
  split
  · next many =>
    refine ⟨⟨view, "bad-blk-sigops"⟩, ?_, rfl⟩
    simp only [decide_eq_true many]
    rfl
  next few =>
  obtain ⟨view', created, shows'⟩ := shows.modifyNew tx.hash true
    (fun _ => .fromTx tx ctx.nHeight) nofun
  have updated : updateCoins tx view ctx.nHeight = some ([], view') := by
    simp only [updateCoins, coinbase, if_true]
    exact bind_eq_some_iff.2 ⟨_, rfl, bind_eq_some_iff.2 ⟨view', created, rfl⟩⟩
  refine ⟨view', created, ?_, shows'⟩
  simp only [decide_eq_false few, updated, refuse, orReject, false_eq_true, if_false, ok_bind]
  rfl

theorem checkBIP30_result (ctx : ConnectContext) (shows : c.Shows m) (vtx : List CTransaction) :
    (if ctx.fEnforceBIP30 then checkBIP30 vtx c else .ok c).Ends
      (fun r => r.view.Shows m ∧ ctx.fEnforceBIP30 ∧ ∃ tx ∈ vtx, m tx.hash ≠ none)
      fun view => view.Shows m ∧ (ctx.fEnforceBIP30 → ∀ tx ∈ vtx, m tx.hash = none) := by
  split
  · next enforced =>
    rcases checkBIP30_shown shows .refl vtx with ⟨r, failed, filled, present⟩ | ⟨view, passed, filled, new⟩
    · rw [failed]
      exact ⟨filled.shows shows, enforced, present⟩
    · rw [passed]
      exact ⟨filled.shows shows, fun _ => new⟩
  · next off => exact ⟨shows, fun on => absurd on off⟩

private theorem connectBlock_fail_cases (shows : c.Shows m) (failed : connectBlock ctx block c = .fail r) :
    (RefusedEarly ctx block m ∧ r.view.Shows m) ∨
      (¬ RefusedEarly ctx block m ∧ WellFormedBlock block.vtx ∧
        ∃ (coinbase : CTransaction) (rest : List CTransaction) (view view' : CCoinsViewCache),
          block.vtx = coinbase :: rest ∧ view.Shows m ∧
          view.modifyNew coinbase.hash true (fun _ => .fromTx coinbase ctx.nHeight) = some view' ∧
          view'.Shows (Function.update m coinbase.hash (fromTx coinbase ctx.nHeight).kept) ∧
          EndsAt (connectTransactions ctx false rest
            ⟨view', 0, ctx.sigOpCost coinbase [], [], true⟩) r.view) := by
  rcases connectBlock_eq_fail failed with ⟨bad, same⟩ | ⟨passed, rest⟩
  · refine .inl ⟨.inl bad, ?_⟩
    rw [same]
    exact shows
  have bip30 := checkBIP30_result ctx shows.getBestBlock block.vtx
  rcases rest with refused | ⟨view, unspent, at'⟩
  · rw [refused] at bip30
    exact .inl ⟨.inr (.inl bip30.2), bip30.1⟩
  rw [unspent] at bip30
  obtain ⟨shows₁, new⟩ := bip30
  have formed := checkBlock_spec passed
  obtain ⟨coinbase, rest, vtx, is, _⟩ := formed.coinbase
  have turn := connectTx_coinbase ctx shows₁ is
  rw [vtx, connectTransactions] at at'
  split at turn
  · next many =>
    obtain ⟨_, turn, same⟩ := turn
    rw [turn] at at'
    rcases at' with ⟨_, ⟨⟩, view⟩ | ⟨_, ⟨⟩, -⟩
    refine .inl ⟨.inr (.inr ⟨coinbase, ?_, many⟩), ?_⟩
    · rw [vtx]
      rfl
    · rw [← view, same]
      exact shows₁
  next few =>
  obtain ⟨view', created, turn, shows'⟩ := turn
  rw [turn] at at'
  refine .inr ⟨?_, formed, coinbase, rest, view, view', vtx, shows₁, created, shows', at'⟩
  rintro (bad | ⟨enforced, tx, mem, present⟩ | ⟨tx, first, many⟩)
  · exact bad passed
  · exact present (new enforced tx mem)
  rw [vtx] at first
  cases first
  exact few many

section
variable (at' : EndsAt (connectTransactions ctx first vtx s) view)
include at'

theorem EndsAt.lost
    (lost : s.view.Lost txid i ctx.nHeight) : view.Lost txid i ctx.nHeight :=
  at'.of_ends (P := fun c => c.Lost txid i ctx.nHeight)
    (connectTxs_keeps (fun _ other lost => lost.fetchCoins other)
      (fun _ _ _ _ _ _ lost _ => updateCoins_lost lost) lost)

theorem EndsAt.minted
    (spend : ∀ tx ∈ vtx, tx.isCoinBase = false) (minted : s.view.Minted txid ctx.nHeight) :
    view.Minted txid ctx.nHeight :=
  at'.of_ends (P := fun c => c.Minted txid ctx.nHeight)
    (connectTxs_keeps (fun _ other minted => minted.fetchCoins other)
      (fun tx mem _ _ _ _ minted => updateCoins_minted (spend tx mem) minted) minted)

end

theorem exists_unspent (found : c.toView.shown txid = some coins) :
    ∃ i out, coins.unspent i = some out := by
  have there := (seen_eq_some.1 found).2
  rw [← not_eq_true, isPruned_iff, not_forall] at there
  obtain ⟨i, there⟩ := there
  exact ⟨i, ne_none_iff_exists'.1 there⟩

private theorem coinbase_shown
    (shows : c.Shows m) (is : coinbase.isCoinBase) (others : ∀ tx ∈ rest, tx.isCoinBase = false)
    (below : ∀ txid coins, m txid = some coins → coins.nHeight ≠ ctx.nHeight)
    (created : c.modifyNew coinbase.hash true (fun _ => .fromTx coinbase ctx.nHeight) = some s.view)
    (at' : EndsAt (connectTransactions ctx false rest s) c') (same : c'.toView.shown = m) :
    m coinbase.hash = none ∧ (fromTx coinbase ctx.nHeight).isPruned := by
  constructor
  · by_contra present
    obtain ⟨coins, found⟩ := ne_none_iff_exists'.1 present
    have earlier := below _ coins found
    rw [← same] at found
    obtain ⟨_, _, there⟩ := exists_unspent found
    exact (at'.lost (modifyNew_loses shows created)).shown_ne there earlier found
  rw [← not_eq_false]
  intro outputs
  obtain ⟨coins, peek, unpruned, height, -⟩ :=
    (at'.minted others (modifyNew_minted is outputs created)).peek
  have shown : c'.toView.shown coinbase.hash = some coins := seen_eq_some.2 ⟨peek, unpruned⟩
  rw [same] at shown
  exact below _ coins shown height

private theorem second_refused
    (shows : s.view.Shows m) (spends : tx.isCoinBase = false) (inputs : tx.vin ≠ [])
    (below : ∀ txid coins, m txid = some coins → coins.nHeight ≠ ctx.nHeight)
    (at' : EndsAt (connectTransactions ctx false (tx :: rest) s) c') (same : c'.toView.shown = m) :
    ∃ r, checkConnect ctx tx s = .fail r := by
  rw [connectTransactions, connectTransaction] at at'
  cases result : checkConnect ctx tx s with
  | fail r => exact ⟨r, rfl⟩
  | abort =>
    rw [result] at at'
    exact (not_endsAt_abort at').elim
  | ok s₁ =>
    have checked := (checkConnect_ends).of_ok result
    rw [result] at at'
    cases updated : updateCoins tx s₁.view ctx.nHeight with
    | none =>
      simp only [ok_bind, updated, orAbort, abort_bind] at at'
      exact (not_endsAt_abort at').elim
    | some _ =>
      simp only [ok_bind, updated, orAbort] at at'
      obtain ⟨txid, _, coins, _, found, there, lost⟩ :=
        updateCoins_loses (checked.filled.shows shows) spends inputs updated
      refine absurd ?_ ((at'.lost lost).shown_ne there (below txid coins found))
      rw [same]
      exact found

private theorem connectBlock_fail_shown_iff (shows : c.Shows m)
    (before : w.Shows m) (below : ∀ txid coins, m txid = some coins → coins.nHeight ≠ ctx.nHeight)
    (failed : connectBlock ctx block c = .fail r) :
    (r.view.toView.shown = m → LeavesCoins ctx block w) ∧ (LeavesCoins ctx block w → r.view.Shows m) := by
  unfold LeavesCoins
  rw [before.shown]
  rcases connectBlock_fail_cases shows failed with
    ⟨early, kept⟩ | ⟨late, formed, coinbase, rest, view, view', vtx, shows₁, created, shows', at'⟩
  · exact ⟨fun _ => .inl early, fun _ => kept⟩
  obtain ⟨_, _, vtx', is, others⟩ := formed.coinbase
  rw [vtx] at vtx'
  cases vtx'
  have unchanged : m coinbase.hash = none → (fromTx coinbase ctx.nHeight).isPruned →
      view'.Shows m := by
    intro missing pruned
    rw [kept_of_isPruned pruned, ← missing, Function.update_eq_self] at shows'
    exact shows'
  constructor
  · intro same
    obtain ⟨missing, pruned⟩ := coinbase_shown shows₁ is others below created at' same
    refine .inr ⟨coinbase, rest, vtx, missing, pruned, fun tx first => ?_⟩
    obtain ⟨rest', rfl⟩ := head?_eq_some_iff.1 first
    have spends := others tx mem_cons_self
    have inputs := (formed.each tx (by rw [vtx]; simp)).vin
    have shows₂ := unchanged missing pruned
    exact (refused_congr shows₂ before spends).1
      (second_refused shows₂ spends inputs below at' same)
  rintro (early | ⟨_, _, vtx', missing, pruned, refused⟩)
  · exact absurd early late
  rw [vtx] at vtx'
  cases vtx'
  have shows₂ := unchanged missing pruned
  cases rest with
  | nil =>
    rcases at' with ⟨_, ⟨⟩, -⟩ | ⟨_, ⟨⟩, same⟩
    rw [← same]
    exact shows₂
  | cons tx rest' =>
    have spends := others tx mem_cons_self
    obtain ⟨_, fails⟩ := (refused_congr shows₂ before spends).2 (refused tx rfl)
    have filled := (checkConnect_ends).of_fail fails
    rw [connectTransactions, connectTransaction, fails] at at'
    rcases at' with ⟨_, ⟨⟩, same⟩ | ⟨_, ⟨⟩, -⟩
    rw [← same]
    exact filled.shows shows₂

/-- The coins of a view and what it writes when it is flushed are those of another. -/
def SameCoins (c c' : CCoinsViewCache) : Prop :=
  c'.toView.shown = c.toView.shown ∧ ∃ flushed flushed', c.flush = some flushed ∧
    c'.flush = some flushed' ∧ flushed'.base.shown = flushed.base.shown

/-- A block the background validation cannot connect leaves the parked coins as they were exactly
if it is one that leaves coins. -/
theorem backgroundConnect_fail_iff {height : Int32} {reason : String} (shows : c.Shows m)
    (below : ∀ txid coins, m txid = some coins → coins.nHeight ≠ ctx.nHeight)
    (failed : backgroundConnect ctx block c = .fail (.connectBlock height reason, c')) :
    SameCoins c c' ↔ LeavesCoins ctx block c := by
  have shows₁ := shows.getBestBlock
  unfold backgroundConnect at failed
  generalize c.getBestBlock = best at failed shows₁
  dsimp only at failed shows₁
  split at failed
  · cases failed
  split at failed
  · cases failed
  · next r refused =>
    cases failed
    obtain ⟨only, kept⟩ := connectBlock_fail_shown_iff shows₁ shows below refused
    constructor
    · rintro ⟨same, -⟩
      exact only (same.trans shows.shown)
    intro leaves
    have after := kept leaves
    obtain ⟨flushed, written, -, -, shown, -⟩ := shows.flush
    obtain ⟨flushed', written', -, -, shown', -⟩ := after.flush
    exact ⟨after.shown.trans shows.shown.symm, flushed, flushed', written, written',
      shown'.trans shown.symm⟩
  · cases failed

end Block

/-- A coinbase whose only output is data, and a transaction whose input does not exist. -/
def emptyHandedBlock : CBlock where
  hash := 20
  vtx := [{ plainTx 10 [⟨0, 0xffffffff⟩] [] with vout := [⟨1000, [0x6a]⟩] }, plainTx 12 [⟨11, 1⟩] [24]]

theorem plainView_below (txid : UInt256) (coins : CCoins)
    (found : plainView.toView.shown txid = some coins) : coins.nHeight ≠ (plainContext 4 2).nHeight := by
  rw [shown_plainView found]
  decide

theorem backgroundConnect_emptyHandedBlock : ∃ c', backgroundConnect (plainContext 4 2) emptyHandedBlock
      plainView = .fail (.connectBlock 4 "bad-txns-inputs-missingorspent", c') ∧
    SameCoins plainView c' := by
  obtain ⟨c', failed⟩ : ∃ c', backgroundConnect (plainContext 4 2) emptyHandedBlock plainView =
      .fail (.connectBlock 4 "bad-txns-inputs-missingorspent", c') := ⟨_, rfl⟩
  have shows : plainView.Shows plainView.toView.shown := shows_ofBase trivial
  have leaves : LeavesCoins (plainContext 4 2) emptyHandedBlock plainView := by
    refine .inr ⟨_, _, rfl, by decide, by decide, ?_⟩
    rintro _ ⟨⟩
    exact ⟨_, rfl⟩
  exact ⟨c', failed, (backgroundConnect_fail_iff shows plainView_below failed).2 leaves⟩

/-- The last transaction spends an output that transaction 11 does not have. -/
def brokenBlock : CBlock :=
  { plainBlock with vtx := plainBlock.vtx.take 2 ++ [plainTx 12 [⟨11, 5⟩] [24]] }

/-- A block that fails at its third transaction: the output of transaction 7 is gone. -/
theorem backgroundConnect_brokenBlock : ∃ c', backgroundConnect (plainContext 4 2) brokenBlock
      plainView = .fail (.connectBlock 4 "bad-txns-inputs-missingorspent", c') ∧
    plainView.toView.shown 7 = some ⟨false, [⟨50, []⟩], 3, 1⟩ ∧ c'.toView.shown 7 = none ∧
    ¬ SameCoins plainView c' := by
  obtain ⟨c', failed, gone⟩ : ∃ c', backgroundConnect (plainContext 4 2) brokenBlock plainView =
      .fail (.connectBlock 4 "bad-txns-inputs-missingorspent", c') ∧ c'.toView.shown 7 = none :=
    ⟨_, rfl, by decide⟩
  have there : plainView.toView.shown 7 = some ⟨false, [⟨50, []⟩], 3, 1⟩ := by decide
  refine ⟨c', failed, there, gone, fun same => ?_⟩
  rw [same.1, there] at gone
  cases gone

end DogecoinCore.Coins
