import DogecoinCore.CoinsStack
import DogecoinCore.ConnectBlock
import Mathlib.Algebra.BigOperators.Group.List.Basic
import Mathlib.Algebra.Order.Ring.Int

/-! What the checks of a block establish. They read the coins only, so all they do to a view is
to fill its caches; a transaction that passes them spends outputs that are there, whose
values are in range and pay for its own. -/
namespace DogecoinCore.Coins
open List Option DogecoinCore.Coins.CCoinsViewCache Int64 CTransaction Function CCoins Int
open Outcome

def CCoinsViewCache.Filled : CCoinsViewCache → CCoinsViewCache → Prop :=
  Relation.ReflTransGen fun c c' => ∃ txid, c' = (c.fetchCoins txid).2

namespace CCoinsViewCache
variable {c c' : CCoinsViewCache} {m : CoinsMap}

section
variable (filled : c.Filled c')
include filled

theorem Filled.fetchCoins (txid : UInt256) : c.Filled (c'.fetchCoins txid).2 :=
  filled.tail ⟨txid, rfl⟩

theorem Filled.peek (txid : UInt256) : c'.toView.peek txid = c.toView.peek txid := by
  induction filled with
  | refl => rfl
  | tail _ step ih =>
    obtain ⟨other, rfl⟩ := step
    rw [(fetchCoins_eq _ other).2, CCoinsView.peek_getCoins, ih]

theorem Filled.shows (view : c.Shows m) : c'.Shows m := by
  induction filled with
  | refl => exact view
  | tail _ step ih =>
    obtain ⟨txid, rfl⟩ := step
    exact (ih.fetchCoins txid).2

theorem fetchCoins_fst (txid : UInt256) : (c'.fetchCoins txid).1 = c.toView.peek txid := by
  rw [(fetchCoins_eq c' txid).1, filled.peek]

end

def output (c : CCoinsViewCache) (out : COutPoint) : Option CTxOut :=
  (c.toView.peek out.hash).bind (·.available out.n)

end CCoinsViewCache

variable {failed : Bool} {α : Type} {tx : CTransaction}

theorem orReject_ends (left : P ⟨view, reason⟩) :
    (orReject view (refuse failed reason)).Ends P fun _ => failed = false := by
  cases failed with
  | true => exact left
  | false => rfl

theorem orAbort_ends : (orAbort x).Ends P fun a => x = some a := by
  cases x with
  | none => trivial
  | some a => rfl

theorem orAbort_eq_ok : orAbort x = .ok a ↔ x = some a := by
  cases x <;> simp [orAbort]

section Checks
variable {ctx : ConnectContext} {tx : CTransaction} {c view : CCoinsViewCache}

section
variable (filled : c.Filled view)
include filled

theorem accessCoins_spec (txid : UInt256) :
    ∃ view', view.accessCoins txid = (c.toView.peek txid, view') ∧ c.Filled view' :=
  ⟨(view.fetchCoins txid).2, Prod.ext (fetchCoins_fst filled txid) rfl, filled.fetchCoins txid⟩

theorem haveInputs_go_spec (vin : List CTxIn) : c.Filled (haveInputs.go view vin).2 ∧
      (haveInputs.go view vin).1 = vin.all fun txin => (c.output txin.prevout).isSome := by
  induction vin generalizing view with
  | nil => exact ⟨filled, rfl⟩
  | cons txin _ ih =>
    obtain ⟨_, access, next⟩ := accessCoins_spec filled txin.prevout.hash
    have same : (c.toView.peek txin.prevout.hash).any (·.isAvailable txin.prevout.n) =
        (c.output txin.prevout).isSome := by
      unfold output
      cases c.toView.peek txin.prevout.hash <;> rfl
    simp only [haveInputs.go, access, same, all_cons]
    cases (c.output txin.prevout).isSome with
    | true => exact ih next
    | false => exact ⟨next, rfl⟩

theorem haveInputs_spec (spends : tx.isCoinBase = false) : ∃ view', view.haveInputs tx =
        (tx.vin.all fun txin => (c.output txin.prevout).isSome, view') ∧ c.Filled view' := by
  obtain ⟨next, found⟩ := haveInputs_go_spec filled tx.vin
  refine ⟨(haveInputs.go view tx.vin).2, ?_, next⟩
  rw [haveInputs, spends, ← found]
  rfl

theorem accessInputs_spec (vin : List CTxIn) :
    ∃ view', view.accessInputs vin = (vin.map fun txin => c.toView.peek txin.prevout.hash, view') ∧
      c.Filled view' := by
  induction vin generalizing view with
  | nil => exact ⟨view, rfl, filled⟩
  | cons txin _ ih =>
    obtain ⟨_, access, next⟩ := accessCoins_spec filled txin.prevout.hash
    obtain ⟨view₂, others, last⟩ := ih next
    refine ⟨view₂, ?_, last⟩
    simp [accessInputs, access, others]

end

/-- The amounts of the outputs that the inputs spend, added up in 64 bits. -/
def CCoinsViewCache.amountIn (c : CCoinsViewCache) (nResult : CAmount) (vin : List CTxIn) : CAmount :=
  vin.foldl (fun n txin => n + ((c.output txin.prevout).getD .null).nValue) nResult

section
variable (filled : c.Filled view)
include filled

theorem getValueIn_go_spec (nResult : CAmount) (vin : List CTxIn) :
    c.Filled (getValueIn.go view nResult vin).2 ∧ (getValueIn.go view nResult vin).1 =
        if vin.all fun txin => (c.output txin.prevout).isSome then some (c.amountIn nResult vin)
        else none := by
  induction vin generalizing view nResult with
  | nil => exact ⟨filled, rfl⟩
  | cons txin _ ih =>
    obtain ⟨view', access, next⟩ := accessCoins_spec filled txin.prevout.hash
    have output : view.getOutputFor txin = (c.output txin.prevout, view') := by
      simp only [getOutputFor, access]
      rfl
    simp only [getValueIn.go, output, all_cons]
    obtain missing | ⟨out, found⟩ := (c.output txin.prevout).eq_none_or_eq_some
    · simp only [missing]
      exact ⟨next, rfl⟩
    obtain ⟨last, total⟩ := ih next (nResult + out.nValue)
    simp only [found, total, amountIn, foldl_cons, getD_some]
    exact ⟨last, rfl⟩

theorem getValueIn_spec (spends : tx.isCoinBase = false) :
    ∃ view', view.getValueIn tx =
        (if tx.vin.all fun txin => (c.output txin.prevout).isSome then some (c.amountIn 0 tx.vin)
          else none, view') ∧ c.Filled view' := by
  obtain ⟨next, total⟩ := getValueIn_go_spec filled 0 tx.vin
  refine ⟨(getValueIn.go view 0 tx.vin).2, ?_, next⟩
  rw [getValueIn, spends, ← total]
  rfl

theorem checkFinal_ends (spends : tx.isCoinBase = false) :
    (checkFinal ctx tx view).Ends (fun r => c.Filled r.view) fun view' => c.Filled view' ∧
      ∀ txin ∈ tx.vin, (c.output txin.prevout).isSome := by
  obtain ⟨_, found, next⟩ := haveInputs_spec filled spends
  obtain ⟨_, coins, last⟩ := accessInputs_spec next tx.vin
  simp only [checkFinal, found, coins]
  refine (orReject_ends next).bind fun _ all => (orReject_ends last).bind fun _ _ => ⟨last, ?_⟩
  simpa using all

end

/-- What an input has to be for `CheckTxInputs`. -/
def Spendable (ctx : ConnectContext) (c : CCoinsViewCache) (nSpendHeight : Int32) (txin : CTxIn) :
    Prop :=
  ∃ coins out, c.toView.peek txin.prevout.hash = some coins ∧
    coins.available txin.prevout.n = some out ∧ moneyRange out.nValue = true ∧
    (coins.fCoinBase = true → ¬ nSpendHeight - coins.nHeight < ctx.nCoinbaseMaturity coins.nHeight)

variable {nSpendHeight : Int32}

theorem Spendable.moneyRange
    (spendable : Spendable ctx c nSpendHeight txin) (output : c.output txin.prevout = some out) :
    moneyRange out.nValue := by
  obtain ⟨_, _, record, available, range, -⟩ := spendable
  rw [CCoinsViewCache.output, record, bind_some, available] at output
  cases output
  exact range

private theorem toInt_add_of_moneyRange (left : moneyRange a)
    (right : moneyRange b) : (a + b).toInt = a.toInt + b.toInt := by
  have fa := moneyRange_iff.1 left
  have fb := moneyRange_iff.1 right
  rw [toInt_add]
  exact bmod_eq_of_le (by omega) (by omega)

def CCoinsViewCache.valueIn (c : CCoinsViewCache) (vin : List CTxIn) : ℤ :=
  (vin.map fun txin => ((c.output txin.prevout).getD .null).nValue.toInt).sum

def valueOut (vout : List CTxOut) : ℤ := (vout.map fun out => out.nValue.toInt).sum

theorem getValueOut_go_spec {vout : List CTxOut} (range : moneyRange nValueOut)
    (total : getValueOut.go nValueOut vout = some n) :
    n.toInt = nValueOut.toInt + valueOut vout ∧ moneyRange n ∧
      ∀ out ∈ vout, moneyRange out.nValue := by
  induction vout generalizing nValueOut with
  | nil =>
    cases total
    exact ⟨(add_zero _).symm, range, by simp⟩
  | cons out _ ih =>
    rw [getValueOut.go] at total
    split at total
    · cases total
    next fine =>
    obtain ⟨one, sum⟩ : moneyRange out.nValue ∧ moneyRange (nValueOut + out.nValue) := by
      simpa using fine
    obtain ⟨value, inside, others⟩ := ih sum total
    refine ⟨?_, inside, forall_mem_cons.2 ⟨one, others⟩⟩
    rw [value, toInt_add_of_moneyRange range one, valueOut, valueOut, map_cons, sum_cons]
    omega

theorem getValueOut_spec {n : CAmount} (total : tx.getValueOut = some n) :
    n.toInt = valueOut tx.vout ∧ moneyRange n ∧
      ∀ out ∈ tx.vout, moneyRange out.nValue := by
  obtain ⟨value, rest⟩ := getValueOut_go_spec (by decide) total
  exact ⟨value.trans (zero_add _), rest⟩

section
variable (filled : c.Filled view)
include filled

theorem checkTxInputsLoop_ends
    {vin : List CTxIn} (found : ∀ txin ∈ vin, (c.output txin.prevout).isSome)
    (range : moneyRange nValueIn) :
    (checkTxInputsLoop ctx nSpendHeight nValueIn vin view).Ends (fun r => c.Filled r.view) fun p =>
      c.Filled p.2 ∧ p.1 = c.amountIn nValueIn vin ∧ moneyRange p.1 ∧
        p.1.toInt = nValueIn.toInt + c.valueIn vin ∧
        ∀ txin ∈ vin, Spendable ctx c nSpendHeight txin := by
  induction vin generalizing view nValueIn with
  | nil => exact ⟨filled, rfl, range, (add_zero _).symm, by simp⟩
  | cons txin _ ih =>
    obtain ⟨_, access, next⟩ := accessCoins_spec filled txin.prevout.hash
    obtain ⟨here, others⟩ := forall_mem_cons.1 found
    obtain ⟨out, output⟩ := isSome_iff_exists.1 here
    obtain ⟨coins, record, available⟩ := bind_eq_some_iff.1 output
    have spent : spentOutput txin (some coins) = out := by
      rw [spentOutput, bind_some, available]
      rfl
    simp only [checkTxInputsLoop, access, record]
    refine (orReject_ends next).bind fun _ mature => ?_
    refine (orReject_ends next).bind fun _ fine => ?_
    rw [spent] at fine ⊢
    obtain ⟨one, sum⟩ : moneyRange out.nValue ∧ moneyRange (nValueIn + out.nValue) := by
      simpa using fine
    refine (ih next others sum).imp (fun _ left => left) ?_
    rintro ⟨_, _⟩ ⟨last, amount, inside, value, spendable⟩
    refine ⟨last, ?_, inside, ?_, forall_mem_cons.2 ⟨⟨coins, out, record, available, one, ?_⟩,
      spendable⟩⟩
    · rw [amount, amountIn, amountIn, foldl_cons, output]
      rfl
    · rw [value, toInt_add_of_moneyRange range one, valueIn, valueIn,
        map_cons, sum_cons, output, getD_some]
      omega
    · intro coinbase
      simpa [coinbase] using mature

theorem checkTxInputs_ends (spends : tx.isCoinBase = false) :
    (checkTxInputs ctx tx nSpendHeight view).Ends (fun r => c.Filled r.view) fun view' =>
      c.Filled view' ∧ (c.amountIn 0 tx.vin).toInt = c.valueIn tx.vin ∧
        valueOut tx.vout ≤ c.valueIn tx.vin ∧ moneyRange (c.amountIn 0 tx.vin) ∧
        ∀ txin ∈ tx.vin, Spendable ctx c nSpendHeight txin := by
  obtain ⟨_, found, next⟩ := haveInputs_spec filled spends
  simp only [checkTxInputs, found]
  refine (orReject_ends next).bind fun _ all => ?_
  refine (checkTxInputsLoop_ends next (by simpa using all) (by decide)).bind ?_
  rintro ⟨n, _⟩ ⟨last, amount, inside, value, spendable⟩
  refine (orAbort_ends).bind fun out total => ?_
  refine (orReject_ends last).bind fun _ enough => ?_
  refine (orReject_ends last).bind fun _ _ => (orReject_ends last).bind fun _ _ => ?_
  have paid : out.toInt ≤ n.toInt := by
    rw [decide_eq_false_iff_not, lt_iff_toInt_lt] at enough
    exact not_lt.1 enough
  rw [(getValueOut_spec total).1, value] at paid
  rw [← amount]
  refine ⟨last, ?_, ?_, inside, spendable⟩
  · rw [value]
    exact zero_add _
  · simpa using paid

private theorem checkInputs_ends (spends : tx.isCoinBase = false) :
    (checkInputs ctx tx view).Ends (fun r => c.Filled r.view) fun p =>
      c.Filled p.1 ∧ (c.amountIn 0 tx.vin).toInt = c.valueIn tx.vin ∧
        valueOut tx.vout ≤ c.valueIn tx.vin ∧ moneyRange (c.amountIn 0 tx.vin) ∧
        ∀ txin ∈ tx.vin, Spendable ctx c ctx.nHeight txin := by
  refine (checkTxInputs_ends filled spends).bind ?_
  rintro _ ⟨next, facts⟩
  obtain ⟨_, coins, last⟩ := accessInputs_spec next tx.vin
  split
  · simp only [coins]
    split
    · exact ⟨last, facts⟩
    · exact (orReject_ends last).bind fun _ _ => ⟨last, facts⟩
  · exact ⟨next, facts⟩

end

structure Checked (ctx : ConnectContext) (tx : CTransaction) (s s' : ConnectLoop) : Prop where
  filled : s.view.Filled s'.view
  vtxundo : s'.vtxundo = s.vtxundo
  coinbase : tx.isCoinBase = true → s'.nFees = s.nFees
  spendable : tx.isCoinBase = false → ∀ txin ∈ tx.vin, Spendable ctx s.view ctx.nHeight txin
  paid : tx.isCoinBase = false → valueOut tx.vout ≤ s.view.valueIn tx.vin
  nFees : tx.isCoinBase = false → ∃ fee : CAmount, s'.nFees = s.nFees + fee ∧
    fee.toInt = s.view.valueIn tx.vin - valueOut tx.vout

theorem checkConnect_ends {s : ConnectLoop} :
    (checkConnect ctx tx s).Ends (fun r => s.view.Filled r.view) (Checked ctx tx s) := by
  unfold checkConnect
  split
  · next coinbase =>
    refine (orReject_ends .refl).bind fun _ _ => ?_
    exact ⟨.refl, rfl, fun _ => rfl, by simp [coinbase], by simp [coinbase], by simp [coinbase]⟩
  next spends =>
  rw [Bool.not_eq_true] at spends
  refine (checkFinal_ends .refl spends).bind ?_
  rintro _ ⟨filled₁, found⟩
  have all := List.all_eq_true.2 found
  obtain ⟨_, coins, filled₂⟩ := accessInputs_spec filled₁ tx.vin
  obtain ⟨_, amount, filled₃⟩ := getValueIn_spec filled₂ spends
  simp only [coins, amount, if_pos all]
  refine (orReject_ends filled₂).bind fun _ _ => ?_
  refine (orAbort_ends).bind fun nValueIn isIn => (orAbort_ends).bind fun nValueOut isOut => ?_
  refine (checkInputs_ends filled₃ spends).bind ?_
  rintro ⟨_, _⟩ ⟨filled₄, sum, enough, inside, spendable⟩
  refine ⟨filled₄, rfl, by simp [spends], fun _ => spendable, fun _ => enough, fun _ =>
    ⟨nValueIn - nValueOut, rfl, ?_⟩⟩
  obtain ⟨valueOf, range, -⟩ := getValueOut_spec isOut
  have low := moneyRange_iff.1 range
  rw [← some.inj isIn, toInt_sub]
  have high := moneyRange_iff.1 inside
  rw [← sum, ← valueOf]
  exact bmod_eq_of_le (by omega) (by omega)

end Checks

theorem refuse_eq_ok : refuse failed reason = .ok () ↔ failed = false := by
  cases failed <;> simp [refuse]

theorem refuse_bind_eq_ok
    : (refuse failed reason >>= k) = .ok a ↔ failed = false ∧ k () = .ok a := by
  cases failed with
  | true => exact ⟨nofun, fun both => nomatch both.1⟩
  | false => exact ⟨fun same => ⟨rfl, same⟩, And.right⟩

theorem checkOutputs_spec {vout : List CTxOut}
    (passed : checkOutputs nValueOut vout = .ok ()) : ∀ out ∈ vout, moneyRange out.nValue := by
  induction vout generalizing nValueOut with
  | nil => simp
  | cons out _ ih =>
    rw [checkOutputs, refuse_bind_eq_ok, refuse_bind_eq_ok, refuse_bind_eq_ok] at passed
    obtain ⟨positive, small, -, others⟩ := passed
    refine forall_mem_cons.2 ⟨?_, ih others⟩
    rw [decide_eq_false_iff_not] at positive small
    rw [lt_iff_toInt_lt] at positive
    rw [gt_iff_lt, lt_iff_toInt_lt] at small
    exact moneyRange_iff.2 ⟨not_lt.1 positive, not_lt.1 small⟩

/-- What `CheckTransaction` establishes. -/
structure WellFormed (tx : CTransaction) : Prop where
  vin : tx.vin ≠ []
  size : tx.baseSize ≤ MAX_BLOCK_BASE_SIZE
  values : ∀ out ∈ tx.vout, moneyRange out.nValue = true
  inputs : (tx.vin.map (·.prevout)).Nodup

theorem checkTransaction_spec (passed : checkTransaction tx = .ok ()) : WellFormed tx := by
  rw [checkTransaction, refuse_bind_eq_ok, refuse_bind_eq_ok, refuse_bind_eq_ok] at passed
  obtain ⟨vin, -, size, rest⟩ := passed
  cases outputs : checkOutputs 0 tx.vout with
  | error _ =>
    rw [outputs] at rest
    cases rest
  | ok _ =>
    rw [outputs] at rest
    obtain ⟨inputs, -⟩ := refuse_bind_eq_ok.1 rest
    exact ⟨by simpa using vin, by simpa using size, checkOutputs_spec outputs, by simpa using inputs⟩

theorem WellFormed.lengths (formed : WellFormed tx) :
    tx.vin.length ≤ MAX_BLOCK_BASE_SIZE ∧ tx.vout.length ≤ MAX_BLOCK_BASE_SIZE := by
  have size := formed.size
  have inputs := length_le_sum_of_one_le
    (tx.vin.map fun i => 36 + bytesSize i.scriptSig + 4) (by simp)
  have outputs := length_le_sum_of_one_le
    (tx.vout.map fun o => 8 + bytesSize o.scriptPubKey) (by simp; omega)
  rw [length_map] at inputs outputs
  unfold baseSize at size
  omega

/-- What `CheckBlock` establishes. -/
structure WellFormedBlock (vtx : List CTransaction) : Prop where
  length : vtx.length ≤ MAX_BLOCK_BASE_SIZE
  coinbase : ∃ tx rest, vtx = tx :: rest ∧ tx.isCoinBase = true ∧
    ∀ other ∈ rest, other.isCoinBase = false
  each : ∀ tx ∈ vtx, WellFormed tx

theorem forM_eq_ok {check : α → Except String Unit} {l : List α}
    (passed : l.forM check = .ok ()) : ∀ a ∈ l, check a = .ok () := by
  induction l with
  | nil => simp
  | cons a rest ih =>
    change (check a >>= fun _ => rest.forM check) = _ at passed
    cases first : check a with
    | error _ =>
      rw [first] at passed
      cases passed
    | ok _ =>
      rw [first] at passed
      exact forall_mem_cons.2 ⟨first, ih passed⟩

theorem checkBlock_spec {legacySigOpCount : CTransaction → UInt32} {block : CBlock}
    (passed : checkBlock legacySigOpCount block = .ok ()) : WellFormedBlock block.vtx := by
  rw [checkBlock, refuse_bind_eq_ok, refuse_bind_eq_ok, refuse_bind_eq_ok, refuse_bind_eq_ok] at passed
  obtain ⟨-, size, first, others, rest⟩ := passed
  cases each : block.vtx.forM checkTransaction with
  | error _ =>
    rw [each] at rest
    cases rest
  | ok _ =>
    refine ⟨?_, ?_, fun tx mem => checkTransaction_spec (forM_eq_ok each tx mem)⟩
    · simp only [Bool.or_eq_false_iff, decide_eq_false_iff_not, not_lt] at size
      exact size.1.2
    cases vtx : block.vtx with
    | nil => simp [vtx] at size
    | cons tx rest' =>
      rw [vtx] at first others
      refine ⟨tx, rest', rfl, by simpa using first, by simpa using others⟩

namespace CoinsMap
def spend (m : CoinsMap) (out : COutPoint) : CoinsMap :=
  ((m out.hash).bind (·.spend out.n)).elim m fun left => update m out.hash left.kept

def spendInputs (m : CoinsMap) (tx : CTransaction) : CoinsMap :=
  if tx.isCoinBase then m else tx.vin.foldl (fun m txin => spend m txin.prevout) m

def apply (nHeight : Int32) (m : CoinsMap) (tx : CTransaction) : CoinsMap :=
  update (spendInputs m tx) tx.hash (fromTx tx nHeight).kept

/-- No transaction has unspent outputs under its id when its own are added. -/
def NoOverwrite (nHeight : Int32) : CoinsMap → List CTransaction → Prop
  | _, [] => True
  | m, tx :: rest => spendInputs m tx tx.hash = none ∧ NoOverwrite nHeight (apply nHeight m tx) rest

def output (m : CoinsMap) (out : COutPoint) : Option CTxOut := (m out.hash).bind (·.available out.n)

theorem kept_bind_available (coins : CCoins) (n : UInt32) :
    coins.kept.bind (·.available n) = coins.available n := by
  cases pruned : coins.isPruned with
  | true =>
    rw [kept_of_isPruned pruned]
    exact (isPruned_iff.1 pruned n.toNat).symm
  | false =>
    rw [kept_of_not_isPruned pruned]
    exact unspent_cleanup n.toNat

theorem output_spend {m : CoinsMap} {out other : COutPoint} :
    (m.spend out).output other = if other = out then none else m.output other := by
  unfold spend
  cases spent : (m out.hash).bind (·.spend out.n) with
  | none =>
    by_cases same : other = out
    · subst same
      rw [if_pos rfl, elim_none, output]
      cases found : m other.hash with
      | none => rfl
      | some coins =>
        rw [found, bind_some] at spent
        rw [bind_some, ← not_isSome_iff_eq_none]
        intro available
        rw [CCoins.spend, CCoins.isAvailable, if_pos available] at spent
        cases spent
    · rw [if_neg same, elim_none]
  | some left =>
    obtain ⟨coins, found, removed⟩ := bind_eq_some_iff.1 spent
    have left' : left.available other.n = if other.n.toNat = out.n.toNat then none
      else coins.available other.n := unspent_spend removed other.n.toNat
    rw [elim_some, output, output]
    by_cases hash : other.hash = out.hash
    · rw [hash, update_self, kept_bind_available, left', found, bind_some]
      by_cases n : other.n = out.n
      · rw [if_pos (congrArg UInt32.toNat n), if_pos (COutPoint.ext hash n)]
      · rw [if_neg (n ∘ UInt32.toNat_inj.1), if_neg fun same => n (congrArg COutPoint.n same)]
    · rw [update_of_ne hash, if_neg fun same => hash (congrArg COutPoint.hash same)]

end CoinsMap

theorem CCoinsViewCache.Shows.output {c : CCoinsViewCache} (view : c.Shows m)
    (out : COutPoint) : c.output out = m.output out := by
  rw [CCoinsViewCache.output, CoinsMap.output, ← view.shown, CCoinsView.shown]
  cases c.toView.peek out.hash with
  | none => rfl
  | some coins =>
    cases pruned : coins.isPruned with
    | true =>
      rw [WriteBack.seen_some_of_gone pruned]
      exact isPruned_iff.1 pruned out.n.toNat
    | false => rw [WriteBack.seen_some_of_there pruned]

section Update
open WriteBack
variable {tx : CTransaction} {c c' : CCoinsViewCache} {m : CoinsMap}

variable {txin : CTxIn} {undo : CTxUndo} {nHeight : Int32}

theorem spendInput_eq_some {undo : CTxInUndo} (spent : spendInput c txin = some (undo, c')) :
    ∃ it c₁ out left, c.modifyCoins txin.prevout.hash = (it, c₁) ∧
      it.value.available txin.prevout.n = some out ∧ it.value.spend txin.prevout.n = some left ∧
      undo = .ofSpent out left ∧ c' = c₁.endModify txin.prevout.hash { it with value := left } := by
  simp only [spendInput] at spent
  generalize c.modifyCoins txin.prevout.hash = opened at spent ⊢
  obtain ⟨it, c₁⟩ := opened
  obtain ⟨out, found, rest⟩ := bind_eq_some_iff.1 spent
  obtain ⟨left, removed, ⟨⟩⟩ := bind_eq_some_iff.1 rest
  exact ⟨it, c₁, out, left, rfl, found, removed, rfl, rfl⟩

theorem spendInput_spec {undo : CTxInUndo} (view : c.Shows m)
    (spent : spendInput c txin = some (undo, c')) :
    ∃ coins out left, m txin.prevout.hash = some coins ∧
      coins.available txin.prevout.n = some out ∧ coins.spend txin.prevout.n = some left ∧
      undo = .ofSpent out left ∧ c'.Shows (CoinsMap.spend m txin.prevout) := by
  obtain ⟨it, _, out, left, opened, found, removed, rfl, rfl⟩ := spendInput_eq_some spent
  have value := view.modifyCoins_value txin.prevout.hash
  have after := view.modifyCoins_endModify txin.prevout.hash left
  rw [opened] at value after
  rw [seen_some_of_there (isPruned_of_available found)] at value
  refine ⟨it.value, out, left, value.symm, found, removed, rfl, ?_⟩
  rw [CoinsMap.spend, ← value, bind_some, removed]
  exact after

theorem spendInputs_cons {rest : List CTxIn} (spent : spendInputs c (txin :: rest) = some (undo, c')) :
    ∃ first c₁ others, spendInput c txin = some (first, c₁) ∧
      spendInputs c₁ rest = some (others, c') ∧ undo = first :: others := by
  obtain ⟨⟨_, _⟩, head, tail⟩ := bind_eq_some_iff.1 spent
  obtain ⟨⟨_, _⟩, last, ⟨⟩⟩ := bind_eq_some_iff.1 tail
  exact ⟨_, _, _, head, last, rfl⟩

theorem spendInputs_spec {vin : List CTxIn} (view : c.Shows m)
    (spent : spendInputs c vin = some (undo, c')) :
    undo.length = vin.length ∧
      c'.Shows (vin.foldl (fun m txin => CoinsMap.spend m txin.prevout) m) := by
  induction vin generalizing c m undo with
  | nil =>
    cases spent
    exact ⟨rfl, view⟩
  | cons txin _ ih =>
    obtain ⟨_, _, _, head, last, rfl⟩ := spendInputs_cons spent
    obtain ⟨_, _, _, -, -, -, -, view₁⟩ := spendInput_spec view head
    obtain ⟨length, view₂⟩ := ih view₁ last
    exact ⟨congrArg (· + 1) length, view₂⟩

theorem updateCoins_eq_some (updated : updateCoins tx c nHeight = some (undo, c')) :
    ∃ c₁, (if tx.isCoinBase then some ([], c) else spendInputs c tx.vin) = some (undo, c₁) ∧
      c₁.modifyNew tx.hash tx.isCoinBase (fun _ => .fromTx tx nHeight) = some c' := by
  obtain ⟨⟨_, c₁⟩, spent, rest⟩ := bind_eq_some_iff.1 updated
  obtain ⟨_, new, ⟨⟩⟩ := bind_eq_some_iff.1 rest
  exact ⟨c₁, spent, new⟩

theorem updateCoins_spec (view : c.Shows m)
    (new : tx.isCoinBase = false → CoinsMap.spendInputs m tx tx.hash = none)
    (updated : updateCoins tx c nHeight = some (undo, c')) :
    c'.Shows (CoinsMap.apply nHeight m tx) := by
  obtain ⟨c₁, spent, created⟩ := updateCoins_eq_some updated
  have view₁ : c₁.Shows (CoinsMap.spendInputs m tx) := by
    unfold CoinsMap.spendInputs
    split at spent
    · next coinbase =>
      cases spent
      rw [if_pos coinbase]
      exact view
    next spends =>
    rw [if_neg spends]
    exact (spendInputs_spec view spent).2
  obtain ⟨_, same, view₂⟩ := view₁.modifyNew tx.hash tx.isCoinBase (fun _ => .fromTx tx nHeight) new
  rw [created] at same
  cases same
  exact view₂

theorem connectTx_eq_ok (connected : connectTransaction ctx first tx s = .ok s') :
    ∃ s₁ txundo, Checked ctx tx s s₁ ∧
      updateCoins tx s₁.view ctx.nHeight = some (txundo, s'.view) ∧ s'.nFees = s₁.nFees ∧
      s'.vtxundo = if first then s.vtxundo else s.vtxundo ++ [txundo] := by
  obtain ⟨s₁, checked, rest⟩ := bind_eq_ok.1 connected
  obtain ⟨⟨txundo, _⟩, updated, ⟨⟩⟩ := bind_eq_ok.1 rest
  have facts := (checkConnect_ends).of_ok checked
  exact ⟨s₁, txundo, facts, orAbort_eq_ok.1 updated, rfl, by rw [← facts.vtxundo]⟩

end Update

section Block
variable {ctx : ConnectContext} {block : CBlock} {c c' view : CCoinsViewCache}

theorem checkBIP30_ends (filled : c.Filled view) (vtx : List CTransaction) :
    (checkBIP30 vtx view).Ends (fun r => c.Filled r.view) fun view' => c.Filled view' := by
  induction vtx generalizing view with
  | nil => exact filled
  | cons tx _ ih =>
    obtain ⟨_, access, next⟩ := accessCoins_spec filled tx.hash
    simp only [checkBIP30, access]
    exact (orReject_ends next).bind fun _ _ => ih next

theorem orReject_eq_ok (passed : orReject view check = .ok ()) : check = .ok () := by
  cases check with
  | ok _ => rfl
  | error _ => cases passed

theorem connectBlock_eq_ok (later : block.hash ≠ ctx.hashGenesisBlock)
    (connected : connectBlock ctx block c = .ok (c', undo)) :
    WellFormedBlock block.vtx ∧
      ∃ view s, c.getBestBlock.2.Filled view ∧
        connectTransactions ctx true block.vtx ⟨view, 0, 0, [], true⟩ = .ok s ∧
        (∃ nValueOut, block.vtx.head?.bind (·.getValueOut) = some nValueOut ∧ nValueOut ≤
          s.nFees + getDogecoinBlockSubsidy ctx.subsidy ctx.nHeight ctx.hashPrevBlock) ∧
        undo = s.vtxundo ∧ c' = if ctx.fJustCheck then s.view else s.view.setBestBlock block.hash := by
  obtain ⟨_, passed, connected⟩ := bind_eq_ok.1 connected
  refine ⟨checkBlock_spec (orReject_eq_ok passed), ?_⟩
  generalize c.getBestBlock = best at connected ⊢
  obtain ⟨_, c₁⟩ := best
  simp only [if_neg later] at connected
  split at connected
  · cases connected
  obtain ⟨view, bip30, connected⟩ := bind_eq_ok.1 connected
  have filled : c₁.Filled view := by
    split at bip30
    · exact (checkBIP30_ends .refl block.vtx).of_ok bip30
    · cases bip30
      exact .refl
  obtain ⟨s, loop, connected⟩ := bind_eq_ok.1 connected
  obtain ⟨nValueOut, first, connected⟩ := bind_eq_ok.1 connected
  obtain ⟨_, amount, connected⟩ := bind_eq_ok.1 connected
  obtain ⟨_, -, connected⟩ := bind_eq_ok.1 connected
  refine ⟨view, s, filled, loop, ⟨nValueOut, orAbort_eq_ok.1 first, ?_⟩, ?_⟩
  · have enough := refuse_eq_ok.1 (orReject_eq_ok amount)
    exact Int64.not_lt.1 (of_decide_eq_false enough)
  split at connected
  · next justCheck =>
    cases connected
    exact ⟨rfl, (if_pos justCheck).symm⟩
  next whole =>
  obtain ⟨_, -, connected⟩ := bind_eq_ok.1 connected
  obtain ⟨_, -, ⟨⟩⟩ := bind_eq_ok.1 connected
  exact ⟨rfl, (if_neg whole).symm⟩

end Block

theorem shown_plainView
    (found : plainView.toView.shown txid = some coins) : coins = ⟨false, [⟨50, []⟩], 3, 1⟩ :=
  (CCoinsView.shown_singleton 2 found).2

end DogecoinCore.Coins
