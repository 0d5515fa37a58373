import DogecoinCore.Supply

/-! Sums of amounts in 64 bits. One amount is at most `MAX_MONEY`, a ninth of what fits, and no rule
bounds how many there are: `GetValueIn` and the fees of `ConnectBlock` are added up before anything
is known about the total. A fee rate multiplies one amount by a thousand. -/
namespace DogecoinCore.Coins
open List DogecoinCore.Coins.CCoinsViewCache CCoinsView Outcome Option

/-- The sum of two amounts is an `int64_t`. -/
def AddFits (a b : CAmount) : Prop := -2 ^ 63 ≤ a.toInt + b.toInt ∧ a.toInt + b.toInt < 2 ^ 63

def SumFits : CAmount → List CAmount → Prop
  | _, [] => True
  | n, v :: rest => AddFits n v ∧ SumFits (n + v) rest

theorem AddFits.toInt (fits : AddFits a b) : (a + b).toInt = a.toInt + b.toInt := by
  obtain ⟨_, _⟩ := fits
  rw [Int64.toInt_add]
  exact Int.bmod_eq_of_le (by omega) (by omega)

theorem addFits_iff (nonneg : 0 ≤ a.toInt) : AddFits a b ↔ a.toInt + b.toInt < 2 ^ 63 := by
  have low := b.le_toInt
  exact ⟨And.right, fun high => ⟨by omega, high⟩⟩

private theorem sumFits_iff (start : 0 ≤ n.toInt)
    (nonneg : ∀ v ∈ l, 0 ≤ v.toInt) : SumFits n l ↔ n.toInt + (l.map (·.toInt)).sum < 2 ^ 63 := by
  induction l generalizing n with
  | nil =>
    have high := n.toInt_lt
    simpa [SumFits] using high
  | cons v rest ih =>
    obtain ⟨_, others⟩ := forall_mem_cons.1 nonneg
    have more : 0 ≤ (rest.map (·.toInt)).sum := sum_nonneg (by simpa using others)
    rw [SumFits, addFits_iff start, map_cons, sum_cons]
    constructor
    · rintro ⟨fits, tail⟩
      have sum := ((addFits_iff start).2 fits).toInt
      rw [ih (by omega) others, sum] at tail
      omega
    intro _
    have fits : n.toInt + v.toInt < 2 ^ 63 := by omega
    have sum := ((addFits_iff start).2 fits).toInt
    refine ⟨fits, (ih (by omega) others).2 ?_⟩
    omega

theorem SumFits.toInt (fits : SumFits n l) :
    (l.foldl (· + ·) n).toInt = n.toInt + (l.map (·.toInt)).sum := by
  induction l generalizing n with
  | nil => simp
  | cons _ _ ih => rw [foldl_cons, ih fits.2, fits.1.toInt, map_cons, sum_cons, add_assoc]

section Inputs
variable {c : CCoinsViewCache} {tx : CTransaction}

/-- The amounts that `GetValueIn` adds up. -/
def CCoinsViewCache.valuesIn (c : CCoinsViewCache) (vin : List CTxIn) : List CAmount :=
  vin.map fun txin => ((c.output txin.prevout).getD .null).nValue

theorem amountIn_eq : c.amountIn n vin = (c.valuesIn vin).foldl (· + ·) n := by
  rw [amountIn, valuesIn, foldl_map]

theorem valueIn_eq : c.valueIn vin = ((c.valuesIn vin).map (·.toInt)).sum := by
  rw [valueIn, valuesIn, List.map_map]
  rfl

section
variable (accounted : c.Accounted S)
include accounted

theorem CCoinsViewCache.Accounted.nonneg
    (found : c.output o = some out) : 0 ≤ out.nValue.toInt := by
  obtain ⟨coins, record, available⟩ := bind_eq_some_iff.1 found
  obtain ⟨inside, there⟩ := CCoins.unspent_eq_some.1 available
  have valued := (accounted.each o.hash).shown coins record out (mem_of_getElem? inside)
  rw [amount, there] at valued
  exact valued

section
variable (found : ∀ txin ∈ tx.vin, (c.output txin.prevout).isSome)
include found

theorem valuesIn_nonneg : ∀ v ∈ c.valuesIn tx.vin, 0 ≤ v.toInt := by
  intro v mem
  obtain ⟨txin, inside, rfl⟩ := mem_map.1 mem
  obtain ⟨_, output⟩ := isSome_iff_exists.1 (found txin inside)
  rw [output]
  exact accounted.nonneg output

theorem valueIn_nonneg : 0 ≤ c.valueIn tx.vin := by
  rw [valueIn_eq]
  exact sum_nonneg (by simpa using valuesIn_nonneg accounted found)

private theorem sumFits_valuesIn_iff : SumFits 0 (c.valuesIn tx.vin) ↔ c.valueIn tx.vin < 2 ^ 63 := by
  have zero : (0 : CAmount).toInt = 0 := rfl
  rw [sumFits_iff le_rfl (valuesIn_nonneg accounted found), ← valueIn_eq, zero, zero_add]

end

end

end Inputs

section Fees
variable {ctx : ConnectContext} {tx : CTransaction} {s s' : ConnectLoop} {fees : ℤ}

/-- A transaction whose fee is added: it has passed what is checked before. -/
def AddsFee (ctx : ConnectContext) (tx : CTransaction) (s : ConnectLoop) : Prop :=
  tx.isCoinBase = false ∧ ∃ view, checkFinal ctx tx s.view = .ok view ∧
    ¬ s.nSigOpsCost + ctx.sigOpCost tx (zipWith spentOutput tx.vin (view.accessInputs tx.vin).1) >
      MAX_BLOCK_SIGOPS_COST

def feeOf (tx : CTransaction) (view : CCoinsViewCache) : ℤ :=
  if tx.isCoinBase then 0 else view.valueIn tx.vin - valueOut tx.vout

/-- No addition in the loop of `ConnectBlock` or of the block reward after it overflows. -/
def LoopFits (ctx : ConnectContext) : (first : Bool) → List CTransaction → ConnectLoop → Prop
  | _, [], s => AddFits s.nFees (getDogecoinBlockSubsidy ctx.subsidy ctx.nHeight ctx.hashPrevBlock)
  | first, tx :: rest, s =>
    (AddsFee ctx tx s → SumFits 0 (s.view.valuesIn tx.vin) ∧
      ∀ nValueOut, tx.getValueOut = some nValueOut →
        AddFits s.nFees (s.view.amountIn 0 tx.vin - nValueOut)) ∧
    ∀ s', connectTransaction ctx first tx s = .ok s' → LoopFits ctx false rest s'

/-- The totals of the loop, counted without a bound, stay below `2 ^ 63`: what a transaction spends,
the fees up to it, and at the end the fees and the subsidy. -/
def TotalsFit (ctx : ConnectContext) :
    (first : Bool) → List CTransaction → ConnectLoop → (fees : ℤ) → Prop
  | _, [], _, fees =>
    fees + (getDogecoinBlockSubsidy ctx.subsidy ctx.nHeight ctx.hashPrevBlock).toInt < 2 ^ 63
  | first, tx :: rest, s, fees =>
    (AddsFee ctx tx s → s.view.valueIn tx.vin < 2 ^ 63 ∧
      (tx.getValueOut.isSome → fees + feeOf tx s.view < 2 ^ 63)) ∧
    ∀ s', connectTransaction ctx first tx s = .ok s' →
      TotalsFit ctx false rest s' (fees + feeOf tx s.view)

theorem AddsFee.found (adds : AddsFee ctx tx s) :
    ∀ txin ∈ tx.vin, (s.view.output txin.prevout).isSome := by
  obtain ⟨spends, view, passed, -⟩ := adds
  exact ((checkFinal_ends .refl spends).of_ok passed).2

theorem addsFee_fits_iff (accounted : s.view.Accounted S) (counted : s.nFees.toInt = fees)
    (nonneg : 0 ≤ fees) (adds : AddsFee ctx tx s) :
    (SumFits 0 (s.view.valuesIn tx.vin) ∧ ∀ nValueOut, tx.getValueOut = some nValueOut →
        AddFits s.nFees (s.view.amountIn 0 tx.vin - nValueOut)) ↔
      s.view.valueIn tx.vin < 2 ^ 63 ∧
        (tx.getValueOut.isSome → fees + feeOf tx s.view < 2 ^ 63) := by
  have inputs := sumFits_valuesIn_iff accounted adds.found
  rw [inputs]
  refine and_congr_right fun below => ?_
  have sum : (s.view.amountIn 0 tx.vin).toInt = s.view.valueIn tx.vin := by
    rw [amountIn_eq, (inputs.2 below).toInt, valueIn_eq]
    exact zero_add _
  have fee (nValueOut : CAmount) (total : tx.getValueOut = some nValueOut) :
      (s.view.amountIn 0 tx.vin - nValueOut).toInt = feeOf tx s.view := by
    obtain ⟨value, range, -⟩ := getValueOut_spec total
    have out := moneyRange_iff.1 range
    have low := valueIn_nonneg accounted adds.found
    rw [Int64.toInt_sub, sum, value, feeOf, adds.1, if_neg Bool.false_ne_true]
    rw [value] at out
    exact Int.bmod_eq_of_le (by omega) (by omega)
  constructor
  · intro fits some_
    obtain ⟨nValueOut, total⟩ := isSome_iff_exists.1 some_
    have sum := (addFits_iff (counted ▸ nonneg)).1 (fits nValueOut total)
    rwa [counted, fee nValueOut total] at sum
  intro below nValueOut total
  refine (addFits_iff (counted ▸ nonneg)).2 ?_
  rw [counted, fee nValueOut total]
  exact below (by simp [total])

section
variable (connected : connectTransaction ctx first tx s = .ok s')
include connected

theorem addsFee_of_connected
    (spends : tx.isCoinBase = false) : AddsFee ctx tx s ∧ tx.getValueOut.isSome := by
  obtain ⟨_, checked, -⟩ := bind_eq_ok.1 connected
  rw [checkConnect, spends, if_neg Bool.false_ne_true] at checked
  obtain ⟨view, final, checked⟩ := bind_eq_ok.1 checked
  obtain ⟨_, sigops, checked⟩ := bind_eq_ok.1 checked
  obtain ⟨_, -, checked⟩ := bind_eq_ok.1 checked
  obtain ⟨_, isOut, -⟩ := bind_eq_ok.1 checked
  have cheap := of_decide_eq_false (refuse_eq_ok.1 (orReject_eq_ok sigops))
  exact ⟨⟨spends, view, final, cheap⟩, by rw [orAbort_eq_ok.1 isOut]; rfl⟩

theorem feeOf_nonneg : 0 ≤ feeOf tx s.view := by
  obtain ⟨_, -, checked, -⟩ := connectTx_eq_ok connected
  rw [feeOf]
  split
  · exact le_rfl
  · next spends => exact Int.sub_nonneg_of_le (checked.paid (by simpa using spends))

end

private theorem nFees_of_connected (counted : s.nFees.toInt = fees) (nonneg : 0 ≤ fees)
    (connected : connectTransaction ctx first tx s = .ok s')
    (below : AddsFee ctx tx s → tx.getValueOut.isSome → fees + feeOf tx s.view < 2 ^ 63) :
    s'.nFees.toInt = fees + feeOf tx s.view := by
  obtain ⟨_, -, checked, -, same, -⟩ := connectTx_eq_ok connected
  rw [same]
  cases coinbase : tx.isCoinBase with
  | true => rw [checked.coinbase coinbase, feeOf, if_pos coinbase, add_zero, counted]
  | false =>
    obtain ⟨fee, added, value⟩ := checked.nFees coinbase
    obtain ⟨adds, some_⟩ := addsFee_of_connected connected coinbase
    have total := below adds some_
    rw [feeOf, coinbase, if_neg Bool.false_ne_true, ← value] at total ⊢
    have fits : AddFits s.nFees fee := (addFits_iff (counted ▸ nonneg)).2 (by rwa [counted])
    rw [added, fits.toInt, counted]

private theorem loopFits_iff (accounted : s.view.Accounted S)
    (members : ∀ tx ∈ vtx, tx.hash ∈ S) (formed : ∀ tx ∈ vtx, WellFormed tx)
    (counted : s.nFees.toInt = fees) (nonneg : 0 ≤ fees) :
    LoopFits ctx first vtx s ↔ TotalsFit ctx first vtx s fees := by
  induction vtx generalizing s first fees with
  | nil => rw [LoopFits, TotalsFit, addFits_iff (counted ▸ nonneg), counted]
  | cons tx _ ih =>
    obtain ⟨mem, members⟩ := forall_mem_cons.1 members
    obtain ⟨formed₁, formed⟩ := forall_mem_cons.1 formed
    have here : (AddsFee ctx tx s → SumFits 0 (s.view.valuesIn tx.vin) ∧
        ∀ nValueOut, tx.getValueOut = some nValueOut →
          AddFits s.nFees (s.view.amountIn 0 tx.vin - nValueOut)) ↔
        (AddsFee ctx tx s → s.view.valueIn tx.vin < 2 ^ 63 ∧
          (tx.getValueOut.isSome → fees + feeOf tx s.view < 2 ^ 63)) :=
      imp_congr_right fun adds => addsFee_fits_iff accounted counted nonneg adds
    rw [LoopFits, TotalsFit, here]
    refine and_congr_right fun below => forall_congr' fun _ => imp_congr_right fun connected => ?_
    obtain ⟨_, paid⟩ := connectTx_paid accounted mem formed₁ connected
    exact ih paid.accounted members formed
      (nFees_of_connected counted nonneg connected fun adds => (below adds).2)
      (add_nonneg nonneg (feeOf_nonneg connected))

/-- No addition in `ConnectBlock` overflows: the loop starts once the block has passed its checks. -/
def BlockFits (ctx : ConnectContext) (block : CBlock) (c : CCoinsViewCache) : Prop :=
  checkBlock ctx.legacySigOpCount block = .ok () → block.hash ≠ ctx.hashGenesisBlock →
    ∀ view, (if ctx.fEnforceBIP30 then checkBIP30 block.vtx c.getBestBlock.2
      else .ok c.getBestBlock.2) = .ok view → LoopFits ctx true block.vtx ⟨view, 0, 0, [], true⟩

def BlockTotalsFit (ctx : ConnectContext) (block : CBlock) (c : CCoinsViewCache) : Prop :=
  checkBlock ctx.legacySigOpCount block = .ok () → block.hash ≠ ctx.hashGenesisBlock →
    ∀ view, (if ctx.fEnforceBIP30 then checkBIP30 block.vtx c.getBestBlock.2
      else .ok c.getBestBlock.2) = .ok view → TotalsFit ctx true block.vtx ⟨view, 0, 0, [], true⟩ 0

variable {c : CCoinsViewCache} {m : CoinsMap}

/-- Over coins in range, `GetValueIn` adds up a transaction with all its inputs, and `ConnectBlock` the
inputs, the fees and the reward of a block, without overflow exactly when the totals are below
`2 ^ 63`. -/
theorem amounts_fit_iff (view : c.Shows m) (values : ∀ txid coins, m txid = some coins →
      ∀ out ∈ coins.vout, out.isNull = false → moneyRange out.nValue = true) :
    (∀ tx, tx.isCoinBase = false → (c.haveInputs tx).1 = true →
      (SumFits 0 (c.valuesIn tx.vin) ↔ c.valueIn tx.vin < 2 ^ 63)) ∧
    ∀ ctx block, BlockFits ctx block c ↔ BlockTotalsFit ctx block c := by
  have valued : ∀ txid coins, m txid = some coins → coins.Valued := fun txid coins found =>
    CCoins.valued_of_moneyRange (values txid coins found)
  constructor
  · intro tx spends have_
    obtain ⟨accounted, -⟩ := view.accounted (S := ∅) valued
    obtain ⟨_, found, -⟩ := haveInputs_spec .refl spends
    rw [found] at have_
    exact sumFits_valuesIn_iff accounted (all_eq_true.1 have_)
  intro ctx block
  refine imp_congr_right fun passed => imp_congr_right fun _ => forall_congr' fun start =>
    imp_congr_right fun bip30 => ?_
  obtain ⟨accounted, -⟩ := view.getBestBlock.accounted (S := (block.vtx.map (·.hash)).toFinset) valued
  have filled : c.getBestBlock.2.Filled start := by
    split at bip30
    · exact (checkBIP30_ends .refl block.vtx).of_ok bip30
    · cases bip30
      exact .refl
  exact loopFits_iff (accounted.filled filled).1
    (fun tx member => Finset.mem_union_right _ (mem_toFinset.2 (mem_map_of_mem member)))
    (checkBlock_spec passed).each rfl le_rfl

end Fees

/-- Ten outputs of `MAX_MONEY` each. -/
def richView : CCoinsViewCache :=
  .ofBase (.db (AList.singleton 7 ⟨false, replicate 10 ⟨MAX_MONEY, []⟩, 3, 1⟩) 2)

def pairTx : CTransaction := plainTx 11 [⟨7, 0⟩, ⟨7, 1⟩] [25]

def pairBlock : CBlock where
  hash := 20
  vtx := [plainTx 10 [⟨0, 0xffffffff⟩] [1000], pairTx]

/-- Two of the outputs are no more than `2 ^ 63`. -/
theorem amounts_fit_pairTx : SumFits 0 (richView.valuesIn pairTx.vin) ∧
      (BlockFits (plainContext 4 2) pairBlock richView ↔
        BlockTotalsFit (plainContext 4 2) pairBlock richView) := by
  have shows : richView.Shows richView.toView.shown := shows_ofBase trivial
  obtain ⟨inputs, blocks⟩ := amounts_fit_iff shows fun txid coins found out member _ => by
    rw [(shown_singleton 2 found).2] at member
    rw [eq_of_mem_replicate member]
    rfl
  exact ⟨(inputs pairTx rfl (by decide)).2 (by decide), blocks _ _⟩

def richTx : CTransaction :=
  plainTx 11 [⟨7, 0⟩, ⟨7, 1⟩, ⟨7, 2⟩, ⟨7, 3⟩, ⟨7, 4⟩, ⟨7, 5⟩, ⟨7, 6⟩, ⟨7, 7⟩, ⟨7, 8⟩, ⟨7, 9⟩] [0]

def richBlock : CBlock where
  hash := 20
  vtx := [plainTx 10 [⟨0, 0xffffffff⟩] [1000], richTx]

theorem richTx_overflows : ¬ SumFits 0 (richView.valuesIn richTx.vin) :=
  fun fits => absurd fits.toInt (by decide)

/-- The transaction passes the checks before `GetValueIn` in `AcceptToMemoryPoolWorker` and in
`ConnectBlock`, and its inputs come out as less than nothing. -/
theorem amounts_overflow_richTx :
    checkTransaction richTx = .ok () ∧ richTx.isCoinBase = false ∧ (richView.haveInputs richTx).1 = true ∧
      (richView.getValueIn richTx).1 = some (-8446744073709551616) ∧
      ¬ SumFits 0 (richView.valuesIn richTx.vin) ∧ ¬ BlockFits (plainContext 4 2) richBlock richView := by
  refine ⟨rfl, rfl, by decide, by decide, richTx_overflows, fun fits => ?_⟩
  have loop := fits rfl (by decide) _ rfl
  have turn := loop.2 _ rfl
  exact absurd (turn.1 ⟨rfl, _, rfl, by decide⟩).1 (fun sum => absurd sum.toInt (by decide))

end DogecoinCore.Coins
namespace DogecoinCore

/-- A product of `int64_t`; none where it overflows. -/
def int64 (n : ℤ) : Option ℤ := if -2 ^ 63 ≤ n ∧ n < 2 ^ 63 then some n else none

/-- The constructor of `CFeeRate`; none also where its assertion fails. -/
def cFeeRate (nFeePaid : CAmount) (nBytes : ℕ) : Option ℤ := do
  guard (nBytes < 2 ^ 63)
  if 0 < nBytes then return (← int64 (nFeePaid.toInt * 1000)).tdiv nBytes else return 0

def getFee (nSatoshisPerK : ℤ) (nBytes : ℕ) : Option ℤ := do
  guard (nBytes < 2 ^ 63)
  let nFee := (← int64 (nSatoshisPerK * nBytes)).tdiv 1000
  return if nFee = 0 ∧ nBytes ≠ 0 then
    if 0 < nSatoshisPerK then 1 else if nSatoshisPerK < 0 then -1 else nFee
  else nFee

/-- **A fee rate stays in 64 bits**, and charges no more than was paid, up to this fee. -/
theorem fee_within_iff (range : moneyRange fee = true) (size : 0 < n) (small : n < 2 ^ 63) :
    (∃ rate ∈ cFeeRate fee n, ∃ paid ∈ getFee rate n, paid ≤ fee.toInt) ↔
      fee.toInt ≤ 9223372036854775 := by
  obtain ⟨nonneg, -⟩ := moneyRange_iff.1 range
  simp only [cFeeRate, getFee, int64, guard, small, size, if_true]
  generalize fee.toInt = fee at nonneg ⊢
  constructor
  · rintro ⟨rate, constructed, -⟩
    by_contra above
    rw [if_neg (by omega)] at constructed
    cases constructed
  intro _
  have back := Int.ediv_mul_le (fee * 1000) (show (n : ℤ) ≠ 0 by omega)
  have low := Int.ediv_nonneg (show 0 ≤ fee * 1000 by omega) (Int.natCast_nonneg n)
  have product := Int.mul_nonneg low (Int.natCast_nonneg n)
  rw [if_pos (by omega)]
  refine ⟨fee * 1000 / n, congrArg some (Int.tdiv_eq_ediv_of_nonneg (by omega)), ?_⟩
  rw [if_pos (by omega)]
  refine ⟨_, rfl, ?_⟩
  rw [Int.tdiv_eq_ediv_of_nonneg product]
  have paid : 0 < fee * 1000 / n → 0 < fee := fun charged => by
    by_contra free
    simp [show fee = 0 by omega] at charged
  split_ifs <;> omega

theorem fee_within_one :
    ∃ rate ∈ cFeeRate 1 250, ∃ paid ∈ getFee rate 250, paid ≤ (1 : CAmount).toInt :=
  (fee_within_iff (by decide) (by decide) (by decide)).2 (by decide)

/-- A fee of a hundred million coins is in the range, and its rate overflows. -/
theorem cFeeRate_overflows : moneyRange 10000000000000000 = true ∧
    cFeeRate 10000000000000000 250 = none := by
  decide

end DogecoinCore
