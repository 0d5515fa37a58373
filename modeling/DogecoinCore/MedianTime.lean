import DogecoinCore.Median
import DogecoinCore.Transaction

/-! Median time past: `GetMedianTimePast`, the rule of `ContextualCheckBlockHeader` for the time
of a block, and `IsFinalTx`. -/
namespace DogecoinCore
open List

/-- `GetMedianTimePast`, from the times of a block and its ancestors, newest first. -/
def getMedianTimePast (times : List UInt32) : ℕ := Median.median 0 ((times.map (·.toNat)).take 11)

/-- The chains whose times `ContextualCheckBlockHeader` accepts. -/
inductive Timely : List UInt32 → Prop
  | genesis (nTime : UInt32) : Timely [nTime]
  | block {nTime : UInt32} {pprev : List UInt32} : Timely pprev →
      getMedianTimePast pprev < nTime.toNat → Timely (nTime :: pprev)

/-- `IsFinalTx`, with heights and times as integers. -/
def isFinalTx (tx : CTransaction) (nBlockHeight nBlockTime : ℤ) : Bool :=
  tx.nLockTime = 0 ||
    tx.nLockTime.toNat < (if tx.nLockTime < 500000000 then nBlockHeight else nBlockTime) ||
    tx.vin.all (·.nSequence = 0xffffffff)

theorem Timely.step (timely : Timely (nTime :: pprev)) (nonempty : pprev ≠ []) :
    Timely pprev ∧ getMedianTimePast pprev ≤ getMedianTimePast (nTime :: pprev) := by
  cases timely with
  | genesis => exact absurd rfl nonempty
  | block before above =>
    refine ⟨before, ?_⟩
    have window := Median.median_le_window (n := 10) (by simpa using nonempty) (by simp) above.le
    rwa [take_take] at window

theorem isFinalTx_mono (height : h ≤ h') (time : t ≤ t') (final : isFinalTx tx h t) :
    isFinalTx tx h' t' := by
  simp only [isFinalTx, Bool.or_eq_true, decide_eq_true_eq] at final ⊢
  refine final.imp_left (Or.imp_right fun early => early.trans_le ?_)
  split
  · exact height
  · exact time

/-- **Median time past never goes back**, and a final transaction stays final. -/
theorem median_time_mono (above : List UInt32) (nonempty : pprev ≠ [])
    (timely : Timely (above ++ pprev)) :
    getMedianTimePast pprev ≤ getMedianTimePast (above ++ pprev) ∧
      ∀ tx (h : ℤ), isFinalTx tx h (getMedianTimePast pprev) →
        isFinalTx tx (h + above.length) (getMedianTimePast (above ++ pprev)) := by
  have rises : getMedianTimePast pprev ≤ getMedianTimePast (above ++ pprev) := by
    induction above with
    | nil => exact le_rfl
    | cons _ above ih =>
      obtain ⟨before, step⟩ := timely.step (by simp [nonempty])
      exact (ih before).trans step
  exact ⟨rises, fun tx h => isFinalTx_mono (by omega) (by exact_mod_cast rises)⟩

theorem median_time_mono_three : Timely [7, 6, 4] ∧
    getMedianTimePast [4] ≤ getMedianTimePast ([7, 6] ++ [4]) := by
  have timely : Timely [7, 6, 4] := .block (.block (.genesis 4) (by decide)) (by decide)
  exact ⟨timely, (median_time_mono [7, 6] (by simp) timely).1⟩

end DogecoinCore
