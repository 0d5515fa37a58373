import DogecoinCore.Interpreter

/-! What a script can use up. Every opcode checks the stack before it reads from it, every element
it pushes is small, and every turn of the loop takes at least one byte of the script. So the
interpreter ends, and it ends with a stack or with an error that it reports. -/
namespace DogecoinCore
open List Fallible CScriptNum Ends EvalState Nat

/-- Errors that the interpreter sets itself, and the exceptions for malformed numbers. -/
def Halt.Reported : Halt → Prop
  | .error _ => True
  | .scriptnum _ => True
  | .outOfRange => False
  | .stackEmpty => False
  | .assertion => False
  | .running => False

/-- Ends with a value of `Q` or reports an error. -/
abbrev Safe {α : Type} (Q : α → Prop) (x : Eval α) : Prop := Ends Halt.Reported Q x

def Small (stack : List Valtype) : Prop := ∀ vch ∈ stack, vch.length ≤ MAX_SCRIPT_ELEMENT_SIZE

variable {stack : List Valtype} {flags : Flags}

theorem Small.cons (small : Small stack)
    (short : vch.length ≤ MAX_SCRIPT_ELEMENT_SIZE) : Small (vch :: stack) :=
  forall_mem_cons.2 ⟨short, small⟩

theorem Small.mono (small : Small stack) (part : less ⊆ stack) :
    Small less := fun vch mem => small vch (part mem)

section Primitives
variable {n i j : ℕ} {stack : List Valtype} {vch : Valtype}

theorem errorIf_safe : Safe (fun _ => bad = false) (errorIf bad serror) := by
  cases bad
  · exact rfl
  · exact trivial

theorem errorIf_bind (next : bad = false → Safe Q (f ())) : Safe Q (errorIf bad serror >>= f) :=
  (errorIf_safe).bind fun _ => next

theorem assert_safe (true_ : holds = true) : Safe (fun _ => True) (assert holds) := by
  subst true_
  trivial

theorem onlyIf_safe
    (safe : c = true → Safe (fun _ => True) checks) : Safe (fun _ => True) (onlyIf c checks) := by
  cases c
  · trivial
  · exact safe rfl

theorem need_safe : Safe (fun _ => n ≤ stack.length) (need n stack) :=
  (errorIf_safe).weaken fun _ enough => not_lt.1 (of_decide_eq_false enough)

theorem need_bind (next : n ≤ stack.length → Safe Q (f ())) : Safe Q (need n stack >>= f) :=
  (need_safe).bind fun _ => next

section
variable (small : Small stack)
include small

theorem stacktop_safe (above : 1 ≤ i) (within : i ≤ stack.length) :
    Safe (fun vch => vch.length ≤ MAX_SCRIPT_ELEMENT_SIZE) (stacktop stack i) := by
  have index : i - 1 < stack.length := by omega
  rw [stacktop, if_pos ⟨above, within⟩, getD_eq_getElem?_getD, getElem?_eq_getElem index]
  exact small _ (getElem_mem index)

theorem stacktop_bind (within : i + 1 ≤ stack.length)
    (next : ∀ vch, vch.length ≤ MAX_SCRIPT_ELEMENT_SIZE → Safe Q (f vch)) :
    Safe Q (stacktop stack (i + 1) >>= f) :=
  (stacktop_safe small (succ_pos i) within).bind next

theorem popstack_safe (enough : n + 1 ≤ stack.length) :
    Safe (fun rest => n ≤ rest.length ∧ Small rest) (popstack stack) := by
  cases stack with
  | nil => simp at enough
  | cons top rest => exact ⟨le_of_succ_le_succ enough, small.mono (subset_cons_self top rest)⟩

theorem eraseTop_safe (above : 1 ≤ i) (within : i ≤ stack.length) :
    Safe (fun rest => rest.length + 1 = stack.length ∧ Small rest) (eraseTop stack i) := by
  rw [eraseTop, if_pos ⟨above, within⟩]
  refine ⟨?_, small.mono (eraseIdx_sublist ..).subset⟩
  rw [length_eraseIdx_of_lt (by omega)]
  omega

theorem insertTop_safe (short : vch.length ≤ MAX_SCRIPT_ELEMENT_SIZE)
    (within : i ≤ stack.length) : Safe Small (insertTop stack i vch) := by
  rw [insertTop, if_pos within]
  intro v mem
  obtain rfl | old := (mem_insertIdx within).1 mem
  · exact short
  · exact small v old

theorem swapTop_safe (above : 1 ≤ i) (within : i ≤ stack.length)
    (above' : 1 ≤ j) (within' : j ≤ stack.length) :
    Safe (fun rest => rest.length = stack.length ∧ Small rest) (swapTop stack i j) := by
  refine (stacktop_safe small above within).bind fun _ one => ?_
  refine (stacktop_safe small above' within').bind fun _ two => ?_
  refine ⟨by rw [length_set, length_set], fun v mem => ?_⟩
  obtain mem | rfl := mem_or_eq_of_mem_set mem
  · obtain mem | rfl := mem_or_eq_of_mem_set mem
    · exact small v mem
    · exact two
  · exact one

end

end Primitives

/-! ### Numbers -/

namespace CScriptNum
theorem magnitude_lt : magnitude vch < 256 ^ vch.length := by
  induction vch with
  | nil => decide
  | cons b rest ih =>
    have := b.toNat_lt
    rw [magnitude, length_cons, pow_succ]
    omega

theorem setVch_natAbs_le : (setVch vch).natAbs ≤ magnitude vch := by
  unfold setVch
  split_ifs
  · rw [Int.natAbs_neg, Int.natAbs_natCast]
    exact sub_le _ _
  · rw [Int.natAbs_natCast]

private theorem ofVch_safe (vch : Valtype) (fRequireMinimal : Bool) (nMaxNumSize : ℕ) :
    Safe (fun n => n.natAbs < 256 ^ nMaxNumSize) (ofVch vch fRequireMinimal nMaxNumSize) := by
  unfold ofVch
  split_ifs with long minimal
  · trivial
  · trivial
  calc (setVch vch).natAbs ≤ magnitude vch := setVch_natAbs_le
    _ < 256 ^ vch.length := magnitude_lt
    _ ≤ 256 ^ nMaxNumSize := Nat.pow_le_pow_right (by decide) (Nat.not_lt.1 long)

theorem absBytes_length (bytes absvalue : ℕ) : (absBytes bytes absvalue).length ≤ bytes := by
  induction bytes generalizing absvalue with
  | zero => exact le_refl 0
  | succ bytes ih =>
    rw [absBytes]
    split_ifs
    · exact zero_le _
    · exact succ_le_succ (ih _)

private theorem serialize_length (n : ℤ) : (serialize n).length ≤ MAX_SCRIPT_ELEMENT_SIZE := by
  have bytes := absBytes_length 8 n.natAbs
  have enough : 9 ≤ MAX_SCRIPT_ELEMENT_SIZE := by decide
  unfold serialize
  dsimp only
  split_ifs
  · exact zero_le _
  · exact (length_append ..).trans_le (Nat.le_trans (Nat.add_le_add_right bytes 1) enough)
  · exact (length_append ..).trans_le (Nat.le_trans (Nat.add_le_add_right bytes 1) enough)
  · rw [length_append, length_dropLast, length_singleton]
    omega
  · omega

def signed (neg : Bool) (c : ℕ) : UInt8 := .ofNat (if neg then c + 128 else c)

theorem signed_bits : ∀ neg, ∀ c < 128, (signed neg c &&& 0x80 = 0 ↔ neg = false) ∧
    (signed neg c &&& 0x7f = 0 ↔ c = 0) ∧ signed false c ||| 0x80 = signed true c := by
  decide +kernel

theorem exists_signed (v : Valtype) : v = [] ∨ ∃ l s, ∃ c < 128, v = l ++ [signed s c] := by
  refine (eq_nil_or_concat' v).imp_right ?_
  rintro ⟨l, b, rfl⟩
  have byte := b.toNat_lt
  refine ⟨l, decide (128 ≤ b.toNat), b.toNat % 128, by omega, congrArg (l ++ [·]) ?_⟩
  rw [signed, ← UInt8.toNat_inj, UInt8.toNat_ofNat']
  simp only [decide_eq_true_eq]
  split_ifs <;> omega

theorem magnitude_signed (small : c < 128) :
    magnitude (l ++ [signed true c]) = magnitude (l ++ [signed false c]) + 128 * 256 ^ l.length ∧
      magnitude (l ++ [signed false c]) < 128 * 256 ^ l.length := by
  induction l with
  | nil =>
    simp [magnitude, signed]
    omega
  | cons b _ _ =>
    have byte := b.toNat_lt
    rw [cons_append, cons_append, magnitude, magnitude, length_cons, pow_succ]
    omega

theorem absBytes_cons (b : UInt8) (nonzero : b.toNat + 256 * m ≠ 0) (room : 0 < k) :
    absBytes k (b.toNat + 256 * m) = b :: absBytes (k - 1) m := by
  have byte := b.toNat_lt
  obtain ⟨k, rfl⟩ := Nat.exists_eq_add_one_of_ne_zero (Nat.ne_of_gt room)
  rw [absBytes, if_neg nonzero, show (b.toNat + 256 * m) / 256 = m by omega]
  congr
  rw [← UInt8.toNat_inj, UInt8.toNat_ofNat']
  omega

theorem absBytes_concat (nonzero : b ≠ 0) (room : l.length < k) : magnitude (l ++ [b]) ≠ 0 ∧
    absBytes k (magnitude (l ++ [b])) = l ++ [b] := by
  induction l generalizing k with
  | nil =>
    have : b.toNat + 256 * 0 ≠ 0 := fun none => nonzero (UInt8.toNat_inj.1 none)
    refine ⟨this, (absBytes_cons b this room).trans ?_⟩
    cases k - 1 <;> rfl
  | cons a _ ih =>
    rw [length_cons] at room
    obtain ⟨more, bytes⟩ := ih (k := k - 1) (by omega)
    rw [cons_append, magnitude, absBytes_cons a (by omega) (by omega), bytes]
    exact ⟨by omega, rfl⟩

theorem setVch_signed (small : c < 128) : setVch (l ++ [signed s c]) =
    (if s then -1 else 1) * magnitude (l ++ [signed false c]) := by
  unfold setVch
  simp only [getLastD_concat, ne_eq, (signed_bits s c small).1]
  cases s with
  | false => simp
  | true => simp [(magnitude_signed small).1]

def Minimal (l : Valtype) (c : ℕ) : Prop := c = 0 → l.getLastD 0 &&& 0x80 ≠ 0

theorem ofVch_signed (small : c < 128) (room : l.length < k) :
    ofVch (l ++ [signed s c]) f k = .ok n ↔
      setVch (l ++ [signed s c]) = n ∧ (f → Minimal l c) := by
  rw [ofVch, if_neg (by simp; omega), ite_eq_iff, Minimal]
  obtain rfl | ⟨init, d, rfl⟩ := eq_nil_or_concat' l <;>
    simp [(signed_bits s c small).2.1, throw, throwThe, MonadExceptOf.throw, pure, Except.pure,
      and_comm]

theorem magnitude_zero : magnitude (l ++ [0]) = magnitude l := by
  induction l with
  | nil => rfl
  | cons _ _ ih => rw [cons_append, magnitude, ih, magnitude]

theorem serialize_signed (small : c < 128) (room : l.length < 8) (minimal : Minimal l c) :
    serialize (setVch (l ++ [signed s c])) = l ++ [signed s c] := by
  obtain ⟨low, zero, closed⟩ := signed_bits false c small
  rw [setVch_signed small, serialize]
  by_cases none : c = 0
  -- The sign has a byte of its own, after a byte that uses its highest bit.
  · subst none
    obtain rfl | ⟨init, d, rfl⟩ := eq_nil_or_concat' l
    · exact absurd rfl (minimal rfl)
    have high : d &&& 0x80 ≠ 0 := by simpa using minimal rfl
    have nonzero : d ≠ 0 := fun none => by simp [none] at high
    obtain ⟨more, bytes⟩ := absBytes_concat nonzero (Nat.lt_of_succ_lt (by simpa using room))
    rw [show signed false 0 = 0 from rfl, magnitude_zero]
    cases s <;> simp [bytes, more, high, signed]
  · have nonzero : signed false c ≠ 0 := fun empty => none (zero.1 (by rw [empty]; rfl))
    obtain ⟨more, bytes⟩ := absBytes_concat nonzero room
    cases s <;> simp [bytes, more, closed, low]

theorem exists_minimal (nonzero : m ≠ 0) (small : m < 128 * 256 ^ k) : ∃ l : Valtype, ∃ c < 128,
    l.length ≤ k ∧ Minimal l c ∧ magnitude (l ++ [signed false c]) = m := by
  induction k generalizing m with
  | zero =>
    refine ⟨[], m, by omega, le_rfl, fun none => absurd none nonzero, ?_⟩
    simp [magnitude, signed]
    omega
  | succ k ih =>
    have room : 0 < 256 ^ k := Nat.pow_pos (by decide)
    by_cases low : m < 128
    · obtain ⟨l, c, bits, short, rest⟩ := ih nonzero (by omega)
      exact ⟨l, c, bits, le_succ_of_le short, rest⟩
    by_cases more : m / 256 = 0
    · have high : UInt8.ofNat m = signed true (m - 128) := congrArg UInt8.ofNat (by simp; omega)
      refine ⟨[.ofNat m], 0, by decide, by simp, fun _ => ?_, ?_⟩
      · simpa [high] using (signed_bits true (m - 128) (by omega)).1
      · simp [magnitude, signed]
        omega
    rw [pow_succ] at small
    -- The lowest byte goes in front of the encoding of the rest.
    obtain ⟨l, c, bits, short, minimal, value⟩ := ih more (by omega)
    refine ⟨.ofNat m :: l, c, bits, succ_le_succ short, fun none => ?_, ?_⟩
    · cases l with
      | nil => exact absurd rfl (minimal none)
      | cons => exact minimal none
    · rw [cons_append, magnitude, value, UInt8.toNat_ofNat']
      omega

theorem ofVch_serialize (below : n.natAbs < 2 ^ 63) : (serialize n).length ≤ 8 ∧
    ∀ f k, (serialize n).length ≤ k → ofVch (serialize n) f k = .ok n := by
  by_cases zero : n = 0
  · subst zero
    exact ⟨by decide, fun f k _ => by simp [ofVch, serialize, setVch, magnitude]; rfl⟩
  obtain ⟨l, c, small, short, minimal, value⟩ :=
    exists_minimal (k := 7) (Int.natAbs_ne_zero.2 zero) below
  have decoded : setVch (l ++ [signed (n < 0) c]) = n := by
    rw [setVch_signed small, value]
    split_ifs with sign <;> simp at sign <;> omega
  have encoded := serialize_signed (s := n < 0) small (lt_succ_of_le short) minimal
  rw [decoded] at encoded
  rw [encoded, length_append, length_singleton]
  exact ⟨succ_le_succ short, fun f k room => (ofVch_signed small room).2 ⟨decoded, fun _ => minimal⟩⟩

/-- **A script number has one encoding** that the constructor accepts. -/
theorem scriptNum_canonical (defined : nMaxNumSize ≤ 8) :
    (∀ n : ℤ, n.natAbs < 2 ^ 63 → ∀ fRequireMinimal, ofVch (serialize n) fRequireMinimal 8 = .ok n) ∧
      ∀ vch, vch.length ≤ nMaxNumSize →
        ((∃ n, ofVch vch true nMaxNumSize = .ok n) ↔ vch = serialize (setVch vch)) := by
  refine ⟨fun n below f => ?_, fun vch fits => ?_⟩
  · obtain ⟨short, decodes⟩ := ofVch_serialize below
    exact decodes f 8 short
  obtain rfl | ⟨l, s, c, small, rfl⟩ := exists_signed vch
  · exact ⟨fun _ => rfl, fun _ => ⟨_, rfl⟩⟩
  have room : l.length + 1 ≤ nMaxNumSize := by simpa using fits
  constructor
  · rintro ⟨n, accepted⟩
    have minimal := ((ofVch_signed small room).1 accepted).2 rfl
    exact (serialize_signed small (by omega) minimal).symm
  · intro same
    have bound := (magnitude_signed (l := l) small).2
    have : 256 ^ l.length ≤ 256 ^ 7 := Nat.pow_le_pow_right (by decide) (by omega)
    have below : (setVch (l ++ [signed s c])).natAbs < 2 ^ 63 := by
      rw [setVch_signed small]
      split_ifs <;> omega
    have decodes := (ofVch_serialize below).2 true nMaxNumSize
    rw [← same] at decodes
    exact ⟨_, decodes fits⟩

theorem scriptNum_canonical_short : [0xff, 0x80] = serialize (setVch [0xff, 0x80]) :=
  ((scriptNum_canonical (show 4 ≤ 8 by decide)).2 _ (by decide)).1 ⟨-255, rfl⟩

end CScriptNum

theorem vchOfBool_length : (vchOfBool b).length ≤ MAX_SCRIPT_ELEMENT_SIZE := by
  cases b <;> decide

theorem scriptNum_safe (small : Small stack) (above : 1 ≤ i) (within : i ≤ stack.length) :
    Safe (fun n => n.natAbs < 256 ^ 4) (scriptNum flags stack i) :=
  (stacktop_safe small above within).bind fun vch _ => ofVch_safe vch _ 4

theorem UnaryOp.apply_safe (op : UnaryOp) (operand : bn.natAbs < 256 ^ 4) :
    Safe (fun _ => True) (op.apply bn) := by
  have negates : bn ≠ CScriptNum.INT64_MIN := by
    rw [CScriptNum.INT64_MIN]
    omega
  cases op with
  | add1 =>
    have fits : bn ≤ CScriptNum.INT64_MAX - 1 := by
      rw [CScriptNum.INT64_MAX]
      omega
    exact (assert_safe (by simp [fits])).bind fun _ _ => trivial
  | sub1 =>
    have fits : CScriptNum.INT64_MIN + 1 ≤ bn := by
      rw [CScriptNum.INT64_MIN]
      omega
    exact (assert_safe (by simp [fits])).bind fun _ _ => trivial
  | negate => exact (assert_safe (decide_eq_true negates)).bind fun _ _ => trivial
  | abs =>
    rw [UnaryOp.apply]
    split_ifs
    · exact (assert_safe (decide_eq_true negates)).bind fun _ _ => trivial
    · trivial
  | not | notEqual0 => trivial

theorem HashOp.apply_length (op : HashOp) (vch : Valtype) :
    (op.apply crypto vch).length ≤ MAX_SCRIPT_ELEMENT_SIZE := by
  have twenty : 20 ≤ MAX_SCRIPT_ELEMENT_SIZE := by decide
  have thirtyTwo : 32 ≤ MAX_SCRIPT_ELEMENT_SIZE := by decide
  cases op with
  | ripemd160 => exact (crypto.ripemd160_length vch).trans_le twenty
  | sha1 => exact (crypto.sha1_length vch).trans_le twenty
  | sha256 => exact (crypto.sha256_length vch).trans_le thirtyTwo
  | hash160 => exact (crypto.ripemd160_length _).trans_le twenty
  | hash256 => exact (crypto.sha256_length _).trans_le thirtyTwo

/-! ### Opcodes -/

section Opcodes
variable {ctx : EvalContext} {flags : Flags} {stack : List Valtype}

theorem pushAnswer_safe (serror : ScriptError) (answer : Bool)
    (small : Small stack) : Safe Small (pushAnswer verify serror answer stack) := by
  unfold pushAnswer
  split_ifs
  · exact errorIf_bind fun _ => small
  · exact small.cons (vchOfBool_length)

section
variable (small : Small stack)
include small

theorem checkLock_safe : Safe Small (checkLock flags enabled satisfied stack) := by
  unfold checkLock
  split_ifs
  · refine need_bind fun enough => ?_
    refine stacktop_bind small enough fun vch _ => ?_
    refine (ofVch_safe vch _ 5).bind fun _ _ => ?_
    exact errorIf_bind fun _ => errorIf_bind fun _ => small
  · exact errorIf_bind fun _ => small

theorem pickOrRoll_safe : Safe Small (pickOrRoll flags isRoll stack) := by
  refine need_bind fun enough => ?_
  refine (scriptNum_safe small (le_refl 1) (le_of_succ_le enough)).bind fun bn _ => ?_
  refine (popstack_safe small enough).bind fun rest left => ?_
  refine errorIf_bind fun inside => ?_
  have index : (getint bn).toNat + 1 ≤ rest.length := by
    simp only [Bool.or_eq_false_iff, decide_eq_false_iff_not] at inside
    omega
  refine stacktop_bind left.2 index fun _ short => ?_
  split_ifs
  · exact (eraseTop_safe left.2 (succ_pos _) index).bind fun _ erased => erased.2.cons short
  · exact left.2.cons short

theorem equalTop_safe : Safe Small (equalTop verify stack) := by
  refine need_bind fun enough => ?_
  refine stacktop_bind small enough fun _ _ => ?_
  refine stacktop_bind small (le_of_succ_le enough) fun _ _ => ?_
  refine (popstack_safe small enough).bind fun rest left => ?_
  refine (popstack_safe left.2 left.1).bind fun rest left => ?_
  exact pushAnswer_safe _ _ left.2

theorem binaryOp_safe : Safe Small (binaryOp flags op stack) := by
  refine need_bind fun enough => ?_
  refine (scriptNum_safe small (by decide) enough).bind fun bn1 _ => ?_
  refine (scriptNum_safe small (by decide) (le_of_succ_le enough)).bind fun bn2 _ => ?_
  refine (popstack_safe small enough).bind fun rest left => ?_
  refine (popstack_safe left.2 left.1).bind fun rest left => ?_
  have pushed := left.2.cons (serialize_length (op.apply bn1 bn2))
  split_ifs
  · refine stacktop_bind pushed (by simp) fun _ _ => ?_
    exact errorIf_bind fun _ => left.2
  · exact pushed

end

private theorem stackOp_safe (op : StackOp) (small : Small stack) :
    Safe Small (stackOp ctx flags stack op) := by
  -- Most opcodes ask for elements first.
  cases op with (unfold stackOp; try with_reducible refine need_bind fun enough => ?_)
  | pushInt n => exact small.cons (serialize_length n)
  | nop => exact small
  | checkLockTimeVerify | checkSequenceVerify => exact checkLock_safe small
  | upgradableNop => exact errorIf_bind fun _ => small
  | verify =>
    refine stacktop_bind small enough fun vch _ => ?_
    refine errorIf_bind fun _ => ?_
    exact (popstack_safe small enough).weaken fun _ left => left.2
  | «return» => trivial
  | drop2 =>
    refine (popstack_safe small enough).bind fun rest left => ?_
    exact (popstack_safe left.2 left.1).weaken fun _ left => left.2
  | dup2 | over2 =>
    refine stacktop_bind small enough fun vch1 one => ?_
    refine stacktop_bind small (by omega) fun vch2 two => ?_
    exact (small.cons one).cons two
  | dup3 =>
    refine stacktop_bind small enough fun vch1 one => ?_
    refine stacktop_bind small (by omega) fun vch2 two => ?_
    refine stacktop_bind small (by omega) fun _ three => ?_
    exact ((small.cons one).cons two).cons three
  | rot2 =>
    refine stacktop_bind small enough fun vch1 one => ?_
    refine stacktop_bind small (by omega) fun vch2 two => ?_
    refine (eraseTop_safe small (by decide) enough).bind fun rest erased => ?_
    refine (eraseTop_safe erased.2 (by decide) (by omega)).bind fun rest erased => ?_
    exact (erased.2.cons one).cons two
  | swap2 | rot =>
    refine (swapTop_safe small (by decide) enough (by decide) (by omega)).bind fun rest same => ?_
    exact (swapTop_safe same.2 (by decide) (by omega) (by decide) (by omega)).weaken
      fun _ same => same.2
  | ifDup =>
    refine stacktop_bind small enough fun vch short => ?_
    split_ifs
    · exact small.cons short
    · exact small
  | depth => exact small.cons (serialize_length _)
  | drop =>
    exact (popstack_safe small enough).weaken fun _ left => left.2
  | dup | over_ =>
    exact stacktop_bind small enough fun vch short => small.cons short
  | nip =>
    exact (eraseTop_safe small (by decide) enough).weaken fun _ erased => erased.2
  | pick | roll => exact pickOrRoll_safe small
  | swap =>
    exact (swapTop_safe small (by decide) enough (by decide) (by omega)).weaken fun _ same => same.2
  | tuck =>
    refine stacktop_bind small (by omega) fun vch short => ?_
    exact insertTop_safe small short enough
  | size =>
    exact stacktop_bind small enough fun vch _ => small.cons (serialize_length _)
  | equal | equalVerify => exact equalTop_safe small
  | unary op =>
    refine (scriptNum_safe small (by decide) enough).bind fun bn operand => ?_
    refine (op.apply_safe operand).bind fun bn _ => ?_
    exact (popstack_safe small enough).bind fun rest left => left.2.cons (serialize_length bn)
  | binary op => exact binaryOp_safe small
  | within =>
    refine (scriptNum_safe small (by decide) enough).bind fun _ _ => ?_
    refine (scriptNum_safe small (by decide) (by omega)).bind fun _ _ => ?_
    refine (scriptNum_safe small (by decide) (by omega)).bind fun _ _ => ?_
    refine (popstack_safe small enough).bind fun rest left => ?_
    refine (popstack_safe left.2 left.1).bind fun rest left => ?_
    refine (popstack_safe left.2 left.1).bind fun rest left => ?_
    exact left.2.cons (vchOfBool_length)
  | hash op =>
    refine stacktop_bind small enough fun vch _ => ?_
    exact (popstack_safe small enough).bind fun rest left => left.2.cons (op.apply_length vch)

theorem sigEncoding_safe :
    Safe (fun _ => True) (checkSignatureEncoding crypto flags vchSig) := by
  refine onlyIf_safe fun _ => errorIf_bind fun _ => ?_
  refine bind (onlyIf_safe fun _ => ?_) fun _ _ => (errorIf_safe).weaken fun _ _ => trivial
  exact errorIf_bind fun _ => (errorIf_safe).weaken fun _ _ => trivial

theorem pubKeyEncoding_safe :
    Safe (fun _ => True) (checkPubKeyEncoding flags sigversion vchPubKey) :=
  errorIf_bind fun _ => (errorIf_safe).weaken fun _ _ => trivial

theorem multiSigs_safe (small : Small stack) (above : 1 ≤ isig)
    (within : isig + nSigsCount ≤ stack.length + 1) :
    Safe (fun _ => True) (multiSigs stack isig nSigsCount) := by
  induction nSigsCount generalizing isig with
  | zero => trivial
  | succ nSigsCount ih =>
    refine (stacktop_safe small above (by omega)).bind fun _ _ => ?_
    exact (ih (by omega) (by omega)).bind fun _ _ => trivial

private theorem multiSigLoop_safe (small : Small stack) (scriptCode : CScript)
    (keys : nSigsCount ≤ nKeysCount) (firstKey : 1 ≤ ikey)
    (lastKey : ikey + nKeysCount ≤ stack.length + 1) (firstSig : 1 ≤ isig)
    (lastSig : isig + nSigsCount ≤ stack.length + 1) :
    Safe (fun _ => True)
      (multiSigLoop ctx flags stack scriptCode nKeysCount nSigsCount ikey isig) := by
  induction nKeysCount generalizing nSigsCount ikey isig with
  | zero =>
    obtain rfl : nSigsCount = 0 := by omega
    trivial
  | succ nKeysCount ih =>
    cases nSigsCount with
    | zero => trivial
    | succ nSigsCount =>
      rw [multiSigLoop]
      refine (stacktop_safe small firstSig (by omega)).bind fun vchSig _ => ?_
      refine (stacktop_safe small firstKey (by omega)).bind fun vchPubKey _ => ?_
      refine (sigEncoding_safe).bind fun _ _ => ?_
      refine (pubKeyEncoding_safe).bind fun _ _ => ?_
      cases ctx.checker.checkSig vchSig vchPubKey scriptCode ctx.sigversion with
      | false =>
        simp only [Bool.false_eq_true, if_false]
        split_ifs with more
        · trivial
        · exact ih (by omega) (by omega) (by omega) firstSig lastSig
      | true =>
        simp only [if_true]
        split_ifs with more
        · trivial
        · exact ih (by omega) (by omega) (by omega) (by omega) (by omega)

theorem multiSigCleanUp_safe (fSuccess : Bool) (small : Small stack)
    (enough : n + turns ≤ stack.length) :
    Safe (fun rest => n ≤ rest.length ∧ Small rest)
      (multiSigCleanUp flags fSuccess turns ikey2 stack) := by
  induction turns generalizing ikey2 stack with
  | zero => exact ⟨enough, small⟩
  | succ turns ih =>
    refine bind (onlyIf_safe fun _ => ?_) fun _ _ => ?_
    · refine stacktop_bind small (by omega) fun _ _ => ?_
      exact (errorIf_safe).weaken fun _ _ => trivial
    · refine (popstack_safe small (by omega)).bind fun rest left => ?_
      exact ih left.2 left.1

end Opcodes

/-! ### Runs of the interpreter -/

structure EvalState.Sized (s : EvalState) : Prop where
  stack : Small s.stack
  altstack : Small s.altstack
  ops : s.nOpCount ≤ MAX_OPS_PER_SCRIPT

structure EvalState.Bounded (s : EvalState) : Prop extends s.Sized where
  few : s.stack.length + s.altstack.length ≤ 1000

section Runs
variable {ctx : EvalContext} {flags : Flags} {s : EvalState}

/-- Sized, and no further in the script than `s`. -/
def Continues (s s' : EvalState) : Prop := s'.Sized ∧ s'.pc = s.pc

theorem opIf_safe (sized : s.Sized) : Safe (Continues s) (opIf ctx flags fExec isNot s) := by
  unfold opIf
  split_ifs
  · refine errorIf_bind fun enough => ?_
    have one := not_lt.1 (of_decide_eq_false enough)
    refine stacktop_bind sized.stack one fun _ _ => ?_
    refine bind (onlyIf_safe fun _ => ?_) fun _ _ => ?_
    · exact errorIf_bind fun _ => (errorIf_safe).weaken fun _ _ => trivial
    · exact (popstack_safe sized.stack one).bind fun _ left =>
        ⟨⟨left.2, sized.altstack, sized.ops⟩, rfl⟩
  · exact ⟨⟨sized.stack, sized.altstack, sized.ops⟩, rfl⟩

theorem checkSigOp_safe {verify : Bool} (sized : s.Sized) :
    Safe (Continues s) (checkSigOp ctx flags verify s) := by
  refine need_bind fun enough => ?_
  refine stacktop_bind sized.stack enough fun _ _ => ?_
  refine stacktop_bind sized.stack (by omega) fun _ _ => ?_
  refine (sigEncoding_safe).bind fun _ _ => ?_
  refine (pubKeyEncoding_safe).bind fun _ _ => ?_
  refine errorIf_bind fun _ => ?_
  refine (popstack_safe sized.stack enough).bind fun rest left => ?_
  refine (popstack_safe left.2 left.1).bind fun rest left => ?_
  exact (pushAnswer_safe _ _ left.2).bind fun stack small =>
    ⟨⟨small, sized.altstack, sized.ops⟩, rfl⟩

theorem checkMultiSigOp_safe (verify : Bool) (sized : s.Sized) :
    Safe (Continues s) (checkMultiSigOp ctx flags verify s) := by
  refine need_bind fun enough => ?_
  refine (scriptNum_safe sized.stack (by decide) enough).bind fun _ _ => ?_
  refine errorIf_bind fun _ => ?_
  refine errorIf_bind fun ops => ?_
  refine need_bind fun enough => ?_
  refine (scriptNum_safe sized.stack (by omega) enough).bind fun _ _ => ?_
  refine errorIf_bind fun fewer => ?_
  refine need_bind fun enough => ?_
  simp only [Bool.or_eq_false_iff, decide_eq_false_iff_not] at fewer
  refine (multiSigs_safe sized.stack (by omega) (by omega)).bind fun _ _ => ?_
  refine (multiSigLoop_safe sized.stack _ (by omega) (by decide) (by omega) (by omega)
    (by omega)).bind fun fSuccess _ => ?_
  refine (multiSigCleanUp_safe fSuccess (n := 1) sized.stack (by omega)).bind fun rest left => ?_
  refine need_bind fun enough => ?_
  refine bind (onlyIf_safe fun _ => ?_) fun _ _ => ?_
  · refine stacktop_bind left.2 enough fun _ _ => ?_
    exact (errorIf_safe).weaken fun _ _ => trivial
  refine (popstack_safe left.2 enough).bind fun rest left => ?_
  exact (pushAnswer_safe _ _ left.2).bind fun stack small =>
    ⟨⟨small, sized.altstack, not_lt.1 (of_decide_eq_false ops)⟩, rfl⟩

theorem exec_safe {fExec : Bool} {instr : Instr} (sized : s.Sized) :
    Safe (Continues s) (exec ctx flags fExec s instr) := by
  cases instr with
  | stack op =>
    exact (stackOp_safe op sized.stack).bind fun stack small =>
      ⟨⟨small, sized.altstack, sized.ops⟩, rfl⟩
  | if_ | notIf => exact opIf_safe sized
  | else_ | endIf => exact errorIf_bind fun _ => ⟨⟨sized.stack, sized.altstack, sized.ops⟩, rfl⟩
  | toAltStack =>
    refine need_bind fun enough => ?_
    refine stacktop_bind sized.stack enough fun vch short => ?_
    exact (popstack_safe sized.stack enough).bind fun rest left =>
      ⟨⟨left.2, sized.altstack.cons short, sized.ops⟩, rfl⟩
  | fromAltStack =>
    refine errorIf_bind fun enough => ?_
    have one := not_lt.1 (of_decide_eq_false enough)
    refine stacktop_bind sized.altstack one fun vch short => ?_
    exact (popstack_safe sized.altstack one).bind fun rest left =>
      ⟨⟨sized.stack.cons short, left.2, sized.ops⟩, rfl⟩
  | codeSeparator => exact ⟨⟨sized.stack, sized.altstack, sized.ops⟩, rfl⟩
  | checkSig | checkSigVerify => exact checkSigOp_safe sized
  | checkMultiSig => exact checkMultiSigOp_safe false sized
  | checkMultiSigVerify => exact checkMultiSigOp_safe true sized
  | invalid => trivial

theorem readOp_safe (pc : CScript) : Safe (fun op => op.2.2.length < pc.length) (readOp pc) := by
  unfold readOp
  cases read : pc.getOp with
  | none => trivial
  | some op => exact CScript.getOp_length read

theorem execOp_safe (opcode : UInt8)
    (short : vchPushValue.length ≤ MAX_SCRIPT_ELEMENT_SIZE) (sized : s.Sized) :
    Safe (Continues s) (execOp ctx flags fExec opcode vchPushValue s) := by
  unfold execOp
  split_ifs
  · exact errorIf_bind fun _ =>
      ⟨⟨sized.stack.cons short, sized.altstack, sized.ops⟩, rfl⟩
  · exact exec_safe sized
  · exact ⟨sized, rfl⟩

private theorem evalStep_safe (sized : s.Sized) :
    Safe (fun s' => s'.Bounded ∧ s'.pc.length < s.pc.length) (evalStep ctx flags s) := by
  refine (readOp_safe s.pc).bind fun ⟨opcode, vchPushValue, pc⟩ shorter => ?_
  refine errorIf_bind fun short => ?_
  refine errorIf_bind fun ops => ?_
  refine errorIf_bind fun _ => ?_
  have counted : (if opcode > OP_16 then s.nOpCount + 1 else s.nOpCount) ≤ MAX_OPS_PER_SCRIPT := by
    split_ifs at ops ⊢ with counts
    · simpa [counts] using ops
    · exact sized.ops
  have started : ({ s with pc := pc, nOpCount := _ } : EvalState).Sized :=
    ⟨sized.stack, sized.altstack, counted⟩
  refine (execOp_safe opcode (not_lt.1 (of_decide_eq_false short)) started).bind
    fun s' ends => ?_
  refine errorIf_bind fun few => ?_
  exact ⟨⟨ends.1, not_lt.1 (of_decide_eq_false few)⟩, ends.2 ▸ shorter⟩

theorem evalLoop_safe (sized : s.Sized) (enough : s.pc.length ≤ turns) :
    Safe EvalState.Sized (evalLoop ctx flags turns s) := by
  induction turns generalizing s with
  | zero =>
    rw [evalLoop, if_pos (length_eq_zero_iff.1 (le_zero.1 enough))]
    exact sized
  | succ turns ih =>
    rw [evalLoop]
    split_ifs
    · exact sized
    · exact (evalStep_safe sized).bind fun _ step => ih step.1.toSized (by omega)

theorem EvalState.Sized.new (script : CScript) (small : Small stack) : (new script stack).Sized :=
  ⟨small, fun _ mem => absurd mem (by simp [EvalState.new]), zero_le _⟩

private theorem evalScript_safe (small : Small stack) : Safe Small (evalScript ctx flags script stack) := by
  have loop : Safe EvalState.Sized (evalLoop ctx flags script.length (.new script stack)) :=
    evalLoop_safe (.new script small) (le_refl _)
  refine errorIf_bind fun _ => ?_
  refine (loop.mapError ?_).bind fun _ sized => ?_
  · intro halt reported
    cases halt with
    | error _ | scriptnum _ | outOfRange | stackEmpty => trivial
    | assertion | running => exact reported
  · exact errorIf_bind fun _ => sized.stack

private theorem evalScript_payToScriptHash (pays : script.isPayToScriptHash) :
    Ends Halt.Reported (fun _ => False) (evalScript ctx flags script []) := by
  simp only [CScript.isPayToScriptHash, Bool.and_eq_true, decide_eq_true_eq] at pays
  obtain ⟨⟨⟨-, first⟩, -⟩, -⟩ := pays
  cases script with
  | nil => exact absurd first (by decide)
  | cons _ rest =>
    obtain rfl := first
    refine errorIf_bind fun _ => ?_
    trivial

end Runs

/-! ### Verification -/

/-- What `VerifyScript` asserts about its flags. -/
structure Flags.Coherent (flags : Flags) : Prop where
  cleanStack : flags.has .cleanStack = true → flags.has .p2sh = true ∧ flags.has .witness = true
  witness : flags.has .witness = true → flags.has .p2sh = true

theorem CScript.isWitnessProgram_safe (script : CScript) :
    Safe (fun _ => True) script.isWitnessProgram := by
  unfold isWitnessProgram
  split_ifs with size version fits
  · trivial
  · trivial
  · refine bind (Q := fun _ => True) ?_ fun _ _ => trivial
    unfold decodeOpN
    split_ifs with zero
    · trivial
    refine (assert_safe ?_).bind fun _ _ => trivial
    simp only [ne_eq, zero, not_false_eq_true, decide_true, Bool.true_and, Bool.or_eq_true,
      decide_eq_true_eq, not_or, UInt8.not_lt, gt_iff_lt] at version
    exact Bool.and_eq_true_iff.2 ⟨decide_eq_true version.1, decide_eq_true version.2⟩
  · trivial

section Verification
variable {flags : Flags}

theorem witnessProgram_safe : Safe (fun _ => True)
      (verifyWitnessProgram crypto checker flags witness witversion program) := by
  unfold verifyWitnessProgram
  split_ifs
  · refine bind (Q := fun _ => True) ?_ fun ⟨scriptPubKey, stack⟩ _ => ?_
    · unfold witnessScript
      split_ifs
      · exact errorIf_bind fun _ => errorIf_bind fun _ => trivial
      · exact errorIf_bind fun _ => trivial
      · trivial
    refine errorIf_bind fun short => ?_
    have small : Small stack := fun vch mem => by simpa using any_eq_false.1 short vch mem
    refine (evalScript_safe small).bind fun stack _ => ?_
    exact errorIf_bind fun _ => (errorIf_safe).weaken fun _ _ => trivial
  · exact (errorIf_safe).weaken fun _ _ => trivial

theorem verifyWitness_safe : Safe (fun _ => True)
      (verifyWitness crypto checker flags witness script malleated serror stack) := by
  unfold verifyWitness
  split_ifs
  · refine script.isWitnessProgram_safe.bind fun found _ => ?_
    cases found with
    | none => trivial
    | some _ =>
      refine errorIf_bind fun _ => ?_
      exact (witnessProgram_safe).bind fun _ _ => trivial
  · trivial

theorem verifyP2SH_safe (small : Small stackCopy) (filled : stackCopy ≠ []) :
    Safe (fun _ => True) (verifyP2SH crypto checker flags scriptSig witness stackCopy) := by
  refine errorIf_bind fun _ => ?_
  refine (assert_safe (decide_eq_true filled)).bind fun _ _ => ?_
  refine (popstack_safe small (length_pos_iff.2 filled)).bind fun _ left => ?_
  refine (evalScript_safe left.2).bind fun _ _ => ?_
  refine errorIf_bind fun _ => errorIf_bind fun _ => ?_
  exact verifyWitness_safe

theorem verifyEnd_safe (coherent : flags.Coherent) (witness : List Valtype) (hadWitness : Bool)
    (stack : List Valtype) : Safe (fun _ => True) (verifyEnd flags witness hadWitness stack) := by
  refine bind (onlyIf_safe fun clean => ?_) fun _ _ => onlyIf_safe fun segwit => ?_
  · refine (assert_safe (coherent.cleanStack clean).1).bind fun _ _ => ?_
    refine (assert_safe (coherent.cleanStack clean).2).bind fun _ _ => ?_
    exact (errorIf_safe).weaken fun _ _ => trivial
  · refine (assert_safe (coherent.witness segwit)).bind fun _ _ => ?_
    exact (errorIf_safe).weaken fun _ _ => trivial

theorem verifyScript_safe (coherent : flags.Coherent) (scriptSig scriptPubKey : CScript)
    (witness : List Valtype) :
    Safe (fun _ => True) (verifyScript crypto checker flags scriptSig scriptPubKey witness) := by
  refine errorIf_bind fun _ => ?_
  refine (evalScript_safe (fun _ mem => absurd mem (by simp))).bind
    fun stackCopy small => ?_
  by_cases pays : scriptPubKey.isPayToScriptHash ∧ stackCopy = []
  · obtain ⟨pays, rfl⟩ := pays
    exact (evalScript_payToScriptHash pays).bind fun _ never => never.elim
  refine (evalScript_safe small).bind fun stack _ => ?_
  refine errorIf_bind fun _ => errorIf_bind fun _ => ?_
  refine (verifyWitness_safe).bind fun ⟨bare, stack⟩ _ => ?_
  split_ifs with p2sh
  · have filled : stackCopy ≠ [] := fun empty => pays ⟨(Bool.and_eq_true_iff.1 p2sh).2, empty⟩
    refine (verifyP2SH_safe small filled).bind fun ⟨inner, stack⟩ _ => ?_
    exact verifyEnd_safe coherent _ _ _
  · exact verifyEnd_safe coherent _ _ _

end Verification

/-- The states between two opcodes of a script, and how many opcodes came before. -/
inductive Between (ctx : EvalContext) (flags : Flags) (script : CScript) (stack : List Valtype) :
    ℕ → EvalState → Prop where
  | start : Between ctx flags script stack 0 (.new script stack)
  | next {n : ℕ} {s s' : EvalState} (before : Between ctx flags script stack n s)
      (more : s.pc ≠ []) (step : evalStep ctx flags s = .ok s') :
      Between ctx flags script stack (n + 1) s'

theorem Between.bounded (few : stack.length ≤ 1000)
    (small : Small stack) (between : Between ctx flags script stack n s) :
    s.Bounded ∧ n + s.pc.length ≤ script.length := by
  induction between with
  | start => exact ⟨⟨.new script small, by simpa [new] using few⟩, by simp [new]⟩
  | next _ _ step ih =>
    obtain ⟨bounded, _⟩ := (evalStep_safe ih.1.toSized).of_ok step
    exact ⟨bounded, by omega⟩

/-- A script stays within its limits and ends: between two opcodes the stacks hold at most 1000
elements of at most 520 bytes, and at most 201 operations have been counted; no more opcodes are
run than the script has bytes; no opcode reads past the stack; and neither `EvalScript` nor, with
flags that keep to its assertions, `VerifyScript` fails an assertion. -/
theorem script_limits (ctx : EvalContext) (flags : Flags) (script : CScript)
    (stack : List Valtype) (few : stack.length ≤ 1000)
    (small : ∀ vch ∈ stack, vch.length ≤ 520) :
    (∀ n s, Between ctx flags script stack n s → s.stack.length + s.altstack.length ≤ 1000 ∧
      (∀ vch ∈ s.stack ++ s.altstack, vch.length ≤ 520) ∧ s.nOpCount ≤ 201 ∧
      n ≤ script.length ∧ ∀ halt, evalStep ctx flags s = .error halt → halt.Reported) ∧
    (∀ halt, evalScript ctx flags script stack = .error halt → halt.Reported) ∧
    ∀ scriptSig scriptPubKey witness halt, flags.Coherent →
      verifyScript ctx.crypto ctx.checker flags scriptSig scriptPubKey witness = .error halt →
      halt.Reported := by
  refine ⟨fun n s between => ?_, fun halt ends => (evalScript_safe small).of_error ends,
    fun scriptSig scriptPubKey witness halt coherent ends =>
      (verifyScript_safe coherent scriptSig scriptPubKey witness).of_error ends⟩
  obtain ⟨bounded, _⟩ := between.bounded few small
  refine ⟨bounded.few, fun vch member => ?_, bounded.ops, by omega,
    fun halt ends => (evalStep_safe bounded.toSized).of_error ends⟩
  obtain inStack | inAltstack := mem_append.1 member
  · exact bounded.stack vch inStack
  · exact bounded.altstack vch inAltstack

def zeroCrypto : ScriptCrypto where
  ripemd160 := fun _ => replicate 20 0
  sha1 := fun _ => replicate 20 0
  sha256 := fun _ => replicate 32 0
  checkLowS := fun _ => false
  ripemd160_length := fun _ => length_replicate
  sha1_length := fun _ => length_replicate
  sha256_length := fun _ => length_replicate

def noChecker : BaseSignatureChecker where
  checkSig := fun _ _ _ _ => false
  checkLockTime := fun _ => false
  checkSequence := fun _ => false

/-- `OP_DUP OP_IF OP_TOALTSTACK OP_ENDIF`. -/
def altScript : CScript := [0x76, 0x63, 0x6b, 0x68]

/-- On one element: after three opcodes it is on the other stack. -/
theorem script_limits_altScript :
    ∃ s, Between ⟨zeroCrypto, noChecker, .base⟩ 0 altScript [[7]] 3 s ∧
      s.altstack = [[7]] ∧ s.stack.length + s.altstack.length ≤ 1000 ∧ s.nOpCount ≤ 201 := by
  have one : Between ⟨zeroCrypto, noChecker, .base⟩ 0 altScript [[7]] 1
      ⟨[0x63, 0x6b, 0x68], altScript, [], [[7], [7]], [], 1⟩ := .next .start (by decide) rfl
  have two : Between ⟨zeroCrypto, noChecker, .base⟩ 0 altScript [[7]] 2
      ⟨[0x6b, 0x68], altScript, [true], [[7]], [], 2⟩ := .next one (by decide) rfl
  have three : Between ⟨zeroCrypto, noChecker, .base⟩ 0 altScript [[7]] 3
      ⟨[0x68], altScript, [true], [], [[7]], 3⟩ := .next two (by decide) rfl
  obtain ⟨few, -, ops, -, -⟩ :=
    (script_limits ⟨zeroCrypto, noChecker, .base⟩ 0 altScript [[7]] (by decide) (by decide)).1 3 _
      three
  exact ⟨_, three, rfl, few, ops⟩

end DogecoinCore
