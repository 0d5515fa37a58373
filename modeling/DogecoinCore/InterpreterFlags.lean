import DogecoinCore.InterpreterBounds

/-! Flags only tighten: what verifies under some flags verifies under fewer of them. Two runs of the
interpreter that start alike are followed side by side. Under fewer flags every opcode makes fewer
checks and does the same otherwise, except that `OP_CHECKLOCKTIMEVERIFY` and
`OP_CHECKSEQUENCEVERIFY` become `NOP`s, which may be discouraged. -/
namespace DogecoinCore
open Bool Fallible

/-- `more` has every flag of `fewer`; where `fewer` discourages upgradable `NOP`s both agree on
which opcodes are still `NOP`s. -/
structure Flags.Tightens (more fewer : Flags) : Prop where
  contains : ∀ flag, fewer.has flag = true → more.has flag = true
  nops : fewer.has .discourageUpgradableNops = true →
    fewer.has .checkLockTimeVerify = more.has .checkLockTimeVerify ∧
    fewer.has .checkSequenceVerify = more.has .checkSequenceVerify

section Checks
variable {more fewer : Flags}

theorem errorIf_implies (less : bad' = true → bad = true) :
    Implies (errorIf bad serror) (errorIf bad' serror') := by
  cases bad with
  | true => exact .error _ _
  | false =>
    obtain rfl : bad' = false := by simpa using less
    exact .refl _

theorem errorIf_flag_implies (tightens : more.Tightens fewer) (flag : VerifyFlag) (bad : Bool) :
    Implies (errorIf (more.has flag && bad) serror) (errorIf (fewer.has flag && bad) serror) :=
  errorIf_implies fun both =>
    have ⟨has, holds⟩ := and_eq_true_iff.1 both
    and_eq_true_iff.2 ⟨tightens.contains flag has, holds⟩

theorem onlyIf_implies (less : c' = true → c = true)
    (implies : Implies checks checks') : Implies (onlyIf c checks) (onlyIf c' checks') := by
  cases c' with
  | true =>
    rw [less rfl]
    exact implies
  | false =>
    intro _ _
    rfl

end Checks

section Opcodes
variable {more fewer : Flags} {stack : List Valtype}

theorem ofVch_implies (tightens : more.Tightens fewer) (vch : Valtype) (nMaxNumSize : ℕ) :
    Implies (CScriptNum.ofVch vch (more.has .minimalData) nMaxNumSize)
      (CScriptNum.ofVch vch (fewer.has .minimalData) nMaxNumSize) := by
  cases minimal : fewer.has .minimalData with
  | true =>
    rw [tightens.contains _ minimal]
    exact .refl _
  | false =>
    intro _ is
    unfold CScriptNum.ofVch at is ⊢
    by_cases long : vch.length > nMaxNumSize
    · rw [if_pos long] at is
      cases is
    rw [if_neg long] at is ⊢
    split_ifs at is
    rw [if_neg (by simp)]
    exact is

theorem scriptNum_implies (tightens : more.Tightens fewer) (i : ℕ) :
    Implies (scriptNum more stack i) (scriptNum fewer stack i) :=
  .after fun vch => ofVch_implies tightens vch 4

theorem checkLock_same (is : checkLock flags enabled satisfied stack = .ok left) :
    left = stack := by
  unfold checkLock at is
  split_ifs at is
  · obtain ⟨_, -, is⟩ := bind_eq_ok.1 is
    obtain ⟨_, -, is⟩ := bind_eq_ok.1 is
    obtain ⟨_, -, is⟩ := bind_eq_ok.1 is
    obtain ⟨_, -, is⟩ := bind_eq_ok.1 is
    obtain ⟨_, -, is⟩ := bind_eq_ok.1 is
    exact (Except.ok.inj is).symm
  · obtain ⟨_, -, is⟩ := bind_eq_ok.1 is
    exact (Except.ok.inj is).symm

section
variable (tightens : more.Tightens fewer)
include tightens

theorem checkLock_implies
    (nop : fewer.has .discourageUpgradableNops → fewer.has enabled = more.has enabled)
    (satisfied : ℤ → Bool) :
    Implies (checkLock more enabled satisfied stack) (checkLock fewer enabled satisfied stack) := by
  by_cases kept : fewer.has enabled
  · unfold checkLock
    rw [if_pos kept, if_pos (tightens.contains _ kept)]
    exact .after fun _ => .after fun vch => (ofVch_implies tightens vch 5).bind fun _ => .refl _
  cases discouraged : fewer.has .discourageUpgradableNops with
  | true =>
    -- both take the opcode for a `NOP`, and both discourage it
    have off : ¬ more.has enabled := by rwa [← nop discouraged]
    unfold checkLock
    rw [if_neg kept, if_neg off, discouraged, tightens.contains _ discouraged]
    exact .refl _
  | false =>
    intro _ is
    obtain rfl := checkLock_same is
    unfold checkLock
    rw [if_neg kept, discouraged]
    rfl

theorem pickOrRoll_implies (isRoll : Bool) :
    Implies (pickOrRoll more isRoll stack) (pickOrRoll fewer isRoll stack) :=
  .after fun _ => (scriptNum_implies tightens 1).bind fun _ => .refl _

theorem binaryOp_implies (op : BinaryOp) :
    Implies (binaryOp more op stack) (binaryOp fewer op stack) :=
  .after fun _ => (scriptNum_implies tightens 2).bind fun _ =>
    (scriptNum_implies tightens 1).bind fun _ => .refl _

theorem stackOp_implies (op : StackOp) :
    Implies (stackOp ctx more stack op) (stackOp ctx fewer stack op) := by
  cases op with
  | checkLockTimeVerify => exact checkLock_implies tightens (fun on => (tightens.nops on).1) _
  | checkSequenceVerify => exact checkLock_implies tightens (fun on => (tightens.nops on).2) _
  | upgradableNop =>
    exact (errorIf_implies (tightens.contains .discourageUpgradableNops)).bind fun _ => .refl _
  | pick => exact pickOrRoll_implies tightens false
  | roll => exact pickOrRoll_implies tightens true
  | unary op => exact .after fun _ => (scriptNum_implies tightens 1).bind fun _ => .refl _
  | binary op => exact binaryOp_implies tightens op
  | within =>
    exact .after fun _ => (scriptNum_implies tightens 3).bind fun _ =>
      (scriptNum_implies tightens 2).bind fun _ =>
        (scriptNum_implies tightens 1).bind fun _ => .refl _
  | pushInt | nop | verify | «return» | drop2 | dup2 | dup3 | over2 | rot2 | swap2 | ifDup | depth
    | drop | dup | nip | over_ | rot | swap | tuck | size | equal | equalVerify | hash =>
    exact .refl _

theorem sigEncoding_implies (crypto : ScriptCrypto) (vchSig : Valtype) :
    Implies (checkSignatureEncoding crypto more vchSig)
      (checkSignatureEncoding crypto fewer vchSig) := by
  refine onlyIf_implies id (Implies.bind (errorIf_implies fun bad => ?_) fun _ =>
    (onlyIf_implies (tightens.contains _) (.refl _)).bind fun _ =>
      errorIf_flag_implies tightens _ _)
  simp only [and_eq_true, or_eq_true] at bad ⊢
  exact ⟨bad.1.imp (Or.imp (tightens.contains _) (tightens.contains _)) (tightens.contains _),
    bad.2⟩

theorem pubKeyEncoding_implies (sigversion : SigVersion) (vchPubKey : Valtype) :
    Implies (checkPubKeyEncoding more sigversion vchPubKey)
      (checkPubKeyEncoding fewer sigversion vchPubKey) := by
  refine (errorIf_flag_implies tightens _ _).bind fun _ => errorIf_implies fun bad => ?_
  simp only [and_eq_true] at bad ⊢
  exact ⟨⟨tightens.contains _ bad.1.1, bad.1.2⟩, bad.2⟩

theorem multiSigLoop_implies (scriptCode : CScript) (nKeysCount nSigsCount ikey isig : ℕ) :
    Implies (multiSigLoop ctx more stack scriptCode nKeysCount nSigsCount ikey isig)
      (multiSigLoop ctx fewer stack scriptCode nKeysCount nSigsCount ikey isig) := by
  induction nKeysCount generalizing nSigsCount ikey isig with
  | zero => cases nSigsCount <;> exact .refl _
  | succ nKeysCount ih =>
    cases nSigsCount with
    | zero => exact .refl _
    | succ nSigsCount =>
      refine .after fun _ => .after fun _ => ?_
      refine (sigEncoding_implies tightens _ _).bind fun _ => ?_
      refine (pubKeyEncoding_implies tightens _ _).bind fun _ => ?_
      dsimp only
      split_ifs
      all_goals first | exact .refl _ | exact ih _ _ _

theorem multiSigCleanUp_implies (fSuccess : Bool) (turns ikey2 : ℕ) :
    Implies (multiSigCleanUp more fSuccess turns ikey2 stack)
      (multiSigCleanUp fewer fSuccess turns ikey2 stack) := by
  induction turns generalizing ikey2 stack with
  | zero => exact .refl _
  | succ turns ih =>
    refine (onlyIf_implies (fun on => ?_) (.refl _)).bind fun _ => .after fun _ => ih _
    simp only [and_eq_true] at on ⊢
    exact ⟨⟨on.1.1, tightens.contains _ on.1.2⟩, on.2⟩

end

end Opcodes

section Runs
variable {more fewer : Flags}

section
variable (tightens : more.Tightens fewer)
include tightens

theorem opIf_implies (fExec isNot : Bool) :
    Implies (opIf ctx more fExec isNot s) (opIf ctx fewer fExec isNot s) := by
  unfold opIf
  split_ifs
  · refine .after fun _ => .after fun _ => ?_
    refine (onlyIf_implies (fun on => ?_) (.refl _)).bind fun _ => .refl _
    obtain ⟨version, on⟩ := and_eq_true_iff.1 on
    exact and_eq_true_iff.2 ⟨version, tightens.contains _ on⟩
  · exact .refl _

theorem checkSigOp_implies (verify : Bool) :
    Implies (checkSigOp ctx more verify s) (checkSigOp ctx fewer verify s) := by
  refine .after fun _ => .after fun _ => .after fun _ => ?_
  refine (sigEncoding_implies tightens _ _).bind fun _ => ?_
  refine (pubKeyEncoding_implies tightens _ _).bind fun _ => ?_
  refine (errorIf_implies fun bad => ?_).bind fun _ => .refl _
  simp only [and_eq_true] at bad ⊢
  exact ⟨⟨bad.1.1, tightens.contains _ bad.1.2⟩, bad.2⟩

theorem checkMultiSigOp_implies (verify : Bool) :
    Implies (checkMultiSigOp ctx more verify s) (checkMultiSigOp ctx fewer verify s) := by
  refine .after fun _ => (scriptNum_implies tightens _).bind fun _ => ?_
  refine .after fun _ => .after fun _ => .after fun _ => ?_
  refine (scriptNum_implies tightens _).bind fun _ => ?_
  refine .after fun _ => .after fun _ => .after fun _ => ?_
  refine (multiSigLoop_implies tightens _ _ _ _ _).bind fun _ => ?_
  refine (multiSigCleanUp_implies tightens _ _ _).bind fun _ => ?_
  exact .after fun _ => (onlyIf_implies (tightens.contains _) (.refl _)).bind fun _ => .refl _

theorem exec_implies (fExec : Bool) (instr : Instr) :
    Implies (exec ctx more fExec s instr) (exec ctx fewer fExec s instr) := by
  cases instr with
  | stack op => exact (stackOp_implies tightens op).bind fun _ => .refl _
  | if_ => exact opIf_implies tightens fExec false
  | notIf => exact opIf_implies tightens fExec true
  | checkSig => exact checkSigOp_implies tightens false
  | checkSigVerify => exact checkSigOp_implies tightens true
  | checkMultiSig => exact checkMultiSigOp_implies tightens false
  | checkMultiSigVerify => exact checkMultiSigOp_implies tightens true
  | else_ | endIf | toAltStack | fromAltStack | codeSeparator | invalid => exact .refl _

theorem execOp_implies (fExec : Bool) (opcode : UInt8) (vchPushValue : Valtype) :
    Implies (execOp ctx more fExec opcode vchPushValue s)
      (execOp ctx fewer fExec opcode vchPushValue s) := by
  unfold execOp
  split_ifs
  · exact (errorIf_flag_implies tightens _ _).bind fun _ => .refl _
  · exact exec_implies tightens _ _
  · exact .refl _

private theorem evalStep_implies : Implies (evalStep ctx more s) (evalStep ctx fewer s) := by
  refine .after fun ⟨opcode, vchPushValue, pc⟩ => ?_
  refine .after fun _ => .after fun _ => .after fun _ => ?_
  exact (execOp_implies tightens _ _ _).bind fun _ => .refl _

theorem evalLoop_implies (turns : ℕ) :
    Implies (evalLoop ctx more turns s) (evalLoop ctx fewer turns s) := by
  induction turns generalizing s with
  | zero => exact .refl _
  | succ turns ih =>
    rw [evalLoop, evalLoop]
    split_ifs
    · exact .refl _
    · exact (evalStep_implies tightens).bind fun _ => ih

theorem evalScript_implies (script : CScript) (stack : List Valtype) :
    Implies (evalScript ctx more script stack) (evalScript ctx fewer script stack) :=
  .after fun _ => (evalLoop_implies tightens _).mapError.bind fun _ => .refl _

end

end Runs

section Verification
variable {crypto : ScriptCrypto} {checker : BaseSignatureChecker} {more fewer : Flags}
  {witness : List Valtype}

theorem witnessProgram_implies (tightens : more.Tightens fewer) (witversion : ℕ)
    (program : Valtype) :
    Implies (verifyWitnessProgram crypto checker more witness witversion program)
      (verifyWitnessProgram crypto checker fewer witness witversion program) := by
  unfold verifyWitnessProgram
  split_ifs
  · refine .after fun ⟨scriptPubKey, stack⟩ => .after fun _ => ?_
    exact (evalScript_implies tightens _ _).bind fun _ => .refl _
  · exact errorIf_implies (tightens.contains _)

theorem verifyWitness_implies (tightens : more.Tightens fewer) (segwit : fewer.has .witness)
    (script : CScript) (malleated : Bool) (serror : ScriptError) (stack : List Valtype) :
    Implies (verifyWitness crypto checker more witness script malleated serror stack)
      (verifyWitness crypto checker fewer witness script malleated serror stack) := by
  unfold verifyWitness
  rw [if_pos segwit, if_pos (tightens.contains _ segwit)]
  refine .after fun found => ?_
  cases found with
  | none => exact .refl _
  | some _ =>
    exact .after fun _ => (witnessProgram_implies tightens _ _).bind fun _ => .refl _

theorem verifyWitness_off (off : fewer.has .witness = false) (script : CScript) (malleated : Bool)
    (serror : ScriptError) (stack : List Valtype) :
    verifyWitness crypto checker fewer witness script malleated serror stack =
      .ok (false, stack) := by
  rw [verifyWitness, off]
  rfl

section
variable (tightens : more.Tightens fewer)
include tightens

theorem verifyP2SH_implies (segwit : fewer.has .witness)
    (scriptSig : CScript) (stackCopy : List Valtype) :
    Implies (verifyP2SH crypto checker more scriptSig witness stackCopy)
      (verifyP2SH crypto checker fewer scriptSig witness stackCopy) := by
  refine .after fun _ => .after fun _ => .after fun _ => ?_
  refine (evalScript_implies tightens _ _).bind fun _ => ?_
  exact .after fun _ => .after fun _ => verifyWitness_implies tightens segwit _ _ _ _

private theorem verifyP2SH_off (off : fewer.has .witness = false)
    (ran : verifyP2SH crypto checker more scriptSig witness stackCopy = .ok left) :
    ∃ stack, verifyP2SH crypto checker fewer scriptSig witness stackCopy = .ok (false, stack) := by
  obtain ⟨_, pushes, ran⟩ := bind_eq_ok.1 ran
  obtain ⟨_, filled, ran⟩ := bind_eq_ok.1 ran
  obtain ⟨rest, popped, ran⟩ := bind_eq_ok.1 ran
  obtain ⟨stack, inner, ran⟩ := bind_eq_ok.1 ran
  obtain ⟨_, some_, ran⟩ := bind_eq_ok.1 ran
  obtain ⟨_, true_, ran⟩ := bind_eq_ok.1 ran
  refine ⟨stack, bind_eq_ok.2 ⟨_, pushes, bind_eq_ok.2 ⟨_, filled, bind_eq_ok.2
    ⟨rest, popped, bind_eq_ok.2 ⟨stack, evalScript_implies tightens _ _ _ inner, ?_⟩⟩⟩⟩⟩
  exact bind_eq_ok.2 ⟨_, some_, bind_eq_ok.2 ⟨_, true_, verifyWitness_off off _ _ _ _⟩⟩

theorem verifyEnd_implies (coherent : fewer.Coherent)
    (segwit : fewer.has .witness = true) (hadWitness : Bool) (stack : List Valtype) :
    Implies (verifyEnd more witness hadWitness stack)
      (verifyEnd fewer witness hadWitness stack) := by
  have p2sh := coherent.witness segwit
  unfold verifyEnd
  rw [segwit, p2sh, tightens.contains _ segwit, tightens.contains _ p2sh]
  exact (onlyIf_implies (tightens.contains _) (.refl _)).bind fun _ => .refl _

end

theorem verifyEnd_off (coherent : fewer.Coherent) (off : fewer.has .witness = false)
    (hadWitness : Bool) (stack : List Valtype) :
    verifyEnd fewer witness hadWitness stack = .ok () := by
  have unclean := eq_false_iff.2 fun clean => eq_false_iff.1 off (coherent.cleanStack clean).2
  rw [verifyEnd, unclean, off]
  rfl

/-- What verifies under some flags verifies under fewer, as long as the fewer flags keep to what
`VerifyScript` asserts of them and do not discourage what the others give a meaning. -/
theorem verifyScript_fewer_flags (crypto : ScriptCrypto) (checker : BaseSignatureChecker)
    (more fewer : Flags) (tightens : more.Tightens fewer) (coherent : fewer.Coherent)
    (scriptSig scriptPubKey : CScript) (witness : List Valtype)
    (verifies : verifyScript crypto checker more scriptSig scriptPubKey witness = .ok ()) :
    verifyScript crypto checker fewer scriptSig scriptPubKey witness = .ok () := by
  refine Implies.bind (errorIf_flag_implies tightens _ _) (fun _ =>
    (evalScript_implies tightens _ _).bind fun _ =>
      (evalScript_implies tightens _ _).bind fun stack =>
        .after fun _ => .after fun _ => ?_) () verifies
  cases segwit : fewer.has .witness with
  | true =>
    have p2sh := coherent.witness segwit
    refine (verifyWitness_implies tightens segwit _ _ _ _).bind fun ⟨bare, stack⟩ => ?_
    rw [p2sh, tightens.contains _ p2sh]
    split_ifs
    · exact (verifyP2SH_implies tightens segwit _ _).bind fun _ =>
        verifyEnd_implies tightens coherent segwit _ _
    · exact verifyEnd_implies tightens coherent segwit _ _
  | false =>
    intro _ runs
    obtain ⟨⟨bare, left⟩, -, runs⟩ := bind_eq_ok.1 runs
    refine bind_eq_ok.2 ⟨_, verifyWitness_off segwit _ _ _ _, ?_⟩
    dsimp only at runs ⊢
    split_ifs with inner
    · obtain ⟨p2sh, pays⟩ := and_eq_true_iff.1 inner
      rw [if_pos (and_eq_true_iff.2 ⟨tightens.contains _ p2sh, pays⟩)] at runs
      obtain ⟨_, ran, -⟩ := bind_eq_ok.1 runs
      obtain ⟨left, also⟩ := verifyP2SH_off tightens segwit ran
      exact bind_eq_ok.2 ⟨_, also, verifyEnd_off coherent segwit _ _⟩
    · exact verifyEnd_off coherent segwit _ _

end Verification

/-- `STANDARD_SCRIPT_VERIFY_FLAGS`: all but `SCRIPT_VERIFY_SIGPUSHONLY`. -/
def standardFlags : Flags := 0xffdf

/-- `MANDATORY_SCRIPT_VERIFY_FLAGS`: `SCRIPT_VERIFY_P2SH`. -/
def mandatoryFlags : Flags := 0x1

theorem standardFlags_tightens : standardFlags.Tightens mandatoryFlags where
  contains := by
    intro flag
    cases flag <;> decide
  nops := by decide

theorem mandatoryFlags_coherent : mandatoryFlags.Coherent := ⟨by decide, by decide⟩

/-- `OP_HASH160 <twenty zeros> OP_EQUAL`. -/
def zeroHashScript : CScript := [0xa9, 0x14] ++ List.replicate 20 0 ++ [0x87]

/-- The script `OP_1` behind its hash, spent by pushing it. -/
theorem verifyScript_fewer_flags_mandatory : zeroHashScript.isPayToScriptHash = true ∧
      verifyScript zeroCrypto noChecker standardFlags [0x01, 0x51] zeroHashScript [] = .ok () ∧
      verifyScript zeroCrypto noChecker mandatoryFlags [0x01, 0x51] zeroHashScript [] = .ok () := by
  have standard : verifyScript zeroCrypto noChecker standardFlags [0x01, 0x51] zeroHashScript [] =
      .ok () := by decide +kernel
  exact ⟨by decide, standard, verifyScript_fewer_flags zeroCrypto noChecker standardFlags
    mandatoryFlags standardFlags_tightens mandatoryFlags_coherent _ _ [] standard⟩

end DogecoinCore
