import Mathlib
import Hivemind.Script.MachineSpec

/-!
# Counting signature operations

`GetSigOpCount` looks at a script without running it, and still bounds the calls of `CheckSig` of
every run, also of one that fails: a run makes one call for each `OP_CHECKSIG`, and for an
`OP_CHECKMULTISIG` at most one for each key, whose number is on top of the stack.  Where the
number was pushed by the instruction before, the count knows it; otherwise it takes the limit,
which is 20.

The source counts in an `unsigned int`, and here the count is a natural number: each byte of a
script counts 20 at most, so that the two are the same for scripts below 214 million bytes, far
above what a message or a block can hold.

* `getSigOpCount_lt`: the count of such a script does not wrap.
* `instrCalls_le`: an instruction calls no more often than it counts.
* `performs_loop`: the loop of `EvalScript`, with the count as its bound.
* `runScript_spec`: `EvalScript`.
* `getSigOpCount_redeem`: a redeem script counts no more than the one that was counted.
-/

namespace Hivemind

open Codecs Machine

/-! ## What one instruction counts -/

/-- What `GetSigOpCount` adds for an instruction after `lastOpcode`. -/
def sigOpsOf (fAccurate : Bool) (lastOpcode opcode : UInt8) : Nat :=
  if opcode = opCheckSig ∨ opcode = opCheckSigVerify then 1
  else if opcode = opCheckMultiSig ∨ opcode = opCheckMultiSigVerify then
    if fAccurate && (op1 ≤ lastOpcode && lastOpcode ≤ op16) then decodeOpN lastOpcode else 20
  else 0

theorem sigOpCountAux_succ (fAccurate : Bool) (fuel : Nat) (lastOpcode : UInt8) {s : Bytes}
    {i : Instr} (h : getOp s = some i) :
    sigOpCountAux fAccurate (fuel + 1) lastOpcode s =
      sigOpsOf fAccurate lastOpcode i.opcode + sigOpCountAux fAccurate fuel i.opcode i.rest := by
  rw [sigOpCountAux, h]
  rfl

theorem decodeOpN_le {opcode : UInt8} (h : opcode ≤ op16) : decodeOpN opcode ≤ 16 := by
  have hle : opcode.toNat ≤ 0x60 := UInt8.le_iff_toNat_le.mp h
  unfold decodeOpN
  omega

/-- The accurate count is the smaller one. -/
theorem sigOpsOf_le (lastOpcode opcode : UInt8) :
    sigOpsOf true lastOpcode opcode ≤ sigOpsOf false lastOpcode opcode := by
  unfold sigOpsOf
  by_cases h : op1 ≤ lastOpcode ∧ lastOpcode ≤ op16
  · have hle := decodeOpN_le h.2
    have hlast : (op1 ≤ lastOpcode && lastOpcode ≤ op16) = true := by simpa using h
    simp only [hlast, Bool.true_and, Bool.false_and, Bool.false_eq_true, if_true, if_false]
    split_ifs <;> omega
  · have hlast : (op1 ≤ lastOpcode && lastOpcode ≤ op16) = false := by simpa using h
    simp only [hlast, Bool.true_and, Bool.false_and, Bool.false_eq_true, if_false]
    exact Nat.le_refl _

theorem sigOpCountAux_le (fuel : Nat) (lastOpcode : UInt8) (s : Bytes) :
    sigOpCountAux true fuel lastOpcode s ≤ sigOpCountAux false fuel lastOpcode s := by
  induction fuel generalizing lastOpcode s with
  | zero => exact Nat.le_refl 0
  | succ fuel ih =>
      cases hop : getOp s with
      | none => simp [sigOpCountAux, hop]
      | some i =>
          rw [sigOpCountAux_succ _ _ _ hop, sigOpCountAux_succ _ _ _ hop]
          exact Nat.add_le_add (sigOpsOf_le lastOpcode i.opcode) (ih i.opcode i.rest)

theorem getSigOpCount_le (s : CScript) : getSigOpCount true s ≤ getSigOpCount false s :=
  sigOpCountAux_le ..

theorem sigOpsOf_le_twenty (fAccurate : Bool) (lastOpcode opcode : UInt8) :
    sigOpsOf fAccurate lastOpcode opcode ≤ 20 := by
  have hinaccurate : sigOpsOf false lastOpcode opcode ≤ 20 := by
    unfold sigOpsOf
    simp only [Bool.false_and, Bool.false_eq_true, if_false]
    split_ifs <;> omega
  cases fAccurate with
  | false => exact hinaccurate
  | true => exact (sigOpsOf_le lastOpcode opcode).trans hinaccurate

theorem sigOpCountAux_le_length (fAccurate : Bool) (fuel : Nat) (lastOpcode : UInt8) (s : Bytes) :
    sigOpCountAux fAccurate fuel lastOpcode s ≤ 20 * s.length := by
  induction fuel generalizing lastOpcode s with
  | zero => exact Nat.zero_le _
  | succ fuel ih =>
      cases hop : getOp s with
      | none => simp [sigOpCountAux, hop]
      | some i =>
          have hone := sigOpsOf_le_twenty fAccurate lastOpcode i.opcode
          have hrest := ih i.opcode i.rest
          have hshorter := getOp_rest_lt hop
          rw [sigOpCountAux_succ _ _ _ hop]
          omega

/-- **No wrap**: the `unsigned int` of `GetSigOpCount` holds the count of any script that fits
into a block, a transaction or a stack element. -/
theorem getSigOpCount_lt (fAccurate : Bool) {s : CScript} (hs : s.length < 2 ^ 32 / 20) :
    getSigOpCount fAccurate s < 2 ^ 32 := by
  have hle := sigOpCountAux_le_length fAccurate s.length opInvalidOpcode s
  rw [getSigOpCount]
  omega

/-! ## What one instruction calls -/

section Calls

variable (cr : Crypto) (flags : ScriptFlags) (checker : SignatureChecker)

/-- After `OP_1` to `OP_16` in a taken branch, the number is on top of the stack. -/
def NumberOnTop (lastOpcode : UInt8) (st : EvalState) : Prop :=
  op1 ≤ lastOpcode → lastOpcode ≤ op16 → st.executing = true →
    ∃ s, st.stack = serializeNum (decodeOpN lastOpcode) :: s

theorem keysOnTop_le (st : EvalState) : keysOnTop flags st ≤ 20 := by
  unfold keysOnTop
  cases st.stack with
  | nil => exact Nat.zero_le _
  | cons top s =>
      dsimp only
      cases scriptNum (hasFlag flags scriptVerifyMinimalData) top with
      | error h => exact Nat.zero_le _
      | ok n =>
          dsimp only
          split_ifs with h
          · exact Nat.zero_le _
          · omega

/-- A number from 1 to 16 is read back as it was pushed. -/
theorem scriptNum_serializeNum {k : Nat} (hlo : 1 ≤ k) (hhi : k ≤ 16) (fRequireMinimal : Bool) :
    scriptNum fRequireMinimal (serializeNum k) = .ok (k : Int) := by
  interval_cases k <;> cases fRequireMinimal <;> rfl

theorem keysOnTop_number {k : Nat} (hlo : 1 ≤ k) (hhi : k ≤ 16) {st : EvalState} {s : List Bytes}
    (h : st.stack = serializeNum k :: s) : keysOnTop flags st = k := by
  have hint : getInt (k : Int) = k := by
    unfold getInt
    omega
  unfold keysOnTop
  rw [h]
  simp only [scriptNum_serializeNum hlo hhi, hint]
  rw [if_neg (by omega), Int.toNat_natCast]

theorem operation_checkSig {opcode : UInt8} {verify : Bool}
    (h : operation opcode = .checkSig verify) : opcode = opCheckSig ∨ opcode = opCheckSigVerify := by
  have hiff : (opcode = opCheckSig ↔ opcode.toNat = 0xac) ∧
      (opcode = opCheckSigVerify ↔ opcode.toNat = 0xad) :=
    ⟨UInt8.toNat_inj.symm, UInt8.toNat_inj.symm⟩
  rw [hiff.1, hiff.2]
  unfold operation at h
  split at h <;> rename_i hop <;> try split_ifs at h
  all_goals try simp only [reduceCtorEq] at h
  · exact Or.inl hop
  · exact Or.inr hop

theorem operation_checkMultiSig {opcode : UInt8} {verify : Bool}
    (h : operation opcode = .checkMultiSig verify) :
    opcode = opCheckMultiSig ∨ opcode = opCheckMultiSigVerify := by
  have hiff : (opcode = opCheckMultiSig ↔ opcode.toNat = 0xae) ∧
      (opcode = opCheckMultiSigVerify ↔ opcode.toNat = 0xaf) :=
    ⟨UInt8.toNat_inj.symm, UInt8.toNat_inj.symm⟩
  rw [hiff.1, hiff.2]
  unfold operation at h
  split at h <;> rename_i hop <;> try split_ifs at h
  all_goals try simp only [reduceCtorEq] at h
  · exact Or.inl hop
  · exact Or.inr hop

/-- **An instruction calls `CheckSig` no more often than it counts.** -/
theorem instrCalls_le {lastOpcode : UInt8} {st : EvalState} (h : NumberOnTop lastOpcode st)
    (i : Instr) : instrCalls flags st i ≤ sigOpsOf true lastOpcode i.opcode := by
  unfold instrCalls
  by_cases hexec : st.executing = true
  · rw [if_pos hexec]
    cases hop : operation i.opcode with
    | checkSig verify =>
        rw [sigOpsOf, if_pos (operation_checkSig hop)]
        exact Nat.le_refl 1
    | checkMultiSig verify =>
        have hmulti := operation_checkMultiSig hop
        have hnot : ¬ (i.opcode = opCheckSig ∨ i.opcode = opCheckSigVerify) := by
          rcases hmulti with heq | heq <;> rw [heq] <;> decide
        rw [sigOpsOf, if_neg hnot, if_pos hmulti]
        by_cases hlast : op1 ≤ lastOpcode ∧ lastOpcode ≤ op16
        · obtain ⟨s, hs⟩ := h hlast.1 hlast.2 hexec
          have hlo : 0x51 ≤ lastOpcode.toNat := UInt8.le_iff_toNat_le.mp hlast.1
          have hone : 1 ≤ decodeOpN lastOpcode := by
            unfold decodeOpN
            omega
          rw [if_pos (by simpa using hlast)]
          exact le_of_eq (keysOnTop_number flags hone (decodeOpN_le hlast.2) hs)
        · rw [if_neg (by simpa using hlast)]
          exact keysOnTop_le flags st
    | _ => exact Nat.zero_le _
  · rw [if_neg hexec]
    exact Nat.zero_le _

theorem operation_number {opcode : UInt8} (hlo : op1 ≤ opcode) (hhi : opcode ≤ op16) :
    operation opcode = .number (decodeOpN opcode) := by
  have hlo' : 0x51 ≤ opcode.toNat := UInt8.le_iff_toNat_le.mp hlo
  have hhi' : opcode.toNat ≤ 0x60 := UInt8.le_iff_toNat_le.mp hhi
  unfold operation decodeOpN
  generalize opcode.toNat = n at hlo' hhi'
  interval_cases n <;> rfl

/-- One pass of the loop leaves the number it pushed on top. -/
theorem numberOnTop_evalStep {st st' : EvalState} {i : Instr}
    (h : evalStep cr flags checker st i = .ok st') : NumberOnTop i.opcode st' := by
  obtain ⟨-, -, -, hinstr, -⟩ := evalStep_ok_iff.mp h
  intro hlo hhi hexec'
  have hlo' : 0x51 ≤ i.opcode.toNat := UInt8.le_iff_toNat_le.mp hlo
  have hhi' : i.opcode.toNat ≤ 0x60 := UInt8.le_iff_toNat_le.mp hhi
  have hpush : ¬ i.opcode ≤ opPushData4 := by
    rw [UInt8.le_iff_toNat_le]
    show ¬ i.opcode.toNat ≤ 0x4e
    omega
  have hcond : ¬ opIf ≤ i.opcode := by
    rw [UInt8.le_iff_toNat_le]
    show ¬ 0x63 ≤ i.opcode.toNat
    omega
  unfold evalInstr at hinstr
  by_cases hexec : (st.countOp i.opcode).executing = true
  · simp only [hexec, hpush, decide_false, Bool.and_false, Bool.false_eq_true, if_false,
      Bool.true_or, if_true, operation_number hlo hhi] at hinstr
    obtain rfl := Except.ok.inj hinstr
    exact ⟨_, rfl⟩
  · simp only [hexec, hcond, decide_false, Bool.false_and, Bool.false_eq_true, if_false,
      Bool.or_self] at hinstr
    obtain rfl := Except.ok.inj hinstr
    exact absurd hexec' hexec

/-! ## The loop -/

theorem Performs.mono {bound bound' : Nat} {m : Machine Unit} {st : EvalState}
    {x : Except Halt EvalState} (h : Performs bound m st x) (hle : bound ≤ bound') :
    Performs bound' m st x := by
  unfold Performs at h ⊢
  generalize m.run st = r at h
  match r, h with
  | (.ok (), st'), ⟨hok, hb⟩ => exact ⟨hok, Nat.le_trans hb hle⟩
  | (.error (.halt e), st'), ⟨herr, hb⟩ => exact ⟨herr, Nat.le_trans hb hle⟩

/-- **The loop of `EvalScript`** does what it should, and calls `CheckSig` no more often
than the script counts. -/
theorem performs_loop {fuel : Nat} {s : CScript} {st : EvalState} {lastOpcode : UInt8}
    (hfuel : s.length ≤ fuel) (h : NumberOnTop lastOpcode st) :
    Performs (st.nCheckSig + sigOpCountAux true fuel lastOpcode s) (loop cr flags checker s) st
      (evalLoop cr flags checker fuel s st) := by
  induction fuel generalizing s st lastOpcode with
  | zero =>
      obtain rfl := List.length_eq_zero_iff.mp (Nat.le_zero.mp hfuel)
      rw [loop]
      exact ⟨rfl, Nat.le_refl _⟩
  | succ fuel ih =>
      cases s with
      | nil =>
          rw [loop]
          exact ⟨rfl, Nat.le_add_right ..⟩
      | cons b s =>
          rw [loop, evalLoop]
          · simp only [List.isEmpty_cons, Bool.false_eq_true, if_false]
            split
            · rename_i hop
              rw [hop]
              exact ⟨rfl, Nat.le_add_right ..⟩
            · rename_i i hop
              have hlt := getOp_rest_lt hop
              rw [hop, sigOpCountAux_succ _ _ _ hop]
              dsimp only
              have hbody := performs_loopBody cr flags checker i
                (Nat.add_le_add_left (instrCalls_le flags h i) st.nCheckSig)
              unfold Performs
              rw [run_bind]
              unfold Performs at hbody
              generalize (loopBody cr flags checker i).run st = r at hbody
              obtain ⟨res, st'⟩ := r
              cases res with
              | ok u =>
                  obtain ⟨hok, hb⟩ := hbody
                  have hrest := ih (s := i.rest) (by simp only [List.length_cons] at hlt hfuel; omega)
                    (numberOnTop_evalStep cr flags checker hok)
                  rw [hok]
                  exact hrest.mono (by omega)
              | error e =>
                  cases e with
                  | outOfRange => exact hbody.elim
                  | halt e =>
                      obtain ⟨herr, hb⟩ := hbody
                      rw [herr]
                      exact ⟨rfl, by omega⟩
          · simp

/-- What `EvalScript` returns, as the machine returns it. -/
def haltResult {α : Type} : Except Halt α → Except EvalFault α
  | .ok a => .ok a
  | .error h => .error (.halt h)

/-- **`EvalScript`**: it stays inside of the stacks, and calls `CheckSig` no more often
than the script counts. -/
theorem runScript_spec (stack : List Bytes) (script : CScript) :
    (runScript cr flags checker stack script).1 =
      haltResult (evalScript cr flags checker stack script) ∧
    (runScript cr flags checker stack script).2 ≤ getSigOpCount true script := by
  unfold runScript evalScript
  by_cases hsize : 10000 < script.length
  · rw [if_pos hsize, if_pos hsize]
    exact ⟨rfl, Nat.zero_le _⟩
  rw [if_neg hsize, if_neg hsize]
  have hnone : NumberOnTop opInvalidOpcode { stack, codeHash := script } := by
    intro _ hhi
    exact absurd hhi (by decide)
  have hloop := performs_loop cr flags checker (Nat.le_refl script.length) hnone
  have hzero : ({ stack, codeHash := script } : EvalState).nCheckSig +
      sigOpCountAux true script.length opInvalidOpcode script = getSigOpCount true script :=
    Nat.zero_add _
  rw [hzero] at hloop
  unfold Performs at hloop
  generalize (loop cr flags checker script).run { stack, codeHash := script } = r at hloop
  match r, hloop with
  | (.ok (), st), ⟨hok, hb⟩ =>
      rw [hok]
      dsimp only
      refine ⟨?_, hb⟩
      split_ifs <;> rfl
  | (.error (.halt (.fail e)), st), ⟨herr, hb⟩ =>
      rw [herr]
      exact ⟨rfl, hb⟩
  | (.error (.halt .throws), st), ⟨herr, hb⟩ =>
      rw [herr]
      exact ⟨rfl, hb⟩
  | (.error (.halt .asserts), st), ⟨herr, hb⟩ =>
      rw [herr]
      exact ⟨rfl, hb⟩

/-! ## Redeem scripts -/

/-- The opcodes up to `OP_16` that push no data of their own. -/
theorem operation_small {opcode : UInt8} (hlo : ¬ opcode ≤ opPushData4) (hhi : opcode ≤ op16) :
    operation opcode = .bad ∨
      ∃ n b, operation opcode = .number n ∧ serializeNum n = [b] ∧ getSigOpCount true [b] = 0 := by
  have hlo' : ¬ opcode.toNat ≤ 0x4e := fun hle => hlo (UInt8.le_iff_toNat_le.mpr hle)
  have hhi' : opcode.toNat ≤ 0x60 := UInt8.le_iff_toNat_le.mp hhi
  unfold operation
  generalize opcode.toNat = n at hlo' hhi'
  have hlo'' : 0x4f ≤ n := by omega
  clear hlo'
  interval_cases n
  · exact Or.inr ⟨-1, 0x81, rfl, rfl, rfl⟩
  · exact Or.inl rfl
  all_goals exact Or.inr ⟨_, _, rfl, rfl, rfl⟩

/-- A push outside of every conditional puts its data on the stack; that of `OP_1NEGATE`
and of `OP_1` to `OP_16` is no script that checks signatures. -/
theorem evalStep_push {st st' : EvalState} {i : Instr} (hpush : i.opcode ≤ op16)
    (hnil : st.vfExec = []) (h : evalStep cr flags checker st i = .ok st') :
    st'.vfExec = [] ∧ ∃ vch, st'.stack = vch :: st.stack ∧
      (vch = i.data ∨ getSigOpCount true vch = 0) := by
  obtain ⟨-, -, -, hinstr, -⟩ := evalStep_ok_iff.mp h
  have hexec : (st.countOp i.opcode).executing = true := by
    show (!st.vfExec.contains false) = true
    rw [hnil]
    rfl
  unfold evalInstr at hinstr
  by_cases hdata : i.opcode ≤ opPushData4
  · simp only [hexec, hdata, decide_true, Bool.and_true, if_true] at hinstr
    split_ifs at hinstr
    obtain rfl := Except.ok.inj hinstr
    exact ⟨hnil, i.data, rfl, Or.inl rfl⟩
  · simp only [hexec, hdata, decide_false, Bool.and_false, Bool.false_eq_true, if_false,
      Bool.true_or, if_true] at hinstr
    rcases operation_small hdata hpush with hbad | ⟨n, b, hnum, hser, hcount⟩
    · rw [hbad] at hinstr
      cases hinstr
    · rw [hnum] at hinstr
      obtain rfl := Except.ok.inj hinstr
      exact ⟨hnil, [b], by rw [← hser]; rfl, Or.inr hcount⟩

theorem runInstrs_push {is : List Instr} (hpush : ∀ i ∈ is, i.opcode ≤ op16) {st st' : EvalState}
    (hnil : st.vfExec = []) (h : runInstrs cr flags checker is st = .ok st') : st'.vfExec = [] := by
  induction is generalizing st with
  | nil =>
      obtain rfl := Except.ok.inj h
      exact hnil
  | cons i is ih =>
      rw [runInstrs] at h
      cases hstep : evalStep cr flags checker st i with
      | error e => simp [hstep] at h
      | ok mid =>
          rw [hstep] at h
          have hmid := (evalStep_push cr flags checker (hpush i List.mem_cons_self) hnil hstep).1
          exact ih (fun j hj => hpush j (List.mem_cons_of_mem i hj)) hmid h

/-- **The script that is evaluated counts no more than the one that was counted**: the
top of the stack after a `scriptSig` of pushes is what it pushed last. -/
theorem getSigOpCount_redeem {scriptSig scriptPubKey redeem : CScript} {stack : List Bytes}
    (hp2sh : isPayToScriptHash scriptPubKey = true) (hpush : isPushOnly scriptSig = true)
    (h : evalScript cr flags checker [] scriptSig = .ok (redeem :: stack)) :
    getSigOpCount true redeem ≤ getP2SHSigOpCountOf scriptPubKey scriptSig := by
  obtain ⟨-, is, st, his, hrun, -, hstack⟩ := evalScript_ok_iff.mp h
  simp only [isPushOnly, his, List.all_eq_true, decide_eq_true_eq] at hpush
  have hall : (is.all fun i => i.opcode ≤ op16) = true := by simpa using hpush
  simp only [getP2SHSigOpCountOf, hp2sh, his, Bool.not_true, Bool.false_eq_true, if_false, hall,
    if_true]
  cases is using List.reverseRecOn with
  | nil =>
      obtain rfl := Except.ok.inj hrun
      cases hstack
  | append_singleton is i =>
      obtain ⟨mid, hmid, hstep⟩ := runInstrs_concat_ok.mp hrun
      have hnil := runInstrs_push cr flags checker
        (fun j hj => hpush j (List.mem_append_left [i] hj)) rfl hmid
      obtain ⟨-, vch, htop, hvch⟩ := evalStep_push cr flags checker (hpush i (by simp)) hnil hstep
      rw [hstack] at htop
      obtain ⟨rfl, -⟩ := List.cons.inj htop
      rw [List.getLast?_concat]
      rcases hvch with hdata | hzero
      · rw [hdata]
        exact Nat.le_refl _
      · rw [hzero]
        exact Nat.zero_le _

theorem haltResult_ok {α : Type} {x : Except Halt α} {a : α} (h : haltResult x = .ok a) :
    x = .ok a := by
  cases x with
  | error e => cases h
  | ok b => exact congrArg Except.ok (Except.ok.inj h)

/-- The calls that `VerifyScript` makes for the redeem script. -/
theorem runVerifyScript_calls {scriptSig scriptPubKey : CScript}
    (hp2sh : isPayToScriptHash scriptPubKey = true) :
    (runVerifyScript cr flags checker scriptSig scriptPubKey).2 ≤
      getP2SHSigOpCountOf scriptPubKey scriptSig := by
  unfold runVerifyScript
  by_cases hsig : (hasFlag flags scriptVerifySigPushOnly && !isPushOnly scriptSig) = true
  · rw [if_pos hsig]
    exact Nat.zero_le _
  rw [if_neg hsig]
  cases hfirst : (runScript cr flags checker [] scriptSig).1 with
  | error e => exact Nat.zero_le _
  | ok stack =>
      dsimp only
      cases (runScript cr flags checker stack scriptPubKey).1 with
      | error e => exact Nat.zero_le _
      | ok stack' =>
          dsimp only
          cases requireTrue stack' with
          | error e => exact Nat.zero_le _
          | ok u =>
              dsimp only
              by_cases hflag : hasFlag flags scriptVerifyP2SH = true
              · simp only [hflag, hp2sh, Bool.and_self, if_true]
                unfold runRedeemScript
                by_cases hpush : isPushOnly scriptSig = true
                · cases stack with
                  | nil => simp [hpush]
                  | cons redeem stack =>
                      have heval := haltResult_ok
                        ((runScript_spec cr flags checker [] scriptSig).1.symm.trans hfirst)
                      simp only [hpush, Bool.not_true, Bool.false_eq_true, if_false]
                      exact Nat.le_trans (runScript_spec cr flags checker stack redeem).2
                        (getSigOpCount_redeem cr flags checker hp2sh hpush heval)
                · simp [hpush]
              · simp [hflag]

/-- **The count bounds the work**: for every script, stack, set of flags and checker,
`EvalScript` calls `CheckSig` at most `GetSigOpCount(true)` times, which is at most
`GetSigOpCount(false)`; and for a redeem script `VerifyScript` calls it at most as often as
`GetSigOpCount(scriptSig)` says. -/
theorem checkSig_calls_le :
    (∀ stack script, (runScript cr flags checker stack script).2 ≤ getSigOpCount true script ∧
      getSigOpCount true script ≤ getSigOpCount false script) ∧
    ∀ scriptSig scriptPubKey, isPayToScriptHash scriptPubKey = true →
      (runVerifyScript cr flags checker scriptSig scriptPubKey).2 ≤
        getP2SHSigOpCountOf scriptPubKey scriptSig :=
  ⟨fun stack script => ⟨(runScript_spec cr flags checker stack script).2, getSigOpCount_le script⟩,
    fun _ _ hp2sh => runVerifyScript_calls cr flags checker hp2sh⟩

end Calls
end Hivemind
