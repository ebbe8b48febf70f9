import Hivemind.Script.Interpreter
import Hivemind.Lib.Outcome

/-!
# Running scripts

What one pass of the interpreter can do, and what that gives for whole scripts.

A pass of the loop that does not stop the script is a step from one state to another, and a run
is such a step for each instruction of the script.  That splits every statement about
`EvalScript` in two: whether the script reads to its end, which is about its bytes alone, and
what its instructions do in turn, which is about the states.

An assertion is reached only where a script number is too long for the 64-bit arithmetic; the
constructor refuses those first.

* `evalStep_ok_iff`: what one pass does when it does not stop the script.
* `evalScript_ok_iff`: **a script succeeds exactly when** it reads to its end, its instructions
  run in turn, and every conditional is closed.
* `scriptNum_bound`: script numbers have at most four bytes.
* `evalStep_safe`, `evalScript_fails`: no instruction reaches an assertion, so a script that does
  not succeed makes `EvalScript` return `false`.
-/

namespace Hivemind

open Codecs Outcomes

/-! ## Running a list of instructions -/

section Run

variable (cr : Crypto) (flags : ScriptFlags) (checker : SignatureChecker)

/-- Run instructions in turn. -/
def runInstrs : List Instr → EvalState → Except Halt EvalState
  | [], st => .ok st
  | i :: is, st => match evalStep cr flags checker st i with
    | .error h => .error h
    | .ok st' => runInstrs is st'

variable {cr flags checker}

/-- What one pass of the loop does when it does not stop the script. -/
theorem evalStep_ok_iff {st st' : EvalState} {i : Instr} :
    evalStep cr flags checker st i = .ok st' ↔
      i.data.length ≤ maxScriptElementSize ∧
      (op16 < i.opcode → (st.countOp i.opcode).nOpCount ≤ 201) ∧ isDisabled i.opcode = false ∧
      evalInstr cr flags checker (st.countOp i.opcode) i = .ok st' ∧
      st'.stack.length + st'.altstack.length ≤ 1000 := by
  unfold evalStep
  by_cases hsize : maxScriptElementSize < i.data.length
  · rw [if_pos hsize]
    exact ⟨(nomatch ·), fun h => by omega⟩
  by_cases hcount : op16 < i.opcode ∧ 201 < (st.countOp i.opcode).nOpCount
  · rw [if_neg hsize, if_pos hcount]
    refine ⟨(nomatch ·), fun h => ?_⟩
    have := h.2.1 hcount.1
    omega
  rw [if_neg hsize, if_neg hcount]
  cases hdis : isDisabled i.opcode with
  | true => simp
  | false =>
      have hcount' : op16 < i.opcode → (st.countOp i.opcode).nOpCount ≤ 201 := by
        intro hop
        by_contra hc
        exact hcount ⟨hop, by omega⟩
      simp only [Bool.false_eq_true, if_false]
      cases evalInstr cr flags checker (st.countOp i.opcode) i with
      | error h => simp
      | ok mid =>
          simp only
          split_ifs with hstack
          · refine ⟨(nomatch ·), fun h => ?_⟩
            obtain rfl := Except.ok.inj h.2.2.2.1
            omega
          · refine ⟨fun h => ?_, fun h => h.2.2.2.1⟩
            obtain rfl := Except.ok.inj h
            exact ⟨by omega, hcount', trivial, rfl, by omega⟩

theorem runInstrs_concat_ok {is : List Instr} {i : Instr} {st st' : EvalState} :
    runInstrs cr flags checker (is ++ [i]) st = .ok st' ↔
      ∃ mid, runInstrs cr flags checker is st = .ok mid ∧
        evalStep cr flags checker mid i = .ok st' := by
  induction is generalizing st with
  | nil =>
      simp only [List.nil_append, runInstrs, Except.ok.injEq, exists_eq_left']
      cases evalStep cr flags checker st i <;> simp
  | cons j is ih =>
      simp only [List.cons_append, runInstrs]
      cases evalStep cr flags checker st j with
      | error h => simp
      | ok mid => exact ih

theorem evalLoop_ok_iff {fuel : Nat} {s : CScript} {st st' : EvalState} (hfuel : s.length ≤ fuel) :
    evalLoop cr flags checker fuel s st = .ok st' ↔
      ∃ is, readScript s = some is ∧ runInstrs cr flags checker is st = .ok st' := by
  induction fuel generalizing s st with
  | zero =>
      obtain rfl := List.length_eq_zero_iff.mp (Nat.le_zero.mp hfuel)
      simp [evalLoop, runInstrs]
  | succ fuel ih =>
      cases s with
      | nil => simp [evalLoop, runInstrs]
      | cons b s =>
          rw [evalLoop, readScript_eq (List.cons_ne_nil b s)]
          · cases hop : getOp (b :: s) with
            | none => simp
            | some i =>
                have hlt := getOp_rest_lt hop
                simp only [Option.bind_some, Option.map_eq_some_iff]
                cases hstep : evalStep cr flags checker st i with
                | error h =>
                    simp only [reduceCtorEq, false_iff]
                    rintro ⟨is, ⟨is', -, rfl⟩, hrun⟩
                    simp [runInstrs, hstep] at hrun
                | ok mid =>
                    simp only
                    rw [ih (by simp only [List.length_cons] at hlt hfuel; omega)]
                    constructor
                    · rintro ⟨is, his, hrun⟩
                      exact ⟨i :: is, ⟨is, his, rfl⟩, by simp [runInstrs, hstep, hrun]⟩
                    · rintro ⟨is, ⟨is', his', rfl⟩, hrun⟩
                      exact ⟨is', his', by simpa [runInstrs, hstep] using hrun⟩
          · simp

/-- **When a script succeeds.** -/
theorem evalScript_ok_iff {stack stack' : List Bytes} {script : CScript} :
    evalScript cr flags checker stack script = .ok stack' ↔
      script.length ≤ 10000 ∧ ∃ is st, readScript script = some is ∧
        runInstrs cr flags checker is { stack, codeHash := script } = .ok st ∧
        st.vfExec = [] ∧ st.stack = stack' := by
  unfold evalScript
  by_cases hsize : 10000 < script.length
  · rw [if_pos hsize]
    constructor
    · intro h
      cases h
    · rintro ⟨hle, -⟩
      omega
  · rw [if_neg hsize]
    have hloop : ∀ st', evalLoop cr flags checker script.length script
        { stack, codeHash := script } = .ok st' ↔ _ :=
      fun st' => evalLoop_ok_iff (le_refl script.length)
    cases hrun : evalLoop cr flags checker script.length script { stack, codeHash := script } with
    | error h =>
        have hno : ¬ ∃ is st, readScript script = some is ∧
            runInstrs cr flags checker is { stack, codeHash := script } = .ok st ∧
            st.vfExec = [] ∧ st.stack = stack' := by
          rintro ⟨is, st, his, hok, -⟩
          rw [(hloop st).mpr ⟨is, his, hok⟩] at hrun
          cases hrun
        constructor
        · intro hc
          cases h <;> cases hc
        · exact fun hc => absurd hc.2 hno
    | ok st =>
        obtain ⟨is, his, hok⟩ := (hloop st).mp hrun
        simp only
        constructor
        · intro h
          split_ifs at h with hnil
          exact ⟨by omega, is, st, his, hok, List.isEmpty_iff.mp hnil, by simpa using h⟩
        · rintro ⟨-, is', st', his', hok', hnil, rfl⟩
          obtain rfl := Option.some.inj (his.symm.trans his')
          obtain rfl : st = st' := by simpa [hok] using hok'
          rw [hnil]
          rfl

end Run

/-! ## No assertion is reached -/

/-- A computation that does not end in a failed assertion. -/
abbrev Safe {α : Type} (x : Except Halt α) : Prop := Avoids (· = Halt.asserts) x

theorem Safe.fail {α : Type} (e : ScriptError) : Safe (.error (.fail e) : Except Halt α) :=
  Avoids.error (nomatch ·)

theorem Safe.throws {α : Type} : Safe (.error .throws : Except Halt α) := Avoids.error (nomatch ·)

theorem scriptNum_safe (fRequireMinimal : Bool) (vch : Bytes) :
    Safe (scriptNum fRequireMinimal vch) := by
  unfold scriptNum
  exact Avoids.ite Safe.throws (Avoids.ite Safe.throws (Avoids.ok _))

/-- Script numbers have at most four bytes. -/
theorem scriptNum_bound {fRequireMinimal : Bool} {vch : Bytes} {n : Int}
    (h : scriptNum fRequireMinimal vch = .ok n) : -2 ^ 32 < n ∧ n < 2 ^ 32 := by
  unfold scriptNum at h
  split_ifs at h with hlen
  obtain rfl := Except.ok.inj h
  have hlt := leNat_lt vch
  have hpow : 256 ^ vch.length ≤ 256 ^ 4 := Nat.pow_le_pow_right (by omega) (by omega)
  have hnat : leNat vch < 2 ^ 32 := lt_of_lt_of_le hlt (by simpa using hpow)
  unfold setVch
  cases hlast : vch.getLast? with
  | none => simp
  | some b =>
      have hpos : 256 ^ (vch.length - 1) ≤ 256 ^ 3 := Nat.pow_le_pow_right (by omega) (by omega)
      have hpos' : ((256 : Int) ^ (vch.length - 1)) ≤ 256 ^ 3 := by exact_mod_cast hpos
      have hnn : (0 : Int) ≤ 256 ^ (vch.length - 1) := by positivity
      have hleft : (128 : Int) * 256 ^ (vch.length - 1) ≤ 2 ^ 31 := by
        norm_num at hpos' ⊢
        linarith
      simp only
      split_ifs
      · constructor <;> push_cast <;> omega
      · constructor <;> omega

theorem execUnary_safe (op : UnaryOp) {n : Int} (h : -2 ^ 32 < n ∧ n < 2 ^ 32) :
    Safe (execUnary op n) := by
  cases op with
  | add1 =>
      rw [execUnary, addAssign, if_pos (by right; left; unfold int64Max; omega)]
      exact Avoids.ok _
  | sub1 =>
      rw [execUnary, subAssign, if_pos (by right; left; unfold int64Min; omega)]
      exact Avoids.ok _
  | negate =>
      rw [execUnary, negate, if_neg (by unfold int64Min; omega)]
      exact Avoids.ok _
  | abs =>
      refine Avoids.ite ?_ (Avoids.ok _)
      rw [negate, if_neg (by unfold int64Min; omega)]
      exact Avoids.ok _
  | not => exact Avoids.ok _
  | notEqual0 => exact Avoids.ok _

theorem invalidStack_safe {α : Type} : Safe (invalidStack : Except Halt α) := Safe.fail _

theorem pickOrRoll_safe (fRequireMinimal roll : Bool) (s : List Bytes) :
    Safe (pickOrRoll fRequireMinimal roll s) := by
  match s with
  | [] => exact invalidStack_safe
  | [_] => exact invalidStack_safe
  | top :: x :: s =>
      refine Avoids.bind (scriptNum_safe ..) ?_
      intro n _
      exact Avoids.ite invalidStack_safe (Avoids.ok _)

theorem execStackOp_safe (fRequireMinimal : Bool) (op : StackOp) (s a : List Bytes) :
    Safe (execStackOp fRequireMinimal op s a) := by
  unfold execStackOp
  split <;>
    first
    | exact Avoids.ok _
    | exact Safe.fail _
    | exact Avoids.map (pickOrRoll_safe ..)

theorem pushOrVerify_safe (verify : Bool) (e : ScriptError) (ok : Bool) (s : List Bytes) :
    Safe (pushOrVerify verify e ok s) := by
  unfold pushOrVerify
  exact Avoids.ite (Avoids.ite (Avoids.ok _) (Safe.fail _)) (Avoids.ok _)

theorem checkSignatureEncoding_safe (cr : Crypto) (flags : ScriptFlags) (vchSig : Bytes) :
    Safe (checkSignatureEncoding cr flags vchSig) := by
  unfold checkSignatureEncoding isLowDERSignature
  refine ⟨?_⟩
  rintro e h rfl
  split_ifs at h <;> simp [Bind.bind, Except.bind, pure, Except.pure] at h

theorem checkPubKeyEncoding_safe (flags : ScriptFlags) (vchPubKey : Bytes) :
    Safe (checkPubKeyEncoding flags vchPubKey) := by
  unfold checkPubKeyEncoding
  exact Avoids.ite (Safe.fail _) (Avoids.ok _)

section Steps

variable (cr : Crypto) (flags : ScriptFlags) (checker : SignatureChecker)

theorem multiSigLoop_safe (scriptCode : CScript) (sigs keys : List Bytes) :
    Safe (multiSigLoop cr flags checker scriptCode sigs keys) := by
  induction keys generalizing sigs with
  | nil => cases sigs <;> exact Avoids.ok _
  | cons key keys ih =>
      cases sigs with
      | nil => exact Avoids.ok _
      | cons sig sigs =>
          refine Avoids.bind (checkSignatureEncoding_safe ..) fun _ _ => ?_
          refine Avoids.bind (checkPubKeyEncoding_safe ..) fun _ _ => ?_
          refine Avoids.ite (Avoids.ok _) (Avoids.bind (ih _) fun _ _ => Avoids.ok _)

theorem execCheckSig_safe (verify : Bool) (st : EvalState) :
    Safe (execCheckSig cr flags checker verify st) := by
  unfold execCheckSig
  match st.stack with
  | [] => exact invalidStack_safe
  | [_] => exact invalidStack_safe
  | vchPubKey :: vchSig :: s =>
      refine Avoids.bind (checkSignatureEncoding_safe ..) fun _ _ => ?_
      refine Avoids.bind (checkPubKeyEncoding_safe ..) fun _ _ => ?_
      exact Avoids.bind (pushOrVerify_safe ..) fun _ _ => Avoids.ok _

theorem execCheckMultiSig_safe (verify : Bool) (st : EvalState) :
    Safe (execCheckMultiSig cr flags checker verify st) := by
  unfold execCheckMultiSig
  cases st.stack with
  | nil => exact invalidStack_safe
  | cons top s =>
      refine Avoids.bind (scriptNum_safe ..) fun nKeys _ => ?_
      refine Avoids.ite (Safe.fail _) (Avoids.ite (Safe.fail _) ?_)
      dsimp only
      cases s.drop (getInt nKeys).toNat with
      | nil => exact invalidStack_safe
      | cons count s' =>
          refine Avoids.bind (scriptNum_safe ..) fun nSigs _ => Avoids.ite (Safe.fail _) ?_
          cases s'.drop (getInt nSigs).toNat with
          | nil => exact invalidStack_safe
          | cons dummy bottom =>
              refine Avoids.bind (multiSigLoop_safe ..) fun _ _ => Avoids.ite (Safe.fail _) ?_
              exact Avoids.bind (pushOrVerify_safe ..) fun _ _ => Avoids.ok _

theorem execOp_safe (fExec : Bool) (rest : CScript) (st : EvalState) (op : Operation) :
    Safe (execOp cr flags checker fExec rest st op) := by
  cases op with
  | number n => exact Avoids.ok _
  | nop => exact Avoids.ok _
  | upgradableNop => exact Avoids.ite (Safe.fail _) (Avoids.ok _)
  | cond negated =>
      unfold execOp
      refine Avoids.ite ?_ (Avoids.ok _)
      cases st.stack with
      | nil => exact Safe.fail _
      | cons x s => exact Avoids.ok _
  | else_ =>
      unfold execOp
      cases st.vfExec with
      | nil => exact Safe.fail _
      | cons b bs => exact Avoids.ok _
  | endIf =>
      unfold execOp
      cases st.vfExec with
      | nil => exact Safe.fail _
      | cons b bs => exact Avoids.ok _
  | verify =>
      unfold execOp
      cases st.stack with
      | nil => exact invalidStack_safe
      | cons x s => exact Avoids.ite (Avoids.ok _) (Safe.fail _)
  | return_ => exact Safe.fail _
  | stack op => exact Avoids.bind (execStackOp_safe ..) fun _ _ => Avoids.ok _
  | size =>
      unfold execOp
      cases st.stack with
      | nil => exact invalidStack_safe
      | cons x s => exact Avoids.ok _
  | equal verify =>
      unfold execOp
      match st.stack with
      | [] => exact invalidStack_safe
      | [_] => exact invalidStack_safe
      | x2 :: x1 :: s => exact Avoids.bind (pushOrVerify_safe ..) fun _ _ => Avoids.ok _
  | unary op =>
      unfold execOp
      match st.stack with
      | [] => exact invalidStack_safe
      | x :: s =>
          refine Avoids.bind (scriptNum_safe ..) fun n hn => ?_
          exact Avoids.bind (execUnary_safe op (scriptNum_bound hn)) fun _ _ => Avoids.ok _
  | binary op =>
      unfold execOp
      match st.stack with
      | [] => exact invalidStack_safe
      | [_] => exact invalidStack_safe
      | x2 :: x1 :: s =>
          refine Avoids.bind (scriptNum_safe ..) fun _ _ => ?_
          refine Avoids.bind (scriptNum_safe ..) fun _ _ => ?_
          exact Avoids.ite (Avoids.ite (Avoids.ok _) (Safe.fail _)) (Avoids.ok _)
  | within =>
      unfold execOp
      match st.stack with
      | [] => exact invalidStack_safe
      | [_] => exact invalidStack_safe
      | [_, _] => exact invalidStack_safe
      | x3 :: x2 :: x1 :: s =>
          refine Avoids.bind (scriptNum_safe ..) fun _ _ => ?_
          refine Avoids.bind (scriptNum_safe ..) fun _ _ => ?_
          exact Avoids.bind (scriptNum_safe ..) fun _ _ => Avoids.ok _
  | hash op =>
      unfold execOp
      match st.stack with
      | [] => exact invalidStack_safe
      | x :: s => exact Avoids.ok _
  | codeSeparator => exact Avoids.ok _
  | checkSig verify => exact execCheckSig_safe ..
  | checkMultiSig verify => exact execCheckMultiSig_safe ..
  | bad => exact Safe.fail _

theorem evalInstr_safe (st : EvalState) (i : Instr) : Safe (evalInstr cr flags checker st i) := by
  unfold evalInstr
  exact Avoids.ite (Avoids.ite (Safe.fail _) (Avoids.ok _)) (Avoids.ite (execOp_safe ..) (Avoids.ok _))

/-- One pass of the loop reaches no assertion. -/
theorem evalStep_safe (st : EvalState) (i : Instr) : Safe (evalStep cr flags checker st i) := by
  unfold evalStep
  refine Avoids.ite (Safe.fail _) (Avoids.ite (Safe.fail _) (Avoids.ite (Safe.fail _) ?_))
  have hinstr := evalInstr_safe cr flags checker (st.countOp i.opcode) i
  revert hinstr
  cases evalInstr cr flags checker (st.countOp i.opcode) i with
  | error h => exact id
  | ok st' => exact fun _ => Avoids.ite (Safe.fail _) (Avoids.ok _)

theorem evalLoop_safe (fuel : Nat) (s : CScript) (st : EvalState) :
    Safe (evalLoop cr flags checker fuel s st) := by
  induction fuel generalizing s st with
  | zero =>
      cases s with
      | nil => exact Avoids.ok _
      | cons b s => exact Safe.fail _
  | succ fuel ih =>
      cases s with
      | nil => exact Avoids.ok _
      | cons b s =>
          rw [evalLoop]
          · cases getOp (b :: s) with
            | none => exact Safe.fail _
            | some i =>
                have hstep := evalStep_safe cr flags checker st i
                simp only
                cases hst : evalStep cr flags checker st i with
                | error h =>
                    rw [hst] at hstep
                    exact hstep
                | ok st' => exact ih ..
          · simp

/-- **A script that does not succeed makes `EvalScript` return `false`**, with a
script error. -/
theorem evalScript_fails {stack : List Bytes} {script : CScript} {h : Halt}
    (heval : evalScript cr flags checker stack script = .error h) : ∃ e, h = .fail e := by
  unfold evalScript at heval
  split_ifs at heval
  · exact ⟨_, (Except.error.inj heval).symm⟩
  · have hsafe := evalLoop_safe cr flags checker script.length script { stack, codeHash := script }
    revert heval hsafe
    cases evalLoop cr flags checker script.length script { stack, codeHash := script } with
    | error h' =>
        cases h' with
        | fail e => exact fun heval _ => ⟨e, (Except.error.inj heval).symm⟩
        | throws => exact fun heval _ => ⟨_, (Except.error.inj heval).symm⟩
        | asserts => exact fun _ hsafe => absurd rfl (hsafe.not_bad _ rfl)
    | ok st =>
        intro heval _
        simp only at heval
        split_ifs at heval
        exact ⟨_, (Except.error.inj heval).symm⟩

end Steps

end Hivemind
