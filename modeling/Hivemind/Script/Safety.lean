import Hivemind.Script.SigOps
import Mathlib.Logic.Relation

/-!
# Script evaluation is safe

No script makes `EvalScript` reach an assertion or a place outside of its stacks, and a script
that succeeds has closed its conditionals and kept its stacks within 1000 elements all along.
`VerifyScript` reaches none of its assertions either: the stack it saved for a redeem script is
not empty, because `OP_HASH160` found something on it.

`VerifyScript` asserts that the flag for a clean stack comes with the one for redeem scripts,
which is a promise of its callers; without it that assertion is reached.  The limit on the stacks
is a statement about every state on the way, so it is proved of what is reached from the start of
the loop, and not only of where the loop ends.

* `Reaches`: what is reached from the start of the loop.
* `stackLimit_of_reaches`: the limit along a run.
* `verifyScript_ne_asserts`: `VerifyScript`.
* `scripts_safe`: **all of it**, for every script, stack, set of flags and checker.
* `scripts_safe_double`: two scripts that run through, under the flags that need each other.
-/

namespace Hivemind

open Codecs Machine

section Safety

variable (cr : Crypto) (flags : ScriptFlags) (checker : SignatureChecker)

/-! ## Along a run -/

/-- One pass of the loop: the script that is left, and the local variables. -/
def LoopStep (before after : CScript × EvalState) : Prop :=
  ∃ i, before.1 ≠ [] ∧ getOp before.1 = some i ∧ after.1 = i.rest ∧
    (loopBody cr flags checker i).run before.2 = (.ok (), after.2)

/-- What is reached from the start of the loop. -/
def Reaches : CScript × EvalState → CScript × EvalState → Prop :=
  Relation.ReflTransGen (LoopStep cr flags checker)

variable {cr flags checker}

theorem evalStep_of_loopBody {i : Instr} {st st' : EvalState}
    (h : (loopBody cr flags checker i).run st = (.ok (), st')) :
    evalStep cr flags checker st i = .ok st' := by
  have hbody := performs_loopBody cr flags checker i (Nat.le_refl (st.nCheckSig + _))
  unfold Performs at hbody
  rw [h] at hbody
  exact hbody.1

/-- **The stacks stay within the limit**, from the start to the end. -/
theorem stackLimit_of_reaches {start now : CScript × EvalState}
    (hstart : start.2.stack.length + start.2.altstack.length ≤ 1000)
    (h : Reaches cr flags checker start now) :
    now.2.stack.length + now.2.altstack.length ≤ 1000 := by
  induction h with
  | refl => exact hstart
  | tail _ hstep _ =>
      obtain ⟨i, -, -, -, hrun⟩ := hstep
      exact (evalStep_ok_iff.mp (evalStep_of_loopBody hrun)).2.2.2.2

/-- A loop that ends well has come to the end of the script. -/
theorem reaches_of_loop {s : CScript} {st st' : EvalState}
    (h : (loop cr flags checker s).run st = (.ok (), st')) :
    Reaches cr flags checker (s, st) ([], st') := by
  induction hn : s.length using Nat.strong_induction_on generalizing s st with
  | _ n ih =>
      rw [loop] at h
      cases s with
      | nil =>
          obtain ⟨-, rfl⟩ := Prod.mk.inj h
          exact Relation.ReflTransGen.refl
      | cons b s =>
          simp only [List.isEmpty_cons, Bool.false_eq_true, if_false] at h
          split at h
          · cases h
          · rename_i i hop
            rw [run_bind] at h
            cases hbody : (loopBody cr flags checker i).run st with
            | mk r mid =>
                rw [hbody] at h
                cases r with
                | error e => cases h
                | ok u =>
                    have hlt := getOp_rest_lt hop
                    have hrest := ih i.rest.length (by omega) h rfl
                    exact Relation.ReflTransGen.head
                      ⟨i, List.cons_ne_nil b s, hop, rfl, hbody⟩ hrest

/-- **What success means**: the loop came to the end of the script, with every
conditional closed. -/
theorem reaches_of_runScript {stack stack' : List Bytes} {script : CScript}
    (h : (runScript cr flags checker stack script).1 = .ok stack') :
    ∃ st, Reaches cr flags checker (script, { stack, codeHash := script }) ([], st) ∧
      st.vfExec = [] ∧ st.stack = stack' := by
  unfold runScript at h
  split_ifs at h
  cases hloop : (loop cr flags checker script).run { stack, codeHash := script } with
  | mk r st =>
      rw [hloop] at h
      match r with
      | .error (.halt (.fail e)) => cases h
      | .error (.halt .throws) => cases h
      | .error (.halt .asserts) => cases h
      | .error .outOfRange => cases h
      | .ok () =>
          dsimp only at h
          split_ifs at h with hnil
          exact ⟨st, reaches_of_loop hloop, List.isEmpty_iff.mp hnil, by simpa using h⟩

/-! ## `VerifyScript` -/

/-- A pay-to-script-hash output needs something on the stack. -/
theorem evalScript_p2sh_nil {scriptPubKey : CScript} (h : isPayToScriptHash scriptPubKey = true)
    (stack : List Bytes) : evalScript cr flags checker [] scriptPubKey ≠ .ok stack := by
  intro hok
  obtain ⟨-, is, st, his, hrun, -⟩ := evalScript_ok_iff.mp hok
  cases scriptPubKey with
  | nil => cases h
  | cons b s =>
      obtain rfl : b = opHash160 := by
        simp only [isPayToScriptHash, Bool.and_eq_true, beq_iff_eq] at h
        simpa using h.1.1.2
      have hop := getOp_of_gt (show opPushData4 < opHash160 by decide) s
      rw [readScript_eq (List.cons_ne_nil _ _), hop] at his
      simp only [Option.bind_some, Option.map_eq_some_iff] at his
      obtain ⟨is', -, rfl⟩ := his
      cases hrun

/-- **`VerifyScript` reaches no assertion**, when `CLEANSTACK` comes with `P2SH`. -/
theorem verifyScript_ne_asserts
    (hflags : hasFlag flags scriptVerifyCleanStack = true → hasFlag flags scriptVerifyP2SH = true)
    (scriptSig scriptPubKey : CScript) :
    verifyScript cr scriptSig scriptPubKey flags checker ≠ .error .asserts := by
  have hclean : ∀ stack, verifyCleanStack flags stack ≠ .error .asserts := by
    intro stack hc
    unfold verifyCleanStack at hc
    split_ifs at hc with h1 h2 h3
    · simp [hflags h1] at h2
    · cases hc
  have htop : ∀ stack, checkTop stack ≠ .error .asserts := by
    intro stack hc
    cases stack with
    | nil => cases hc
    | cons x s =>
        rw [checkTop] at hc
        split_ifs at hc
        cases hc
  have heval : ∀ stack script, evalScript cr flags checker stack script ≠ .error .asserts := by
    intro stack script hc
    obtain ⟨e, he⟩ := evalScript_fails cr flags checker hc
    cases he
  intro hc
  unfold verifyScript at hc
  by_cases hsig : (hasFlag flags scriptVerifySigPushOnly && !isPushOnly scriptSig) = true
  · rw [if_pos hsig] at hc
    cases hc
  rw [if_neg hsig] at hc
  cases h1 : evalScript cr flags checker [] scriptSig with
  | error e =>
      rw [h1] at hc
      exact heval _ _ (h1.trans (congrArg _ (Except.error.inj hc)))
  | ok stack =>
      rw [h1] at hc
      dsimp only at hc
      cases h2 : evalScript cr flags checker stack scriptPubKey with
      | error e =>
          rw [h2] at hc
          exact heval _ _ (h2.trans (congrArg _ (Except.error.inj hc)))
      | ok stack' =>
          rw [h2] at hc
          dsimp only at hc
          cases h3 : checkTop stack' with
          | error e =>
              rw [h3] at hc
              exact htop _ (h3.trans (congrArg _ (Except.error.inj hc)))
          | ok u =>
              rw [h3] at hc
              dsimp only at hc
              split_ifs at hc with hp2sh
              · simp only [Bool.and_eq_true] at hp2sh
                -- the saved stack is not empty, or the hash would have failed
                cases stack with
                | nil => exact evalScript_p2sh_nil hp2sh.2 _ h2
                | cons redeem stack =>
                    unfold verifyP2SH at hc
                    by_cases hpush : isPushOnly scriptSig = true
                    · simp only [hpush, Bool.not_true, Bool.false_eq_true, if_false] at hc
                      cases h4 : evalScript cr flags checker stack redeem with
                      | error e =>
                          rw [h4] at hc
                          exact heval _ _ (h4.trans (congrArg _ (Except.error.inj hc)))
                      | ok stack'' =>
                          rw [h4] at hc
                          dsimp only at hc
                          cases h5 : checkTop stack'' with
                          | error e =>
                              rw [h5] at hc
                              exact htop _ (h5.trans (congrArg _ (Except.error.inj hc)))
                          | ok u =>
                              rw [h5] at hc
                              exact hclean _ hc
                    · simp [hpush] at hc
              · exact hclean _ hc

theorem requireTrue_eq (stack : List Bytes) : requireTrue stack = haltResult (checkTop stack) := by
  cases stack with
  | nil => rfl
  | cons x s =>
      rw [requireTrue, checkTop]
      by_cases hx : castToBool x = true
      · simp [hx, haltResult]
      · simp [hx, haltResult]

theorem requireCleanStack_eq (stack : List Bytes) :
    requireCleanStack flags stack = haltResult (verifyCleanStack flags stack) := by
  rw [requireCleanStack, verifyCleanStack]
  split_ifs <;> rfl

variable (cr flags checker)

theorem runRedeemScript_fst (scriptSig : CScript) (stackCopy : List Bytes) :
    (runRedeemScript cr flags checker scriptSig stackCopy).1 =
      haltResult (verifyP2SH cr flags checker scriptSig stackCopy) := by
  unfold runRedeemScript verifyP2SH
  by_cases hpush : isPushOnly scriptSig = true
  · simp only [hpush, Bool.not_true, Bool.false_eq_true, if_false]
    cases stackCopy with
    | nil => rfl
    | cons redeem stack =>
        dsimp only
        rw [(runScript_spec cr flags checker stack redeem).1]
        cases evalScript cr flags checker stack redeem with
        | error e => rfl
        | ok stack' =>
            dsimp only [haltResult, Bind.bind, Except.bind]
            rw [requireTrue_eq]
            cases checkTop stack' <;> rfl
  · simp [hpush, haltResult]

/-- `VerifyScript`, statement by statement, does what it should. -/
theorem runVerifyScript_fst (scriptSig scriptPubKey : CScript) :
    (runVerifyScript cr flags checker scriptSig scriptPubKey).1 =
      haltResult (verifyScript cr scriptSig scriptPubKey flags checker) := by
  unfold runVerifyScript verifyScript
  by_cases hsig : (hasFlag flags scriptVerifySigPushOnly && !isPushOnly scriptSig) = true
  · rw [if_pos hsig, if_pos hsig]
    rfl
  rw [if_neg hsig, if_neg hsig, (runScript_spec cr flags checker [] scriptSig).1]
  cases evalScript cr flags checker [] scriptSig with
  | error e => rfl
  | ok stack =>
      dsimp only [haltResult]
      rw [(runScript_spec cr flags checker stack scriptPubKey).1]
      cases evalScript cr flags checker stack scriptPubKey with
      | error e => rfl
      | ok stack' =>
          dsimp only [haltResult]
          rw [requireTrue_eq]
          cases checkTop stack' with
          | error e => rfl
          | ok u =>
              dsimp only [haltResult]
              by_cases hp2sh : (hasFlag flags scriptVerifyP2SH &&
                  isPayToScriptHash scriptPubKey) = true
              · have hflag : hasFlag flags scriptVerifyP2SH = true :=
                  (Bool.and_eq_true_iff.mp hp2sh).1
                rw [if_pos hp2sh, if_pos hp2sh, if_pos hflag]
                dsimp only
                rw [runRedeemScript_fst]
                cases verifyP2SH cr flags checker scriptSig stack with
                | error e => rfl
                | ok stack'' => exact requireCleanStack_eq stack''
              · rw [if_neg hp2sh, if_neg hp2sh]
                exact requireCleanStack_eq stack'

theorem haltResult_ne_outOfRange {α : Type} (x : Except Halt α) :
    haltResult x ≠ .error .outOfRange := by
  intro h
  cases x <;> cases h

/-- **Script evaluation is safe.** -/
theorem scripts_safe :
    (∀ (stack : List Bytes) (script : CScript), stack.length ≤ 1000 →
      (runScript cr flags checker stack script).1 ≠ .error .outOfRange ∧
      (runScript cr flags checker stack script).1 ≠ .error (.halt .asserts) ∧
      ∀ stack', (runScript cr flags checker stack script).1 = .ok stack' →
        (∃ st, Reaches cr flags checker (script, { stack, codeHash := script }) ([], st) ∧
          st.vfExec = [] ∧ st.stack = stack') ∧
        ∀ s st, Reaches cr flags checker (script, { stack, codeHash := script }) (s, st) →
          st.stack.length + st.altstack.length ≤ 1000) ∧
    ((hasFlag flags scriptVerifyCleanStack = true → hasFlag flags scriptVerifyP2SH = true) →
      ∀ scriptSig scriptPubKey : CScript,
        (runVerifyScript cr flags checker scriptSig scriptPubKey).1 ≠ .error .outOfRange ∧
        (runVerifyScript cr flags checker scriptSig scriptPubKey).1 ≠ .error (.halt .asserts)) := by
  refine ⟨?_, ?_⟩
  · intro stack script hstack
    have hspec := (runScript_spec cr flags checker stack script).1
    refine ⟨?_, ?_, ?_⟩
    · rw [hspec]
      exact haltResult_ne_outOfRange _
    · intro hc
      rw [hspec] at hc
      cases heval : evalScript cr flags checker stack script with
      | ok stack' =>
          rw [heval] at hc
          cases hc
      | error e =>
          obtain ⟨e', rfl⟩ := evalScript_fails cr flags checker heval
          rw [heval] at hc
          cases hc
    · intro stack' hok
      refine ⟨reaches_of_runScript hok, ?_⟩
      intro s st hreach
      exact stackLimit_of_reaches (show stack.length + 0 ≤ 1000 by omega) hreach
  · intro hflags scriptSig scriptPubKey
    rw [runVerifyScript_fst]
    refine ⟨haltResult_ne_outOfRange _, ?_⟩
    have hsafe := @verifyScript_ne_asserts cr flags checker hflags scriptSig scriptPubKey
    intro hc
    cases hverify : verifyScript cr scriptSig scriptPubKey flags checker with
    | ok u =>
        rw [hverify] at hc
        cases hc
    | error e =>
        rw [hverify] at hc
        obtain rfl : e = .asserts := by simpa [haltResult] using hc
        exact hsafe hverify

/-- Functions that are not called below. -/
def plainCrypto : Crypto where
  ripemd160 := id
  sha1 := id
  sha256 := id
  hash160 := id
  hash256 := id
  checkSignatureElement _ := false

/-- The top of two elements is doubled, and two scripts agree under the flags that need each
other. -/
theorem scripts_safe_double :
    (runScript plainCrypto 0 (fun _ _ _ => false) [[2], [3]] [0x76, 0x93]).1 = .ok [[4], [3]] ∧
    (∃ st, Reaches plainCrypto 0 (fun _ _ _ => false)
        ([0x76, 0x93], { stack := [[2], [3]], codeHash := [0x76, 0x93] }) ([], st) ∧
      st.vfExec = [] ∧ st.stack = [[4], [3]]) ∧
    (runVerifyScript plainCrypto (scriptVerifyP2SH ||| scriptVerifyCleanStack)
      (fun _ _ _ => false) [0x52] [0x52, 0x87]).1 ≠ .error .outOfRange := by
  have hrun : (runScript plainCrypto 0 (fun _ _ _ => false) [[2], [3]] [0x76, 0x93]).1 =
      .ok [[4], [3]] := by decide +kernel
  obtain ⟨-, -, hreached⟩ := (scripts_safe plainCrypto 0 fun _ _ _ => false).1 [[2], [3]]
    [0x76, 0x93] (by decide)
  have hverify := (scripts_safe plainCrypto (scriptVerifyP2SH ||| scriptVerifyCleanStack)
    fun _ _ _ => false).2 (fun _ => by decide) [0x52] [0x52, 0x87]
  exact ⟨hrun, (hreached _ hrun).1, hverify.1⟩

end Safety
end Hivemind
