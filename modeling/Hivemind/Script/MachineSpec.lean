import Hivemind.Script.InterpreterRun
import Hivemind.Script.Machine
import Mathlib.Tactic.IntervalCases

/-!
# No stack access goes wrong

Every case of the `switch`, written with its stack accesses, does what the operation of
`Hivemind.Script.Interpreter` does: the size tests in front of them are enough.  So no script
makes the interpreter reach outside of a stack or reach an assertion.

`Performs` is what is said of a piece of code: it ends as the operation says, with at most so
many calls of `CheckSig`.  It has a rule for each way to put pieces together, and a case of the
`switch` is gone through with these rules, statement by statement.  The matching loop of
`OP_CHECKMULTISIG` is the one piece that needs an invariant, since it reads signatures and keys
by indices that move while the stack stays as it is.

* `unarySwitch_eq`: the `switch` inside of a numeric operation has a case for each of its
  opcodes.
* `run_matchSigs`: the matching loop reads where the signatures and keys are.
* `performs_switchOp`: one operation.
* `performs_loopBody`: one pass of the loop.
-/

namespace Hivemind

open Codecs Machine

/-! ## Performing an operation -/

/-- A piece of code does what is said of it and stays inside of the stacks, and at the
end at most `bound` calls of `CheckSig` have been made. -/
def Performs (bound : Nat) (m : Machine Unit) (st : EvalState) (x : Except Halt EvalState) : Prop :=
  match m.run st with
  | (.ok (), st') => x = .ok st' ∧ st'.nCheckSig ≤ bound
  | (.error (.halt h), st') => x = .error h ∧ st'.nCheckSig ≤ bound
  | (.error .outOfRange, _) => False

namespace Performs

variable {α : Type} {bound : Nat} {st st' : EvalState} {x : Except Halt EvalState}

theorem fail {e : ScriptError} (h : st.nCheckSig ≤ bound) :
    Performs bound (Machine.fail e) st (.error (.fail e)) := ⟨rfl, h⟩

/-- One statement after the other. -/
theorem bind {m : Machine α} {f : α → Machine Unit} {a : α} (h : m.run st = (.ok a, st'))
    (hf : Performs bound (f a) st' x) : Performs bound (m >>= f) st x := by
  unfold Performs at hf ⊢
  rw [run_bind, h]
  exact hf

/-- A statement that stops. -/
theorem bind_halt {m : Machine α} {f : α → Machine Unit} {e : Halt}
    (h : m.run st = (.error (.halt e), st')) (hb : st'.nCheckSig ≤ bound) :
    Performs bound (m >>= f) st (.error e) := by
  unfold Performs
  rw [run_bind, h]
  exact ⟨rfl, hb⟩

/-- A function without access to the stack. -/
theorem bind_lift {y : Except Halt α} {f : α → Machine Unit} {g : α → Except Halt EvalState}
    (hb : st.nCheckSig ≤ bound) (hf : ∀ a, y = .ok a → Performs bound (f a) st (g a)) :
    Performs bound (lift y >>= f) st (y >>= g) := by
  cases y with
  | error h => exact bind_halt (run_lift_error st h) hb
  | ok a => exact bind (run_lift_ok st a) (hf a rfl)

theorem ite {c : Prop} [Decidable c] {m m' : Machine Unit} {x' : Except Halt EvalState}
    (h : c → Performs bound m st x) (h' : ¬ c → Performs bound m' st x') :
    Performs bound (if c then m else m') st (if c then x else x') := by
  by_cases hc : c
  · rw [if_pos hc, if_pos hc]
    exact h hc
  · rw [if_neg hc, if_neg hc]
    exact h' hc

end Performs

section Cases

variable (cr : Crypto) (flags : ScriptFlags) (checker : SignatureChecker) {bound : Nat}

/-- `CScriptNum` of an element that is there. -/
theorem Performs.bind_numTop {st : EvalState} {i : Int} {vch : Bytes} {f : Int → Machine Unit}
    {g : Int → Except Halt EvalState} (hb : st.nCheckSig ≤ bound)
    (htop : stackAt st.stack i = some vch)
    (hf : ∀ n, scriptNum (hasFlag flags scriptVerifyMinimalData) vch = .ok n →
      Performs bound (f n) st (g n)) :
    Performs bound (numTop flags i >>= f) st
      (scriptNum (hasFlag flags scriptVerifyMinimalData) vch >>= g) := by
  have hrun : (numTop flags i).run st =
      (lift (scriptNum (hasFlag flags scriptVerifyMinimalData) vch)).run st := by
    rw [numTop, run_bind, run_stackTop htop]
  cases hn : scriptNum (hasFlag flags scriptVerifyMinimalData) vch with
  | error h =>
      rw [hn, run_lift_error] at hrun
      exact bind_halt hrun hb
  | ok n =>
      rw [hn, run_lift_ok] at hrun
      exact bind hrun (hf n hn)

/-! ## Stack operations -/

/-- `OP_PICK` and `OP_ROLL`: the index is tested against the stack it is used on. -/
theorem performs_casePickOrRoll (roll : Bool) {st : EvalState} (hb : st.nCheckSig ≤ bound) :
    Performs bound (casePickOrRoll flags roll) st
      ((pickOrRoll (hasFlag flags scriptVerifyMinimalData) roll st.stack).map fun s =>
        { st with stack := s }) := by
  obtain ⟨stack, altstack, vfExec, nOpCount, codeHash, nCheckSig⟩ := st
  match stack with
  | [] | [_] => exact ⟨rfl, hb⟩
  | top :: x :: s =>
      have hmap : ∀ y : Except Halt Int, (y >>= fun v => if getInt v < 0 ∨
            ((x :: s).length : Int) ≤ getInt v then invalidStack else
              .ok ((x :: s).getD (getInt v).toNat [] ::
                (if roll then (x :: s).eraseIdx (getInt v).toNat else x :: s))).map
            (fun s => (⟨s, altstack, vfExec, nOpCount, codeHash, nCheckSig⟩ : EvalState)) =
          y >>= fun v => if getInt v < 0 ∨ ((x :: s).length : Int) ≤ getInt v then invalidStack
            else .ok ⟨(x :: s).getD (getInt v).toNat [] ::
              (if roll then (x :: s).eraseIdx (getInt v).toNat else x :: s),
              altstack, vfExec, nOpCount, codeHash, nCheckSig⟩ := by
        intro y
        cases y with
        | error h => rfl
        | ok v =>
            simp only [Bind.bind, Except.bind]
            split_ifs <;> rfl
      refine (hmap _).symm ▸ ?_
      refine Performs.bind (a := ()) rfl (Performs.bind_numTop flags hb rfl fun v _ => ?_)
      refine Performs.bind (a := ()) rfl (Performs.bind (run_get _) ?_)
      refine Performs.ite (fun _ => Performs.fail hb) fun hrange => ?_
      replace hrange : ¬ (getInt v < 0 ∨ ((x :: s).length : Int) ≤ getInt v) := hrange
      -- the element is there, since its index was tested
      have hnn : 0 ≤ getInt v := by omega
      have hlt : (getInt v).toNat < (x :: s).length := by
        have := Int.toNat_of_nonneg hnn
        omega
      have htop : stackAt (x :: s) (-getInt v - 1) = some ((x :: s).getD (getInt v).toNat []) := by
        have hidx : (-(-getInt v - 1)).toNat - 1 = (getInt v).toNat := by omega
        rw [stackAt, if_neg (by omega), hidx, List.getD_eq_getElem?_getD,
          List.getElem?_eq_getElem hlt]
        rfl
      refine Performs.bind (run_stackTop htop) ?_
      cases roll with
      | false => exact ⟨rfl, hb⟩
      | true =>
          have herase : (eraseAt ((getInt v).toNat + 1)).run
              ⟨x :: s, altstack, vfExec, nOpCount, codeHash, nCheckSig⟩ =
              (.ok (), ⟨(x :: s).eraseIdx (getInt v).toNat, altstack, vfExec, nOpCount, codeHash,
                nCheckSig⟩) := by
            rw [List.eraseIdx_eq_take_drop_succ]
            exact if_pos hlt
          exact Performs.bind herase ⟨rfl, hb⟩

theorem performs_caseStackOp (op : StackOp) {st : EvalState} (hb : st.nCheckSig ≤ bound) :
    Performs bound (caseStackOp flags op) st (do
      let (stack, altstack) ←
        execStackOp (hasFlag flags scriptVerifyMinimalData) op st.stack st.altstack
      return { st with stack, altstack }) := by
  have hpick := fun roll => performs_casePickOrRoll flags roll hb
  obtain ⟨stack, altstack, vfExec, nOpCount, codeHash, nCheckSig⟩ := st
  cases op with
  | toAltStack =>
      match stack with
      | [] => exact ⟨rfl, hb⟩
      | x :: s => exact ⟨rfl, hb⟩
  | fromAltStack =>
      match altstack with
      | [] => exact ⟨rfl, hb⟩
      | x :: a => exact ⟨rfl, hb⟩
  | drop2 =>
      match stack with
      | [] | [_] => exact ⟨rfl, hb⟩
      | x2 :: x1 :: s => exact ⟨rfl, hb⟩
  | dup2 =>
      match stack with
      | [] | [_] => exact ⟨rfl, hb⟩
      | x2 :: x1 :: s => exact ⟨rfl, hb⟩
  | dup3 =>
      match stack with
      | [] | [_] | [_, _] => exact ⟨rfl, hb⟩
      | x3 :: x2 :: x1 :: s => exact ⟨rfl, hb⟩
  | over2 =>
      match stack with
      | [] | [_] | [_, _] | [_, _, _] => exact ⟨rfl, hb⟩
      | x4 :: x3 :: x2 :: x1 :: s => exact ⟨rfl, hb⟩
  | rot2 =>
      match stack with
      | [] | [_] | [_, _] | [_, _, _] | [_, _, _, _] | [_, _, _, _, _] => exact ⟨rfl, hb⟩
      | x6 :: x5 :: x4 :: x3 :: x2 :: x1 :: s => exact ⟨rfl, hb⟩
  | swap2 =>
      match stack with
      | [] | [_] | [_, _] | [_, _, _] => exact ⟨rfl, hb⟩
      | x4 :: x3 :: x2 :: x1 :: s => exact ⟨rfl, hb⟩
  | ifDup =>
      match stack with
      | [] => exact ⟨rfl, hb⟩
      | x :: s =>
          refine Performs.bind (a := ()) rfl (Performs.bind (a := x) rfl ?_)
          show Performs bound _ _ (.ok ⟨if castToBool x then x :: x :: s else x :: s, _, _, _, _, _⟩)
          by_cases hx : castToBool x = true
          · rw [if_pos hx, if_pos hx]
            exact ⟨rfl, hb⟩
          · rw [if_neg hx, if_neg hx]
            exact ⟨rfl, hb⟩
  | depth => exact ⟨rfl, hb⟩
  | drop =>
      match stack with
      | [] => exact ⟨rfl, hb⟩
      | x :: s => exact ⟨rfl, hb⟩
  | dup =>
      match stack with
      | [] => exact ⟨rfl, hb⟩
      | x :: s => exact ⟨rfl, hb⟩
  | nip =>
      match stack with
      | [] | [_] => exact ⟨rfl, hb⟩
      | x2 :: x1 :: s => exact ⟨rfl, hb⟩
  | «over» =>
      match stack with
      | [] | [_] => exact ⟨rfl, hb⟩
      | x2 :: x1 :: s => exact ⟨rfl, hb⟩
  | pick =>
      have hperforms := hpick false
      revert hperforms
      show Performs _ _ _ ((pickOrRoll _ false stack).map _) → Performs _ _ _
        ((pickOrRoll _ false stack).map (fun s => (s, altstack)) >>= _)
      cases pickOrRoll (hasFlag flags scriptVerifyMinimalData) false stack <;> exact id
  | roll =>
      have hperforms := hpick true
      revert hperforms
      show Performs _ _ _ ((pickOrRoll _ true stack).map _) → Performs _ _ _
        ((pickOrRoll _ true stack).map (fun s => (s, altstack)) >>= _)
      cases pickOrRoll (hasFlag flags scriptVerifyMinimalData) true stack <;> exact id
  | rot =>
      match stack with
      | [] | [_] | [_, _] => exact ⟨rfl, hb⟩
      | x3 :: x2 :: x1 :: s => exact ⟨rfl, hb⟩
  | swap =>
      match stack with
      | [] | [_] => exact ⟨rfl, hb⟩
      | x2 :: x1 :: s => exact ⟨rfl, hb⟩
  | tuck =>
      match stack with
      | [] | [_] => exact ⟨rfl, hb⟩
      | x2 :: x1 :: s => exact ⟨rfl, hb⟩

/-! ## Numbers -/

/-- The `switch` inside of a numeric operation has a case for each of its opcodes. -/
theorem unarySwitch_eq {opcode : UInt8} {op : UnaryOp} (h : operation opcode = .unary op)
    (bn : Int) : unarySwitch opcode bn = execUnary op bn := by
  unfold operation at h
  unfold unarySwitch
  split at h <;> rename_i hop <;> try split_ifs at h
  all_goals
    simp only [Operation.unary.injEq, reduceCtorEq] at h
  all_goals
    subst h
    rw [hop]
    rfl

theorem binarySwitch_eq {opcode : UInt8} {op : BinaryOp} (h : operation opcode = .binary op)
    (bn1 bn2 : Int) : binarySwitch opcode bn1 bn2 = .ok (execBinary op bn1 bn2) ∧
      (opcode = opNumEqualVerify ↔ op = .numEqualVerify) := by
  have hverify : opcode = opNumEqualVerify ↔ opcode.toNat = 0x9d := UInt8.toNat_inj.symm
  rw [hverify]
  unfold operation at h
  unfold binarySwitch
  split at h <;> rename_i hop <;> try split_ifs at h
  all_goals
    simp only [Operation.binary.injEq, reduceCtorEq] at h
  all_goals
    subst h
    rw [hop]
    exact ⟨rfl, by decide⟩

theorem performs_caseUnary {opcode : UInt8} {op : UnaryOp} (h : operation opcode = .unary op)
    {st : EvalState} (hb : st.nCheckSig ≤ bound) (fExec : Bool) (rest : CScript) :
    Performs bound (caseUnary flags opcode) st
      (execOp cr flags checker fExec rest st (.unary op)) := by
  obtain ⟨stack, altstack, vfExec, nOpCount, codeHash, nCheckSig⟩ := st
  match stack with
  | [] => exact ⟨rfl, hb⟩
  | x :: s =>
      refine Performs.bind (a := ()) rfl (Performs.bind_numTop flags hb rfl fun bn _ => ?_)
      rw [unarySwitch_eq h]
      exact Performs.bind_lift hb fun bn' _ => ⟨rfl, hb⟩

theorem performs_caseBinary {opcode : UInt8} {op : BinaryOp} (h : operation opcode = .binary op)
    {st : EvalState} (hb : st.nCheckSig ≤ bound) (fExec : Bool) (rest : CScript) :
    Performs bound (caseBinary flags opcode) st
      (execOp cr flags checker fExec rest st (.binary op)) := by
  obtain ⟨stack, altstack, vfExec, nOpCount, codeHash, nCheckSig⟩ := st
  match stack with
  | [] | [_] => exact ⟨rfl, hb⟩
  | x2 :: x1 :: s =>
      refine Performs.bind (a := ()) rfl (Performs.bind_numTop flags hb rfl fun bn1 _ => ?_)
      refine Performs.bind_numTop flags hb rfl fun bn2 _ => ?_
      obtain ⟨hswitch, hverify⟩ := binarySwitch_eq h bn1 bn2
      rw [hswitch]
      refine Performs.bind (run_lift_ok _ _) ?_
      refine Performs.bind (a := ()) rfl (Performs.bind (a := ()) rfl (Performs.bind (a := ()) rfl ?_))
      by_cases hop : op = .numEqualVerify
      · rw [if_pos (hverify.mpr hop), if_pos hop]
        refine Performs.bind (a := serializeNum (execBinary op bn1 bn2)) rfl ?_
        exact Performs.ite (fun _ => ⟨rfl, hb⟩) fun _ => Performs.fail hb
      · rw [if_neg (fun hc => hop (hverify.mp hc)), if_neg hop]
        exact ⟨rfl, hb⟩

theorem performs_caseWithin {st : EvalState} (hb : st.nCheckSig ≤ bound) (fExec : Bool)
    (rest : CScript) :
    Performs bound (caseWithin flags) st (execOp cr flags checker fExec rest st .within) := by
  obtain ⟨stack, altstack, vfExec, nOpCount, codeHash, nCheckSig⟩ := st
  match stack with
  | [] | [_] | [_, _] => exact ⟨rfl, hb⟩
  | x3 :: x2 :: x1 :: s =>
      refine Performs.bind (a := ()) rfl (Performs.bind_numTop flags hb rfl fun bn1 _ => ?_)
      refine Performs.bind_numTop flags hb rfl fun bn2 _ => ?_
      exact Performs.bind_numTop flags hb rfl fun bn3 _ => ⟨rfl, hb⟩

/-! ## Signatures -/

/-- The end of the `...VERIFY` operations. -/
theorem performs_verifyTail (verify fSuccess : Bool) (e : ScriptError) {st : EvalState}
    (s : List Bytes) (hs : st.stack = boolBytes fSuccess :: s) (hb : st.nCheckSig ≤ bound) :
    Performs bound (verifyTail verify fSuccess e) st (do
      let stack ← pushOrVerify verify e fSuccess s
      return { st with stack }) := by
  obtain ⟨stack, altstack, vfExec, nOpCount, codeHash, nCheckSig⟩ := st
  obtain rfl : stack = boolBytes fSuccess :: s := hs
  cases verify with
  | false => exact ⟨rfl, hb⟩
  | true =>
      cases fSuccess with
      | true => exact ⟨rfl, hb⟩
      | false => exact ⟨rfl, hb⟩

theorem performs_caseEqual (verify : Bool) {st : EvalState} (hb : st.nCheckSig ≤ bound)
    (fExec : Bool) (rest : CScript) :
    Performs bound (caseEqual verify) st
      (execOp cr flags checker fExec rest st (.equal verify)) := by
  obtain ⟨stack, altstack, vfExec, nOpCount, codeHash, nCheckSig⟩ := st
  match stack with
  | [] | [_] => exact ⟨rfl, hb⟩
  | x2 :: x1 :: s =>
      refine Performs.bind (a := ()) rfl (Performs.bind (a := x1) rfl (Performs.bind (a := x2) rfl ?_))
      refine Performs.bind (a := ()) rfl (Performs.bind (a := ()) rfl (Performs.bind (a := ()) rfl ?_))
      exact performs_verifyTail verify (x1 == x2) .equalVerify s rfl hb

theorem performs_caseCheckSig (verify : Bool) {st : EvalState} (hb : st.nCheckSig + 1 ≤ bound)
    (fExec : Bool) (rest : CScript) :
    Performs bound (caseCheckSig cr flags checker verify) st
      (execOp cr flags checker fExec rest st (.checkSig verify)) := by
  obtain ⟨stack, altstack, vfExec, nOpCount, codeHash, nCheckSig⟩ := st
  have hb' : nCheckSig ≤ bound := Nat.le_of_succ_le hb
  match stack with
  | [] | [_] => exact ⟨rfl, hb'⟩
  | x2 :: x1 :: s =>
      refine Performs.bind (a := ()) rfl (Performs.bind (a := x1) rfl (Performs.bind (a := x2) rfl ?_))
      refine Performs.bind (run_get _) ?_
      refine Performs.bind_lift hb' fun _ _ => Performs.bind_lift hb' fun _ _ => ?_
      refine Performs.bind (run_checkSig ..) ?_
      refine Performs.bind (a := ()) rfl (Performs.bind (a := ()) rfl (Performs.bind (a := ()) rfl ?_))
      exact performs_verifyTail verify _ .checkSigVerify s rfl hb

/-! ## Several signatures -/

theorem stackAt_of_drop {stack l : List Bytes} {k : Nat} {vch : Bytes}
    (h : stack.drop k = vch :: l) : stackAt stack (-((k + 1 : Nat) : Int)) = some vch := by
  rw [stackAt_neg (Nat.succ_pos k)]
  show stack[k]? = some vch
  rw [← List.head?_drop, h]
  rfl

theorem drop_succ_of_drop {stack l : List Bytes} {k : Nat} {vch : Bytes}
    (h : stack.drop k = vch :: l) : stack.drop (k + 1) = l := by
  rw [← List.drop_drop, h]
  rfl

theorem run_deleteSigs {st : EvalState} {sigs tail : List Bytes} {k : Nat}
    (h : st.stack.drop k = sigs ++ tail) (scriptCode : CScript) :
    (deleteSigs (k + 1) sigs.length scriptCode).run st =
      (.ok (sigs.foldl (fun code sig => findAndDelete (pushData sig) code) scriptCode), st) := by
  induction sigs generalizing k scriptCode with
  | nil => rfl
  | cons sig sigs ih =>
      rw [List.length_cons, deleteSigs, run_bind, run_stackTop (stackAt_of_drop h)]
      exact ih (drop_succ_of_drop h) _

theorem run_popMany {st : EvalState} {n : Nat} (h : n ≤ st.stack.length) :
    (popMany n).run st = (.ok (), { st with stack := st.stack.drop n }) := by
  induction n generalizing st with
  | zero => rfl
  | succ n ih =>
      obtain ⟨stack, altstack, vfExec, nOpCount, codeHash, nCheckSig⟩ := st
      cases stack with
      | nil => simp at h
      | cons x s =>
          have hpop : popStack.run ⟨x :: s, altstack, vfExec, nOpCount, codeHash, nCheckSig⟩ =
              (.ok (), ⟨s, altstack, vfExec, nOpCount, codeHash, nCheckSig⟩) := rfl
          rw [popMany, run_bind, hpop]
          exact ih (Nat.le_of_succ_le_succ h)

/-- What the matching loop leaves for a result of the loop over lists. -/
def matchResult : Except Halt (Bool × Nat) → Except EvalFault Bool
  | .ok (fSuccess, _) => .ok fSuccess
  | .error h => .error (.halt h)

theorem multiSigLoop_cons (scriptCode : CScript) {sig key : Bytes} {sigs keys : List Bytes}
    (hsig : checkSignatureEncoding cr flags sig = .ok ())
    (hkey : checkPubKeyEncoding flags key = .ok ()) :
    multiSigLoop cr flags checker scriptCode (sig :: sigs) (key :: keys) =
      if keys.length < (if checker sig key scriptCode then sigs else sig :: sigs).length then
        .ok (false, 1)
      else (multiSigLoop cr flags checker scriptCode
        (if checker sig key scriptCode then sigs else sig :: sigs) keys).map fun p =>
          (p.1, p.2 + 1) := by
  rw [multiSigLoop, hsig, hkey]
  simp only [Bind.bind, Except.bind, pure, Except.pure]
  generalize (if checker sig key scriptCode = true then sigs else sig :: sigs) = left
  by_cases h : keys.length < left.length
  · rw [if_pos h, if_pos h]
  · rw [if_neg h, if_neg h]
    cases multiSigLoop cr flags checker scriptCode left keys <;> rfl

/-- One pass of the matching loop, when both encodings are fine. -/
theorem run_matchSigs_cons (scriptCode : CScript) {st : EvalState} {sig key : Bytes}
    {sigs keys : List Bytes} {k j : Nat} (hsigs : st.stack.drop k = sig :: sigs)
    (hkeys : st.stack.drop j = key :: keys) (hsig : checkSignatureEncoding cr flags sig = .ok ())
    (hkey : checkPubKeyEncoding flags key = .ok ()) (nSigs nKeys : Nat) :
    (matchSigs cr flags checker scriptCode (k + 1) (j + 1) (nSigs + 1 : Nat) (nKeys + 1 : Nat)).run
      st =
    if nKeys < (if checker sig key scriptCode then nSigs else nSigs + 1) then
      (.ok false, { st with nCheckSig := st.nCheckSig + 1 })
    else
      (matchSigs cr flags checker scriptCode
        ((if checker sig key scriptCode then k + 1 else k) + 1) (j + 1 + 1)
        (if checker sig key scriptCode then nSigs else nSigs + 1 : Nat) nKeys).run
          { st with nCheckSig := st.nCheckSig + 1 } := by
  rw [matchSigs, if_pos (by omega), run_bind, run_stackTop (stackAt_of_drop hsigs)]
  dsimp only
  rw [run_bind, run_stackTop (stackAt_of_drop hkeys)]
  dsimp only
  rw [hsig, hkey]
  simp only [run_bind, run_lift_ok, run_checkSig]
  cases checker sig key scriptCode with
  | false =>
      simp only [Bool.false_eq_true, if_false]
      by_cases h : nKeys < nSigs + 1
      · rw [if_pos (by omega), if_pos h]
        rfl
      · rw [if_neg (by omega), if_neg h]
        congr 2
        omega
  | true =>
      simp only [if_true]
      by_cases h : nKeys < nSigs
      · rw [if_pos (by omega), if_pos h]
        rfl
      · rw [if_neg (by omega), if_neg h]
        congr 2 <;> omega

/-- **The matching loop** reads signatures and keys from where they are on the stack,
and asks the checker at most once for each key. -/
theorem run_matchSigs (scriptCode : CScript) {st : EvalState} {sigs keys tail tail' : List Bytes}
    {k j : Nat} (hsigs : st.stack.drop k = sigs ++ tail) (hkeys : st.stack.drop j = keys ++ tail')
    (hle : sigs.length ≤ keys.length) :
    ∃ n ≤ keys.length,
      (matchSigs cr flags checker scriptCode (k + 1) (j + 1) sigs.length keys.length).run st =
        (matchResult (multiSigLoop cr flags checker scriptCode sigs keys),
          { st with nCheckSig := st.nCheckSig + n }) ∧
      ∀ fSuccess m, multiSigLoop cr flags checker scriptCode sigs keys = .ok (fSuccess, m) →
        m = n := by
  induction keys generalizing sigs k j st with
  | nil =>
      obtain rfl : sigs = [] := List.length_eq_zero_iff.mp (Nat.le_zero.mp hle)
      refine ⟨0, Nat.le_refl 0, ?_, ?_⟩
      · rw [matchSigs]
        rfl
      · intro fSuccess m h
        simp only [multiSigLoop, Except.ok.injEq, Prod.mk.injEq] at h
        exact h.2.symm
  | cons key keys ih =>
      cases sigs with
      | nil =>
          refine ⟨0, Nat.zero_le _, ?_, ?_⟩
          · rw [matchSigs]
            rfl
          · intro fSuccess m h
            simp only [multiSigLoop, Except.ok.injEq, Prod.mk.injEq] at h
            exact h.2.symm
      | cons sig sigs =>
          -- an encoding that is not accepted ends the loop before the call
          have hstop : ∀ h, multiSigLoop cr flags checker scriptCode (sig :: sigs) (key :: keys) =
              .error h → (matchSigs cr flags checker scriptCode (k + 1) (j + 1)
                (sig :: sigs).length (key :: keys).length).run st = (.error (.halt h), st) →
              ∃ n ≤ (key :: keys).length, (matchSigs cr flags checker scriptCode (k + 1) (j + 1)
                (sig :: sigs).length (key :: keys).length).run st =
                (matchResult (multiSigLoop cr flags checker scriptCode (sig :: sigs) (key :: keys)),
                  { st with nCheckSig := st.nCheckSig + n }) ∧
                ∀ fSuccess m, multiSigLoop cr flags checker scriptCode (sig :: sigs) (key :: keys) =
                  .ok (fSuccess, m) → m = n := by
            intro h hloop hrun
            refine ⟨0, Nat.zero_le _, by rw [hloop, hrun]; rfl, ?_⟩
            intro fSuccess m hc
            rw [hloop] at hc
            cases hc
          have hpos : (0 : Int) < ((sig :: sigs).length : Nat) := by simp
          cases hsig : checkSignatureEncoding cr flags sig with
          | error h =>
              refine hstop h (by rw [multiSigLoop, hsig]; rfl) ?_
              rw [matchSigs, if_pos hpos, run_bind, run_stackTop (stackAt_of_drop hsigs)]
              dsimp only
              rw [run_bind, run_stackTop (stackAt_of_drop hkeys), hsig]
              rfl
          | ok u =>
              cases hkey : checkPubKeyEncoding flags key with
              | error h =>
                  refine hstop h (by rw [multiSigLoop, hsig, hkey]; rfl) ?_
                  rw [matchSigs, if_pos hpos, run_bind, run_stackTop (stackAt_of_drop hsigs)]
                  dsimp only
                  rw [run_bind, run_stackTop (stackAt_of_drop hkeys)]
                  dsimp only
                  rw [hsig, hkey]
                  rfl
              | ok v =>
                  have hkeys' := drop_succ_of_drop hkeys
                  rw [List.length_cons, List.length_cons, run_matchSigs_cons cr flags checker
                    scriptCode hsigs hkeys hsig hkey, multiSigLoop_cons cr flags checker scriptCode
                    hsig hkey]
                  -- the call counts, and the rest is as before with the signatures that are left
                  have hrest : ∀ (left : List Bytes) (k' : Nat),
                      st.stack.drop k' = left ++ tail → left.length ≤ keys.length →
                      ∃ n ≤ (key :: keys).length, (matchSigs cr flags checker scriptCode (k' + 1)
                        (j + 1 + 1) left.length keys.length).run
                          { st with nCheckSig := st.nCheckSig + 1 } =
                        (matchResult ((multiSigLoop cr flags checker scriptCode left keys).map
                          fun p => (p.1, p.2 + 1)), { st with nCheckSig := st.nCheckSig + n }) ∧
                        ∀ fSuccess m, (multiSigLoop cr flags checker scriptCode left keys).map
                          (fun p => (p.1, p.2 + 1)) = .ok (fSuccess, m) → m = n := by
                    intro left k' hleft hlen
                    obtain ⟨n, hn, hrun, hcount⟩ := @ih { st with
                      nCheckSig := st.nCheckSig + 1 } _ _ _ hleft hkeys' hlen
                    refine ⟨n + 1, Nat.succ_le_succ hn, ?_, ?_⟩
                    · rw [hrun, Nat.add_right_comm, Nat.add_assoc]
                      cases multiSigLoop cr flags checker scriptCode left keys <;> rfl
                    · intro fSuccess m h
                      cases hloop : multiSigLoop cr flags checker scriptCode left keys with
                      | error e => simp [hloop, Except.map] at h
                      | ok p =>
                          simp only [hloop, Except.map, Except.ok.injEq, Prod.mk.injEq] at h
                          rw [← h.2, hcount p.1 p.2 hloop]
                  cases checker sig key scriptCode with
                  | true =>
                      have hlen : sigs.length ≤ keys.length := Nat.le_of_succ_le_succ hle
                      simp only [if_true, if_neg (Nat.not_lt.mpr hlen)]
                      exact hrest sigs (k + 1) (drop_succ_of_drop hsigs) hlen
                  | false =>
                      simp only [Bool.false_eq_true, if_false]
                      by_cases hlen : keys.length < sigs.length + 1
                      · rw [if_pos hlen, if_pos (by simpa using hlen)]
                        refine ⟨1, by simp, rfl, ?_⟩
                        intro fSuccess m h
                        simp only [Except.ok.injEq, Prod.mk.injEq] at h
                        exact h.2.symm
                      · rw [if_neg hlen, if_neg (by simpa using hlen)]
                        exact hrest (sig :: sigs) k hsigs (by simpa using hlen)

/-- The number of keys that `OP_CHECKMULTISIG` finds on top of the stack, when it does
not refuse it. -/
def keysOnTop (st : EvalState) : Nat :=
  match st.stack with
  | [] => 0
  | top :: _ => match scriptNum (hasFlag flags scriptVerifyMinimalData) top with
    | .error _ => 0
    | .ok n => if getInt n < 0 ∨ 20 < getInt n then 0 else (getInt n).toNat

/-- The stack of `OP_CHECKMULTISIG`, cut where its arguments are. -/
theorem multiSig_layout {top count dummy : Bytes} {s s' bottom : List Bytes} {nKeys nSigs : Nat}
    (hdrop : s.drop nKeys = count :: s') (hdrop' : s'.drop nSigs = dummy :: bottom) :
    (top :: s).drop 1 = s.take nKeys ++ count :: s' ∧ (s.take nKeys).length = nKeys ∧
    (top :: s).drop (2 + nKeys) = s'.take nSigs ++ dummy :: bottom ∧
    (s'.take nSigs).length = nSigs ∧ 3 + nKeys + nSigs ≤ (top :: s).length ∧
    (top :: s).drop (2 + nKeys + nSigs) = dummy :: bottom := by
  have hlen := congrArg List.length hdrop
  have hlen' := congrArg List.length hdrop'
  simp only [List.length_drop, List.length_cons] at hlen hlen'
  have hs' : (top :: s).drop (2 + nKeys) = s' := by
    rw [show 2 + nKeys = nKeys + 1 + 1 by omega, List.drop_succ_cons, ← List.drop_drop, hdrop]
    rfl
  refine ⟨?_, by simp; omega, ?_, by simp; omega, by simp; omega, ?_⟩
  · rw [← hdrop, List.take_append_drop]
    rfl
  · rw [hs', ← hdrop', List.take_append_drop]
  · rw [← List.drop_drop, hs', hdrop']

theorem performs_caseCheckMultiSig (verify : Bool) {st : EvalState}
    (hb : st.nCheckSig + keysOnTop flags st ≤ bound) :
    Performs bound (caseCheckMultiSig cr flags checker verify) st
      (execCheckMultiSig cr flags checker verify st) := by
  obtain ⟨stack, altstack, vfExec, nOpCount, codeHash, nCheckSig⟩ := st
  have hb' : nCheckSig ≤ bound := Nat.le_of_add_right_le hb
  match stack with
  | [] => exact ⟨rfl, hb'⟩
  | top :: s =>
      refine Performs.bind (a := ()) rfl (Performs.bind_numTop flags hb' rfl fun v hv => ?_)
      refine Performs.ite (fun _ => Performs.fail hb') fun hrange => ?_
      have hbkeys : nCheckSig + (getInt v).toNat ≤ bound := by
        simpa only [keysOnTop, hv, if_neg hrange] using hb
      refine Performs.bind (run_modify ..) (Performs.bind (run_get _) ?_)
      refine Performs.ite (fun _ => Performs.fail hb') fun hcount => ?_
      dsimp only
      cases hdrop : s.drop (getInt v).toNat with
      | nil =>
          have hlen : s.length ≤ (getInt v).toNat := List.drop_eq_nil_iff.mp hdrop
          refine Performs.bind_halt (run_requireStack_of_lt ?_) hb'
          show s.length + 1 < 2 + (getInt v).toNat
          omega
      | cons count s' =>
          have hlen := congrArg List.length hdrop
          simp only [List.length_drop, List.length_cons] at hlen
          have htop : stackAt (top :: s) (-((2 + (getInt v).toNat : Nat) : Int)) = some count := by
            rw [show 2 + (getInt v).toNat = (getInt v).toNat + 1 + 1 by omega]
            exact stackAt_of_drop hdrop
          refine Performs.bind (run_requireStack_of_le ?_)
            (Performs.bind_numTop flags hb' htop fun w hw => ?_)
          · show 2 + (getInt v).toNat ≤ s.length + 1
            omega
          refine Performs.ite (fun _ => Performs.fail hb') fun hsrange => ?_
          cases hdrop' : s'.drop (getInt w).toNat with
          | nil =>
              have hlen' : s'.length ≤ (getInt w).toNat := List.drop_eq_nil_iff.mp hdrop'
              refine Performs.bind_halt (run_requireStack_of_lt ?_) hb'
              show s.length + 1 < 2 + (getInt v).toNat + 1 + (getInt w).toNat
              omega
          | cons dummy bottom =>
              obtain ⟨hkeys, hnkeys, hsigs, hnsigs, hsize, hrest⟩ :=
                @multiSig_layout top _ _ _ _ _ _ _ hdrop hdrop'
              have hsize' : 2 + (getInt v).toNat + 1 + (getInt w).toNat ≤ (top :: s).length := by
                omega
              refine Performs.bind (run_requireStack_of_le hsize') (Performs.bind (run_get _) ?_)
              have hdelete := @run_deleteSigs
                ⟨top :: s, altstack, vfExec, nOpCount + (getInt v).toNat, codeHash, nCheckSig⟩
                _ _ _ hsigs codeHash
              rw [hnsigs] at hdelete
              refine Performs.bind hdelete ?_
              have hcastkeys : getInt v = ((s.take (getInt v).toNat).length : Nat) := by
                rw [hnkeys]
                omega
              have hcastsigs : getInt w = ((s'.take (getInt w).toNat).length : Nat) := by
                rw [hnsigs]
                omega
              have hle : (s'.take (getInt w).toNat).length ≤ (s.take (getInt v).toNat).length := by
                omega
              obtain ⟨n, hn, hrun, hcalls⟩ := @run_matchSigs cr flags checker
                ((s'.take (getInt w).toNat).foldl
                  (fun code sig => findAndDelete (pushData sig) code) codeHash)
                ⟨top :: s, altstack, vfExec, nOpCount + (getInt v).toNat, codeHash, nCheckSig⟩
                _ _ _ _ _ _ hsigs hkeys hle
              rw [← hcastkeys, ← hcastsigs] at hrun
              rw [hnkeys] at hn
              have hbn : nCheckSig + n ≤ bound := by omega
              dsimp only
              cases hloop : multiSigLoop cr flags checker ((s'.take (getInt w).toNat).foldl
                  (fun code sig => findAndDelete (pushData sig) code) codeHash)
                  (s'.take (getInt w).toNat) (s.take (getInt v).toNat) with
              | error h =>
                  rw [hloop] at hrun
                  exact Performs.bind_halt hrun hbn
              | ok p =>
                  obtain ⟨fSuccess, m⟩ := p
                  obtain rfl := hcalls fSuccess m hloop
                  rw [hloop] at hrun
                  refine Performs.bind hrun ?_
                  -- the arguments go, down to the one that is taken too much
                  refine Performs.bind (run_popMany (Nat.le_trans (Nat.sub_le _ 1) hsize')) ?_
                  have hpops : 2 + (getInt v).toNat + 1 + (getInt w).toNat - 1 =
                      2 + (getInt v).toNat + (getInt w).toNat := by omega
                  rw [hpops]
                  dsimp only
                  rw [hrest]
                  refine Performs.bind (a := ()) rfl (Performs.bind (a := dummy) rfl ?_)
                  refine Performs.ite (fun _ => Performs.fail hbn) fun _ => ?_
                  refine Performs.bind (a := ()) rfl (Performs.bind (a := ()) rfl ?_)
                  exact performs_verifyTail verify fSuccess .checkMultiSigVerify bottom rfl hbn

/-! ## The `switch` and the loop body -/

/-- How often an operation may call `CheckSig`. -/
def callsOf (st : EvalState) : Operation → Nat
  | .checkSig _ => 1
  | .checkMultiSig _ => keysOnTop flags st
  | _ => 0

/-- **One operation**: each case of the `switch` does what its operation says. -/
theorem performs_switchOp (fExec : Bool) (rest : CScript) (opcode : UInt8) {st : EvalState}
    (hb : st.nCheckSig + callsOf flags st (operation opcode) ≤ bound) :
    Performs bound (switchOp cr flags checker fExec rest opcode) st
      (execOp cr flags checker fExec rest st (operation opcode)) := by
  have hb' : st.nCheckSig ≤ bound := Nat.le_of_add_right_le hb
  unfold switchOp
  cases hop : operation opcode with
  | number n => exact ⟨rfl, hb'⟩
  | nop => exact ⟨rfl, hb'⟩
  | upgradableNop => exact Performs.ite (fun _ => Performs.fail hb') fun _ => ⟨rfl, hb'⟩
  | cond negated =>
      obtain ⟨stack, altstack, vfExec, nOpCount, codeHash, nCheckSig⟩ := st
      cases fExec with
      | false => exact ⟨rfl, hb'⟩
      | true =>
          match stack with
          | [] => exact ⟨rfl, hb'⟩
          | x :: s => exact ⟨rfl, hb'⟩
  | else_ =>
      obtain ⟨stack, altstack, vfExec, nOpCount, codeHash, nCheckSig⟩ := st
      match vfExec with
      | [] => exact ⟨rfl, hb'⟩
      | b :: bs => exact ⟨rfl, hb'⟩
  | endIf =>
      obtain ⟨stack, altstack, vfExec, nOpCount, codeHash, nCheckSig⟩ := st
      match vfExec with
      | [] => exact ⟨rfl, hb'⟩
      | b :: bs => exact ⟨rfl, hb'⟩
  | verify =>
      obtain ⟨stack, altstack, vfExec, nOpCount, codeHash, nCheckSig⟩ := st
      match stack with
      | [] => exact ⟨rfl, hb'⟩
      | x :: s =>
          refine Performs.bind (a := ()) rfl (Performs.bind (a := x) rfl ?_)
          exact Performs.ite (fun _ => ⟨rfl, hb'⟩) fun _ => Performs.fail hb'
  | return_ => exact Performs.fail hb'
  | stack op => exact performs_caseStackOp flags op hb'
  | size =>
      obtain ⟨stack, altstack, vfExec, nOpCount, codeHash, nCheckSig⟩ := st
      match stack with
      | [] => exact ⟨rfl, hb'⟩
      | x :: s => exact ⟨rfl, hb'⟩
  | equal verify => exact performs_caseEqual cr flags checker verify hb' fExec rest
  | unary op => exact performs_caseUnary cr flags checker hop hb' fExec rest
  | binary op => exact performs_caseBinary cr flags checker hop hb' fExec rest
  | within => exact performs_caseWithin cr flags checker hb' fExec rest
  | hash op =>
      obtain ⟨stack, altstack, vfExec, nOpCount, codeHash, nCheckSig⟩ := st
      match stack with
      | [] => exact ⟨rfl, hb'⟩
      | x :: s => exact ⟨rfl, hb'⟩
  | codeSeparator => exact ⟨rfl, hb'⟩
  | checkSig verify =>
      rw [hop] at hb
      exact performs_caseCheckSig cr flags checker verify hb fExec rest
  | checkMultiSig verify =>
      rw [hop] at hb
      exact performs_caseCheckMultiSig cr flags checker verify hb
  | bad => exact Performs.fail hb'

/-- How often an instruction may call `CheckSig`. -/
def instrCalls (st : EvalState) (i : Instr) : Nat :=
  if st.executing then callsOf flags st (operation i.opcode) else 0

/-- No conditional checks signatures. -/
theorem callsOf_conditional {opcode : UInt8} (h : opIf ≤ opcode ∧ opcode ≤ opEndIf)
    (st : EvalState) : callsOf flags st (operation opcode) = 0 := by
  obtain ⟨hlo, hhi⟩ := h
  have hlo' : 0x63 ≤ opcode.toNat := UInt8.le_iff_toNat_le.mp hlo
  have hhi' : opcode.toNat ≤ 0x68 := UInt8.le_iff_toNat_le.mp hhi
  unfold operation
  generalize opcode.toNat = n at hlo' hhi'
  interval_cases n <;> rfl

/-- **One pass of the loop.** -/
theorem performs_loopBody (i : Instr) {st : EvalState}
    (hb : st.nCheckSig + instrCalls flags st i ≤ bound) :
    Performs bound (loopBody cr flags checker i) st (evalStep cr flags checker st i) := by
  have hb' : st.nCheckSig ≤ bound := Nat.le_of_add_right_le hb
  unfold loopBody evalStep
  refine Performs.ite (fun _ => Performs.fail hb') fun _ => ?_
  by_cases hcount : op16 < i.opcode ∧ 201 < (st.countOp i.opcode).nOpCount
  · rw [if_pos hcount]
    exact Performs.bind_halt (if_pos hcount) hb'
  rw [if_neg hcount]
  refine Performs.bind (if_neg hcount) ?_
  refine Performs.ite (fun _ => Performs.fail hb') fun _ => ?_
  have hinstr : Performs bound (executeInstr cr flags checker i) (st.countOp i.opcode)
      (evalInstr cr flags checker (st.countOp i.opcode) i) := by
    unfold evalInstr
    refine Performs.bind (run_get _) ?_
    refine Performs.ite (fun _ => ?_) fun _ => ?_
    · exact Performs.ite (fun _ => Performs.fail hb') fun _ => ⟨rfl, hb'⟩
    · refine Performs.ite (fun hrun => performs_switchOp cr flags checker _ _ _ ?_)
        fun _ => ⟨rfl, hb'⟩
      rw [instrCalls] at hb
      by_cases hexec : st.executing = true
      · rw [if_pos hexec] at hb
        exact hb
      · have hcond : opIf ≤ i.opcode ∧ i.opcode ≤ opEndIf := by
          have hexec' : (st.countOp i.opcode).executing = false := Bool.eq_false_iff.mpr hexec
          simpa [hexec'] using hrun
        rw [callsOf_conditional flags hcond]
        exact hb'
  unfold Performs at hinstr ⊢
  rw [run_bind]
  generalize (executeInstr cr flags checker i).run (st.countOp i.opcode) = r at hinstr
  match r, hinstr with
  | (.ok (), st'), ⟨hok, hst'⟩ =>
      rw [hok]
      show match checkStackSize.run st' with
        | (.ok (), st'') => _
        | (.error (.halt h), st'') => _
        | (.error .outOfRange, _) => False
      by_cases hsize : 1000 < st'.stack.length + st'.altstack.length
      · rw [show checkStackSize.run st' = (.error (.halt (.fail .stackSize)), st') from if_pos hsize]
        exact ⟨if_pos hsize, hst'⟩
      · rw [show checkStackSize.run st' = (.ok (), st') from if_neg hsize]
        exact ⟨if_neg hsize, hst'⟩
  | (.error (.halt h), st'), ⟨herr, hst'⟩ =>
      rw [herr]
      exact ⟨rfl, hst'⟩

end Cases
end Hivemind
