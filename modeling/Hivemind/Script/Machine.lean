import Hivemind.Script.Interpreter

/-!
# The stack accesses of the interpreter

`EvalScript` and `VerifyScript` once more, statement by statement.  In
`Hivemind.Script.Interpreter` an operation takes its arguments off the stack by pattern matching;
here every `stacktop`, `popstack`, `erase`, `insert` and `back` is a step of its own that goes
wrong when the element is not there, and the `switch` inside a numeric operation has its
`default`.  What a piece of code leaves behind when it stops is kept, so that the calls of
`CheckSig` are counted on every path.

A piece of code is a `Machine`: a function of the local variables that stops with a reason or
returns, and in both cases says what the variables are.  The statements are its primitive
operations, and a case of the `switch` is written with them as it stands in the source, with the
same tests in the same order.

* `EvalFault`: why a piece of code stops: the script fails, an assertion, an exception, or an
  access outside of a stack.
* `stackAt`, `popStack`, `eraseRange`, `insertAt`, `backExec`: the accesses.
* `switchOp`, `loopBody`, `loop`: the `switch` and the loop around it.
* `runScript`, `runVerifyScript`: the two functions, with the number of calls of `CheckSig`.
-/

namespace Hivemind

open Codecs

/-- Why a piece of `EvalScript` stops. -/
inductive EvalFault where
  | halt (h : Halt)
  /-- An access outside of a stack, or one to an empty one. -/
  | outOfRange
  deriving DecidableEq, Repr

/-- A piece of `EvalScript`: it works on the local variables, and leaves them behind
also when it stops. -/
def Machine (α : Type) : Type := EvalState → Except EvalFault α × EvalState

namespace Machine

variable {α β : Type}

def run (m : Machine α) (st : EvalState) : Except EvalFault α × EvalState := m st

instance instMonadMachine : Monad Machine where
  pure a := fun st => (.ok a, st)
  bind m f := fun st => match m st with
    | (.ok a, st') => f a st'
    | (.error e, st') => (.error e, st')

@[simp] theorem run_pure (a : α) (st : EvalState) : (pure a : Machine α).run st = (.ok a, st) := rfl

theorem run_bind (m : Machine α) (f : α → Machine β) (st : EvalState) :
    (m >>= f).run st = match m.run st with
      | (.ok a, st') => (f a).run st'
      | (.error e, st') => (.error e, st') := rfl

/-! ## Statements -/

/-- `return set_error(serror, e)`. -/
def fail (e : ScriptError) : Machine α := fun st => (.error (.halt (.fail e)), st)

/-- The outcome of a function without access to the stack. -/
def lift (x : Except Halt α) : Machine α := fun st => match x with
  | .ok a => (.ok a, st)
  | .error h => (.error (.halt h), st)

/-- The local variables. -/
def get : Machine EvalState := fun st => (.ok st, st)

def modify (f : EvalState → EvalState) : Machine Unit := fun st => (.ok (), f st)

/-- `if (stack.size() < n) return set_error(serror, e)`. -/
def requireStack (n : Nat) (e : ScriptError := .invalidStackOperation) : Machine Unit := fun st =>
  if st.stack.length < n then (.error (.halt (.fail e)), st) else (.ok (), st)

/-- `stack.at(stack.size() + i)`. -/
def stackAt (stack : List Bytes) (i : Int) : Option Bytes :=
  if 0 ≤ i then none else stack[(-i).toNat - 1]?

/-- `stacktop(i)`. -/
def stackTop (i : Int) : Machine Bytes := fun st => match stackAt st.stack i with
  | some vch => (.ok vch, st)
  | none => (.error .outOfRange, st)

/-- `altstacktop(i)`. -/
def altStackTop (i : Int) : Machine Bytes := fun st => match stackAt st.altstack i with
  | some vch => (.ok vch, st)
  | none => (.error .outOfRange, st)

/-- `popstack(stack)`. -/
def popStack : Machine Unit := fun st => match st.stack with
  | [] => (.error .outOfRange, st)
  | _ :: s => (.ok (), { st with stack := s })

/-- `popstack(altstack)`. -/
def popAltStack : Machine Unit := fun st => match st.altstack with
  | [] => (.error .outOfRange, st)
  | _ :: s => (.ok (), { st with altstack := s })

/-- `stack.push_back(vch)`. -/
def push (vch : Bytes) : Machine Unit := modify fun st => { st with stack := vch :: st.stack }

/-- `swap(stacktop(i), stacktop(j))`. -/
def swapTop (i j : Int) : Machine Unit := do
  let vch1 ← stackTop i
  let vch2 ← stackTop j
  modify fun st =>
    { st with stack := (st.stack.set ((-i).toNat - 1) vch2).set ((-j).toNat - 1) vch1 }

/-- `stack.erase(stack.end() - k, stack.end() - l)`. -/
def eraseRange (k l : Nat) : Machine Unit := fun st =>
  if k ≤ st.stack.length then (.ok (), { st with stack := st.stack.take l ++ st.stack.drop k })
  else (.error .outOfRange, st)

/-- `stack.erase(stack.end() - k)`. -/
def eraseAt (k : Nat) : Machine Unit := eraseRange k (k - 1)

/-- `stack.insert(stack.end() - k, vch)`. -/
def insertAt (k : Nat) (vch : Bytes) : Machine Unit := fun st =>
  if k ≤ st.stack.length then
    (.ok (), { st with stack := st.stack.take k ++ vch :: st.stack.drop k })
  else (.error .outOfRange, st)

/-- `vfExec.back()`. -/
def backExec : Machine Bool := fun st => match st.vfExec with
  | [] => (.error .outOfRange, st)
  | b :: _ => (.ok b, st)

/-- `vfExec.pop_back()`. -/
def popExec : Machine Unit := fun st => match st.vfExec with
  | [] => (.error .outOfRange, st)
  | _ :: bs => (.ok (), { st with vfExec := bs })

def pushExec (b : Bool) : Machine Unit := modify fun st => { st with vfExec := b :: st.vfExec }

/-- `if (vfExec.empty()) return set_error(serror, SCRIPT_ERR_UNBALANCED_CONDITIONAL)`. -/
def requireExec : Machine Unit := fun st =>
  if st.vfExec.isEmpty then (.error (.halt (.fail .unbalancedConditional)), st) else (.ok (), st)

/-- `checker.CheckSig(vchSig, vchPubKey, scriptCode)`. -/
def checkSig (checker : SignatureChecker) (vchSig vchPubKey : Bytes) (scriptCode : CScript) :
    Machine Bool := fun st =>
  (.ok (checker vchSig vchPubKey scriptCode), { st with nCheckSig := st.nCheckSig + 1 })

section Run

variable (st : EvalState)

@[simp] theorem run_fail (e : ScriptError) :
    (fail e : Machine α).run st = (.error (.halt (.fail e)), st) := rfl

@[simp] theorem run_lift_ok (a : α) : (lift (.ok a)).run st = (.ok a, st) := rfl

@[simp] theorem run_lift_error (h : Halt) :
    (lift (.error h) : Machine α).run st = (.error (.halt h), st) := rfl

@[simp] theorem run_get : get.run st = (.ok st, st) := rfl

@[simp] theorem run_modify (f : EvalState → EvalState) : (modify f).run st = (.ok (), f st) := rfl

@[simp] theorem run_push (vch : Bytes) :
    (push vch).run st = (.ok (), { st with stack := vch :: st.stack }) := rfl

@[simp] theorem run_pushExec (b : Bool) :
    (pushExec b).run st = (.ok (), { st with vfExec := b :: st.vfExec }) := rfl

@[simp] theorem run_checkSig (checker : SignatureChecker) (vchSig vchPubKey : Bytes)
    (scriptCode : CScript) :
    (checkSig checker vchSig vchPubKey scriptCode).run st =
      (.ok (checker vchSig vchPubKey scriptCode), { st with nCheckSig := st.nCheckSig + 1 }) := rfl

variable {st}

theorem run_requireStack_of_le {n : Nat} {e : ScriptError} (h : n ≤ st.stack.length) :
    (requireStack n e).run st = (.ok (), st) := if_neg (Nat.not_lt.mpr h)

theorem run_requireStack_of_lt {n : Nat} {e : ScriptError} (h : st.stack.length < n) :
    (requireStack n e).run st = (.error (.halt (.fail e)), st) := if_pos h

theorem run_stackTop {i : Int} {vch : Bytes} (h : stackAt st.stack i = some vch) :
    (stackTop i).run st = (.ok vch, st) := by
  simp only [run, stackTop, h]

theorem stackAt_neg {stack : List Bytes} {k : Nat} (hk : 0 < k) :
    stackAt stack (-(k : Int)) = stack[k - 1]? := by
  rw [stackAt, if_neg (by omega), neg_neg, Int.toNat_natCast]

end Run

end Machine

open Machine

/-! ## The cases of the `switch` -/

section Cases

variable (cr : Crypto) (flags : ScriptFlags) (checker : SignatureChecker)

/-- `CScriptNum(stacktop(i), fRequireMinimal)`. -/
def numTop (i : Int) : Machine Int := do
  let vch ← stackTop i
  lift (scriptNum (hasFlag flags scriptVerifyMinimalData) vch)

/-- `OP_IF` and `OP_NOTIF`. -/
def caseCond (fExec negated : Bool) : Machine Unit :=
  if fExec then do
    requireStack 1 .unbalancedConditional
    let vch ← stackTop (-1)
    popStack
    pushExec (castToBool vch != negated)
  else pushExec false

def caseElse : Machine Unit := do
  requireExec
  let b ← backExec
  popExec
  pushExec (!b)

def caseEndIf : Machine Unit := do
  requireExec
  popExec

def caseVerify : Machine Unit := do
  requireStack 1
  let vch ← stackTop (-1)
  if castToBool vch then popStack else fail .verify

/-- `OP_PICK` and `OP_ROLL`. -/
def casePickOrRoll (roll : Bool) : Machine Unit := do
  requireStack 2
  let n := getInt (← numTop flags (-1))
  popStack
  let st ← get
  if n < 0 ∨ (st.stack.length : Int) ≤ n then fail .invalidStackOperation
  else
    let vch ← stackTop (-n - 1)
    if roll then
      eraseAt (n.toNat + 1)
      push vch
    else push vch

def caseStackOp : StackOp → Machine Unit
  | .toAltStack => do
    requireStack 1
    let vch ← stackTop (-1)
    modify fun st => { st with altstack := vch :: st.altstack }
    popStack
  | .fromAltStack => do
    let st ← get
    if st.altstack.length < 1 then fail .invalidAltstackOperation
    else
      let vch ← altStackTop (-1)
      push vch
      popAltStack
  | .drop2 => do
    requireStack 2
    popStack
    popStack
  | .dup2 => do
    requireStack 2
    let vch1 ← stackTop (-2)
    let vch2 ← stackTop (-1)
    push vch1
    push vch2
  | .dup3 => do
    requireStack 3
    let vch1 ← stackTop (-3)
    let vch2 ← stackTop (-2)
    let vch3 ← stackTop (-1)
    push vch1
    push vch2
    push vch3
  | .over2 => do
    requireStack 4
    let vch1 ← stackTop (-4)
    let vch2 ← stackTop (-3)
    push vch1
    push vch2
  | .rot2 => do
    requireStack 6
    let vch1 ← stackTop (-6)
    let vch2 ← stackTop (-5)
    eraseRange 6 4
    push vch1
    push vch2
  | .swap2 => do
    requireStack 4
    swapTop (-4) (-2)
    swapTop (-3) (-1)
  | .ifDup => do
    requireStack 1
    let vch ← stackTop (-1)
    if castToBool vch then push vch else pure ()
  | .depth => do
    let st ← get
    push (serializeNum st.stack.length)
  | .drop => do
    requireStack 1
    popStack
  | .dup => do
    requireStack 1
    let vch ← stackTop (-1)
    push vch
  | .nip => do
    requireStack 2
    eraseAt 2
  | .over => do
    requireStack 2
    let vch ← stackTop (-2)
    push vch
  | .pick => casePickOrRoll flags false
  | .roll => casePickOrRoll flags true
  | .rot => do
    requireStack 3
    swapTop (-3) (-2)
    swapTop (-2) (-1)
  | .swap => do
    requireStack 2
    swapTop (-2) (-1)
  | .tuck => do
    requireStack 2
    let vch ← stackTop (-1)
    insertAt 2 vch

def caseSize : Machine Unit := do
  requireStack 1
  let vch ← stackTop (-1)
  push (serializeNum vch.length)

/-- The end of the `...VERIFY` operations, once the result is on the stack. -/
def verifyTail (verify fSuccess : Bool) (e : ScriptError) : Machine Unit :=
  if verify then (if fSuccess then popStack else fail e) else pure ()

/-- `OP_EQUAL` and `OP_EQUALVERIFY`. -/
def caseEqual (verify : Bool) : Machine Unit := do
  requireStack 2
  let vch1 ← stackTop (-2)
  let vch2 ← stackTop (-1)
  popStack
  popStack
  push (boolBytes (vch1 == vch2))
  verifyTail verify (vch1 == vch2) .equalVerify

/-- The `switch` inside the operations on one number. -/
def unarySwitch (opcode : UInt8) (bn : Int) : Except Halt Int :=
  match opcode.toNat with
  | 0x8b => addAssign bn 1
  | 0x8c => subAssign bn 1
  | 0x8f => negate bn
  | 0x90 => if bn < 0 then negate bn else .ok bn
  | 0x91 => .ok (boolNum (bn = 0))
  | 0x92 => .ok (boolNum (bn ≠ 0))
  | _ => .error .asserts

def caseUnary (opcode : UInt8) : Machine Unit := do
  requireStack 1
  let bn ← numTop flags (-1)
  let bn ← lift (unarySwitch opcode bn)
  popStack
  push (serializeNum bn)

/-- The `switch` inside the operations on two numbers. -/
def binarySwitch (opcode : UInt8) (bn1 bn2 : Int) : Except Halt Int :=
  match opcode.toNat with
  | 0x93 => .ok (bn1 + bn2)
  | 0x94 => .ok (bn1 - bn2)
  | 0x9a => .ok (boolNum (bn1 ≠ 0 ∧ bn2 ≠ 0))
  | 0x9b => .ok (boolNum (bn1 ≠ 0 ∨ bn2 ≠ 0))
  | 0x9c => .ok (boolNum (bn1 = bn2))
  | 0x9d => .ok (boolNum (bn1 = bn2))
  | 0x9e => .ok (boolNum (bn1 ≠ bn2))
  | 0x9f => .ok (boolNum (bn1 < bn2))
  | 0xa0 => .ok (boolNum (bn1 > bn2))
  | 0xa1 => .ok (boolNum (bn1 ≤ bn2))
  | 0xa2 => .ok (boolNum (bn1 ≥ bn2))
  | 0xa3 => .ok (if bn1 < bn2 then bn1 else bn2)
  | 0xa4 => .ok (if bn1 > bn2 then bn1 else bn2)
  | _ => .error .asserts

def opNumEqualVerify : UInt8 := 0x9d

def caseBinary (opcode : UInt8) : Machine Unit := do
  requireStack 2
  let bn1 ← numTop flags (-2)
  let bn2 ← numTop flags (-1)
  let bn ← lift (binarySwitch opcode bn1 bn2)
  popStack
  popStack
  push (serializeNum bn)
  if opcode = opNumEqualVerify then
    let vch ← stackTop (-1)
    if castToBool vch then popStack else fail .numEqualVerify
  else pure ()

def caseWithin : Machine Unit := do
  requireStack 3
  let bn1 ← numTop flags (-3)
  let bn2 ← numTop flags (-2)
  let bn3 ← numTop flags (-1)
  popStack
  popStack
  popStack
  push (boolBytes (bn2 ≤ bn1 ∧ bn1 < bn3))

def caseHash (op : HashOp) : Machine Unit := do
  requireStack 1
  let vch ← stackTop (-1)
  popStack
  push (execHash cr op vch)

/-- `OP_CHECKSIG` and `OP_CHECKSIGVERIFY`. -/
def caseCheckSig (verify : Bool) : Machine Unit := do
  requireStack 2
  let vchSig ← stackTop (-2)
  let vchPubKey ← stackTop (-1)
  let st ← get
  let scriptCode := findAndDelete (pushData vchSig) st.codeHash
  lift (checkSignatureEncoding cr flags vchSig)
  lift (checkPubKeyEncoding flags vchPubKey)
  let fSuccess ← checkSig checker vchSig vchPubKey scriptCode
  popStack
  popStack
  push (boolBytes fSuccess)
  verifyTail verify fSuccess .checkSigVerify

/-- The loop that drops the signatures from the script. -/
def deleteSigs (isig : Nat) : Nat → CScript → Machine CScript
  | 0, scriptCode => pure scriptCode
  | n + 1, scriptCode => do
    let vchSig ← stackTop (-(isig : Int))
    deleteSigs (isig + 1) n (findAndDelete (pushData vchSig) scriptCode)

/-- `while (fSuccess && nSigsCount > 0)`, and what `fSuccess` is after it. -/
def matchSigs (scriptCode : CScript) (isig ikey : Nat) (nSigsCount nKeysCount : Int) :
    Machine Bool :=
  if 0 < nSigsCount then do
    let vchSig ← stackTop (-(isig : Int))
    let vchPubKey ← stackTop (-(ikey : Int))
    lift (checkSignatureEncoding cr flags vchSig)
    lift (checkPubKeyEncoding flags vchPubKey)
    let fOk ← checkSig checker vchSig vchPubKey scriptCode
    if nKeysCount - 1 < (if fOk then nSigsCount - 1 else nSigsCount) then pure false
    else
      matchSigs scriptCode (if fOk then isig + 1 else isig) (ikey + 1)
        (if fOk then nSigsCount - 1 else nSigsCount) (nKeysCount - 1)
  else pure true
termination_by nKeysCount.toNat
decreasing_by
  rename_i hpos hle
  split at hle <;> omega

/-- `while (i-- > 1) popstack(stack)`. -/
def popMany : Nat → Machine Unit
  | 0 => pure ()
  | n + 1 => do
    popStack
    popMany n

/-- `OP_CHECKMULTISIG` and `OP_CHECKMULTISIGVERIFY`. -/
def caseCheckMultiSig (verify : Bool) : Machine Unit := do
  requireStack 1
  let nKeysCount := getInt (← numTop flags (-1))
  if nKeysCount < 0 ∨ 20 < nKeysCount then fail .pubKeyCount
  else
    let nKeys := nKeysCount.toNat
    modify fun st => { st with nOpCount := st.nOpCount + nKeys }
    let st ← get
    if 201 < st.nOpCount then fail .opCount
    else
      let ikey := 2
      let i := ikey + nKeys
      requireStack i
      let nSigsCount := getInt (← numTop flags (-(i : Int)))
      if nSigsCount < 0 ∨ nKeysCount < nSigsCount then fail .sigCount
      else
        let isig := i + 1
        let i := isig + nSigsCount.toNat
        requireStack i
        let st ← get
        let scriptCode ← deleteSigs isig nSigsCount.toNat st.codeHash
        let fSuccess ← matchSigs cr flags checker scriptCode isig ikey nSigsCount nKeysCount
        popMany (i - 1)
        requireStack 1
        let dummy ← stackTop (-1)
        if hasFlag flags scriptVerifyNullDummy && !dummy.isEmpty then fail .sigNullDummy
        else
          popStack
          push (boolBytes fSuccess)
          verifyTail verify fSuccess .checkMultiSigVerify

/-- The `switch`. -/
def switchOp (fExec : Bool) (rest : CScript) (opcode : UInt8) : Machine Unit :=
  match operation opcode with
  | .number n => push (serializeNum n)
  | .nop => pure ()
  | .upgradableNop =>
    if hasFlag flags scriptVerifyDiscourageUpgradableNops then fail .discourageUpgradableNops
    else pure ()
  | .cond negated => caseCond fExec negated
  | .else_ => caseElse
  | .endIf => caseEndIf
  | .verify => caseVerify
  | .return_ => fail .opReturn
  | .stack op => caseStackOp flags op
  | .size => caseSize
  | .equal verify => caseEqual verify
  | .unary _ => caseUnary flags opcode
  | .binary _ => caseBinary flags opcode
  | .within => caseWithin flags
  | .hash op => caseHash cr op
  | .codeSeparator => modify fun st => { st with codeHash := rest }
  | .checkSig verify => caseCheckSig cr flags checker verify
  | .checkMultiSig verify => caseCheckMultiSig cr flags checker verify
  | .bad => fail .badOpcode

/-! ## The loop -/

/-- `if (stack.size() + altstack.size() > 1000) return set_error(..)`. -/
def checkStackSize : Machine Unit := fun st =>
  if 1000 < st.stack.length + st.altstack.length then (.error (.halt (.fail .stackSize)), st)
  else (.ok (), st)

/-- `if (opcode > OP_16 && ++nOpCount > 201) return set_error(..)`. -/
def countOpcode (opcode : UInt8) : Machine Unit := fun st =>
  if op16 < opcode ∧ 201 < (st.countOp opcode).nOpCount then
    (.error (.halt (.fail .opCount)), st.countOp opcode)
  else (.ok (), st.countOp opcode)

/-- The part of the body between the limits. -/
def executeInstr (i : Instr) : Machine Unit := do
  let st ← get
  if st.executing && i.opcode ≤ opPushData4 then
    if hasFlag flags scriptVerifyMinimalData && !checkMinimalPush i.data i.opcode then
      fail .minimalData
    else push i.data
  else if st.executing || (opIf ≤ i.opcode && i.opcode ≤ opEndIf) then
    switchOp cr flags checker st.executing i.rest i.opcode
  else pure ()

/-- The body of the loop, once the instruction is read. -/
def loopBody (i : Instr) : Machine Unit :=
  if maxScriptElementSize < i.data.length then fail .pushSize
  else do
    countOpcode i.opcode
    if isDisabled i.opcode then fail .disabledOpcode
    else
      executeInstr cr flags checker i
      checkStackSize

/-- `while (pc < pend)`. -/
def loop (s : CScript) : Machine Unit :=
  if s.isEmpty then pure ()
  else match _hop : getOp s with
    | none => fail .badOpcode
    | some i => do
      loopBody cr flags checker i
      loop i.rest
termination_by s.length
decreasing_by exact getOp_rest_lt (by assumption)

/-- `EvalScript`: the stack it leaves, and how often it called `CheckSig`. -/
def runScript (stack : List Bytes) (script : CScript) : Except EvalFault (List Bytes) × Nat :=
  if 10000 < script.length then (.error (.halt (.fail .scriptSize)), 0)
  else match (loop cr flags checker script).run { stack, codeHash := script } with
    | (.error (.halt .throws), st) => (.error (.halt (.fail .unknownError)), st.nCheckSig)
    | (.error e, st) => (.error e, st.nCheckSig)
    | (.ok (), st) =>
      (if st.vfExec.isEmpty then .ok st.stack else .error (.halt (.fail .unbalancedConditional)),
        st.nCheckSig)

/-! ## `VerifyScript` -/

/-- `if (stack.empty()) ..; if (CastToBool(stack.back()) == false) ..`. -/
def requireTrue (stack : List Bytes) : Except EvalFault Unit :=
  if stack.isEmpty then .error (.halt (.fail .evalFalse))
  else match stack with
    | [] => .error .outOfRange
    | vch :: _ => if castToBool vch then .ok () else .error (.halt (.fail .evalFalse))

/-- The pay-to-script-hash part, on the stack that `scriptSig` left: the stack of the
redeem script, and how often it called `CheckSig`. -/
def runRedeemScript (scriptSig : CScript) (stackCopy : List Bytes) :
    Except EvalFault (List Bytes) × Nat :=
  if !isPushOnly scriptSig then (.error (.halt (.fail .sigPushOnly)), 0)
  else match stackCopy with
    | [] => (.error (.halt .asserts), 0)
    | pubKeySerialized :: stack =>
      let (result, nCheckSig) := runScript cr flags checker stack pubKeySerialized
      (do
        let stack ← result
        requireTrue stack
        return stack, nCheckSig)

/-- The last test of `VerifyScript`. -/
def requireCleanStack (stack : List Bytes) : Except EvalFault Unit :=
  if hasFlag flags scriptVerifyCleanStack then
    if !hasFlag flags scriptVerifyP2SH then .error (.halt .asserts)
    else if stack.length ≠ 1 then .error (.halt (.fail .cleanStack))
    else .ok ()
  else .ok ()

/-- `VerifyScript`: its outcome, and how often it called `CheckSig` while it evaluated
the redeem script. -/
def runVerifyScript (scriptSig scriptPubKey : CScript) : Except EvalFault Unit × Nat :=
  if hasFlag flags scriptVerifySigPushOnly && !isPushOnly scriptSig then
    (.error (.halt (.fail .sigPushOnly)), 0)
  else match (runScript cr flags checker [] scriptSig).1 with
    | .error e => (.error e, 0)
    | .ok stack =>
      let stackCopy := if hasFlag flags scriptVerifyP2SH then stack else []
      match (runScript cr flags checker stack scriptPubKey).1 with
      | .error e => (.error e, 0)
      | .ok stack => match requireTrue stack with
        | .error e => (.error e, 0)
        | .ok () =>
          if hasFlag flags scriptVerifyP2SH && isPayToScriptHash scriptPubKey then
            let (result, nCheckSig) := runRedeemScript cr flags checker scriptSig stackCopy
            (do
              let stack ← result
              requireCleanStack flags stack, nCheckSig)
          else (requireCleanStack flags stack, 0)

end Cases
end Hivemind
