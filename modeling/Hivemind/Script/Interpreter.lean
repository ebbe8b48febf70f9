import Hivemind.Script.Script

/-!
# The script interpreter

`EvalScript` and `VerifyScript` of `script/interpreter.cpp`.  The stack machine runs one
instruction at a time (`evalStep`); an instruction may fail the script, raise an exception that
`EvalScript` catches, or reach an assertion.  Hash functions, the check of a signature element
and the signature checker are parameters.

The stacks are lists with the top first, and an operation takes its arguments off by a pattern on
the list, in place of the size tests and the accesses of the source; these are modelled one by
one, and compared with the patterns, in `Hivemind.Script.Machine`.  The `switch` is a table from
opcodes to operations, so that what is common to a kind of operations is one function: those on
one number, on two numbers, on the stack alone, and the hashes.

* `scriptNum`, `serializeNum`: numbers on the stack, with the minimal encoding if it is asked
  for.
* `isDERSignature`, `checkSignatureEncoding`, `checkPubKeyEncoding`: the encodings of signatures
  and keys, by the flags.
* `findAndDelete`: the script without a signature.
* `operation`, `execOp`: what an opcode is, and what it does.
* `evalStep`, `evalScript`: one pass of the loop, and the loop.
* `verifyScript`: both scripts, the redeem script and the last check.
-/

namespace Hivemind

open Codecs

/-! ## Errors and flags -/

/-- `ScriptError`. -/
inductive ScriptError where
  | unknownError | evalFalse | opReturn
  | scriptSize | pushSize | opCount | stackSize | sigCount | pubKeyCount
  | verify | equalVerify | checkMultiSigVerify | checkSigVerify | numEqualVerify
  | badOpcode | disabledOpcode | invalidStackOperation | invalidAltstackOperation
  | unbalancedConditional
  | sigHashType | sigDer | minimalData | sigPushOnly | sigHighS | sigNullDummy | pubKeyType
  | cleanStack
  | discourageUpgradableNops
  deriving DecidableEq, Repr

/-- Why a script stops early. -/
inductive Halt where
  /-- `return set_error(serror, e)`. -/
  | fail (e : ScriptError)
  /-- An exception, caught at the end of `EvalScript`. -/
  | throws
  /-- A failed `assert`. -/
  | asserts
  deriving DecidableEq, Repr

/-- `SCRIPT_VERIFY_*`. -/
abbrev ScriptFlags := UInt32

def scriptVerifyP2SH : ScriptFlags := 0x1
def scriptVerifyStrictEnc : ScriptFlags := 0x2
def scriptVerifyDerSig : ScriptFlags := 0x4
def scriptVerifyLowS : ScriptFlags := 0x8
def scriptVerifyNullDummy : ScriptFlags := 0x10
def scriptVerifySigPushOnly : ScriptFlags := 0x20
def scriptVerifyMinimalData : ScriptFlags := 0x40
def scriptVerifyDiscourageUpgradableNops : ScriptFlags := 0x80
def scriptVerifyCleanStack : ScriptFlags := 0x100

def hasFlag (flags flag : ScriptFlags) : Bool := flags &&& flag != 0

/-- The cryptographic functions the interpreter calls. -/
structure Crypto where
  ripemd160 : Bytes → Bytes
  sha1 : Bytes → Bytes
  sha256 : Bytes → Bytes
  hash160 : Bytes → Bytes
  hash256 : Bytes → Bytes
  /-- `eccrypto::CheckSignatureElement(S, nLenS, true)`. -/
  checkSignatureElement : Bytes → Bool

/-- `BaseSignatureChecker::CheckSig(scriptSig, vchPubKey, scriptCode)`. -/
abbrev SignatureChecker := Bytes → Bytes → CScript → Bool

/-! ## Truth values and numbers -/

/-- `CastToBool`: some byte is not zero, and negative zero does not count. -/
def castToBool : Bytes → Bool
  | [] => false
  | [b] => b != 0 && b != 0x80
  | b :: bs => b != 0 || castToBool bs

def int64Max : Int := 2 ^ 63 - 1
def int64Min : Int := -2 ^ 63

/-- `CScriptNum::set_vch`, on at most four bytes. -/
def setVch (vch : Bytes) : Int :=
  match vch.getLast? with
  | none => 0
  | some b =>
    if b &&& 0x80 != 0 then -(leNat vch - 0x80 * 256 ^ (vch.length - 1) : Int) else leNat vch

/-- The length test and the minimality test of the constructor of `CScriptNum`. -/
def minimallyEncoded (vch : Bytes) : Bool :=
  match vch.reverse with
  | [] => true
  | b :: bs => b &&& 0x7f != 0 || (match bs with
    | [] => false
    | b' :: _ => b' &&& 0x80 != 0)

/-- `CScriptNum(vch, fRequireMinimal)`. -/
def scriptNum (fRequireMinimal : Bool) (vch : Bytes) : Except Halt Int :=
  if 4 < vch.length then .error .throws
  else if fRequireMinimal && !minimallyEncoded vch then .error .throws
  else .ok (setVch vch)

/-- The bytes of a magnitude, least significant first and without leading zeros. -/
def magnitudeBytes : Nat → Nat → Bytes
  | 0, _ => []
  | fuel + 1, n => if n = 0 then [] else UInt8.ofNat n :: magnitudeBytes fuel (n / 256)

/-- `CScriptNum::serialize`: the magnitude of a 64-bit value, with the sign in the
top bit of the last byte. -/
def serializeNum (value : Int) : Bytes :=
  let neg := value < 0
  let result := magnitudeBytes 8 value.natAbs
  match result.reverse with
  | [] => []
  | b :: bs =>
    if b &&& 0x80 != 0 then result ++ [if neg then 0x80 else 0]
    else if neg then ((b ||| 0x80) :: bs).reverse
    else result

/-- `CScriptNum::getint`. -/
def getInt (n : Int) : Int := max (-2 ^ 31) (min n (2 ^ 31 - 1))

/-- `CScriptNum::operator+=`, with its assertion. -/
def addAssign (m rhs : Int) : Except Halt Int :=
  if rhs = 0 ∨ (0 < rhs ∧ m ≤ int64Max - rhs) ∨ (rhs < 0 ∧ int64Min - rhs ≤ m) then .ok (m + rhs)
  else .error .asserts

/-- `CScriptNum::operator-=`, with its assertion. -/
def subAssign (m rhs : Int) : Except Halt Int :=
  if rhs = 0 ∨ (0 < rhs ∧ int64Min + rhs ≤ m) ∨ (rhs < 0 ∧ m ≤ int64Max + rhs) then .ok (m - rhs)
  else .error .asserts

/-- `CScriptNum::operator-()`, with its assertion. -/
def negate (m : Int) : Except Halt Int :=
  if m = int64Min then .error .asserts else .ok (-m)

def boolNum (b : Bool) : Int := if b then 1 else 0

/-- `fValue ? vchTrue : vchFalse`. -/
def boolBytes (b : Bool) : Bytes := if b then [1] else []

/-! ## Signature and key encodings -/

/-- `IsCompressedOrUncompressedPubKey`. -/
def isCompressedOrUncompressedPubKey (vchPubKey : Bytes) : Bool :=
  if vchPubKey.length < 33 then false
  else if vchPubKey[0]? = some 0x04 then vchPubKey.length == 65
  else if vchPubKey[0]? = some 0x02 || vchPubKey[0]? = some 0x03 then vchPubKey.length == 33
  else false

/-- The tests `IsDERSignature` makes of one of the two integers: it is not empty,
not negative and not padded.  `n` is its bytes. -/
def isDERInteger (n : Bytes) : Bool :=
  match n with
  | [] => false
  | [a] => a &&& 0x80 == 0
  | a :: b :: _ => a &&& 0x80 == 0 && !(a == 0 && b &&& 0x80 == 0)

/-- `IsDERSignature`: `<30> <total len> <02> <len R> <R> <02> <len S> <S> <hashtype>`. -/
def isDERSignature (vchSig : Bytes) : Bool :=
  let at' := fun i => (vchSig[i]?.getD 0).toNat
  if vchSig.length < 9 || 73 < vchSig.length then false
  else if at' 0 != 0x30 then false
  else if at' 1 != vchSig.length - 3 then false
  else
    let nLenR := at' 3
    if vchSig.length ≤ 5 + nLenR then false
    else
      let nLenS := at' (5 + nLenR)
      if nLenR + nLenS + 7 != vchSig.length then false
      else at' 2 == 0x02 && isDERInteger ((vchSig.drop 4).take nLenR) &&
        (at' (4 + nLenR) == 0x02 && isDERInteger ((vchSig.drop (6 + nLenR)).take nLenS))

/-- The bytes of `S` in a signature that `IsDERSignature` accepts. -/
def signatureS (vchSig : Bytes) : Bytes :=
  let nLenR := (vchSig[3]?.getD 0).toNat
  (vchSig.drop (6 + nLenR)).take (vchSig[5 + nLenR]?.getD 0).toNat

/-- `IsLowDERSignature`. -/
def isLowDERSignature (cr : Crypto) (vchSig : Bytes) : Except Halt Unit :=
  if !isDERSignature vchSig then .error (.fail .sigDer)
  else if !cr.checkSignatureElement (signatureS vchSig) then .error (.fail .sigHighS)
  else .ok ()

/-- `IsDefinedHashtypeSignature`: `SIGHASH_ALL`, `SIGHASH_NONE` or `SIGHASH_SINGLE`. -/
def isDefinedHashtypeSignature (vchSig : Bytes) : Bool :=
  match vchSig.getLast? with
  | none => false
  | some b => 1 ≤ b &&& 0x7f && b &&& 0x7f ≤ 3

/-- `CheckSignatureEncoding`. -/
def checkSignatureEncoding (cr : Crypto) (flags : ScriptFlags) (vchSig : Bytes) :
    Except Halt Unit := do
  if hasFlag flags (scriptVerifyDerSig ||| scriptVerifyLowS ||| scriptVerifyStrictEnc) &&
      !isDERSignature vchSig then
    .error (.fail .sigDer)
  else
    if hasFlag flags scriptVerifyLowS then isLowDERSignature cr vchSig
    if hasFlag flags scriptVerifyStrictEnc && !isDefinedHashtypeSignature vchSig then
      .error (.fail .sigHashType)

/-- `CheckPubKeyEncoding`. -/
def checkPubKeyEncoding (flags : ScriptFlags) (vchPubKey : Bytes) : Except Halt Unit :=
  if hasFlag flags scriptVerifyStrictEnc && !isCompressedOrUncompressedPubKey vchPubKey then
    .error (.fail .pubKeyType)
  else .ok ()

/-- `CheckMinimalPush`. -/
def checkMinimalPush (data : Bytes) (opcode : UInt8) : Bool :=
  match data with
  | [] => opcode == 0
  | [b] =>
    if 1 ≤ b && b ≤ 16 then opcode.toNat == 0x51 + (b.toNat - 1)
    else if b = 0x81 then opcode == op1Negate
    else opcode.toNat == 1
  | _ =>
    if data.length ≤ 75 then opcode.toNat == data.length
    else if data.length ≤ 255 then opcode == opPushData1
    else if data.length ≤ 65535 then opcode == opPushData2
    else true

/-! ## `FindAndDelete` -/

/-- Erase the pattern at the front as often as it stands there. -/
def eraseFront (b : Bytes) : Nat → Bytes → Bytes
  | 0, s => s
  | fuel + 1, s => if b <+: s then eraseFront b fuel (s.drop b.length) else s

def findAndDeleteAux (b : Bytes) : Nat → Bytes → Bytes
  | 0, s => s
  | fuel + 1, s =>
    let s' := eraseFront b s.length s
    match getOp s' with
    | none => s'
    | some i => s'.take (s'.length - i.rest.length) ++ findAndDeleteAux b fuel i.rest

/-- `CScript::FindAndDelete`: the script without the pattern, where it stands at
an instruction boundary. -/
def findAndDelete (b : Bytes) (s : CScript) : CScript :=
  if b.isEmpty then s else findAndDeleteAux b (s.length + 1) s

/-! ## Operations -/

inductive StackOp where
  | toAltStack | fromAltStack | drop2 | dup2 | dup3 | over2 | rot2 | swap2 | ifDup | depth | drop
  | dup | nip | over | pick | roll | rot | swap | tuck
  deriving DecidableEq, Repr

inductive UnaryOp where
  | add1 | sub1 | negate | abs | not | notEqual0
  deriving DecidableEq, Repr

inductive BinaryOp where
  | add | sub | boolAnd | boolOr | numEqual | numEqualVerify | numNotEqual | lessThan
  | greaterThan | lessThanOrEqual | greaterThanOrEqual | min | max
  deriving DecidableEq, Repr

inductive HashOp where
  | ripemd160 | sha1 | sha256 | hash160 | hash256
  deriving DecidableEq, Repr

/-- What the `switch` of `EvalScript` does with an opcode. -/
inductive Operation where
  /-- `OP_1NEGATE`, `OP_1` to `OP_16`. -/
  | number (n : Int)
  | nop
  /-- `OP_NOP1` to `OP_NOP10`. -/
  | upgradableNop
  /-- `OP_IF` and `OP_NOTIF`. -/
  | cond (negated : Bool)
  | else_
  | endIf
  | verify
  | return_
  | stack (op : StackOp)
  | size
  | equal (verify : Bool)
  | unary (op : UnaryOp)
  | binary (op : BinaryOp)
  | within
  | hash (op : HashOp)
  | codeSeparator
  | checkSig (verify : Bool)
  | checkMultiSig (verify : Bool)
  /-- `default`. -/
  | bad
  deriving DecidableEq, Repr

/-- The cases of the `switch`. -/
def operation (opcode : UInt8) : Operation :=
  match opcode.toNat with
  | 0x61 => .nop
  | 0x63 => .cond false
  | 0x64 => .cond true
  | 0x67 => .else_
  | 0x68 => .endIf
  | 0x69 => .verify
  | 0x6a => .return_
  | 0x6b => .stack .toAltStack
  | 0x6c => .stack .fromAltStack
  | 0x6d => .stack .drop2
  | 0x6e => .stack .dup2
  | 0x6f => .stack .dup3
  | 0x70 => .stack .over2
  | 0x71 => .stack .rot2
  | 0x72 => .stack .swap2
  | 0x73 => .stack .ifDup
  | 0x74 => .stack .depth
  | 0x75 => .stack .drop
  | 0x76 => .stack .dup
  | 0x77 => .stack .nip
  | 0x78 => .stack .over
  | 0x79 => .stack .pick
  | 0x7a => .stack .roll
  | 0x7b => .stack .rot
  | 0x7c => .stack .swap
  | 0x7d => .stack .tuck
  | 0x82 => .size
  | 0x87 => .equal false
  | 0x88 => .equal true
  | 0x8b => .unary .add1
  | 0x8c => .unary .sub1
  | 0x8f => .unary .negate
  | 0x90 => .unary .abs
  | 0x91 => .unary .not
  | 0x92 => .unary .notEqual0
  | 0x93 => .binary .add
  | 0x94 => .binary .sub
  | 0x9a => .binary .boolAnd
  | 0x9b => .binary .boolOr
  | 0x9c => .binary .numEqual
  | 0x9d => .binary .numEqualVerify
  | 0x9e => .binary .numNotEqual
  | 0x9f => .binary .lessThan
  | 0xa0 => .binary .greaterThan
  | 0xa1 => .binary .lessThanOrEqual
  | 0xa2 => .binary .greaterThanOrEqual
  | 0xa3 => .binary .min
  | 0xa4 => .binary .max
  | 0xa5 => .within
  | 0xa6 => .hash .ripemd160
  | 0xa7 => .hash .sha1
  | 0xa8 => .hash .sha256
  | 0xa9 => .hash .hash160
  | 0xaa => .hash .hash256
  | 0xab => .codeSeparator
  | 0xac => .checkSig false
  | 0xad => .checkSig true
  | 0xae => .checkMultiSig false
  | 0xaf => .checkMultiSig true
  | n =>
    if n = 0x4f ∨ (0x51 ≤ n ∧ n ≤ 0x60) then .number ((n : Int) - 0x50)
    else if 0xb0 ≤ n ∧ n ≤ 0xb9 then .upgradableNop
    else .bad

/-- `OP_CAT`, `OP_SUBSTR`, `OP_LEFT`, `OP_RIGHT`, `OP_INVERT`, `OP_AND`, `OP_OR`,
`OP_XOR`, `OP_2MUL`, `OP_2DIV`, `OP_MUL`, `OP_DIV`, `OP_MOD`, `OP_LSHIFT` and
`OP_RSHIFT`. -/
def disabledOpcodes : List UInt8 :=
  [0x7e, 0x7f, 0x80, 0x81, 0x83, 0x84, 0x85, 0x86, 0x8d, 0x8e, 0x95, 0x96, 0x97, 0x98, 0x99]

def isDisabled (opcode : UInt8) : Bool := disabledOpcodes.contains opcode

/-! ## Executing one operation -/

/-- The local variables of `EvalScript`. -/
structure EvalState where
  stack : List Bytes
  altstack : List Bytes := []
  vfExec : List Bool := []
  nOpCount : Nat := 0
  /-- The script from `pbegincodehash` on. -/
  codeHash : CScript
  /-- How often `checker.CheckSig` has been called. -/
  nCheckSig : Nat := 0
  deriving DecidableEq

/-- `return set_error(serror, SCRIPT_ERR_INVALID_STACK_OPERATION)`. -/
def invalidStack {α : Type} : Except Halt α := .error (.fail .invalidStackOperation)

/-- `OP_PICK` and `OP_ROLL`. -/
def pickOrRoll (fRequireMinimal roll : Bool) : List Bytes → Except Halt (List Bytes)
  | top :: x :: s => do
    let n := getInt (← scriptNum fRequireMinimal top)
    if n < 0 ∨ (x :: s).length ≤ n then invalidStack
    else
      let vch := (x :: s).getD n.toNat []
      return vch :: (if roll then (x :: s).eraseIdx n.toNat else x :: s)
  | _ => invalidStack

/-- The stack operations, on the stack and the alternative stack. -/
def execStackOp (fRequireMinimal : Bool) : StackOp → List Bytes → List Bytes →
    Except Halt (List Bytes × List Bytes)
  | .toAltStack, x :: s, a => .ok (s, x :: a)
  | .toAltStack, _, _ => invalidStack
  | .fromAltStack, s, x :: a => .ok (x :: s, a)
  | .fromAltStack, _, [] => .error (.fail .invalidAltstackOperation)
  | .drop2, _ :: _ :: s, a => .ok (s, a)
  | .drop2, _, _ => invalidStack
  | .dup2, x2 :: x1 :: s, a => .ok (x2 :: x1 :: x2 :: x1 :: s, a)
  | .dup2, _, _ => invalidStack
  | .dup3, x3 :: x2 :: x1 :: s, a => .ok (x3 :: x2 :: x1 :: x3 :: x2 :: x1 :: s, a)
  | .dup3, _, _ => invalidStack
  | .over2, x4 :: x3 :: x2 :: x1 :: s, a => .ok (x2 :: x1 :: x4 :: x3 :: x2 :: x1 :: s, a)
  | .over2, _, _ => invalidStack
  | .rot2, x6 :: x5 :: x4 :: x3 :: x2 :: x1 :: s, a =>
    .ok (x2 :: x1 :: x6 :: x5 :: x4 :: x3 :: s, a)
  | .rot2, _, _ => invalidStack
  | .swap2, x4 :: x3 :: x2 :: x1 :: s, a => .ok (x2 :: x1 :: x4 :: x3 :: s, a)
  | .swap2, _, _ => invalidStack
  | .ifDup, x :: s, a => .ok (if castToBool x then x :: x :: s else x :: s, a)
  | .ifDup, _, _ => invalidStack
  | .depth, s, a => .ok (serializeNum s.length :: s, a)
  | .drop, _ :: s, a => .ok (s, a)
  | .drop, _, _ => invalidStack
  | .dup, x :: s, a => .ok (x :: x :: s, a)
  | .dup, _, _ => invalidStack
  | .nip, x2 :: _ :: s, a => .ok (x2 :: s, a)
  | .nip, _, _ => invalidStack
  | .over, x2 :: x1 :: s, a => .ok (x1 :: x2 :: x1 :: s, a)
  | .over, _, _ => invalidStack
  | .pick, s, a => (pickOrRoll fRequireMinimal false s).map (·, a)
  | .roll, s, a => (pickOrRoll fRequireMinimal true s).map (·, a)
  | .rot, x3 :: x2 :: x1 :: s, a => .ok (x1 :: x3 :: x2 :: s, a)
  | .rot, _, _ => invalidStack
  | .swap, x2 :: x1 :: s, a => .ok (x1 :: x2 :: s, a)
  | .swap, _, _ => invalidStack
  | .tuck, x2 :: x1 :: s, a => .ok (x2 :: x1 :: x2 :: s, a)
  | .tuck, _, _ => invalidStack

def execUnary : UnaryOp → Int → Except Halt Int
  | .add1, bn => addAssign bn 1
  | .sub1, bn => subAssign bn 1
  | .negate, bn => negate bn
  | .abs, bn => if bn < 0 then negate bn else .ok bn
  | .not, bn => .ok (boolNum (bn = 0))
  | .notEqual0, bn => .ok (boolNum (bn ≠ 0))

def execBinary : BinaryOp → Int → Int → Int
  | .add, bn1, bn2 => bn1 + bn2
  | .sub, bn1, bn2 => bn1 - bn2
  | .boolAnd, bn1, bn2 => boolNum (bn1 ≠ 0 ∧ bn2 ≠ 0)
  | .boolOr, bn1, bn2 => boolNum (bn1 ≠ 0 ∨ bn2 ≠ 0)
  | .numEqual, bn1, bn2 => boolNum (bn1 = bn2)
  | .numEqualVerify, bn1, bn2 => boolNum (bn1 = bn2)
  | .numNotEqual, bn1, bn2 => boolNum (bn1 ≠ bn2)
  | .lessThan, bn1, bn2 => boolNum (bn1 < bn2)
  | .greaterThan, bn1, bn2 => boolNum (bn1 > bn2)
  | .lessThanOrEqual, bn1, bn2 => boolNum (bn1 ≤ bn2)
  | .greaterThanOrEqual, bn1, bn2 => boolNum (bn1 ≥ bn2)
  | .min, bn1, bn2 => if bn1 < bn2 then bn1 else bn2
  | .max, bn1, bn2 => if bn1 > bn2 then bn1 else bn2

def execHash (cr : Crypto) : HashOp → Bytes → Bytes
  | .ripemd160 => cr.ripemd160
  | .sha1 => cr.sha1
  | .sha256 => cr.sha256
  | .hash160 => cr.hash160
  | .hash256 => cr.hash256

/-- The tail of the `...VERIFY` operations: push the result, or take it off again. -/
def pushOrVerify (verify : Bool) (e : ScriptError) (ok : Bool) (s : List Bytes) :
    Except Halt (List Bytes) :=
  if verify then (if ok then .ok s else .error (.fail e)) else .ok (boolBytes ok :: s)

/-- The matching loop of `OP_CHECKMULTISIG`: each signature must match a key, in
order.  Returns the result and the number of `CheckSig` calls. -/
def multiSigLoop (cr : Crypto) (flags : ScriptFlags) (checker : SignatureChecker)
    (scriptCode : CScript) : List Bytes → List Bytes → Except Halt (Bool × Nat)
  | [], _ => .ok (true, 0)
  | _ :: _, [] => .ok (false, 0)
  | sig :: sigs, key :: keys => do
    checkSignatureEncoding cr flags sig
    checkPubKeyEncoding flags key
    let left := if checker sig key scriptCode then sigs else sig :: sigs
    if keys.length < left.length then return (false, 1)
    let (ok, n) ← multiSigLoop cr flags checker scriptCode left keys
    return (ok, n + 1)

/-- `OP_CHECKMULTISIG` and `OP_CHECKMULTISIGVERIFY`. -/
def execCheckMultiSig (cr : Crypto) (flags : ScriptFlags) (checker : SignatureChecker)
    (verify : Bool) (st : EvalState) : Except Halt EvalState := do
  let fRequireMinimal := hasFlag flags scriptVerifyMinimalData
  match st.stack with
  | [] => invalidStack
  | top :: s =>
    let nKeysCount := getInt (← scriptNum fRequireMinimal top)
    if nKeysCount < 0 ∨ 20 < nKeysCount then .error (.fail .pubKeyCount)
    else
      let nKeys := nKeysCount.toNat
      let nOpCount := st.nOpCount + nKeys
      if 201 < nOpCount then .error (.fail .opCount)
      else match s.drop nKeys with
        | [] => invalidStack
        | count :: s' =>
          let nSigsCount := getInt (← scriptNum fRequireMinimal count)
          if nSigsCount < 0 ∨ nKeysCount < nSigsCount then .error (.fail .sigCount)
          else
            let nSigs := nSigsCount.toNat
            match s'.drop nSigs with
            | [] => invalidStack
            | dummy :: bottom =>
              let sigs := s'.take nSigs
              let scriptCode := sigs.foldl (fun code sig => findAndDelete (pushData sig) code) st.codeHash
              let (ok, n) ← multiSigLoop cr flags checker scriptCode sigs (s.take nKeys)
              if hasFlag flags scriptVerifyNullDummy && !dummy.isEmpty then
                .error (.fail .sigNullDummy)
              else
                let stack ← pushOrVerify verify .checkMultiSigVerify ok bottom
                return { st with stack, nOpCount, nCheckSig := st.nCheckSig + n }

/-- `OP_CHECKSIG` and `OP_CHECKSIGVERIFY`. -/
def execCheckSig (cr : Crypto) (flags : ScriptFlags) (checker : SignatureChecker)
    (verify : Bool) (st : EvalState) : Except Halt EvalState := do
  match st.stack with
  | vchPubKey :: vchSig :: s =>
    let scriptCode := findAndDelete (pushData vchSig) st.codeHash
    checkSignatureEncoding cr flags vchSig
    checkPubKeyEncoding flags vchPubKey
    let fSuccess := checker vchSig vchPubKey scriptCode
    let stack ← pushOrVerify verify .checkSigVerify fSuccess s
    return { st with stack, nCheckSig := st.nCheckSig + 1 }
  | _ => invalidStack

/-- One case of the `switch`.  `fExec` says whether the current branch is taken
and `rest` is the script after the instruction. -/
def execOp (cr : Crypto) (flags : ScriptFlags) (checker : SignatureChecker) (fExec : Bool)
    (rest : CScript) (st : EvalState) : Operation → Except Halt EvalState
  | .number n => .ok { st with stack := serializeNum n :: st.stack }
  | .nop => .ok st
  | .upgradableNop =>
    if hasFlag flags scriptVerifyDiscourageUpgradableNops then
      .error (.fail .discourageUpgradableNops)
    else .ok st
  | .cond negated =>
    if fExec then match st.stack with
      | [] => .error (.fail .unbalancedConditional)
      | x :: s => .ok { st with stack := s, vfExec := (castToBool x != negated) :: st.vfExec }
    else .ok { st with vfExec := false :: st.vfExec }
  | .else_ => match st.vfExec with
    | [] => .error (.fail .unbalancedConditional)
    | b :: bs => .ok { st with vfExec := (!b) :: bs }
  | .endIf => match st.vfExec with
    | [] => .error (.fail .unbalancedConditional)
    | _ :: bs => .ok { st with vfExec := bs }
  | .verify => match st.stack with
    | [] => invalidStack
    | x :: s => if castToBool x then .ok { st with stack := s } else .error (.fail .verify)
  | .return_ => .error (.fail .opReturn)
  | .stack op => do
    let (stack, altstack) ←
      execStackOp (hasFlag flags scriptVerifyMinimalData) op st.stack st.altstack
    return { st with stack, altstack }
  | .size => match st.stack with
    | [] => invalidStack
    | x :: s => .ok { st with stack := serializeNum x.length :: x :: s }
  | .equal verify => match st.stack with
    | x2 :: x1 :: s => do
      let stack ← pushOrVerify verify .equalVerify (x1 == x2) s
      return { st with stack }
    | _ => invalidStack
  | .unary op => match st.stack with
    | x :: s => do
      let bn ← execUnary op (← scriptNum (hasFlag flags scriptVerifyMinimalData) x)
      return { st with stack := serializeNum bn :: s }
    | _ => invalidStack
  | .binary op => match st.stack with
    | x2 :: x1 :: s => do
      let bn1 ← scriptNum (hasFlag flags scriptVerifyMinimalData) x1
      let bn2 ← scriptNum (hasFlag flags scriptVerifyMinimalData) x2
      let bn := execBinary op bn1 bn2
      if op = .numEqualVerify then
        if castToBool (serializeNum bn) then return { st with stack := s }
        else .error (.fail .numEqualVerify)
      else return { st with stack := serializeNum bn :: s }
    | _ => invalidStack
  | .within => match st.stack with
    | x3 :: x2 :: x1 :: s => do
      let bn1 ← scriptNum (hasFlag flags scriptVerifyMinimalData) x1
      let bn2 ← scriptNum (hasFlag flags scriptVerifyMinimalData) x2
      let bn3 ← scriptNum (hasFlag flags scriptVerifyMinimalData) x3
      return { st with stack := boolBytes (bn2 ≤ bn1 ∧ bn1 < bn3) :: s }
    | _ => invalidStack
  | .hash op => match st.stack with
    | x :: s => .ok { st with stack := execHash cr op x :: s }
    | _ => invalidStack
  | .codeSeparator => .ok { st with codeHash := rest }
  | .checkSig verify => execCheckSig cr flags checker verify st
  | .checkMultiSig verify => execCheckMultiSig cr flags checker verify st
  | .bad => .error (.fail .badOpcode)

/-! ## The loop -/

/-- `fExec`: no enclosing conditional is in its untaken branch. -/
def EvalState.executing (st : EvalState) : Bool := !st.vfExec.contains false

/-- The part of the loop body between the limits on the instruction and the limit
on the stack. -/
def evalInstr (cr : Crypto) (flags : ScriptFlags) (checker : SignatureChecker) (st : EvalState)
    (i : Instr) : Except Halt EvalState :=
  if st.executing && i.opcode ≤ opPushData4 then
    if hasFlag flags scriptVerifyMinimalData && !checkMinimalPush i.data i.opcode then
      .error (.fail .minimalData)
    else .ok { st with stack := i.data :: st.stack }
  else if st.executing || (opIf ≤ i.opcode && i.opcode ≤ opEndIf) then
    execOp cr flags checker st.executing i.rest st (operation i.opcode)
  else .ok st

/-- `++nOpCount`, for the opcodes that count. -/
def EvalState.countOp (st : EvalState) (opcode : UInt8) : EvalState :=
  { st with nOpCount := if op16 < opcode then st.nOpCount + 1 else st.nOpCount }

/-- The body of the loop of `EvalScript`, once the instruction is read. -/
def evalStep (cr : Crypto) (flags : ScriptFlags) (checker : SignatureChecker) (st : EvalState)
    (i : Instr) : Except Halt EvalState :=
  if maxScriptElementSize < i.data.length then .error (.fail .pushSize)
  else if op16 < i.opcode ∧ 201 < (st.countOp i.opcode).nOpCount then .error (.fail .opCount)
  else if isDisabled i.opcode then .error (.fail .disabledOpcode)
  else match evalInstr cr flags checker (st.countOp i.opcode) i with
    | .error h => .error h
    | .ok st' =>
      if 1000 < st'.stack.length + st'.altstack.length then .error (.fail .stackSize) else .ok st'

/-- The loop of `EvalScript`.  `fuel` bounds the number of instructions. -/
def evalLoop (cr : Crypto) (flags : ScriptFlags) (checker : SignatureChecker) :
    Nat → CScript → EvalState → Except Halt EvalState
  | _, [], st => .ok st
  | 0, _ :: _, _ => .error (.fail .badOpcode)
  | fuel + 1, s, st => match getOp s with
    | none => .error (.fail .badOpcode)
    | some i => match evalStep cr flags checker st i with
      | .error h => .error h
      | .ok st' => evalLoop cr flags checker fuel i.rest st'

/-- `EvalScript`: the stack it leaves.  An exception ends as an unknown error. -/
def evalScript (cr : Crypto) (flags : ScriptFlags) (checker : SignatureChecker)
    (stack : List Bytes) (script : CScript) : Except Halt (List Bytes) :=
  if 10000 < script.length then .error (.fail .scriptSize)
  else match evalLoop cr flags checker script.length script { stack, codeHash := script } with
    | .error .throws => .error (.fail .unknownError)
    | .error h => .error h
    | .ok st => if st.vfExec.isEmpty then .ok st.stack else .error (.fail .unbalancedConditional)

/-- The top of the stack is true. -/
def checkTop : List Bytes → Except Halt Unit
  | [] => .error (.fail .evalFalse)
  | x :: _ => if castToBool x then .ok () else .error (.fail .evalFalse)

/-- The pay-to-script-hash part of `VerifyScript`, on the stack that `scriptSig`
left.  It leaves the stack of the redeemed script. -/
def verifyP2SH (cr : Crypto) (flags : ScriptFlags) (checker : SignatureChecker)
    (scriptSig : CScript) (stackCopy : List Bytes) : Except Halt (List Bytes) :=
  if !isPushOnly scriptSig then .error (.fail .sigPushOnly)
  else match stackCopy with
    | [] => .error .asserts
    | pubKey2 :: s => match evalScript cr flags checker s pubKey2 with
      | .error h => .error h
      | .ok stack => match checkTop stack with
        | .error h => .error h
        | .ok () => .ok stack

/-- The last check of `VerifyScript`. -/
def verifyCleanStack (flags : ScriptFlags) (stack : List Bytes) : Except Halt Unit :=
  if hasFlag flags scriptVerifyCleanStack then
    if !hasFlag flags scriptVerifyP2SH then .error .asserts
    else if stack.length ≠ 1 then .error (.fail .cleanStack)
    else .ok ()
  else .ok ()

/-- `VerifyScript`.  It returns `true` on `ok`, `false` on `fail`, and does not
return on `asserts`. -/
def verifyScript (cr : Crypto) (scriptSig scriptPubKey : CScript) (flags : ScriptFlags)
    (checker : SignatureChecker) : Except Halt Unit :=
  if hasFlag flags scriptVerifySigPushOnly && !isPushOnly scriptSig then
    .error (.fail .sigPushOnly)
  else match evalScript cr flags checker [] scriptSig with
    | .error h => .error h
    | .ok stack => match evalScript cr flags checker stack scriptPubKey with
      | .error h => .error h
      | .ok stack' => match checkTop stack' with
        | .error h => .error h
        | .ok () =>
          if hasFlag flags scriptVerifyP2SH && isPayToScriptHash scriptPubKey then
            match verifyP2SH cr flags checker scriptSig stack with
            | .error h => .error h
            | .ok stack'' => verifyCleanStack flags stack''
          else verifyCleanStack flags stack'

end Hivemind
