import Hivemind.Coins.Coins
import Hivemind.Lib.Outcome
import Hivemind.Primitives.Market
import Hivemind.Script.Interpreter

/-!
# Validating transactions

The parts of `main.cpp` and `primitives/transaction.cpp` that judge one transaction:
`CheckTransaction` without context, `CheckInputs` against a view, and `UpdateCoins`, which
applies it.  A function that does not return `true` stops with a `Stop`: a verdict about the
transaction, or something that never gets as far as a verdict.

A verdict carries the score for the peer, the code and the reason, as `CValidationState` keeps
them, so that a statement about an error is about the one that the source reports.  Exceptions
and failed assertions are stops of their own, since what an exception leaves undone matters to
the callers.  The hash, the functions that scripts call and the checks of signatures are in
`Env`, which nothing looks into.

* `checkTransaction`: the checks without context, with the running sum of the outputs.
* `CTransaction.getValueOut`, `CTransaction.getValueOutToMarket`: the two sums of outputs.
* `checkInputs`: the sums of the inputs, and the scripts, which may be left for later.
* `updateCoins`: spend the inputs and add the outputs, with the undo data.
-/

namespace Hivemind

open Codecs Outcomes

/-! ## Verdicts -/

/-- The reject reasons of a `CValidationState`. -/
inductive RejectReason where
  | badTxnsVinEmpty | badTxnsVoutEmpty | badTxnsOversize
  | badTxnsVoutNegative | badTxnsVoutTooLarge | badTxnsTxOutTotalTooLarge
  | badTxnsInputsDuplicate | badCbLength | badTxnsPrevoutNull
  | inputsUnavailable | prematureSpendOfCoinbase | inputValuesOutOfRange
  | inBelowOut | feeNegative | feeOutOfRange
  | nonMandatoryScriptVerifyFlag
  | mandatoryScriptVerifyFlagFailed (e : ScriptError)
  | highHash | timeTooNew | badTxnMrklRoot | badTxnsDuplicate | badBlkLength
  | badCbMissing | badCbMultiple | badBlkSigOps
  | badTxnsBIP30 | inputsMissingOrSpent | scriptCheckQueue
  | duplicate | badPrevBlk | badDiffBits | timeTooOld | checkpointMismatch | forkBeforeCheckpoint
  | badVersion | badTxnsNonfinal | badCbHeight
  | coinbase | nonstandard | nonFinal | badTxnsInputsSpent | badTxnsTooManySigOps
  | insufficientFee | insufficientPriority | rateLimitedFree
  deriving DecidableEq, Repr

/-- A C++ exception. -/
inductive Raised where
  /-- `std::ios_base::failure`, out of a stream. -/
  | stream (e : ReadError)
  /-- `std::runtime_error`, out of `GetValueOut`. -/
  | valueOutOfRange
  deriving DecidableEq, Repr

/-- Why a function does not return `true`. -/
inductive Stop where
  /-- `state.DoS(nDoS, ...)`, or `state.Invalid` at level 0. -/
  | reject (nDoS : Nat) (reason : RejectReason) (corruption : Bool)
  /-- An exception leaves the function. -/
  | raised (e : Raised)
  /-- A failed `assert`. -/
  | asserted
  /-- `return error(...)`: the disk or the undo data let the node down. -/
  | failed
  deriving DecidableEq, Repr

/-- The function returned, if only with `false`. -/
def Stop.IsVerdict : Stop → Prop
  | reject _ _ _ => True
  | failed => True
  | raised _ => False
  | asserted => False

/-- `state.DoS(nDoS, false, code, reason)`. -/
def dos {α : Type} (nDoS : Nat) (reason : RejectReason) : Except Stop α :=
  .error (.reject nDoS reason false)

/-- `state.Invalid(false, code, reason)`. -/
def invalid {α : Type} (reason : RejectReason) : Except Stop α := dos 0 reason

@[simp] theorem ite_dos_eq_ok {α : Type} {p : Prop} [Decidable p] {nDoS : Nat}
    {reason : RejectReason} {x : Except Stop α} {a : α} :
    (if p then dos nDoS reason else x) = .ok a ↔ ¬ p ∧ x = .ok a := by
  split_ifs with h
  · simp [dos, h]
  · simp [h]

@[simp] theorem ite_invalid_eq_ok {α : Type} {p : Prop} [Decidable p] {reason : RejectReason}
    {x : Except Stop α} {a : α} :
    (if p then invalid reason else x) = .ok a ↔ ¬ p ∧ x = .ok a := ite_dos_eq_ok

/-- An exception of a callee is an exception of the caller. -/
def raising {α : Type} (x : Except Raised α) : Except Stop α := x.mapError .raised

@[simp] theorem raising_eq_ok {α : Type} {x : Except Raised α} {a : α} :
    raising x = .ok a ↔ x = .ok a := by
  cases x <;> simp [raising, Except.mapError]

/-- The functions the node computes with but does not look into: the double SHA-256
of a serialized object, those of the interpreter, and the check of a signature of
input `nIn` of a transaction. -/
structure Env where
  hash : Bytes → Uint256
  crypto : Crypto
  checker : CTransaction → Nat → SignatureChecker

/-! ## `CheckTransaction` -/

def maxBlockSize : Nat := 1000000
def maxBlockSigOps : Nat := maxBlockSize / 50

/-- The loop over the outputs, with the running `nValueOut`. -/
def checkOutputs : CAmount → List CTxOut → Except Stop Unit
  | _, [] => .ok ()
  | nValueOut, txout :: vout =>
    if txout.nValue < 0 then dos 100 .badTxnsVoutNegative
    else if maxMoney < txout.nValue then dos 100 .badTxnsVoutTooLarge
    else if !moneyRange (nValueOut + txout.nValue) then dos 100 .badTxnsTxOutTotalTooLarge
    else checkOutputs (nValueOut + txout.nValue) vout

/-- `CheckTransaction`. -/
def checkTransaction (tx : CTransaction) : Except Stop Unit :=
  if tx.vin.isEmpty then dos 10 .badTxnsVinEmpty
  else if tx.vout.isEmpty then dos 10 .badTxnsVoutEmpty
  else if maxBlockSize < (CTransaction.codec.ser tx).length then dos 100 .badTxnsOversize
  else do
    checkOutputs 0 tx.vout
    if ¬ (tx.vin.map CTxIn.prevout).Nodup then dos 100 .badTxnsInputsDuplicate
    else if tx.isCoinBase then
      if tx.vin.any fun txin => txin.scriptSig.length < 2 || 100 < txin.scriptSig.length then
        dos 100 .badCbLength
      else .ok ()
    else if tx.vin.any fun txin => txin.prevout.isNull then dos 10 .badTxnsPrevoutNull
    else .ok ()

/-! ## Values -/

/-- The loop of `GetValueOut` and of `GetValueOutToMarket`: the outputs for which
`IsMarketScript` answers `market` are added up. -/
def valueOutLoop (market : Bool) : CAmount → List CTxOut → Except Raised CAmount
  | nValueOut, [] => .ok nValueOut
  | nValueOut, txout :: vout => match isMarketScript txout.scriptPubKey with
    | .error e => .error (.stream e)
    | .ok b =>
      if b ≠ market then valueOutLoop market nValueOut vout
      else if !moneyRange txout.nValue || !moneyRange (nValueOut + txout.nValue) then
        .error .valueOutOfRange
      else valueOutLoop market (nValueOut + txout.nValue) vout

/-- `CTransaction::GetValueOut`. -/
def CTransaction.getValueOut (tx : CTransaction) : Except Raised CAmount :=
  valueOutLoop false 0 tx.vout

/-- `CTransaction::GetValueOutToMarket`. -/
def CTransaction.getValueOutToMarket (tx : CTransaction) : Except Raised CAmount :=
  valueOutLoop true 0 tx.vout

/-! ## `CheckInputs` -/

/-- `COINBASE_MATURITY`. -/
def coinbaseMaturity : Int := 1

/-- The first loop of `CheckInputs`, with the running `nValueIn`. -/
def sumInputs (view : CCoinsView) (nSpendHeight : Int) : CAmount → List CTxIn → Except Stop CAmount
  | nValueIn, [] => .ok nValueIn
  | nValueIn, txin :: vin =>
    let coins := view.getCoins txin.prevout.hash
    if coins.fCoinBase && nSpendHeight - coins.nHeight < coinbaseMaturity then
      invalid .prematureSpendOfCoinbase
    else match view.getOutputFor txin.prevout with
      | none => .error .asserted
      | some txout =>
        if !moneyRange txout.nValue || !moneyRange (nValueIn + txout.nValue) then
          dos 100 .inputValuesOutOfRange
        else sumInputs view nSpendHeight (nValueIn + txout.nValue) vin

/-- `CScriptCheck`. -/
structure CScriptCheck where
  scriptPubKey : CScript
  txTo : CTransaction
  nIn : Nat
  nFlags : ScriptFlags

/-- `CScriptCheck::operator()`: `none` when the script succeeds, else its error. -/
def CScriptCheck.run (env : Env) (check : CScriptCheck) : Except Stop (Option ScriptError) :=
  let scriptSig := (check.txTo.vin[check.nIn]?.map CTxIn.scriptSig).getD []
  match verifyScript env.crypto scriptSig check.scriptPubKey check.nFlags
      (env.checker check.txTo check.nIn) with
  | .ok () => .ok none
  | .error (.fail e) => .ok (some e)
  | .error _ => .error .asserted

/-- `STANDARD_NOT_MANDATORY_VERIFY_FLAGS`. -/
def standardNotMandatoryVerifyFlags : ScriptFlags :=
  scriptVerifyStrictEnc ||| scriptVerifyMinimalData ||| scriptVerifyNullDummy |||
    scriptVerifyDiscourageUpgradableNops ||| scriptVerifyCleanStack

/-- A script check has failed with `e`: try again with the mandatory flags only, to
tell what kind of failure it is. -/
def scriptCheckFailed {α : Type} (env : Env) (check : CScriptCheck) (e : ScriptError) :
    Except Stop α :=
  if hasFlag check.nFlags standardNotMandatoryVerifyFlags then
    (CScriptCheck.run env
        { check with nFlags := check.nFlags &&& ~~~standardNotMandatoryVerifyFlags }).bind fun
      | none => invalid .nonMandatoryScriptVerifyFlag
      | some _ => dos 100 (.mandatoryScriptVerifyFlagFailed e)
  else dos 100 (.mandatoryScriptVerifyFlagFailed e)

/-- The second loop of `CheckInputs`, from input `i` on.  With `deferred` (a non-null
`pvChecks`) it collects the checks instead of running them. -/
def checkScripts (env : Env) (tx : CTransaction) (view : CCoinsView) (flags : ScriptFlags)
    (deferred : Bool) : Nat → List CTxIn → Except Stop (List CScriptCheck)
  | _, [] => .ok []
  | i, txin :: vin => match view.getOutputFor txin.prevout with
    | none => .error .asserted
    | some txout =>
      let check : CScriptCheck := ⟨txout.scriptPubKey, tx, i, flags⟩
      if deferred then
        (checkScripts env tx view flags deferred (i + 1) vin).map (check :: ·)
      else (check.run env).bind fun
        | none => checkScripts env tx view flags deferred (i + 1) vin
        | some e => scriptCheckFailed env check e

/-- `CheckInputs`: the checks it leaves for later.  `nSpendHeight` is one more than the
height of the view's best block. -/
def checkInputs (env : Env) (tx : CTransaction) (view : CCoinsView) (nSpendHeight : Int)
    (fScriptChecks : Bool) (flags : ScriptFlags) (deferred : Bool) :
    Except Stop (List CScriptCheck) :=
  if tx.isCoinBase then .ok []
  else if !view.haveInputs tx then invalid .inputsUnavailable
  else do
    let nValueIn ← sumInputs view nSpendHeight 0 tx.vin
    let nValueOut ← raising tx.getValueOut
    if nValueIn < nValueOut then dos 100 .inBelowOut
    else
      let nTxFee := nValueIn - nValueOut
      if nTxFee < 0 then dos 100 .feeNegative
      else if !moneyRange nTxFee then dos 100 .feeOutOfRange
      else if fScriptChecks then checkScripts env tx view flags deferred 0 tx.vin
      else .ok []

/-! ## `UpdateCoins` -/

/-- `CTxInUndo`. -/
structure CTxInUndo where
  txout : CTxOut
  fCoinBase : Bool := false
  nHeight : Int := 0
  nVersion : Int32 := 0
  deriving DecidableEq

/-- `CTxUndo`. -/
abbrev CTxUndo := List CTxInUndo

/-- The undo information for one spent output; the coins it was taken from leave
their metadata with it when it was the last one. -/
def CTxInUndo.ofSpend (txout : CTxOut) (coins : CCoins) : CTxInUndo :=
  if coins.vout.isEmpty then
    { txout, fCoinBase := coins.fCoinBase, nHeight := coins.nHeight, nVersion := coins.nVersion }
  else { txout }

/-- Mark the inputs spent, one after another. -/
def spendInputs : List CTxIn → CCoinsView → Except Stop (CCoinsView × CTxUndo)
  | [], view => .ok (view, [])
  | txin :: vin, view => match view.getOutputFor txin.prevout with
    | none => .error .asserted
    | some txout =>
      let coins := (view.getCoins txin.prevout.hash).spend txin.prevout.n
      (spendInputs vin (view.setCoins txin.prevout.hash coins)).map fun p =>
        (p.1, CTxInUndo.ofSpend txout coins :: p.2)

/-- `UpdateCoins`. -/
def updateCoins (env : Env) (tx : CTransaction) (view : CCoinsView) (nHeight : Int) :
    Except Stop (CCoinsView × CTxUndo) :=
  (spendInputs (if tx.isCoinBase then [] else tx.vin) view).map fun p =>
    (p.1.setCoins (tx.getHash env.hash) (CCoins.fromTx tx nHeight), p.2)

/-! ## Signature operations -/

/-- `GetLegacySigOpCount`. -/
def getLegacySigOpCount (tx : CTransaction) : Nat :=
  (tx.vin.map fun txin => getSigOpCount false txin.scriptSig).sum +
    (tx.vout.map fun txout => getSigOpCount false txout.scriptPubKey).sum

/-- `GetP2SHSigOpCount`, which asserts that the inputs are available. -/
def getP2SHSigOpCount (tx : CTransaction) (view : CCoinsView) : Except Stop Nat :=
  if tx.isCoinBase then .ok 0
  else tx.vin.foldlM
    (fun nSigOps txin => match view.getOutputFor txin.prevout with
      | none => .error .asserted
      | some prevout =>
        if isPayToScriptHash prevout.scriptPubKey then
          .ok (nSigOps + getP2SHSigOpCountOf prevout.scriptPubKey txin.scriptSig)
        else .ok nSigOps)
    0

end Hivemind
