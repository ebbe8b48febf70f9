import Hivemind.Mempool.Pool
import Hivemind.Validation.Accept

/-!
# Accepting a transaction to the memory pool

`AcceptToMemoryPool` of `main.cpp`, with the fee rates of `amount.cpp` and the priorities of
`transaction.cpp`.  What makes a transaction or its inputs standard and the limiter of free
transactions are parameters; doubles are read as exact numbers.

The function is a row of checks, and its order matters twice: the transaction has to be new and
its inputs unspent by the pool before the view is looked at, and the values of the inputs are
added up, which may raise an exception, before the standardness of the inputs is asked for.  Each
group of checks is a function of its own, and what is proved at the end lists what a transaction
has passed when it is added.

* `CFeeRate`, `getMinRelayFee`: fee rates, with the unsigned division of the source.
* `CTransaction.computePriority`, `getPriority`: priorities.
* `CTxMemPool.viewMemPool`: the outputs of the pool on top of a view.
* `acceptToMemoryPool_ok`: **what has been checked** when a transaction is added.
-/

namespace Hivemind

open Codecs Ordered Outcomes

/-! ## Fee rates and priorities -/

/-- `CFeeRate`. -/
structure CFeeRate where
  nSatoshisPerK : CAmount := 0
  deriving DecidableEq

/-- `CFeeRate(nFeePaid, nSize)`.  The division is unsigned. -/
def CFeeRate.ofFee (nFeePaid : CAmount) (nSize : UInt64) : CFeeRate :=
  if 0 < nSize then ⟨((nFeePaid * 1000).toUInt64 / nSize).toInt64⟩ else ⟨0⟩

/-- `CFeeRate::GetFee`. -/
def CFeeRate.getFee (rate : CFeeRate) (nSize : UInt64) : CAmount :=
  let nFee := (rate.nSatoshisPerK.toUInt64 * nSize / 1000).toInt64
  if nFee = 0 ∧ 0 < rate.nSatoshisPerK then rate.nSatoshisPerK else nFee

/-- The size of a transaction on the wire. -/
def CTransaction.serSize (tx : CTransaction) : Nat := (CTransaction.codec.ser tx).length

/-- `CTransaction::CalculateModifiedSize`. -/
def CTransaction.calculateModifiedSize (tx : CTransaction) (nTxSize : Nat) : Nat :=
  tx.vin.foldl
    (fun nTxSize txin =>
      let offset := 41 + min 110 txin.scriptSig.length
      if offset < nTxSize then nTxSize - offset else nTxSize)
    (if nTxSize = 0 then tx.serSize else nTxSize)

/-- `CTransaction::ComputePriority`. -/
def CTransaction.computePriority (tx : CTransaction) (dPriorityInputs : ℚ) (nTxSize : Nat) : ℚ :=
  let nTxSize := tx.calculateModifiedSize nTxSize
  if nTxSize = 0 then 0 else dPriorityInputs / nTxSize

/-- `AllowFree`. -/
def allowFree (dPriority : ℚ) : Bool := 100000000 * 144 / 250 < dPriority

namespace CCoinsView

/-- `HaveCoins`. -/
def haveCoins (view : CCoinsView) (txid : Uint256) : Bool :=
  (view.accessCoins txid).any fun coins => !coins.vout.isEmpty

/-- `GetPriority`, which asserts that the inputs have coins. -/
def getPriority (view : CCoinsView) (tx : CTransaction) (nHeight : Int) : Except Stop ℚ :=
  if tx.isCoinBase then .ok 0
  else do
    let dResult ← tx.vin.foldlM
      (fun (dResult : ℚ) txin => match view.accessCoins txin.prevout.hash with
        | none => .error .asserted
        | some coins => match coins.output txin.prevout.n with
          | none => .ok dResult
          | some txout =>
            if coins.nHeight < nHeight then
              .ok (dResult + txout.nValue.toInt * (nHeight - coins.nHeight))
            else .ok dResult)
      (0 : ℚ)
    .ok (tx.computePriority dResult 0)

end CCoinsView

/-! ## The pool as a view -/

/-- `MEMPOOL_HEIGHT`. -/
def mempoolHeight : Int := 0x7fffffff

/-- `CCoinsViewMemPool`: the outputs of the pool on top of a view. -/
def CTxMemPool.viewMemPool (pool : CTxMemPool) (base : CCoinsView) : CCoinsView :=
  { base with
    coins := base.coins.putAll
      (pool.mapTx.entries.map fun p => (p.1, CCoins.fromTx p.2.tx mempoolHeight)) }

/-- `ApplyDeltas`, from zero. -/
def CTxMemPool.deltas (pool : CTxMemPool) (txid : Uint256) : ℚ × CAmount :=
  (pool.mapDeltas.find txid).getD (0, 0)

/-! ## `AcceptToMemoryPool` -/

/-- What the function reads besides the view and the pool. -/
structure PoolContext extends AcceptContext where
  /-- `Params().RequireStandard()`. -/
  fRequireStandard : Bool
  isStandardTx : CTransaction → Bool
  areInputsStandard : CTransaction → CCoinsView → Bool
  minRelayTxFee : CFeeRate
  /-- `-relaypriority`. -/
  fRelayPriority : Bool
  /-- The limiter of free transactions lets one of this size pass. -/
  limiterOk : Nat → Bool
  /-- `GetTime()`. -/
  nTime : Int

def maxStandardTxSigOps : Nat := maxBlockSigOps / 5
def defaultBlockPrioritySize : Nat := 50000

def mandatoryScriptVerifyFlags : ScriptFlags := scriptVerifyP2SH
def standardScriptVerifyFlags : ScriptFlags :=
  mandatoryScriptVerifyFlags ||| standardNotMandatoryVerifyFlags

/-- `GetMinRelayFee`, with free transactions allowed. -/
def getMinRelayFee (ctx : PoolContext) (pool : CTxMemPool) (tx : CTransaction) (nBytes : Nat) :
    CAmount :=
  let deltas := pool.deltas (tx.getHash ctx.hash)
  if 0 < deltas.1 ∨ 0 < deltas.2 then 0
  else
    let nMinFee := if nBytes < defaultBlockPrioritySize - 1000 then 0
      else ctx.minRelayTxFee.getFee (UInt64.ofNat nBytes)
    if moneyRange nMinFee then nMinFee else maxMoney

/-- The fee that goes into the entry: what comes in, less the ordinary outputs, less the
market outputs. -/
def poolFee (view : CCoinsView) (tx : CTransaction) : Except Stop CAmount := do
  let nValueIn ← getValueIn view tx
  let nValueOut ← raising tx.getValueOut
  let nValueOutToMarket ← raising tx.getValueOutToMarket
  .ok (nValueIn - nValueOut - nValueOutToMarket)

/-- The tests of the fee. -/
def checkPoolFee (ctx : PoolContext) (pool : CTxMemPool) (view : CCoinsView)
    (entry : CTxMemPoolEntry) (fLimitFree fRejectInsaneFee : Bool) : Except Stop Unit := do
  let nSize := entry.getTxSize
  let relayFee := ctx.minRelayTxFee.getFee (UInt64.ofNat nSize)
  let dPriority ← view.getPriority entry.tx (ctx.chainHeight + 1)
  if fLimitFree && entry.nFee < getMinRelayFee ctx pool entry.tx nSize then dos 0 .insufficientFee
  else if ctx.fRelayPriority && entry.nFee < relayFee && !allowFree dPriority then
    dos 0 .insufficientPriority
  else if fLimitFree && entry.nFee < relayFee && !ctx.limiterOk nSize then dos 0 .rateLimitedFree
  else if fRejectInsaneFee && relayFee * 10000 < entry.nFee then .error .failed
  else .ok ()

/-- The tests before the view is looked at. -/
def checkLoose (ctx : PoolContext) (pool : CTxMemPool) (tx : CTransaction) : Except Stop Unit := do
  checkTransaction tx
  if tx.isCoinBase then dos 100 .coinbase
  else if ctx.fRequireStandard && !ctx.isStandardTx tx then dos 0 .nonstandard
  else if !isFinalTx ctx.toAcceptContext tx (ctx.chainHeight + 1) 0 then dos 0 .nonFinal
  else if pool.contains (tx.getHash ctx.hash) || pool.conflicts tx then .error .failed
  else .ok ()

/-- The tests of the inputs before the fee. -/
def checkPoolInputs (ctx : PoolContext) (view : CCoinsView) (tx : CTransaction) :
    Except Stop Unit :=
  if view.haveCoins (tx.getHash ctx.hash) then .error .failed
  else if tx.vin.any fun txin => !view.haveCoins txin.prevout.hash then .error .failed
  else if !view.haveInputs tx then invalid .badTxnsInputsSpent
  else if ctx.fRequireStandard && !ctx.areInputsStandard tx view then .error .failed
  else do
    let nSigOps ← getP2SHSigOpCount tx view
    if maxStandardTxSigOps < getLegacySigOpCount tx + nSigOps then dos 0 .badTxnsTooManySigOps
    else .ok ()

/-- `AcceptToMemoryPool`.  `GetValueIn` has been called before the standardness of the
inputs is tested; it fails in no other case than `HaveInputs`. -/
def acceptToMemoryPool (ctx : PoolContext) (pcoinsTip : CCoinsView) (pool : CTxMemPool)
    (tx : CTransaction) (fLimitFree fRejectInsaneFee : Bool) : Except Stop CTxMemPool := do
  checkLoose ctx pool tx
  let view := pool.viewMemPool pcoinsTip
  checkPoolInputs ctx view tx
  let nFee ← poolFee view tx
  let dPriority ← view.getPriority tx ctx.chainHeight
  let entry : CTxMemPoolEntry :=
    { tx, nFee, nTime := ctx.nTime, dPriority, nHeight := UInt32.ofInt ctx.chainHeight }
  checkPoolFee ctx pool view entry fLimitFree fRejectInsaneFee
  let _ ← checkInputs ctx.toEnv tx view (ctx.chainHeight + 1) true standardScriptVerifyFlags false
  let _ ← checkInputs ctx.toEnv tx view (ctx.chainHeight + 1) true mandatoryScriptVerifyFlags false
  .ok (pool.addUnchecked (tx.getHash ctx.hash) entry)

/-- **What a transaction of the pool has passed**: it is added by the step of the pool that
tests it, and its entry has the fee of `poolFee`. -/
theorem acceptToMemoryPool_ok {ctx : PoolContext} {pcoinsTip : CCoinsView}
    {pool pool' : CTxMemPool} {tx : CTransaction} {fLimitFree fRejectInsaneFee : Bool}
    (h : acceptToMemoryPool ctx pcoinsTip pool tx fLimitFree fRejectInsaneFee = .ok pool') :
    ∃ entry, entry.tx = tx ∧ poolFee (pool.viewMemPool pcoinsTip) tx = .ok entry.nFee ∧
      PoolStep.admits ctx.hash pool tx = true ∧
      pool' = pool.addUnchecked (tx.getHash ctx.hash) entry := by
  simp only [acceptToMemoryPool, bind_eq_ok, Except.ok.injEq] at h
  obtain ⟨⟨⟩, hloose, ⟨⟩, -, nFee, hfee, dPriority, -, ⟨⟩, -, -, -, -, -, rfl⟩ := h
  refine ⟨_, rfl, hfee, ?_, rfl⟩
  simp only [checkLoose, bind_eq_ok, ite_dos_eq_ok] at hloose
  obtain ⟨⟨⟩, hcheck, -, -, -, hrest⟩ := hloose
  split_ifs at hrest with hin
  rw [PoolStep.admits, hcheck]
  simpa [Except.isOk, Except.toBool] using hin

end Hivemind
