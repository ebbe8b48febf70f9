import Hivemind.Lib.Retry
import Hivemind.Mempool.Accept
import Hivemind.Script.Destination
import Hivemind.Wallet.CoinSelection

/-!
# Creating a transaction

`CWallet::CreateTransaction` and `GetMinimumFee` of `wallet.cpp`, with `CTxOut::IsDust` and
`GetScriptForDestination`.  The fee policy, the random numbers, the key pool, the signatures and
the coins that are selected are parameters; a selection comes with its contract.  Doubles are
read as exact numbers.

The fee loop builds a transaction for a fee, and tries again with the fee that its size needs
when that is more.  Each iteration that asks for another one asks for more, and fees are bounded
by the range of amounts, so the loop ends; the library's lemma on such loops gives the result
together with the iteration that built it.  In an iteration, what is not paid is change, to an
output or to the fee.

With payments and a fee near the greatest amount the target of the selection wraps.  The bound
that keeps it in range is a condition on the iterations, and one on the policy is shown to be
enough.

* `createAttempt_eq_ok`, `createAttempt_again`: what an iteration of the fee loop gives.
* `addChange_balance`: change, outputs and fee make up the inputs.
* `totalFits_of_policy`: a bound on the payments that keeps the totals in range.
* `createTransaction_isPayment`: **the loop ends**, and a result pays the payees and balances.
-/

namespace Hivemind

open Codecs Outcomes Retry

/-! ## Fees -/

/-- What decides on fees. -/
structure FeePolicy where
  payTxFee : CFeeRate
  fPayAtLeastCustomFee : Bool
  /-- `mempool.estimateFee(nTxConfirmTarget)` -/
  estimateFee : CFeeRate
  minTxFee : CFeeRate
  minRelayTxFee : CFeeRate
  maxTxFee : CAmount
  fSendFreeTransactions : Bool
  /-- `mempool.estimatePriority(nTxConfirmTarget)` -/
  dPriorityNeeded : ℚ

namespace FeePolicy

variable (policy : FeePolicy)

/-- `GetFeePerK` of the custom fee, when the user chose at least that much in total. -/
def customFee (nTxBytes : UInt32) : CAmount :=
  let nFeeNeeded := policy.payTxFee.getFee nTxBytes.toUInt64
  let perK := policy.payTxFee.getFee 1000
  if policy.fPayAtLeastCustomFee ∧ 0 < nFeeNeeded ∧ nFeeNeeded < perK then perK else nFeeNeeded

/-- The fee that is asked for before the maximum is obeyed: the custom one, else the estimate,
else the default, and not below the relay fee. -/
def askedFee (nTxBytes : UInt32) : CAmount :=
  let custom := policy.customFee nTxBytes
  let estimated := if custom = 0 then policy.estimateFee.getFee nTxBytes.toUInt64 else custom
  let fallback := if estimated = 0 then policy.minTxFee.getFee nTxBytes.toUInt64 else estimated
  let relayFee := policy.minRelayTxFee.getFee nTxBytes.toUInt64
  if fallback < relayFee then relayFee else fallback

/-- `CWallet::GetMinimumFee`. -/
def getMinimumFee (nTxBytes : UInt32) : CAmount :=
  let nFeeNeeded := policy.askedFee nTxBytes
  if policy.maxTxFee < nFeeNeeded then policy.maxTxFee else nFeeNeeded

/-- May a transaction of this size and priority go without more fee? -/
def isFree (dPriority : ℚ) (nBytes : UInt32) : Bool :=
  policy.fSendFreeTransactions && nBytes ≤ 1000 &&
    if policy.dPriorityNeeded ≤ 0 then allowFree dPriority
    else policy.dPriorityNeeded ≤ dPriority

theorem getMinimumFee_le (nTxBytes : UInt32) :
    (policy.getMinimumFee nTxBytes).toInt ≤ policy.maxTxFee.toInt := by
  simp only [getMinimumFee]
  split_ifs with hmax
  · exact le_rfl
  · exact Int64.le_iff_toInt_le.mp (Int64.not_lt.mp hmax)

end FeePolicy

/-- `CTxOut::IsDust`. -/
def CTxOut.isDust (minRelayTxFee : CFeeRate) (out : CTxOut) : Bool :=
  let nSize := UInt64.ofNat (CTxOut.codec.ser out).length + 148
  out.nValue < 3 * minRelayTxFee.getFee nSize

/-- `GetScriptForDestination`. -/
def getScriptForDestination : CTxDestination → CScript
  | .noDestination => []
  | .keyID id => [0x76, 0xa9] ++ pushData id.val ++ [0x88, 0xac]
  | .scriptID id => [0xa9] ++ pushData id.val ++ [0x87]

/-! ## The wallet and the call -/

/-- A coin of the wallet, by its transaction and the index there. -/
abbrev WalletCoin (ω : Type) := ω × UInt32

/-- `setCoinsRet` and `nValueRet` of a successful `SelectCoins`: the coins sum to the value. -/
structure Funding {ω : Type} (w : WalletTxs ω) where
  setCoins : List (WalletCoin ω)
  nValueIn : CAmount
  sum_eq : integerSum (setCoins.map fun coin => w.valueAt (coin.1, coin.2.toNat)) =
    nValueIn.toInt

/-- What a call of `CreateTransaction` meets.  Where an answer may change from one iteration of
the fee loop to the next, the number of the iteration is an argument. -/
structure CreateContext {ω : Type} (w : WalletTxs ω) where
  policy : FeePolicy
  getHash : ω → Uint256
  getDepthInMainChain : ω → Int32
  /-- `chainActive.Height()` -/
  nHeight : Int32
  /-- `GetRandInt(10)`, which is zero for a lock time further back -/
  fEarlier : Bool
  /-- `GetRandInt(100)` -/
  nEarlier : Int32
  /-- `SelectCoins`: a success reaches the target -/
  selectCoins : Nat → (nTargetValue : CAmount) →
    Option { f : Funding w // nTargetValue.toInt ≤ f.nValueIn.toInt }
  /-- `coinControl->destChange`, if it is a destination -/
  destChange : Option CTxDestination
  /-- the key id of `reservekey.GetReservedKey` -/
  getReservedKey : Nat → Option CKeyID
  /-- `GetRandInt` for the place of the change -/
  getRandInt : Nat → Nat
  /-- `SignSignature`: the new `scriptSig` of an input -/
  signSignature : Nat → ω → CTransaction → (nIn : Nat) → Option CScript

/-- Why `CreateTransaction` gives no transaction. -/
inductive CreateStop where
  | amountsNotPositive | amountTooSmall | insufficientFunds | signingFailed | tooLarge
  | tooLargeForPolicy
  /-- an assertion fails -/
  | assertion
  deriving DecidableEq

/-- `strFailReason`. -/
def CreateStop.strFailReason : CreateStop → Option String
  | amountsNotPositive => some "Transaction amounts must be positive"
  | amountTooSmall => some "Transaction amount too small"
  | insufficientFunds => some "Insufficient funds"
  | signingFailed => some "Signing transaction failed"
  | tooLarge => some "Transaction too large"
  | tooLargeForPolicy => some "Transaction too large for fee policy"
  | assertion => none

/-- A payee: the script and the requested value. -/
abbrev Payee := CScript × CAmount

/-- The output for a payee. -/
def Payee.toTxOut (s : Payee) : CTxOut := ⟨s.2, s.1⟩

/-- A transaction that was created, with the coins it spends. -/
structure CreatedTx (ω : Type) where
  tx : CTransaction
  setCoins : List (WalletCoin ω)
  nFeeRet : CAmount
  deriving DecidableEq

namespace CreateContext

variable {ω : Type} {w : WalletTxs ω} (ctx : CreateContext w)

/-! ## One iteration -/

/-- The script that takes the change. -/
def scriptChange (k : Nat) : Except CreateStop CScript :=
  ctx.destChange.elim
    ((ctx.getReservedKey k).elim (.error .assertion) fun id =>
      .ok (getScriptForDestination (.keyID id)))
    fun dest => .ok (getScriptForDestination dest)

/-- The change goes to an output at a random place, or to the fee where it would be dust. -/
def addChange (k : Nat) (vout : List CTxOut) (nChange nFeeRet : CAmount) :
    Except CreateStop (List CTxOut × CAmount) :=
  if 0 < nChange then
    (ctx.scriptChange k).map fun script =>
      let newTxOut : CTxOut := ⟨nChange, script⟩
      if newTxOut.isDust ctx.policy.minRelayTxFee then (vout, nFeeRet + nChange)
      else (vout.insertIdx (ctx.getRandInt k % (vout.length + 1)) newTxOut, nFeeRet)
  else .ok (vout, nFeeRet)

/-- The input that spends a coin, not yet signed. -/
def toTxIn (coin : WalletCoin ω) : CTxIn where
  prevout := ⟨ctx.getHash coin.1, coin.2⟩
  nSequence := 0xfffffffe

/-- Sign input after input. -/
def signInputs (k : Nat) : Nat → List (WalletCoin ω) → CTransaction →
    Except CreateStop CTransaction
  | _, [], txNew => .ok txNew
  | nIn, coin :: coins, txNew =>
      (ctx.signSignature k coin.1 txNew nIn).elim (.error .signingFailed) fun scriptSig =>
        signInputs k (nIn + 1) coins
          { txNew with
            vin := txNew.vin.modify nIn fun txin => { txin with scriptSig := scriptSig } }

/-- The priority of the inputs in the next block. -/
def inputPriority (coins : List (WalletCoin ω)) : ℚ :=
  coins.foldl (fun dPriority coin =>
    dPriority + (w.valueAt (coin.1, coin.2.toNat)).toInt *
      ((ctx.getDepthInMainChain coin.1).toInt + 1)) 0

/-- Is the transaction done, or which fee does it need? -/
def checkFee (created : CreatedTx ω) : Except CreateStop (CreatedTx ω ⊕ CAmount) :=
  let nBytes := UInt32.ofNat created.tx.serSize
  let dPriority := created.tx.computePriority (ctx.inputPriority created.setCoins) nBytes.toNat
  let nFeeNeeded := ctx.policy.getMinimumFee nBytes
  if 100000 ≤ nBytes then .error .tooLarge
  else if ctx.policy.isFree dPriority nBytes then .ok (.inl created)
  else if nFeeNeeded < ctx.policy.minRelayTxFee.getFee nBytes.toUInt64 then
    .error .tooLargeForPolicy
  else if nFeeNeeded ≤ created.nFeeRet then .ok (.inl created)
  else .ok (.inr nFeeNeeded)

/-- The transaction with the coins of a selection. -/
def buildWith (vecSend : List Payee) (nLockTime : UInt32) (nValue : CAmount) (k : Nat)
    (nFeeRet : CAmount) (f : Funding w) : Except CreateStop (CreatedTx ω) := do
  let change ← ctx.addChange k (vecSend.map Payee.toTxOut) (f.nValueIn - nValue - nFeeRet) nFeeRet
  let tx ← ctx.signInputs k 0 f.setCoins
    { vin := f.setCoins.map ctx.toTxIn, vout := change.1, nLockTime := nLockTime }
  .ok ⟨tx, f.setCoins, change.2⟩

/-- Iteration `k` of the fee loop. -/
def createAttempt (vecSend : List Payee) (nLockTime : UInt32) (nValue : CAmount) (k : Nat)
    (nFeeRet : CAmount) : Except CreateStop (CreatedTx ω ⊕ CAmount) :=
  if vecSend.any fun s => s.toTxOut.isDust ctx.policy.minRelayTxFee then .error .amountTooSmall
  else
    (ctx.selectCoins k (nValue + nFeeRet)).elim (.error .insufficientFunds) fun f => do
      let created ← ctx.buildWith vecSend nLockTime nValue k nFeeRet f.val
      ctx.checkFee created

/-! ## The call -/

/-- The sum of the payments, as long as it does not turn negative. -/
def sumPayees : CAmount → List Payee → Except CreateStop CAmount
  | nValue, [] => .ok nValue
  | nValue, s :: vecSend =>
      if nValue < 0 then .error .amountsNotPositive else sumPayees (nValue + s.2) vecSend

/-- The sum of the payments, of which there is at least one. -/
def totalOfPayees (vecSend : List Payee) : Except CreateStop CAmount := do
  let nValue ← sumPayees 0 vecSend
  if vecSend = [] ∨ nValue < 0 then .error .amountsNotPositive else .ok nValue

/-- The lock time that discourages fee sniping. -/
def pickLockTime : Except CreateStop UInt32 :=
  let recent := if ctx.nHeight - 10 < 0 then 0 else ctx.nHeight - 10
  let nLockTime :=
    if ctx.fEarlier then
      if recent - ctx.nEarlier < 0 then 0 else recent - ctx.nEarlier
    else recent
  if nLockTime.toUInt32 ≤ ctx.nHeight.toUInt32 ∧ nLockTime.toUInt32 < 500000000 then
    .ok nLockTime.toUInt32
  else .error .assertion

/-- What is fixed before the fee loop. -/
def prepare (vecSend : List Payee) : Except CreateStop (CAmount × UInt32) := do
  let nValue ← totalOfPayees vecSend
  let nLockTime ← ctx.pickLockTime
  .ok (nValue, nLockTime)

/-- `CWallet::CreateTransaction`, where `none` stands for a fee loop that has not ended. -/
def createTransaction (vecSend : List Payee) (fuel : Nat) :
    Option (Except CreateStop (CreatedTx ω)) :=
  match ctx.prepare vecSend with
  | .error e => some (.error e)
  | .ok (nValue, nLockTime) => retry (ctx.createAttempt vecSend nLockTime nValue) fuel 0 0

/-! ## The payments -/

theorem toInt_sumPayees {acc nValue : CAmount} {vecSend : List Payee} (hacc : 0 ≤ acc.toInt)
    (h : sumPayees acc vecSend = .ok nValue) (hnonneg : ¬nValue < 0) :
    nValue.toInt = acc.toInt + integerSum (vecSend.map Prod.snd) := by
  induction vecSend generalizing acc with
  | nil =>
      obtain rfl := Except.ok.inj h
      simp
  | cons s vecSend ih =>
      rw [sumPayees] at h
      split_ifs at h with hneg
      have hs := Int64.le_toInt s.2
      have hs' := Int64.toInt_le s.2
      have hacc' := Int64.toInt_le acc
      have hzero : (0 : CAmount).toInt = 0 := rfl
      have hmax : Int64.maxValue.toInt = 9223372036854775807 := by decide
      have hmin : Int64.minValue.toInt = -9223372036854775808 := by decide
      -- the sum is not negative: a negative one would be found at the next payee or at the end
      have hsum : 0 ≤ (acc + s.2).toInt := by
        cases vecSend with
        | nil =>
            obtain rfl := Except.ok.inj h
            rw [Int64.lt_iff_toInt_lt] at hnonneg
            omega
        | cons s' vecSend =>
            rw [sumPayees] at h
            split_ifs at h with hneg'
            rw [Int64.lt_iff_toInt_lt] at hneg'
            omega
      have hexact : (acc + s.2).toInt = acc.toInt + s.2.toInt := by
        have hroom : acc.toInt + s.2.toInt ≤ Int64.maxValue.toInt := by
          by_contra hwrap
          have heq : (acc + s.2).toInt = acc.toInt + s.2.toInt - 2 ^ 64 := by
            rw [Int64.toInt_add, Int.bmod_eq_iff (by decide)]
            omega
          omega
        rw [Int64.toInt_add, Int.bmod_eq_of_le] <;> omega
      rw [ih hsum h, hexact, List.map_cons, integerSum_cons, Int.add_assoc]

/-- The payments sum to a value that is not negative, with nothing lost. -/
theorem totalOfPayees_eq_ok {vecSend : List Payee} {nValue : CAmount}
    (h : totalOfPayees vecSend = .ok nValue) :
    0 ≤ nValue.toInt ∧ nValue.toInt = integerSum (vecSend.map Prod.snd) := by
  obtain ⟨sum, hsum, hrest⟩ := bind_eq_ok.mp h
  split_ifs at hrest with hbad
  obtain rfl := Except.ok.inj hrest
  have hnonneg : ¬sum < 0 := fun hneg => hbad (.inr hneg)
  refine ⟨?_, by simpa using toInt_sumPayees le_rfl hsum hnonneg⟩
  rw [Int64.lt_iff_toInt_lt] at hnonneg
  exact Int.not_lt.mp hnonneg

/-! ## What an iteration gives -/

/-- Signing changes the scripts of the inputs only. -/
theorem signInputs_ok {k nIn : Nat} {coins : List (WalletCoin ω)} {txNew tx : CTransaction}
    (h : ctx.signInputs k nIn coins txNew = .ok tx) :
    tx.vout = txNew.vout ∧ tx.vin.map CTxIn.prevout = txNew.vin.map CTxIn.prevout := by
  induction coins generalizing nIn txNew with
  | nil =>
      obtain rfl := Except.ok.inj h
      exact ⟨rfl, rfl⟩
  | cons coin coins ih =>
      rw [signInputs] at h
      cases hsign : ctx.signSignature k coin.1 txNew nIn with
      | none => simp [hsign] at h
      | some scriptSig =>
          rw [hsign, Option.elim_some] at h
          obtain ⟨hvout, hvin⟩ := ih h
          refine ⟨hvout, hvin.trans (List.ext_getElem? fun i => ?_)⟩
          rw [List.getElem?_map, List.getElem?_map, List.getElem?_modify]
          cases hi : txNew.vin[i]? with
          | none => rfl
          | some txin => split_ifs <;> rfl

/-- The transaction pays every payee and has at most one output more, and its inputs are worth
its outputs and the fee. -/
structure IsPayment (vecSend : List Payee) (created : CreatedTx ω) : Prop where
  payees : (vecSend.map Payee.toTxOut).Sublist created.tx.vout
  length_le : created.tx.vout.length ≤ vecSend.length + 1
  prevouts : created.tx.vin.map CTxIn.prevout =
    created.setCoins.map fun coin => ⟨ctx.getHash coin.1, coin.2⟩
  balance : integerSum (created.setCoins.map fun coin => w.valueAt (coin.1, coin.2.toNat)) =
    integerSum (created.tx.vout.map CTxOut.nValue) + created.nFeeRet.toInt

variable {ctx} {vecSend : List Payee} {vout vout' : List CTxOut} {k : Nat}
  {nValue nValueIn nChange nFeeRet nFeeRet' : CAmount}

/-- The change is kept nowhere, in the fee, or in one output more. -/
theorem addChange_ok (h : ctx.addChange k vout nChange nFeeRet = .ok (vout', nFeeRet')) :
    (¬0 < nChange ∧ vout' = vout ∧ nFeeRet' = nFeeRet) ∨
    (0 < nChange ∧ vout' = vout ∧ nFeeRet' = nFeeRet + nChange) ∨
    (0 < nChange ∧ nFeeRet' = nFeeRet ∧
      ∃ i ≤ vout.length, ∃ script, vout' = vout.insertIdx i ⟨nChange, script⟩) := by
  rw [addChange] at h
  split_ifs at h with hpos
  · obtain ⟨script, _, hscript⟩ := map_eq_ok.mp h
    simp only at hscript
    split_ifs at hscript
    · obtain ⟨rfl, rfl⟩ := Prod.mk.inj hscript
      exact .inr (.inl ⟨hpos, rfl, rfl⟩)
    · obtain ⟨rfl, rfl⟩ := Prod.mk.inj hscript
      have hi := Nat.mod_lt (ctx.getRandInt k) (Nat.succ_pos vout.length)
      exact .inr (.inr ⟨hpos, rfl, _, Nat.lt_succ_iff.mp hi, script, rfl⟩)
  · obtain ⟨rfl, rfl⟩ := Prod.mk.inj (Except.ok.inj h)
    exact .inl ⟨hpos, rfl, rfl⟩

/-- Where the total is in range, the change is what is left of the inputs. -/
theorem toInt_change (hvalue : 0 ≤ nValue.toInt) (hfee : 0 ≤ nFeeRet.toInt)
    (hfits : nValue.toInt + nFeeRet.toInt ≤ Int64.maxValue.toInt)
    (hreach : (nValue + nFeeRet).toInt ≤ nValueIn.toInt) :
    (nValueIn - nValue - nFeeRet).toInt = nValueIn.toInt - nValue.toInt - nFeeRet.toInt ∧
      0 ≤ nValueIn.toInt - nValue.toInt - nFeeRet.toInt := by
  have hmax : Int64.maxValue.toInt = 9223372036854775807 := by decide
  have hle := Int64.toInt_le nValueIn
  have htotal : (nValue + nFeeRet).toInt = nValue.toInt + nFeeRet.toInt := by
    rw [Int64.toInt_add, Int.bmod_eq_of_le] <;> omega
  have hfirst : (nValueIn - nValue).toInt = nValueIn.toInt - nValue.toInt := by
    rw [Int64.toInt_sub, Int.bmod_eq_of_le] <;> omega
  refine ⟨?_, by omega⟩
  rw [Int64.toInt_sub, hfirst, Int.bmod_eq_of_le] <;> omega

/-- **Change, outputs and fee make up the inputs**, and the fee does not get less. -/
theorem addChange_balance (hvalue : 0 ≤ nValue.toInt) (hfee : 0 ≤ nFeeRet.toInt)
    (hsum : nValue.toInt = integerSum (vout.map CTxOut.nValue))
    (hfits : nValue.toInt + nFeeRet.toInt ≤ Int64.maxValue.toInt)
    (hreach : (nValue + nFeeRet).toInt ≤ nValueIn.toInt)
    (h : ctx.addChange k vout (nValueIn - nValue - nFeeRet) nFeeRet = .ok (vout', nFeeRet')) :
    nValueIn.toInt = integerSum (vout'.map CTxOut.nValue) + nFeeRet'.toInt ∧
      nFeeRet.toInt ≤ nFeeRet'.toInt := by
  obtain ⟨hchange, hnonneg⟩ := toInt_change hvalue hfee hfits hreach
  have hzero : (0 : CAmount).toInt = 0 := rfl
  rcases addChange_ok h with ⟨hnot, rfl, rfl⟩ | ⟨_, rfl, rfl⟩ | ⟨_, hsame, i, hi, script, rfl⟩
  · rw [Int64.lt_iff_toInt_lt] at hnot
    omega
  · have hmax : Int64.maxValue.toInt = 9223372036854775807 := by decide
    have hle := Int64.toInt_le nValueIn
    have hadd : (nFeeRet + (nValueIn - nValue - nFeeRet)).toInt =
        nFeeRet.toInt + (nValueIn - nValue - nFeeRet).toInt := by
      rw [Int64.toInt_add, Int.bmod_eq_of_le] <;> omega
    omega
  · have hperm := (List.perm_insertIdx ⟨nValueIn - nValue - nFeeRet, script⟩ vout hi).map
      CTxOut.nValue
    have hout : (⟨nValueIn - nValue - nFeeRet, script⟩ : CTxOut).nValue =
      nValueIn - nValue - nFeeRet := rfl
    rw [integerSum_perm hperm, List.map_cons, integerSum_cons, hsame, hout]
    omega

theorem addChange_sublist
    (h : ctx.addChange k vout nChange nFeeRet = .ok (vout', nFeeRet')) :
    vout.Sublist vout' ∧ vout'.length ≤ vout.length + 1 := by
  rcases addChange_ok h with ⟨_, rfl, _⟩ | ⟨_, rfl, _⟩ | ⟨_, _, i, hi, script, rfl⟩
  · exact ⟨List.Sublist.refl _, Nat.le_succ _⟩
  · exact ⟨List.Sublist.refl _, Nat.le_succ _⟩
  · refine ⟨?_, List.length_insertIdx_le_succ⟩
    have hsub := List.eraseIdx_sublist (vout.insertIdx i ⟨nChange, script⟩) i
    rwa [List.eraseIdx_insertIdx_self] at hsub

/-- A transaction that is built on a selection, where the total is in range. -/
theorem buildWith_ok {nLockTime : UInt32} {f : Funding w} {created : CreatedTx ω}
    (hvalue : 0 ≤ nValue.toInt) (hfee : 0 ≤ nFeeRet.toInt)
    (hsum : nValue.toInt = integerSum (vecSend.map Prod.snd))
    (hfits : nValue.toInt + nFeeRet.toInt ≤ Int64.maxValue.toInt)
    (hreach : (nValue + nFeeRet).toInt ≤ f.nValueIn.toInt)
    (h : ctx.buildWith vecSend nLockTime nValue k nFeeRet f = .ok created) :
    ctx.IsPayment vecSend created ∧ nFeeRet.toInt ≤ created.nFeeRet.toInt := by
  obtain ⟨⟨vout, fee⟩, hchange, hrest⟩ := bind_eq_ok.mp h
  obtain ⟨tx, hsign, hdone⟩ := bind_eq_ok.mp hrest
  obtain rfl := Except.ok.inj hdone
  obtain ⟨hvout, hvin⟩ := ctx.signInputs_ok hsign
  have hpayees : nValue.toInt =
      integerSum ((vecSend.map Payee.toTxOut).map CTxOut.nValue) := by
    rw [hsum, List.map_map]
    rfl
  obtain ⟨hbalance, hmore⟩ := addChange_balance hvalue hfee hpayees hfits hreach hchange
  obtain ⟨hsub, hlen⟩ := addChange_sublist hchange
  refine ⟨⟨?_, ?_, ?_, ?_⟩, hmore⟩
  · exact hvout ▸ hsub
  · rw [hvout]
    simpa using hlen
  · rw [hvin, List.map_map]
    rfl
  · rw [hvout, f.sum_eq]
    exact hbalance

/-- The transaction is done, or the fee that its size needs is above its fee. -/
theorem checkFee_ok {created : CreatedTx ω} {next : CreatedTx ω ⊕ CAmount}
    (h : ctx.checkFee created = .ok next) :
    next = .inl created ∨
      ∃ nBytes : UInt32, nBytes < 100000 ∧
        created.nFeeRet.toInt < (ctx.policy.getMinimumFee nBytes).toInt ∧
        next = .inr (ctx.policy.getMinimumFee nBytes) := by
  simp only [checkFee] at h
  split_ifs at h with hlarge hfree hpolicy henough
  · exact .inl (Except.ok.inj h).symm
  · exact .inl (Except.ok.inj h).symm
  · exact .inr ⟨_, UInt32.not_le.mp hlarge, Int64.lt_iff_toInt_lt.mp (Int64.not_le.mp henough),
      (Except.ok.inj h).symm⟩

/-- An iteration that does not fail has built a transaction on a selection. -/
theorem createAttempt_eq_ok {nLockTime : UInt32} {next : CreatedTx ω ⊕ CAmount}
    (h : ctx.createAttempt vecSend nLockTime nValue k nFeeRet = .ok next) :
    ∃ (f : Funding w) (created : CreatedTx ω),
      (nValue + nFeeRet).toInt ≤ f.nValueIn.toInt ∧
      ctx.buildWith vecSend nLockTime nValue k nFeeRet f = .ok created ∧
      ctx.checkFee created = .ok next := by
  rw [createAttempt] at h
  split_ifs at h
  cases hselect : ctx.selectCoins k (nValue + nFeeRet) with
  | none => simp [hselect] at h
  | some f =>
      rw [hselect, Option.elim_some] at h
      obtain ⟨created, hbuild, hcheck⟩ := bind_eq_ok.mp h
      exact ⟨f.val, created, f.property, hbuild, hcheck⟩

section InRange

variable {nLockTime : UInt32} (hvalue : 0 ≤ nValue.toInt) (hfee : 0 ≤ nFeeRet.toInt)
  (hsum : nValue.toInt = integerSum (vecSend.map Prod.snd))
  (hfits : nValue.toInt + nFeeRet.toInt ≤ Int64.maxValue.toInt)

include hvalue hfee hsum hfits

theorem createAttempt_done {created : CreatedTx ω}
    (h : ctx.createAttempt vecSend nLockTime nValue k nFeeRet = .ok (.inl created)) :
    ctx.IsPayment vecSend created := by
  obtain ⟨f, built, hreach, hbuild, hcheck⟩ := createAttempt_eq_ok h
  rcases checkFee_ok hcheck with heq | ⟨nBytes, _, _, heq⟩
  · obtain rfl := Sum.inl.inj heq
    exact (buildWith_ok hvalue hfee hsum hfits hreach hbuild).1
  · cases heq

/-- An iteration that asks for a fee asks for more than there was. -/
theorem createAttempt_again
    (h : ctx.createAttempt vecSend nLockTime nValue k nFeeRet = .ok (.inr nFeeRet')) :
    nFeeRet.toInt < nFeeRet'.toInt := by
  obtain ⟨f, built, hreach, hbuild, hcheck⟩ := createAttempt_eq_ok h
  rcases checkFee_ok hcheck with heq | ⟨nBytes, _, hlt, heq⟩
  · cases heq
  · obtain rfl := Sum.inr.inj heq
    have hmore := (buildWith_ok hvalue hfee hsum hfits hreach hbuild).2
    omega

end InRange

/-! ## The fee loop -/

variable (ctx)

/-- Iteration `k` of the fee loop for these payees begins with the fee `nFeeRet`. -/
def AttemptsWith (vecSend : List Payee) (k : Nat) (nFeeRet : CAmount) : Prop :=
  ∃ nValue nLockTime, ctx.prepare vecSend = .ok (nValue, nLockTime) ∧
    Retry.Reaches (ctx.createAttempt vecSend nLockTime nValue) 0 k nFeeRet

/-- The payments and a fee, together in the range of amounts. -/
def TotalFits (vecSend : List Payee) (nFeeRet : CAmount) : Prop :=
  integerSum (vecSend.map Prod.snd) + nFeeRet.toInt ≤ Int64.maxValue.toInt

instance instDecidableTotalFits (vecSend : List Payee) (nFeeRet : CAmount) :
    Decidable (TotalFits vecSend nFeeRet) :=
  inferInstanceAs (Decidable (_ ≤ _))

variable {ctx}

theorem prepare_eq_ok {nLockTime : UInt32} (h : ctx.prepare vecSend = .ok (nValue, nLockTime)) :
    0 ≤ nValue.toInt ∧ nValue.toInt = integerSum (vecSend.map Prod.snd) := by
  obtain ⟨sum, hsum, hrest⟩ := bind_eq_ok.mp h
  obtain ⟨lock, _, hpair⟩ := bind_eq_ok.mp hrest
  obtain ⟨rfl, -⟩ := Prod.mk.inj (Except.ok.inj hpair)
  exact totalOfPayees_eq_ok hsum

/-- No fee of the loop is negative. -/
theorem reaches_nonneg {nLockTime : UInt32}
    (hprepare : ctx.prepare vecSend = .ok (nValue, nLockTime))
    (hfits : ∀ k fee, ctx.AttemptsWith vecSend k fee → TotalFits vecSend fee)
    (h : Retry.Reaches (ctx.createAttempt vecSend nLockTime nValue) 0 k nFeeRet) :
    0 ≤ nFeeRet.toInt := by
  obtain ⟨hvalue, hsum⟩ := prepare_eq_ok hprepare
  induction h with
  | start => exact le_rfl
  | again hreach hattempt ih =>
      have hroom := hfits _ _ ⟨nValue, nLockTime, hprepare, hreach⟩
      rw [TotalFits, ← hsum] at hroom
      have hlt := createAttempt_again hvalue ih hsum hroom hattempt
      omega

/-- Where no fee that the policy may ask for takes the total out of range, no iteration begins
with such a fee. -/
theorem totalFits_of_policy
    (hpolicy : ∀ nBytes < 100000, TotalFits vecSend (ctx.policy.getMinimumFee nBytes))
    (h : ctx.AttemptsWith vecSend k nFeeRet) : TotalFits vecSend nFeeRet := by
  obtain ⟨nValue, nLockTime, hprepare, hreach⟩ := h
  cases hreach with
  | start =>
      have hle := Int64.toInt_le nValue
      rw [(prepare_eq_ok hprepare).2] at hle
      simpa [TotalFits] using hle
  | again _ hattempt =>
      obtain ⟨_, _, _, _, hcheck⟩ := createAttempt_eq_ok hattempt
      rcases checkFee_ok hcheck with heq | ⟨nBytes, hsize, _, heq⟩
      · cases heq
      · obtain rfl := Sum.inr.inj heq
        exact hpolicy nBytes hsize

theorem totalFits_of_maxTxFee (h : TotalFits vecSend ctx.policy.maxTxFee) :
    ∀ k fee, ctx.AttemptsWith vecSend k fee → TotalFits vecSend fee := by
  refine fun k fee => totalFits_of_policy fun nBytes _ => ?_
  have hle := ctx.policy.getMinimumFee_le nBytes
  rw [TotalFits] at h ⊢
  omega

/-- **The fee loop ends, and a result pays the payees and balances**, in every run whose
iterations all begin with payments and fee in range. -/
theorem createTransaction_isPayment (ctx : CreateContext w) (vecSend : List Payee)
    (hfits : ∀ k nFeeRet, ctx.AttemptsWith vecSend k nFeeRet → TotalFits vecSend nFeeRet) :
    ∃ fuel r, ctx.createTransaction vecSend fuel = some r ∧
      ∀ created, r = .ok created → ctx.IsPayment vecSend created := by
  cases hprepare : ctx.prepare vecSend with
  | error e =>
      refine ⟨0, .error e, by rw [createTransaction, hprepare], fun created h => ?_⟩
      cases h
  | ok start =>
      obtain ⟨nValue, nLockTime⟩ := start
      obtain ⟨hvalue, hsum⟩ := prepare_eq_ok hprepare
      have hroom : ∀ k fee, Retry.Reaches (ctx.createAttempt vecSend nLockTime nValue) 0 k fee →
          nValue.toInt + fee.toInt ≤ Int64.maxValue.toInt := by
        intro k fee hreach
        have := hfits k fee ⟨nValue, nLockTime, hprepare, hreach⟩
        rwa [TotalFits, ← hsum] at this
      -- the fee grows with every iteration, and is an amount
      have hlower : ∀ k fee fee',
          Retry.Reaches (ctx.createAttempt vecSend nLockTime nValue) 0 k fee →
          ctx.createAttempt vecSend nLockTime nValue k fee = .ok (.inr fee') →
          (Int64.maxValue.toInt - fee'.toInt).toNat < (Int64.maxValue.toInt - fee.toInt).toNat := by
        intro k fee fee' hreach hattempt
        have hlt := createAttempt_again hvalue (reaches_nonneg hprepare hfits hreach) hsum
          (hroom k fee hreach) hattempt
        have hle := Int64.toInt_le fee'
        omega
      obtain ⟨fuel, r, hr, hresult⟩ := retry_ends _ hlower
      refine ⟨fuel, r, by rw [createTransaction, hprepare]; exact hr, fun created h => ?_⟩
      obtain ⟨k, fee, hreach, hattempt⟩ := hresult created h
      exact createAttempt_done hvalue (reaches_nonneg hprepare hfits hreach) hsum
        (hroom k fee hreach) hattempt

end CreateContext

/-! ## A total out of range -/

/-- A wallet whose only coin has the greatest amount there is. -/
def greatestWalletTxs : WalletTxs Unit where
  vout := fun _ => [⟨Int64.maxValue, []⟩]
  isFromMe := fun _ => true

/-- A selection that takes no coin for a target that is not positive. -/
def greatestSelection (nTargetValue : CAmount) :
    Option { f : Funding greatestWalletTxs // nTargetValue.toInt ≤ f.nValueIn.toInt } :=
  if h : nTargetValue.toInt ≤ 0 then some ⟨⟨[], 0, rfl⟩, h⟩
  else some ⟨⟨[((), 0)], Int64.maxValue, rfl⟩, Int64.toInt_le nTargetValue⟩

def greatestContext : CreateContext greatestWalletTxs where
  policy := {
    payTxFee := ⟨0⟩
    fPayAtLeastCustomFee := true
    estimateFee := ⟨0⟩
    minTxFee := ⟨1000⟩
    minRelayTxFee := ⟨0⟩
    maxTxFee := 10000000
    fSendFreeTransactions := false
    dPriorityNeeded := -1 }
  getHash := fun _ => Blob.null
  getDepthInMainChain := fun _ => 6
  nHeight := 100
  fEarlier := false
  nEarlier := 0
  selectCoins := fun _ => greatestSelection
  destChange := none
  getReservedKey := fun _ => some Blob.null
  getRandInt := fun _ => 0
  signSignature := fun _ _ _ _ => some []

theorem createTransaction_isPayment_one :
    ∃ fuel r, greatestContext.createTransaction [([], 1)] fuel = some r ∧
      ∀ created, r = .ok created → greatestContext.IsPayment [([], 1)] created :=
  CreateContext.createTransaction_isPayment greatestContext [([], 1)]
    (CreateContext.totalFits_of_maxTxFee (by decide))

/-- The result for a payee of the greatest amount: nothing is spent. -/
def greatestCreated : CreatedTx Unit where
  tx := {
    vout := [⟨9223372036854775749, getScriptForDestination (.keyID Blob.null)⟩,
      ⟨Int64.maxValue, []⟩]
    nLockTime := 90 }
  setCoins := []
  nFeeRet := 60

/-- With the fee added to the greatest amount, the change makes up for what is missing. -/
theorem createTransaction_maxValue :
    greatestContext.createTransaction [([], Int64.maxValue)] 2 = some (.ok greatestCreated) ∧
      ¬greatestContext.IsPayment [([], Int64.maxValue)] greatestCreated := by
  refine ⟨by decide +kernel, fun h => ?_⟩
  exact absurd h.balance (by decide)

end Hivemind
