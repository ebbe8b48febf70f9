import Hivemind.Miner.Template
import Hivemind.Validation.Balance

/-!
# The fee of a transaction

Three functions work out what a transaction pays: `AcceptToMemoryPool` records it in the entry of
the pool, `CreateNewBlock` collects it for the coinbase, and `ConnectBlock` adds it to the fees
of the block.  The first takes the market outputs off, and the other two do not.

They see the transaction at different times, with different views; what the inputs are worth is
the same in all of them as long as the views give them the same outputs.  Each function has its
own lemma for what it adds to its sum, and the three sums are compared at the end: they differ by
the value of the market outputs and by nothing else.

* `SameInputs`: two views give the inputs of the transaction the same outputs.
* `selectTx_fee`, `connectInputs_fee`: what the two add to their fees.
* `fees_agree_iff`: **when the three are the same.**
* `deposit_credited`: a deposit that the miner gets as well.
-/

namespace Hivemind

open Codecs Ordered Outcomes

/-- The two views give the inputs of the transaction the same outputs. -/
def SameInputs (tx : CTransaction) (view view' : CCoinsView) : Prop :=
  ∀ txin ∈ tx.vin, view.getOutputFor txin.prevout = view'.getOutputFor txin.prevout

/-- What comes in is a matter of the outputs that are spent. -/
theorem SameInputs.getValueIn {tx : CTransaction} {view view' : CCoinsView}
    (h : SameInputs tx view view') : getValueIn view tx = getValueIn view' tx := by
  unfold SameInputs at h
  unfold Hivemind.getValueIn
  generalize tx.vin = vin at h ⊢
  generalize (0 : CAmount) = acc
  induction vin generalizing acc with
  | nil => rfl
  | cons txin vin ih =>
      rw [List.foldlM_cons, List.foldlM_cons, h txin (by simp)]
      congr 1
      funext nResult
      exact ih (fun txin' hmem => h txin' (by simp [hmem])) nResult

/-- `GetValueOutToMarket` is the sum of the market outputs. -/
theorem getValueOutToMarket_ok {tx : CTransaction} {v : CAmount}
    (h : tx.getValueOutToMarket = .ok v) : v.toInt = tx.marketDeposits := by
  obtain ⟨-, hsum⟩ := valueOutLoop_ok moneyRange_zero h
  rw [show (0 : CAmount).toInt = 0 from rfl, zero_add] at hsum
  simpa [CTransaction.marketDeposits] using hsum

/-- What the selection adds to the fees of the template. -/
theorem selectTx_fee {st : MinerState} {s s' : SelectState} {p : TxPriority}
    {ready : List TxPriority} {tx : CTransaction} (h : selectTx st s p = .ok (ready, s'))
    (htaken : s'.vtx = s.vtx ++ [tx]) :
    ∃ nValueIn nValueOut, getValueIn s.view tx = .ok nValueIn ∧
      tx.getValueOut = .ok nValueOut ∧ s'.nFees = s.nFees + (nValueIn - nValueOut) := by
  rcases selectTx_cases h with ⟨-, hsame⟩ |
    ⟨nValueIn, nValueOut, -, -, -, hin, hout, -, -, -, -, -, hvtx, -, -, hfees⟩
  · have hvtx : s'.vtx = s.vtx := by rw [hsame]
    rw [hvtx] at htaken
    have hlen := congrArg List.length htaken
    simp at hlen
  · have htx : p.tx = tx := by
      rw [hvtx, List.append_cancel_left_eq] at htaken
      simpa using htaken
    rw [htx] at hin hout
    exact ⟨nValueIn, nValueOut, hin, hout, hfees⟩

/-- What `ConnectBlock` adds to the fees of the block. -/
theorem connectInputs_fee {ctx : Context} {pindex : CBlockIndex} {cs cs' : ConnectState}
    {tx : CTransaction} (h : connectInputs ctx pindex cs tx = .ok cs')
    (hcb : tx.isCoinBase = false) :
    ∃ nValueIn nValueOut, getValueIn cs.view tx = .ok nValueIn ∧
      tx.getValueOut = .ok nValueOut ∧ cs'.nFees = cs.nFees + (nValueIn - nValueOut) := by
  simp only [connectInputs, hcb, Bool.false_eq_true, if_false, ite_dos_eq_ok, bind_eq_ok,
    raising_eq_ok] at h
  obtain ⟨-, n, -, -, nValueIn, hin, nValueOut, hout, checks, -, heq⟩ := h
  cases heq
  exact ⟨nValueIn, nValueOut, hin, hout, rfl⟩

/-- A transaction of the pool is not a coinbase. -/
theorem isCoinBase_of_accepted {ctx : PoolContext} {pcoinsTip : CCoinsView}
    {pool pool' : CTxMemPool} {tx : CTransaction} {fLimitFree fRejectInsaneFee : Bool}
    (h : acceptToMemoryPool ctx pcoinsTip pool tx fLimitFree fRejectInsaneFee = .ok pool') :
    tx.isCoinBase = false := by
  simp only [acceptToMemoryPool, checkLoose, bind_eq_ok, ite_dos_eq_ok] at h
  obtain ⟨⟨⟩, ⟨⟨⟩, -, hcb, -⟩, -⟩ := h
  simpa using hcb

/-- **When the three fees are the same**: exactly when the market outputs carry no value.
The transaction is in the pool, has been taken into a template and has passed the checks
of a block, and its inputs are the same outputs each time. -/
theorem fees_agree_iff {ctx : PoolContext} {pcoinsTip : CCoinsView} {pool pool' : CTxMemPool}
    {tx : CTransaction} {fLimitFree fRejectInsaneFee : Bool} {entry : CTxMemPoolEntry}
    {st : MinerState} {s s' : SelectState} {p : TxPriority} {ready : List TxPriority}
    {bctx : Context} {pindex : CBlockIndex} {cs cs' : ConnectState}
    (haccept : acceptToMemoryPool ctx pcoinsTip pool tx fLimitFree fRejectInsaneFee = .ok pool')
    (hentry : pool'.mapTx.find (tx.getHash ctx.hash) = some entry)
    (hselect : selectTx st s p = .ok (ready, s')) (htaken : s'.vtx = s.vtx ++ [tx])
    (hconnect : connectInputs bctx pindex cs tx = .ok cs')
    (htemplate : SameInputs tx s.view (pool.viewMemPool pcoinsTip))
    (hblock : SameInputs tx cs.view (pool.viewMemPool pcoinsTip)) :
    (s'.nFees - s.nFees = entry.nFee ∧ cs'.nFees - cs.nFees = entry.nFee) ↔
      tx.marketDeposits = 0 := by
  obtain ⟨entry', -, hfee, -, rfl⟩ := acceptToMemoryPool_ok haccept
  obtain rfl : entry' = entry := by
    simpa [CTxMemPool.addUnchecked] using hentry
  -- what comes in and the ordinary outputs are the same each time
  simp only [poolFee, bind_eq_ok, raising_eq_ok, Except.ok.injEq] at hfee
  obtain ⟨nValueIn, hin, nValueOut, hout, nValueOutToMarket, hmarket, hfee⟩ := hfee
  obtain ⟨vIn₁, vOut₁, hin₁, hout₁, hfees₁⟩ := selectTx_fee hselect htaken
  obtain ⟨vIn₂, vOut₂, hin₂, hout₂, hfees₂⟩ :=
    connectInputs_fee hconnect (isCoinBase_of_accepted haccept)
  rw [htemplate.getValueIn, hin] at hin₁
  rw [hblock.getValueIn, hin] at hin₂
  rw [hout] at hout₁ hout₂
  cases hin₁
  cases hin₂
  cases hout₁
  cases hout₂
  have hdeposit : tx.marketDeposits = 0 ↔ nValueOutToMarket = 0 := by
    rw [← getValueOutToMarket_ok hmarket]
    exact @Int64.toInt_inj nValueOutToMarket 0
  have hcancel : ∀ a : CAmount, a + (nValueIn - nValueOut) - a = entry'.nFee ↔
      nValueOutToMarket = 0 := by
    intro a
    rw [← hfee]
    grind
  rw [hfees₁, hfees₂, hcancel, hcancel, and_self, hdeposit]

/-! ## A coin of value 1 -/

/-- A node that takes every transaction, without a fee. -/
def examplePoolContext : PoolContext where
  toAcceptContext :=
    { exampleContext exampleEnv with chainHeight := 1, diskSpaceOk := true, writeBlockOk := true }
  fRequireStandard := false
  isStandardTx _ := true
  areInputsStandard _ _ := true
  minRelayTxFee := {}
  fRelayPriority := false
  limiterOk _ := true
  nTime := 0

/-- The pool with the transaction, which spends the coin of `exampleCoinView`. -/
def examplePool (tx : CTransaction) : Except Stop CTxMemPool :=
  acceptToMemoryPool examplePoolContext exampleCoinView {} tx true false

/-- The fee in the entry of the pool. -/
def exampleRecorded (tx : CTransaction) : Option CAmount :=
  (examplePool tx).toOption.bind fun pool =>
    (pool.mapTx.find (tx.getHash exampleHash)).map CTxMemPoolEntry.nFee

/-- The fees of a template that starts with the transaction. -/
def exampleCollected (tx : CTransaction) : Option CAmount :=
  (selectTx (exampleMiner []) { orphans := [], fSortedByFee := false, view := exampleCoinView }
    ⟨0, {}, tx⟩).toOption.bind fun r =>
      if r.2.vtx = [tx] then some r.2.nFees else none

/-- The fees of a block that starts with the transaction. -/
def exampleTallied (tx : CTransaction) : Option CAmount :=
  (connectInputs (exampleContext exampleEnv) { nHeight := 2 }
    { view := exampleCoinView, nTxOffset := 0 } tx).toOption.map ConnectState.nFees

/-- **A deposit that the miner gets as well**: the pool records no fee for it, and the
template and the block count the deposit as one. -/
theorem deposit_credited :
    exampleRecorded examplePaidDeposit = some 0 ∧ exampleCollected examplePaidDeposit = some 1 ∧
      exampleTallied examplePaidDeposit = some 1 := by
  refine ⟨?_, ?_, ?_⟩ <;> decide +kernel

/-- The same coin spent into a market output without value. -/
def exampleFreeDeposit : CTransaction :=
  { exampleDeposit with vout := [⟨0, exampleStealVote.getScript⟩] }

/-- The condition at work: all of the coin is the fee, for each of the three. -/
theorem fees_agree_free :
    ∃ entry s' cs', exampleRecorded exampleFreeDeposit = some entry ∧
      exampleCollected exampleFreeDeposit = some s' ∧
      exampleTallied exampleFreeDeposit = some cs' ∧ s' = entry ∧ cs' = entry := by
  have hrecorded : (exampleRecorded exampleFreeDeposit).isSome = true := by decide +kernel
  have hcollected : (exampleCollected exampleFreeDeposit).isSome = true := by decide +kernel
  have htallied : (exampleTallied exampleFreeDeposit).isSome = true := by decide +kernel
  obtain ⟨nFee, hrecorded⟩ := Option.isSome_iff_exists.mp hrecorded
  obtain ⟨nFees₁, hcollected⟩ := Option.isSome_iff_exists.mp hcollected
  obtain ⟨nFees₂, htallied⟩ := Option.isSome_iff_exists.mp htallied
  refine ⟨nFee, nFees₁, nFees₂, hrecorded, hcollected, htallied, ?_⟩
  -- the results of the three functions
  obtain ⟨pool', haccept, hfind⟩ := Option.bind_eq_some_iff.mp hrecorded
  obtain ⟨entry, hentry, rfl⟩ := Option.map_eq_some_iff.mp hfind
  obtain ⟨⟨ready, s'⟩, hselect, htaken⟩ := Option.bind_eq_some_iff.mp hcollected
  obtain ⟨cs', hconnect, rfl⟩ := Option.map_eq_some_iff.mp htallied
  simp only [Option.ite_none_right_eq_some, Option.some.injEq] at htaken
  obtain ⟨htaken, rfl⟩ := htaken
  have hsame : SameInputs exampleFreeDeposit exampleCoinView
      (CTxMemPool.viewMemPool {} exampleCoinView) := fun _ _ => rfl
  have hfees := fees_agree_iff (toOption_eq_some.mp haccept) hentry (toOption_eq_some.mp hselect)
    htaken (toOption_eq_some.mp hconnect) hsame hsame
  simpa using hfees.mpr (by decide +kernel)

end Hivemind
