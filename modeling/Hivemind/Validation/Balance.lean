import Hivemind.Validation.Transactions

/-!
# The balance of one transaction

Three notions of "value out" meet here.  `CheckTransaction` bounds the sum of all outputs,
`CheckInputs` compares the inputs with the outputs that `GetValueOut` does not skip as market
scripts, and `UpdateCoins` puts every output into the view that is not provably unspendable.

So an output with a market object is put into the view and paid by nobody.  The balance is worked
out for every transaction that passes the two checks, as an equation between amounts: the inputs
go, the coins that are overwritten under the same id go, and the outputs come that the view
keeps.  The bounds of the checks then turn it into one between integers.

* `checkTransaction_ok`, `checkInputs_ok`: what the checks say, as far as the money goes.
* `spendInputs_spec`: spending distinct, available inputs takes their values.
* `updateCoins_spec`: what a checked transaction does to the total, to the last unit.
* `total_le_iff`: **it does not grow exactly when the market outputs are paid for.**
* `deposit_creates_money`, `paid_deposit_keeps_total`: a deposit of each kind.
-/

namespace Hivemind

open Codecs Ordered Outcomes

/-! ## Sums over outputs and inputs -/

/-- `IsMarketScript` returns `true`. -/
def isMarket (s : CScript) : Bool :=
  match isMarketScript s with
  | .ok b => b
  | .error _ => false

/-- The sum of the outputs that satisfy `p`. -/
def outputSum (p : CTxOut → Bool) (vout : List CTxOut) : Int :=
  (vout.map fun o => if p o then o.nValue.toInt else 0).sum

namespace CTransaction

/-- The outputs that carry market objects. -/
def marketDeposits (tx : CTransaction) : Int := outputSum (fun o => isMarket o.scriptPubKey) tx.vout

/-- The other outputs. -/
def ordinaryValue (tx : CTransaction) : Int := outputSum (fun o => !isMarket o.scriptPubKey) tx.vout

/-- The outputs that no view keeps. -/
def unspendableValue (tx : CTransaction) : Int :=
  outputSum (fun o => isUnspendable o.scriptPubKey) tx.vout

end CTransaction

/-- The value of the output that an input spends. -/
def inputValue (view : CCoinsView) (txin : CTxIn) : Int :=
  ((view.getOutputFor txin.prevout).map fun o => o.nValue.toInt).getD 0

/-- The sum of the inputs. -/
def inputSum (view : CCoinsView) (vin : List CTxIn) : Int := (vin.map (inputValue view)).sum

/-- The inputs that spend outputs of the transaction `txid`. -/
def inputsOf (txid : Uint256) (vin : List CTxIn) : List CTxIn :=
  vin.filter fun txin => txin.prevout.hash = txid

/-- What the coins of `txid` are worth once the inputs are spent: `UpdateCoins`
overwrites them. -/
def overwrittenValue (txid : Uint256) (view : CCoinsView) (vin : List CTxIn) : Int :=
  (view.getCoins txid).value - inputSum view (inputsOf txid vin)

/-- A market script starts with a push, so it is not taken for unspendable. -/
theorem not_isUnspendable_of_isMarket {s : CScript} (h : isMarket s = true) :
    isUnspendable s = false := by
  have hctr : ∃ o, marketObjCtr s = .ok (some o) := by
    unfold isMarket isMarketScript at h
    split_ifs at h
    cases hc : marketObjCtr s with
    | error e => simp [hc] at h
    | ok r =>
        cases r with
        | none => simp [hc] at h
        | some o => exact ⟨o, rfl⟩
  obtain ⟨⟨op, o⟩, hctr⟩ := hctr
  obtain ⟨data, r, ⟨hop, hhead⟩, -⟩ := marketObjCtr_eq_some.mp hctr
  obtain ⟨i, hi, rfl⟩ := Option.map_eq_some_iff.mp hop
  cases s with
  | nil => rfl
  | cons b s =>
      by_contra hc
      have hb : b = opReturn := by simpa [isUnspendable] using hc
      rw [getOp_of_gt (by rw [hb]; decide)] at hi
      obtain rfl := Option.some.inj hi
      simp at hhead

/-! ## What the checks say -/

theorem checkOutputs_ok {acc : CAmount} {vout : List CTxOut} (h : checkOutputs acc vout = .ok ()) :
    ∀ o ∈ vout, moneyRange o.nValue = true := by
  induction vout generalizing acc with
  | nil => simp
  | cons o vout ih =>
      simp only [checkOutputs, dos] at h
      split_ifs at h with h1 h2 h3
      intro o' ho'
      rcases List.mem_cons.mp ho' with rfl | ho'
      · rw [moneyRange, Bool.and_eq_true, decide_eq_true_eq, decide_eq_true_eq]
        exact ⟨Int64.not_lt.mp h1, Int64.not_lt.mp h2⟩
      · exact ih h o' ho'

/-- **What `CheckTransaction` checks**, as far as the money goes. -/
theorem checkTransaction_ok {tx : CTransaction} (h : checkTransaction tx = .ok ()) :
    (∀ o ∈ tx.vout, moneyRange o.nValue = true) ∧ (tx.vin.map CTxIn.prevout).Nodup := by
  simp only [checkTransaction, ite_dos_eq_ok, bind_eq_ok, not_not] at h
  obtain ⟨-, -, -, ⟨⟩, hout, hnodup, -⟩ := h
  exact ⟨checkOutputs_ok hout, hnodup⟩

theorem valueOutLoop_ok {market : Bool} {acc v : CAmount} {vout : List CTxOut}
    (hacc : moneyRange acc = true) (h : valueOutLoop market acc vout = .ok v) :
    moneyRange v = true ∧
      v.toInt = acc.toInt + outputSum (fun o => isMarket o.scriptPubKey == market) vout := by
  induction vout generalizing acc with
  | nil =>
      obtain rfl := Except.ok.inj h
      exact ⟨hacc, by simp [outputSum]⟩
  | cons o vout ih =>
      rw [valueOutLoop] at h
      cases hm : isMarketScript o.scriptPubKey with
      | error e =>
          rw [hm] at h
          cases h
      | ok b =>
          have hb : isMarket o.scriptPubKey = b := by rw [isMarket, hm]
          simp only [hm] at h
          split_ifs at h with hne hrange
          · obtain ⟨hv, hsum⟩ := ih hacc h
            refine ⟨hv, ?_⟩
            simp [outputSum, hb, hne] at hsum ⊢
            exact hsum
          · simp only [Bool.or_eq_true, Bool.not_eq_true', not_or, Bool.not_eq_false] at hrange
            obtain ⟨hv, hsum⟩ := ih hrange.2 h
            refine ⟨hv, ?_⟩
            rw [hsum, toInt_add_of_moneyRange hacc hrange.1]
            simp only [ne_eq, not_not] at hne
            simp only [outputSum, List.map_cons, List.sum_cons, hb, hne, beq_self_eq_true, if_true]
            omega

theorem moneyRange_zero : moneyRange 0 = true := by decide

/-- `GetValueOut` is the sum of the outputs that are not market outputs. -/
theorem getValueOut_ok {tx : CTransaction} {v : CAmount} (h : tx.getValueOut = .ok v) :
    moneyRange v = true ∧ v.toInt = tx.ordinaryValue := by
  obtain ⟨hv, hsum⟩ := valueOutLoop_ok moneyRange_zero h
  refine ⟨hv, ?_⟩
  rw [hsum, CTransaction.ordinaryValue]
  simp

theorem sumInputs_ok {view : CCoinsView} {nSpendHeight : Int} {acc v : CAmount} {vin : List CTxIn}
    (hacc : moneyRange acc = true) (h : sumInputs view nSpendHeight acc vin = .ok v) :
    moneyRange v = true ∧ v.toInt = acc.toInt + inputSum view vin := by
  induction vin generalizing acc with
  | nil =>
      obtain rfl := Except.ok.inj h
      exact ⟨hacc, by simp [inputSum]⟩
  | cons txin vin ih =>
      simp only [sumInputs, dos, invalid] at h
      split_ifs at h
      cases ho : view.getOutputFor txin.prevout with
      | none =>
          rw [ho] at h
          cases h
      | some o =>
          simp only [ho] at h
          split_ifs at h with hrange
          simp only [Bool.or_eq_true, Bool.not_eq_true', not_or, Bool.not_eq_false] at hrange
          obtain ⟨hv, hsum⟩ := ih hrange.2 h
          refine ⟨hv, ?_⟩
          rw [hsum, toInt_add_of_moneyRange hacc hrange.1]
          simp only [inputSum, List.map_cons, List.sum_cons, inputValue, ho, Option.map_some,
            Option.getD_some]
          omega

/-- **What `CheckInputs` checks**, as far as the money goes: the inputs are there
and pay for the outputs that are not market outputs. -/
theorem checkInputs_ok {env : Env} {tx : CTransaction} {view : CCoinsView} {nSpendHeight : Int}
    {fScriptChecks deferred : Bool} {flags : ScriptFlags} {checks : List CScriptCheck}
    (hcb : tx.isCoinBase = false)
    (h : checkInputs env tx view nSpendHeight fScriptChecks flags deferred = .ok checks) :
    (∀ txin ∈ tx.vin, ∃ o, view.getOutputFor txin.prevout = some o) ∧
      ∃ vIn vOut, sumInputs view nSpendHeight 0 tx.vin = .ok vIn ∧ tx.getValueOut = .ok vOut ∧
        moneyRange (vIn - vOut) = true ∧ vIn.toInt = inputSum view tx.vin ∧
        vOut.toInt = tx.ordinaryValue ∧ tx.ordinaryValue ≤ inputSum view tx.vin := by
  simp only [checkInputs, hcb, Bool.false_eq_true, if_false, ite_invalid_eq_ok, ite_dos_eq_ok,
    bind_eq_ok, raising_eq_ok, Bool.not_eq_true', Bool.not_eq_false] at h
  obtain ⟨hhave, vIn, hin, vOut, hout, hbelow, -, hrange, -⟩ := h
  obtain ⟨-, hvIn⟩ := sumInputs_ok moneyRange_zero hin
  obtain ⟨-, hvOut⟩ := getValueOut_ok hout
  have hvIn' : vIn.toInt = inputSum view tx.vin := by simpa using hvIn
  have hle : vOut.toInt ≤ vIn.toInt := Int64.le_iff_toInt_le.mp (Int64.not_lt.mp hbelow)
  exact ⟨(CCoinsView.haveInputs_iff hcb).mp hhave, vIn, vOut, hin, hout, hrange, hvIn', hvOut,
    by omega⟩

/-! ## What `UpdateCoins` does -/

/-- Spending an outpoint keeps the value of every input that spends another. -/
theorem inputValue_spend {view : CCoinsView} {o : COutPoint} {txin : CTxIn}
    (h : o ≠ txin.prevout) :
    inputValue (view.setCoins o.hash ((view.getCoins o.hash).spend o.n)) txin =
      inputValue view txin := by
  rw [inputValue, CCoinsView.getOutputFor_spend, if_neg h, inputValue]

theorem inputSum_spend {view : CCoinsView} {o : COutPoint} {vin : List CTxIn}
    (h : o ∉ vin.map CTxIn.prevout) :
    inputSum (view.setCoins o.hash ((view.getCoins o.hash).spend o.n)) vin = inputSum view vin := by
  rw [inputSum, inputSum]
  congr 1
  refine List.map_congr_left ?_
  intro txin htxin
  exact inputValue_spend fun hc => h (hc ▸ List.mem_map_of_mem htxin)

/-- What is left at `txid` after spending one outpoint. -/
theorem value_getCoins_spend {view : CCoinsView} {o : COutPoint} {txout : CTxOut}
    (h : view.getOutputFor o = some txout) (txid : Uint256) :
    ((view.setCoins o.hash ((view.getCoins o.hash).spend o.n)).getCoins txid).value =
      (view.getCoins txid).value - if o.hash = txid then txout.nValue.toInt else 0 := by
  split_ifs with heq
  · subst heq
    have htot := CCoinsView.total_setCoins view o.hash ((view.getCoins o.hash).spend o.n)
    have h1 := CCoinsView.total_eq view o.hash
    have h2 := CCoinsView.total_eq (view.setCoins o.hash ((view.getCoins o.hash).spend o.n)) o.hash
    have herase : (view.setCoins o.hash ((view.getCoins o.hash).spend o.n)).coins.erase o.hash =
        view.coins.erase o.hash := by
      refine OrdMap.ext_find ?_
      intro k
      simp only [CCoinsView.setCoins]
      split_ifs
      · simp only [OrdMap.find_erase]
        split_ifs <;> rfl
      · simp only [OrdMap.find_erase, OrdMap.find_put]
        split_ifs <;> rfl
    rw [herase] at h2
    rw [CCoins.value_spend h] at htot
    omega
  · rw [CCoinsView.getCoins_setCoins_of_ne _ (Ne.symm heq)]
    omega

/-- **Spending distinct, available inputs** succeeds and takes their values. -/
theorem spendInputs_spec {vin : List CTxIn} {view : CCoinsView}
    (hav : ∀ txin ∈ vin, ∃ o, view.getOutputFor txin.prevout = some o)
    (hnodup : (vin.map CTxIn.prevout).Nodup) :
    ∃ view' undo, spendInputs vin view = .ok (view', undo) ∧
      view'.total = view.total - inputSum view vin ∧
      ∀ txid, (view'.getCoins txid).value = overwrittenValue txid view vin := by
  induction vin generalizing view with
  | nil => exact ⟨view, [], rfl, by simp [inputSum], by simp [overwrittenValue, inputsOf, inputSum]⟩
  | cons txin vin ih =>
      rw [List.map_cons, List.nodup_cons] at hnodup
      obtain ⟨txout, ho⟩ := hav txin (List.mem_cons_self ..)
      have hav' : ∀ t ∈ vin, ∃ o, (view.setCoins txin.prevout.hash
          ((view.getCoins txin.prevout.hash).spend txin.prevout.n)).getOutputFor t.prevout =
            some o := by
        intro t ht
        rw [CCoinsView.getOutputFor_spend, if_neg]
        · exact hav t (List.mem_cons_of_mem _ ht)
        · intro hc
          exact hnodup.1 (hc ▸ List.mem_map_of_mem ht)
      obtain ⟨view', undo, hspend, htotal, hleft⟩ := ih hav' hnodup.2
      have hval : inputValue view txin = txout.nValue.toInt := by simp [inputValue, ho]
      refine ⟨view', CTxInUndo.ofSpend txout
        ((view.getCoins txin.prevout.hash).spend txin.prevout.n) :: undo, ?_, ?_, ?_⟩
      · simp only [spendInputs, ho, hspend, Except.map]
      · rw [htotal, inputSum_spend hnodup.1, CCoinsView.total_setCoins, CCoins.value_spend ho]
        simp only [inputSum, List.map_cons, List.sum_cons, hval]
        omega
      · intro txid
        have hsub : txin.prevout ∉ (inputsOf txid vin).map CTxIn.prevout := by
          intro hc
          obtain ⟨t, ht, heq⟩ := List.mem_map.mp hc
          exact hnodup.1 (heq ▸ List.mem_map_of_mem (List.mem_of_mem_filter ht))
        rw [hleft, overwrittenValue, value_getCoins_spend ho, inputSum_spend hsub, overwrittenValue]
        simp only [inputsOf, List.filter_cons]
        split_ifs with h1 h2 h2
        · simp only [inputSum, List.map_cons, List.sum_cons, hval]
          omega
        · exact absurd (by simpa using h1) h2
        · exact absurd (by simpa using h2) h1
        · omega

/-- The outputs that reach the view, by kind. -/
theorem value_fromTx_eq {tx : CTransaction} (h : ∀ o ∈ tx.vout, moneyRange o.nValue = true)
    (nHeight : Int) :
    (CCoins.fromTx tx nHeight).value =
      tx.ordinaryValue + tx.marketDeposits - tx.unspendableValue := by
  rw [CCoins.value_fromTx, CTransaction.ordinaryValue, CTransaction.marketDeposits,
    CTransaction.unspendableValue]
  generalize tx.vout = vout at h
  induction vout with
  | nil => rfl
  | cons o vout ih =>
      have hrest := ih fun o' ho' => h o' (List.mem_cons_of_mem _ ho')
      have hrange := (moneyRange_iff.mp (h o (List.mem_cons_self ..))).1
      have hnull : o.isNull = false := by
        by_contra hc
        have hneg : o.nValue = -1 := by simpa [CTxOut.isNull] using hc
        rw [hneg] at hrange
        exact absurd hrange (by decide)
      have hval : o.unspentValue = o.nValue.toInt := by simp [CTxOut.unspentValue, hnull]
      simp only [outputSum, List.map_cons, List.sum_cons, hval] at hrest ⊢
      by_cases hm : isMarket o.scriptPubKey = true
      · simp only [hm, not_isUnspendable_of_isMarket hm, Bool.not_true, Bool.false_eq_true,
          if_false, if_true]
        omega
      · rw [Bool.not_eq_true] at hm
        simp only [hm, Bool.not_false, Bool.false_eq_true, if_false, if_true]
        split_ifs <;> omega

/-- **What a checked transaction does to the view**: the inputs and the overwritten
coins go, every output comes that is not unspendable. -/
theorem updateCoins_spec (env : Env) {tx : CTransaction} {view : CCoinsView} (nHeight : Int)
    (hcb : tx.isCoinBase = false) (hout : ∀ o ∈ tx.vout, moneyRange o.nValue = true)
    (hnodup : (tx.vin.map CTxIn.prevout).Nodup)
    (hav : ∀ txin ∈ tx.vin, ∃ o, view.getOutputFor txin.prevout = some o) :
    ∃ view' undo, updateCoins env tx view nHeight = .ok (view', undo) ∧
      view'.total = view.total - inputSum view tx.vin -
        overwrittenValue (tx.getHash env.hash) view tx.vin +
        (tx.ordinaryValue + tx.marketDeposits - tx.unspendableValue) := by
  obtain ⟨view₁, undo, hspend, htotal, hleft⟩ := spendInputs_spec hav hnodup
  refine ⟨view₁.setCoins (tx.getHash env.hash) (CCoins.fromTx tx nHeight), undo, ?_, ?_⟩
  · simp only [updateCoins, hcb, Bool.false_eq_true, if_false, hspend, Except.map]
  rw [CCoinsView.total_setCoins, htotal, hleft, value_fromTx_eq hout]

/-! ## No money creation, exactly -/

/-- **When a transaction creates no money**: for every transaction that
`CheckTransaction` and `CheckInputs` accept, `UpdateCoins` goes through, and the total
of the view does not grow if and only if the market outputs are worth no more than
the fee (the inputs less the ordinary outputs), the unspendable outputs and the
coins that are overwritten. -/
theorem total_le_iff (env : Env) (tx : CTransaction) (view : CCoinsView) (nSpendHeight : Int)
    (fScriptChecks : Bool) (flags : ScriptFlags) (deferred : Bool) (checks : List CScriptCheck)
    (nHeight : Int) (hcb : tx.isCoinBase = false) (htx : checkTransaction tx = .ok ())
    (hin : checkInputs env tx view nSpendHeight fScriptChecks flags deferred = .ok checks) :
    ∃ view' undo, updateCoins env tx view nHeight = .ok (view', undo) ∧
      (view'.total ≤ view.total ↔
        tx.marketDeposits ≤ (inputSum view tx.vin - tx.ordinaryValue) + tx.unspendableValue +
          overwrittenValue (tx.getHash env.hash) view tx.vin) := by
  obtain ⟨hout, hnodup⟩ := checkTransaction_ok htx
  obtain ⟨hav, -⟩ := checkInputs_ok hcb hin
  obtain ⟨view', undo, hupd, htotal⟩ := updateCoins_spec env nHeight hcb hout hnodup hav
  refine ⟨view', undo, hupd, ?_⟩
  rw [htotal]
  constructor <;> intro h <;> omega

/-- A view with one coin of value 1 that anybody can spend. -/
def exampleCoinView : CCoinsView :=
  CCoinsView.setCoins (Blob.fill 1) { vout := [⟨1, [0x51]⟩] } {}

/-- A steal vote. -/
def exampleStealVote : MarketObj .stealVote where
  data := { branchid := Blob.null, height := 1, voteid := Blob.null }

/-- The coin of value 1 is spent into a market output of value 1000. -/
def exampleDeposit : CTransaction where
  vin := [{ prevout := ⟨Blob.fill 1, 0⟩ }]
  vout := [⟨1000, exampleStealVote.getScript⟩]

theorem exampleDeposit_overwrites (txid : Uint256) :
    overwrittenValue txid exampleCoinView exampleDeposit.vin = 0 := by
  by_cases h : txid = Blob.fill 1
  · subst h
    decide
  · rw [overwrittenValue, exampleCoinView, CCoinsView.getCoins_setCoins_of_ne _ h]
    have hnone : inputsOf txid exampleDeposit.vin = [] := by
      simp [inputsOf, exampleDeposit, Ne.symm h]
    rw [hnone]
    rfl

/-- **A transaction that creates money**: the checks accept the deposit, and the
total of the view goes from 1 to 1000. -/
theorem deposit_creates_money :
    exampleDeposit.isCoinBase = false ∧ checkTransaction exampleDeposit = .ok () ∧
      ∀ env, checkInputs env exampleDeposit exampleCoinView 1 true scriptVerifyP2SH false =
          .ok [] ∧
        ∃ view undo, updateCoins env exampleDeposit exampleCoinView 1 = .ok (view, undo) ∧
          exampleCoinView.total = 1 ∧ view.total = 1000 := by
  have hcb : exampleDeposit.isCoinBase = false := by decide
  have htx : checkTransaction exampleDeposit = .ok () := by decide +kernel
  refine ⟨hcb, htx, fun env => ?_⟩
  have hin : checkInputs env exampleDeposit exampleCoinView 1 true scriptVerifyP2SH false =
      .ok [] := rfl
  refine ⟨hin, ?_⟩
  obtain ⟨hout, hnodup⟩ := checkTransaction_ok htx
  obtain ⟨hav, -⟩ := checkInputs_ok hcb hin
  obtain ⟨view, undo, hupd, htotal⟩ := updateCoins_spec env 1 hcb hout hnodup hav
  refine ⟨view, undo, hupd, by decide, ?_⟩
  rw [htotal, exampleDeposit_overwrites]
  decide +kernel

/-- The condition at work: the same coin spent into a market output of value 1. -/
def examplePaidDeposit : CTransaction :=
  { exampleDeposit with vout := [⟨1, exampleStealVote.getScript⟩] }

/-- A deposit that the inputs pay for keeps the total. -/
theorem paid_deposit_keeps_total :
    checkTransaction examplePaidDeposit = .ok () ∧
      ∀ env, ∃ view undo, updateCoins env examplePaidDeposit exampleCoinView 1 = .ok (view, undo) ∧
        view.total ≤ exampleCoinView.total := by
  have htx : checkTransaction examplePaidDeposit = .ok () := by decide +kernel
  refine ⟨htx, fun env => ?_⟩
  obtain ⟨view, undo, hupd, hiff⟩ := total_le_iff env examplePaidDeposit exampleCoinView 1 true
    scriptVerifyP2SH false [] 1 (by decide) htx rfl
  refine ⟨view, undo, hupd, hiff.mpr ?_⟩
  rw [show examplePaidDeposit.vin = exampleDeposit.vin from rfl, exampleDeposit_overwrites]
  decide +kernel

end Hivemind
