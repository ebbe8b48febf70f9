import Hivemind.Validation.Balance
import Hivemind.Validation.BlocksSpec

/-!
# Exceptions out of market scripts

`marketObjCtr` reads a record out of the first push of a script through a stream that throws at
its end, and nobody on the way up to `ConnectBlock` catches that.

A push that starts with the byte of a class and does not hold a whole record is enough, and it
does not matter what comes after it for `marketObjCtr` itself; `IsMarketScript` looks at the last
byte first.  `GetValueOut` and `CheckInputs` ask `IsMarketScript` for every output, and the
market index phase of `ConnectBlock` asks `marketObjCtr`, at a point where the undo data and the
transaction index have been written.  Everything else that these functions raise is shown to be
bounded away by `CheckTransaction`.

* `marketObjCtr_raises_iff`, `isMarketScript_raises_iff`: the scripts that raise.
* `connectBlock_noRaise`: on well formed outputs `ConnectBlock` raises nothing.
* `market_scripts_raise_iff`: **the blocks on which nothing raises.**
* `truncated_branch_raises`: a block that stops `ConnectBlock` after its first writes.
-/

namespace Hivemind

open Codecs Ordered Outcomes

/-! ## Scripts -/

/-- The first push starts with the `marketop` of a class but does not hold a whole
record of the class. -/
def Malformed (script : CScript) : Prop :=
  ∃ op data, Tagged script op data ∧ ¬ op.view.codec.Complete data

/-- A malformed script that ends in `OP_MARKET`. -/
def MalformedMarket (script : CScript) : Prop :=
  2 ≤ script.length ∧ script.getLast? = some opMarket ∧ Malformed script

theorem unserialize_raises_iff {op : MarketOp} {data : Bytes} :
    (∃ e, MarketObj.unserialize op data = .error e) ↔ ¬ op.view.codec.Complete data := by
  rw [← View.de_isOk_iff, MarketObj.unserialize]
  cases op.view.de data with
  | error e => simp [Except.map]
  | ok p => simp [Except.map]

/-- **When `marketObjCtr` raises.** -/
theorem marketObjCtr_raises_iff {script : CScript} :
    (∃ e, marketObjCtr script = .error e) ↔ Malformed script := by
  by_cases htag : ∃ op data, Tagged script op data
  · obtain ⟨op, data, ht⟩ := htag
    have hmal : Malformed script ↔ ¬ op.view.codec.Complete data := by
      constructor
      · rintro ⟨op', data', ht', hc⟩
        obtain ⟨rfl, rfl⟩ := ht.unique ht'
        exact hc
      · exact fun hc => ⟨op, data, ht, hc⟩
    rw [hmal, ← unserialize_raises_iff, marketObjCtr_of_tagged ht]
    cases MarketObj.unserialize op data with
    | error e => simp [Except.map]
    | ok p => simp [Except.map]
  · rw [marketObjCtr_of_not_tagged fun op data ht => htag ⟨op, data, ht⟩]
    constructor
    · rintro ⟨e, h⟩
      cases h
    · rintro ⟨op, data, ht, -⟩
      exact absurd ⟨op, data, ht⟩ htag

/-- **When `IsMarketScript` raises.** -/
theorem isMarketScript_raises_iff {script : CScript} :
    (∃ e, isMarketScript script = .error e) ↔ MalformedMarket script := by
  rw [MalformedMarket, ← marketObjCtr_raises_iff, isMarketScript]
  by_cases hlen : script.length < 2
  · simp [hlen, Nat.not_le.mpr hlen]
  by_cases hlast : script.getLast? = some opMarket
  · cases marketObjCtr script with
    | error e => simp [hlen, hlast, Nat.not_lt.mp hlen]
    | ok r => cases r <;> simp [hlen, hlast]
  · simp [hlen, hlast]

theorem isMarketScript_ok {script : CScript} (h : ¬ MalformedMarket script) :
    ∃ b, isMarketScript script = .ok b := by
  cases hm : isMarketScript script with
  | error e => exact absurd (isMarketScript_raises_iff.mp ⟨e, hm⟩) h
  | ok b => exact ⟨b, rfl⟩

/-! ## Transactions -/

/-- No output of the transaction is malformed. -/
def CTransaction.WellFormed (tx : CTransaction) : Prop :=
  ∀ o ∈ tx.vout, ¬ MalformedMarket o.scriptPubKey

/-- Sums that `CheckTransaction` has bounded are summed up without an exception, from
any smaller start. -/
theorem valueOutLoop_returns {market : Bool} {acc acc' : CAmount} {vout : List CTxOut}
    (hwf : ∀ o ∈ vout, ¬ MalformedMarket o.scriptPubKey) (hacc : moneyRange acc = true)
    (h0 : 0 ≤ acc'.toInt) (hle : acc'.toInt ≤ acc.toInt) (h : checkOutputs acc vout = .ok ()) :
    ∃ v, valueOutLoop market acc' vout = .ok v := by
  induction vout generalizing acc acc' with
  | nil => exact ⟨acc', rfl⟩
  | cons o vout ih =>
      have ho := checkOutputs_ok h o (List.mem_cons_self ..)
      simp only [checkOutputs, ite_dos_eq_ok, Bool.not_eq_true', Bool.not_eq_false] at h
      obtain ⟨-, -, hsum, hrest⟩ := h
      have hwf' : ∀ o ∈ vout, ¬ MalformedMarket o.scriptPubKey :=
        fun o' ho' => hwf o' (List.mem_cons_of_mem _ ho')
      obtain ⟨b, hb⟩ := isMarketScript_ok (hwf o (List.mem_cons_self ..))
      have haccI := moneyRange_iff.mp hacc
      have hoI := moneyRange_iff.mp ho
      have hsumI := moneyRange_iff.mp hsum
      rw [toInt_add_of_moneyRange hacc ho] at hsumI
      have hacc' : moneyRange acc' = true := moneyRange_iff.mpr ⟨h0, by omega⟩
      have hadd' := toInt_add_of_moneyRange hacc' ho
      have hadd := toInt_add_of_moneyRange hacc ho
      simp only [valueOutLoop, hb]
      split_ifs with hne hrange
      · exact ih hwf' hsum h0 (by omega) hrest
      · have hsum' : moneyRange (acc' + o.nValue) = true :=
          moneyRange_iff.mpr ⟨by omega, by omega⟩
        simp [ho, hsum'] at hrange
      · exact ih hwf' hsum (by omega) (by omega) hrest

theorem valueOutLoop_raises {market : Bool} {acc : CAmount} {vout : List CTxOut} {o : CTxOut}
    (ho : o ∈ vout) (hmal : MalformedMarket o.scriptPubKey) :
    ∀ v, valueOutLoop market acc vout ≠ .ok v := by
  induction vout generalizing acc with
  | nil => cases ho
  | cons o' vout ih =>
      intro v h
      rw [valueOutLoop] at h
      cases hb : isMarketScript o'.scriptPubKey with
      | error e =>
          rw [hb] at h
          cases h
      | ok b =>
          have hmem : o ∈ vout := by
            rcases List.mem_cons.mp ho with rfl | hmem
            · obtain ⟨e, he⟩ := isMarketScript_raises_iff.mpr hmal
              rw [he] at hb
              cases hb
            · exact hmem
          simp only [hb] at h
          split_ifs at h
          · exact ih hmem v h
          · exact ih hmem v h

/-- `GetValueOut` returns exactly on the well formed transactions, among those that
`CheckTransaction` accepts. -/
theorem getValueOut_returns_iff {tx : CTransaction} (htx : checkTransaction tx = .ok ()) :
    (∃ v, tx.getValueOut = .ok v) ↔ tx.WellFormed := by
  constructor
  · rintro ⟨v, hv⟩ o ho hmal
    exact valueOutLoop_raises ho hmal v hv
  · intro hwf
    simp only [checkTransaction, ite_dos_eq_ok, bind_eq_ok] at htx
    obtain ⟨-, -, -, ⟨⟩, hout, -⟩ := htx
    exact valueOutLoop_returns hwf moneyRange_zero (le_refl _) (le_refl _) hout

/-- The function ends in an exception. -/
def Stop.IsRaised : Stop → Prop
  | raised _ => True
  | reject _ _ _ => False
  | asserted => False
  | failed => False

/-- A computation out of which no exception comes. -/
abbrev NoRaise {α : Type} (x : Except Stop α) : Prop := Avoids Stop.IsRaised x

theorem NoRaise.dos {α : Type} (nDoS : Nat) (reason : RejectReason) :
    NoRaise (dos nDoS reason : Except Stop α) := Avoids.error id

theorem NoRaise.reject {α : Type} (nDoS : Nat) (reason : RejectReason) (corruption : Bool) :
    NoRaise (.error (.reject nDoS reason corruption) : Except Stop α) := Avoids.error id

theorem NoRaise.asserted {α : Type} : NoRaise (.error .asserted : Except Stop α) := Avoids.error id

theorem NoRaise.raising {α : Type} {x : Except Raised α} {a : α} (h : x = .ok a) :
    NoRaise (raising x) := by
  rw [h]
  exact Avoids.ok a

theorem sumInputs_noRaise (view : CCoinsView) (nSpendHeight : Int) (acc : CAmount)
    (vin : List CTxIn) : NoRaise (sumInputs view nSpendHeight acc vin) := by
  induction vin generalizing acc with
  | nil => exact Avoids.ok _
  | cons txin vin ih =>
      unfold sumInputs
      refine Avoids.ite (NoRaise.dos ..) ?_
      cases view.getOutputFor txin.prevout with
      | none => exact NoRaise.asserted
      | some o => exact Avoids.ite (NoRaise.dos ..) (ih _)

theorem run_noRaise (env : Env) (check : CScriptCheck) : NoRaise (check.run env) := by
  unfold CScriptCheck.run
  dsimp only
  split
  · exact Avoids.ok _
  · exact Avoids.ok _
  · exact NoRaise.asserted

theorem checkScripts_noRaise (env : Env) (tx : CTransaction) (view : CCoinsView)
    (flags : ScriptFlags) (deferred : Bool) (i : Nat) (vin : List CTxIn) :
    NoRaise (checkScripts env tx view flags deferred i vin) := by
  induction vin generalizing i with
  | nil => exact Avoids.ok _
  | cons txin vin ih =>
      unfold checkScripts
      cases view.getOutputFor txin.prevout with
      | none => exact NoRaise.asserted
      | some o =>
          refine Avoids.ite (Avoids.map (ih _)) ?_
          refine Avoids.bind (run_noRaise ..) fun r _ => ?_
          cases r with
          | none => exact ih _
          | some e =>
              unfold scriptCheckFailed
              refine Avoids.ite (Avoids.bind (run_noRaise ..) fun r _ => ?_) (NoRaise.dos ..)
              cases r <;> exact NoRaise.dos ..

/-- `CheckInputs` raises only what `GetValueOut` raises. -/
theorem checkInputs_noRaise (env : Env) {tx : CTransaction} (view : CCoinsView)
    (nSpendHeight : Int) (fScriptChecks : Bool) (flags : ScriptFlags) (deferred : Bool)
    (h : ∃ v, tx.getValueOut = .ok v) :
    NoRaise (checkInputs env tx view nSpendHeight fScriptChecks flags deferred) := by
  obtain ⟨v, hv⟩ := h
  unfold checkInputs
  refine Avoids.ite (Avoids.ok _) (Avoids.ite (NoRaise.dos ..) ?_)
  refine Avoids.bind (sumInputs_noRaise ..) fun vIn _ => ?_
  refine Avoids.bind (NoRaise.raising hv) fun vOut _ => ?_
  refine Avoids.ite (NoRaise.dos ..) (Avoids.ite (NoRaise.dos ..) (Avoids.ite (NoRaise.dos ..) ?_))
  exact Avoids.ite (checkScripts_noRaise ..) (Avoids.ok _)

/-! ## Blocks -/

section Blocks

variable (ctx : Context) (pindex : CBlockIndex)

theorem checkBlock_noRaise (block : CBlock) (fCheckPOW fCheckMerkleRoot : Bool) :
    NoRaise (checkBlock ctx block fCheckPOW fCheckMerkleRoot) := by
  have houtputs : ∀ acc vout, NoRaise (checkOutputs acc vout) := by
    intro acc vout
    induction vout generalizing acc with
    | nil => exact Avoids.ok _
    | cons o vout ih =>
        exact Avoids.ite (NoRaise.dos ..)
          (Avoids.ite (NoRaise.dos ..) (Avoids.ite (NoRaise.dos ..) (ih _)))
  have htx : ∀ tx, NoRaise (checkTransaction tx) := by
    intro tx
    unfold checkTransaction
    refine Avoids.ite (NoRaise.dos ..) (Avoids.ite (NoRaise.dos ..)
      (Avoids.ite (NoRaise.dos ..) (Avoids.bind (houtputs _ _) fun _ _ => ?_)))
    exact Avoids.ite (NoRaise.dos ..) (Avoids.ite (Avoids.ite (NoRaise.dos ..) (Avoids.ok _))
      (Avoids.ite (NoRaise.dos ..) (Avoids.ok _)))
  have htxs : ∀ vtx, NoRaise (checkTransactions vtx) := by
    intro vtx
    induction vtx with
    | nil => exact Avoids.ok _
    | cons tx vtx ih => exact Avoids.bind (htx tx) fun _ _ => ih
  unfold checkBlock
  refine Avoids.bind (Avoids.ite (NoRaise.dos ..) (Avoids.ite (NoRaise.dos ..) (Avoids.ok _)))
    fun _ _ => ?_
  refine Avoids.ite (NoRaise.reject ..) (Avoids.ite (NoRaise.reject ..) ?_)
  refine Avoids.ite (NoRaise.dos ..) (Avoids.ite (NoRaise.dos ..) (Avoids.ite (NoRaise.dos ..) ?_))
  exact Avoids.bind (htxs _) fun _ _ => Avoids.ite (NoRaise.reject ..) (Avoids.ok _)

theorem getP2SHSigOpCount_noRaise (tx : CTransaction) (view : CCoinsView) :
    NoRaise (getP2SHSigOpCount tx view) := by
  unfold getP2SHSigOpCount
  refine Avoids.ite (Avoids.ok _) (Avoids.foldlM ?_ _ _)
  intro n txin
  cases view.getOutputFor txin.prevout with
  | none => exact NoRaise.asserted
  | some o => exact Avoids.ite (Avoids.ok _) (Avoids.ok _)

theorem getValueIn_noRaise (view : CCoinsView) (tx : CTransaction) :
    NoRaise (getValueIn view tx) := by
  refine Avoids.foldlM ?_ _ _
  intro n txin
  cases view.getOutputFor txin.prevout with
  | none => exact NoRaise.asserted
  | some o => exact Avoids.ok _

theorem updateCoins_noRaise (env : Env) (tx : CTransaction) (view : CCoinsView) (nHeight : Int) :
    NoRaise (updateCoins env tx view nHeight) := by
  have hspend : ∀ vin view, NoRaise (spendInputs vin view) := by
    intro vin
    induction vin with
    | nil => exact fun _ => Avoids.ok _
    | cons txin vin ih =>
        intro view
        unfold spendInputs
        cases view.getOutputFor txin.prevout with
        | none => exact NoRaise.asserted
        | some o => exact Avoids.map (ih _)
  exact Avoids.map (hspend ..)

/-- One turn of the loop raises only what `GetValueOut` raises. -/
theorem connectTx_noRaise (st : ConnectState) {tx : CTransaction}
    (h : ∃ v, tx.getValueOut = .ok v) : NoRaise (connectTx ctx pindex st tx) := by
  obtain ⟨v, hv⟩ := h
  have hin : ∀ st, NoRaise (connectInputs ctx pindex st tx) := by
    intro st
    unfold connectInputs
    refine Avoids.ite (Avoids.ok _) (Avoids.ite (NoRaise.dos ..) ?_)
    refine Avoids.bind (Avoids.ite (getP2SHSigOpCount_noRaise ..) (Avoids.ok _)) fun n _ => ?_
    refine Avoids.ite (NoRaise.dos ..) ?_
    refine Avoids.bind (getValueIn_noRaise ..) fun vIn _ => ?_
    refine Avoids.bind (NoRaise.raising hv) fun vOut _ => ?_
    exact Avoids.bind (checkInputs_noRaise _ _ _ _ _ _ ⟨v, hv⟩) fun _ _ => Avoids.ok _
  unfold connectTx
  refine Avoids.ite (NoRaise.dos ..) (Avoids.bind (hin _) fun st _ => ?_)
  exact Avoids.bind (updateCoins_noRaise ..) fun _ _ => Avoids.ok _

theorem connectTxs_noRaise (st : ConnectState) {vtx : List CTransaction}
    (h : ∀ tx ∈ vtx, ∃ v, tx.getValueOut = .ok v) : NoRaise (connectTxs ctx pindex st vtx) := by
  induction vtx generalizing st with
  | nil => exact Avoids.ok _
  | cons tx vtx ih =>
      refine Avoids.bind (connectTx_noRaise ctx pindex st (h tx (List.mem_cons_self ..))) ?_
      exact fun st' _ => ih st' fun t ht => h t (List.mem_cons_of_mem _ ht)

theorem waitChecks_noRaise (env : Env) (checks : List CScriptCheck) :
    NoRaise (waitChecks env checks) := by
  induction checks with
  | nil => exact Avoids.ok _
  | cons check checks ih =>
      refine Avoids.bind (run_noRaise ..) fun r _ => ?_
      cases r with
      | none => exact ih
      | some e => exact NoRaise.dos ..

theorem connectCheck_noRaise {block : CBlock} (fJustCheck : Bool) (view : CCoinsView)
    (hwf : ∀ tx ∈ block.vtx, tx.WellFormed) :
    NoRaise (connectCheck ctx block pindex fJustCheck view) := by
  refine Avoids.bind (checkBlock_noRaise ..) fun _ hcheck => ?_
  have hvalue : ∀ tx ∈ block.vtx, ∃ v, tx.getValueOut = .ok v := by
    intro tx htx
    exact (getValueOut_returns_iff ((checkBlock_ok hcheck).1 tx htx)).mpr (hwf tx htx)
  refine Avoids.ite NoRaise.asserted (Avoids.ite (NoRaise.dos ..) ?_)
  refine Avoids.bind (connectTxs_noRaise _ _ _ hvalue) fun st _ => ?_
  exact Avoids.bind (waitChecks_noRaise ..) fun _ _ => Avoids.ok _

theorem outputObjs_returns (env : Env) (txid : Uint256) {vout : List CTxOut}
    (hwf : ∀ o ∈ vout, ¬ MalformedMarket o.scriptPubKey) :
    ∃ objs, outputObjs env txid vout = .ok objs := by
  induction vout with
  | nil => exact ⟨[], rfl⟩
  | cons o vout ih =>
      obtain ⟨objs, hobjs⟩ := ih fun o' ho' => hwf o' (List.mem_cons_of_mem _ ho')
      simp only [outputObjs]
      split_ifs with hshape
      · exact ⟨objs, hobjs⟩
      · cases hctr : marketObjCtr o.scriptPubKey with
        | error e =>
            rw [not_or, Nat.not_lt, not_not] at hshape
            exact absurd ⟨hshape.1, hshape.2, marketObjCtr_raises_iff.mp ⟨e, hctr⟩⟩
              (hwf o (List.mem_cons_self ..))
        | ok r =>
            cases r with
            | none => exact ⟨objs, hobjs⟩
            | some o' =>
                simp only [hobjs, Except.map]
                exact ⟨_, rfl⟩

theorem blockObjs_returns (env : Env) {vtx : List CTransaction}
    (hwf : ∀ tx ∈ vtx, tx.WellFormed) : ∃ objs, blockObjs env vtx = .ok objs := by
  induction vtx with
  | nil => exact ⟨[], rfl⟩
  | cons tx vtx ih =>
      obtain ⟨objs, hobjs⟩ :=
        outputObjs_returns env (tx.getHash env.hash) (hwf tx (List.mem_cons_self ..))
      obtain ⟨rest, hrest⟩ := ih fun t ht => hwf t (List.mem_cons_of_mem _ ht)
      exact ⟨objs ++ rest, by simp [blockObjs, hobjs, hrest, bind, Except.bind]⟩

/-- **`ConnectBlock` on well formed outputs** ends in a verdict or an assertion, never
in an exception. -/
theorem connectBlock_noRaise {block : CBlock} (fJustCheck : Bool) (view : CCoinsView)
    (disk : Disk) (hwf : ∀ tx ∈ block.vtx, tx.WellFormed) :
    NoRaise (connectBlock ctx block pindex fJustCheck view disk).1 := by
  have hcheck := connectCheck_noRaise ctx pindex fJustCheck view hwf
  unfold connectBlock
  cases hc : connectCheck ctx block pindex fJustCheck view with
  | error s =>
      rw [hc] at hcheck
      exact Avoids.error (hcheck.not_bad s rfl)
  | ok st =>
      simp only
      split_ifs
      · exact Avoids.ok _
      · exact Avoids.error id
      · obtain ⟨objs, hobjs⟩ : ∃ objs, indexedObjs ctx block = .ok objs := by
          unfold indexedObjs
          split_ifs
          · exact blockObjs_returns ctx.toEnv hwf
          · exact ⟨[], rfl⟩
        rw [hobjs]
        exact Avoids.ok _

end Blocks

/-! ## When nothing raises -/

/-- Nothing that validates the block raises: not `GetValueOut` or `CheckInputs` on
its transactions, and not `ConnectBlock`. -/
structure NeverRaises (block : CBlock) : Prop where
  getValueOut : ∀ tx ∈ block.vtx, ∃ v, tx.getValueOut = .ok v
  checkInputs : ∀ tx ∈ block.vtx, ∀ env view nSpendHeight fScriptChecks flags deferred,
    NoRaise (checkInputs env tx view nSpendHeight fScriptChecks flags deferred)
  connectBlock : ∀ ctx pindex fJustCheck view disk,
    NoRaise (connectBlock ctx block pindex fJustCheck view disk).1

/-- **When market scripts cannot abort validation**: reading a script does not raise
exactly when it is not malformed, and nothing that validates a block whose
transactions pass `CheckTransaction` raises exactly when none of its outputs is a
malformed script that ends in `OP_MARKET`. -/
theorem market_scripts_raise_iff (script : CScript) (block : CBlock) :
    (((∃ r, marketObjCtr script = .ok r) ∧ ∃ b, isMarketScript script = .ok b) ↔
      ¬ Malformed script) ∧
    ((∀ tx ∈ block.vtx, checkTransaction tx = .ok ()) →
      (NeverRaises block ↔ ∀ tx ∈ block.vtx, tx.WellFormed)) := by
  refine ⟨?_, ?_⟩
  · constructor
    · rintro ⟨⟨r, hr⟩, -⟩ hmal
      obtain ⟨e, he⟩ := marketObjCtr_raises_iff.mpr hmal
      rw [he] at hr
      cases hr
    · intro hmal
      refine ⟨?_, isMarketScript_ok fun h => hmal h.2.2⟩
      cases hc : marketObjCtr script with
      | error e => exact absurd (marketObjCtr_raises_iff.mp ⟨e, hc⟩) hmal
      | ok r => exact ⟨r, rfl⟩
  · intro htxs
    constructor
    · intro h tx htx
      exact (getValueOut_returns_iff (htxs tx htx)).mp (h.getValueOut tx htx)
    · intro hwf
      have hvalue : ∀ tx ∈ block.vtx, ∃ v, tx.getValueOut = .ok v := fun tx htx =>
        (getValueOut_returns_iff (htxs tx htx)).mpr (hwf tx htx)
      exact
        { getValueOut := hvalue
          checkInputs := fun tx htx env view nSpendHeight fScriptChecks flags deferred =>
            checkInputs_noRaise env view nSpendHeight fScriptChecks flags deferred (hvalue tx htx)
          connectBlock := fun ctx pindex fJustCheck view disk =>
            connectBlock_noRaise ctx pindex fJustCheck view disk hwf }

/-- A block with a sound coinbase that the market index phase cannot read: the undo
data and the transaction index are written before the exception. -/
theorem connectBlock_coinbase_raises (ctx : Context) (view : CCoinsView) (disk : Disk)
    {cb : CTransaction} (hcb : SoundCoinbase cb) (nHeight : Int) {pprev : Option Uint256}
    {e : ReadError} (hprev : pprev.getD Blob.null = view.bestBlock)
    (hpow : ctx.params.fSkipProofOfWorkCheck = true) (htime : 0 ≤ ctx.nAdjustedTime)
    (hundo : ctx.undoWriteOk = true) (hindex : ctx.fTxIndex = true)
    (hfree : view.accessCoins (cb.getHash ctx.hash) = none)
    (hgenesis : (coinbaseBlock ctx.hash pprev cb).getHash ctx.hash ≠ ctx.params.hashGenesisBlock)
    (hobjs : indexedObjs ctx (coinbaseBlock ctx.hash pprev cb) = .error e) :
    ∃ disk', connectBlock ctx (coinbaseBlock ctx.hash pprev cb)
        (coinbaseIndex ctx.hash pprev nHeight cb) false view disk =
          (.error (.raised (.stream e)), disk') ∧
      (disk'.undo.find ((coinbaseBlock ctx.hash pprev cb).getHash ctx.hash)).isSome ∧
      (disk'.txIndex.find (cb.getHash ctx.hash)).isSome := by
  obtain ⟨st, hcheck, -, -, offset, hpos⟩ :=
    connectCheck_coinbase ctx view hcb nHeight hprev hpow htime hfree
  have hfails : undoWriteFails ctx (coinbaseBlock ctx.hash pprev cb)
      (coinbaseIndex ctx.hash pprev nHeight cb) disk = false := by
    simp [undoWriteFails, hundo]
  refine ⟨writeTxIndex ctx (coinbaseIndex ctx.hash pprev nHeight cb) st
    (writeUndo ctx (coinbaseBlock ctx.hash pprev cb) (coinbaseIndex ctx.hash pprev nHeight cb) st
      disk), ?_, ?_, ?_⟩
  · rw [connectBlock, hcheck]
    simp only [Bool.false_eq_true, if_false, hfails, hobjs]
  · simp only [writeTxIndex, hindex, if_true, writeUndo, if_neg hgenesis]
    have hhash : (coinbaseIndex ctx.hash pprev nHeight cb).getBlockHash =
        (coinbaseBlock ctx.hash pprev cb).getHash ctx.hash := rfl
    split_ifs with hsome
    · rwa [hhash] at hsome
    · rw [hhash, OrdMap.find_put_self]
      rfl
  · simp [writeTxIndex, hindex, hpos, OrdMap.putAll]

/-- The push of a branch record cut off after its first byte, and `OP_MARKET`. -/
def exampleTruncated : CScript := [1, 0x42, opMarket]

/-- A coinbase that carries it. -/
def exampleTruncatedCoinbase : CTransaction := coinbaseTx 1 [⟨0, exampleTruncated⟩]

theorem soundCoinbase_truncated : SoundCoinbase exampleTruncatedCoinbase :=
  ⟨by decide, by decide +kernel, by decide, by decide⟩

/-- **A truncated branch record raises** out of both readers.  In a coinbase it raises
out of `ConnectBlock`, on every view, when the undo data and the transaction index of
the block have been written. -/
theorem truncated_branch_raises :
    marketObjCtr exampleTruncated = .error .endOfData ∧
    isMarketScript exampleTruncated = .error .endOfData ∧
    ∀ (env : Env) (view : CCoinsView) (disk : Disk),
      view.accessCoins (exampleTruncatedCoinbase.getHash env.hash) = none →
      (coinbaseBlock env.hash (some view.bestBlock) exampleTruncatedCoinbase).getHash env.hash ≠
        Blob.null →
      ∃ disk', connectBlock (exampleContext env)
          (coinbaseBlock env.hash (some view.bestBlock) exampleTruncatedCoinbase)
          (coinbaseIndex env.hash (some view.bestBlock) 1 exampleTruncatedCoinbase) false view disk =
            (.error (.raised (.stream .endOfData)), disk') ∧
        (disk'.undo.find ((coinbaseBlock env.hash (some view.bestBlock)
          exampleTruncatedCoinbase).getHash env.hash)).isSome ∧
        (disk'.txIndex.find (exampleTruncatedCoinbase.getHash env.hash)).isSome := by
  refine ⟨by decide, by decide, fun env view disk hfree hgenesis => ?_⟩
  exact connectBlock_coinbase_raises (exampleContext env) view disk soundCoinbase_truncated 1
    rfl rfl (le_refl _) rfl rfl hfree hgenesis rfl

end Hivemind
