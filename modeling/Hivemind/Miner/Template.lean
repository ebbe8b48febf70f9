import Mathlib
import Hivemind.Mempool.Accept
import Hivemind.Miner.Outcome
import Hivemind.Validation.MarketIndex

/-!
# Block templates

`CreateNewBlock` of `miner.cpp` and `TestBlockValidity` of `main.cpp`.  The template starts with
the coinbase, then come the outcome transactions of the branches, then the transactions of the
memory pool, in the order in which the queue gives them out.  The queue is a heap of the standard
library; which of several best transactions comes first is the library's choice.  Doubles are
read as exact numbers.

A template has three lists beside each other: the transactions, their fees and their signature
operations.  The selection adds to all three at once; the outcome transactions are put in front
of it and have no fees and no signature operations, so the lists are of different lengths as soon
as there is one.  Such a transaction has no inputs either, which `CheckTransaction` refuses.

* `selectLoop_fees`: the fees and the signature operations are those of the transactions that the
  loop takes.
* `selectLoop_enough`: the fuel of the loop is enough.
* `length_buildTemplate`: how long the three lists of a template are.
* `template_sound_iff`: **when a template is sound.**
* `payout_breaks_template`: an outcome transaction that no block may carry.
-/

namespace Hivemind

open Codecs Ordered Outcomes

/-! ## The queue -/

/-- `TxPriority`. -/
structure TxPriority where
  dPriority : ℚ
  feeRate : CFeeRate
  tx : CTransaction

/-- `TxPriorityCompare`. -/
def txPriorityCompare (byFee : Bool) (a b : TxPriority) : Bool :=
  if byFee then
    if a.feeRate = b.feeRate then a.dPriority < b.dPriority
    else a.feeRate.nSatoshisPerK < b.feeRate.nSatoshisPerK
  else if a.dPriority = b.dPriority then a.feeRate.nSatoshisPerK < b.feeRate.nSatoshisPerK
  else a.dPriority < b.dPriority

/-- `std::pop_heap`: takes a greatest element off the queue. -/
structure HeapPop where
  pop : Bool → List TxPriority → Option (TxPriority × List TxPriority)
  pop_eq_none : ∀ {byFee queue}, pop byFee queue = none ↔ queue = []
  perm : ∀ {byFee queue best rest}, pop byFee queue = some (best, rest) → queue.Perm (best :: rest)
  greatest : ∀ {byFee queue best rest}, pop byFee queue = some (best, rest) →
    ∀ x ∈ rest, txPriorityCompare byFee best x = false

/-- A transaction that is not worse than a second one, which is not worse than a third, is
not worse than the third. -/
theorem txPriorityCompare_negTrans {byFee : Bool} {a b c : TxPriority}
    (hab : txPriorityCompare byFee a b = false) (hbc : txPriorityCompare byFee b c = false) :
    txPriorityCompare byFee a c = false := by
  have hrate : ∀ x y : CFeeRate, x = y ↔ x.nSatoshisPerK = y.nSatoshisPerK := by
    intro x y
    cases x
    cases y
    simp
  unfold txPriorityCompare at *
  simp only [hrate] at *
  grind

/-- Search the queue for a greatest transaction. -/
def popGreatest (byFee : Bool) : List TxPriority → Option (TxPriority × List TxPriority)
  | [] => none
  | x :: xs => match popGreatest byFee xs with
    | none => some (x, [])
    | some (y, ys) => some (if txPriorityCompare byFee x y then (y, x :: ys) else (x, y :: ys))

theorem popGreatest_eq_none {byFee : Bool} {queue : List TxPriority} :
    popGreatest byFee queue = none ↔ queue = [] := by
  cases queue with
  | nil => simp [popGreatest]
  | cons x xs =>
      simp only [popGreatest, reduceCtorEq, iff_false]
      split <;> simp

theorem popGreatest_spec {byFee : Bool} {queue rest : List TxPriority} {best : TxPriority}
    (h : popGreatest byFee queue = some (best, rest)) :
    queue.Perm (best :: rest) ∧ ∀ x ∈ rest, txPriorityCompare byFee best x = false := by
  induction queue generalizing best rest with
  | nil => cases h
  | cons x xs ih =>
      rw [popGreatest] at h
      split at h
      · rename_i hnone
        cases h
        rw [popGreatest_eq_none.mp hnone]
        exact ⟨List.Perm.refl _, by simp⟩
      · rename_i y ys hsome
        obtain ⟨hperm, hgreatest⟩ := ih hsome
        by_cases hlt : txPriorityCompare byFee x y = true
        · rw [if_pos hlt] at h
          cases h
          refine ⟨(hperm.cons x).trans (List.Perm.swap _ _ _), ?_⟩
          intro z hz
          rcases List.mem_cons.mp hz with rfl | hz
          · unfold txPriorityCompare at *
            grind
          · exact hgreatest z hz
        · rw [if_neg hlt] at h
          cases h
          have hnlt : txPriorityCompare byFee x y = false := by simpa using hlt
          refine ⟨hperm.cons x, ?_⟩
          intro z hz
          rcases List.mem_cons.mp hz with rfl | hz
          · exact hnlt
          · exact txPriorityCompare_negTrans hnlt (hgreatest z hz)

/-- A queue that is searched. -/
def searchedQueue : HeapPop where
  pop := popGreatest
  pop_eq_none := popGreatest_eq_none
  perm := fun h => (popGreatest_spec h).1
  greatest := fun h => (popGreatest_spec h).2

/-- `COrphan`: a transaction that waits for others of the pool. -/
structure COrphan where
  tx : CTransaction
  setDependsOn : List Uint256
  feeRate : CFeeRate
  dPriority : ℚ

/-! ## The state of the node -/

/-- What `CreateNewBlock` reads. -/
structure MinerState where
  ctx : AcceptContext
  miner : Miner
  heap : HeapPop
  mempool : CTxMemPool
  pcoinsTip : CCoinsView
  tree : BlockTree
  /-- `chainActive.Tip()`. -/
  tip : CBlockIndex
  disk : Disk
  minRelayTxFee : CFeeRate
  /-- `pblock->nVersion`. -/
  nVersion : Int32 := 2
  /-- `-blockmaxsize`, `-blockprioritysize` and `-blockminsize`. -/
  blockMaxSize : Nat := 750000
  blockPrioritySize : Nat := 50000
  blockMinSize : Nat := 0

namespace MinerState

/-- The height of the block. -/
def nHeight (st : MinerState) : Int := st.tip.nHeight + 1

def nBlockMaxSize (st : MinerState) : Nat := max 1000 (min (maxBlockSize - 1000) st.blockMaxSize)

def nBlockPrioritySize (st : MinerState) : Nat := min st.nBlockMaxSize st.blockPrioritySize

def nBlockMinSize (st : MinerState) : Nat := min st.nBlockMaxSize st.blockMinSize

end MinerState

/-- Why `CreateNewBlock` does not return. -/
inductive TemplateStop where
  /-- `getOutcomeTx` does what the language leaves undefined. -/
  | outcome (fault : Fault)
  | stop (s : Stop)
  /-- `CreateNewBlock() : TestBlockValidity failed`. -/
  | invalid (s : Stop)

/-! ## Priorities -/

/-- The loop over the inputs of a transaction of the pool. -/
structure PrioState where
  dPriority : ℚ := 0
  nTotalIn : CAmount := 0
  setDependsOn : List Uint256 := []

/-- One input; `none` is `fMissingInputs`.  An output that is not there counts as
nothing. -/
def prioInput (st : MinerState) (txin : CTxIn) (s : PrioState) : Option PrioState :=
  if st.pcoinsTip.haveCoins txin.prevout.hash then
    let coins := st.pcoinsTip.getCoins txin.prevout.hash
    let nValueIn := (coins.vout[txin.prevout.n.toNat]?.map CTxOut.nValue).getD 0
    some { s with
      nTotalIn := s.nTotalIn + nValueIn
      dPriority := s.dPriority + nValueIn.toInt * (st.nHeight - coins.nHeight) }
  else (st.mempool.mapTx.find txin.prevout.hash).map fun entry =>
    { s with
      setDependsOn := s.setDependsOn.insert txin.prevout.hash
      nTotalIn := s.nTotalIn +
        (entry.tx.vout[txin.prevout.n.toNat]?.map CTxOut.nValue).getD 0 }

/-- The inputs of a transaction of the pool. -/
def prioInputs (st : MinerState) : List CTxIn → PrioState → Option PrioState
  | [], s => some s
  | txin :: vin, s => (prioInput st txin s).bind (prioInputs st vin)

/-- The queue and the orphans that the pool gives. -/
structure Backlog where
  queue : List TxPriority := []
  orphans : List COrphan := []

/-- One transaction of the pool. -/
def enqueue (st : MinerState) (backlog : Backlog) (tx : CTransaction) : Except Stop Backlog :=
  if tx.isCoinBase || !isFinalTx st.ctx tx st.nHeight 0 then .ok backlog
  else match prioInputs st tx.vin {} with
    | none => .ok backlog
    | some s => do
      let nTxSize := tx.serSize
      let deltas := st.mempool.deltas (tx.getHash st.ctx.hash)
      let dPriority := tx.computePriority s.dPriority nTxSize + deltas.1
      let nValueOut ← raising tx.getValueOut
      let feeRate := CFeeRate.ofFee (s.nTotalIn + deltas.2 - nValueOut) (UInt64.ofNat nTxSize)
      if s.setDependsOn.isEmpty then
        .ok { backlog with queue := backlog.queue ++ [⟨dPriority, feeRate, tx⟩] }
      else .ok { backlog with
        orphans := backlog.orphans ++ [⟨tx, s.setDependsOn, feeRate, dPriority⟩] }

/-- The queue and the orphans of the whole pool. -/
def backlog (st : MinerState) : Except Stop Backlog :=
  st.mempool.mapTx.entries.foldlM (fun b p => enqueue st b p.2.tx) {}

/-! ## The selection -/

/-- The local variables of the selection. -/
structure SelectState where
  orphans : List COrphan
  fSortedByFee : Bool
  nBlockSize : Nat := 1000
  nBlockSigOps : Nat := 100
  view : CCoinsView
  nFees : CAmount := 0
  vtx : List CTransaction := []
  vTxFees : List CAmount := []
  vTxSigOps : List Nat := []

/-- The limits of a transaction before its inputs are looked at: size, legacy signature
operations, and the room for free transactions. -/
def withinLimits (st : MinerState) (s : SelectState) (p : TxPriority) : Bool :=
  let nTxSize := p.tx.serSize
  let deltas := st.mempool.deltas (p.tx.getHash st.ctx.hash)
  s.nBlockSize + nTxSize < st.nBlockMaxSize &&
    s.nBlockSigOps + getLegacySigOpCount p.tx < maxBlockSigOps &&
    !(s.fSortedByFee && deltas.1 ≤ 0 && deltas.2 ≤ 0 &&
      p.feeRate.nSatoshisPerK < st.minRelayTxFee.nSatoshisPerK &&
      st.nBlockMinSize ≤ s.nBlockSize + nTxSize)

/-- The loop sorts by fee from here on. -/
def sortsByFee (st : MinerState) (s : SelectState) (p : TxPriority) : Bool :=
  s.fSortedByFee ||
    (st.nBlockPrioritySize ≤ s.nBlockSize + p.tx.serSize || !allowFree p.dPriority)

/-- The orphans that wait for a transaction: those that are ready now, and the rest. -/
def releaseOrphans (txid : Uint256) : List COrphan → List TxPriority × List COrphan
  | [] => ([], [])
  | o :: os =>
    let (ready, rest) := releaseOrphans txid os
    let depends := o.setDependsOn.erase txid
    if txid ∈ o.setDependsOn ∧ depends = [] then (⟨o.dPriority, o.feeRate, o.tx⟩ :: ready, rest)
    else (ready, { o with setDependsOn := depends } :: rest)

/-- `CheckInputs` of the selection: whether the transaction may go into a block. -/
def selectInputsOk (st : MinerState) (view : CCoinsView) (tx : CTransaction) : Except Stop Bool :=
  match checkInputs st.ctx.toEnv tx view st.nHeight true mandatoryScriptVerifyFlags false with
  | .ok _ => .ok true
  | .error (.reject _ _ _) => .ok false
  | .error s => .error s

/-- Take a transaction into the template, if it fits and its inputs are good. -/
def selectTx (st : MinerState) (s : SelectState) (p : TxPriority) :
    Except Stop (List TxPriority × SelectState) :=
  let tx := p.tx
  if !withinLimits st s p then .ok ([], s)
  else
    let s := { s with fSortedByFee := sortsByFee st s p }
    if !s.view.haveInputs tx then .ok ([], s)
    else do
      let nValueIn ← getValueIn s.view tx
      let nValueOut ← raising tx.getValueOut
      let nTxSigOps := getLegacySigOpCount tx + (← getP2SHSigOpCount tx s.view)
      if maxBlockSigOps ≤ s.nBlockSigOps + nTxSigOps then .ok ([], s)
      else if !(← selectInputsOk st s.view tx) then .ok ([], s)
      else do
        let (view, _) ← updateCoins st.ctx.toEnv tx s.view st.nHeight
        let (ready, orphans) := releaseOrphans (tx.getHash st.ctx.hash) s.orphans
        .ok (ready, { s with
          orphans, view
          vtx := s.vtx ++ [tx]
          vTxFees := s.vTxFees ++ [nValueIn - nValueOut]
          vTxSigOps := s.vTxSigOps ++ [nTxSigOps]
          nBlockSize := s.nBlockSize + tx.serSize
          nBlockSigOps := s.nBlockSigOps + nTxSigOps
          nFees := s.nFees + (nValueIn - nValueOut) })

/-- The loop over the queue.  Every turn takes one transaction off it, and a transaction
comes in at most once; their number bounds the loop. -/
def selectLoop (st : MinerState) : Nat → List TxPriority → SelectState → Except Stop SelectState
  | 0, _, s => .ok s
  | n + 1, queue, s => match st.heap.pop s.fSortedByFee queue with
    | none => .ok s
    | some (p, queue) => do
      let (ready, s) ← selectTx st s p
      selectLoop st n (queue ++ ready) s

/-- The transactions of the pool that go into the template. -/
def select (st : MinerState) : Except Stop SelectState := do
  let b ← backlog st
  selectLoop st (b.queue.length + b.orphans.length) b.queue
    { orphans := b.orphans, fSortedByFee := st.nBlockPrioritySize = 0, view := st.pcoinsTip }

/-! ## `TestBlockValidity` -/

/-- `TestBlockValidity`, without the proof of work and the merkle root. -/
def testBlockValidity (st : MinerState) (block : CBlock) : Except Stop Unit := do
  let indexDummy := { CBlockIndex.ofHeader block.toCBlockHeader with
    pprev := st.tip.phashBlock
    nHeight := st.nHeight }
  contextualCheckBlockHeader st.ctx.toContext st.tree block.toCBlockHeader (some st.tip)
  checkBlock st.ctx.toContext block false false
  contextualCheckBlock st.ctx st.tree block (some st.tip)
  let _ ← (connectBlock st.ctx.toContext block indexDummy true st.pcoinsTip st.disk).1
  .ok ()

/-! ## `CreateNewBlock` -/

/-- `CBlockTemplate`. -/
structure CBlockTemplate where
  block : CBlock
  vTxFees : List CAmount
  vTxSigOps : List Nat

/-- The coinbase of the template. -/
def templateCoinbase (st : MinerState) (scriptPubKeyIn : CScript) (nFees : CAmount) :
    CTransaction where
  vin := [{ prevout := COutPoint.null, scriptSig := pushInt st.nHeight ++ [0] }]
  vout := [⟨getBlockValue st.ctx.params st.nHeight nFees, scriptPubKeyIn⟩]

/-- `UpdateTime`, and the work: the header of the template. -/
def templateHeader (st : MinerState) : Except Stop CBlockHeader :=
  let nTime := max (st.tree.getMedianTimePast st.tip + 1 : Int) st.ctx.nAdjustedTime
  let header : CBlockHeader :=
    { nVersion := st.nVersion
      hashPrevBlock := st.tip.getBlockHash
      nTime := UInt32.ofInt nTime }
  match st.tree.getNextWorkRequired st.ctx.params (some st.tip) header with
  | none => .error .asserted
  | some nBits => .ok { header with nBits }

/-- The template with the given outcome transactions.  They come before the transactions
of the pool, and nothing is recorded for them. -/
def buildTemplate (st : MinerState) (scriptPubKeyIn : CScript) (outcomes : List CTransaction) :
    Except Stop CBlockTemplate := do
  let s ← select st
  let header ← templateHeader st
  let coinbase := templateCoinbase st scriptPubKeyIn s.nFees
  .ok
    { block := { toCBlockHeader := header, vtx := coinbase :: (outcomes ++ s.vtx) }
      vTxFees := -s.nFees :: s.vTxFees
      vTxSigOps := getLegacySigOpCount coinbase :: s.vTxSigOps }

/-- The outcome transactions of the branches: those that have outputs. -/
def outcomeTxs (st : MinerState) : Except Fault (List CTransaction) := do
  let height := UInt32.ofInt (st.ctx.chainHeight + 1)
  let btxs ← (getBranches st.miner.market).mapM fun branch => getOutcomeTx st.miner branch height
  .ok (btxs.filter fun btx => !btx.vout.isEmpty)

/-- `CreateNewBlock`. -/
def createNewBlock (st : MinerState) (scriptPubKeyIn : CScript) :
    Except TemplateStop CBlockTemplate := do
  let outcomes ← (outcomeTxs st).mapError .outcome
  let t ← (buildTemplate st scriptPubKeyIn outcomes).mapError .stop
  let _ ← (testBlockValidity st t.block).mapError .invalid
  .ok t

/-! ## What the selection records -/

/-- The two ways a turn of the selection ends: the transaction is left out, or it is taken
with its fee and its signature operations. -/
theorem selectTx_cases {st : MinerState} {s s' : SelectState} {p : TxPriority}
    {ready : List TxPriority} (h : selectTx st s p = .ok (ready, s')) :
    (ready = [] ∧ s' = { s with fSortedByFee := s'.fSortedByFee }) ∨
    ∃ nValueIn nValueOut nSigOps view undo,
      getValueIn s.view p.tx = .ok nValueIn ∧ p.tx.getValueOut = .ok nValueOut ∧
      getP2SHSigOpCount p.tx s.view = .ok nSigOps ∧
      updateCoins st.ctx.toEnv p.tx s.view st.nHeight = .ok (view, undo) ∧
      ready = (releaseOrphans (p.tx.getHash st.ctx.hash) s.orphans).1 ∧
      s'.orphans = (releaseOrphans (p.tx.getHash st.ctx.hash) s.orphans).2 ∧
      s'.view = view ∧ s'.vtx = s.vtx ++ [p.tx] ∧
      s'.vTxFees = s.vTxFees ++ [nValueIn - nValueOut] ∧
      s'.vTxSigOps = s.vTxSigOps ++ [getLegacySigOpCount p.tx + nSigOps] ∧
      s'.nFees = s.nFees + (nValueIn - nValueOut) := by
  simp only [selectTx] at h
  split_ifs at h with hlimits hinputs
  · cases h
    exact Or.inl ⟨rfl, rfl⟩
  · cases h
    exact Or.inl ⟨rfl, rfl⟩
  · simp only [bind_eq_ok, raising_eq_ok] at h
    obtain ⟨nValueIn, hin, nValueOut, hout, nSigOps, hsig, h⟩ := h
    split_ifs at h with hmax
    · cases h
      exact Or.inl ⟨rfl, rfl⟩
    · simp only [bind_eq_ok] at h
      obtain ⟨ok, -, h⟩ := h
      split_ifs at h with hok
      · cases h
        exact Or.inl ⟨rfl, rfl⟩
      · simp only [bind_eq_ok] at h
        obtain ⟨⟨view, undo⟩, hupd, h⟩ := h
        cases h
        exact Or.inr ⟨nValueIn, nValueOut, nSigOps, view, undo, hin, hout, hsig, hupd, rfl, rfl,
          rfl, rfl, rfl, rfl, rfl⟩

/-- The fee and the signature operations of transactions that are applied to a view one
after another, and the view they leave. -/
def recordTxs (env : Env) (nHeight : Int) :
    CCoinsView → List CTransaction → Except Stop (List (CAmount × Nat) × CCoinsView)
  | view, [] => .ok ([], view)
  | view, tx :: vtx => do
    let nValueIn ← getValueIn view tx
    let nValueOut ← raising tx.getValueOut
    let nSigOps ← getP2SHSigOpCount tx view
    let (view, _) ← updateCoins env tx view nHeight
    let (records, view) ← recordTxs env nHeight view vtx
    .ok ((nValueIn - nValueOut, getLegacySigOpCount tx + nSigOps) :: records, view)

/-- One more transaction at the end. -/
theorem recordTxs_concat {env : Env} {nHeight : Int} {view view₁ view₂ : CCoinsView}
    {vtx : List CTransaction} {tx : CTransaction} {records : List (CAmount × Nat)}
    {nValueIn nValueOut : CAmount} {nSigOps : Nat} {undo : CTxUndo}
    (h : recordTxs env nHeight view vtx = .ok (records, view₁))
    (hin : getValueIn view₁ tx = .ok nValueIn) (hout : tx.getValueOut = .ok nValueOut)
    (hsig : getP2SHSigOpCount tx view₁ = .ok nSigOps)
    (hupd : updateCoins env tx view₁ nHeight = .ok (view₂, undo)) :
    recordTxs env nHeight view (vtx ++ [tx]) =
      .ok (records ++ [(nValueIn - nValueOut, getLegacySigOpCount tx + nSigOps)], view₂) := by
  induction vtx generalizing view records with
  | nil =>
      cases h
      simp [recordTxs, hin, hout, hsig, hupd, raising, bind, Except.bind, Except.mapError]
  | cons tx' vtx ih =>
      simp only [recordTxs, bind_eq_ok, raising_eq_ok, Except.ok.injEq, Prod.mk.injEq] at h
      obtain ⟨vIn, hvIn, vOut, hvOut, n, hn, ⟨view', undo'⟩, hview', ⟨records', view''⟩, hrest,
        rfl, rfl⟩ := h
      simp only [List.cons_append, recordTxs, bind_eq_ok, raising_eq_ok, Except.ok.injEq,
        Prod.mk.injEq]
      exact ⟨vIn, hvIn, vOut, hvOut, n, hn, (view', undo'), hview', _, ih hrest, rfl, rfl⟩

theorem length_recordTxs {env : Env} {nHeight : Int} {view view' : CCoinsView}
    {vtx : List CTransaction} {records : List (CAmount × Nat)}
    (h : recordTxs env nHeight view vtx = .ok (records, view')) :
    records.length = vtx.length := by
  induction vtx generalizing view view' records with
  | nil =>
      cases h
      rfl
  | cons tx vtx ih =>
      simp only [recordTxs, bind_eq_ok, Except.ok.injEq, Prod.mk.injEq] at h
      obtain ⟨vIn, -, vOut, -, n, -, ⟨view₁, undo₁⟩, -, ⟨records₁, view₂⟩, hrest, rfl, -⟩ := h
      rw [List.length_cons, ih hrest, List.length_cons]

/-- The fees and the signature operations of the selection are those of its transactions. -/
def Recorded (st : MinerState) (s : SelectState) : Prop :=
  ∃ records, recordTxs st.ctx.toEnv st.nHeight st.pcoinsTip s.vtx = .ok (records, s.view) ∧
    s.vTxFees = records.map Prod.fst ∧ s.vTxSigOps = records.map Prod.snd

theorem Recorded.selectTx {st : MinerState} {s s' : SelectState} {p : TxPriority}
    {ready : List TxPriority} (hs : Recorded st s) (h : selectTx st s p = .ok (ready, s')) :
    Recorded st s' := by
  obtain ⟨records, hrec, hfees, hsigs⟩ := hs
  rcases selectTx_cases h with ⟨-, hsame⟩ |
    ⟨vIn, vOut, n, view, undo, hin, hout, hsig, hupd, -, -, hview, hvtx, hfees', hsigs', -⟩
  · rw [hsame]
    exact ⟨records, hrec, hfees, hsigs⟩
  · refine ⟨records ++ [(vIn - vOut, getLegacySigOpCount p.tx + n)], ?_, ?_, ?_⟩
    · rw [hvtx, hview]
      exact recordTxs_concat hrec hin hout hsig hupd
    · rw [hfees', hfees, List.map_append]
      rfl
    · rw [hsigs', hsigs, List.map_append]
      rfl

/-- **The selection records what it takes.** -/
theorem selectLoop_fees {st : MinerState} {n : Nat} {queue : List TxPriority} {s s' : SelectState}
    (hs : Recorded st s) (h : selectLoop st n queue s = .ok s') : Recorded st s' := by
  induction n generalizing queue s with
  | zero =>
      cases h
      exact hs
  | succ n ih =>
      rw [selectLoop] at h
      split at h
      · cases h
        exact hs
      · simp only [bind_eq_ok] at h
        obtain ⟨⟨ready, s₁⟩, hsel, hrest⟩ := h
        exact ih (hs.selectTx hsel) hrest

theorem recorded_select {st : MinerState} {s : SelectState} (h : select st = .ok s) :
    Recorded st s := by
  simp only [select, bind_eq_ok] at h
  obtain ⟨b, -, hloop⟩ := h
  exact selectLoop_fees ⟨[], rfl, rfl, rfl⟩ hloop

/-! ## The fuel of the selection -/

theorem length_releaseOrphans (txid : Uint256) (os : List COrphan) :
    (releaseOrphans txid os).1.length + (releaseOrphans txid os).2.length = os.length := by
  induction os with
  | nil => rfl
  | cons o os ih =>
      rw [releaseOrphans]
      simp only
      split_ifs
      · simp only [List.length_cons]
        omega
      · simp only [List.length_cons]
        omega

/-- **The loop does not stop early**: the number of waiting transactions is enough turns,
and more turns change nothing. -/
theorem selectLoop_enough {st : MinerState} {n : Nat} {queue : List TxPriority} {s : SelectState}
    (h : queue.length + s.orphans.length ≤ n) :
    selectLoop st (n + 1) queue s = selectLoop st n queue s := by
  induction n generalizing queue s with
  | zero =>
      have hnil : queue = [] := List.length_eq_zero_iff.mp (by omega)
      have hpop := (@HeapPop.pop_eq_none st.heap s.fSortedByFee queue).mpr hnil
      simp only [selectLoop, hpop]
  | succ n ih =>
      rw [selectLoop, selectLoop]
      cases hpop : st.heap.pop s.fSortedByFee queue with
      | none => rfl
      | some r =>
          obtain ⟨p, rest⟩ := r
          have hlen := (st.heap.perm hpop).length_eq
          rw [List.length_cons] at hlen
          simp only
          cases hsel : selectTx st s p with
          | error e => rfl
          | ok r =>
              obtain ⟨ready, s'⟩ := r
              show selectLoop st (n + 1) (rest ++ ready) s' = selectLoop st n (rest ++ ready) s'
              apply ih
              rw [List.length_append]
              rcases selectTx_cases hsel with ⟨hready, hsame⟩ |
                ⟨-, -, -, -, -, -, -, -, -, hready, horphans, -⟩
              · have horphans : s'.orphans = s.orphans := by rw [hsame]
                rw [hready, horphans, List.length_nil]
                omega
              · have := length_releaseOrphans (p.tx.getHash st.ctx.hash) s.orphans
                rw [hready, horphans]
                omega

/-! ## Templates -/

/-- **How long the lists of a template are**: the outcome transactions have no fees and no
signature operations. -/
theorem length_buildTemplate {st : MinerState} {script : CScript} {outcomes : List CTransaction}
    {t : CBlockTemplate} (h : buildTemplate st script outcomes = .ok t) :
    t.block.vtx.length = outcomes.length + t.vTxFees.length ∧
      t.vTxSigOps.length = t.vTxFees.length := by
  simp only [buildTemplate, bind_eq_ok, Except.ok.injEq] at h
  obtain ⟨s, hs, header, -, rfl⟩ := h
  obtain ⟨records, hrec, hfees, hsigs⟩ := recorded_select hs
  have hlen := length_recordTxs hrec
  simp only [List.length_cons, List.length_append, hfees, hsigs, List.length_map, hlen]
  exact ⟨by omega, trivial⟩

/-- The three lists of a template have one length, and from the first transaction after the
coinbase on they give the fee and the signature operations of each transaction. -/
structure CBlockTemplate.Consistent (st : MinerState) (t : CBlockTemplate) : Prop where
  length_fees : t.vTxFees.length = t.block.vtx.length
  length_sigOps : t.vTxSigOps.length = t.block.vtx.length
  records : ∃ records view,
    recordTxs st.ctx.toEnv st.nHeight st.pcoinsTip t.block.vtx.tail = .ok (records, view) ∧
    t.vTxFees.tail = records.map Prod.fst ∧ t.vTxSigOps.tail = records.map Prod.snd

/-- Without outcome transactions a template is consistent. -/
theorem consistent_buildTemplate {st : MinerState} {script : CScript} {t : CBlockTemplate}
    (h : buildTemplate st script [] = .ok t) : t.Consistent st := by
  obtain ⟨hlen, hsig⟩ := length_buildTemplate h
  rw [List.length_nil, Nat.zero_add] at hlen
  refine ⟨hlen.symm, hsig.trans hlen.symm, ?_⟩
  simp only [buildTemplate, bind_eq_ok, Except.ok.injEq] at h
  obtain ⟨s, hs, header, -, rfl⟩ := h
  obtain ⟨records, hrec, hfees, hsigs⟩ := recorded_select hs
  exact ⟨records, s.view, hrec, hfees, hsigs⟩

theorem createNewBlock_eq_ok {st : MinerState} {script : CScript} {t : CBlockTemplate} :
    createNewBlock st script = .ok t ↔ ∃ outcomes, outcomeTxs st = .ok outcomes ∧
      buildTemplate st script outcomes = .ok t ∧ testBlockValidity st t.block = .ok () := by
  simp only [createNewBlock, bind_eq_ok, mapError_eq_ok, Except.ok.injEq]
  constructor
  · rintro ⟨outcomes, hout, t', hbuild, ⟨⟩, htest, rfl⟩
    exact ⟨outcomes, hout, hbuild, htest⟩
  · rintro ⟨outcomes, hout, hbuild, htest⟩
    exact ⟨outcomes, hout, t, hbuild, (), htest, rfl⟩

/-- The template without outcome transactions passes `TestBlockValidity`. -/
def PassesWithout (st : MinerState) (script : CScript) : Prop :=
  ∃ t, buildTemplate st script [] = .ok t ∧ testBlockValidity st t.block = .ok ()

/-- What the users of a template rely on: it is consistent, and the outcome transactions do
not make `CreateNewBlock` fail. -/
structure TemplateSound (st : MinerState) (script : CScript) : Prop where
  consistent : ∀ t, createNewBlock st script = .ok t → t.Consistent st
  accepted : PassesWithout st script → ∃ t, createNewBlock st script = .ok t

/-- No branch has anything to settle in the next block. -/
def SettlesNothing (st : MinerState) : Prop :=
  ∀ branch ∈ getBranches st.miner.market, ∃ btx,
    getOutcomeTx st.miner branch (UInt32.ofInt (st.ctx.chainHeight + 1)) = .ok btx ∧ btx.vout = []

theorem outcomeTxs_eq_nil {st : MinerState} : outcomeTxs st = .ok [] ↔ SettlesNothing st := by
  simp only [outcomeTxs, bind_eq_ok, mapM_eq_ok, Except.ok.injEq, SettlesNothing,
    List.filter_eq_nil_iff, Bool.not_eq_true', Bool.not_eq_false, List.isEmpty_iff]
  generalize getBranches st.miner.market = branches
  generalize UInt32.ofInt (st.ctx.chainHeight + 1) = height
  induction branches with
  | nil => simp
  | cons branch branches ih =>
      rw [List.forall_mem_cons, ← ih]
      constructor
      · rintro ⟨btxs, hbtxs, hempty⟩
        obtain ⟨btx, rest, hbtx, hrest, rfl⟩ := List.forall₂_cons_left_iff.mp hbtxs
        obtain ⟨hvout, hothers⟩ := List.forall_mem_cons.mp hempty
        exact ⟨⟨btx, hbtx, hvout⟩, rest, hrest, hothers⟩
      · rintro ⟨⟨btx, hbtx, hvout⟩, rest, hrest, hothers⟩
        exact ⟨btx :: rest, List.Forall₂.cons hbtx hrest, List.forall_mem_cons.mpr ⟨hvout, hothers⟩⟩

/-- **When a template is sound**: exactly when no branch settles anything in the block.  An
outcome transaction comes without a fee, so that it moves the fees of all transactions
after it. -/
theorem template_sound_iff {st : MinerState} {script : CScript}
    (hdomain : (∃ t, createNewBlock st script = .ok t) ∨ PassesWithout st script) :
    TemplateSound st script ↔ SettlesNothing st := by
  rw [← outcomeTxs_eq_nil]
  constructor
  · intro hsound
    have hreturns : ∃ t, createNewBlock st script = .ok t := hdomain.elim id hsound.accepted
    obtain ⟨t, ht⟩ := hreturns
    obtain ⟨outcomes, hout, hbuild, -⟩ := createNewBlock_eq_ok.mp ht
    have hlen := (length_buildTemplate hbuild).1
    rw [(hsound.consistent t ht).length_fees] at hlen
    have hnil : outcomes = [] := List.length_eq_zero_iff.mp (by omega)
    rw [hout, hnil]
  · intro hnothing
    refine ⟨?_, ?_⟩
    · intro t ht
      obtain ⟨outcomes, hout, hbuild, -⟩ := createNewBlock_eq_ok.mp ht
      rw [hnothing] at hout
      cases hout
      exact consistent_buildTemplate hbuild
    · rintro ⟨t, hbuild, htest⟩
      exact ⟨t, createNewBlock_eq_ok.mpr ⟨[], hnothing, hbuild, htest⟩⟩

/-! ### A template on a chain of two blocks -/

/-- A market that has the branch for its decision, and so is listed under the branch. -/
def exampleMarket : MarketObj .market where
  data := { keyID := Blob.null, B := 1, tradingFee := 0, maxCommission := 0, title := [],
            description := [], tags := [], maturation := 2,
            branchid := exampleBranch.getHash exampleHash,
            decisionIDs := [exampleBranch.getHash exampleHash], decisionFunctionIDs := [],
            txPoWh := 0, txPoWd := 0 }

/-- A trade that buys one share of it. -/
def exampleTrade : MarketObj .trade where
  data := { keyID := Blob.null, marketid := exampleMarket.getHash exampleHash, isBuy := true,
            nShares := 1, price := 1, decisionState := 0, nonce := 0 }

/-- A coinbase that carries the objects. -/
def exampleObjsCoinbase (objs : List AnyMarketObj) : CTransaction :=
  coinbaseTx 1 (⟨0, [0x51]⟩ :: objs.map fun o => ⟨0, o.2.getScript⟩)

/-- A chain of two blocks; the second one carries the objects. -/
def exampleObjsChain (objs : List AnyMarketObj) : List (CBlock × CBlockIndex) :=
  [(coinbaseBlock exampleHash none examplePlainCoinbase,
      coinbaseIndex exampleHash none 0 examplePlainCoinbase),
    (secondBlock exampleEnv examplePlainCoinbase (exampleObjsCoinbase objs),
      secondIndex exampleEnv examplePlainCoinbase (exampleObjsCoinbase objs))]

/-- The coins and the disk after that chain. -/
def exampleObjsNode (objs : List AnyMarketObj) : CCoinsView × Disk :=
  (connectChain (exampleContext exampleEnv) (exampleObjsChain objs) ({}, {})).toOption.getD ({}, {})

/-- A miner on that chain, with nothing in the memory pool. -/
def exampleMiner (objs : List AnyMarketObj) : MinerState where
  ctx := { exampleContext exampleEnv with
    chainHeight := 1, diskSpaceOk := true, writeBlockOk := true }
  miner :=
    { hash := exampleHash, hash160 := id, market := (exampleObjsNode objs).2.market
      getTransaction := fun _ tx => tx, calcOutcome := fun _ => none }
  heap := searchedQueue
  mempool := {}
  pcoinsTip := (exampleObjsNode objs).1
  tree :=
    { mapBlockIndex :=
        OrdMap.empty.putAll ((exampleObjsChain objs).map fun b => (b.2.getBlockHash, b.2)) }
  tip := secondIndex exampleEnv examplePlainCoinbase (exampleObjsCoinbase objs)
  disk := (exampleObjsNode objs).2
  minRelayTxFee := {}

theorem BlockTree.mem_ancestors {tree : BlockTree} {n : Nat} {p : Option CBlockIndex}
    {pindex : CBlockIndex} (h : pindex ∈ tree.ancestors n p) :
    p = some pindex ∨ ∃ hash, tree.find hash = some pindex := by
  induction n generalizing p with
  | zero => cases h
  | succ n ih =>
      cases p with
      | none => cases h
      | some q =>
          rcases List.mem_cons.mp h with rfl | hmem
          · exact Or.inl rfl
          · rcases ih hmem with hprev | hfind
            · obtain ⟨hash, -, hfind⟩ := Option.bind_eq_some_iff.mp hprev
              exact Or.inr ⟨hash, hfind⟩
            · exact Or.inr hfind

theorem BlockTree.getMedianTimePast_eq_zero {tree : BlockTree} {tip : CBlockIndex}
    (htip : tip.nTime = 0) (htree : ∀ hash pindex, tree.find hash = some pindex → pindex.nTime = 0) :
    tree.getMedianTimePast tip = 0 := by
  have htimes : ∀ t ∈ (tree.ancestors 11 (some tip)).map fun p => p.nTime.toNat, t = 0 := by
    intro t ht
    obtain ⟨pindex, hmem, rfl⟩ := List.mem_map.mp ht
    have hzero : pindex.nTime = 0 := by
      rcases BlockTree.mem_ancestors hmem with htip' | ⟨hash, hfind⟩
      · rwa [← Option.some.inj htip']
      · exact htree hash pindex hfind
    rw [hzero]
    rfl
  rw [getMedianTimePast, List.getD_eq_getElem?_getD]
  generalize hm : ((tree.ancestors 11 (some tip)).map fun p => p.nTime.toNat).mergeSort = times
  cases hget : times[times.length / 2]? with
  | none => rfl
  | some t =>
      apply htimes
      rw [← List.mem_mergeSort, hm]
      exact List.mem_of_getElem? hget

/-- The blocks of the chain have the time 0. -/
theorem getMedianTimePast_example (objs : List AnyMarketObj) :
    (exampleMiner objs).tree.getMedianTimePast (exampleMiner objs).tip = 0 := by
  refine BlockTree.getMedianTimePast_eq_zero rfl ?_
  intro hash pindex hfind
  rcases OrdMap.mem_putAll (OrdMap.find_eq_some.mp hfind) with hmem | hempty
  · simp only [exampleObjsChain, List.map_cons, List.map_nil, List.mem_cons, Prod.mk.injEq,
      List.not_mem_nil, or_false] at hmem
    rcases hmem with ⟨-, rfl⟩ | ⟨-, rfl⟩ <;> rfl
  · cases hempty

theorem passesWithout_of_toBool {st : MinerState} {script : CScript}
    (h : (do testBlockValidity st (← buildTemplate st script []).block).toBool = true) :
    PassesWithout st script := by
  cases hbuild : buildTemplate st script [] with
  | error e => simp [hbuild, bind, Except.bind, Except.toBool] at h
  | ok t =>
      refine ⟨t, hbuild, ?_⟩
      simp only [hbuild, bind, Except.bind] at h
      cases htest : testBlockValidity st t.block with
      | error e => simp [htest, Except.toBool] at h
      | ok u => rfl

/-- The objects of a market that has ended, with a trade to be paid. -/
def exampleSettled : List AnyMarketObj :=
  [⟨.branch, exampleBranch⟩, ⟨.market, exampleMarket⟩, ⟨.trade, exampleTrade⟩]

/-- **An outcome transaction that no block may carry**: the market has ended and the trade
is paid, by a transaction without inputs.  Without it the template is valid, and with it
`CreateNewBlock` fails. -/
theorem payout_breaks_template :
    PassesWithout (exampleMiner exampleSettled) [0x51] ∧
      ¬ TemplateSound (exampleMiner exampleSettled) [0x51] := by
  have hpasses : PassesWithout (exampleMiner exampleSettled) [0x51] := by
    apply passesWithout_of_toBool
    simp only [buildTemplate, templateHeader, testBlockValidity, contextualCheckBlockHeader,
      checkBlockHeaderAfter, getMedianTimePast_example]
    decide +kernel
  refine ⟨hpasses, ?_⟩
  intro hsound
  obtain ⟨t, ht⟩ := hsound.accepted hpasses
  have hfails : (createNewBlock (exampleMiner exampleSettled) [0x51]).toBool = false := by
    simp only [createNewBlock, buildTemplate, templateHeader, testBlockValidity,
      contextualCheckBlockHeader, checkBlockHeaderAfter, getMedianTimePast_example]
    decide +kernel
  rw [ht] at hfails
  cases hfails

/-- The condition at work: a branch, and nothing to settle. -/
theorem template_sound_branch :
    PassesWithout (exampleMiner [⟨.branch, exampleBranch⟩]) [0x51] ∧
      TemplateSound (exampleMiner [⟨.branch, exampleBranch⟩]) [0x51] := by
  have hpasses : PassesWithout (exampleMiner [⟨.branch, exampleBranch⟩]) [0x51] := by
    apply passesWithout_of_toBool
    simp only [buildTemplate, templateHeader, testBlockValidity, contextualCheckBlockHeader,
      checkBlockHeaderAfter, getMedianTimePast_example]
    decide +kernel
  have hnothing : SettlesNothing (exampleMiner [⟨.branch, exampleBranch⟩]) := by
    apply outcomeTxs_eq_nil.mp
    have hlen : (outcomeTxs (exampleMiner [⟨.branch, exampleBranch⟩])).map List.isEmpty =
        .ok true := by
      decide +kernel
    obtain ⟨outcomes, hout, hempty⟩ := map_eq_ok.mp hlen
    rw [hout, List.isEmpty_iff.mp hempty]
  exact ⟨hpasses, (template_sound_iff (Or.inr hpasses)).mpr hnothing⟩

end Hivemind
