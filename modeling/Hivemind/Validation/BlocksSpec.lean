import Hivemind.Validation.Blocks

/-!
# What connecting a block comes to

Inversion lemmas for `ConnectBlock`: what has been checked when it succeeds, and what it has
written when it stops.  The results about chains of blocks go through these and do not unfold the
function again.

The second half builds blocks.  A block with nothing but a sound coinbase passes on every view
that has no unspent coins under its id, so a chain of such blocks is connected by one lemma for
each of them; the counterexamples of the later modules are coinbases that carry what they are
about.

* `checkBlock_ok`, `connectTx_ok`, `connectCheck_ok`: what has been checked.
* `connectBlock_ok_iff`: **what a success is.**
* `connectBlock_market`: the market index changes on success only, and then by one batch.
* `connectCheck_coinbase`, `connectBlock_coinbase`: a block with nothing but a sound coinbase.
* `connectBlock_second`: a chain of two of them.
-/

namespace Hivemind

open Codecs Ordered Outcomes

variable {ctx : Context} {block : CBlock} {pindex : CBlockIndex} {view : CCoinsView} {disk : Disk}

/-! ## Checks -/

theorem checkTransactions_ok {vtx : List CTransaction} :
    checkTransactions vtx = .ok () ↔ ∀ tx ∈ vtx, checkTransaction tx = .ok () := by
  induction vtx with
  | nil => simp [checkTransactions]
  | cons tx vtx ih =>
      simp only [checkTransactions, bind_eq_ok, List.mem_cons, forall_eq_or_imp, ih]
      constructor
      · rintro ⟨⟨⟩, htx, hrest⟩
        exact ⟨htx, hrest⟩
      · rintro ⟨htx, hrest⟩
        exact ⟨(), htx, hrest⟩

/-- **What `CheckBlock` says about the transactions.** -/
theorem checkBlock_ok {fCheckPOW fCheckMerkleRoot : Bool}
    (h : checkBlock ctx block fCheckPOW fCheckMerkleRoot = .ok ()) :
    (∀ tx ∈ block.vtx, checkTransaction tx = .ok ()) ∧
      ∃ cb vtx, block.vtx = cb :: vtx ∧ cb.isCoinBase = true ∧ ∀ tx ∈ vtx, tx.isCoinBase = false := by
  simp only [checkBlock, bind_eq_ok] at h
  obtain ⟨⟨⟩, -, h⟩ := h
  split_ifs at h
  simp only [checkBlockTransactions, ite_dos_eq_ok, bind_eq_ok] at h
  obtain ⟨-, hfirst, hrest, ⟨⟩, htxs, -⟩ := h
  refine ⟨checkTransactions_ok.mp htxs, ?_⟩
  cases hv : block.vtx with
  | nil => simp [hv] at hfirst
  | cons cb vtx =>
      refine ⟨cb, vtx, rfl, by simpa [hv] using hfirst, ?_⟩
      simpa [hv] using hrest

/-- One turn of the loop over the transactions. -/
theorem connectTx_ok {st st' : ConnectState} {tx : CTransaction}
    (h : connectTx ctx pindex st tx = .ok st') :
    (∃ undo, updateCoins ctx.toEnv tx st.view pindex.nHeight = .ok (st'.view, undo)) ∧
      (tx.isCoinBase = false → ∃ fScriptChecks flags checks,
        checkInputs ctx.toEnv tx st.view pindex.nHeight fScriptChecks flags ctx.scriptCheckThreads =
          .ok checks) := by
  simp only [connectTx, ite_dos_eq_ok, bind_eq_ok] at h
  obtain ⟨-, st₁, hin, hout⟩ := h
  simp only [connectOutputs, bind_eq_ok, Except.ok.injEq] at hout
  obtain ⟨⟨view, undo⟩, hupd, rfl⟩ := hout
  cases hcb : tx.isCoinBase with
  | true =>
      rw [connectInputs, hcb, if_pos rfl] at hin
      obtain rfl := Except.ok.inj hin
      refine ⟨⟨undo, hupd⟩, ?_⟩
      intro hfalse
      cases hfalse
  | false =>
      simp only [connectInputs, hcb, Bool.false_eq_true, if_false, ite_dos_eq_ok, bind_eq_ok,
        raising_eq_ok, Except.ok.injEq] at hin
      obtain ⟨-, n, -, -, vIn, -, vOut, -, checks, hchecks, rfl⟩ := hin
      exact ⟨⟨undo, hupd⟩, fun _ => ⟨_, _, checks, hchecks⟩⟩

/-- What has been checked before anything is written. -/
theorem connectCheck_ok {fJustCheck : Bool} {st : ConnectState}
    (h : connectCheck ctx block pindex fJustCheck view = .ok st) :
    checkBlock ctx block (!fJustCheck) (!fJustCheck) = .ok () ∧
      pindex.pprev.getD Blob.null = view.bestBlock ∧
      (enforceBIP30 pindex && overwrites ctx.toEnv view block) = false ∧
      (∃ offset, connectTxs ctx pindex { view, nTxOffset := offset } block.vtx = .ok st) ∧
      waitChecks ctx.toEnv st.checks = .ok () := by
  simp only [connectCheck, bind_eq_ok] at h
  obtain ⟨⟨⟩, hcheck, h⟩ := h
  split_ifs at h with hprev hbip
  · cases h
  · simp only [bind_eq_ok, Except.ok.injEq] at h
    obtain ⟨st', htxs, ⟨⟩, hwait, rfl⟩ := h
    exact ⟨hcheck, not_not.mp hprev, by simpa using hbip, ⟨_, htxs⟩, hwait⟩

/-! ## Writes -/

/-- **What a success of `ConnectBlock` is.** -/
theorem connectBlock_ok_iff {view' : CCoinsView} {disk' : Disk} :
    connectBlock ctx block pindex false view disk = (.ok view', disk') ↔
      ∃ st objs, connectCheck ctx block pindex false view = .ok st ∧
        undoWriteFails ctx block pindex disk = false ∧ indexedObjs ctx block = .ok objs ∧
        view' = st.view.setBestBlock pindex.getBlockHash ∧
        disk' = { writeTxIndex ctx pindex st (writeUndo ctx block pindex st disk) with
          market := writeMarketIndex objs
            (writeTxIndex ctx pindex st (writeUndo ctx block pindex st disk)).market } := by
  unfold connectBlock
  cases hc : connectCheck ctx block pindex false view with
  | error s => simp
  | ok st =>
      simp only [Bool.false_eq_true, if_false]
      cases hu : undoWriteFails ctx block pindex disk with
      | true => simp
      | false =>
          simp only [Bool.false_eq_true, if_false]
          cases ho : indexedObjs ctx block with
          | error e => simp
          | ok objs =>
              simp only [Prod.mk.injEq, Except.ok.injEq]
              constructor
              · rintro ⟨rfl, rfl⟩
                exact ⟨st, objs, rfl, trivial, rfl, rfl, rfl⟩
              · rintro ⟨st', objs', rfl, -, rfl, rfl, rfl⟩
                exact ⟨rfl, rfl⟩

@[simp] theorem market_writeUndo (st : ConnectState) :
    (writeUndo ctx block pindex st disk).market = disk.market := by
  unfold writeUndo
  split_ifs <;> rfl

@[simp] theorem market_writeTxIndex (st : ConnectState) :
    (writeTxIndex ctx pindex st disk).market = disk.market := by
  unfold writeTxIndex
  split_ifs <;> rfl

@[simp] theorem undo_writeTxIndex (st : ConnectState) :
    (writeTxIndex ctx pindex st disk).undo = disk.undo := by
  unfold writeTxIndex
  split_ifs <;> rfl

/-- **The market index changes on success only**, and then by one batch. -/
theorem connectBlock_market (ctx : Context) (block : CBlock) (pindex : CBlockIndex)
    (view : CCoinsView) (disk : Disk) :
    (∃ s, (connectBlock ctx block pindex false view disk).1 = .error s ∧
      (connectBlock ctx block pindex false view disk).2.market = disk.market) ∨
    (∃ view' objs, (connectBlock ctx block pindex false view disk).1 = .ok view' ∧
      indexedObjs ctx block = .ok objs ∧
      (connectBlock ctx block pindex false view disk).2.market =
        writeMarketIndex objs disk.market) := by
  unfold connectBlock
  cases hc : connectCheck ctx block pindex false view with
  | error s => exact Or.inl ⟨s, rfl, rfl⟩
  | ok st =>
      simp only [Bool.false_eq_true, if_false]
      split_ifs
      · exact Or.inl ⟨_, rfl, rfl⟩
      · cases ho : indexedObjs ctx block with
        | error e => exact Or.inl ⟨_, rfl, by simp⟩
        | ok objs => exact Or.inr ⟨_, objs, rfl, rfl, by simp⟩

/-! ## Chains of blocks -/

theorem connectChain_cons {blocks : List (CBlock × CBlockIndex)} {s' : CCoinsView × Disk}
    (h : connectChain ctx ((block, pindex) :: blocks) (view, disk) = .ok s') :
    ∃ view₁ disk₁, connectBlock ctx block pindex false view disk = (.ok view₁, disk₁) ∧
      connectChain ctx blocks (view₁, disk₁) = .ok s' := by
  rw [connectChain] at h
  rcases hb : connectBlock ctx block pindex false view disk with ⟨_ | view₁, disk₁⟩
  · rw [hb] at h
    cases h
  · rw [hb] at h
    exact ⟨view₁, disk₁, rfl, h⟩

theorem connectChain_singleton {view' : CCoinsView} {disk' : Disk}
    (h : connectBlock ctx block pindex false view disk = (.ok view', disk')) :
    connectChain ctx [(block, pindex)] (view, disk) = .ok (view', disk') := by
  simp only [connectChain, h]

/-! ## Blocks with a coinbase only -/

theorem length_ser_header (h : CBlockHeader) : (CBlockHeader.codec.ser h).length = 80 := by
  have h1 := h.hashPrevBlock.property
  have h2 := h.hashMerkleRoot.property
  simp [CBlockHeader.codec, Codec.iso, Codec.prod, Codec.fixed, Codec.i32, Codec.u32, Blob.codec,
    h1, h2]

/-- The block with the given coinbase on top of `pprev`. -/
def coinbaseBlock (hash : Bytes → Uint256) (pprev : Option Uint256) (cb : CTransaction) : CBlock where
  hashPrevBlock := pprev.getD Blob.null
  hashMerkleRoot := cb.getHash hash
  vtx := [cb]

/-- The index entry of the block. -/
def coinbaseIndex (hash : Bytes → Uint256) (pprev : Option Uint256) (nHeight : Int)
    (cb : CTransaction) : CBlockIndex :=
  { CBlockIndex.ofHeader (coinbaseBlock hash pprev cb).toCBlockHeader with
    phashBlock := some ((coinbaseBlock hash pprev cb).getHash hash)
    pprev := pprev
    nHeight := nHeight }

/-- The coinbase is one that `CheckBlock` lets pass. -/
structure SoundCoinbase (cb : CTransaction) : Prop where
  isCoinBase : cb.isCoinBase = true
  checked : checkTransaction cb = .ok ()
  sigOps : getLegacySigOpCount cb ≤ maxBlockSigOps
  size : (CTransaction.codec.ser cb).length ≤ 900000

theorem checkBlock_coinbase {cb : CTransaction} (hcb : SoundCoinbase cb) (prev : Option Uint256)
    (hpow : ctx.params.fSkipProofOfWorkCheck = true) (htime : 0 ≤ ctx.nAdjustedTime) :
    checkBlock ctx (coinbaseBlock ctx.hash prev cb) true true = .ok () := by
  have hheader : checkBlockHeader ctx (coinbaseBlock ctx.hash prev cb).toCBlockHeader true =
      .ok () := by
    have hpow' : checkProofOfWork ctx.params
        ((coinbaseBlock ctx.hash prev cb).toCBlockHeader.getHash ctx.hash)
        (coinbaseBlock ctx.hash prev cb).nBits = true := by
      simp [checkProofOfWork, hpow]
    have hnow : ¬ ctx.nAdjustedTime + 2 * 60 * 60 < (coinbaseBlock ctx.hash prev cb).nTime.toNat := by
      have : ((coinbaseBlock ctx.hash prev cb).nTime.toNat : Int) = 0 := rfl
      omega
    rw [checkBlockHeader, hpow', Bool.not_true, Bool.and_false, if_neg (by decide), if_neg hnow]
  have hmerkle : (coinbaseBlock ctx.hash prev cb).buildMerkleTree ctx.hash =
      (cb.getHash ctx.hash, false) := rfl
  have hlen : (CBlock.codec.ser (coinbaseBlock ctx.hash prev cb)).length =
      80 + (1 + (CTransaction.codec.ser cb).length) := by
    have hvec : ((vectorCodec CTransaction.codec).ser [cb]).length =
        1 + (CTransaction.codec.ser cb).length := by
      simp [vectorCodec, Codec.vec, Codec.writeSize, Nat.add_comm]
    show (CBlockHeader.codec.ser _ ++ (vectorCodec CTransaction.codec).ser [cb]).length = _
    rw [List.length_append, length_ser_header, hvec]
  have hsize : ¬ maxBlockSize < (CBlock.codec.ser (coinbaseBlock ctx.hash prev cb)).length := by
    have := hcb.size
    rw [hlen, maxBlockSize]
    omega
  have htxs : checkTransactions (coinbaseBlock ctx.hash prev cb).vtx = .ok () := by
    refine checkTransactions_ok.mpr ?_
    intro tx htx
    obtain rfl := List.mem_singleton.mp htx
    exact hcb.checked
  have hsig : ¬ maxBlockSigOps <
      ((coinbaseBlock ctx.hash prev cb).vtx.map getLegacySigOpCount).sum := by
    simpa [coinbaseBlock] using hcb.sigOps
  have hfirst : (coinbaseBlock ctx.hash prev cb).vtx.head?.any CTransaction.isCoinBase = true := by
    simpa [coinbaseBlock] using hcb.isCoinBase
  have hrest : (coinbaseBlock ctx.hash prev cb).vtx.tail.any CTransaction.isCoinBase = false := rfl
  have hone : ¬ maxBlockSize < (coinbaseBlock ctx.hash prev cb).vtx.length := by
    show ¬ 1000000 < 1
    omega
  have hbody : checkBlockTransactions (coinbaseBlock ctx.hash prev cb) = .ok () := by
    rw [checkBlockTransactions, if_neg (by simp [hone, hsize]; simp [coinbaseBlock]),
      hfirst, hrest, htxs]
    simp only [bind, Except.bind, if_neg hsig]
    rfl
  simp only [checkBlock, hheader, hmerkle]
  rw [hbody]
  simp [bind, Except.bind, coinbaseBlock]

/-- The view after a coinbase at height `nHeight`. -/
def coinbaseView (env : Env) (view : CCoinsView) (nHeight : Int) (cb : CTransaction) : CCoinsView :=
  view.setCoins (cb.getHash env.hash) (CCoins.fromTx cb nHeight)

/-- **A block with nothing but a sound coinbase passes**, on every view that has no
unspent coins under the id of the coinbase. -/
theorem connectCheck_coinbase (ctx : Context) (view : CCoinsView) {cb : CTransaction}
    (hcb : SoundCoinbase cb) (nHeight : Int) {pprev : Option Uint256} (hprev : pprev.getD Blob.null = view.bestBlock)
    (hpow : ctx.params.fSkipProofOfWorkCheck = true) (htime : 0 ≤ ctx.nAdjustedTime)
    (hfree : view.accessCoins (cb.getHash ctx.hash) = none) :
    ∃ st, connectCheck ctx (coinbaseBlock ctx.hash pprev cb)
        (coinbaseIndex ctx.hash pprev nHeight cb) false view = .ok st ∧
      st.view = coinbaseView ctx.toEnv view nHeight cb ∧ st.undo = [[]] ∧
      ∃ offset, st.vPos = [(cb.getHash ctx.hash, offset)] := by
  have hover : overwrites ctx.toEnv view (coinbaseBlock ctx.hash pprev cb) = false := by
    simp [overwrites, coinbaseBlock, hfree]
  have hsig : ¬ maxBlockSigOps < 0 + getLegacySigOpCount cb := by
    have := hcb.sigOps
    omega
  have hloop : ∀ offset, ∃ st, connectTxs ctx (coinbaseIndex ctx.hash pprev nHeight cb)
      { view, nTxOffset := offset } [cb] = .ok st ∧
        st.view = coinbaseView ctx.toEnv view nHeight cb ∧ st.undo = [[]] ∧
        (∃ offset, st.vPos = [(cb.getHash ctx.hash, offset)]) ∧ st.checks = [] := by
    intro offset
    refine ⟨{ view := coinbaseView ctx.toEnv view nHeight cb
              nSigOps := 0 + getLegacySigOpCount cb
              undo := [[]]
              nTxOffset := offset + UInt32.ofNat (CTransaction.codec.ser cb).length
              vPos := [(cb.getHash ctx.hash, offset)] }, ?_, rfl, rfl, ⟨offset, rfl⟩, rfl⟩
    simp only [connectTxs, connectTx, hsig, if_false, connectInputs, hcb.isCoinBase, if_true, bind,
      Except.bind, connectOutputs, updateCoins, spendInputs, Except.map, coinbaseIndex]
    rfl
  obtain ⟨st, htxs, hview, hundo, hpos, hchecks⟩ :=
    hloop (UInt32.ofNat (Codec.writeSize (UInt64.ofNat 1)).length)
  refine ⟨st, ?_, hview, hundo, hpos⟩
  have hpindex : (coinbaseIndex ctx.hash pprev nHeight cb).pprev.getD Blob.null =
      view.bestBlock := hprev
  have hvtx : (coinbaseBlock ctx.hash pprev cb).vtx = [cb] := rfl
  rw [connectCheck, Bool.not_false, checkBlock_coinbase hcb _ hpow htime, hover, Bool.and_false]
  simp only [bind, Except.bind, hpindex, ne_eq, not_true, if_false, Bool.false_eq_true, hvtx,
    List.length_singleton, htxs, hchecks, waitChecks]

/-- The undo data on disk are those of blocks with a coinbase only. -/
def OnlyEmptyUndo (disk : Disk) : Prop := ∀ h u, disk.undo.find h = some u → u = []

/-- Connecting such a block, when the market index phase gets through. -/
theorem connectBlock_coinbase (ctx : Context) (view : CCoinsView) (disk : Disk)
    {cb : CTransaction} (hcb : SoundCoinbase cb) (nHeight : Int)
    {objs : List (Uint256 × AnyMarketObj)} {pprev : Option Uint256}
    (hprev : pprev.getD Blob.null = view.bestBlock)
    (hpow : ctx.params.fSkipProofOfWorkCheck = true) (htime : 0 ≤ ctx.nAdjustedTime)
    (hundo : ctx.undoWriteOk = true) (hfree : view.accessCoins (cb.getHash ctx.hash) = none)
    (hobjs : indexedObjs ctx (coinbaseBlock ctx.hash pprev cb) = .ok objs) :
    ∃ disk', connectBlock ctx (coinbaseBlock ctx.hash pprev cb)
        (coinbaseIndex ctx.hash pprev nHeight cb) false view disk =
          (.ok ((coinbaseView ctx.toEnv view nHeight cb).setBestBlock
            (coinbaseIndex ctx.hash pprev nHeight cb).getBlockHash), disk') ∧
      disk'.market = writeMarketIndex objs disk.market ∧
      (OnlyEmptyUndo disk → OnlyEmptyUndo disk' ∧
        ((coinbaseBlock ctx.hash pprev cb).getHash ctx.hash ≠ ctx.params.hashGenesisBlock →
          disk'.undo.find ((coinbaseBlock ctx.hash pprev cb).getHash ctx.hash) = some [])) := by
  obtain ⟨st, hcheck, hview, hempty, -⟩ :=
    connectCheck_coinbase ctx view hcb nHeight hprev hpow htime hfree
  have hfails : undoWriteFails ctx (coinbaseBlock ctx.hash pprev cb)
      (coinbaseIndex ctx.hash pprev nHeight cb) disk = false := by
    simp [undoWriteFails, hundo]
  refine ⟨_, connectBlock_ok_iff.mpr ⟨st, objs, hcheck, hfails, hobjs, by rw [hview], rfl⟩,
    by simp, fun honly => ?_⟩
  have hhash : (coinbaseIndex ctx.hash pprev nHeight cb).getBlockHash =
      (coinbaseBlock ctx.hash pprev cb).getHash ctx.hash := rfl
  simp only [OnlyEmptyUndo, undo_writeTxIndex, writeUndo, hhash]
  split_ifs with hgenesis hsome
  · exact ⟨honly, fun h => absurd hgenesis h⟩
  · obtain ⟨u, hu⟩ := Option.isSome_iff_exists.mp hsome
    exact ⟨honly, fun _ => by rw [hu, honly _ u hu]⟩
  · simp only [hempty, List.tail_cons, OrdMap.find_put_self, implies_true, and_true]
    intro h u hu
    rw [OrdMap.find_put] at hu
    split_ifs at hu with heq
    · exact (Option.some.inj hu).symm
    · exact honly h u hu

/-! ## Chains of two such blocks -/

/-- A coinbase with the given outputs; `n` tells it from others. -/
def coinbaseTx (n : UInt8) (vout : List CTxOut) : CTransaction where
  vin := [{ prevout := COutPoint.null, scriptSig := [1, n] }]
  vout := vout

/-- The node with both indexes on, on the main network. -/
def exampleContext (env : Env) : Context where
  toEnv := env
  params := mainParams Blob.null
  nAdjustedTime := 0
  fCheckpointsEnabled := false
  scriptCheckThreads := false
  fTxIndex := true
  fMarketIndex := true
  undoWriteOk := true

/-- A hash function under which the records of the examples have different ids. -/
def exampleHash (bs : Bytes) : Uint256 :=
  ⟨leBytes 32 (bs.foldl (fun h b => h * 257 + b.toNat) 0), length_leBytes ..⟩

/-- An environment with that hash, in which no signature is valid. -/
def exampleEnv : Env where
  hash := exampleHash
  crypto := ⟨id, id, id, id, id, fun _ => false⟩
  checker _ _ _ _ _ := false

/-- The view after the first block of a chain. -/
def firstView (env : Env) (cb₀ : CTransaction) : CCoinsView :=
  (coinbaseView env {} 0 cb₀).setBestBlock (coinbaseIndex env.hash none 0 cb₀).getBlockHash

/-- The block with the given coinbase on top of that one. -/
def secondBlock (env : Env) (cb₀ cb : CTransaction) : CBlock :=
  coinbaseBlock env.hash (some (firstView env cb₀).bestBlock) cb

/-- The index entry of the second block. -/
def secondIndex (env : Env) (cb₀ cb : CTransaction) : CBlockIndex :=
  coinbaseIndex env.hash (some (firstView env cb₀).bestBlock) 1 cb

/-- The view after the second block. -/
def secondView (env : Env) (cb₀ cb : CTransaction) : CCoinsView :=
  (coinbaseView env (firstView env cb₀) 1 cb).setBestBlock (secondIndex env cb₀ cb).getBlockHash

theorem accessCoins_firstView {env : Env} {cb₀ cb : CTransaction}
    (hne : cb.getHash env.hash ≠ cb₀.getHash env.hash) :
    (firstView env cb₀).accessCoins (cb.getHash env.hash) = none := by
  show (coinbaseView env {} 0 cb₀).accessCoins (cb.getHash env.hash) = none
  rw [coinbaseView, CCoinsView.accessCoins_setCoins_of_ne _ hne]
  rfl

/-- **A chain of two blocks** with nothing but their coinbases. -/
theorem connectBlock_second {env : Env} {cb₀ cb : CTransaction} (hcb₀ : SoundCoinbase cb₀)
    (hcb : SoundCoinbase cb) (hne : cb.getHash env.hash ≠ cb₀.getHash env.hash)
    {objs₀ objs : List (Uint256 × AnyMarketObj)}
    (hobjs₀ : blockObjs env [cb₀] = .ok objs₀) (hobjs : blockObjs env [cb] = .ok objs) :
    ∃ disk₀ disk₁, connectBlock (exampleContext env) (coinbaseBlock env.hash none cb₀)
        (coinbaseIndex env.hash none 0 cb₀) false {} {} = (.ok (firstView env cb₀), disk₀) ∧
      disk₀.market = writeMarketIndex objs₀ OrdMap.empty ∧
      connectBlock (exampleContext env) (secondBlock env cb₀ cb) (secondIndex env cb₀ cb) false
        (firstView env cb₀) disk₀ = (.ok (secondView env cb₀ cb), disk₁) ∧
      disk₁.market = writeMarketIndex objs disk₀.market ∧
      ((secondBlock env cb₀ cb).getHash env.hash ≠ Blob.null →
        disk₁.undo.find ((secondBlock env cb₀ cb).getHash env.hash) = some []) := by
  have hindexed₀ : indexedObjs (exampleContext env) (coinbaseBlock env.hash none cb₀) = .ok objs₀ :=
    hobjs₀
  have hindexed : indexedObjs (exampleContext env) (secondBlock env cb₀ cb) = .ok objs := hobjs
  have hprev : (some (firstView env cb₀).bestBlock).getD Blob.null = (firstView env cb₀).bestBlock :=
    rfl
  obtain ⟨disk₀, hfirst, hmarket₀, hundo₀⟩ := connectBlock_coinbase (exampleContext env) {} {} hcb₀ 0
    rfl rfl (le_refl _) rfl rfl hindexed₀
  obtain ⟨disk₁, hsecond, hmarket₁, hundo₁⟩ := connectBlock_coinbase (exampleContext env)
    (firstView env cb₀) disk₀ hcb 1 hprev rfl (le_refl _) rfl (accessCoins_firstView hne) hindexed
  refine ⟨disk₀, disk₁, hfirst, hmarket₀, hsecond, hmarket₁, ?_⟩
  have honly : OnlyEmptyUndo {} := by
    intro h u hu
    cases hu
  exact (hundo₁ (hundo₀ honly).1).2

end Hivemind
