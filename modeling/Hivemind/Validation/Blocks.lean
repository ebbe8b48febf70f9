import Hivemind.Chain.BlockIndex
import Hivemind.TxDb.MarketTree
import Hivemind.Validation.Transactions

/-!
# Validating and connecting blocks

`CheckBlock` and `ConnectBlock` of `main.cpp`.  `ConnectBlock` first checks and applies the
transactions to a view, and nothing outside the view changes until it is done with that.  Then it
writes: the undo data, the transaction index, the market index.  The function returns what is on
disk afterwards together with its result, so that a stop half way leaves the earlier writes in
place.

The tests of `nFees` against the coinbase stand in a disabled block of the source and are not
part of the function.  Reading the market objects of a block may raise an exception, which comes
after the undo data and the transaction index have been written.

Script checks are run at once, or collected for the threads of the check queue; which of the two
is a setting of the node, and so are the indexes that it keeps.

* `checkBlock`: the checks without context, with the merkle root and the proof of work.
* `connectTx`, `connectCheck`: the loop over the transactions, and all that is checked.
* `connectBlock`: the function, with its writes.
* `connectChain`: one block after another, on the views and disks they leave.
-/

namespace Hivemind

open Codecs Ordered

/-- What a run of the node fixes, besides `Env`. -/
structure Context extends Env where
  params : CChainParams
  /-- `GetAdjustedTime()`. -/
  nAdjustedTime : Int
  /-- `Checkpoints::fEnabled`. -/
  fCheckpointsEnabled : Bool
  /-- `nScriptCheckThreads` is not 0. -/
  scriptCheckThreads : Bool
  fTxIndex : Bool
  fMarketIndex : Bool
  /-- `FindUndoPos` and `UndoWriteToDisk` succeed. -/
  undoWriteOk : Bool

/-! ## `CheckBlock` -/

/-- `CheckBlockHeader`. -/
def checkBlockHeader (ctx : Context) (block : CBlockHeader) (fCheckPOW : Bool) : Except Stop Unit :=
  if fCheckPOW && !checkProofOfWork ctx.params (block.getHash ctx.hash) block.nBits then
    dos 50 .highHash
  else if ctx.nAdjustedTime + 2 * 60 * 60 < block.nTime.toNat then invalid .timeTooNew
  else .ok ()

/-- `CheckTransaction` on each transaction of a block. -/
def checkTransactions : List CTransaction → Except Stop Unit
  | [] => .ok ()
  | tx :: vtx => do
    checkTransaction tx
    checkTransactions vtx

/-- The part of `CheckBlock` after the merkle root. -/
def checkBlockTransactions (block : CBlock) : Except Stop Unit :=
  if block.vtx.isEmpty || maxBlockSize < block.vtx.length ||
      maxBlockSize < (CBlock.codec.ser block).length then dos 100 .badBlkLength
  else if !block.vtx.head?.any CTransaction.isCoinBase then dos 100 .badCbMissing
  else if block.vtx.tail.any CTransaction.isCoinBase then dos 100 .badCbMultiple
  else do
    checkTransactions block.vtx
    if maxBlockSigOps < (block.vtx.map getLegacySigOpCount).sum then
      .error (.reject 100 .badBlkSigOps true)
    else .ok ()

/-- `CheckBlock`. -/
def checkBlock (ctx : Context) (block : CBlock) (fCheckPOW fCheckMerkleRoot : Bool) :
    Except Stop Unit := do
  checkBlockHeader ctx block.toCBlockHeader fCheckPOW
  let (hashMerkleRoot2, mutated) := block.buildMerkleTree ctx.hash
  if fCheckMerkleRoot && block.hashMerkleRoot != hashMerkleRoot2 then
    .error (.reject 100 .badTxnMrklRoot true)
  else if fCheckMerkleRoot && mutated then .error (.reject 100 .badTxnsDuplicate true)
  else checkBlockTransactions block

/-! ## The transactions of a block -/

/-- The blocks that are allowed to overwrite transactions: height and hash. -/
def bip30Exceptions : List (Int × Uint256) :=
  [(91842, Blob.ofBytes [0xec, 0xca, 0xe0, 0x00, 0xe3, 0xc8, 0xe4, 0xe0, 0x93, 0x93, 0x63, 0x60,
      0x43, 0x1f, 0x3b, 0x76, 0x03, 0xc5, 0x63, 0xc1, 0xff, 0x61, 0x81, 0x39, 0x0a, 0x4d, 0x0a,
      0x00, 0x00, 0x00, 0x00, 0x00]),
   (91880, Blob.ofBytes [0x21, 0xd7, 0x7c, 0xcb, 0x4c, 0x08, 0x38, 0x6a, 0x04, 0xac, 0x01, 0x96,
      0xae, 0x10, 0xf6, 0xa1, 0xd2, 0xc2, 0xa3, 0x77, 0x55, 0x8c, 0xa1, 0x90, 0xf1, 0x43, 0x07,
      0x00, 0x00, 0x00, 0x00, 0x00])]

/-- `fEnforceBIP30`. -/
def enforceBIP30 (pindex : CBlockIndex) : Bool :=
  match pindex.phashBlock with
  | none => true
  | some hash => !bip30Exceptions.contains (pindex.nHeight, hash)

/-- Some transaction of the block overwrites one that is not completely spent. -/
def overwrites (env : Env) (view : CCoinsView) (block : CBlock) : Bool :=
  block.vtx.any fun tx => match view.accessCoins (tx.getHash env.hash) with
    | none => false
    | some coins => !coins.isPruned

/-- `CCoinsViewCache::GetValueIn`, of a transaction that is not a coinbase. -/
def getValueIn (view : CCoinsView) (tx : CTransaction) : Except Stop CAmount :=
  tx.vin.foldlM
    (fun nResult txin => match view.getOutputFor txin.prevout with
      | none => .error .asserted
      | some txout => .ok (nResult + txout.nValue))
    0

/-- How `ConnectBlock` checks scripts. -/
structure ScriptPolicy where
  fScriptChecks : Bool
  fStrictPayToScriptHash : Bool

/-- The policy for a block. -/
def scriptPolicy (ctx : Context) (pindex : CBlockIndex) : ScriptPolicy where
  fScriptChecks := ctx.params.getTotalBlocksEstimate ctx.fCheckpointsEnabled ≤ pindex.nHeight
  fStrictPayToScriptHash := 1333238400 ≤ pindex.nTime.toNat

def ScriptPolicy.flags (p : ScriptPolicy) : ScriptFlags :=
  if p.fStrictPayToScriptHash then scriptVerifyP2SH else 0

/-- The local variables of the loop over the transactions. -/
structure ConnectState where
  view : CCoinsView
  nFees : CAmount := 0
  nSigOps : Nat := 0
  /-- `blockundo.vtxundo`, with the `undoDummy` of the first transaction. -/
  undo : List CTxUndo := []
  /-- What has been handed to `control`. -/
  checks : List CScriptCheck := []
  nTxOffset : UInt32
  vPos : List (Uint256 × UInt32) := []

/-- The signature operations of the inputs, which count since BIP16. -/
def inputSigOpCount (policy : ScriptPolicy) (tx : CTransaction) (view : CCoinsView) :
    Except Stop Nat :=
  if policy.fStrictPayToScriptHash then getP2SHSigOpCount tx view else .ok 0

/-- What the loop does before it updates the coins: nothing for a coinbase. -/
def connectInputs (ctx : Context) (pindex : CBlockIndex) (st : ConnectState) (tx : CTransaction) :
    Except Stop ConnectState :=
  let policy := scriptPolicy ctx pindex
  if tx.isCoinBase then .ok st
  else if !st.view.haveInputs tx then dos 100 .inputsMissingOrSpent
  else do
    let n ← inputSigOpCount policy tx st.view
    if maxBlockSigOps < st.nSigOps + n then dos 100 .badBlkSigOps
    else
      let nValueIn ← getValueIn st.view tx
      let nValueOut ← raising tx.getValueOut
      let vChecks ← checkInputs ctx.toEnv tx st.view pindex.nHeight policy.fScriptChecks
        policy.flags ctx.scriptCheckThreads
      .ok { st with
        nSigOps := st.nSigOps + n
        nFees := st.nFees + (nValueIn - nValueOut)
        checks := st.checks ++ vChecks }

/-- The tail of the loop: `UpdateCoins` and the position of the transaction. -/
def connectOutputs (ctx : Context) (pindex : CBlockIndex) (st : ConnectState) (tx : CTransaction) :
    Except Stop ConnectState := do
  let (view, txundo) ← updateCoins ctx.toEnv tx st.view pindex.nHeight
  .ok { st with
    view
    undo := st.undo ++ [txundo]
    vPos := st.vPos ++ [(tx.getHash ctx.hash, st.nTxOffset)]
    nTxOffset := st.nTxOffset + UInt32.ofNat (CTransaction.codec.ser tx).length }

/-- The body of the loop over the transactions. -/
def connectTx (ctx : Context) (pindex : CBlockIndex) (st : ConnectState) (tx : CTransaction) :
    Except Stop ConnectState :=
  let st := { st with nSigOps := st.nSigOps + getLegacySigOpCount tx }
  if maxBlockSigOps < st.nSigOps then dos 100 .badBlkSigOps
  else do
    let st ← connectInputs ctx pindex st tx
    connectOutputs ctx pindex st tx

/-- The loop over the transactions. -/
def connectTxs (ctx : Context) (pindex : CBlockIndex) : ConnectState → List CTransaction →
    Except Stop ConnectState
  | st, [] => .ok st
  | st, tx :: vtx => do
    let st ← connectTx ctx pindex st tx
    connectTxs ctx pindex st vtx

/-- `control.Wait()`: all the checks that were handed over succeed. -/
def waitChecks (env : Env) : List CScriptCheck → Except Stop Unit
  | [] => .ok ()
  | check :: checks => do
    match ← check.run env with
    | none => waitChecks env checks
    | some _ => dos 100 .scriptCheckQueue

/-- `ConnectBlock` up to the point where `fJustCheck` returns: everything it checks. -/
def connectCheck (ctx : Context) (block : CBlock) (pindex : CBlockIndex) (fJustCheck : Bool)
    (view : CCoinsView) : Except Stop ConnectState := do
  checkBlock ctx block (!fJustCheck) (!fJustCheck)
  if pindex.pprev.getD Blob.null ≠ view.bestBlock then .error .asserted
  else if enforceBIP30 pindex && overwrites ctx.toEnv view block then dos 100 .badTxnsBIP30
  else
    let offset := (Codec.writeSize (UInt64.ofNat block.vtx.length)).length
    let st ← connectTxs ctx pindex { view, nTxOffset := UInt32.ofNat offset } block.vtx
    waitChecks ctx.toEnv st.checks
    .ok st

/-! ## What `ConnectBlock` writes -/

/-- `CBlockUndo`. -/
abbrev CBlockUndo := List CTxUndo

/-- The databases and files that `ConnectBlock` writes to.  The undo data of a block
is found under its hash, and is there when the index entry has `BLOCK_HAVE_UNDO`. -/
structure Disk where
  undo : OrdMap Uint256 CBlockUndo := OrdMap.empty
  txIndex : OrdMap Uint256 CDiskTxPos := OrdMap.empty
  market : LevelDB := OrdMap.empty

/-- The undo data, for anything other than the genesis block and unless it is there. -/
def writeUndo (ctx : Context) (block : CBlock) (pindex : CBlockIndex) (st : ConnectState)
    (disk : Disk) : Disk :=
  if block.getHash ctx.hash = ctx.params.hashGenesisBlock then disk
  else if (disk.undo.find pindex.getBlockHash).isSome then disk
  else { disk with undo := disk.undo.put pindex.getBlockHash st.undo.tail }

/-- The undo data has to be written and cannot be. -/
def undoWriteFails (ctx : Context) (block : CBlock) (pindex : CBlockIndex) (disk : Disk) : Bool :=
  block.getHash ctx.hash != ctx.params.hashGenesisBlock &&
    (disk.undo.find pindex.getBlockHash).isNone && !ctx.undoWriteOk

/-- `WriteTxIndex`. -/
def writeTxIndex (ctx : Context) (pindex : CBlockIndex) (st : ConnectState) (disk : Disk) : Disk :=
  if ctx.fTxIndex then
    { disk with
      txIndex := disk.txIndex.putAll (st.vPos.map fun p =>
        (p.1, { pindex.getBlockPos with nTxOffset := p.2 })) }
  else disk

/-- The market objects in the outputs of the transaction `txid`, with their ids. -/
def outputObjs (env : Env) (txid : Uint256) : List CTxOut →
    Except ReadError (List (Uint256 × AnyMarketObj))
  | [] => .ok []
  | txout :: vout =>
    let script := txout.scriptPubKey
    if script.length < 2 ∨ script.getLast? ≠ some opMarket then outputObjs env txid vout
    else match marketObjCtr script with
      | .error e => .error e
      | .ok none => outputObjs env txid vout
      | .ok (some ⟨op, o⟩) =>
        (outputObjs env txid vout).map
          (((o.getHash env.hash, ⟨op, { o with txid }⟩) : Uint256 × AnyMarketObj) :: ·)

/-- `vMarketObj`: all market objects in the block. -/
def blockObjs (env : Env) : List CTransaction → Except ReadError (List (Uint256 × AnyMarketObj))
  | [] => .ok []
  | tx :: vtx => do
    let objs ← outputObjs env (tx.getHash env.hash) tx.vout
    let rest ← blockObjs env vtx
    .ok (objs ++ rest)

/-- The objects that the market index phase writes. -/
def indexedObjs (ctx : Context) (block : CBlock) : Except ReadError (List (Uint256 × AnyMarketObj)) :=
  if ctx.fMarketIndex then blockObjs ctx.toEnv block.vtx else .ok []

/-- `ConnectBlock`: the view it leaves, and what is on disk when it stops. -/
def connectBlock (ctx : Context) (block : CBlock) (pindex : CBlockIndex) (fJustCheck : Bool)
    (view : CCoinsView) (disk : Disk) : Except Stop CCoinsView × Disk :=
  match connectCheck ctx block pindex fJustCheck view with
  | .error s => (.error s, disk)
  | .ok st =>
    if fJustCheck then (.ok st.view, disk)
    else if undoWriteFails ctx block pindex disk then (.error .failed, disk)
    else
      let disk := writeTxIndex ctx pindex st (writeUndo ctx block pindex st disk)
      match indexedObjs ctx block with
      | .error e => (.error (.raised (.stream e)), disk)
      | .ok vMarketObj =>
        (.ok (st.view.setBestBlock pindex.getBlockHash),
          { disk with market := writeMarketIndex vMarketObj disk.market })

/-- `ConnectBlock` on one block after another, on the views and disks they leave. -/
def connectChain (ctx : Context) : List (CBlock × CBlockIndex) → CCoinsView × Disk →
    Except Stop (CCoinsView × Disk)
  | [], s => .ok s
  | (block, pindex) :: blocks, (view, disk) =>
    match connectBlock ctx block pindex false view disk with
    | (.error stop, _) => .error stop
    | (.ok view', disk') => connectChain ctx blocks (view', disk')

end Hivemind
