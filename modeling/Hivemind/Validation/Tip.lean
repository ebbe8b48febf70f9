import Hivemind.Validation.Blocks

/-!
# Moving the tip of the active chain

`DisconnectBlock`, `ConnectTip` and `DisconnectTip` of `main.cpp`.  A node is its active chain,
its coins and its disk; a step that does not succeed leaves the chain and the coins as they were,
because the functions work on a view of their own and flush it at the end.

`DisconnectBlock` takes the transactions of a block back, the last one first, and goes on where
the coins are not what they should be; the flag `fClean` remembers that, and `DisconnectTip` asks
for it.  The market index is not touched on the way back.

Disk failures other than those of the undo file, the memory pool and the wallet signals are left
out.

* `removeOutputs`, `restoreInput`: taking back the outputs and the inputs of a transaction.
* `disconnectBlock`: the view it leaves and `fClean`.
* `Node`: the active chain, the coins and what is on disk.
* `connectTip`, `disconnectTip`: the two moves of the tip.
-/

namespace Hivemind

open Codecs Ordered

/-! ## `DisconnectBlock` -/

/-- `CCoins::operator==`: all pruned values are equal. -/
def CCoins.same (a b : CCoins) : Bool := (a.isPruned && b.isPruned) || a == b

/-- Take back the outputs of a transaction.  The flag says whether they were those
of the block. -/
def removeOutputs (env : Env) (nHeight : Int) (tx : CTransaction) (view : CCoinsView) :
    CCoinsView × Bool :=
  let txid := tx.getHash env.hash
  let outs := (view.getCoins txid).clearUnspendable
  let outsBlock := CCoins.fromTx tx nHeight
  let outs := if outsBlock.nVersion < 0 then { outs with nVersion := outsBlock.nVersion } else outs
  (view.setCoins txid {}, outs.same outsBlock)

/-- Put back the output that an input spent.  The flag says whether it was missing. -/
def restoreInput (out : COutPoint) (undo : CTxInUndo) (view : CCoinsView) : CCoinsView × Bool :=
  let coins := view.getCoins out.hash
  let fClean := if undo.nHeight ≠ 0 then coins.isPruned else !coins.isPruned
  let coins := if undo.nHeight ≠ 0 then
      { fCoinBase := undo.fCoinBase, nHeight := undo.nHeight, nVersion := undo.nVersion }
    else coins
  let fClean := fClean && !coins.isAvailable out.n
  let n := out.n.toNat
  let vout := coins.vout ++ List.replicate (n + 1 - coins.vout.length) CTxOut.null
  (view.setCoins out.hash { coins with vout := vout.set n undo.txout }, fClean)

/-- Put back the outputs that the inputs spent, the last one first. -/
def restoreInputs : List (CTxIn × CTxInUndo) → CCoinsView × Bool → CCoinsView × Bool
  | [], s => s
  | (txin, undo) :: ins, s =>
    let (view, fClean) := restoreInputs ins s
    let (view, ok) := restoreInput txin.prevout undo view
    (view, fClean && ok)

/-- Undo one transaction that is not the coinbase. -/
def disconnectTx (env : Env) (nHeight : Int) (tx : CTransaction) (txundo : CTxUndo)
    (s : CCoinsView × Bool) : Except Stop (CCoinsView × Bool) :=
  let (view, ok) := removeOutputs env nHeight tx s.1
  if txundo.length ≠ tx.vin.length then .error .failed
  else .ok (restoreInputs (tx.vin.zip txundo) (view, s.2 && ok))

/-- Undo the transactions after the coinbase, in reverse order. -/
def disconnectTxs (env : Env) (nHeight : Int) : List (CTransaction × CTxUndo) →
    CCoinsView × Bool → Except Stop (CCoinsView × Bool)
  | [], s => .ok s
  | (tx, txundo) :: txs, s => do
    let s ← disconnectTxs env nHeight txs s
    disconnectTx env nHeight tx txundo s

/-- `DisconnectBlock`: the view it leaves and `fClean`. -/
def disconnectBlock (ctx : Context) (block : CBlock) (pindex : CBlockIndex) (view : CCoinsView)
    (disk : Disk) : Except Stop (CCoinsView × Bool) :=
  if pindex.getBlockHash ≠ view.bestBlock then .error .asserted
  else match disk.undo.find pindex.getBlockHash with
    | none => .error .failed
    | some blockUndo => match block.vtx with
      | [] => .error .failed
      | cb :: vtx =>
        if blockUndo.length ≠ vtx.length then .error .failed
        else do
          let (view, fClean) ← disconnectTxs ctx.toEnv pindex.nHeight (vtx.zip blockUndo) (view, true)
          let (view, ok) := removeOutputs ctx.toEnv pindex.nHeight cb view
          .ok (view.setBestBlock (pindex.pprev.getD Blob.null), fClean && ok)

/-! ## The node -/

/-- The active chain (the tip first), the coins and what is on disk. -/
structure Node where
  chain : List (CBlock × CBlockIndex) := []
  coins : CCoinsView := {}
  disk : Disk := {}

/-- The entry of the tip, if there is one. -/
def Node.tip (node : Node) : Option Uint256 := node.chain.head?.map fun b => b.2.getBlockHash

/-- `ConnectTip`. -/
def connectTip (ctx : Context) (block : CBlock) (pindex : CBlockIndex) (node : Node) :
    Except Stop Unit × Node :=
  if pindex.pprev ≠ node.tip then (.error .asserted, node)
  else match connectBlock ctx block pindex false node.coins node.disk with
    | (.error s, disk) => (.error s, { node with disk })
    | (.ok view, disk) => (.ok (), ⟨(block, pindex) :: node.chain, view, disk⟩)

/-- `DisconnectTip`. -/
def disconnectTip (ctx : Context) (node : Node) : Except Stop Unit × Node :=
  match node.chain with
  | [] => (.error .asserted, node)
  | (block, pindex) :: chain =>
    match disconnectBlock ctx block pindex node.coins node.disk with
    | .error s => (.error s, node)
    | .ok (view, fClean) =>
      if fClean then (.ok (), { node with chain, coins := view }) else (.error .failed, node)

end Hivemind
