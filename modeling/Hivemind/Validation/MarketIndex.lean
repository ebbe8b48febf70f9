import Hivemind.TxDb.Listings
import Hivemind.Validation.BlocksSpec
import Hivemind.Validation.Tip

/-!
# The market index along a run

`ConnectBlock` writes the market objects of a block to the index in one batch, and nothing takes
a batch back: `DisconnectBlock` does not touch the market index.  So the index is a record of
every block that was ever connected, the last writer of an object winning.

A run is any sequence of `ConnectTip` and `DisconnectTip`, with the blocks that it connects as
they come, whether or not they are disconnected later.  Its batches are a run of the market
database, so all that was said of the readers of such a run holds of the index; what the active
chain carries is another list of objects, and the two agree as long as every object of a block
that was disconnected is in a block of the chain.

* `readFrom_of_carried`: where the objects of a block come from.
* `runTip_market`: the index after any run of `ConnectTip` and `DisconnectTip`.
* `market_index_of_connected`: **what can be read from it**, and when that is what the active
  chain carries.
* `disconnected_branch_stays`: a reorganisation after which it is not.
-/

namespace Hivemind

open Codecs Ordered Outcomes

/-! ## The objects of a block -/

/-- The objects that connecting the block writes; nothing is written when one of its
scripts cannot be read. -/
def carriedObjs (ctx : Context) (block : CBlock) : List (Uint256 × AnyMarketObj) :=
  match indexedObjs ctx block with
  | .error _ => []
  | .ok objs => objs

theorem carriedObjs_of_ok {ctx : Context} {block : CBlock} {objs : List (Uint256 × AnyMarketObj)}
    (h : indexedObjs ctx block = .ok objs) : carriedObjs ctx block = objs := by
  rw [carriedObjs, h]

/-- The object was read from an output of one of the transactions, and has the id of
its record and the id of that transaction. -/
def ReadFrom (env : Env) (vtx : List CTransaction) (w : Uint256 × AnyMarketObj) : Prop :=
  ∃ tx ∈ vtx, ∃ txout ∈ tx.vout, ∃ op, ∃ o : MarketObj op,
    marketObjCtr txout.scriptPubKey = .ok (some ⟨op, o⟩) ∧
      w = (o.getHash env.hash, ⟨op, { o with txid := tx.getHash env.hash }⟩)

theorem mem_outputObjs {env : Env} {txid : Uint256} {vout : List CTxOut}
    {objs : List (Uint256 × AnyMarketObj)} (h : outputObjs env txid vout = .ok objs)
    {w : Uint256 × AnyMarketObj} (hw : w ∈ objs) :
    ∃ txout ∈ vout, ∃ op, ∃ o : MarketObj op,
      marketObjCtr txout.scriptPubKey = .ok (some ⟨op, o⟩) ∧
        w = (o.getHash env.hash, ⟨op, { o with txid }⟩) := by
  induction vout generalizing objs with
  | nil =>
      obtain rfl := Except.ok.inj h
      simp at hw
  | cons txout vout ih =>
      have hrest : ∀ {objs}, outputObjs env txid vout = .ok objs → w ∈ objs →
          ∃ txout' ∈ txout :: vout, ∃ op, ∃ o : MarketObj op,
            marketObjCtr txout'.scriptPubKey = .ok (some ⟨op, o⟩) ∧
              w = (o.getHash env.hash, ⟨op, { o with txid }⟩) := by
        intro objs h hw
        obtain ⟨txout', hmem, h'⟩ := ih h hw
        exact ⟨txout', List.mem_cons_of_mem _ hmem, h'⟩
      simp only [outputObjs] at h
      split_ifs at h
      · exact hrest h hw
      · cases hctr : marketObjCtr txout.scriptPubKey with
        | error e =>
            rw [hctr] at h
            cases h
        | ok r =>
            cases r with
            | none =>
                rw [hctr] at h
                exact hrest h hw
            | some q =>
                obtain ⟨op, o⟩ := q
                rw [hctr] at h
                obtain ⟨objs', hobjs', rfl⟩ := map_eq_ok.mp h
                rcases List.mem_cons.mp hw with rfl | hw
                · exact ⟨txout, List.mem_cons_self .., op, o, hctr, rfl⟩
                · exact hrest hobjs' hw

theorem mem_blockObjs {env : Env} {vtx : List CTransaction} {objs : List (Uint256 × AnyMarketObj)}
    (h : blockObjs env vtx = .ok objs) {w : Uint256 × AnyMarketObj} (hw : w ∈ objs) :
    ReadFrom env vtx w := by
  induction vtx generalizing objs with
  | nil =>
      obtain rfl := Except.ok.inj h
      simp at hw
  | cons tx vtx ih =>
      simp only [blockObjs, bind_eq_ok] at h
      obtain ⟨objs₁, h₁, objs₂, h₂, hobjs⟩ := h
      obtain rfl := Except.ok.inj hobjs
      rcases List.mem_append.mp hw with hw | hw
      · exact ⟨tx, List.mem_cons_self .., mem_outputObjs h₁ hw⟩
      · obtain ⟨tx', htx', h'⟩ := ih h₂ hw
        exact ⟨tx', List.mem_cons_of_mem _ htx', h'⟩

/-- **Where the objects of a block come from.** -/
theorem readFrom_of_carried {ctx : Context} {block : CBlock} {w : Uint256 × AnyMarketObj}
    (hw : w ∈ carriedObjs ctx block) : ReadFrom ctx.toEnv block.vtx w := by
  unfold carriedObjs at hw
  cases hobjs : indexedObjs ctx block with
  | error e =>
      rw [hobjs] at hw
      simp at hw
  | ok objs =>
      rw [hobjs] at hw
      unfold indexedObjs at hobjs
      split_ifs at hobjs
      · exact mem_blockObjs hobjs hw
      · obtain rfl := Except.ok.inj hobjs
        simp at hw

theorem ReadFrom.sizesOk {env : Env} {vtx : List CTransaction} {w : Uint256 × AnyMarketObj}
    (h : ReadFrom env vtx w) : w.2.1.SizesOk w.2.2.data := by
  obtain ⟨tx, -, txout, -, op, o, hctr, rfl⟩ := h
  obtain ⟨data, r, -, hun⟩ := marketObjCtr_eq_some.mp hctr
  exact (MarketObj.sizesOk_of_unserialize hun : op.SizesOk o.data)

/-- An object that was read from a script comes back from the index as it is. -/
theorem ReadFrom.persisted {env : Env} {vtx : List CTransaction} {w : Uint256 × AnyMarketObj}
    (h : ReadFrom env vtx w) : w.2.2.persisted = w.2.2 := by
  obtain ⟨tx, -, txout, -, op, o, hctr, rfl⟩ := h
  obtain ⟨data, r, -, hun⟩ := marketObjCtr_eq_some.mp hctr
  exact persisted_of_unserialize hun _

/-- The lookup of an object that was read from a script and has just been written. -/
theorem getObj_of_marketObjCtr {script : CScript} {op : MarketOp} {o : MarketObj op}
    (hctr : marketObjCtr script = .ok (some ⟨op, o⟩)) (txid objid : Uint256) (db : LevelDB) :
    getObj op objid (writeMarketIndex [(objid, ⟨op, { o with txid }⟩)] db) =
      some { o with txid } := by
  obtain ⟨data, r, -, hun⟩ := marketObjCtr_eq_some.mp hctr
  have hsizes : op.SizesOk o.data := MarketObj.sizesOk_of_unserialize hun
  have hread := readValue_objValue (show op.SizesOk ({ o with txid } : MarketObj op).data from hsizes)
  rw [getObj_writeMarketIndex, hread, persisted_of_unserialize hun]
  rfl

theorem allSizesOk_carried (ctx : Context) (blocks : List CBlock) :
    AllSizesOk (blocks.flatMap (carriedObjs ctx)) := by
  intro w hw
  obtain ⟨block, -, hw⟩ := List.mem_flatMap.mp hw
  exact (readFrom_of_carried hw).sizesOk

theorem AllSizesOk.append {ws ws' : List (Uint256 × AnyMarketObj)} (h : AllSizesOk ws)
    (h' : AllSizesOk ws') : AllSizesOk (ws ++ ws') := by
  intro w hw
  rcases List.mem_append.mp hw with hw | hw
  · exact h w hw
  · exact h' w hw

/-! ## Runs of the tip -/

/-- One move of the tip. -/
inductive TipStep where
  | connect (block : CBlock) (pindex : CBlockIndex)
  | disconnect
  deriving DecidableEq

/-- Take one step, whether or not it succeeds. -/
def TipStep.run (ctx : Context) : TipStep → Node → Except Stop Unit × Node
  | connect block pindex, node => connectTip ctx block pindex node
  | disconnect, node => disconnectTip ctx node

/-- The block that the step adds to the active chain, if any. -/
def TipStep.connected (ctx : Context) : TipStep → Node → List CBlock
  | connect block pindex, node => match (connectTip ctx block pindex node).1 with
    | .ok () => [block]
    | .error _ => []
  | disconnect, _ => []

/-- The node after a run of steps. -/
def runTip (ctx : Context) : List TipStep → Node → Node
  | [], node => node
  | s :: steps, node => runTip ctx steps (s.run ctx node).2

/-- The blocks that a run of steps connected, in order, whether or not they were
disconnected afterwards. -/
def connectedBlocks (ctx : Context) : List TipStep → Node → List CBlock
  | [], _ => []
  | s :: steps, node => s.connected ctx node ++ connectedBlocks ctx steps (s.run ctx node).2

/-- The blocks of the active chain, the first one first. -/
def Node.activeBlocks (node : Node) : List CBlock := (node.chain.map Prod.fst).reverse

/-- **What `ConnectTip` can do** to the chain and the market index: nothing when it
fails, and otherwise one more block and its batch. -/
theorem connectTip_cases (ctx : Context) (block : CBlock) (pindex : CBlockIndex) (node : Node) :
    (∃ s, (connectTip ctx block pindex node).1 = .error s ∧
      (connectTip ctx block pindex node).2.chain = node.chain ∧
      (connectTip ctx block pindex node).2.disk.market = node.disk.market) ∨
    ((connectTip ctx block pindex node).1 = .ok () ∧
      (connectTip ctx block pindex node).2.chain = (block, pindex) :: node.chain ∧
      (connectTip ctx block pindex node).2.disk.market =
        writeMarketIndex (carriedObjs ctx block) node.disk.market) := by
  unfold connectTip
  split_ifs
  · exact Or.inl ⟨_, rfl, rfl, rfl⟩
  · rcases connectBlock_market ctx block pindex node.coins node.disk with
      ⟨s, hs, hmarket⟩ | ⟨view, objs, hview, hobjs, hmarket⟩
    · rcases hb : connectBlock ctx block pindex false node.coins node.disk with ⟨r, disk⟩
      rw [hb] at hs hmarket
      obtain rfl : r = .error s := hs
      exact Or.inl ⟨s, rfl, rfl, hmarket⟩
    · rcases hb : connectBlock ctx block pindex false node.coins node.disk with ⟨r, disk⟩
      rw [hb] at hview hmarket
      obtain rfl : r = .ok view := hview
      rw [carriedObjs_of_ok hobjs]
      exact Or.inr ⟨rfl, rfl, hmarket⟩

/-- **What `DisconnectTip` can do**: at most drop the tip.  The disk stays as it is. -/
theorem disconnectTip_cases (ctx : Context) (node : Node) :
    (disconnectTip ctx node).2.disk = node.disk ∧
      ((disconnectTip ctx node).2.chain = node.chain ∨
        ∃ b, node.chain = b :: (disconnectTip ctx node).2.chain) := by
  unfold disconnectTip
  cases hchain : node.chain with
  | nil => exact ⟨rfl, Or.inl hchain⟩
  | cons b chain =>
      obtain ⟨block, pindex⟩ := b
      simp only
      cases disconnectBlock ctx block pindex node.coins node.disk with
      | error s => exact ⟨rfl, Or.inl hchain⟩
      | ok r =>
          obtain ⟨view, fClean⟩ := r
          simp only
          split_ifs
          · exact ⟨rfl, Or.inr ⟨_, rfl⟩⟩
          · exact ⟨rfl, Or.inl hchain⟩

/-- One step writes the batches of the blocks it connects, and nothing else. -/
theorem run_market (ctx : Context) (s : TipStep) (node : Node) :
    (s.run ctx node).2.disk.market =
      (s.connected ctx node).foldl (fun db b => writeMarketIndex (carriedObjs ctx b) db)
        node.disk.market := by
  cases s with
  | connect block pindex =>
      rcases connectTip_cases ctx block pindex node with ⟨e, hr, -, hm⟩ | ⟨hr, -, hm⟩
      · simpa only [TipStep.run, TipStep.connected, hr, List.foldl_nil] using hm
      · simpa only [TipStep.run, TipStep.connected, hr, List.foldl_cons, List.foldl_nil] using hm
  | disconnect => exact congrArg Disk.market (disconnectTip_cases ctx node).1

/-- **The market index after a run** is the one it started with and the batches of
all blocks connected on the way. -/
theorem runTip_market (ctx : Context) (steps : List TipStep) (node : Node) :
    (runTip ctx steps node).disk.market =
      (connectedBlocks ctx steps node).foldl (fun db b => writeMarketIndex (carriedObjs ctx b) db)
        node.disk.market := by
  induction steps generalizing node with
  | nil => rfl
  | cons s steps ih =>
      rw [runTip, ih, run_market, connectedBlocks, List.foldl_append]

/-- Without a `DisconnectTip`, the blocks connected are those added to the chain. -/
theorem activeBlocks_runTip {ctx : Context} {steps : List TipStep} (node : Node)
    (h : .disconnect ∉ steps) :
    (runTip ctx steps node).activeBlocks = node.activeBlocks ++ connectedBlocks ctx steps node := by
  induction steps generalizing node with
  | nil => simp [runTip, connectedBlocks]
  | cons s steps ih =>
      obtain ⟨hs, hsteps⟩ := not_or.mp (List.mem_cons.not.mp h)
      rw [runTip, ih _ hsteps, connectedBlocks, ← List.append_assoc]
      congr 1
      cases s with
      | connect block pindex =>
          rcases connectTip_cases ctx block pindex node with ⟨e, hr, hc, -⟩ | ⟨hr, hc, -⟩
          · simp only [TipStep.connected, hr, List.append_nil, Node.activeBlocks, TipStep.run, hc]
          · simp only [TipStep.connected, hr, Node.activeBlocks, TipStep.run, hc, List.map_cons,
              List.reverse_cons]
      | disconnect => exact absurd rfl hs

/-- Every block of the active chain was there at the start or was connected. -/
theorem mem_chain_runTip {ctx : Context} {steps : List TipStep} {node : Node}
    {b : CBlock × CBlockIndex} (h : b ∈ (runTip ctx steps node).chain) :
    b ∈ node.chain ∨ b.1 ∈ connectedBlocks ctx steps node := by
  induction steps generalizing node with
  | nil => exact Or.inl h
  | cons s steps ih =>
      rw [connectedBlocks]
      rcases ih h with h | h
      · cases s with
        | connect block pindex =>
            rcases connectTip_cases ctx block pindex node with ⟨e, hr, hc, -⟩ | ⟨hr, hc, -⟩
            · rw [TipStep.run, hc] at h
              exact Or.inl h
            · rw [TipStep.run, hc] at h
              rcases List.mem_cons.mp h with rfl | h
              · exact Or.inr (List.mem_append_left _ (by simp [TipStep.connected, hr]))
              · exact Or.inl h
        | disconnect =>
            rcases (disconnectTip_cases ctx node).2 with hc | ⟨b', hc⟩
            · rw [TipStep.run, hc] at h
              exact Or.inl h
            · rw [hc]
              exact Or.inl (List.mem_cons_of_mem _ h)
      · exact Or.inr (List.mem_append_right _ h)

/-- The batches of the blocks, as a run of the database. -/
theorem foldl_carried_eq_runDb (ctx : Context) (written : List DbStep) (blocks : List CBlock) :
    blocks.foldl (fun db b => writeMarketIndex (carriedObjs ctx b) db) (runDb written) =
      runDb (written ++ blocks.map fun b => .index (carriedObjs ctx b)) := by
  rw [runDb, runDb, List.foldl_append, List.foldl_map]
  rfl

theorem writtenObjs_carried (ctx : Context) (written : List DbStep) (blocks : List CBlock) :
    writtenObjs (written ++ blocks.map fun b => .index (carriedObjs ctx b)) =
      writtenObjs written ++ blocks.flatMap (carriedObjs ctx) := by
  rw [writtenObjs, List.flatMap_append, List.flatMap_map]
  rfl

/-- What is read back after the batches of some blocks on top of a database. -/
theorem getObj_carried {ctx : Context} {written : List DbStep}
    (hsizes : AllSizesOk (writtenObjs written)) (blocks : List CBlock) (op : MarketOp)
    (objid : Uint256) :
    getObj op objid (runDb (written ++ blocks.map fun b => .index (carriedObjs ctx b))) =
      (lastWrite op objid (fun _ => true)
        (writtenObjs written ++ blocks.flatMap (carriedObjs ctx))).map MarketObj.persisted := by
  have hindexed := indexed_run (written ++ blocks.map fun b => .index (carriedObjs ctx b))
  rw [writtenObjs_carried] at hindexed
  exact getObj_eq hindexed (hsizes.append (allSizesOk_carried ctx blocks)) op objid

/-- The objects of blocks come back as they are. -/
theorem map_persisted_carried (ctx : Context) (blocks : List CBlock) (op : MarketOp)
    (objid : Uint256) :
    (lastWrite op objid (fun _ => true) (blocks.flatMap (carriedObjs ctx))).map
        MarketObj.persisted =
      lastWrite op objid (fun _ => true) (blocks.flatMap (carriedObjs ctx)) := by
  cases hl : lastWrite op objid (fun _ => true) (blocks.flatMap (carriedObjs ctx)) with
  | none => rfl
  | some o =>
      obtain ⟨block, -, hw⟩ := List.mem_flatMap.mp (mem_of_lastWrite hl).1
      exact congrArg some (readFrom_of_carried hw).persisted

/-- **The market index is a record of the blocks connected.**  After any run of
`ConnectTip` and `DisconnectTip` steps it is the database that the batches of all blocks
connected on the way leave, in their order; a lookup returns the last object that was
written under the id, on the active chain or not.  Everything that the active chain
carries is there, and nothing else as long as no step is a `DisconnectTip`. -/
theorem market_index_of_connected (ctx : Context) (written : List DbStep)
    (hsizes : AllSizesOk (writtenObjs written)) (node : Node)
    (hmarket : node.disk.market = runDb written) (steps : List TipStep) :
    (runTip ctx steps node).disk.market =
        runDb (written ++
          (connectedBlocks ctx steps node).map fun b => .index (carriedObjs ctx b)) ∧
    (∀ op objid, getObj op objid (runTip ctx steps node).disk.market =
      (lastWrite op objid (fun _ => true) (writtenObjs written ++
        (connectedBlocks ctx steps node).flatMap (carriedObjs ctx))).map MarketObj.persisted) ∧
    ((∀ b ∈ node.chain, ∀ w ∈ carriedObjs ctx b.1, w ∈ writtenObjs written) →
      ∀ b ∈ (runTip ctx steps node).chain, ∀ w ∈ carriedObjs ctx b.1,
        (getObj w.2.1 w.1 (runTip ctx steps node).disk.market).isSome = true) ∧
    (writtenObjs written = node.activeBlocks.flatMap (carriedObjs ctx) → .disconnect ∉ steps →
      ∀ op objid, getObj op objid (runTip ctx steps node).disk.market =
        lastWrite op objid (fun _ => true)
          ((runTip ctx steps node).activeBlocks.flatMap (carriedObjs ctx))) := by
  have hrun : (runTip ctx steps node).disk.market = runDb (written ++
      (connectedBlocks ctx steps node).map fun b => .index (carriedObjs ctx b)) := by
    rw [runTip_market, hmarket, foldl_carried_eq_runDb]
  have hget : ∀ op objid, getObj op objid (runTip ctx steps node).disk.market =
      (lastWrite op objid (fun _ => true) (writtenObjs written ++
        (connectedBlocks ctx steps node).flatMap (carriedObjs ctx))).map MarketObj.persisted := by
    intro op objid
    rw [hrun, getObj_carried hsizes]
  refine ⟨hrun, hget, ?_, ?_⟩
  · intro hstart b hb w hw
    rw [hget, Option.isSome_map, lastWrite_isSome_iff]
    refine ⟨w.2.2, ?_⟩
    rcases mem_chain_runTip hb with hb | hb
    · exact List.mem_append_left _ (hstart b hb w hw)
    · exact List.mem_append_right _ (List.mem_flatMap.mpr ⟨b.1, hb, hw⟩)
  · intro hstart hno op objid
    rw [hget, hstart, ← List.flatMap_append, ← activeBlocks_runTip node hno,
      map_persisted_carried]

/-! ## A reorganisation -/

/-- A coinbase that can be taken back: its outputs are found as they were written. -/
def Restorable (cb : CTransaction) : Prop :=
  (CCoins.fromTx cb 1).cleanup.isPruned = false ∧
    (CCoins.fromTx cb 1).cleanup.clearUnspendable.same (CCoins.fromTx cb 1) = true ∧
    (CCoins.fromTx cb 1).nVersion = 1

/-- Disconnecting the second block of a chain of two. -/
theorem disconnectBlock_second {env : Env} {cb₀ cb : CTransaction} (hcb : Restorable cb)
    {disk : Disk} (hundo : disk.undo.find ((secondBlock env cb₀ cb).getHash env.hash) = some []) :
    ∃ view, disconnectBlock (exampleContext env) (secondBlock env cb₀ cb) (secondIndex env cb₀ cb)
      (secondView env cb₀ cb) disk = .ok (view, true) := by
  obtain ⟨hpruned, hsame, hversion⟩ := hcb
  have hhash : (secondIndex env cb₀ cb).getBlockHash =
      (secondBlock env cb₀ cb).getHash env.hash := rfl
  have hbest : (secondView env cb₀ cb).bestBlock = (secondBlock env cb₀ cb).getHash env.hash := rfl
  have hvtx : (secondBlock env cb₀ cb).vtx = [cb] := rfl
  have hcoins : (secondView env cb₀ cb).getCoins (cb.getHash env.hash) =
      (CCoins.fromTx cb 1).cleanup :=
    CCoinsView.getCoins_setCoins_self (firstView env cb₀) (cb.getHash env.hash) hpruned
  have hremove : (removeOutputs env 1 cb (secondView env cb₀ cb)).2 = true := by
    simp only [removeOutputs, hcoins, hversion]
    rw [if_neg (by decide)]
    exact hsame
  rw [disconnectBlock, hhash, hbest, hundo, hvtx]
  simp only [ne_eq, not_true, if_false, List.length_nil, List.zip_nil_left, disconnectTxs, bind,
    Except.bind]
  exact ⟨_, congrArg (fun b => Except.ok (_, true && b)) hremove⟩

/-- A branch with two votes a day. -/
def exampleBranch : MarketObj .branch where
  data := { name := [0x6d], description := [], baseListingFee := 1, freeDecisions := 1,
            targetDecisions := 1, maxDecisions := 1, minTradingFee := 1, tau := 72, ballotTime := 1,
            unsealTime := 1, consensusThreshold := 1, alpha := 1, tol := 1 }

/-- A coinbase that carries it; `n` tells it from others. -/
def exampleBranchCoinbase (n : UInt8) : CTransaction :=
  coinbaseTx n [⟨0, exampleBranch.getScript⟩]

/-- A coinbase that carries nothing. -/
def examplePlainCoinbase : CTransaction := coinbaseTx 0 [⟨0, [0x51]⟩]

theorem marketObjCtr_exampleBranch :
    marketObjCtr exampleBranch.getScript = .ok (some ⟨.branch, exampleBranch⟩) := by
  decide

/-- The one object of a coinbase with the script of an object. -/
theorem blockObjs_coinbaseTx {op : MarketOp} {o : MarketObj op}
    (hctr : marketObjCtr o.getScript = .ok (some ⟨op, o⟩)) (env : Env) (n : UInt8) :
    blockObjs env [coinbaseTx n [⟨0, o.getScript⟩]] =
      .ok [(o.getHash env.hash,
        ⟨op, { o with txid := (coinbaseTx n [⟨0, o.getScript⟩]).getHash env.hash }⟩)] := by
  have hpush : pushData o.ser ≠ [] := by
    unfold pushData
    split_ifs <;> simp
  have hshape : ¬ (o.getScript.length < 2 ∨ o.getScript.getLast? ≠ some opMarket) := by
    have := List.length_pos_of_ne_nil hpush
    simp only [MarketObj.getScript, List.length_append, List.length_singleton, List.getLast?_concat,
      ne_eq, not_true, or_false]
    omega
  have hvout : (coinbaseTx n [⟨0, o.getScript⟩]).vout = [⟨0, o.getScript⟩] := rfl
  simp only [blockObjs, hvout, outputObjs, hshape, if_false, hctr, Except.map, bind, Except.bind,
    List.append_nil]

theorem blockObjs_branch (env : Env) (n : UInt8) :
    blockObjs env [exampleBranchCoinbase n] =
      .ok [(exampleBranch.getHash env.hash, ⟨.branch,
        { exampleBranch with txid := (exampleBranchCoinbase n).getHash env.hash }⟩)] :=
  blockObjs_coinbaseTx marketObjCtr_exampleBranch env n

theorem soundCoinbase_branch_one : SoundCoinbase (exampleBranchCoinbase 1) :=
  ⟨by decide, by decide +kernel, by decide, by decide⟩

theorem soundCoinbase_branch_two : SoundCoinbase (exampleBranchCoinbase 2) :=
  ⟨by decide, by decide +kernel, by decide, by decide⟩

theorem soundCoinbase_plain : SoundCoinbase examplePlainCoinbase :=
  ⟨by decide, by decide +kernel, by decide, by decide⟩

theorem restorable_branch : Restorable (exampleBranchCoinbase 1) :=
  ⟨by decide, by decide, by decide⟩

/-- The steps that connect a block with no market objects and, on top of it, one that
carries a branch. -/
def exampleConnects (env : Env) : List TipStep :=
  [.connect (coinbaseBlock env.hash none examplePlainCoinbase)
      (coinbaseIndex env.hash none 0 examplePlainCoinbase),
    .connect (secondBlock env examplePlainCoinbase (exampleBranchCoinbase 1))
      (secondIndex env examplePlainCoinbase (exampleBranchCoinbase 1))]

/-- What those steps do, and a `DisconnectTip` after them. -/
theorem runTip_exampleConnects {env : Env}
    (hne : (exampleBranchCoinbase 1).getHash env.hash ≠ examplePlainCoinbase.getHash env.hash)
    (hhash : (secondBlock env examplePlainCoinbase (exampleBranchCoinbase 1)).getHash env.hash ≠
      Blob.null) :
    ∃ view₁ view₂ disk₀ disk₁,
      runTip (exampleContext env) ((exampleConnects env).take 1) {} =
        ⟨[(coinbaseBlock env.hash none examplePlainCoinbase,
          coinbaseIndex env.hash none 0 examplePlainCoinbase)], view₁, disk₀⟩ ∧
      disk₀.market = OrdMap.empty ∧
      runTip (exampleContext env) (exampleConnects env ++ [.disconnect]) {} =
        ⟨[(coinbaseBlock env.hash none examplePlainCoinbase,
          coinbaseIndex env.hash none 0 examplePlainCoinbase)], view₂, disk₁⟩ ∧
      disk₁.market = writeMarketIndex [(exampleBranch.getHash env.hash, ⟨.branch,
        { exampleBranch with txid := (exampleBranchCoinbase 1).getHash env.hash }⟩)]
          OrdMap.empty := by
  have hplain : blockObjs env [examplePlainCoinbase] = .ok [] := rfl
  obtain ⟨disk₀, disk₁, hfirst, hmarket₀, hsecond, hmarket₁, hundo⟩ := connectBlock_second
    soundCoinbase_plain soundCoinbase_branch_one hne hplain (blockObjs_branch env 1)
  obtain ⟨view, hdisconnect⟩ := disconnectBlock_second restorable_branch (hundo hhash)
  have htip₁ : connectTip (exampleContext env) (coinbaseBlock env.hash none examplePlainCoinbase)
      (coinbaseIndex env.hash none 0 examplePlainCoinbase) {} =
        (.ok (), ⟨[(coinbaseBlock env.hash none examplePlainCoinbase,
          coinbaseIndex env.hash none 0 examplePlainCoinbase)],
            firstView env examplePlainCoinbase, disk₀⟩) := by
    rw [connectTip, if_neg (by rw [not_not]; rfl), hfirst]
  have htip₂ : connectTip (exampleContext env)
      (secondBlock env examplePlainCoinbase (exampleBranchCoinbase 1))
      (secondIndex env examplePlainCoinbase (exampleBranchCoinbase 1))
      ⟨[(coinbaseBlock env.hash none examplePlainCoinbase,
        coinbaseIndex env.hash none 0 examplePlainCoinbase)],
          firstView env examplePlainCoinbase, disk₀⟩ =
        (.ok (), ⟨[(secondBlock env examplePlainCoinbase (exampleBranchCoinbase 1),
          secondIndex env examplePlainCoinbase (exampleBranchCoinbase 1)),
            (coinbaseBlock env.hash none examplePlainCoinbase,
              coinbaseIndex env.hash none 0 examplePlainCoinbase)],
                secondView env examplePlainCoinbase (exampleBranchCoinbase 1), disk₁⟩) := by
    rw [connectTip, if_neg (by rw [not_not]; rfl), hsecond]
  refine ⟨firstView env examplePlainCoinbase, view, disk₀, disk₁, ?_, hmarket₀, ?_, ?_⟩
  · simp only [exampleConnects, List.take_succ_cons, List.take_zero, runTip, TipStep.run, htip₁]
  · simp only [exampleConnects, List.cons_append, List.nil_append, runTip, TipStep.run, htip₁, htip₂,
      disconnectTip, hdisconnect, if_true]
  · rw [hmarket₁, hmarket₀]
    rfl

/-- **A disconnected block leaves its objects behind.**  A block with a branch is
connected and disconnected again: the active chain is the one before it, which carries
no market object, and the branch can still be read, as it could not before. -/
theorem disconnected_branch_stays :
    ((exampleBranchCoinbase 1).getHash exampleEnv.hash ≠
        examplePlainCoinbase.getHash exampleEnv.hash ∧
      (secondBlock exampleEnv examplePlainCoinbase (exampleBranchCoinbase 1)).getHash
        exampleEnv.hash ≠ Blob.null) ∧
    ∀ env : Env,
      (exampleBranchCoinbase 1).getHash env.hash ≠ examplePlainCoinbase.getHash env.hash →
      (secondBlock env examplePlainCoinbase (exampleBranchCoinbase 1)).getHash env.hash ≠
        Blob.null →
      (runTip (exampleContext env) (exampleConnects env ++ [.disconnect]) {}).chain =
        (runTip (exampleContext env) ((exampleConnects env).take 1) {}).chain ∧
      (runTip (exampleContext env) (exampleConnects env ++ [.disconnect]) {}).activeBlocks.flatMap
        (carriedObjs (exampleContext env)) = [] ∧
      getBranch (exampleBranch.getHash env.hash)
        (runTip (exampleContext env) ((exampleConnects env).take 1) {}).disk.market = none ∧
      getBranch (exampleBranch.getHash env.hash)
        (runTip (exampleContext env) (exampleConnects env ++ [.disconnect]) {}).disk.market =
          some { exampleBranch with txid := (exampleBranchCoinbase 1).getHash env.hash } := by
  refine ⟨⟨by decide +kernel, by decide +kernel⟩, fun env hne hhash => ?_⟩
  obtain ⟨view₁, view₂, disk₀, disk₁, hrun₁, hmarket₀, hrun₂, hmarket₁⟩ :=
    runTip_exampleConnects hne hhash
  rw [hrun₁, hrun₂, hmarket₀, hmarket₁]
  exact ⟨rfl, rfl, rfl, getObj_of_marketObjCtr marketObjCtr_exampleBranch _ _ _⟩

/-- The index after the reorganisation, by the blocks connected on the way. -/
theorem market_index_of_connected_reorg :
    AllSizesOk (writtenObjs []) ∧
    ∀ op objid,
      getObj op objid (runTip (exampleContext exampleEnv)
          (exampleConnects exampleEnv ++ [.disconnect]) {}).disk.market =
        (lastWrite op objid (fun _ => true) (writtenObjs [] ++
          (connectedBlocks (exampleContext exampleEnv)
            (exampleConnects exampleEnv ++ [.disconnect]) {}).flatMap
              (carriedObjs (exampleContext exampleEnv)))).map MarketObj.persisted := by
  have hsizes : AllSizesOk (writtenObjs []) := by
    intro w hw
    cases hw
  have hempty : ({} : Node).disk.market = runDb [] := rfl
  obtain ⟨-, hget, -⟩ := market_index_of_connected (exampleContext exampleEnv) [] hsizes {} hempty
    (exampleConnects exampleEnv ++ [.disconnect])
  exact ⟨hsizes, hget⟩

end Hivemind
