import Hivemind.Validation.Accept
import Hivemind.Validation.BlocksSpec

/-!
# Serving blocks and transactions

`ProcessGetData` of `main.cpp`: a peer has asked for blocks and transactions, and the node
answers from its index, its files, its relay memory and its pool.  The loop leaves after one
block, or when the send buffer is full, and the rest of the request stays for the next call.

A block is sent if the index has its header.  The node dies if it cannot read the block, and it
cannot if the data have not come.  Whether a block is sent at all depends on its place: a block
of the active chain always is, and another one only above the last checkpoint and when it is
valid and recent enough.

Only the first block that the loop reaches matters for a call, and the items before it may not
fill the send buffer.  Over runs, the blocks with data are known from the calls that stored them,
so the condition is about the header of that block alone.

* `readBlockFromDisk_noData`: an entry without data has the null position, which no file opens.
* `processGetData_cannotLoad`: when a call ends in the failed assertion.
* `getData_loads_iff`: **the same over the runs that build the index.**
* `header_request_cannotLoad`: a header alone ends the process.
-/

namespace Hivemind

open Codecs Ordered Outcomes

/-! ## Inventory -/

/-- `CInv`: what kind of thing, and which. -/
structure CInv where
  type : Int32
  hash : Uint256
  deriving DecidableEq

def msgTx : Int32 := 1
def msgBlock : Int32 := 2
def msgFilteredBlock : Int32 := 3

/-- `ppszTypeName`. -/
def typeNames : List String := ["ERROR", "tx", "block", "filtered block"]

namespace CInv

/-- `IsKnownType`. -/
def isKnownType (inv : CInv) : Bool := 1 ≤ inv.type && inv.type < 4

/-- `GetCommand`, of a known type. -/
def getCommand (inv : CInv) : String := typeNames.getD inv.type.toInt.toNat "ERROR"

/-- The item asks for a block. -/
def isBlock (inv : CInv) : Bool := inv.type == msgBlock || inv.type == msgFilteredBlock

end CInv

/-- `CMerkleBlock`, with the hashes and the matches of which its partial merkle tree is
built. -/
structure CMerkleBlock where
  header : CBlockHeader
  vHashes : List Uint256
  vMatch : List Bool
  vMatchedTxn : List (Nat × Uint256)

/-- What `ProcessGetData` pushes to the peer. -/
inductive Message where
  | block (block : CBlock)
  | merkleblock (block : CMerkleBlock)
  | tx (tx : CTransaction)
  | inv (vInv : List CInv)
  | notfound (vNotFound : List CInv)
  /-- A stream from the relay memory, under the command of its type. -/
  | relayed (command : String) (stream : Bytes)

/-! ## The node and the peer -/

/-- What `ProcessGetData` reads of the server. -/
structure Server (Filter : Type) where
  hash : Bytes → Uint256
  params : CChainParams
  fCheckpointsEnabled : Bool
  tree : BlockTree
  /-- The hashes of the active chain, by height. -/
  chainActive : List Uint256
  /-- The block that stands at a position of the block files. -/
  readFile : CDiskBlockPos → Option CBlock
  mapRelay : CInv → Option Bytes
  mempool : Uint256 → Option CTransaction
  /-- `CBloomFilter::IsRelevantAndUpdate`. -/
  isRelevantAndUpdate : Filter → CTransaction → Bool × Filter

/-- What `ProcessGetData` reads and writes of a peer. -/
structure Peer (Filter : Type) where
  vRecvGetData : List CInv
  hashContinue : Uint256 := Blob.null
  pfilter : Option Filter := none
  setInventoryKnown : List CInv := []
  /-- What the call has pushed. -/
  pushed : List Message := []
  /-- Whether the send buffer is full when the item at this place of the request is
  reached; the socket empties it in the meantime. -/
  sendBufferFull : Nat → Bool := fun _ => false

variable {Filter : Type}

def Peer.push (peer : Peer Filter) (msg : Message) : Peer Filter :=
  { peer with pushed := peer.pushed ++ [msg] }

/-- How a call may end the process. -/
inductive ServeFault where
  /-- `assert(!"cannot load block from disk")`. -/
  | cannotLoadBlock
  /-- `chainActive.Tip()` is null. -/
  | noTip
  deriving DecidableEq

namespace Server

/-- `CChain::Contains`. -/
def activeContains (server : Server Filter) (hash : Uint256) (pindex : CBlockIndex) : Bool :=
  0 ≤ pindex.nHeight && server.chainActive[pindex.nHeight.toNat]? == some hash

/-- `ReadBlockFromDisk` at a position.  `OpenDiskFile` does not open the null position. -/
def readBlockAt (server : Server Filter) (pos : CDiskBlockPos) : Option CBlock :=
  if pos.isNull then none
  else match server.readFile pos with
    | none => none
    | some block =>
      if checkProofOfWork server.params (block.getHash server.hash) block.nBits then some block
      else none

/-- `ReadBlockFromDisk` of an entry. -/
def readBlockFromDisk (server : Server Filter) (pindex : CBlockIndex) : Option CBlock :=
  match server.readBlockAt pindex.getBlockPos with
  | none => none
  | some block =>
    if block.getHash server.hash = pindex.getBlockHash then some block else none

/-- `send`, of a block of the index: below the last checkpoint only the active chain is
served. -/
def sends (server : Server Filter) (hash : Uint256) (pindex : CBlockIndex) : Bool :=
  match getLastCheckpoint server.fCheckpointsEnabled server.params server.tree with
  | none => true
  | some pcheckpoint =>
    if pindex.nHeight < pcheckpoint.nHeight then server.activeContains hash pindex else true

/-! ## The loop -/

/-- The loop of the constructor of `CMerkleBlock` over the transactions. -/
def matchTxs (server : Server Filter) : Filter → List CTransaction → List Bool × Filter
  | filter, [] => ([], filter)
  | filter, tx :: vtx =>
    let (relevant, filter) := server.isRelevantAndUpdate filter tx
    let (vMatch, filter) := server.matchTxs filter vtx
    (relevant :: vMatch, filter)

/-- `CMerkleBlock(block, filter)`. -/
def merkleBlock (server : Server Filter) (block : CBlock) (filter : Filter) : CMerkleBlock × Filter :=
  let vHashes := block.vtx.map (CTransaction.getHash server.hash)
  let (vMatch, filter) := server.matchTxs filter block.vtx
  let matched := (vMatch.zip vHashes).zipIdx.filter fun m => m.1.1
  ({ header := block.toCBlockHeader
     vHashes
     vMatch
     vMatchedTxn := matched.map fun m => (m.2, m.1.2) }, filter)

/-- The answer to `MSG_FILTERED_BLOCK`: the merkle block, with the matched transactions
that the peer is not known to have. -/
def pushFiltered (server : Server Filter) (peer : Peer Filter) (block : CBlock) : Peer Filter :=
  match peer.pfilter with
  | none => peer
  | some filter =>
    let (merkleBlock, filter) := server.merkleBlock block filter
    let unseen := merkleBlock.vMatchedTxn.filter fun m =>
      !peer.setInventoryKnown.contains ⟨msgTx, m.2⟩
    let txs := unseen.filterMap fun m => block.vtx[m.1]?
    { peer with
      pfilter := some filter
      pushed := peer.pushed ++ .merkleblock merkleBlock :: txs.map .tx }

/-- The `inv` of the tip after the last block of a batch. -/
def pushContinue (server : Server Filter) (peer : Peer Filter) (inv : CInv) :
    Except ServeFault (Peer Filter) :=
  if inv.hash = peer.hashContinue then match server.chainActive.getLast? with
    | none => .error .noTip
    | some tip => .ok { peer.push (.inv [⟨msgBlock, tip⟩]) with hashContinue := Blob.null }
  else .ok peer

/-- A block item. -/
def processBlock (server : Server Filter) (peer : Peer Filter) (inv : CInv) :
    Except ServeFault (Peer Filter) :=
  match server.tree.find inv.hash with
  | none => .ok peer
  | some pindex =>
    if server.sends inv.hash pindex then match server.readBlockFromDisk pindex with
      | none => .error .cannotLoadBlock
      | some block =>
        server.pushContinue
          (if inv.type = msgBlock then peer.push (.block block) else server.pushFiltered peer block) inv
    else .ok peer

/-- Any other item, and whether it has been found. -/
def processOther (server : Server Filter) (peer : Peer Filter) (inv : CInv) : Peer Filter × Bool :=
  if !inv.isKnownType then (peer, true)
  else match server.mapRelay inv with
    | some stream => (peer.push (.relayed inv.getCommand stream), true)
    | none =>
      if inv.type = msgTx then match server.mempool inv.hash with
        | some tx => (peer.push (.tx tx), true)
        | none => (peer, false)
      else (peer, false)

/-- The loop of `ProcessGetData` from the `n`-th item on, and the rest of the request. -/
def getDataLoop (server : Server Filter) : Nat → List CInv → Peer Filter → List CInv →
    Except ServeFault (Peer Filter × List CInv × List CInv)
  | _, vNotFound, peer, [] => .ok (peer, vNotFound, [])
  | n, vNotFound, peer, inv :: items =>
    if peer.sendBufferFull n then .ok (peer, vNotFound, inv :: items)
    else if inv.isBlock then do
      let peer ← server.processBlock peer inv
      .ok (peer, vNotFound, items)
    else
      let (peer, found) := server.processOther peer inv
      server.getDataLoop (n + 1) (if found then vNotFound else vNotFound ++ [inv]) peer items

/-- `ProcessGetData`. -/
def processGetData (server : Server Filter) (peer : Peer Filter) : Except ServeFault (Peer Filter) := do
  let (peer, vNotFound, rest) ← server.getDataLoop 0 [] peer peer.vRecvGetData
  let peer := { peer with vRecvGetData := rest }
  .ok (if vNotFound.isEmpty then peer else peer.push (.notfound vNotFound))

/-! ## When a call ends in the failed assertion -/

/-- An entry without data has the null position, which no file opens. -/
theorem readBlockFromDisk_noData (server : Server Filter) {pindex : CBlockIndex}
    (hdata : hasStatus pindex.nStatus blockHaveData = false) :
    server.readBlockFromDisk pindex = none := by
  have hpos : pindex.getBlockPos = {} := by
    rw [CBlockIndex.getBlockPos, hdata]
    rfl
  rw [readBlockFromDisk, hpos]
  rfl

/-- The `inv` of the tip cannot fail for want of a block. -/
theorem pushContinue_ne_cannotLoad (server : Server Filter) (peer : Peer Filter) (inv : CInv) :
    server.pushContinue peer inv ≠ .error .cannotLoadBlock := by
  unfold pushContinue
  split_ifs
  · split
    · intro h
      cases h
    · intro h
      cases h
  · intro h
    cases h

/-- The item names a block that the server sends and cannot read. -/
def Unreadable (server : Server Filter) (inv : CInv) : Prop :=
  ∃ pindex, server.tree.find inv.hash = some pindex ∧ server.sends inv.hash pindex = true ∧
    server.readBlockFromDisk pindex = none

theorem processBlock_cannotLoad (server : Server Filter) (peer : Peer Filter) (inv : CInv) :
    server.processBlock peer inv = .error .cannotLoadBlock ↔ server.Unreadable inv := by
  unfold processBlock Unreadable
  cases hfind : server.tree.find inv.hash with
  | none => simp
  | some pindex =>
      simp only [Option.some.injEq, exists_eq_left']
      cases hsends : server.sends inv.hash pindex with
      | false => simp
      | true =>
          cases hread : server.readBlockFromDisk pindex with
          | none => simp
          | some block => simpa using server.pushContinue_ne_cannotLoad _ inv

/-- The items other than blocks leave the send buffer to the socket. -/
theorem sendBufferFull_processOther (server : Server Filter) (peer : Peer Filter) (inv : CInv) :
    (server.processOther peer inv).1.sendBufferFull = peer.sendBufferFull := by
  unfold processOther
  split_ifs
  · rfl
  · split
    · rfl
    · split
      · rfl
      · rfl
  · split
    · rfl
    · rfl

/-- The loop gets from the `n`-th item to a block item: the items before it are no blocks,
and the send buffer has room up to there. -/
def ReachesBlock (full : Nat → Bool) (n : Nat) (items : List CInv) (inv : CInv) : Prop :=
  ∃ before after, items = before ++ inv :: after ∧ (∀ i ∈ before, i.isBlock = false) ∧
    inv.isBlock = true ∧ ∀ k ≤ before.length, full (n + k) = false

theorem not_reachesBlock_nil (full : Nat → Bool) (n : Nat) (inv : CInv) :
    ¬ ReachesBlock full n [] inv := by
  rintro ⟨before, after, hsplit, -⟩
  simp at hsplit

theorem reachesBlock_cons {full : Nat → Bool} {n : Nat} {i inv : CInv} {items : List CInv} :
    ReachesBlock full n (i :: items) inv ↔ full n = false ∧
      ((i.isBlock = true ∧ i = inv) ∨
        (i.isBlock = false ∧ ReachesBlock full (n + 1) items inv)) := by
  constructor
  · rintro ⟨before, after, hsplit, hbefore, hblock, hroom⟩
    refine ⟨hroom 0 (Nat.zero_le _), ?_⟩
    cases before with
    | nil =>
        obtain ⟨rfl, rfl⟩ := List.cons.inj hsplit
        exact Or.inl ⟨hblock, rfl⟩
    | cons j before =>
        obtain ⟨rfl, rfl⟩ := List.cons.inj hsplit
        refine Or.inr ⟨hbefore i (List.mem_cons_self ..), before, after, rfl, ?_, hblock, ?_⟩
        · exact fun j hj => hbefore j (List.mem_cons_of_mem _ hj)
        · intro k hk
          have := hroom (k + 1) (Nat.succ_le_succ hk)
          rwa [← Nat.add_assoc, Nat.add_right_comm] at this
  · rintro ⟨hfull, ⟨hblock, rfl⟩ | ⟨hother, before, after, rfl, hbefore, hblock, hroom⟩⟩
    · refine ⟨[], items, rfl, by simp, hblock, ?_⟩
      intro k hk
      rw [Nat.le_zero.mp hk]
      exact hfull
    · refine ⟨i :: before, after, rfl, ?_, hblock, ?_⟩
      · intro j hj
        rcases List.mem_cons.mp hj with rfl | hj
        · exact hother
        · exact hbefore j hj
      · intro k hk
        cases k with
        | zero => exact hfull
        | succ k =>
            rw [← Nat.add_assoc, Nat.add_right_comm]
            exact hroom k (Nat.le_of_succ_le_succ hk)

/-- The loop fails at the block item that it reaches, if the server cannot read it. -/
theorem getDataLoop_cannotLoad (server : Server Filter) (items : List CInv) (n : Nat)
    (vNotFound : List CInv) (peer : Peer Filter) :
    server.getDataLoop n vNotFound peer items = .error .cannotLoadBlock ↔
      ∃ inv, ReachesBlock peer.sendBufferFull n items inv ∧ server.Unreadable inv := by
  induction items generalizing n vNotFound peer with
  | nil => simp [getDataLoop, not_reachesBlock_nil]
  | cons i items ih =>
      rw [getDataLoop]
      simp only [reachesBlock_cons]
      cases hfull : peer.sendBufferFull n with
      | true => simp
      | false =>
          cases hblock : i.isBlock with
          | true =>
              -- the loop leaves after this item, whatever comes of it
              have hbind : (server.processBlock peer i >>= fun peer =>
                  (Except.ok (peer, vNotFound, items) :
                    Except ServeFault (Peer Filter × List CInv × List CInv))) =
                    .error .cannotLoadBlock ↔
                  server.processBlock peer i = .error .cannotLoadBlock := by
                cases server.processBlock peer i with
                | error e => simp [bind, Except.bind]
                | ok peer => simp [bind, Except.bind]
              simp [hbind, processBlock_cannotLoad]
          | false =>
              simp [ih, sendBufferFull_processOther]

/-- **The failed assertion**: a call ends in it exactly if the loop reaches a block that
the server sends and cannot read. -/
theorem processGetData_cannotLoad (server : Server Filter) (peer : Peer Filter) :
    server.processGetData peer = .error .cannotLoadBlock ↔
      ∃ inv, ReachesBlock peer.sendBufferFull 0 peer.vRecvGetData inv ∧
        server.Unreadable inv := by
  rw [← getDataLoop_cannotLoad server peer.vRecvGetData 0 [] peer, processGetData]
  cases server.getDataLoop 0 [] peer peer.vRecvGetData with
  | error e => simp [bind, Except.bind]
  | ok p => simp [bind, Except.bind]

end Server

/-! ## Over the runs that build the index -/

/-- A disk read at the recorded position succeeds for every block with data. -/
def Server.ReadsData (server : Server Filter) : Prop :=
  ∀ hash pindex, server.tree.find hash = some pindex →
    hasStatus pindex.nStatus blockHaveData = true → (server.readBlockFromDisk pindex).isSome

/-- **Serving blocks**: on the index after any run of headers and blocks, with any active
chain and any request, the assertion holds exactly if the block item that the loop
reaches, if any, is not the header alone of a block: an entry that had no data at the
start and that no `AcceptBlock` of the run has stored, at a height that is served. -/
theorem getData_loads_iff (steps : List IndexStep) (start : BlockTree) (server : Server Filter)
    (peer : Peer Filter) (htree : server.tree = runIndex steps start)
    (hread : server.ReadsData) :
    server.processGetData peer ≠ .error .cannotLoadBlock ↔
      ¬ ∃ inv pindex, Server.ReachesBlock peer.sendBufferFull 0 peer.vRecvGetData inv ∧
        (runIndex steps start).find inv.hash = some pindex ∧
        start.hasData inv.hash = false ∧ inv.hash ∉ storedBlocks steps start ∧
        server.sends inv.hash pindex = true := by
  rw [ne_eq, not_iff_not, server.processGetData_cannotLoad]
  constructor
  · rintro ⟨inv, hreach, pindex, hfind, hsends, hnone⟩
    have hdata : server.tree.hasData inv.hash ≠ true := by
      intro hhas
      rw [BlockTree.hasData_of_find hfind] at hhas
      have hsome := hread _ _ hfind hhas
      rw [hnone] at hsome
      cases hsome
    rw [htree, ne_eq, hasData_runIndex, not_or, Bool.not_eq_true] at hdata
    exact ⟨inv, pindex, hreach, htree ▸ hfind, hdata.1, hdata.2, hsends⟩
  · rintro ⟨inv, pindex, hreach, hfind, hstart, hstored, hsends⟩
    refine ⟨inv, hreach, pindex, htree ▸ hfind, hsends, ?_⟩
    apply server.readBlockFromDisk_noData
    rw [← BlockTree.hasData_of_find hfind, ← Bool.not_eq_true, hasData_runIndex, not_or]
    exact ⟨by simp [hstart], hstored⟩

/-! ## A block whose header alone has come -/

/-- A genesis block. -/
def firstServed : CBlock := coinbaseBlock exampleHash none (coinbaseTx 0 [⟨0, [0x51]⟩])

/-- The header of a block on top of it. -/
def headerAlone : CBlockHeader where
  hashPrevBlock := firstServed.getHash exampleHash
  nTime := 1

/-- The main network with that genesis block, and no trouble with the disk. -/
def servedContext : AcceptContext where
  toContext := { exampleContext exampleEnv with
    params := mainParams (firstServed.getHash exampleHash) }
  chainHeight := 0
  diskSpaceOk := true
  writeBlockOk := true

/-- The genesis block comes, then the header. -/
def headerRun : List IndexStep :=
  [.onBlock servedContext firstServed none, .onHeader servedContext.toContext headerAlone]

/-- The server after the run; its first block file holds the genesis block. -/
def headerServer : Server Unit where
  hash := exampleHash
  params := servedContext.params
  fCheckpointsEnabled := false
  tree := runIndex headerRun {}
  chainActive := [firstServed.getHash exampleHash]
  readFile pos := if pos = ⟨0, 8⟩ then some firstServed else none
  mapRelay _ := none
  mempool _ := none
  isRelevantAndUpdate filter _ := (false, filter)

theorem tree_headerServer : headerServer.tree = runIndex headerRun {} := by
  rw [headerServer]

/-- A peer that asks for one block. -/
def blockRequest (hash : Uint256) : Peer Unit where
  vRecvGetData := [⟨msgBlock, hash⟩]

theorem storedBlocks_headerRun :
    storedBlocks headerRun {} = [firstServed.getHash exampleHash] := by
  decide +kernel

theorem reachesBlock_blockRequest {hash : Uint256} {inv : CInv} :
    Server.ReachesBlock (blockRequest hash).sendBufferFull 0 (blockRequest hash).vRecvGetData
      inv ↔ inv = ⟨msgBlock, hash⟩ := by
  rw [blockRequest, Server.reachesBlock_cons]
  simp only [Server.not_reachesBlock_nil, and_false, or_false, true_and]
  constructor
  · rintro ⟨-, rfl⟩
    rfl
  · rintro rfl
    exact ⟨rfl, rfl⟩

theorem readsData_headerServer : headerServer.ReadsData := by
  intro hash pindex hfind hdata
  have hstored : headerServer.tree.hasData hash = true := by
    rw [BlockTree.hasData_of_find hfind, hdata]
  rw [tree_headerServer] at hstored
  have hgenesis : hash = firstServed.getHash exampleHash := by
    rcases (hasData_runIndex headerRun {} hash).mp hstored with hstart | hmem
    · cases hstart
    · rw [storedBlocks_headerRun] at hmem
      exact List.mem_singleton.mp hmem
  subst hgenesis
  have hread : (headerServer.tree.find (firstServed.getHash exampleHash)).map
      (fun pindex => (headerServer.readBlockFromDisk pindex).isSome) = some true := by
    decide +kernel
  rw [hfind] at hread
  exact Option.some.inj hread

/-- On that server a request for the genesis block does no harm. -/
theorem getData_loads_genesis :
    headerServer.ReadsData ∧
    headerServer.processGetData (blockRequest (firstServed.getHash exampleHash)) ≠
      .error .cannotLoadBlock := by
  refine ⟨readsData_headerServer, ?_⟩
  rw [getData_loads_iff headerRun {} headerServer _ tree_headerServer readsData_headerServer]
  rintro ⟨inv, pindex, hreach, -, -, hstored, -⟩
  apply hstored
  rw [storedBlocks_headerRun, reachesBlock_blockRequest.mp hreach]
  exact List.mem_singleton_self _

/-- **A header alone ends the process**: the data of all blocks that have data can be read,
and yet a request for the block whose header has come fails the assertion. -/
theorem header_request_cannotLoad :
    ¬ ∀ (steps : List IndexStep) (server : Server Unit) (peer : Peer Unit),
      server.tree = runIndex steps {} → server.ReadsData →
        server.processGetData peer ≠ .error .cannotLoadBlock := by
  intro hclaim
  refine hclaim headerRun headerServer (blockRequest (headerAlone.getHash exampleHash))
    tree_headerServer readsData_headerServer ?_
  rw [Server.processGetData_cannotLoad]
  refine ⟨_, reachesBlock_blockRequest.mpr rfl, ?_⟩
  have hstatus : (headerServer.tree.find (headerAlone.getHash exampleHash)).map
      (fun pindex => hasStatus pindex.nStatus blockHaveData) = some false := by
    decide +kernel
  obtain ⟨pindex, hfind, hdata⟩ := Option.map_eq_some_iff.mp hstatus
  exact ⟨pindex, hfind, rfl, headerServer.readBlockFromDisk_noData hdata⟩

end Hivemind
