import Hivemind.Validation.ScanRecords
import Hivemind.Validation.Selection

/-!
# Importing block files

`LoadExternalBlockFile` and `ProcessNewBlock` of `main.cpp`, and the loop of `ThreadImport` that
indexes the block files again.  A block whose parent is not known yet is parked with its
position; when its parent has been processed it is read again, and so are the blocks that wait
for it in turn.

The blocks that wait are a multimap that is kept from one file to the next, and the recursion
over the blocks that wait for a block is a queue of hashes, as it is in the source.  An error of
`ProcessNewBlock` is kept in the state of the validation and ends the loop over a file.  A
function returns `none` where an assertion ends the process.

* `processNewBlock`: a block from a file, up to the choice of the active chain.
* `processRange`, `processSuccessors`: the blocks that wait for one that was processed.
* `importBlock`, `importLoop`, `loadExternalBlockFile`: the turns over a file.
* `reindex`: the files, from a number on until one is missing.
-/

namespace Hivemind

open Codecs

/-- What importing uses besides the state. -/
structure ImportEnv where
  accept : AcceptContext
  chain : ChainEnv
  /-- A bound on the steps of `ActivateBestChain`. -/
  steps : Nat
  messageStart : Bytes
  messageStart_length : messageStart.length = 4
  unserialize : Unserialize CBlock
  /-- The block that is unserialized at a position of a file that can be opened. -/
  readFile : CDiskBlockPos → Option CBlock
  /-- `state.IsError()`, where a block was not accepted because of a `return error(...)`. -/
  isError : Uint256 → Bool

/-- The state of the node, with the static `mapBlocksUnknownParent`: what waits for a parent, in
the order in which it was inserted. -/
structure ImportState where
  chain : ChainState := {}
  mapBlocksUnknownParent : List (Uint256 × CDiskBlockPos) := []
  nLoaded : Nat := 0

namespace ImportEnv

variable (env : ImportEnv)

/-- The height of the active chain is the state's own. -/
def acceptContext (s : ChainState) : AcceptContext :=
  { env.accept with chainHeight := s.chainActive.length - 1 }

def blockHash (block : CBlock) : Uint256 := block.getHash env.accept.hash

/-- `ReadBlockFromDisk` at a position. -/
def readBlockFromDisk (pos : CDiskBlockPos) : Option CBlock :=
  if pos.isNull then none
  else match env.readFile pos with
    | none => none
    | some block =>
      if checkProofOfWork env.accept.params (env.blockHash block) block.nBits then some block
      else none

/-- `ProcessNewBlock`, of a block that comes from no peer. -/
def processNewBlock (s : ChainState) (block : CBlock) (dbp : Option CDiskBlockPos) :
    Option (Except Stop Unit × ChainState) :=
  match checkBlock env.accept.toContext block true true with
  | .error e => some (.error e, s)
  | .ok () => match acceptBlock (env.acceptContext s) s.tree block dbp with
    | (.error e, tree) => some (.error e, { s with tree })
    | (.ok (), tree) => match activateBestChain env.chain env.steps { s with tree } with
      | none => none
      | some (false, s) => some (.error .failed, s)
      | some (true, s) => some (.ok (), s)

/-! ## The blocks that wait -/

/-- The loop over the entries under one key.  Each is erased when it has been dealt with; the
hashes of the blocks that were accepted are pushed.  An exception leaves both loops. -/
def processRange : List (Uint256 × CDiskBlockPos) → List Uint256 → ImportState →
    Option (List Uint256 × ImportState)
  | [], queue, s => some (queue, s)
  | entry :: range, queue, s =>
    let waiting := s.mapBlocksUnknownParent.erase entry
    match env.readBlockFromDisk entry.2 with
    | none => processRange range queue { s with mapBlocksUnknownParent := waiting }
    | some block => match env.processNewBlock s.chain block (some entry.2) with
      | none => none
      | some (.error .asserted, _) => none
      | some (.error (.raised _), chain) => some ([], { s with chain })
      | some (.error _, chain) =>
        processRange range queue { s with chain, mapBlocksUnknownParent := waiting }
      | some (.ok (), chain) =>
        processRange range (queue ++ [env.blockHash block])
          { chain, mapBlocksUnknownParent := waiting, nLoaded := s.nLoaded + 1 }

/-- The queue of blocks whose successors may be waiting. -/
def processQueue : Nat → List Uint256 → ImportState → Option ImportState
  | 0, _, _ => none
  | _ + 1, [], s => some s
  | fuel + 1, head :: queue, s =>
    match env.processRange (s.mapBlocksUnknownParent.filter fun e => e.1 == head) queue s with
    | none => none
    | some (queue, s) => processQueue fuel queue s

/-- Recursively process earlier encountered successors of this block: no more turns than there
are blocks that wait. -/
def processSuccessors (hash : Uint256) (s : ImportState) : Option ImportState :=
  env.processQueue (s.mapBlocksUnknownParent.length + 2) [hash] s

/-! ## The blocks of a file -/

/-- What a turn does with a block, and whether the loop goes on. -/
def importBlock (s : ImportState) (block : CBlock) (dbp : Option CDiskBlockPos) :
    Option (Bool × ImportState) :=
  let hash := env.blockHash block
  if hash ≠ env.accept.params.hashGenesisBlock ∧ (s.chain.tree.find block.hashPrevBlock).isNone then
    -- detect out of order blocks, and store them for later
    some (true, { s with
      mapBlocksUnknownParent := s.mapBlocksUnknownParent ++
        dbp.toList.map fun pos => (block.hashPrevBlock, pos) })
  else if s.chain.tree.hasData hash then (env.processSuccessors hash s).map fun s => (true, s)
  else match env.processNewBlock s.chain block dbp with
    | none => none
    | some (.error .asserted, _) => none
    | some (.error (.raised _), chain) => some (true, { s with chain })
    | some (.error .failed, chain) =>
      if env.isError hash then some (false, { s with chain })
      else (env.processSuccessors hash { s with chain }).map fun s => (true, s)
    | some (.error (.reject _ _ _), chain) =>
      (env.processSuccessors hash { s with chain }).map fun s => (true, s)
    | some (.ok (), chain) =>
      (env.processSuccessors hash { s with chain, nLoaded := s.nLoaded + 1 }).map fun s => (true, s)

/-- The loop of `LoadExternalBlockFile` over a file. -/
def importLoop (file : Bytes) (dbp : Option CDiskBlockPos) :
    Nat → BlockScan → ImportState → Option ImportState
  | 0, _, _ => none
  | fuel + 1, scan, s =>
    if scan.blkdat.eof then some s
    else match scanTurn file env.messageStart env.unserialize scan with
      | (_, .noHeader) => some s
      | (scan', .badHeader) => importLoop file dbp fuel scan' s
      | (scan', .badBlock) => importLoop file dbp fuel scan' s
      | (scan', .block block) =>
        let nBlockPos := UInt32.ofNat (scan.nBlockPos file env.messageStart)
        match env.importBlock s block (dbp.map fun pos => { pos with nPos := nBlockPos }) with
        | none => none
        | some (false, s) => some s
        | some (true, s) => importLoop file dbp fuel scan' s

/-- `LoadExternalBlockFile`: every turn begins further on in the file. -/
def loadExternalBlockFile (s : ImportState) (file : Bytes) (dbp : Option CDiskBlockPos) :
    Option ImportState :=
  env.importLoop file dbp (file.length + 2) {} { s with nLoaded := 0 }

/-- The loop of `ThreadImport` over the block files, from the one with number `nFile` on. -/
def reindex : Nat → List Bytes → ImportState → Option ImportState
  | _, [], s => some s
  | nFile, file :: files, s =>
    match env.loadExternalBlockFile s file (some ⟨nFile, 0⟩) with
    | none => none
    | some s => reindex (nFile + 1) files s

end ImportEnv

end Hivemind
