import Hivemind.Chain.BlockTree
import Hivemind.Validation.Blocks

/-!
# Accepting headers and blocks

`AcceptBlockHeader` and `AcceptBlock` of `main.cpp`, with the checks that need the parent of a
block, and the functions of `checkpoints.cpp` that they use.  A peer may send the header of a
block alone, so the index has entries whose data have not come, and perhaps never come.

The height of the active chain, the time and the room on the disk are read from `AcceptContext`;
the hash of a block and the codec of its size are those of the environment.  A call that fails
may still change the index: the header stays when the block is refused, a block that is not valid
is marked, and room in a file is used up by a block that could not be written.  Each of these is
a case of one lemma, and the statements about runs go over its cases.

* `acceptBlockHeader_cases`, `acceptBlock_cases`: what a call can do to the index.
* `acceptBlockHeader_spec`, `acceptBlock_spec`: what a call leaves in the index.
* `hasData_runIndex`: **the blocks with data**, after any order of calls.
-/

namespace Hivemind

open Codecs Ordered Outcomes

/-- What these functions read besides the index. -/
structure AcceptContext extends Context where
  /-- `chainActive.Height()`. -/
  chainHeight : Int
  /-- `CheckDiskSpace` finds room for the block. -/
  diskSpaceOk : Bool
  /-- `WriteBlockToDisk` opens the file. -/
  writeBlockOk : Bool

/-! ## Checkpoints -/

/-- `Checkpoints::CheckBlock`. -/
def checkpointsCheckBlock (ctx : Context) (nHeight : Int) (hash : Uint256) : Bool :=
  !ctx.fCheckpointsEnabled ||
    match ctx.params.mapCheckpoints.find? fun i => i.1 == nHeight with
    | none => true
    | some i => hash == i.2

/-- `Checkpoints::GetLastCheckpoint`. -/
def getLastCheckpoint (fEnabled : Bool) (params : CChainParams) (tree : BlockTree) :
    Option CBlockIndex :=
  if fEnabled then params.mapCheckpoints.reverse.findSome? fun i => tree.find i.2 else none

/-! ## Checks that need the parent -/

/-- `IsSuperMajority`. -/
def isSuperMajority (params : CChainParams) (tree : BlockTree) (minVersion : Int32)
    (pstart : Option CBlockIndex) (nRequired : Nat) : Bool :=
  nRequired ≤ (tree.ancestors params.nToCheckBlockUpgradeMajority pstart).countP
    fun pindex => minVersion ≤ pindex.nVersion

/-- The test of the claimed work against `GetNextWorkRequired`. -/
def checkDiffBits (params : CChainParams) (tree : BlockTree) (block : CBlockHeader)
    (pprev : CBlockIndex) : Except Stop Unit :=
  if params.fSkipProofOfWorkCheck then .ok ()
  else match tree.getNextWorkRequired params (some pprev) block with
    | none => .error .asserted
    | some nBits => if block.nBits ≠ nBits then dos 100 .badDiffBits else .ok ()

/-- `ContextualCheckBlockHeader` after the test of the work. -/
def checkBlockHeaderAfter (ctx : Context) (tree : BlockTree) (block : CBlockHeader)
    (pprev : CBlockIndex) : Except Stop Unit :=
  let nHeight := pprev.nHeight + 1
  if block.nTime.toNat ≤ tree.getMedianTimePast pprev then invalid .timeTooOld
  else if !checkpointsCheckBlock ctx nHeight (block.getHash ctx.hash) then
    dos 100 .checkpointMismatch
  else if (getLastCheckpoint ctx.fCheckpointsEnabled ctx.params tree).any
      fun pcheckpoint => nHeight < pcheckpoint.nHeight then dos 100 .forkBeforeCheckpoint
  else if block.nVersion < 2 && isSuperMajority ctx.params tree 2 (some pprev)
      ctx.params.nRejectBlockOutdatedMajority then invalid .badVersion
  else .ok ()

/-- `ContextualCheckBlockHeader`. -/
def contextualCheckBlockHeader (ctx : Context) (tree : BlockTree) (block : CBlockHeader)
    (pindexPrev : Option CBlockIndex) : Except Stop Unit :=
  if block.getHash ctx.hash = ctx.params.hashGenesisBlock then .ok ()
  else match pindexPrev with
    | none => .error .asserted
    | some pprev => do
      checkDiffBits ctx.params tree block pprev
      checkBlockHeaderAfter ctx tree block pprev

def lockTimeThreshold : Nat := 500000000

/-- `IsFinalTx`. -/
def isFinalTx (ctx : AcceptContext) (tx : CTransaction) (nBlockHeight : Int) (nBlockTime : Int) :
    Bool :=
  let nBlockHeight := if nBlockHeight = 0 then ctx.chainHeight else nBlockHeight
  let nBlockTime := if nBlockTime = 0 then ctx.nAdjustedTime else nBlockTime
  let limit := if tx.nLockTime.toNat < lockTimeThreshold then nBlockHeight else nBlockTime
  tx.nLockTime == 0 || tx.nLockTime.toNat < limit ||
    tx.vin.all fun txin => txin.nSequence == 0xffffffff

/-- `CScript() << n`. -/
def pushInt (n : Int) : CScript :=
  if n = -1 ∨ (1 ≤ n ∧ n ≤ 16) then [UInt8.ofInt (n + 0x50)]
  else if n = 0 then [0]
  else pushData (serializeNum n)

/-- `ContextualCheckBlock`. -/
def contextualCheckBlock (ctx : AcceptContext) (tree : BlockTree) (block : CBlock)
    (pindexPrev : Option CBlockIndex) : Except Stop Unit :=
  let nHeight := (pindexPrev.map fun pprev => pprev.nHeight + 1).getD 0
  if !block.vtx.all fun tx => isFinalTx ctx tx nHeight block.nTime.toNat then
    dos 10 .badTxnsNonfinal
  else if 2 ≤ block.nVersion && isSuperMajority ctx.params tree 2 pindexPrev
      ctx.params.nEnforceBlockUpgradeMajority &&
      !(pushInt nHeight).isPrefixOf
        (((block.vtx.head?.bind fun tx => tx.vin.head?).map CTxIn.scriptSig).getD []) then
    dos 100 .badCbHeight
  else .ok ()

/-! ## Headers -/

/-- The parent that `AcceptBlockHeader` looks up; the genesis block has none. -/
def acceptPrev (ctx : Context) (tree : BlockTree) (block : CBlockHeader) :
    Except Stop (Option CBlockIndex) :=
  if block.getHash ctx.hash = ctx.params.hashGenesisBlock then .ok none
  else match tree.find block.hashPrevBlock with
    | none => dos 10 .badPrevBlk
    | some pprev =>
      if hasStatus pprev.nStatus blockFailedMask then dos 100 .badPrevBlk else .ok (some pprev)

/-- `AcceptBlockHeader`: the entry of the header, and the index. -/
def acceptBlockHeader (ctx : Context) (tree : BlockTree) (block : CBlockHeader) :
    Except Stop (CBlockIndex × BlockTree) :=
  let hash := block.getHash ctx.hash
  match tree.find hash with
  | some pindex =>
    if hasStatus pindex.nStatus blockFailedMask then invalid .duplicate else .ok (pindex, tree)
  | none => do
    checkBlockHeader ctx block true
    let pindexPrev ← acceptPrev ctx tree block
    contextualCheckBlockHeader ctx tree block pindexPrev
    .ok (tree.newEntry hash block, tree.addToBlockIndex hash block)

/-! ## Blocks -/

/-- `state.IsInvalid() && !state.CorruptionPossible()`. -/
def Stop.condemns : Stop → Bool
  | reject _ _ corruption => !corruption
  | _ => false

/-- The part of `AcceptBlock` that writes the block to a file and its position to the
index.  `WriteBlockToDisk` puts the network's magic and the size before the block. -/
def storeBlock (ctx : AcceptContext) (tree : BlockTree) (hash : Uint256) (block : CBlock)
    (pindex : CBlockIndex) (dbp : Option CDiskBlockPos) : Except Stop Unit × BlockTree :=
  let nBlockSize := UInt32.ofNat (CBlock.codec.ser block).length
  match tree.findBlockPos dbp (nBlockSize + 8) (UInt32.ofInt pindex.nHeight)
      (UInt64.ofNat block.nTime.toNat) ctx.diskSpaceOk with
  | (none, tree) => (.error .failed, tree)
  | (some pos, tree) => match dbp with
    | some _ => (.ok (), tree.receivedBlockTransactions hash block pindex pos)
    | none =>
      if ctx.writeBlockOk then
        (.ok (), tree.receivedBlockTransactions hash block pindex { pos with nPos := pos.nPos + 8 })
      else (.error .failed, tree)

/-- `AcceptBlock`. -/
def acceptBlock (ctx : AcceptContext) (tree : BlockTree) (block : CBlock)
    (dbp : Option CDiskBlockPos) : Except Stop Unit × BlockTree :=
  let hash := block.getHash ctx.hash
  match acceptBlockHeader ctx.toContext tree block.toCBlockHeader with
  | .error e => (.error e, tree)
  | .ok (pindex, tree) =>
    if hasStatus pindex.nStatus blockHaveData then (.ok (), tree)
    else match checkBlock ctx.toContext block true true *>
        contextualCheckBlock ctx tree block (tree.prev pindex) with
      | .error e =>
        (.error e, if e.condemns then
          tree.put hash { pindex with nStatus := pindex.nStatus ||| blockFailedValid } else tree)
      | .ok () => storeBlock ctx tree hash block pindex dbp

/-! ## What a call can do -/

/-- `AcceptBlockHeader` finds the entry of the header, or adds one. -/
theorem acceptBlockHeader_cases {ctx : Context} {tree tree' : BlockTree} {block : CBlockHeader}
    {pindex : CBlockIndex} (hok : acceptBlockHeader ctx tree block = .ok (pindex, tree')) :
    (tree.find (block.getHash ctx.hash) = some pindex ∧
      hasStatus pindex.nStatus blockFailedMask = false ∧ tree' = tree) ∨
    (tree.find (block.getHash ctx.hash) = none ∧
      tree' = tree.addToBlockIndex (block.getHash ctx.hash) block ∧
      tree'.find (block.getHash ctx.hash) = some pindex ∧
      pindex = tree.newEntry (block.getHash ctx.hash) block) := by
  rw [acceptBlockHeader] at hok
  cases hfind : tree.find (block.getHash ctx.hash) with
  | some known =>
      rw [hfind] at hok
      obtain ⟨hfailed, heq⟩ := ite_invalid_eq_ok.mp hok
      cases heq
      exact Or.inl ⟨rfl, by simpa using hfailed, rfl⟩
  | none =>
      rw [hfind] at hok
      simp only [bind_eq_ok] at hok
      obtain ⟨-, -, prev, -, -, -, heq⟩ := hok
      cases heq
      obtain ⟨_, hsome, -⟩ | ⟨-, hnew, -⟩ :=
        tree.find_addToBlockIndex (block.getHash ctx.hash) block
      · rw [hfind] at hsome
        cases hsome
      · exact Or.inr ⟨rfl, rfl, hnew, rfl⟩

/-- The transactions of a block that passes `CheckBlock`: there are some, and not too
many. -/
theorem checkBlock_vtx {ctx : Context} {block : CBlock} {fCheckPOW fCheckMerkleRoot : Bool}
    (h : checkBlock ctx block fCheckPOW fCheckMerkleRoot = .ok ()) :
    block.vtx ≠ [] ∧ block.vtx.length ≤ maxBlockSize := by
  simp only [checkBlock, bind_eq_ok] at h
  obtain ⟨⟨⟩, -, h⟩ := h
  split_ifs at h
  simp only [checkBlockTransactions, ite_dos_eq_ok, Bool.or_eq_true, not_or, List.isEmpty_iff,
    decide_eq_true_eq, not_lt] at h
  exact ⟨h.1.1.1, h.1.1.2⟩

/-- A block that passes `CheckBlock` is not too big. -/
theorem checkBlock_size {ctx : Context} {block : CBlock} {fCheckPOW fCheckMerkleRoot : Bool}
    (h : checkBlock ctx block fCheckPOW fCheckMerkleRoot = .ok ()) :
    (CBlock.codec.ser block).length ≤ maxBlockSize := by
  simp only [checkBlock, bind_eq_ok] at h
  obtain ⟨⟨⟩, -, h⟩ := h
  split_ifs at h
  simp only [checkBlockTransactions, ite_dos_eq_ok, Bool.or_eq_true, not_or, List.isEmpty_iff,
    decide_eq_true_eq, not_lt] at h
  exact h.1.2

/-- **What `AcceptBlock` can do to the index**: nothing, add the header, mark the block as
invalid, use up room in a file, or store the block. -/
theorem acceptBlock_cases (ctx : AcceptContext) (tree : BlockTree) (block : CBlock)
    (dbp : Option CDiskBlockPos) :
    (acceptBlock ctx tree block dbp).2 = tree ∨
    ∃ pindex tree₁, acceptBlockHeader ctx.toContext tree block.toCBlockHeader =
        .ok (pindex, tree₁) ∧
      ((acceptBlock ctx tree block dbp).2 = tree₁ ∨
        (hasStatus pindex.nStatus blockHaveData = false ∧
          (acceptBlock ctx tree block dbp).2 = tree₁.put (block.getHash ctx.hash)
            { pindex with nStatus := pindex.nStatus ||| blockFailedValid }) ∨
        (hasStatus pindex.nStatus blockHaveData = false ∧
          checkBlock ctx.toContext block true true = .ok () ∧
          acceptBlock ctx tree block dbp =
            storeBlock ctx tree₁ (block.getHash ctx.hash) block pindex dbp)) := by
  rw [acceptBlock]
  cases hheader : acceptBlockHeader ctx.toContext tree block.toCBlockHeader with
  | error e => exact Or.inl rfl
  | ok p =>
      obtain ⟨pindex, tree₁⟩ := p
      refine Or.inr ⟨pindex, tree₁, rfl, ?_⟩
      simp only
      by_cases hdata : hasStatus pindex.nStatus blockHaveData = true
      · exact Or.inl (by rw [if_pos hdata])
      · rw [if_neg hdata]
        have hnodata : hasStatus pindex.nStatus blockHaveData = false := by simpa using hdata
        split
        · split_ifs
          · exact Or.inr (Or.inl ⟨hnodata, rfl⟩)
          · exact Or.inl rfl
        · rename_i hchecks
          have hcheck : checkBlock ctx.toContext block true true = .ok () := by
            cases hc : checkBlock ctx.toContext block true true with
            | error e =>
                rw [hc] at hchecks
                cases hchecks
            | ok u => rfl
          exact Or.inr (Or.inr ⟨hnodata, hcheck, rfl⟩)

/-- What storing a block does: it uses up room in a file, and writes the position of the
block to the index if it succeeds. -/
theorem storeBlock_cases (ctx : AcceptContext) (tree : BlockTree) (hash : Uint256) (block : CBlock)
    (pindex : CBlockIndex) (dbp : Option CDiskBlockPos) :
    ∃ found, tree.findBlockPos dbp (UInt32.ofNat (CBlock.codec.ser block).length + 8)
        (UInt32.ofInt pindex.nHeight) (UInt64.ofNat block.nTime.toNat) ctx.diskSpaceOk = found ∧
      (((storeBlock ctx tree hash block pindex dbp).1 = .error .failed ∧
          (storeBlock ctx tree hash block pindex dbp).2 = found.2) ∨
        ∃ pos, found.1 = some pos ∧ (storeBlock ctx tree hash block pindex dbp).1 = .ok () ∧
          (storeBlock ctx tree hash block pindex dbp).2 =
            found.2.receivedBlockTransactions hash block pindex
              (if dbp.isSome then pos else { pos with nPos := pos.nPos + 8 })) := by
  refine ⟨_, rfl, ?_⟩
  rw [storeBlock]
  rcases tree.findBlockPos dbp (UInt32.ofNat (CBlock.codec.ser block).length + 8)
    (UInt32.ofInt pindex.nHeight) (UInt64.ofNat block.nTime.toNat) ctx.diskSpaceOk with ⟨pos, tree'⟩
  cases pos with
  | none => exact Or.inl ⟨rfl, rfl⟩
  | some pos =>
      cases dbp with
      | some _ => exact Or.inr ⟨pos, rfl, rfl, rfl⟩
      | none =>
          by_cases hwrite : ctx.writeBlockOk = true
          · simp only [hwrite, if_true]
            exact Or.inr ⟨pos, rfl, trivial, rfl⟩
          · simp only [hwrite, Bool.false_eq_true, if_false]
            exact Or.inl ⟨trivial, trivial⟩

/-! ## What a call leaves in the index -/

/-- The block has an entry with `BLOCK_HAVE_DATA`. -/
def BlockTree.hasData (tree : BlockTree) (hash : Uint256) : Bool :=
  (tree.status hash).any fun nStatus => hasStatus nStatus blockHaveData

namespace BlockTree

theorem hasData_of_status {tree tree' : BlockTree} {h : Uint256}
    (hs : tree'.status h = tree.status h) : tree'.hasData h = tree.hasData h := by
  rw [hasData, hs, hasData]

theorem hasData_of_find {tree : BlockTree} {hash : Uint256} {pindex : CBlockIndex}
    (hfind : tree.find hash = some pindex) :
    tree.hasData hash = hasStatus pindex.nStatus blockHaveData := by
  rw [hasData, status, hfind]
  rfl

theorem find_of_hasData {tree : BlockTree} {hash : Uint256} (h : tree.hasData hash = true) :
    ∃ pindex, tree.find hash = some pindex ∧ hasStatus pindex.nStatus blockHaveData = true := by
  cases hfind : tree.find hash with
  | none =>
      rw [hasData, status, hfind] at h
      cases h
  | some pindex =>
      rw [hasData_of_find hfind] at h
      exact ⟨pindex, rfl, h⟩

theorem hasData_of_find_none {tree : BlockTree} {hash : Uint256} (hfind : tree.find hash = none) :
    tree.hasData hash = false := by
  rw [hasData, status, hfind]
  rfl

end BlockTree

/-- **A header gives no data**: after a call that succeeds the index has the entry that
the call returns, and the blocks with data are those from before. -/
theorem acceptBlockHeader_spec {ctx : Context} {tree tree' : BlockTree} {block : CBlockHeader}
    {pindex : CBlockIndex} (hok : acceptBlockHeader ctx tree block = .ok (pindex, tree')) :
    tree'.find (block.getHash ctx.hash) = some pindex ∧ ∀ h, tree'.hasData h = tree.hasData h := by
  rw [acceptBlockHeader] at hok
  cases hfind : tree.find (block.getHash ctx.hash) with
  | some known =>
      rw [hfind] at hok
      obtain ⟨-, heq⟩ := ite_invalid_eq_ok.mp hok
      cases heq
      exact ⟨hfind, fun _ => rfl⟩
  | none =>
      rw [hfind] at hok
      simp only [bind_eq_ok] at hok
      obtain ⟨-, -, prev, -, -, -, heq⟩ := hok
      cases heq
      obtain ⟨_, hsome, -⟩ | ⟨-, hnew, hother⟩ :=
        tree.find_addToBlockIndex (block.getHash ctx.hash) block
      · rw [hfind] at hsome
        cases hsome
      refine ⟨hnew, fun h => ?_⟩
      by_cases hh : h = block.getHash ctx.hash
      · subst hh
        rw [BlockTree.hasData_of_find hnew, BlockTree.newEntry_noData,
          BlockTree.hasData_of_find_none hfind]
      · apply BlockTree.hasData_of_status
        rw [BlockTree.status, hother h hh, BlockTree.status]

/-- The data of one block have come. -/
theorem hasData_receivedBlockTransactions (tree : BlockTree) (hash : Uint256) (block : CBlock)
    (pindex : CBlockIndex) (pos : CDiskBlockPos) (h : Uint256) :
    (tree.receivedBlockTransactions hash block pindex pos).hasData h =
      (tree.hasData h || h == hash) := by
  obtain ⟨⟨nStatus, hself, hdata⟩, hother⟩ :=
    tree.status_receivedBlockTransactions hash block pindex pos
  by_cases hh : h = hash
  · subst hh
    rw [BlockTree.hasData, hself, beq_self_eq_true, Bool.or_true]
    exact hdata
  · rw [BlockTree.hasData_of_status (hother h hh), beq_eq_false_iff_ne.mpr hh, Bool.or_false]

/-- What storing a block changes: if it succeeds, the block has its data. -/
theorem storeBlock_spec (ctx : AcceptContext) (tree : BlockTree) (hash : Uint256) (block : CBlock)
    (pindex : CBlockIndex) (dbp : Option CDiskBlockPos) (h : Uint256) :
    (storeBlock ctx tree hash block pindex dbp).2.hasData h =
      (tree.hasData h || ((storeBlock ctx tree hash block pindex dbp).1.isOk && h == hash)) := by
  simp only [storeBlock]
  have hfind := tree.find_findBlockPos dbp (UInt32.ofNat (CBlock.codec.ser block).length + 8)
    (UInt32.ofInt pindex.nHeight) (UInt64.ofNat block.nTime.toNat) ctx.diskSpaceOk h
  rcases hpos : tree.findBlockPos dbp (UInt32.ofNat (CBlock.codec.ser block).length + 8)
    (UInt32.ofInt pindex.nHeight) (UInt64.ofNat block.nTime.toNat) ctx.diskSpaceOk with ⟨pos, tree'⟩
  -- the files are no part of the index
  have hfiles : tree'.hasData h = tree.hasData h := by
    rw [hpos] at hfind
    apply BlockTree.hasData_of_status
    rw [BlockTree.status, hfind, BlockTree.status]
  cases pos with
  | none => simp [Except.isOk, Except.toBool, hfiles]
  | some pos =>
      cases dbp with
      | some _ =>
          simp only
          rw [hasData_receivedBlockTransactions, hfiles]
          rfl
      | none =>
          simp only
          split_ifs
          · rw [hasData_receivedBlockTransactions, hfiles]
            rfl
          · simp [Except.isOk, Except.toBool, hfiles]

/-- **What a block changes**: if the call succeeds, the block has its data; the other
blocks have what they had. -/
theorem acceptBlock_spec (ctx : AcceptContext) (tree : BlockTree) (block : CBlock)
    (dbp : Option CDiskBlockPos) (h : Uint256) :
    (acceptBlock ctx tree block dbp).2.hasData h =
      (tree.hasData h ||
        ((acceptBlock ctx tree block dbp).1.isOk && h == block.getHash ctx.hash)) := by
  rw [acceptBlock]
  cases hheader : acceptBlockHeader ctx.toContext tree block.toCBlockHeader with
  | error e => simp [Except.isOk, Except.toBool]
  | ok p =>
      obtain ⟨pindex, tree'⟩ := p
      obtain ⟨hfind, hsame⟩ := acceptBlockHeader_spec hheader
      simp only
      split_ifs with hdata
      · have hhas : tree'.hasData (block.getHash ctx.hash) = true := by
          rw [BlockTree.hasData_of_find hfind, hdata]
        rw [← hsame h]
        by_cases hh : h = block.getHash ctx.hash
        · rw [hh, hhas]
          rfl
        · rw [beq_eq_false_iff_ne.mpr hh, Bool.and_false, Bool.or_false]
      split
      · rename_i e _
        rw [← hsame h]
        simp only [Except.isOk, Except.toBool, Bool.false_and, Bool.or_false]
        split_ifs
        · by_cases hh : h = block.getHash ctx.hash
          · subst hh
            rw [BlockTree.hasData_of_find (BlockTree.find_put_self ..),
              BlockTree.hasData_of_find hfind]
            simp only [hasStatus_or]
            rw [show hasStatus blockFailedValid blockHaveData = false from by decide, Bool.or_false]
          · exact BlockTree.hasData_of_status (BlockTree.status_put_of_ne _ _ hh)
        · rfl
      · rw [storeBlock_spec, hsame h]

/-! ## Runs -/

/-- A call on the index. -/
inductive IndexStep where
  | onHeader (ctx : Context) (block : CBlockHeader)
  | onBlock (ctx : AcceptContext) (block : CBlock) (dbp : Option CDiskBlockPos)

/-- The index after a call. -/
def IndexStep.apply (tree : BlockTree) : IndexStep → BlockTree
  | .onHeader ctx block => match acceptBlockHeader ctx tree block with
    | .error _ => tree
    | .ok (_, tree) => tree
  | .onBlock ctx block dbp => (acceptBlock ctx tree block dbp).2

/-- The block that a call has stored, or found stored: an `AcceptBlock` that returned
`true`. -/
def IndexStep.stores (tree : BlockTree) : IndexStep → Option Uint256
  | .onHeader _ _ => none
  | .onBlock ctx block dbp =>
    if (acceptBlock ctx tree block dbp).1.isOk then some (block.getHash ctx.hash) else none

/-- The index after a run. -/
def runIndex : List IndexStep → BlockTree → BlockTree
  | [], tree => tree
  | step :: steps, tree => runIndex steps (step.apply tree)

/-- The blocks that the run has stored. -/
def storedBlocks : List IndexStep → BlockTree → List Uint256
  | [], _ => []
  | step :: steps, tree => (step.stores tree).toList ++ storedBlocks steps (step.apply tree)

theorem hasData_apply (step : IndexStep) (tree : BlockTree) (h : Uint256) :
    (step.apply tree).hasData h = true ↔ tree.hasData h = true ∨ h ∈ step.stores tree := by
  cases step with
  | onHeader ctx block =>
      have hsame : (IndexStep.apply tree (.onHeader ctx block)).hasData h = tree.hasData h := by
        rw [IndexStep.apply]
        split
        · rfl
        · exact (acceptBlockHeader_spec ‹_›).2 h
      simp [hsame, IndexStep.stores]
  | onBlock ctx block dbp =>
      rw [IndexStep.apply, acceptBlock_spec, IndexStep.stores, Bool.or_eq_true, Bool.and_eq_true,
        beq_iff_eq]
      split_ifs with hok
      · simp [hok, @eq_comm _ h]
      · simp [hok]

/-- **The blocks with data**: after any run of headers and blocks, those that had data
before and those that some `AcceptBlock` of the run has stored. -/
theorem hasData_runIndex (steps : List IndexStep) (tree : BlockTree) (h : Uint256) :
    (runIndex steps tree).hasData h = true ↔
      tree.hasData h = true ∨ h ∈ storedBlocks steps tree := by
  induction steps generalizing tree with
  | nil => simp [runIndex, storedBlocks]
  | cons step steps ih =>
      rw [runIndex, ih, hasData_apply, storedBlocks, List.mem_append, Option.mem_toList, Option.mem_def, or_assoc]

end Hivemind
