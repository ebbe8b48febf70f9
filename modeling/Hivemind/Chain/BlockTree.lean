import Hivemind.Chain.BlockIndex
import Hivemind.Lib.OrdMap
import Mathlib.Data.List.Sort

/-!
# The block tree

`mapBlockIndex` and what goes with it in `main.cpp`: the entries of all known headers, the blocks
whose data have come, the candidates for the tip and the block files.  An entry is added by its
header (`AddToBlockIndex`) and gets its data later (`ReceivedBlockTransactions`), in any order.

A block whose parent has no `nChainTx` yet waits in `mapBlocksUnlinked`; when the parent gets its
own, the loop of `ReceivedBlockTransactions` links the blocks that waited for it, and those that
waited for these.  The loop runs on fuel, one turn for each block that waits and one for the
first.  `GetNextWorkRequired` and the median of the last times are here too, since a header is
checked against them before it is added.

What is proved in this module is what each function leaves in the index, one fact for one
function; the invariants of whole runs are built on these.

* `find_addToBlockIndex`: what a header adds to the index.
* `getMedianTimePast_eq`: the median, by a sort that computes.
* `map_find_linkBlocks`: linking blocks that have waited for a parent changes `nChainTx` only.
* `status_receivedBlockTransactions`: what the data of a block change.
-/

namespace Hivemind

open Codecs Ordered

/-! ## Work -/

/-- `GetBlockProof`. -/
def getBlockProof (nBits : UInt32) : Nat :=
  let (bnTarget, fNegative, fOverflow) := setCompact nBits
  if fNegative || fOverflow || bnTarget == 0 then 0
  else (2 ^ 256 - 1 - bnTarget) / (bnTarget + 1) + 1

/-! ## Block files -/

/-- `CBlockFileInfo`. -/
structure CBlockFileInfo where
  nBlocks : UInt32 := 0
  nSize : UInt32 := 0
  nUndoSize : UInt32 := 0
  nHeightFirst : UInt32 := 0
  nHeightLast : UInt32 := 0
  nTimeFirst : UInt64 := 0
  nTimeLast : UInt64 := 0
  deriving DecidableEq

/-- `CBlockFileInfo::AddBlock`. -/
def CBlockFileInfo.addBlock (info : CBlockFileInfo) (nHeightIn : UInt32) (nTimeIn : UInt64) :
    CBlockFileInfo :=
  { info with
    nHeightFirst :=
      if info.nBlocks = 0 ∨ nHeightIn < info.nHeightFirst then nHeightIn else info.nHeightFirst
    nTimeFirst := if info.nBlocks = 0 ∨ nTimeIn < info.nTimeFirst then nTimeIn else info.nTimeFirst
    nBlocks := info.nBlocks + 1
    nHeightLast := if info.nHeightLast < nHeightIn then nHeightIn else info.nHeightLast
    nTimeLast := if info.nTimeLast < nTimeIn then nTimeIn else info.nTimeLast }

def maxBlockFileSize : UInt32 := 0x8000000
def blockFileChunkSize : UInt32 := 0x1000000

/-! ## The state -/

/-- The block index and the variables that the functions of this file share. -/
structure BlockTree where
  mapBlockIndex : OrdMap Uint256 CBlockIndex := OrdMap.empty
  setBlockIndexCandidates : List Uint256 := []
  /-- `mapBlocksUnlinked`: parent and child. -/
  mapBlocksUnlinked : List (Uint256 × Uint256) := []
  pindexBestHeader : Option Uint256 := none
  nBlockSequenceId : UInt32 := 1
  vinfoBlockFile : List CBlockFileInfo := []
  nLastBlockFile : Nat := 0

namespace BlockTree

/-- `mapBlockIndex.find`. -/
def find (tree : BlockTree) (hash : Uint256) : Option CBlockIndex := tree.mapBlockIndex.find hash

/-- Write an entry back. -/
def put (tree : BlockTree) (hash : Uint256) (pindex : CBlockIndex) : BlockTree :=
  { tree with mapBlockIndex := tree.mapBlockIndex.put hash pindex }

@[simp] theorem find_put_self (tree : BlockTree) (hash : Uint256) (pindex : CBlockIndex) :
    (tree.put hash pindex).find hash = some pindex := OrdMap.find_put_self ..

theorem find_put_of_ne (tree : BlockTree) (pindex : CBlockIndex) {hash h : Uint256}
    (hne : h ≠ hash) : (tree.put hash pindex).find h = tree.find h :=
  OrdMap.find_put_of_ne _ _ hne

/-- The entry of the parent. -/
def prev (tree : BlockTree) (pindex : CBlockIndex) : Option CBlockIndex :=
  pindex.pprev.bind tree.find

/-- The entry and its ancestors, at most `n` of them. -/
def ancestors (tree : BlockTree) : Nat → Option CBlockIndex → List CBlockIndex
  | 0, _ => []
  | _, none => []
  | n + 1, some pindex => pindex :: tree.ancestors n (tree.prev pindex)

/-- The entry `n` blocks below. -/
def ancestor (tree : BlockTree) : Nat → CBlockIndex → Option CBlockIndex
  | 0, pindex => some pindex
  | n + 1, pindex => (tree.prev pindex).bind (tree.ancestor n)

/-- `CBlockIndex::GetMedianTimePast`: the median of the times of the last 11 blocks. -/
def getMedianTimePast (tree : BlockTree) (pindex : CBlockIndex) : Nat :=
  let times := ((tree.ancestors 11 (some pindex)).map fun p => p.nTime.toNat).mergeSort
  times.getD (times.length / 2) 0

/-- The median by a sort that computes. -/
theorem getMedianTimePast_eq (tree : BlockTree) (pindex : CBlockIndex) :
    tree.getMedianTimePast pindex =
      (((tree.ancestors 11 (some pindex)).map fun p => p.nTime.toNat).insertionSort (· ≤ ·)).getD
        ((tree.ancestors 11 (some pindex)).length / 2) 0 := by
  rw [getMedianTimePast]
  simp only [List.length_mergeSort, List.length_map]
  congr 1
  exact List.mergeSort_eq_insertionSort (· ≤ ·) _

/-- The loop of `GetNextWorkRequired` back to the last block that was not mined under
the rule for test networks; it stops at height 0. -/
def lastOrdinary (tree : BlockTree) (params : CChainParams) : Nat → CBlockIndex → CBlockIndex
  | 0, pindex => pindex
  | n + 1, pindex => match tree.prev pindex with
    | none => pindex
    | some pprev =>
      if pindex.nHeight.tmod params.interval ≠ 0 ∧
          pindex.nBits = getCompact params.proofOfWorkLimit then tree.lastOrdinary params n pprev
      else pindex

/-- The new target, from the old one and the time that the last interval took.  The
time is multiplied as an `uint32_t`. -/
def retarget (params : CChainParams) (nBits : UInt32) (nActualTimespan : Int) : UInt32 :=
  let nActualTimespan := max nActualTimespan (params.nTargetTimespan.tdiv 4)
  let nActualTimespan := min nActualTimespan (params.nTargetTimespan * 4)
  let bnNew := (setCompact nBits).1 * (nActualTimespan % 2 ^ 32).toNat % 2 ^ 256 /
    params.nTargetTimespan.toNat
  getCompact (min bnNew params.proofOfWorkLimit)

/-- `GetNextWorkRequired`; `none` is the failed assertion. -/
def getNextWorkRequired (tree : BlockTree) (params : CChainParams)
    (pindexLast : Option CBlockIndex) (pblock : CBlockHeader) : Option UInt32 :=
  let nProofOfWorkLimit := getCompact params.proofOfWorkLimit
  match pindexLast with
  | none => some nProofOfWorkLimit
  | some pindexLast =>
    if (pindexLast.nHeight + 1).tmod params.interval ≠ 0 then
      if params.fAllowMinDifficultyBlocks then
        if pindexLast.nTime.toNat + params.nTargetSpacing * 2 < pblock.nTime.toNat then
          some nProofOfWorkLimit
        else some (tree.lastOrdinary params pindexLast.nHeight.toNat pindexLast).nBits
      else some pindexLast.nBits
    else do
      let pindexFirst ← tree.ancestor (params.interval - 1).toNat pindexLast
      some (retarget params pindexLast.nBits (pindexLast.nTime.toNat - pindexFirst.nTime.toNat))

/-! ## Headers -/

/-- Link a new entry to its parent, which is looked up when the entry itself is in the
map. -/
def linkParent (tree : BlockTree) (hash : Uint256) (block : CBlockHeader)
    (pindexNew : CBlockIndex) : CBlockIndex :=
  match (tree.put hash pindexNew).find block.hashPrevBlock with
  | none => { pindexNew with nChainWork := getBlockProof block.nBits % 2 ^ 256 }
  | some pprev =>
    { pindexNew with
      pprev := some block.hashPrevBlock
      nHeight := pprev.nHeight + 1
      nChainWork := (pprev.nChainWork + getBlockProof block.nBits) % 2 ^ 256 }

/-- The new entry of a header that is not in the index. -/
def newEntry (tree : BlockTree) (hash : Uint256) (block : CBlockHeader) : CBlockIndex :=
  (tree.linkParent hash block
    { CBlockIndex.ofHeader block with phashBlock := some hash }).raiseValidity blockValidTree

/-- `AddToBlockIndex`. -/
def addToBlockIndex (tree : BlockTree) (hash : Uint256) (block : CBlockHeader) : BlockTree :=
  match tree.find hash with
  | some _ => tree
  | none =>
    let pindexNew := tree.newEntry hash block
    let best := match tree.pindexBestHeader.bind tree.find with
      | none => some hash
      | some pindexBest =>
        if pindexBest.nChainWork < pindexNew.nChainWork then some hash else tree.pindexBestHeader
    { tree.put hash pindexNew with pindexBestHeader := best }

/-! ## Data -/

/-- One turn of the loop of `ReceivedBlockTransactions`: the block gets its `nChainTx`,
becomes a candidate, and its children no longer wait for it. -/
def linkBlock (tree : BlockTree) (hash : Uint256) (pindex : CBlockIndex) : BlockTree :=
  let nPrevTx := ((tree.prev pindex).map CBlockIndex.nChainTx).getD 0
  { tree.put hash { pindex with nChainTx := nPrevTx + pindex.nTx } with
    setBlockIndexCandidates :=
      if hash ∈ tree.setBlockIndexCandidates then tree.setBlockIndexCandidates
      else hash :: tree.setBlockIndexCandidates
    mapBlocksUnlinked := tree.mapBlocksUnlinked.filter fun u => u.1 != hash }

/-- The loop of `ReceivedBlockTransactions` over the blocks that may now be connected.
Every block but the first comes out of `mapBlocksUnlinked`, which bounds the loop. -/
def linkBlocks : Nat → List Uint256 → BlockTree → BlockTree
  | 0, _, tree => tree
  | _, [], tree => tree
  | n + 1, hash :: queue, tree => match tree.find hash with
    | none => linkBlocks n queue tree
    | some pindex =>
      let children := (tree.mapBlocksUnlinked.filter fun u => u.1 == hash).map Prod.snd
      linkBlocks n (queue ++ children) (tree.linkBlock hash pindex)

/-- What `ReceivedBlockTransactions` writes to the entry of the block. -/
def receivedEntry (tree : BlockTree) (block : CBlock) (pindex : CBlockIndex) (pos : CDiskBlockPos) :
    CBlockIndex :=
  { { pindex with
      nTx := UInt32.ofNat block.vtx.length
      nChainTx := 0
      nFile := pos.nFile
      nDataPos := pos.nPos
      nUndoPos := 0
      nStatus := pindex.nStatus ||| blockHaveData }.raiseValidity blockValidTransactions with
    nSequenceId := tree.nBlockSequenceId }

/-- The part of `ReceivedBlockTransactions` after the entry is written: the block is
linked, with those that have waited for it, or waits for its parent. -/
def linkReceived (tree : BlockTree) (hash : Uint256) (pindexNew : CBlockIndex) : BlockTree :=
  match pindexNew.pprev, tree.prev pindexNew with
  | none, _ => linkBlocks (tree.mapBlocksUnlinked.length + 1) [hash] tree
  | some _, none => tree
  | some prevHash, some pprev =>
    if pprev.nChainTx ≠ 0 then linkBlocks (tree.mapBlocksUnlinked.length + 1) [hash] tree
    else if pprev.isValid blockValidTree then
      { tree with mapBlocksUnlinked := tree.mapBlocksUnlinked ++ [(prevHash, hash)] }
    else tree

/-- `ReceivedBlockTransactions`. -/
def receivedBlockTransactions (tree : BlockTree) (hash : Uint256) (block : CBlock)
    (pindex : CBlockIndex) (pos : CDiskBlockPos) : BlockTree :=
  let pindexNew := tree.receivedEntry block pindex pos
  linkReceived { tree.put hash pindexNew with nBlockSequenceId := tree.nBlockSequenceId + 1 } hash
    pindexNew

/-- `vinfoBlockFile.resize(nFile + 1)`, if it is shorter. -/
def withFile (files : List CBlockFileInfo) (nFile : Nat) : List CBlockFileInfo :=
  files ++ List.replicate (nFile + 1 - files.length) ({} : CBlockFileInfo)

/-- The loop of `FindBlockPos` that leaves the files which are full.  A file that has
not been used ends it, for blocks smaller than a file. -/
def leaveFullFiles (nAddSize : UInt32) : Nat → Nat → List CBlockFileInfo → Nat × List CBlockFileInfo
  | 0, nFile, files => (nFile, files)
  | n + 1, nFile, files =>
    if maxBlockFileSize ≤ (files.getD nFile {}).nSize + nAddSize then
      leaveFullFiles nAddSize n (nFile + 1) (withFile files (nFile + 1))
    else (nFile, files)

/-- `FindBlockPos`: a position for the block, which is the given one if there is one,
and whether there is room on the disk. -/
def findBlockPos (tree : BlockTree) (dbp : Option CDiskBlockPos) (nAddSize nHeight : UInt32)
    (nTime : UInt64) (diskSpaceOk : Bool) : Option CDiskBlockPos × BlockTree :=
  let start := match dbp with
    | some pos => pos.nFile.toNat
    | none => tree.nLastBlockFile
  let files := withFile tree.vinfoBlockFile start
  let (nFile, files) := match dbp with
    | some _ => (start, files)
    | none => leaveFullFiles nAddSize (files.length + 1) start files
  let info := files.getD nFile {}
  let pos := dbp.getD ⟨nFile, info.nSize⟩
  let info' := { info with nSize := info.nSize + nAddSize }.addBlock nHeight nTime
  let nOldChunks := (pos.nPos + blockFileChunkSize - 1) / blockFileChunkSize
  let nNewChunks := (info'.nSize + blockFileChunkSize - 1) / blockFileChunkSize
  let ok := dbp.isSome || !(nOldChunks < nNewChunks) || diskSpaceOk
  (if ok then some pos else none,
    { tree with vinfoBlockFile := files.set nFile info', nLastBlockFile := nFile })

/-! ## What the functions leave in the index -/

/-- The status of an entry, if there is one. -/
def status (tree : BlockTree) (hash : Uint256) : Option BlockStatus :=
  (tree.find hash).map CBlockIndex.nStatus

theorem status_put_of_ne (tree : BlockTree) (pindex : CBlockIndex) {hash h : Uint256}
    (hne : h ≠ hash) : (tree.put hash pindex).status h = tree.status h := by
  rw [status, find_put_of_ne _ _ hne, status]

/-- A new entry has no flags. -/
theorem newEntry_noStatus (tree : BlockTree) (hash : Uint256) (block : CBlockHeader)
    {flag : BlockStatus} (hmask : ~~~blockValidMask &&& flag = flag)
    (hup : hasStatus blockValidTree flag = false) :
    hasStatus (tree.newEntry hash block).nStatus flag = false := by
  have hlink : ∀ pindex, (tree.linkParent hash block pindex).nStatus = pindex.nStatus := by
    intro pindex
    unfold linkParent
    split <;> rfl
  rw [newEntry, CBlockIndex.hasStatus_raiseValidity _ hmask hup, hlink]
  show (0 &&& flag != 0) = false
  simp

/-- A new entry has no data. -/
theorem newEntry_noData (tree : BlockTree) (hash : Uint256) (block : CBlockHeader) :
    hasStatus (tree.newEntry hash block).nStatus blockHaveData = false :=
  newEntry_noStatus tree hash block (by decide) (by decide)

/-- What is in a new entry besides the header. -/
structure IsNew (tree : BlockTree) (hash : Uint256) (block : CBlockHeader) (p : CBlockIndex) :
    Prop where
  phashBlock : p.phashBlock = some hash
  nTx : p.nTx = 0
  nChainTx : p.nChainTx = 0
  nSequenceId : p.nSequenceId = 0
  nBits : p.nBits = block.nBits
  /-- The parent, if it is known.  The header of a block that names itself as its parent
  would find its own entry. -/
  parent : (p.pprev = none ∧ p.nHeight = 0 ∧ p.nChainWork = getBlockProof block.nBits % 2 ^ 256) ∨
    (p.pprev = some block.hashPrevBlock ∧ ((block.hashPrevBlock = hash ∧ p.nHeight = 1) ∨
      ∃ q, tree.find block.hashPrevBlock = some q ∧ p.nHeight = q.nHeight + 1 ∧
        p.nChainWork = (q.nChainWork + getBlockProof block.nBits) % 2 ^ 256))

theorem isNew_newEntry (tree : BlockTree) (hash : Uint256) (block : CBlockHeader) :
    IsNew tree hash block (tree.newEntry hash block) := by
  rw [newEntry, CBlockIndex.raiseValidity_eq]
  generalize (CBlockIndex.raiseValidity _ _).nStatus = nStatus
  unfold linkParent
  cases hfind : (tree.put hash { CBlockIndex.ofHeader block with
      phashBlock := some hash }).find block.hashPrevBlock with
  | none => exact ⟨rfl, rfl, rfl, rfl, rfl, Or.inl ⟨rfl, rfl, rfl⟩⟩
  | some pprev =>
      refine ⟨rfl, rfl, rfl, rfl, rfl, Or.inr ⟨rfl, ?_⟩⟩
      by_cases hself : block.hashPrevBlock = hash
      · rw [hself, find_put_self] at hfind
        cases hfind
        exact Or.inl ⟨hself, rfl⟩
      · rw [find_put_of_ne _ _ hself] at hfind
        exact Or.inr ⟨pprev, hfind, rfl, rfl⟩

/-- **What a header adds**: an entry without data, if there is none. -/
theorem find_addToBlockIndex (tree : BlockTree) (hash : Uint256) (block : CBlockHeader) :
    (∃ pindex, tree.find hash = some pindex ∧ tree.addToBlockIndex hash block = tree) ∨
    (tree.find hash = none ∧
      (tree.addToBlockIndex hash block).find hash = some (tree.newEntry hash block) ∧
      ∀ h, h ≠ hash → (tree.addToBlockIndex hash block).find h = tree.find h) := by
  unfold addToBlockIndex
  cases hfind : tree.find hash with
  | some pindex => exact Or.inl ⟨pindex, rfl, rfl⟩
  | none =>
      exact Or.inr ⟨rfl, find_put_self .., fun h hne => find_put_of_ne tree _ hne⟩

/-- Linking a block changes its `nChainTx` only. -/
theorem map_find_linkBlock {α : Type} {f : CBlockIndex → α}
    (hf : ∀ p nChainTx, f { p with nChainTx := nChainTx } = f p) {tree : BlockTree}
    {hash : Uint256} {pindex : CBlockIndex} (hfind : tree.find hash = some pindex) (h : Uint256) :
    ((tree.linkBlock hash pindex).find h).map f = (tree.find h).map f := by
  by_cases hh : h = hash
  · subst hh
    rw [hfind]
    show Option.map f ((tree.put h _).find h) = _
    rw [find_put_self, Option.map_some, hf, Option.map_some]
  · show Option.map f ((tree.put hash _).find h) = _
    rw [find_put_of_ne _ _ hh]

theorem map_find_linkBlocks {α : Type} {f : CBlockIndex → α}
    (hf : ∀ p nChainTx, f { p with nChainTx := nChainTx } = f p) (n : Nat) (queue : List Uint256)
    (tree : BlockTree) (h : Uint256) :
    ((linkBlocks n queue tree).find h).map f = (tree.find h).map f := by
  induction n generalizing queue tree with
  | zero => rfl
  | succ n ih =>
      cases queue with
      | nil => rfl
      | cons hash queue =>
          rw [linkBlocks]
          cases hfind : tree.find hash with
          | none => exact ih ..
          | some pindex => exact (ih ..).trans (map_find_linkBlock hf hfind h)

theorem map_find_linkReceived {α : Type} {f : CBlockIndex → α}
    (hf : ∀ p nChainTx, f { p with nChainTx := nChainTx } = f p) (tree : BlockTree)
    (hash : Uint256) (pindexNew : CBlockIndex) (h : Uint256) :
    ((tree.linkReceived hash pindexNew).find h).map f = (tree.find h).map f := by
  unfold linkReceived
  split
  · exact map_find_linkBlocks hf ..
  · rfl
  · split_ifs
    · exact map_find_linkBlocks hf ..
    · rfl
    · rfl

/-- Linking blocks changes `nChainTx` and no status. -/
theorem status_linkReceived (tree : BlockTree) (hash : Uint256) (pindexNew : CBlockIndex)
    (h : Uint256) : (tree.linkReceived hash pindexNew).status h = tree.status h :=
  map_find_linkReceived (fun _ _ => rfl) tree hash pindexNew h

theorem hasData_receivedEntry (tree : BlockTree) (block : CBlock) (pindex : CBlockIndex)
    (pos : CDiskBlockPos) :
    hasStatus (tree.receivedEntry block pindex pos).nStatus blockHaveData = true := by
  have hraise := CBlockIndex.hasStatus_raiseValidity
    { pindex with
      nTx := UInt32.ofNat block.vtx.length
      nChainTx := 0
      nFile := pos.nFile
      nDataPos := pos.nPos
      nUndoPos := 0
      nStatus := pindex.nStatus ||| blockHaveData }
    (show ~~~blockValidMask &&& blockHaveData = blockHaveData by decide)
    (show hasStatus blockValidTransactions blockHaveData = false by decide)
  rw [hasStatus_or, show hasStatus blockHaveData blockHaveData = true from by decide,
    Bool.or_true] at hraise
  exact hraise

theorem isValid_receivedEntry {tree : BlockTree} {block : CBlock} {pindex : CBlockIndex}
    {pos : CDiskBlockPos} (h : pindex.isValid blockValidTree = true) :
    (tree.receivedEntry block pindex pos).isValid blockValidTree = true := by
  refine CBlockIndex.isValid_raiseValidity (by decide) (by decide) ?_
  simp only [CBlockIndex.isValid, Bool.and_eq_true, Bool.not_eq_true', decide_eq_true_eq] at h ⊢
  refine ⟨?_, ?_⟩
  · rw [hasStatus_or, h.1]
    decide
  · rw [status_or_and, show blockHaveData &&& blockValidMask = 0 by decide, UInt32.or_zero]
    exact h.2

/-- **What the data of a block change**: the block has its data, and the status of the
other blocks is what it was. -/
theorem status_receivedBlockTransactions (tree : BlockTree) (hash : Uint256) (block : CBlock)
    (pindex : CBlockIndex) (pos : CDiskBlockPos) :
    (∃ nStatus, (tree.receivedBlockTransactions hash block pindex pos).status hash = some nStatus ∧
      hasStatus nStatus blockHaveData = true) ∧
    ∀ h, h ≠ hash →
      (tree.receivedBlockTransactions hash block pindex pos).status h = tree.status h := by
  have hstatus : ∀ h, (tree.receivedBlockTransactions hash block pindex pos).status h =
      (tree.put hash (tree.receivedEntry block pindex pos)).status h :=
    fun h => status_linkReceived _ hash _ h
  constructor
  · refine ⟨(tree.receivedEntry block pindex pos).nStatus, ?_, ?_⟩
    · rw [hstatus, status, find_put_self]
      rfl
    · exact hasData_receivedEntry tree block pindex pos
  · intro h hne
    rw [hstatus, status_put_of_ne _ _ hne]

/-- `FindBlockPos` touches the block files only. -/
@[simp] theorem find_findBlockPos (tree : BlockTree) (dbp : Option CDiskBlockPos)
    (nAddSize nHeight : UInt32) (nTime : UInt64) (diskSpaceOk : Bool) (h : Uint256) :
    (tree.findBlockPos dbp nAddSize nHeight nTime diskSpaceOk).2.find h = tree.find h := rfl

end BlockTree
end Hivemind
