import Hivemind.Primitives.Block

/-!
# Block index entries

`chain.h`: what the node keeps about a block besides its data, the header, where the data and the
undo data are on the disk, how far the block has been checked, and the counters that are filled
in when the data come.  A pointer to another entry is the hash under which `mapBlockIndex` holds
it.

`nStatus` is a bit field: its lowest three bits are the validity that has been reached, in
increasing order, and the others are flags.  It is kept as the 32-bit word of the source, and the
names of `BlockStatus` are its constants, so that raising the validity and setting a flag are the
operations of the source on the word.  What they leave alone is said once here, in terms of
`hasStatus`.

* `CBlockIndex.ofHeader`: the entry of a header alone.
* `hasStatus_and_not`: clearing some bits leaves the others.
* `raiseValidity_eq`, `hasStatus_raiseValidity`: raising the validity changes nothing but the
  status, and keeps the flags.
* `isValid_raiseValidity`: it makes no entry less valid.
-/

namespace Hivemind

/-! ## Positions -/

/-- `CDiskBlockPos`; the null position has file number `-1`. -/
structure CDiskBlockPos where
  nFile : Int := -1
  nPos : UInt32 := 0
  deriving DecidableEq

def CDiskBlockPos.isNull (pos : CDiskBlockPos) : Bool := pos.nFile == -1

/-- `CDiskTxPos`. -/
structure CDiskTxPos extends CDiskBlockPos where
  nTxOffset : UInt32
  deriving DecidableEq

/-! ## Status -/

/-- `BlockStatus`. -/
abbrev BlockStatus := UInt32

def blockValidTree : BlockStatus := 2
def blockValidTransactions : BlockStatus := 3
def blockValidScripts : BlockStatus := 5
def blockValidMask : BlockStatus := 7
def blockHaveData : BlockStatus := 8
def blockHaveUndo : BlockStatus := 16
def blockFailedValid : BlockStatus := 32
def blockFailedChild : BlockStatus := 64
def blockFailedMask : BlockStatus := blockFailedValid ||| blockFailedChild

/-- `nStatus & flag`. -/
def hasStatus (nStatus flag : BlockStatus) : Bool := nStatus &&& flag != 0

theorem status_or_and (a b mask : BlockStatus) :
    (a ||| b) &&& mask = (a &&& mask) ||| (b &&& mask) :=
  UInt32.toBitVec_inj.mp BitVec.and_or_distrib_right

@[simp] theorem hasStatus_or (a b flag : BlockStatus) :
    hasStatus (a ||| b) flag = (hasStatus a flag || hasStatus b flag) := by
  rw [Bool.eq_iff_iff, hasStatus, status_or_and]
  simp only [hasStatus, bne_iff_ne, Bool.or_eq_true, ne_eq, UInt32.or_eq_zero_iff, not_and_or]

/-- Clearing the bits of `mask` leaves the others. -/
theorem hasStatus_and_not (a : BlockStatus) {mask flag : BlockStatus}
    (h : ~~~mask &&& flag = flag) : hasStatus (a &&& ~~~mask) flag = hasStatus a flag := by
  rw [hasStatus, UInt32.and_assoc, h, hasStatus]

/-- `CBlockIndex`. -/
structure CBlockIndex where
  phashBlock : Option Uint256 := none
  pprev : Option Uint256 := none
  nHeight : Int := 0
  nFile : Int := 0
  nDataPos : UInt32 := 0
  nUndoPos : UInt32 := 0
  nChainWork : Nat := 0
  nTx : UInt32 := 0
  nChainTx : UInt32 := 0
  nStatus : BlockStatus := 0
  nVersion : Int32 := 0
  hashMerkleRoot : Uint256 := Blob.null
  nTime : UInt32 := 0
  nBits : UInt32 := 0
  nNonce : UInt32 := 0
  nSequenceId : UInt32 := 0
  deriving DecidableEq

namespace CBlockIndex

/-- `CBlockIndex(const CBlockHeader&)`. -/
def ofHeader (block : CBlockHeader) : CBlockIndex where
  nVersion := block.nVersion
  hashMerkleRoot := block.hashMerkleRoot
  nTime := block.nTime
  nBits := block.nBits
  nNonce := block.nNonce

/-- `GetBlockPos`. -/
def getBlockPos (pindex : CBlockIndex) : CDiskBlockPos :=
  if hasStatus pindex.nStatus blockHaveData then ⟨pindex.nFile, pindex.nDataPos⟩ else {}

/-- `GetUndoPos`. -/
def getUndoPos (pindex : CBlockIndex) : CDiskBlockPos :=
  if hasStatus pindex.nStatus blockHaveUndo then ⟨pindex.nFile, pindex.nUndoPos⟩ else {}

/-- `GetBlockHash`. -/
def getBlockHash (pindex : CBlockIndex) : Uint256 := pindex.phashBlock.getD Blob.null

/-- `IsValid`. -/
def isValid (pindex : CBlockIndex) (nUpTo : BlockStatus) : Bool :=
  !hasStatus pindex.nStatus blockFailedMask && nUpTo ≤ pindex.nStatus &&& blockValidMask

/-- `RaiseValidity`. -/
def raiseValidity (pindex : CBlockIndex) (nUpTo : BlockStatus) : CBlockIndex :=
  if hasStatus pindex.nStatus blockFailedMask then pindex
  else if pindex.nStatus &&& blockValidMask < nUpTo then
    { pindex with nStatus := (pindex.nStatus &&& ~~~blockValidMask) ||| nUpTo }
  else pindex

/-- Raising the validity changes nothing but the status. -/
theorem raiseValidity_eq (pindex : CBlockIndex) (nUpTo : BlockStatus) :
    pindex.raiseValidity nUpTo =
      { pindex with nStatus := (pindex.raiseValidity nUpTo).nStatus } := by
  unfold raiseValidity
  split_ifs <;> rfl

/-- Raising the validity keeps the flags. -/
theorem hasStatus_raiseValidity (pindex : CBlockIndex) {nUpTo flag : BlockStatus}
    (hmask : ~~~blockValidMask &&& flag = flag) (hup : hasStatus nUpTo flag = false) :
    hasStatus (pindex.raiseValidity nUpTo).nStatus flag = hasStatus pindex.nStatus flag := by
  unfold raiseValidity
  split_ifs
  · rfl
  · simp [hasStatus_and_not _ hmask, hup]
  · rfl

/-- Raising the validity makes no entry less valid. -/
theorem isValid_raiseValidity {pindex : CBlockIndex} {nUpTo level : BlockStatus}
    (hup : nUpTo &&& blockValidMask = nUpTo) (hfailed : hasStatus nUpTo blockFailedMask = false)
    (h : pindex.isValid level = true) : (pindex.raiseValidity nUpTo).isValid level = true := by
  simp only [isValid, Bool.and_eq_true, Bool.not_eq_true', decide_eq_true_eq] at h ⊢
  refine ⟨?_, ?_⟩
  · rw [hasStatus_raiseValidity pindex (by decide) hfailed]
    exact h.1
  · unfold raiseValidity
    rw [if_neg (by simp [h.1])]
    split_ifs with hlt
    · show level ≤ ((pindex.nStatus &&& ~~~blockValidMask) ||| nUpTo) &&& blockValidMask
      rw [status_or_and, UInt32.and_assoc, show ~~~blockValidMask &&& blockValidMask = 0 by decide,
        UInt32.and_zero, UInt32.zero_or, hup]
      exact UInt32.le_trans h.2 (UInt32.le_of_lt hlt)
    · exact h.2

end CBlockIndex
end Hivemind
