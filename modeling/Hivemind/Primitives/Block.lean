import Mathlib.Data.Nat.Size
import Hivemind.Primitives.Transaction

/-!
# Blocks

The data model of `primitives/block.h` with the merkle tree of `primitives/block.cpp`, the
compact form of a target (`arith_uint256.cpp`), and what a network fixes (`chainparams.h`).

The merkle tree is computed level by level here, with the flag that `BuildMerkleTree` sets when
two neighbours at the end of a level are the same; the vector in which the source keeps the
levels is compared with this in a module of its own.  Targets are natural numbers below
`2 ^ 256`, and the words on which the source computes them are compared with these in another one.

* `CBlockHeader`, `CBlock`: the records and their wire format.
* `CBlock.buildMerkleTree`: the root of the transactions and the `mutated` flag.
* `setCompact`, `getCompact`: a target from its compact form, and back.
* `CChainParams`, `mainParams`: what a network fixes, and the main network.
* `checkProofOfWork`, `getBlockValue`: the checks and the subsidy that depend on it.
-/

namespace Hivemind

open Codecs

/-! ## Headers and blocks -/

/-- `CBlockHeader`. -/
structure CBlockHeader where
  nVersion : Int32 := 2
  hashPrevBlock : Uint256 := Blob.null
  hashMerkleRoot : Uint256 := Blob.null
  nTime : UInt32 := 0
  nBits : UInt32 := 0
  nNonce : UInt32 := 0
  deriving DecidableEq

/-- `CBlock`. -/
structure CBlock extends CBlockHeader where
  vtx : List CTransaction := []
  deriving DecidableEq

namespace CBlockHeader

def codec : Codec CBlockHeader :=
  Codec.iso
    (Codec.i32.prod (Blob.codec.prod (Blob.codec.prod (Codec.u32.prod (Codec.u32.prod Codec.u32)))))
    (fun p => ⟨p.1, p.2.1, p.2.2.1, p.2.2.2.1, p.2.2.2.2.1, p.2.2.2.2.2⟩)
    (fun h => (h.nVersion, h.hashPrevBlock, h.hashMerkleRoot, h.nTime, h.nBits, h.nNonce))
    (fun _ => rfl) (fun _ => rfl)

/-- `CBlockHeader::GetHash`. -/
def getHash (hash : Bytes → Uint256) (h : CBlockHeader) : Uint256 := hash (codec.ser h)

end CBlockHeader

def CBlock.codec : Codec CBlock :=
  Codec.iso (CBlockHeader.codec.prod (vectorCodec CTransaction.codec))
    (fun p => ⟨p.1, p.2⟩) (fun b => (b.toCBlockHeader, b.vtx)) (fun _ => rfl) (fun _ => rfl)

/-! ## The merkle tree -/

section Merkle

variable (hash : Bytes → Uint256)

/-- `Hash(a, b)`: the hash of two hashes side by side. -/
def hashPair (a b : Uint256) : Uint256 := hash (a.val ++ b.val)

/-- One level of the tree from the one below; an odd last hash is paired with itself. -/
def merkleLevel : List Uint256 → List Uint256
  | [] => []
  | [a] => [hashPair hash a a]
  | a :: b :: hs => hashPair hash a b :: merkleLevel hs

/-- Two identical hashes at the end of a level. -/
def mutatedLevel : List Uint256 → Bool
  | [] => false
  | [_] => false
  | [a, b] => a == b
  | _ :: _ :: hs => mutatedLevel hs

/-- The levels from `hs` up, with the `mutated` flag. -/
def merkleLevels : Nat → List Uint256 → Uint256 × Bool
  | _, [] => (Blob.null, false)
  | _, [root] => (root, false)
  | 0, root :: _ => (root, false)
  | fuel + 1, hs =>
    let (root, mutated) := merkleLevels fuel (merkleLevel hash hs)
    (root, mutatedLevel hs || mutated)

/-- `CBlock::BuildMerkleTree`: the root and the `mutated` flag. -/
def CBlock.buildMerkleTree (block : CBlock) : Uint256 × Bool :=
  merkleLevels hash block.vtx.length (block.vtx.map (CTransaction.getHash hash))

end Merkle

/-! ## Proof of work -/

/-- `arith_uint256::SetCompact`: the target, `fNegative` and `fOverflow`. -/
def setCompact (nCompact : UInt32) : Nat × Bool × Bool :=
  let nSize := nCompact.toNat / 2 ^ 24
  let nWord := nCompact.toNat % 2 ^ 23
  let word := if nSize ≤ 3 then nWord / 2 ^ (8 * (3 - nSize)) else nWord
  let target := if nSize ≤ 3 then word else word * 2 ^ (8 * (nSize - 3)) % 2 ^ 256
  let fNegative := word ≠ 0 ∧ nCompact.toNat / 2 ^ 23 % 2 ≠ 0
  let fOverflow :=
    word ≠ 0 ∧ (34 < nSize ∨ (0xff < word ∧ 33 < nSize) ∨ (0xffff < word ∧ 32 < nSize))
  (target, fNegative, fOverflow)

/-- `arith_uint256::GetCompact`, of a number below `2 ^ 256`. -/
def getCompact (bn : Nat) : UInt32 :=
  let nSize := (bn.size + 7) / 8
  let nCompact := if nSize ≤ 3 then bn * 2 ^ (8 * (3 - nSize)) else bn / 2 ^ (8 * (nSize - 3))
  -- the bit 0x00800000 is the sign
  let (nCompact, nSize) :=
    if nCompact / 2 ^ 23 % 2 ≠ 0 then (nCompact / 2 ^ 8, nSize + 1) else (nCompact, nSize)
  UInt32.ofNat (nCompact + nSize * 2 ^ 24)

/-- What a network fixes. -/
structure CChainParams where
  fSkipProofOfWorkCheck : Bool
  fAllowMinDifficultyBlocks : Bool
  proofOfWorkLimit : Nat
  nSubsidyHalvingInterval : Nat
  nEnforceBlockUpgradeMajority : Nat
  nRejectBlockOutdatedMajority : Nat
  nToCheckBlockUpgradeMajority : Nat
  nTargetTimespan : Int
  nTargetSpacing : Int
  hashGenesisBlock : Uint256
  /-- `Checkpoints().mapCheckpoints`, in the order of the heights. -/
  mapCheckpoints : List (Int × Uint256)

/-- `CMainParams`, with the given genesis block. -/
def mainParams (hashGenesisBlock : Uint256) : CChainParams where
  fSkipProofOfWorkCheck := true
  fAllowMinDifficultyBlocks := false
  proofOfWorkLimit := 2 ^ 224 - 1
  nSubsidyHalvingInterval := 210000
  nEnforceBlockUpgradeMajority := 750
  nRejectBlockOutdatedMajority := 950
  nToCheckBlockUpgradeMajority := 1000
  nTargetTimespan := 14 * 24 * 60 * 60
  nTargetSpacing := 10 * 60
  hashGenesisBlock := hashGenesisBlock
  mapCheckpoints := []

/-- `CChainParams::Interval`. -/
def CChainParams.interval (params : CChainParams) : Int :=
  params.nTargetTimespan.tdiv params.nTargetSpacing

/-- `Checkpoints::GetTotalBlocksEstimate`. -/
def CChainParams.getTotalBlocksEstimate (params : CChainParams) (fEnabled : Bool) : Int :=
  if fEnabled then (params.mapCheckpoints.getLast?.map Prod.fst).getD 0 else 0

/-- `CheckProofOfWork`. -/
def checkProofOfWork (params : CChainParams) (hash : Uint256) (nBits : UInt32) : Bool :=
  params.fSkipProofOfWorkCheck ||
    let (bnTarget, fNegative, fOverflow) := setCompact nBits
    !(fNegative || bnTarget == 0 || fOverflow || params.proofOfWorkLimit < bnTarget) &&
      leNat hash.val ≤ bnTarget

/-- `GetBlockValue`. -/
def getBlockValue (params : CChainParams) (nHeight : Int) (nFees : CAmount) : CAmount :=
  let halvings := nHeight.tdiv params.nSubsidyHalvingInterval
  if 64 ≤ halvings then nFees
  else (50 * coin) >>> Int64.ofInt halvings + nFees

end Hivemind
