import Hivemind.Chain.BlockTree
import Hivemind.Primitives.CompactTarget

/-!
# The retarget

The work of a block and the step of `GetNextWorkRequired` at the end of an interval (`pow.cpp`),
on the words of `arith_uint256`, for the networks of `chainparams.cpp`.

At the end of an interval the old target is multiplied by the time that the interval took,
clamped to a quarter and to four times the wanted time, and divided by the wanted time.  The
product is formed in 256 bits.  The old target of a network is at most its limit, so whether the
product fits is a question about the limit and the longest time that counts; the limit of the
regression test is too large for it, and those of the other networks are not.

`Retargets` is what the step is meant to do, in numbers without a bound, and the last section is
a chain that is mined at the wanted pace, whose target should not move.

* `getBlockProof_eq`: the work on words is the work that the block tree adds up.
* `newTarget_eq`: the step on words is the step on numbers, with the product cut to 256 bits.
* `not_retargets`: a product that does not fit loses more than the limit can hide.
* `retargets_iff`: **when a retarget is proper.**
* `getNextWorkRequired_paced_regtest`, `getNextWorkRequired_paced_main`: the chain at the wanted
  pace, on a network where the product wraps and on one where it does not.
-/

namespace Hivemind

open BaseUint

/-! ## The work of a block -/

/-- **The work on words** is the work on numbers. -/
theorem getBlockProof_eq (nBits : UInt32) :
    (ArithUint256.getBlockProof nBits).map value = some (getBlockProof nBits) := by
  have hsetCompact := ArithUint256.setCompact_eq nBits
  have hlt := ArithUint256.target_lt nBits
  rw [getBlockProof]
  rw [← hsetCompact] at hlt ⊢
  dsimp only at hlt ⊢
  have hiff : ((ArithUint256.setCompact nBits).2.1 || (ArithUint256.setCompact nBits).2.2 ||
      (ArithUint256.setCompact nBits).1.value == 0) = true ↔ ArithUint256.badTarget nBits := by
    rw [ArithUint256.badTarget, Bool.or_eq_true, Bool.or_eq_true, beq_iff_eq]
    tauto
  by_cases hbad : ArithUint256.badTarget nBits
  · obtain ⟨p, hp, hvalue⟩ := ArithUint256.getBlockProof_of_bad hbad
    rw [hp, Option.map_some, hvalue, if_pos (hiff.mpr hbad)]
  · obtain ⟨p, hp, hvalue⟩ := ArithUint256.getBlockProof_of_proper hbad
    rw [hp, Option.map_some, hvalue, if_neg (mt hiff.mp hbad),
      Nat.div_eq_sub_div (Nat.succ_pos _) hlt.le, Nat.sub_sub, Nat.add_comm 1]

/-! ## The networks -/

/-- `CTestNetParams`. -/
def testNetParams (hashGenesisBlock : Uint256) : CChainParams :=
  { mainParams hashGenesisBlock with
    fAllowMinDifficultyBlocks := true
    nEnforceBlockUpgradeMajority := 51
    nRejectBlockOutdatedMajority := 75
    nToCheckBlockUpgradeMajority := 100
    nTargetTimespan := 14 * 24 * 60 * 60
    nTargetSpacing := 10 * 60 }

/-- `CRegTestParams`. -/
def regTestParams (hashGenesisBlock : Uint256) : CChainParams :=
  { testNetParams hashGenesisBlock with
    fAllowMinDifficultyBlocks := true
    proofOfWorkLimit := 2 ^ 255 - 1
    nSubsidyHalvingInterval := 150
    nEnforceBlockUpgradeMajority := 750
    nRejectBlockOutdatedMajority := 950
    nToCheckBlockUpgradeMajority := 1000
    nTargetTimespan := 14 * 24 * 60 * 60
    nTargetSpacing := 10 * 60 }

/-- `CUnitTestParams`. -/
def unitTestParams (hashGenesisBlock : Uint256) : CChainParams :=
  { mainParams hashGenesisBlock with fAllowMinDifficultyBlocks := false }

/-- `CBaseChainParams::Network`. -/
inductive Network
  | main
  | testnet
  | regtest
  | unittest
  deriving DecidableEq

namespace Network

/-- `Params(network)`, with the given genesis block. -/
def params (hashGenesisBlock : Uint256) : Network → CChainParams
  | main => mainParams hashGenesisBlock
  | testnet => testNetParams hashGenesisBlock
  | regtest => regTestParams hashGenesisBlock
  | unittest => unitTestParams hashGenesisBlock

/-- `bnProofOfWorkLimit`, as the networks compute it. -/
def bnProofOfWorkLimit : Network → ArithUint256
  | main => (ofUInt64 0).not.shr 32
  | testnet => (ofUInt64 0).not.shr 32
  | regtest => (ofUInt64 0).not.shr 1
  | unittest => (ofUInt64 0).not.shr 32

@[simp] theorem value_bnProofOfWorkLimit (net : Network) (hashGenesisBlock : Uint256) :
    net.bnProofOfWorkLimit.value = (net.params hashGenesisBlock).proofOfWorkLimit := by
  cases net <;>
    · rw [bnProofOfWorkLimit, value_shr, value_not, value_ofUInt64 (by norm_num)]
      rfl

@[simp] theorem nTargetTimespan_params (net : Network) (hashGenesisBlock : Uint256) :
    (net.params hashGenesisBlock).nTargetTimespan = 1209600 := by
  cases net <;> rfl

@[simp] theorem interval_params (net : Network) (hashGenesisBlock : Uint256) :
    (net.params hashGenesisBlock).interval = 2016 := by
  cases net <;> rfl

end Network

/-! ## The step -/

/-- The time that the last interval took, as far as it counts. -/
def clampTimespan (nTargetTimespan nActualTimespan : Int) : Int :=
  min (max nActualTimespan (nTargetTimespan.tdiv 4)) (nTargetTimespan * 4)

/-- The new target of `GetNextWorkRequired` before it is made compact; `none` is the
exception for a division by zero. -/
def ArithUint256.newTarget (bnProofOfWorkLimit : ArithUint256) (nTargetTimespan : Int)
    (nBits : UInt32) (nActualTimespan : Int) : Option ArithUint256 :=
  let nActualTimespan := clampTimespan nTargetTimespan nActualTimespan
  let bnNew := (ArithUint256.setCompact nBits).1.mul32 (UInt32.ofInt nActualTimespan)
  (bnNew.div (ofUInt64 (UInt64.ofInt nTargetTimespan))).map fun bnNew =>
    if 0 < bnNew.compareTo bnProofOfWorkLimit then bnProofOfWorkLimit else bnNew

theorem clampTimespan_mem (nActualTimespan : Int) :
    302400 ≤ clampTimespan 1209600 nActualTimespan ∧
      clampTimespan 1209600 nActualTimespan ≤ 4838400 := by
  have hquarter : (1209600 : Int).tdiv 4 = 302400 := rfl
  rw [clampTimespan, hquarter]
  omega

/-- The old target. -/
def oldTarget (nBits : UInt32) : Nat := (ArithUint256.setCompact nBits).1.value

/-- **The step on words** is the step on numbers. -/
theorem newTarget_eq (net : Network) (hashGenesisBlock : Uint256) (nBits : UInt32)
    (nActualTimespan : Int) :
    ∃ bnNew, ArithUint256.newTarget net.bnProofOfWorkLimit 1209600 nBits nActualTimespan =
        some bnNew ∧
      bnNew.value = min
        (oldTarget nBits * (clampTimespan 1209600 nActualTimespan).toNat % 2 ^ 256 / 1209600)
        (net.params hashGenesisBlock).proofOfWorkLimit ∧
      bnNew.getCompact false =
        some (BlockTree.retarget (net.params hashGenesisBlock) nBits nActualTimespan) := by
  have hclamp := clampTimespan_mem nActualTimespan
  have hspan : (UInt32.ofInt (clampTimespan 1209600 nActualTimespan)).toNat =
      (clampTimespan 1209600 nActualTimespan).toNat := by
    rw [UInt32.ofInt, UInt32.toNat_ofNat']
    omega
  have htimespan : (ofUInt64 (UInt64.ofInt 1209600) : ArithUint256).value = 1209600 :=
    value_ofUInt64 (by norm_num) _
  obtain ⟨q, hdiv, hq⟩ := (div_spec
    ((ArithUint256.setCompact nBits).1.mul32
      (UInt32.ofInt (clampTimespan 1209600 nActualTimespan)))
    (ofUInt64 (UInt64.ofInt 1209600))).2 (by rw [htimespan]; norm_num)
  rw [htimespan, value_mul32, hspan, ← oldTarget] at hq
  have hlimit := net.value_bnProofOfWorkLimit hashGenesisBlock
  have hvalue : (if 0 < q.compareTo net.bnProofOfWorkLimit then net.bnProofOfWorkLimit
      else q).value = min q.value (net.params hashGenesisBlock).proofOfWorkLimit := by
    rw [← hlimit]
    by_cases hlarge : net.bnProofOfWorkLimit.value < q.value
    · rw [if_pos (compareTo_pos.mpr hlarge), Nat.min_eq_right hlarge.le]
    · rw [if_neg (mt compareTo_pos.mp hlarge), Nat.min_eq_left (Nat.le_of_not_lt hlarge)]
  have hold : (setCompact nBits).1 = oldTarget nBits :=
    (congrArg Prod.fst (ArithUint256.setCompact_eq nBits)).symm
  refine ⟨_, by rw [ArithUint256.newTarget, hdiv, Option.map_some], ?_, ?_⟩
  · rw [hvalue, hq]
  · have hmod : clampTimespan 1209600 nActualTimespan % 2 ^ 32 =
        clampTimespan 1209600 nActualTimespan := Int.emod_eq_of_lt (by omega) (by omega)
    rw [ArithUint256.getCompact_eq, hvalue, hq, BlockTree.retarget, Network.nTargetTimespan_params,
      hold, ← clampTimespan, hmod]
    rfl

/-- What a retarget is meant to do: the old target times the clamped time by the time that
is wanted, at most the limit, within a factor of four of the old one. -/
structure Retargets (limit old span new : Nat) : Prop where
  quotient : new = min (old * span / 1209600) limit
  quarter : old / 4 ≤ new
  fourfold : new ≤ 4 * old
  le_limit : new ≤ limit

/-- The product of a target and a time that fits makes a proper retarget. -/
theorem retargets_of_lt {limit old span : Nat} (hlimit : old ≤ limit) (hmin : 302400 ≤ span)
    (hmax : span ≤ 4838400) (hfits : old * span < 2 ^ 256) :
    Retargets limit old span (min (old * span % 2 ^ 256 / 1209600) limit) := by
  rw [Nat.mod_eq_of_lt hfits]
  have hlow : old * 302400 ≤ old * span := Nat.mul_le_mul_left _ hmin
  have hhigh : old * span ≤ old * 4838400 := Nat.mul_le_mul_left _ hmax
  exact ⟨rfl, by omega, by omega, Nat.min_le_right ..⟩

/-- A product that does not fit loses more than the limit can hide. -/
theorem not_retargets {limit old span : Nat} (hlimit : 2 ^ 254 ≤ limit)
    (hwraps : 2 ^ 256 ≤ old * span) :
    ¬Retargets limit old span (min (old * span % 2 ^ 256 / 1209600) limit) := by
  intro h
  have hquotient := h.quotient
  generalize old * span = product at hwraps hquotient
  omega

/-- **When a retarget is proper.** -/
theorem retargets_iff (net : Network) (hashGenesisBlock : Uint256) {old span : Nat}
    (hlimit : old ≤ (net.params hashGenesisBlock).proofOfWorkLimit) (hmin : 302400 ≤ span)
    (hmax : span ≤ 4838400) :
    Retargets (net.params hashGenesisBlock).proofOfWorkLimit old span
        (min (old * span % 2 ^ 256 / 1209600) (net.params hashGenesisBlock).proofOfWorkLimit) ↔
      (net = .regtest → old * span < 2 ^ 256) := by
  by_cases hnet : net = .regtest
  · subst hnet
    refine ⟨fun h _ => ?_, fun h => retargets_of_lt hlimit hmin hmax (h rfl)⟩
    have hlarge : 2 ^ 254 ≤ 2 ^ 255 - 1 := by norm_num
    exact Nat.lt_of_not_le fun hwraps => not_retargets hlarge hwraps h
  · have hsmall : (net.params hashGenesisBlock).proofOfWorkLimit = 2 ^ 224 - 1 := by
      cases net with
      | regtest => exact absurd rfl hnet
      | main => rfl
      | testnet => rfl
      | unittest => rfl
    have hproduct : old * span ≤ (2 ^ 224 - 1) * 4838400 :=
      Nat.mul_le_mul (hlimit.trans_eq hsmall) hmax
    exact iff_of_true (retargets_of_lt hlimit hmin hmax (by omega)) fun h => absurd h hnet

/-! ## The function -/

theorem ancestor_of_le {tree : BlockTree} {n m : Nat} {pindex : CBlockIndex} (hle : m ≤ n)
    (h : (tree.ancestor n pindex).isSome) : ∃ q, tree.ancestor m pindex = some q := by
  induction m generalizing n pindex with
  | zero => exact ⟨pindex, rfl⟩
  | succ m ih =>
      obtain ⟨n, rfl⟩ : ∃ k, n = k + 1 := ⟨n - 1, by omega⟩
      rw [BlockTree.ancestor] at h ⊢
      cases hprev : tree.prev pindex with
      | none => simp [hprev] at h
      | some q =>
          rw [hprev, Option.bind_some] at h
          obtain ⟨p, hp⟩ := ih (by omega) h
          exact ⟨p, by rw [Option.bind_some, hp]⟩

/-- **The retarget.**  At the end of an interval the target of the next block comes from
the product of the old target and the clamped time, and it is the meant one unless the
network is the one for regression tests and the product does not fit. -/
theorem getNextWorkRequired_retarget (net : Network) (hashGenesisBlock : Uint256)
    (tree : BlockTree) (pindexLast : CBlockIndex) (pblock : CBlockHeader)
    (hretarget : (pindexLast.nHeight + 1).tmod (net.params hashGenesisBlock).interval = 0)
    (hheight : 0 ≤ pindexLast.nHeight)
    (hchain : (tree.ancestor pindexLast.nHeight.toNat pindexLast).isSome)
    (hlimit : oldTarget pindexLast.nBits ≤ (net.params hashGenesisBlock).proofOfWorkLimit) :
    ∃ pindexFirst bnNew, tree.ancestor 2015 pindexLast = some pindexFirst ∧
      ArithUint256.newTarget net.bnProofOfWorkLimit 1209600 pindexLast.nBits
        (pindexLast.nTime.toNat - pindexFirst.nTime.toNat) = some bnNew ∧
      tree.getNextWorkRequired (net.params hashGenesisBlock) (some pindexLast) pblock =
        bnNew.getCompact false ∧
      (Retargets (net.params hashGenesisBlock).proofOfWorkLimit (oldTarget pindexLast.nBits)
          (clampTimespan 1209600 (pindexLast.nTime.toNat - pindexFirst.nTime.toNat)).toNat
          bnNew.value ↔
        (net = .regtest → oldTarget pindexLast.nBits *
          (clampTimespan 1209600 (pindexLast.nTime.toNat - pindexFirst.nTime.toNat)).toNat <
            2 ^ 256)) := by
  rw [Network.interval_params] at hretarget
  have hsteps : 2015 ≤ pindexLast.nHeight.toNat := by
    have hdvd := Int.dvd_of_tmod_eq_zero hretarget
    omega
  obtain ⟨pindexFirst, hfirst⟩ := ancestor_of_le hsteps hchain
  obtain ⟨bnNew, hnew, hvalue, hcompact⟩ := newTarget_eq net hashGenesisBlock pindexLast.nBits
    (pindexLast.nTime.toNat - pindexFirst.nTime.toNat)
  have hclamp := clampTimespan_mem (pindexLast.nTime.toNat - pindexFirst.nTime.toNat)
  refine ⟨pindexFirst, bnNew, hfirst, hnew, ?_, ?_⟩
  · rw [hcompact, BlockTree.getNextWorkRequired]
    rw [Network.interval_params, if_neg (not_not.mpr hretarget)]
    show (tree.ancestor 2015 pindexLast).bind _ = _
    rw [hfirst]
    rfl
  · rw [hvalue]
    exact retargets_iff net hashGenesisBlock hlimit (by omega) (by omega)

/-! ## A chain at the wanted pace -/

/-- A hash for each height. -/
def heightHash (i : Nat) : Uint256 := ⟨Codecs.leBytes 32 i, Codecs.length_leBytes 32 i⟩

/-- Blocks of one difficulty, ten minutes apart. -/
def pacedEntry (nBits : UInt32) (i : Nat) : CBlockIndex where
  pprev := if i = 0 then none else some (heightHash (i - 1))
  nHeight := i
  nTime := UInt32.ofNat (1296688602 + 600 * i)
  nBits := nBits

def pacedChain (nBits : UInt32) : Nat → BlockTree
  | 0 => {}
  | n + 1 => (pacedChain nBits n).put (heightHash n) (pacedEntry nBits n)

theorem heightHash_inj {i j : Nat} (hi : i < 256 ^ 32) (hj : j < 256 ^ 32)
    (h : heightHash i = heightHash j) : i = j := by
  have hbytes : Codecs.leBytes 32 i = Codecs.leBytes 32 j := congrArg Subtype.val h
  rw [← Codecs.leNat_leBytes_of_lt hi, hbytes, Codecs.leNat_leBytes_of_lt hj]

theorem find_pacedChain (nBits : UInt32) {i n : Nat} (hi : i < n) (hn : n ≤ 256 ^ 32) :
    (pacedChain nBits n).find (heightHash i) = some (pacedEntry nBits i) := by
  induction n with
  | zero => omega
  | succ n ih =>
      rw [pacedChain]
      by_cases heq : i = n
      · rw [heq, BlockTree.find_put_self]
      · rw [BlockTree.find_put_of_ne, ih (by omega) (by omega)]
        exact fun h => heq (heightHash_inj (by omega) (by omega) h)

theorem ancestor_pacedChain (nBits : UInt32) {i k n : Nat} (hk : k ≤ i) (hi : i < n)
    (hn : n ≤ 256 ^ 32) :
    (pacedChain nBits n).ancestor k (pacedEntry nBits i) = some (pacedEntry nBits (i - k)) := by
  induction k generalizing i with
  | zero => rfl
  | succ k ih =>
      have hprev : (pacedChain nBits n).prev (pacedEntry nBits i) =
          some (pacedEntry nBits (i - 1)) := by
        rw [BlockTree.prev, pacedEntry, if_neg (by omega), Option.bind_some,
          find_pacedChain nBits (by omega) hn]
      rw [BlockTree.ancestor, hprev, Option.bind_some, ih (by omega) (by omega), Nat.sub_sub,
        Nat.add_comm 1]

/-- The tip of a regression test after its first interval. -/
def regTestTip : CBlockIndex := pacedEntry 0x207fffff 2015

/-- After the first interval of a regression test, whose blocks came at the wanted pace, the
target falls below a quarter of the old one: the product has been cut off. -/
theorem getNextWorkRequired_paced_regtest :
    (pacedChain 0x207fffff 2016).ancestor 2015 regTestTip = some (pacedEntry 0x207fffff 0) ∧
    (regTestTip.nHeight + 1).tmod (Network.regtest.params Blob.null).interval = 0 ∧
    1 ≤ oldTarget regTestTip.nBits ∧
    oldTarget regTestTip.nBits ≤ (Network.regtest.params Blob.null).proofOfWorkLimit ∧
    ∃ bnNew : ArithUint256,
      ArithUint256.newTarget Network.regtest.bnProofOfWorkLimit 1209600 regTestTip.nBits
        (regTestTip.nTime.toNat - (pacedEntry 0x207fffff 0).nTime.toNat) = some bnNew ∧
      (pacedChain 0x207fffff 2016).getNextWorkRequired (Network.regtest.params Blob.null)
        (some regTestTip) {} = bnNew.getCompact false ∧
      bnNew.value < oldTarget regTestTip.nBits / 4 := by
  have hfirst : (pacedChain 0x207fffff 2016).ancestor 2015 regTestTip =
      some (pacedEntry 0x207fffff 0) := ancestor_pacedChain _ le_rfl (by norm_num) (by norm_num)
  obtain ⟨bnNew, hnew, hvalue, hcompact⟩ := newTarget_eq .regtest Blob.null regTestTip.nBits
    (regTestTip.nTime.toNat - (pacedEntry 0x207fffff 0).nTime.toNat)
  refine ⟨hfirst, by decide, by decide +kernel, by decide +kernel, bnNew, hnew, ?_, ?_⟩
  · rw [hcompact, BlockTree.getNextWorkRequired]
    rw [Network.interval_params, if_neg (by decide)]
    show ((pacedChain 0x207fffff 2016).ancestor 2015 regTestTip).bind _ = _
    rw [hfirst]
    rfl
  · rw [hvalue]
    decide +kernel

/-- On the main network a chain at the same pace retargets properly. -/
theorem getNextWorkRequired_paced_main :
    ∃ (pindexFirst : CBlockIndex) (bnNew : ArithUint256),
      (pacedChain 0x1d00ffff 2016).ancestor 2015 (pacedEntry 0x1d00ffff 2015) = some pindexFirst ∧
      (pacedChain 0x1d00ffff 2016).getNextWorkRequired (Network.main.params Blob.null)
        (some (pacedEntry 0x1d00ffff 2015)) {} = bnNew.getCompact false ∧
      Retargets (2 ^ 224 - 1) (oldTarget 0x1d00ffff)
        (clampTimespan 1209600 ((pacedEntry 0x1d00ffff 2015).nTime.toNat -
          pindexFirst.nTime.toNat)).toNat bnNew.value := by
  have hchain : ((pacedChain 0x1d00ffff 2016).ancestor
      (pacedEntry 0x1d00ffff 2015).nHeight.toNat (pacedEntry 0x1d00ffff 2015)).isSome := by
    rw [show (pacedEntry 0x1d00ffff 2015).nHeight.toNat = 2015 from rfl,
      ancestor_pacedChain _ le_rfl (by norm_num) (by norm_num)]
    rfl
  obtain ⟨pindexFirst, bnNew, hfirst, -, hnext, hiff⟩ :=
    getNextWorkRequired_retarget .main Blob.null (pacedChain 0x1d00ffff 2016)
      (pacedEntry 0x1d00ffff 2015) {} (by decide) (by decide) hchain (by decide +kernel)
  exact ⟨pindexFirst, bnNew, hfirst, hnext, hiff.mpr fun h => absurd h (by decide)⟩

end Hivemind
