import Hivemind.Validation.BlocksSpec
import Hivemind.Validation.Candidates
import Hivemind.Validation.Import

/-!
# Indexing the block files again, in any order

The blocks of the files may come before their parents, and more than once.  As long as a block
whose parent is in the index passes its checks, a block is in the index or waits for its parent,
and a parent does not come into the index without those that wait for it.

The files are bytes, as `WriteBlockToDisk` fills them, with other bytes between the blocks that
do not start a message; the search of the loop finds the blocks one after another.  A copy of a
block that is in the index already changes nothing, and one that is parked twice is read twice.
In the end the blocks that are connected to the genesis block through blocks of the files have
their data, and none of them waits.

* `processNewBlock_spec`: a block whose parent is known gets its data.
* `activateBestChain_complete`: no block fails where all are valid.
* `ImportInv`: what holds between the turns of the two loops.
* `processRange`, `processQueue`: the blocks that wait are processed, all of them.
* `hasData_of_reindex`: **all blocks have their data in the end**, and none waits.
-/

namespace Hivemind

open Codecs Outcomes

/-! ## The index -/

/-- Every entry has its data and has not failed. -/
def BlockTree.Complete (tree : BlockTree) : Prop :=
  ∀ h nStatus, tree.status h = some nStatus →
    hasStatus nStatus blockHaveData = true ∧ hasStatus nStatus blockFailedMask = false

namespace BlockTree

variable {tree tree' : BlockTree}

theorem status_of_find {h : Uint256} {p : CBlockIndex} (hfind : tree.find h = some p) :
    tree.status h = some p.nStatus := by
  rw [status, hfind, Option.map_some]

theorem isSome_status (tree : BlockTree) (h : Uint256) :
    (tree.status h).isSome = (tree.find h).isSome := by
  rw [status, Option.isSome_map]

theorem complete_empty : Complete {} := by
  rintro h nStatus ⟨⟩

theorem Complete.hasData_eq (hc : tree.Complete) (h : Uint256) :
    tree.hasData h = (tree.find h).isSome := by
  rw [hasData, ← isSome_status]
  cases hstatus : tree.status h with
  | none => rfl
  | some nStatus => exact (hc h nStatus hstatus).1

theorem Complete.not_flagged (hc : tree.Complete) (h : Uint256) :
    tree.flagged blockFailedMask h = false := by
  cases hfind : tree.find h with
  | none => rw [flagged, hfind, Option.any_none]
  | some p =>
      rw [flagged_of_find hfind]
      exact (hc h p.nStatus (status_of_find hfind)).2

/-- Flags of other kinds do not matter. -/
theorem Complete.reflagged (hc : tree.Complete) (hre : Reflagged tree tree')
    (hunfailed : ∀ h, tree'.flagged blockFailedMask h = false) : tree'.Complete := by
  intro h nStatus hstatus
  rw [status, Option.map_eq_some_iff] at hstatus
  obtain ⟨p', hfind', rfl⟩ := hstatus
  obtain ⟨p, hfind, hsame⟩ := hre.back hfind'
  refine ⟨hsame.data.trans (hc h p.nStatus (status_of_find hfind)).1, ?_⟩
  rw [← flagged_of_find hfind']
  exact hunfailed h

end BlockTree

theorem Reflagged.isSome_find {tree tree' : BlockTree} (hre : Reflagged tree tree') (h : Uint256) :
    (tree'.find h).isSome = (tree.find h).isSome := by
  cases hfind : tree.find h with
  | none => rw [hre.find_none h hfind]
  | some p =>
      obtain ⟨p', hfind', -⟩ := hre.find_some h p hfind
      rw [hfind', Option.isSome_some, Option.isSome_some]

/-! ## `ActivateBestChain` on blocks that are all valid -/

section Activate

variable {env : ChainEnv}

/-- Where nothing has failed, the best candidate is taken as it is. -/
theorem findMostWorkChain_complete {n : Nat} {s s' : ChainState} {best : Option Uint256}
    (hc : s.tree.Complete) (h : findMostWorkChain env n s = some (best, s')) : s' = s := by
  cases n with
  | zero => cases h
  | succ n =>
      rw [findMostWorkChain] at h
      split at h
      · cases h
        rfl
      · rename_i pindexNew _
        have hclean : (s.offChain (pindexNew.nHeight.toNat + 1)
            (some pindexNew.getBlockHash)).dropWhile
              (fun h => !s.tree.flagged blockFailedMask h) = [] := by
          rw [List.dropWhile_eq_nil_iff]
          intro h _
          rw [hc.not_flagged, Bool.not_false]
        simp only [hclean] at h
        split_ifs at h
        cases h
        rfl

theorem connectPath_complete {old : Option CBlockIndex} {path : List Uint256} {s s' : ChainState}
    {ok : Bool} (hc : s.tree.Complete)
    (hvalid : ∀ h, (s.tree.find h).isSome = true → env.connectTip h = .valid)
    (h : connectPath env old path s = some (ok, s')) : s'.tree.Complete := by
  induction path generalizing s with
  | nil =>
      cases h
      exact hc
  | cons hash path ih =>
      obtain ⟨pindex, hfind, -, hcases⟩ := connectPath_cons h
      have htip := hvalid hash (by rw [hfind]; rfl)
      have hre : Reflagged s.tree (connectedState env s hash pindex).tree :=
        Reflagged.connectedState hfind
      have hnext : (connectedState env s hash pindex).tree.Complete := by
        refine hc.reflagged hre fun x => ?_
        rw [flagged_connectedState hfind, hc.not_flagged]
      rcases hcases with ⟨hbad, -⟩ | ⟨hbad, -⟩ | ⟨hbad, -⟩ | ⟨-, -, rfl⟩ | ⟨-, hrest⟩
      · rw [htip] at hbad
        cases hbad
      · rw [htip] at hbad
        cases hbad
      · rw [htip] at hbad
        cases hbad
      · exact hnext
      · refine ih hnext (fun x hx => hvalid x ?_) hrest
        rw [← hre.isSome_find]
        exact hx

theorem activateBestChainStep_complete {s s' : ChainState} {best : Uint256} {ok : Bool}
    (hc : s.tree.Complete)
    (hvalid : ∀ h, (s.tree.find h).isSome = true → env.connectTip h = .valid)
    (h : activateBestChainStep env s best = some (ok, s')) : s'.tree.Complete := by
  rw [activateBestChainStep] at h
  split at h
  · cases h
  · simp only at h
    split at h
    · cases h
    · cases h
      exact hc
    · rename_i chain _
      exact @connectPath_complete env _ _ { s with chainActive := chain } _ _ hc hvalid h

/-- **No block fails where all are valid.** -/
theorem activateBestChain_complete {n : Nat} {s s' : ChainState} {ok : Bool}
    (hc : s.tree.Complete)
    (hvalid : ∀ h, (s.tree.find h).isSome = true → env.connectTip h = .valid)
    (h : activateBestChain env n s = some (ok, s')) : s'.tree.Complete := by
  induction n generalizing s with
  | zero => cases h
  | succ n ih =>
      rw [activateBestChain] at h
      split at h
      · cases h
      · rename_i hfind
        cases h
        rw [findMostWorkChain_complete hc hfind]
        exact hc
      · rename_i hfind
        obtain rfl := findMostWorkChain_complete hc hfind
        split_ifs at h
        · cases h
          exact hc
        · split at h
          · cases h
          · rename_i hstep
            cases h
            exact activateBestChainStep_complete hc hvalid hstep
          · rename_i hstep
            have hnext := activateBestChainStep_complete hc hvalid hstep
            have hre := Reflagged.activateBestChainStep hstep
            split_ifs at h
            · cases h
              exact hnext
            · refine ih hnext (fun x hx => hvalid x ?_) h
              rw [← hre.isSome_find]
              exact hx

end Activate

/-! ## `AcceptBlock` at a known position -/

/-- The checks of a block that need its parent. -/
structure AcceptContext.Accepts (ctx : AcceptContext) (tree : BlockTree) (block : CBlock) :
    Prop where
  header : ∀ pindexPrev, acceptPrev ctx.toContext tree block.toCBlockHeader = .ok pindexPrev →
    contextualCheckBlockHeader ctx.toContext tree block.toCBlockHeader pindexPrev = .ok ()
  block : ∀ pindex tree', acceptBlockHeader ctx.toContext tree block.toCBlockHeader =
    .ok (pindex, tree') → contextualCheckBlock ctx tree' block (tree'.prev pindex) = .ok ()

/-- The parent of the block is in the index; the genesis block needs none. -/
def AcceptContext.ParentIndexed (ctx : AcceptContext) (tree : BlockTree) (block : CBlock) : Prop :=
  block.getHash ctx.hash = ctx.params.hashGenesisBlock ∨
    (tree.find block.hashPrevBlock).isSome = true

/-- The status of each block after the data of one have come. -/
theorem status_received (tree : BlockTree) (hash : Uint256) (block : CBlock) (pindex : CBlockIndex)
    (pos : CDiskBlockPos) (h : Uint256) :
    (tree.receivedBlockTransactions hash block pindex pos).status h =
      if h = hash then some (tree.receivedEntry block pindex pos).nStatus else tree.status h := by
  rw [BlockTree.receivedBlockTransactions, BlockTree.status_linkReceived]
  split_ifs with hh
  · rw [hh]
    exact BlockTree.status_of_find (BlockTree.find_put_self ..)
  · exact BlockTree.status_put_of_ne tree _ hh

/-- A block whose position is known is not written again. -/
theorem storeBlock_known (ctx : AcceptContext) (tree : BlockTree) (hash : Uint256) (block : CBlock)
    (pindex : CBlockIndex) (pos : CDiskBlockPos) :
    storeBlock ctx tree hash block pindex (some pos) =
      (.ok (), (tree.findBlockPos (some pos) (UInt32.ofNat (CBlock.codec.ser block).length + 8)
        (UInt32.ofInt pindex.nHeight) (UInt64.ofNat block.nTime.toNat)
        ctx.diskSpaceOk).2.receivedBlockTransactions hash block pindex pos) := rfl

/-- What has been received is there, and has not failed unless the entry had before. -/
theorem status_receivedEntry (tree : BlockTree) {block : CBlock} {pindex : CBlockIndex}
    {pos : CDiskBlockPos} (hfailed : hasStatus pindex.nStatus blockFailedMask = false) :
    hasStatus (tree.receivedEntry block pindex pos).nStatus blockHaveData = true ∧
      hasStatus (tree.receivedEntry block pindex pos).nStatus blockFailedMask = false := by
  refine ⟨BlockTree.hasData_receivedEntry tree block pindex pos, ?_⟩
  have hraise := CBlockIndex.hasStatus_raiseValidity
    { pindex with
      nTx := UInt32.ofNat block.vtx.length
      nChainTx := 0
      nFile := pos.nFile
      nDataPos := pos.nPos
      nUndoPos := 0
      nStatus := pindex.nStatus ||| blockHaveData }
    (show ~~~blockValidMask &&& blockFailedMask = blockFailedMask by decide)
    (show hasStatus blockValidTransactions blockFailedMask = false by decide)
  rw [hasStatus_or, hfailed, Bool.false_or] at hraise
  exact hraise

/-- The header of a block that passes the checks is accepted. -/
theorem acceptBlockHeader_complete {ctx : AcceptContext} {tree : BlockTree} {block : CBlock}
    (hc : tree.Complete) (hcheck : checkBlock ctx.toContext block true true = .ok ())
    (hparent : ctx.ParentIndexed tree block) (haccepts : ctx.Accepts tree block) :
    ∃ pindex tree', acceptBlockHeader ctx.toContext tree block.toCBlockHeader =
      .ok (pindex, tree') := by
  rw [acceptBlockHeader]
  cases hfind : tree.find (block.getHash ctx.hash) with
  | some pindex =>
      have hfailed := (hc _ _ (BlockTree.status_of_find hfind)).2
      exact ⟨pindex, tree, by simp [hfailed]⟩
  | none =>
      have hheader : checkBlockHeader ctx.toContext block.toCBlockHeader true = .ok () := by
        simp only [checkBlock, bind_eq_ok] at hcheck
        obtain ⟨⟨⟩, hok, -⟩ := hcheck
        exact hok
      obtain ⟨pindexPrev, hprev⟩ : ∃ pindexPrev,
          acceptPrev ctx.toContext tree block.toCBlockHeader = .ok pindexPrev := by
        rw [acceptPrev]
        split_ifs with hgenesis
        · exact ⟨none, rfl⟩
        · have hsome := hparent.resolve_left hgenesis
          obtain ⟨pprev, hpprev⟩ := Option.isSome_iff_exists.mp hsome
          have hfailed := (hc _ _ (BlockTree.status_of_find hpprev)).2
          exact ⟨some pprev, by simp [hpprev, hfailed]⟩
      simp only [hheader, hprev, haccepts.header pindexPrev hprev, bind, Except.bind]
      exact ⟨_, _, rfl⟩

/-- **A block that passes the checks is stored** where it is, and nothing else changes. -/
theorem acceptBlock_complete {ctx : AcceptContext} {tree : BlockTree} {block : CBlock}
    (pos : CDiskBlockPos) (hc : tree.Complete)
    (hcheck : checkBlock ctx.toContext block true true = .ok ())
    (hparent : ctx.ParentIndexed tree block) (haccepts : ctx.Accepts tree block) :
    (acceptBlock ctx tree block (some pos)).1 = .ok () ∧
      (acceptBlock ctx tree block (some pos)).2.Complete ∧
      ∀ h, ((acceptBlock ctx tree block (some pos)).2.find h).isSome =
        ((tree.find h).isSome || h == block.getHash ctx.hash) := by
  obtain ⟨pindex, tree₁, hheader⟩ := acceptBlockHeader_complete hc hcheck hparent haccepts
  have hcontext := haccepts.block pindex tree₁ hheader
  rw [acceptBlock, hheader]
  simp only
  rcases acceptBlockHeader_cases hheader with ⟨hfind, -, rfl⟩ | ⟨hnone, htree₁, hfind, hnew⟩
  · -- the block is there already
    have hdata := (hc _ _ (BlockTree.status_of_find hfind)).1
    rw [if_pos hdata]
    refine ⟨rfl, hc, fun h => ?_⟩
    by_cases hh : h = block.getHash ctx.hash
    · rw [hh, hfind]
      simp
    · rw [beq_eq_false_iff_ne.mpr hh, Bool.or_false]
  · have hnodata : hasStatus pindex.nStatus blockHaveData = false := by
      rw [hnew]
      exact BlockTree.newEntry_noData tree _ _
    have hunfailed : hasStatus pindex.nStatus blockFailedMask = false := by
      rw [hnew]
      exact BlockTree.newEntry_noStatus tree _ _ (by decide) (by decide)
    have hother : ∀ h, h ≠ block.getHash ctx.hash → tree₁.find h = tree.find h := by
      rcases tree.find_addToBlockIndex (block.getHash ctx.hash) block.toCBlockHeader with
        ⟨_, hsome, -⟩ | ⟨-, -, hother⟩
      · rw [hnone] at hsome
        cases hsome
      · rw [htree₁]
        exact hother
    rw [hnodata, if_neg Bool.false_ne_true, hcheck, hcontext]
    simp only [SeqRight.seqRight, Except.bind, storeBlock_known]
    have hstatus : ∀ h, (tree₁.findBlockPos (some pos)
        (UInt32.ofNat (CBlock.codec.ser block).length + 8) (UInt32.ofInt pindex.nHeight)
        (UInt64.ofNat block.nTime.toNat) ctx.diskSpaceOk).2.status h = tree₁.status h := by
      intro h
      rw [BlockTree.status, BlockTree.find_findBlockPos, BlockTree.status]
    refine ⟨trivial, ?_, ?_⟩
    · intro h nStatus hh
      rw [status_received, hstatus] at hh
      split_ifs at hh with heq
      · obtain rfl := Option.some.inj hh
        exact status_receivedEntry _ hunfailed
      · rw [BlockTree.status, hother h heq] at hh
        exact hc h nStatus hh
    · intro h
      rw [← BlockTree.isSome_status, status_received, hstatus]
      split_ifs with heq
      · simp [heq]
      · rw [BlockTree.isSome_status, hother h heq, beq_eq_false_iff_ne.mpr heq, Bool.or_false]

namespace ImportEnv

variable (env : ImportEnv)

/-! ## `ProcessNewBlock` -/

/-- The state of the chain after some of the stored blocks have been processed. -/
inductive Reached (stored : List (CDiskBlockPos × CBlock)) : ChainState → Prop
  | start : Reached stored {}
  | process {s s' : ChainState} {p : CDiskBlockPos × CBlock} {r : Except Stop Unit} :
      Reached stored s → p ∈ stored → env.processNewBlock s p.2 (some p.1) = some (r, s') →
      Reached stored s'

/-- The checks that a block at a position has to pass when its parent is in the index, up to the
end of `ActivateBestChain`. -/
structure Passes (s : ChainState) (p : CDiskBlockPos × CBlock) : Prop where
  accepts : (env.acceptContext s).Accepts s.tree p.2
  activates : ∃ s', activateBestChain env.chain env.steps
    { s with tree := (acceptBlock (env.acceptContext s) s.tree p.2 (some p.1)).2 } = some (true, s')

/-- Each of the stored blocks passes its checks whenever its parent is in the index, and the
disk returns it. -/
structure AllPass (stored : List (CDiskBlockPos × CBlock)) : Prop where
  check : ∀ p ∈ stored, checkBlock env.accept.toContext p.2 true true = .ok ()
  connect : ∀ p ∈ stored, env.chain.connectTip (env.blockHash p.2) = .valid
  pass : ∀ s, env.Reached stored s → ∀ p ∈ stored,
    env.accept.ParentIndexed s.tree p.2 → env.Passes s p
  read : ∀ p ∈ stored, env.readBlockFromDisk p.1 = some p.2

/-- The index after some of the stored blocks have been processed without an error. -/
structure Indexed (stored : List (CDiskBlockPos × CBlock)) (s : ChainState) : Prop where
  reached : env.Reached stored s
  complete : s.tree.Complete
  known : ∀ h, (s.tree.find h).isSome = true → ∃ p ∈ stored, env.blockHash p.2 = h

variable {env} {stored : List (CDiskBlockPos × CBlock)}

theorem indexed_start : env.Indexed stored {} :=
  ⟨.start, BlockTree.complete_empty, by rintro h ⟨⟩⟩

/-- **A block whose parent is known gets its data**, and the index stays complete. -/
theorem processNewBlock_spec (hall : env.AllPass stored) {s : ChainState}
    (h : env.Indexed stored s) {p : CDiskBlockPos × CBlock} (hp : p ∈ stored)
    (hparent : env.accept.ParentIndexed s.tree p.2) :
    ∃ s', env.processNewBlock s p.2 (some p.1) = some (.ok (), s') ∧ env.Indexed stored s' ∧
      ∀ x, (s'.tree.find x).isSome = ((s.tree.find x).isSome || x == env.blockHash p.2) := by
  obtain ⟨haccepts, s', hactive⟩ := hall.pass s h.reached p hp hparent
  obtain ⟨hok, hcomplete, hsome⟩ := @acceptBlock_complete (env.acceptContext s) s.tree p.2 p.1
    h.complete (hall.check p hp) hparent haccepts
  have hpair : acceptBlock (env.acceptContext s) s.tree p.2 (some p.1) =
      (.ok (), (acceptBlock (env.acceptContext s) s.tree p.2 (some p.1)).2) := by
    rw [← hok]
  have hrun : env.processNewBlock s p.2 (some p.1) = some (.ok (), s') := by
    rw [processNewBlock, hall.check p hp]
    simp only
    rw [hpair]
    simp only [hactive]
  have hknown : ∀ x, ((acceptBlock (env.acceptContext s) s.tree p.2 (some p.1)).2.find x).isSome =
      true → ∃ q ∈ stored, env.blockHash q.2 = x := by
    intro x hx
    rw [hsome, Bool.or_eq_true, beq_iff_eq] at hx
    rcases hx with hx | hx
    · exact h.known x hx
    · exact ⟨p, hp, hx.symm⟩
  have hre := Reflagged.activateBestChain hactive
  have hsame := hre.isSome_find
  refine ⟨s', hrun, ⟨h.reached.process hp hrun, ?_, fun x hx => ?_⟩, fun x => ?_⟩
  · refine activateBestChain_complete hcomplete (fun x hx => ?_) hactive
    obtain ⟨q, hq, rfl⟩ := hknown x hx
    exact hall.connect q hq
  · rw [hsame] at hx
    exact hknown x hx
  · rw [hsame]
    exact hsome x

/-! ## The blocks that wait -/

/-- What holds while the blocks of the queue may have successors that wait: the blocks that have
been seen are in the index or wait for their parent. -/
structure ImportInv (env : ImportEnv) (stored seen : List (CDiskBlockPos × CBlock))
    (queue : List Uint256) (s : ImportState) : Prop where
  indexed : env.Indexed stored s.chain
  seen_sub : ∀ p ∈ seen, p ∈ stored
  queued : ∀ h ∈ queue, (s.chain.tree.find h).isSome = true
  parked : ∀ e ∈ s.mapBlocksUnknownParent, ∃ block, (e.2, block) ∈ seen ∧
    block.hashPrevBlock = e.1 ∧ env.blockHash block ≠ env.accept.params.hashGenesisBlock
  waiting : ∀ e ∈ s.mapBlocksUnknownParent, (s.chain.tree.find e.1).isSome = true → e.1 ∈ queue
  placed : ∀ p ∈ seen, (s.chain.tree.find (env.blockHash p.2)).isSome = true ∨
    (p.2.hashPrevBlock, p.1) ∈ s.mapBlocksUnknownParent

namespace ImportInv

variable {seen : List (CDiskBlockPos × CBlock)} {queue : List Uint256} {s : ImportState}

/-- **The entries under one key are all processed**: their parent is in the index. -/
theorem processRange (hall : env.AllPass stored) {head : Uint256}
    {range : List (Uint256 × CDiskBlockPos)}
    (hrange : (s.mapBlocksUnknownParent.filter fun e => e.1 == head) = range)
    (h : ImportInv env stored seen (head :: queue) s) :
    ∃ queue' s', env.processRange range queue s = some (queue', s') ∧
      ImportInv env stored seen queue' s' ∧
      queue'.length + s'.mapBlocksUnknownParent.length ≤
        queue.length + s.mapBlocksUnknownParent.length := by
  induction range generalizing queue s with
  | nil =>
      refine ⟨queue, s, rfl, ⟨h.indexed, h.seen_sub, fun x hx => h.queued x
        (List.mem_cons_of_mem _ hx), h.parked, fun e he hknown => ?_, h.placed⟩, Nat.le_refl _⟩
      rcases List.mem_cons.mp (h.waiting e he hknown) with heq | hmem
      · have hin : e ∈ s.mapBlocksUnknownParent.filter fun e => e.1 == head :=
          List.mem_filter.mpr ⟨he, beq_iff_eq.mpr heq⟩
        rw [hrange] at hin
        cases hin
      · exact hmem
  | cons entry range ih =>
      have hin : entry ∈ s.mapBlocksUnknownParent.filter fun e => e.1 == head := by
        rw [hrange]
        exact List.mem_cons_self
      obtain ⟨hentry, hkey⟩ := List.mem_filter.mp hin
      obtain rfl := beq_iff_eq.mp hkey
      obtain ⟨block, hseen, hprev, -⟩ := h.parked entry hentry
      have hstored := h.seen_sub _ hseen
      have hread := hall.read _ hstored
      have hparent : env.accept.ParentIndexed s.chain.tree block := by
        refine Or.inr ?_
        rw [hprev]
        exact h.queued _ List.mem_cons_self
      obtain ⟨chain, hrun, hindexed, hsome⟩ := processNewBlock_spec hall h.indexed hstored hparent
      have hgrow : ∀ x, (s.chain.tree.find x).isSome = true →
          (chain.tree.find x).isSome = true := by
        intro x hx
        rw [hsome, hx, Bool.true_or]
      have hself : (chain.tree.find (env.blockHash block)).isSome = true := by
        rw [hsome, beq_self_eq_true, Bool.or_true]
      -- the entry is erased, and its block is pushed
      have hnext : ImportInv env stored seen (entry.1 :: (queue ++ [env.blockHash block]))
          { chain, mapBlocksUnknownParent := s.mapBlocksUnknownParent.erase entry,
            nLoaded := s.nLoaded + 1 } := by
        refine ⟨hindexed, h.seen_sub, fun x hx => ?_, fun e he => h.parked e
          (List.mem_of_mem_erase he), fun e he hknown => ?_, fun p hp => ?_⟩
        · rw [List.mem_cons, List.mem_append, List.mem_singleton] at hx
          rcases hx with hx | hx | hx
          · exact hgrow x (h.queued x (List.mem_cons.mpr (Or.inl hx)))
          · exact hgrow x (h.queued x (List.mem_cons_of_mem _ hx))
          · exact hx ▸ hself
        · rw [List.mem_cons, List.mem_append, List.mem_singleton]
          rw [hsome, Bool.or_eq_true, beq_iff_eq] at hknown
          rcases hknown with hknown | hknown
          · rcases List.mem_cons.mp (h.waiting e (List.mem_of_mem_erase he) hknown) with hx | hx
            · exact Or.inl hx
            · exact Or.inr (Or.inl hx)
          · exact Or.inr (Or.inr hknown)
        · rcases h.placed p hp with hknown | hwait
          · exact Or.inl (hgrow _ hknown)
          · by_cases heq : (p.2.hashPrevBlock, p.1) = entry
            · have hblock := hall.read p (h.seen_sub p hp)
              rw [show p.1 = entry.2 from congrArg Prod.snd heq, hread] at hblock
              rw [← Option.some.inj hblock]
              exact Or.inl hself
            · exact Or.inr ((List.mem_erase_of_ne heq).mpr hwait)
      have hfilter : ((s.mapBlocksUnknownParent.erase entry).filter fun e => e.1 == entry.1) =
          range := by
        rw [← List.erase_filter, hrange, List.erase_cons_head]
      obtain ⟨queue', s', hrest, hinv, hlen⟩ := ih hfilter hnext
      refine ⟨queue', s', ?_, hinv, ?_⟩
      · rw [ImportEnv.processRange]
        simp only [hread, hrun]
        exact hrest
      · have hpos := List.length_pos_of_mem hentry
        have herase := List.length_erase_of_mem hentry
        simp only [List.length_append, List.length_singleton, herase] at hlen
        omega

/-- **The queue runs empty**, and then no parent of a block that waits is in the index. -/
theorem processQueue (hall : env.AllPass stored) {fuel : Nat}
    (hfuel : queue.length + s.mapBlocksUnknownParent.length < fuel)
    (h : ImportInv env stored seen queue s) :
    ∃ s', env.processQueue fuel queue s = some s' ∧ ImportInv env stored seen [] s' := by
  induction fuel generalizing queue s with
  | zero => exact absurd hfuel (Nat.not_lt_zero _)
  | succ fuel ih =>
      cases queue with
      | nil => exact ⟨s, rfl, h⟩
      | cons head queue =>
          obtain ⟨queue', s', hrange, hinv, hlen⟩ := h.processRange hall rfl
          rw [List.length_cons] at hfuel
          obtain ⟨s'', hrun, hdone⟩ := ih (by omega) hinv
          refine ⟨s'', ?_, hdone⟩
          rw [ImportEnv.processQueue, hrange]
          exact hrun

/-- **A turn with a block**: it is in the index afterwards, or waits for its parent. -/
theorem importBlock (hall : env.AllPass stored) {p : CDiskBlockPos × CBlock} (hp : p ∈ stored)
    (h : ImportInv env stored seen [] s) :
    ∃ s', env.importBlock s p.2 (some p.1) = some (true, s') ∧
      ImportInv env stored (seen ++ [p]) [] s' := by
  have hsub : ∀ q ∈ seen ++ [p], q ∈ stored := by
    intro q hq
    rcases List.mem_append.mp hq with hq | hq
    · exact h.seen_sub q hq
    · exact List.mem_singleton.mp hq ▸ hp
  -- the successors are processed once the block is in the index
  have hdrain : ∀ (chain : ChainState) (n : Nat), env.Indexed stored chain →
      (∀ x, (s.chain.tree.find x).isSome = true → (chain.tree.find x).isSome = true) →
      (∀ x, (chain.tree.find x).isSome = true → (s.chain.tree.find x).isSome = true ∨
        x = env.blockHash p.2) →
      (chain.tree.find (env.blockHash p.2)).isSome = true →
      ∃ s', env.processSuccessors (env.blockHash p.2) { s with chain, nLoaded := n } = some s' ∧
        ImportInv env stored (seen ++ [p]) [] s' := by
    intro chain n hindexed hgrow hnew hself
    have hfuel : [env.blockHash p.2].length + s.mapBlocksUnknownParent.length <
        s.mapBlocksUnknownParent.length + 2 := by
      rw [List.length_singleton]
      omega
    refine processQueue hall hfuel ⟨hindexed, hsub, fun x hx => ?_, fun e he => ?_,
      fun e he hknown => ?_, fun q hq => ?_⟩
    · rw [List.mem_singleton.mp hx]
      exact hself
    · obtain ⟨block, hseen, hrest⟩ := h.parked e he
      exact ⟨block, List.mem_append_left _ hseen, hrest⟩
    · rcases hnew _ hknown with hold | heq
      · cases h.waiting e he hold
      · exact List.mem_singleton.mpr heq
    · rcases List.mem_append.mp hq with hq | hq
      · exact (h.placed q hq).imp_left (hgrow _)
      · rw [List.mem_singleton.mp hq]
        exact Or.inl hself
  rw [ImportEnv.importBlock]
  by_cases hpark : env.blockHash p.2 ≠ env.accept.params.hashGenesisBlock ∧
      (s.chain.tree.find p.2.hashPrevBlock).isNone = true
  · -- the parent is not known
    rw [if_pos hpark]
    refine ⟨_, rfl, ⟨h.indexed, hsub, fun x hx => (List.not_mem_nil hx).elim, fun e he => ?_,
      fun e he hknown => ?_, fun q hq => ?_⟩⟩
    · rcases List.mem_append.mp he with he | he
      · obtain ⟨block, hseen, hrest⟩ := h.parked e he
        exact ⟨block, List.mem_append_left _ hseen, hrest⟩
      · obtain rfl := List.mem_singleton.mp he
        exact ⟨p.2, List.mem_append_right _ (List.mem_singleton.mpr rfl), rfl, hpark.1⟩
    · rcases List.mem_append.mp he with he | he
      · exact h.waiting e he hknown
      · obtain rfl := List.mem_singleton.mp he
        rw [Option.isNone_iff_eq_none.mp hpark.2] at hknown
        cases hknown
    · rcases List.mem_append.mp hq with hq | hq
      · exact (h.placed q hq).imp_right (List.mem_append_left _)
      · rw [List.mem_singleton.mp hq]
        exact Or.inr (List.mem_append_right _ (List.mem_singleton.mpr rfl))
  rw [if_neg hpark]
  by_cases hdata : s.chain.tree.hasData (env.blockHash p.2) = true
  · -- the block is there already
    rw [if_pos hdata]
    rw [h.indexed.complete.hasData_eq] at hdata
    obtain ⟨s', hrun, hinv⟩ := hdrain s.chain s.nLoaded h.indexed (fun _ => id) (fun _ => Or.inl)
      hdata
    exact ⟨s', by rw [hrun, Option.map_some], hinv⟩
  · have hparent : env.accept.ParentIndexed s.chain.tree p.2 := by
      rw [AcceptContext.ParentIndexed, or_iff_not_imp_left]
      intro hgenesis
      rw [Option.isSome_iff_ne_none]
      intro hnone
      exact hpark ⟨hgenesis, Option.isNone_iff_eq_none.mpr hnone⟩
    obtain ⟨chain, hrun, hindexed, hsome⟩ := processNewBlock_spec hall h.indexed hp hparent
    obtain ⟨s', hdrained, hinv⟩ := hdrain chain (s.nLoaded + 1) hindexed
      (fun x hx => by rw [hsome, hx, Bool.true_or])
      (fun x hx => by rwa [hsome, Bool.or_eq_true, beq_iff_eq] at hx)
      (by rw [hsome, beq_self_eq_true, Bool.or_true])
    refine ⟨s', ?_, hinv⟩
    rw [if_neg hdata, hrun]
    simp only [hdrained, Option.map_some]

end ImportInv

end ImportEnv

/-! ## The block files -/

/-- A block in a file, behind bytes that do not start a message. -/
structure BlockRecord where
  gap : Bytes := []
  block : CBlock

/-- The bytes of the block. -/
def BlockRecord.body (r : BlockRecord) : Bytes := CBlock.codec.ser r.block

/-- A block file, as `WriteBlockToDisk` fills it. -/
structure BlockFile where
  records : List BlockRecord
  tail : Bytes := []

/-- The blocks of the files, in their order. -/
def blocksOf (files : List BlockFile) : List CBlock :=
  files.flatMap fun file => file.records.map BlockRecord.block

/-- The records, as they are in a file. -/
def recordsBytes (env : ImportEnv) (tail : Bytes) : List BlockRecord → Bytes
  | [] => tail
  | r :: records =>
    r.gap ++ (env.messageStart ++ (leBytes 4 r.body.length ++
      (r.body ++ recordsBytes env tail records)))

def BlockFile.bytes (env : ImportEnv) (file : BlockFile) : Bytes :=
  recordsBytes env file.tail file.records

/-- The blocks of the records that begin at `p`, with their positions. -/
def storedAt (nFile : Nat) : Nat → List BlockRecord → List (CDiskBlockPos × CBlock)
  | _, [] => []
  | p, r :: records =>
    (⟨nFile, UInt32.ofNat (p + r.gap.length + 8)⟩, r.block) ::
      storedAt nFile (p + r.gap.length + 8 + r.body.length) records

/-- The blocks of the files from the one with number `nFile` on. -/
def storedFrom : Nat → List BlockFile → List (CDiskBlockPos × CBlock)
  | _, [] => []
  | nFile, file :: files => storedAt nFile 0 file.records ++ storedFrom (nFile + 1) files

/-- What is between the blocks does not start a message, and the blocks are unserialized. -/
structure BlockFile.Written (env : ImportEnv) (file : BlockFile) : Prop where
  gaps : ∀ r ∈ file.records, env.messageStart.headD 0 ∉ r.gap
  tail : env.messageStart.headD 0 ∉ file.tail
  unserializes : ∀ r ∈ file.records, env.unserialize.Takes r.body r.block
  length_lt : (file.bytes env).length < 2 ^ 63

theorem map_snd_storedAt (nFile p : Nat) (records : List BlockRecord) :
    (storedAt nFile p records).map Prod.snd = records.map BlockRecord.block := by
  induction records generalizing p with
  | nil => rfl
  | cons r records ih => rw [storedAt, List.map_cons, ih, List.map_cons]

theorem map_snd_storedFrom (nFile : Nat) (files : List BlockFile) :
    (storedFrom nFile files).map Prod.snd = blocksOf files := by
  induction files generalizing nFile with
  | nil => rfl
  | cons file files ih =>
      rw [storedFrom, List.map_append, map_snd_storedAt, ih]
      rfl

/-- The header alone is 80 bytes. -/
theorem BlockRecord.le_length_body (r : BlockRecord) : 80 ≤ r.body.length := by
  have hbody : r.body = CBlockHeader.codec.ser r.block.toCBlockHeader ++
      (vectorCodec CTransaction.codec).ser r.block.vtx := rfl
  rw [hbody, List.length_append, length_ser_header]
  exact Nat.le_add_right _ _

theorem length_le_recordsBytes (env : ImportEnv) (tail : Bytes) (records : List BlockRecord) :
    records.length ≤ (recordsBytes env tail records).length := by
  induction records with
  | nil => exact Nat.zero_le _
  | cons r records ih =>
      have hbody := r.le_length_body
      simp only [recordsBytes, List.length_append, List.length_cons]
      omega

namespace ImportEnv

variable {env : ImportEnv} {stored seen : List (CDiskBlockPos × CBlock)} {s : ImportState}

/-- **The loop over a file** imports its blocks, and leaves at its end. -/
theorem ImportInv.importLoop (hall : env.AllPass stored) {file tail : Bytes}
    (hfile : file.length < 2 ^ 63) (htail : env.messageStart.headD 0 ∉ tail) {nFile : Nat}
    {records : List BlockRecord} (hgaps : ∀ r ∈ records, env.messageStart.headD 0 ∉ r.gap)
    (htakes : ∀ r ∈ records, env.unserialize.Takes r.body r.block) {fuel : Nat}
    (hfuel : records.length < fuel) {scan : BlockScan}
    (hscan : ScansOn file scan (recordsBytes env tail records))
    (hstored : ∀ p ∈ storedAt nFile scan.blkdat.nReadPos records, p ∈ stored)
    (h : ImportInv env stored seen [] s) :
    ∃ s', env.importLoop file (some ⟨nFile, 0⟩) fuel scan s = some s' ∧
      ImportInv env stored (seen ++ storedAt nFile scan.blkdat.nReadPos records) [] s' := by
  induction records generalizing fuel scan seen s with
  | nil =>
      obtain ⟨fuel, rfl⟩ := Nat.exists_eq_add_one_of_ne_zero (Nat.ne_of_gt hfuel)
      rw [ImportEnv.importLoop, storedAt, List.append_nil]
      split_ifs
      · exact ⟨s, rfl, h⟩
      · obtain ⟨scan', hturn⟩ := @ScansOn.scanTurn_tail file CBlock env.messageStart env.unserialize
          scan _ hfile hscan htail
        exact ⟨s, by rw [hturn], h⟩
  | cons r records ih =>
      obtain ⟨fuel, rfl⟩ :=
        Nat.exists_eq_add_one_of_ne_zero (Nat.ne_of_gt (Nat.zero_lt_of_lt hfuel))
      rw [storedAt] at hstored ⊢
      have hp := hstored _ List.mem_cons_self
      have hbody := r.le_length_body
      have hcheck := hall.check _ hp
      have hmax : r.body.length ≤ maxBlockSize := by
        rw [BlockRecord.body]
        exact checkBlock_size hcheck
      obtain ⟨hplace, scan', hturn, hscan', hnext⟩ := ScansOn.scanTurn_record hfile
        env.messageStart_length (hgaps r List.mem_cons_self) hbody hmax
        (htakes r List.mem_cons_self) hscan
      obtain ⟨s₁, hrun, hinv⟩ := h.importBlock hall hp
      rw [← hnext] at hstored ⊢
      obtain ⟨s', hrest, hdone⟩ := ih (fun q hq => hgaps q (List.mem_cons_of_mem _ hq))
        (fun q hq => htakes q (List.mem_cons_of_mem _ hq)) (Nat.lt_of_succ_lt_succ hfuel) hscan'
        (fun q hq => hstored q (List.mem_cons_of_mem _ hq)) hinv
      refine ⟨s', ?_, ?_⟩
      · have hmore : recordsBytes env tail (r :: records) ≠ [] := by
          intro hnil
          have hlen := congrArg List.length hnil
          simp only [recordsBytes, List.length_append, List.length_nil] at hlen
          omega
        rw [ImportEnv.importLoop, hscan.eof_eq hmore, if_neg Bool.false_ne_true, hturn]
        simp only [hplace, Option.map_some]
        rw [hrun]
        exact hrest
      · rw [List.append_assoc] at hdone
        exact hdone

/-- The files one after the other. -/
theorem ImportInv.reindex (hall : env.AllPass stored) {nFile : Nat} {files : List BlockFile}
    (hwritten : ∀ file ∈ files, file.Written env)
    (hstored : ∀ p ∈ storedFrom nFile files, p ∈ stored) (h : ImportInv env stored seen [] s) :
    ∃ s', env.reindex nFile (files.map fun file => file.bytes env) s = some s' ∧
      ImportInv env stored (seen ++ storedFrom nFile files) [] s' := by
  induction files generalizing nFile seen s with
  | nil =>
      rw [storedFrom, List.append_nil]
      exact ⟨s, rfl, h⟩
  | cons file files ih =>
      rw [storedFrom] at hstored ⊢
      obtain ⟨hgaps, htail, htakes, hlength⟩ := hwritten file List.mem_cons_self
      have hfuel : file.records.length < (file.bytes env).length + 2 := by
        have hle := length_le_recordsBytes env file.tail file.records
        exact Nat.lt_succ_of_le (Nat.le_succ_of_le hle)
      have hstart : ImportInv env stored seen [] { s with nLoaded := 0 } :=
        ⟨h.indexed, h.seen_sub, h.queued, h.parked, h.waiting, h.placed⟩
      obtain ⟨s₁, hrun, hinv⟩ := hstart.importLoop hall hlength htail hgaps htakes hfuel
        (ScansOn.start (file.bytes env)) (fun p hp => hstored p (List.mem_append_left _ hp))
      obtain ⟨s', hrest, hdone⟩ := ih (fun f hf => hwritten f (List.mem_cons_of_mem _ hf))
        (fun p hp => hstored p (List.mem_append_right _ hp)) hinv
      refine ⟨s', ?_, ?_⟩
      · rw [List.map_cons, ImportEnv.reindex, loadExternalBlockFile, hrun]
        exact hrest
      · rw [List.append_assoc] at hdone
        exact hdone

/-- The blocks whose ancestors are among the blocks, down to the genesis block. -/
inductive Rooted (env : ImportEnv) (blocks : List CBlock) : CBlock → Prop
  | genesis {block : CBlock} : block ∈ blocks →
      env.blockHash block = env.accept.params.hashGenesisBlock → Rooted env blocks block
  | child {block parent : CBlock} : block ∈ blocks → Rooted env blocks parent →
      block.hashPrevBlock = env.blockHash parent → Rooted env blocks block

/-- When no parent of a block that waits is in the index, the blocks down to the genesis block
are all in it. -/
theorem ImportInv.isSome_of_rooted (hall : env.AllPass stored)
    (h : ImportInv env stored seen [] s) {block : CBlock}
    (hroot : env.Rooted (seen.map Prod.snd) block) :
    (s.chain.tree.find (env.blockHash block)).isSome = true := by
  induction hroot with
  | genesis hmem hgenesis =>
      obtain ⟨p, hp, rfl⟩ := List.mem_map.mp hmem
      rcases h.placed p hp with hknown | hwait
      · exact hknown
      · -- the genesis block does not wait
        obtain ⟨block, hseen, -, hne⟩ := h.parked _ hwait
        have hread := (hall.read _ (h.seen_sub _ hseen)).symm.trans (hall.read p (h.seen_sub p hp))
        obtain rfl : block = p.2 := Option.some.inj hread
        exact absurd hgenesis hne
  | child hmem _ hprev ih =>
      obtain ⟨p, hp, rfl⟩ := List.mem_map.mp hmem
      rcases h.placed p hp with hknown | hwait
      · exact hknown
      · cases h.waiting _ hwait (by rw [hprev]; exact ih)

/-- **The order of the blocks does not matter**: when the files with the blocks have been imported,
all of them are in the index with their data, and none is left that waits for a parent. -/
theorem hasData_of_reindex (env : ImportEnv) (files : List BlockFile)
    (hwritten : ∀ file ∈ files, file.Written env)
    (hroot : ∀ block ∈ blocksOf files, env.Rooted (blocksOf files) block)
    (hall : env.AllPass (storedFrom 0 files)) :
    ∃ s, env.reindex 0 (files.map fun file => file.bytes env) {} = some s ∧
      (∀ block ∈ blocksOf files, s.chain.tree.hasData (env.blockHash block) = true) ∧
      s.mapBlocksUnknownParent = [] := by
  have hstart : ImportInv env (storedFrom 0 files) [] [] {} := by
    refine ⟨indexed_start, ?_, ?_, ?_, ?_, ?_⟩
    all_goals rintro _ ⟨⟩
  obtain ⟨s, hrun, hinv⟩ := hstart.reindex hall hwritten fun p hp => hp
  rw [List.nil_append] at hinv
  have hindexed : ∀ block ∈ blocksOf files,
      (s.chain.tree.find (env.blockHash block)).isSome = true := by
    intro block hblock
    refine hinv.isSome_of_rooted hall ?_
    rw [map_snd_storedFrom]
    exact hroot block hblock
  refine ⟨s, hrun, fun block hblock => ?_, ?_⟩
  · rw [hinv.indexed.complete.hasData_eq]
    exact hindexed block hblock
  · -- a block that waits is one of the blocks, and so is its parent
    rw [List.eq_nil_iff_forall_not_mem]
    intro e he
    obtain ⟨block, hseen, hprev, hne⟩ := hinv.parked e he
    have hmem : block ∈ blocksOf files := by
      rw [← map_snd_storedFrom 0]
      exact List.mem_map.mpr ⟨_, hseen, rfl⟩
    cases hroot block hmem with
    | genesis _ hgenesis => exact hne hgenesis
    | @child _ parent _ hparent heq =>
        have hknown := hindexed parent (by cases hparent <;> assumption)
        rw [← heq, hprev] at hknown
        cases hinv.waiting e he hknown

/-- The checks of a block, computed. -/
def passesCheck (env : ImportEnv) (s : ChainState) (p : CDiskBlockPos × CBlock) : Bool :=
  let ctx := env.acceptContext s
  ((acceptPrev ctx.toContext s.tree p.2.toCBlockHeader).toOption.all fun pindexPrev =>
    (contextualCheckBlockHeader ctx.toContext s.tree p.2.toCBlockHeader pindexPrev).isOk) &&
  ((acceptBlockHeader ctx.toContext s.tree p.2.toCBlockHeader).toOption.all fun r =>
    (contextualCheckBlock ctx r.2 p.2 (r.2.prev r.1)).isOk) &&
  (activateBestChain env.chain env.steps
    { s with tree := (acceptBlock ctx s.tree p.2 (some p.1)).2 }).any fun r => r.1

theorem ok_of_isOk {x : Except Stop Unit} (h : x.isOk = true) : x = .ok () := by
  cases x with
  | error e => cases h
  | ok u => rfl

theorem passes_of_check {p : CDiskBlockPos × CBlock} {s : ChainState}
    (h : env.passesCheck s p = true) : env.Passes s p := by
  rw [passesCheck, Bool.and_eq_true, Bool.and_eq_true, Option.any_eq_true] at h
  obtain ⟨⟨hheader, hblock⟩, ⟨ok, s'⟩, hactive, hok⟩ := h
  obtain rfl : ok = true := hok
  refine ⟨⟨fun pindexPrev hprev => ?_, fun pindex tree' hrun => ?_⟩, s', hactive⟩
  · rw [hprev] at hheader
    exact ok_of_isOk hheader
  · rw [hrun] at hblock
    exact ok_of_isOk hblock

end ImportEnv

/-! ## Two blocks in the wrong order -/

/-- Two copies of a block, and then its parent in another file. -/
def importFiles : List BlockFile :=
  [⟨[⟨[], minedFirst⟩, ⟨[0], minedFirst⟩], [0, 0]⟩, ⟨[⟨[], minedGenesis⟩], []⟩]

/-- The blocks are as long as each other, and are read in one piece. -/
def importEnv : ImportEnv where
  accept := minedContext
  chain := minedEnv
  steps := 3
  messageStart := [0xf9, 0xbe, 0xb4, 0xd9]
  messageStart_length := rfl
  unserialize := .read 144 fun pch => (CBlock.codec.de pch).toOption.elim .throw fun r => .ret r.1
  readFile pos := ((storedFrom 0 importFiles).find? fun p => p.1 == pos).map Prod.snd
  isError _ := false

/-- The state of the chain after a block has been processed. -/
def importStep (s : ChainState) (pos : CDiskBlockPos) (block : CBlock) : ChainState :=
  ((importEnv.processNewBlock s block (some pos)).map Prod.snd).getD s

/-- All states of the chain that can be reached. -/
def importStates : List ChainState :=
  [{}, importStep {} ⟨1, 8⟩ minedGenesis,
    importStep (importStep {} ⟨1, 8⟩ minedGenesis) ⟨0, 8⟩ minedFirst,
    importStep (importStep {} ⟨1, 8⟩ minedGenesis) ⟨0, 161⟩ minedFirst]

instance OrdMap.decidableEq {α β : Type} [LinearOrder α] [DecidableEq β] :
    DecidableEq (Ordered.OrdMap α β) := fun m m' =>
  decidable_of_iff (m.entries = m'.entries) ⟨fun h => by
    cases m
    cases m'
    cases h
    rfl, fun h => by rw [h]⟩

deriving instance DecidableEq for BlockTree
deriving instance DecidableEq for ChainState

/-- No other state is reached. -/
theorem importStates_closed {s : ChainState} (hs : s ∈ importStates) {p : CDiskBlockPos × CBlock}
    (hp : p ∈ storedFrom 0 importFiles) {r : Except Stop Unit} {s' : ChainState}
    (hrun : importEnv.processNewBlock s p.2 (some p.1) = some (r, s')) : s' ∈ importStates := by
  have hall : ∀ s ∈ importStates, ∀ p ∈ storedFrom 0 importFiles,
      importStep s p.1 p.2 ∈ importStates := by
    decide +kernel
  have hnext := hall s hs p hp
  rwa [importStep, hrun, Option.map_some, Option.getD_some] at hnext

/-- In each of them a block whose parent is in the index passes its checks. -/
theorem importStates_pass : ∀ s ∈ importStates, ∀ p ∈ storedFrom 0 importFiles,
    p.2.getHash exampleHash = minedGenesis.getHash exampleHash ∨
      (s.tree.find p.2.hashPrevBlock).isSome = true → importEnv.passesCheck s p = true := by
  decide +kernel

theorem mem_importStates {s : ChainState} (h : importEnv.Reached (storedFrom 0 importFiles) s) :
    s ∈ importStates := by
  induction h with
  | start => exact List.mem_cons_self
  | process _ hp hrun ih => exact importStates_closed ih hp hrun

/-- The blocks of the example pass their checks, and the disk returns them. -/
theorem allPass_importEnv : importEnv.AllPass (storedFrom 0 importFiles) where
  check := by
    have hcheck : ∀ p ∈ storedFrom 0 importFiles,
        (checkBlock importEnv.accept.toContext p.2 true true).isOk = true := by
      decide +kernel
    exact fun p hp => ImportEnv.ok_of_isOk (hcheck p hp)
  connect := fun _ _ => rfl
  pass := fun s hs p hp hparent =>
    ImportEnv.passes_of_check (importStates_pass s (mem_importStates hs) p hp hparent)
  read := by decide +kernel

/-- The files of the example are read as they were written. -/
theorem written_importFiles : ∀ file ∈ importFiles, file.Written importEnv := by
  have hbody : ∀ file ∈ importFiles, ∀ r ∈ file.records, r.body.length = 144 ∧
      (CBlock.codec.de r.body).toOption = some (r.block, []) := by
    decide +kernel
  have hgaps : ∀ file ∈ importFiles, (∀ r ∈ file.records, importEnv.messageStart.headD 0 ∉ r.gap) ∧
      importEnv.messageStart.headD 0 ∉ file.tail ∧ (file.bytes importEnv).length < 2 ^ 63 := by
    decide +kernel
  intro file hfile
  obtain ⟨hgap, htail, hlen⟩ := hgaps file hfile
  refine ⟨hgap, htail, fun r hr => ?_, hlen⟩
  obtain ⟨hlength, hde⟩ := hbody file hfile r hr
  have htakes := @Unserialize.Takes.read CBlock 144
    (fun pch => (CBlock.codec.de pch).toOption.elim .throw fun r => .ret r.1) r.body [] r.block
    hlength (by decide) (by rw [hde]; exact .ret r.block)
  rwa [List.append_nil] at htakes

theorem rooted_importFiles : ∀ block ∈ blocksOf importFiles,
    importEnv.Rooted (blocksOf importFiles) block := by
  have hblocks : blocksOf importFiles = [minedFirst, minedFirst, minedGenesis] := rfl
  have hgenesis : importEnv.Rooted (blocksOf importFiles) minedGenesis := by
    refine .genesis ?_ rfl
    rw [hblocks]
    simp
  have hfirst : importEnv.Rooted (blocksOf importFiles) minedFirst := by
    refine .child ?_ hgenesis rfl
    rw [hblocks]
    exact List.mem_cons_self
  intro block hblock
  rw [hblocks] at hblock
  simp only [List.mem_cons, List.not_mem_nil, or_false] at hblock
  rcases hblock with rfl | rfl | rfl
  · exact hfirst
  · exact hfirst
  · exact hgenesis

theorem hasData_of_reindex_importFiles :
    ∃ s, importEnv.reindex 0 (importFiles.map fun file => file.bytes importEnv) {} = some s ∧
      (∀ block ∈ blocksOf importFiles, s.chain.tree.hasData (importEnv.blockHash block) = true) ∧
      s.mapBlocksUnknownParent = [] :=
  ImportEnv.hasData_of_reindex importEnv importFiles written_importFiles rooted_importFiles
    allPass_importEnv

end Hivemind
