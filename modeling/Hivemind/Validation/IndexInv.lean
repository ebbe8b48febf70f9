import Hivemind.Validation.ChainTx

/-!
# The block index between the calls

What holds of the entries of `mapBlockIndex` after every header and every block, whatever has
been invalidated: the entries of linked blocks have data, those with data have been checked up to
`BLOCK_VALID_TRANSACTIONS`, and a block that gets linked is put among the candidates.

The functions on the index fall into two kinds.  Some only set and clear flags, and these keep
the invariant without a look at it.  The others add a header or the data of a block; what they
may change is `Grown`: no candidate is lost, a new candidate has its data, and data that have
come stay.  The candidates are dealt with later on in terms of these two, and none of the later
modules unfolds a function again.

* `TreeInv`: the invariant, which every function that only reflags keeps.
* `Grown`: what headers and data may change.
* `TreeInv.linkBlocks`, `TreeInv.receivedBlockTransactions`: what got linked is a candidate.
* `TreeInv.indexStep`: **a call of `AcceptBlockHeader` or `AcceptBlock`.**
-/

namespace Hivemind

open Codecs Ordered Outcomes

/-! ## The invariant -/

/-- What holds of the entries and of the blocks that wait, while the blocks of the queue are
to be linked. -/
structure TreeInv (tree : BlockTree) (queue : List Uint256) : Prop where
  hashes : ∀ {h p}, tree.find h = some p → p.phashBlock = some h
  heights : ∀ {h p}, tree.find h = some p →
    0 ≤ p.nHeight ∧ (p.pprev ≠ none → 1 ≤ p.nHeight)
  level : ∀ {h p}, tree.find h = some p → hasStatus p.nStatus blockHaveData = true →
    blockValidTransactions ≤ p.nStatus &&& blockValidMask
  chainTx : ∀ {h p}, tree.find h = some p → p.nChainTx ≠ 0 →
    hasStatus p.nStatus blockHaveData = true
  nTx : ∀ {h p}, tree.find h = some p → hasStatus p.nStatus blockHaveData = true → p.nTx ≠ 0
  root : ∀ {h p}, tree.find h = some p → hasStatus p.nStatus blockHaveData = true →
    p.pprev = none → h ∈ queue ∨ p.nChainTx ≠ 0
  registered : ∀ {prev h}, (prev, h) ∈ tree.mapBlocksUnlinked →
    ∃ p, tree.find h = some p ∧ p.pprev = some prev ∧ hasStatus p.nStatus blockHaveData = true
  queued : ∀ {h}, h ∈ queue → ∃ p, tree.find h = some p ∧
    hasStatus p.nStatus blockHaveData = true

namespace TreeInv

variable {tree tree' : BlockTree}

theorem empty : TreeInv {} [] where
  hashes := by rintro h p ⟨⟩
  heights := by rintro h p ⟨⟩
  level := by rintro h p ⟨⟩
  chainTx := by rintro h p ⟨⟩
  nTx := by rintro h p ⟨⟩
  root := by rintro h p ⟨⟩
  registered := by rintro prev h ⟨⟩
  queued := by rintro h ⟨⟩

theorem reflagged (inv : TreeInv tree []) (h : Reflagged tree tree') : TreeInv tree' [] := by
  have hfields : ∀ {p p'}, SameBlock p p' → p'.phashBlock = p.phashBlock ∧ p'.pprev = p.pprev ∧
      p'.nHeight = p.nHeight ∧ p'.nChainTx = p.nChainTx ∧ p'.nTx = p.nTx := by
    intro p p' hs
    rw [hs.eq]
    exact ⟨rfl, rfl, rfl, rfl, rfl⟩
  refine ⟨?_, ?_, ?_, ?_, ?_, ?_, ?_, ?_⟩
  · intro x p' hx
    obtain ⟨p, hfind, hsame⟩ := h.back hx
    rw [(hfields hsame).1]
    exact inv.hashes hfind
  · intro x p' hx
    obtain ⟨p, hfind, hsame⟩ := h.back hx
    obtain ⟨-, hprev, hheight, -⟩ := hfields hsame
    rw [hprev, hheight]
    exact inv.heights hfind
  · intro x p' hx hdata
    obtain ⟨p, hfind, hsame⟩ := h.back hx
    exact UInt32.le_trans (inv.level hfind (hsame.data ▸ hdata)) hsame.level
  · intro x p' hx hne
    obtain ⟨p, hfind, hsame⟩ := h.back hx
    rw [hsame.data]
    exact inv.chainTx hfind ((hfields hsame).2.2.2.1 ▸ hne)
  · intro x p' hx hdata
    obtain ⟨p, hfind, hsame⟩ := h.back hx
    rw [(hfields hsame).2.2.2.2]
    exact inv.nTx hfind (hsame.data ▸ hdata)
  · intro x p' hx hdata hprev
    obtain ⟨p, hfind, hsame⟩ := h.back hx
    rw [(hfields hsame).2.2.2.1]
    exact inv.root hfind (hsame.data ▸ hdata) ((hfields hsame).2.1 ▸ hprev)
  · intro prev x hreg
    rw [h.unlinked] at hreg
    obtain ⟨p, hfind, hprev, hdata⟩ := inv.registered hreg
    obtain ⟨p', hfind', hsame⟩ := h.find_some x p hfind
    exact ⟨p', hfind', (hfields hsame).2.1.trans hprev, hsame.data.trans hdata⟩
  · rintro x ⟨⟩

theorem addToBlockIndex (inv : TreeInv tree []) (hash : Uint256) (block : CBlockHeader) :
    TreeInv (tree.addToBlockIndex hash block) [] := by
  obtain ⟨_, -, heq⟩ | ⟨hnone, hnew, hother⟩ := tree.find_addToBlockIndex hash block
  · rwa [heq]
  have hisNew := tree.isNew_newEntry hash block
  have hdata := tree.newEntry_noData hash block
  have hback : ∀ {x p}, (tree.addToBlockIndex hash block).find x = some p →
      (x = hash ∧ p = tree.newEntry hash block) ∨ tree.find x = some p := by
    intro x p hx
    by_cases hxh : x = hash
    · subst hxh
      rw [hnew] at hx
      exact Or.inl ⟨rfl, (Option.some.inj hx).symm⟩
    · exact Or.inr ((hother x hxh).symm.trans hx)
  refine ⟨?_, ?_, ?_, ?_, ?_, ?_, ?_, ?_⟩
  · intro x p hx
    rcases hback hx with ⟨rfl, rfl⟩ | hold
    · exact hisNew.phashBlock
    · exact inv.hashes hold
  · intro x p hx
    rcases hback hx with ⟨-, rfl⟩ | hold
    · rcases hisNew.parent with ⟨hnil, hzero, -⟩ | ⟨-, ⟨-, hone⟩ | ⟨q, hq, hheight, -⟩⟩
      · exact ⟨by omega, fun hne => absurd hnil hne⟩
      · exact ⟨by omega, fun _ => by omega⟩
      · have := (inv.heights hq).1
        exact ⟨by omega, fun _ => by omega⟩
    · exact inv.heights hold
  · intro x p hx hd
    rcases hback hx with ⟨-, rfl⟩ | hold
    · rw [hdata] at hd
      cases hd
    · exact inv.level hold hd
  · intro x p hx hne
    rcases hback hx with ⟨-, rfl⟩ | hold
    · exact absurd hisNew.nChainTx hne
    · exact inv.chainTx hold hne
  · intro x p hx hd
    rcases hback hx with ⟨-, rfl⟩ | hold
    · rw [hdata] at hd
      cases hd
    · exact inv.nTx hold hd
  · intro x p hx hd hprev
    rcases hback hx with ⟨-, rfl⟩ | hold
    · rw [hdata] at hd
      cases hd
    · exact inv.root hold hd hprev
  · intro prev x hreg
    have hunlinked : (tree.addToBlockIndex hash block).mapBlocksUnlinked =
        tree.mapBlocksUnlinked := by
      rw [BlockTree.addToBlockIndex, hnone]
      rfl
    rw [hunlinked] at hreg
    obtain ⟨p, hx, hp, hd⟩ := inv.registered hreg
    have hxh : x ≠ hash := by
      rintro rfl
      rw [hnone] at hx
      cases hx
    exact ⟨p, (hother x hxh).trans hx, hp, hd⟩
  · rintro x ⟨⟩

/-- One turn of the loop of `ReceivedBlockTransactions`. -/
theorem linkBlock {hash : Uint256} {queue : List Uint256} (inv : TreeInv tree (hash :: queue))
    {pindex : CBlockIndex} (hfind : tree.find hash = some pindex) :
    TreeInv (tree.linkBlock hash pindex)
      (queue ++ (tree.mapBlocksUnlinked.filter fun u => u.1 == hash).map Prod.snd) := by
  -- an entry differs in `nChainTx` only, and only if it is that of the block
  have hback : ∀ {x p'}, (tree.linkBlock hash pindex).find x = some p' → ∃ p, tree.find x = some p ∧
      p' = { p with nChainTx := p'.nChainTx } ∧ (x ≠ hash → p' = p) ∧
      (x = hash → p'.nChainTx = LinkInv.linkedTx tree pindex) := by
    intro x p' hx
    rw [LinkInv.find_linkBlock hfind x] at hx
    obtain ⟨p, hp, rfl⟩ := Option.map_eq_some_iff.mp hx
    refine ⟨p, hp, ?_⟩
    by_cases hxh : x = hash
    · simp [hxh]
    · simp [hxh]
  have hkeep : ∀ {x p}, tree.find x = some p → ∃ p', (tree.linkBlock hash pindex).find x = some p' ∧
      p'.pprev = p.pprev ∧ p'.nStatus = p.nStatus := by
    intro x p hx
    rw [LinkInv.find_linkBlock hfind x, hx]
    refine ⟨_, rfl, ?_⟩
    split_ifs
    · exact ⟨rfl, rfl⟩
    · exact ⟨rfl, rfl⟩
  have hunlinked : ∀ u, u ∈ (tree.linkBlock hash pindex).mapBlocksUnlinked →
      u ∈ tree.mapBlocksUnlinked := by
    intro u hu
    exact (List.mem_filter.mp hu).1
  refine ⟨?_, ?_, ?_, ?_, ?_, ?_, ?_, ?_⟩
  · intro x p' hx
    obtain ⟨p, hp, heq, -⟩ := hback hx
    have hold := inv.hashes hp
    rw [heq]
    exact hold
  · intro x p' hx
    obtain ⟨p, hp, heq, -⟩ := hback hx
    have hold := inv.heights hp
    rw [heq]
    exact hold
  · intro x p' hx
    obtain ⟨p, hp, heq, -⟩ := hback hx
    have hold := inv.level hp
    rw [heq]
    exact hold
  · intro x p' hx hne
    obtain ⟨p, hp, heq, hother, -⟩ := hback hx
    by_cases hxh : x = hash
    · obtain ⟨q, hq, hdata⟩ := inv.queued (List.mem_cons_self ..)
      rw [← hxh, hp] at hq
      cases hq
      rw [heq]
      exact hdata
    · rw [hother hxh] at hne ⊢
      exact inv.chainTx hp hne
  · intro x p' hx
    obtain ⟨p, hp, heq, -⟩ := hback hx
    have hold := inv.nTx hp
    rw [heq]
    exact hold
  · intro x p' hx hdata hprev
    obtain ⟨p, hp, heq, hother, hself⟩ := hback hx
    by_cases hxh : x = hash
    · right
      have hxp : p = pindex := by
        rw [hxh, hfind] at hp
        exact (Option.some.inj hp).symm
      rw [heq] at hdata hprev
      rw [hself hxh, LinkInv.linkedTx, ← hxp, BlockTree.prev, show p.pprev = none from hprev]
      simpa using inv.nTx hp hdata
    · rw [hother hxh] at hdata hprev ⊢
      rcases inv.root hp hdata hprev with hmem | hne
      · rcases List.mem_cons.mp hmem with hmem | hmem
        · exact absurd hmem hxh
        · exact Or.inl (List.mem_append_left _ hmem)
      · exact Or.inr hne
  · intro prev x hreg
    obtain ⟨p, hp, hprev, hdata⟩ := inv.registered (hunlinked _ hreg)
    obtain ⟨p', hp', hpprev, hstatus⟩ := hkeep hp
    exact ⟨p', hp', hpprev.trans hprev, hstatus ▸ hdata⟩
  · intro x hmem
    have hold : ∃ p, tree.find x = some p ∧ hasStatus p.nStatus blockHaveData = true := by
      rcases List.mem_append.mp hmem with hmem | hmem
      · exact inv.queued (List.mem_cons_of_mem _ hmem)
      · obtain ⟨⟨prev, y⟩, hu, rfl⟩ := List.mem_map.mp hmem
        obtain ⟨p, hp, -, hdata⟩ := inv.registered (List.mem_filter.mp hu).1
        exact ⟨p, hp, hdata⟩
    obtain ⟨p, hp, hdata⟩ := hold
    obtain ⟨p', hp', -, hstatus⟩ := hkeep hp
    exact ⟨p', hp', hstatus ▸ hdata⟩

end TreeInv

/-! ## What headers and data change -/

/-- No candidate is lost, a new one has its data, the blocks with data keep what they have,
and a block that gets linked is a candidate. -/
structure Grown (tree tree' : BlockTree) : Prop where
  candidates : ∀ h ∈ tree.setBlockIndexCandidates, h ∈ tree'.setBlockIndexCandidates
  kept : ∀ {h p}, tree.find h = some p → hasStatus p.nStatus blockHaveData = true →
    ∃ p', tree'.find h = some p' ∧ p' = { p with nChainTx := p'.nChainTx }
  linked : ∀ {h p'}, tree'.find h = some p' → p'.nChainTx ≠ 0 →
    h ∈ tree'.setBlockIndexCandidates ∨ tree.find h = some p'
  fresh : ∀ h ∈ tree'.setBlockIndexCandidates,
    h ∈ tree.setBlockIndexCandidates ∨ tree'.hasData h = true

namespace Grown

variable {tree tree' tree'' : BlockTree}

theorem refl (tree : BlockTree) : Grown tree tree :=
  ⟨fun _ h => h, fun hfind _ => ⟨_, hfind, rfl⟩, fun hfind _ => Or.inr hfind,
    fun _ h => Or.inl h⟩

/-- Data that have come stay. -/
theorem hasData (h : Grown tree tree') {hash : Uint256} (hdata : tree.hasData hash = true) :
    tree'.hasData hash = true := by
  obtain ⟨p, hfind, hp⟩ := BlockTree.find_of_hasData hdata
  obtain ⟨p', hfind', heq⟩ := h.kept hfind hp
  rw [BlockTree.hasData_of_find hfind', heq]
  exact hp

theorem trans (h : Grown tree tree') (h' : Grown tree' tree'') : Grown tree tree'' := by
  refine ⟨fun x hx => h'.candidates x (h.candidates x hx), ?_, ?_, ?_⟩
  · intro x p hfind hdata
    obtain ⟨p', hfind', heq⟩ := h.kept hfind hdata
    obtain ⟨p'', hfind'', heq'⟩ := h'.kept hfind' (by rw [heq]; exact hdata)
    refine ⟨p'', hfind'', ?_⟩
    rw [heq', heq]
  · intro x p'' hfind hne
    rcases h'.linked hfind hne with hmem | hfind'
    · exact Or.inl hmem
    · rcases h.linked hfind' hne with hmem | hold
      · exact Or.inl (h'.candidates x hmem)
      · exact Or.inr hold
  · intro x hx
    rcases h'.fresh x hx with hmem | hdata
    · rcases h.fresh x hmem with hold | hdata
      · exact Or.inl hold
      · exact Or.inr (h'.hasData hdata)
    · exact Or.inr hdata

/-- An entry without data is written that is not linked. -/
theorem put {hash : Uint256} {p' : CBlockIndex} (hzero : p'.nChainTx = 0)
    (hnodata : ∀ p, tree.find hash = some p → hasStatus p.nStatus blockHaveData = false) :
    Grown tree (tree.put hash p') := by
  refine ⟨fun _ h => h, ?_, ?_, fun _ h => Or.inl h⟩
  · intro x p hfind hdata
    have hne : x ≠ hash := by
      rintro rfl
      rw [hnodata p hfind] at hdata
      cases hdata
    exact ⟨p, (BlockTree.find_put_of_ne _ _ hne).trans hfind, rfl⟩
  · intro x q hfind hne
    by_cases hxh : x = hash
    · subst hxh
      rw [BlockTree.find_put_self] at hfind
      cases hfind
      exact absurd hzero hne
    · rw [BlockTree.find_put_of_ne _ _ hxh] at hfind
      exact Or.inr hfind

theorem linkBlock {hash : Uint256} {pindex : CBlockIndex} (hfind : tree.find hash = some pindex)
    (hdata : hasStatus pindex.nStatus blockHaveData = true) :
    Grown tree (tree.linkBlock hash pindex) := by
  have hmem : hash ∈ (tree.linkBlock hash pindex).setBlockIndexCandidates := by
    show hash ∈ if _ then _ else _
    split_ifs with hin
    · exact hin
    · exact List.mem_cons_self ..
  refine ⟨?_, ?_, ?_, ?_⟩
  · intro x hx
    show x ∈ if _ then _ else _
    split_ifs
    · exact hx
    · exact List.mem_cons_of_mem _ hx
  · intro x p hx _
    rw [LinkInv.find_linkBlock hfind x, hx]
    refine ⟨_, rfl, ?_⟩
    split_ifs
    · rfl
    · rfl
  · intro x p' hx _
    by_cases hxh : x = hash
    · exact Or.inl (hxh ▸ hmem)
    · rw [LinkInv.find_linkBlock hfind x] at hx
      obtain ⟨p, hp, rfl⟩ := Option.map_eq_some_iff.mp hx
      rw [if_neg hxh]
      exact Or.inr hp
  · intro x hx
    by_cases hxh : x = hash
    · -- the turn leaves the status of its block alone
      have hself := LinkInv.find_linkBlock hfind hash
      rw [hfind, Option.map_some, if_pos rfl] at hself
      right
      rw [hxh, BlockTree.hasData_of_find hself]
      exact hdata
    · change x ∈ if _ then _ else _ at hx
      split_ifs at hx
      · exact Or.inl hx
      · exact Or.inl ((List.mem_cons.mp hx).resolve_left hxh)

end Grown

/-- **The whole loop**: the index is sound again, and what got linked is a candidate. -/
theorem TreeInv.linkBlocks {n : Nat} {tree : BlockTree} {queue : List Uint256}
    (inv : TreeInv tree queue) (hn : queue.length + tree.mapBlocksUnlinked.length ≤ n) :
    TreeInv (BlockTree.linkBlocks n queue tree) [] ∧
      Grown tree (BlockTree.linkBlocks n queue tree) := by
  let I : BlockTree → List Uint256 → Prop := fun tree' queue => TreeInv tree' queue ∧
    Grown tree tree'
  have hstep : ∀ tree' hash queue, I tree' (hash :: queue) → ∃ pindex,
      tree'.find hash = some pindex ∧ I (tree'.linkBlock hash pindex)
        (queue ++ (tree'.mapBlocksUnlinked.filter fun u => u.1 == hash).map Prod.snd) := by
    rintro tree' hash queue ⟨hinv, hgrown⟩
    obtain ⟨pindex, hfind, hdata⟩ := hinv.queued (List.mem_cons_self ..)
    exact ⟨pindex, hfind, hinv.linkBlock hfind, hgrown.trans (Grown.linkBlock hfind hdata)⟩
  exact @linkBlocks_induct I hstep n queue tree ⟨inv, Grown.refl tree⟩ hn

/-- What `ReceivedBlockTransactions` writes to the entry of a block that is not failed. -/
structure IsReceived (p p' : CBlockIndex) : Prop where
  phashBlock : p'.phashBlock = p.phashBlock
  pprev : p'.pprev = p.pprev
  nHeight : p'.nHeight = p.nHeight
  nChainTx : p'.nChainTx = 0
  nTx : p'.nTx ≠ 0
  data : hasStatus p'.nStatus blockHaveData = true
  level : blockValidTransactions ≤ p'.nStatus &&& blockValidMask

theorem isReceived_receivedEntry (tree : BlockTree) {block : CBlock} {pindex : CBlockIndex}
    (pos : CDiskBlockPos) (hok : hasStatus pindex.nStatus blockFailedMask = false)
    (hvtx : block.vtx ≠ []) (hlen : block.vtx.length < 2 ^ 32) :
    IsReceived pindex (tree.receivedEntry block pindex pos) := by
  have hdata := BlockTree.hasData_receivedEntry tree block pindex pos
  have hlevel : blockValidTransactions ≤
      (tree.receivedEntry block pindex pos).nStatus &&& blockValidMask := by
    rw [BlockTree.receivedEntry]
    unfold CBlockIndex.raiseValidity
    rw [if_neg (by simp [hok]; decide)]
    split_ifs with hlt
    · show _ ≤ (((pindex.nStatus ||| blockHaveData) &&& ~~~blockValidMask) |||
        blockValidTransactions) &&& blockValidMask
      rw [status_or_and, UInt32.and_assoc, show ~~~blockValidMask &&& blockValidMask = 0 by decide,
        UInt32.and_zero, UInt32.zero_or]
      decide
    · exact UInt32.not_lt.mp hlt
  rw [BlockTree.receivedEntry, CBlockIndex.raiseValidity_eq] at hdata hlevel ⊢
  refine ⟨rfl, rfl, rfl, rfl, ?_, hdata, hlevel⟩
  intro h0
  have hnat := congrArg UInt32.toNat h0
  rw [UInt32.toNat_ofNat_of_lt' hlen, UInt32.toNat_zero] at hnat
  exact hvtx (List.length_eq_zero_iff.mp hnat)

namespace TreeInv

variable {tree tree' : BlockTree} {queue : List Uint256}

/-- The data of a block that had none, before anything is linked. -/
theorem received (inv : TreeInv tree []) {hash : Uint256} {pindex pindexNew : CBlockIndex}
    (hfind : tree.find hash = some pindex)
    (hnodata : hasStatus pindex.nStatus blockHaveData = false)
    (hnew : IsReceived pindex pindexNew)
    (hself : tree'.find hash = some pindexNew) (hother : ∀ x, x ≠ hash → tree'.find x = tree.find x)
    (hadded : ∀ u ∈ tree'.mapBlocksUnlinked, u ∈ tree.mapBlocksUnlinked ∨
      ∃ prev, pindex.pprev = some prev ∧ u = (prev, hash))
    (hqueue : queue = [hash] ∨ (queue = [] ∧ pindex.pprev ≠ none)) : TreeInv tree' queue := by
  have hback : ∀ {x p'}, tree'.find x = some p' → (x = hash ∧ p' = pindexNew) ∨
      (x ≠ hash ∧ tree.find x = some p') := by
    intro x p' hx
    by_cases hxh : x = hash
    · subst hxh
      rw [hself] at hx
      exact Or.inl ⟨rfl, (Option.some.inj hx).symm⟩
    · exact Or.inr ⟨hxh, (hother x hxh).symm.trans hx⟩
  refine ⟨?_, ?_, ?_, ?_, ?_, ?_, ?_, ?_⟩
  · intro x p' hx
    rcases hback hx with ⟨rfl, rfl⟩ | ⟨-, hold⟩
    · rw [hnew.phashBlock]
      exact inv.hashes hfind
    · exact inv.hashes hold
  · intro x p' hx
    rcases hback hx with ⟨rfl, rfl⟩ | ⟨-, hold⟩
    · rw [hnew.nHeight, hnew.pprev]
      exact inv.heights hfind
    · exact inv.heights hold
  · intro x p' hx hdata
    rcases hback hx with ⟨rfl, rfl⟩ | ⟨-, hold⟩
    · exact hnew.level
    · exact inv.level hold hdata
  · intro x p' hx hne
    rcases hback hx with ⟨rfl, rfl⟩ | ⟨-, hold⟩
    · exact hnew.data
    · exact inv.chainTx hold hne
  · intro x p' hx hdata
    rcases hback hx with ⟨rfl, rfl⟩ | ⟨-, hold⟩
    · exact hnew.nTx
    · exact inv.nTx hold hdata
  · intro x p' hx hdata hprev
    rcases hback hx with ⟨rfl, rfl⟩ | ⟨-, hold⟩
    · rcases hqueue with rfl | ⟨-, hne⟩
      · exact Or.inl (List.mem_singleton.mpr rfl)
      · exact absurd (hnew.pprev ▸ hprev) hne
    · rcases inv.root hold hdata hprev with hmem | hne
      · cases hmem
      · exact Or.inr hne
  · intro prev x hreg
    rcases hadded _ hreg with hreg | ⟨prev', hp, heq⟩
    · obtain ⟨p, hx, hp, hd⟩ := inv.registered hreg
      have hxh : x ≠ hash := by
        rintro rfl
        rw [hfind] at hx
        cases hx
        rw [hnodata] at hd
        cases hd
      exact ⟨p, (hother x hxh).trans hx, hp, hd⟩
    · cases heq
      exact ⟨pindexNew, hself, hnew.pprev.trans hp, hnew.data⟩
  · intro x hmem
    rcases hqueue with rfl | ⟨rfl, -⟩
    · obtain rfl := List.mem_singleton.mp hmem
      exact ⟨pindexNew, hself, hnew.data⟩
    · cases hmem

/-- **What the data of a block do** to the index and to the candidates. -/
theorem receivedBlockTransactions (inv : TreeInv tree []) {hash : Uint256} {block : CBlock}
    {pindex : CBlockIndex} {pos : CDiskBlockPos} (hfind : tree.find hash = some pindex)
    (hnodata : hasStatus pindex.nStatus blockHaveData = false)
    (hok : hasStatus pindex.nStatus blockFailedMask = false) (hvtx : block.vtx ≠ [])
    (hlen : block.vtx.length < 2 ^ 32) :
    TreeInv (tree.receivedBlockTransactions hash block pindex pos) [] ∧
      Grown tree (tree.receivedBlockTransactions hash block pindex pos) := by
  have hnew := isReceived_receivedEntry tree pos hok hvtx hlen
  rw [BlockTree.receivedBlockTransactions]
  simp only
  generalize tree.receivedEntry block pindex pos = pindexNew at hnew ⊢
  generalize htree : { tree.put hash pindexNew with
    nBlockSequenceId := tree.nBlockSequenceId + 1 } = tree₁
  have hself : tree₁.find hash = some pindexNew := by
    rw [← htree]
    exact BlockTree.find_put_self ..
  have hother : ∀ x, x ≠ hash → tree₁.find x = tree.find x := by
    intro x hx
    rw [← htree]
    exact BlockTree.find_put_of_ne _ _ hx
  have hunlinked : tree₁.mapBlocksUnlinked = tree.mapBlocksUnlinked := by rw [← htree]; rfl
  have hput : Grown tree tree₁ := by
    rw [← htree]
    have hgrown : Grown tree (tree.put hash pindexNew) := by
      refine Grown.put hnew.nChainTx ?_
      intro p hp
      rw [hfind] at hp
      cases hp
      exact hnodata
    exact ⟨hgrown.candidates, hgrown.kept, hgrown.linked, hgrown.fresh⟩
  -- the block is linked at once
  have hlink : TreeInv (BlockTree.linkBlocks (tree₁.mapBlocksUnlinked.length + 1) [hash] tree₁) [] ∧
      Grown tree (BlockTree.linkBlocks (tree₁.mapBlocksUnlinked.length + 1) [hash] tree₁) := by
    have hinv : TreeInv tree₁ [hash] := inv.received hfind hnodata hnew hself hother
      (fun u hu => Or.inl (hunlinked ▸ hu)) (Or.inl rfl)
    obtain ⟨hinv', hgrown⟩ := @TreeInv.linkBlocks (tree₁.mapBlocksUnlinked.length + 1) _ _ hinv (by
      rw [List.length_singleton]
      omega)
    exact ⟨hinv', hput.trans hgrown⟩
  -- the block has a parent and waits
  have hwait : ∀ {tree₂ : BlockTree}, pindex.pprev ≠ none → (∀ x, tree₂.find x = tree₁.find x) →
      tree₂.setBlockIndexCandidates = tree₁.setBlockIndexCandidates →
      (∀ u ∈ tree₂.mapBlocksUnlinked, u ∈ tree.mapBlocksUnlinked ∨
        ∃ prev, pindex.pprev = some prev ∧ u = (prev, hash)) →
      TreeInv tree₂ [] ∧ Grown tree tree₂ := by
    intro tree₂ hprev hsame hcandidates hadded
    refine ⟨inv.received hfind hnodata hnew ((hsame hash).trans hself)
      (fun x hx => (hsame x).trans (hother x hx)) hadded (Or.inr ⟨rfl, hprev⟩), ?_⟩
    refine hput.trans ⟨?_, ?_, ?_, ?_⟩
    · intro x hx
      rw [hcandidates]
      exact hx
    · intro x p hx _
      exact ⟨p, (hsame x).trans hx, rfl⟩
    · intro x p hx _
      exact Or.inr ((hsame x).symm.trans hx)
    · intro x hx
      rw [hcandidates] at hx
      exact Or.inl hx
  unfold BlockTree.linkReceived
  split
  · exact hlink
  · rename_i prev hprev _
    rw [hnew.pprev] at hprev
    refine hwait (by simp [hprev]) (fun _ => rfl) rfl ?_
    intro u hu
    exact Or.inl (hunlinked ▸ hu)
  · rename_i prev pprev hprev _
    rw [hnew.pprev] at hprev
    split_ifs
    · exact hlink
    · refine hwait (by simp [hprev]) (fun _ => rfl) rfl ?_
      intro u hu
      rcases List.mem_append.mp hu with hu | hu
      · exact Or.inl (hunlinked ▸ hu)
      · exact Or.inr ⟨prev, hprev, List.mem_singleton.mp hu⟩
    · refine hwait (by simp [hprev]) (fun _ => rfl) rfl ?_
      intro u hu
      exact Or.inl (hunlinked ▸ hu)

/-- What `AcceptBlockHeader` leaves.  It gives no failed entry to `AcceptBlock`. -/
theorem acceptBlockHeader (inv : TreeInv tree []) {ctx : Context} {block : CBlockHeader}
    {pindex : CBlockIndex} (h : acceptBlockHeader ctx tree block = .ok (pindex, tree')) :
    TreeInv tree' [] ∧ Grown tree tree' ∧ hasStatus pindex.nStatus blockFailedMask = false := by
  rcases acceptBlockHeader_cases h with ⟨-, hok, rfl⟩ | ⟨hnone, rfl, -, rfl⟩
  · exact ⟨inv, Grown.refl _, hok⟩
  · refine ⟨inv.addToBlockIndex _ _, ?_, ?_⟩
    · rw [BlockTree.addToBlockIndex, hnone]
      have hput : Grown tree (tree.put (block.getHash ctx.hash)
          (tree.newEntry (block.getHash ctx.hash) block)) := by
        refine Grown.put (BlockTree.isNew_newEntry ..).nChainTx ?_
        intro p hp
        rw [hnone] at hp
        cases hp
      exact ⟨hput.candidates, hput.kept, hput.linked, hput.fresh⟩
    · exact BlockTree.newEntry_noStatus _ _ _ (by decide) (by decide)

/-- What `AcceptBlock` leaves. -/
theorem acceptBlock (inv : TreeInv tree []) (ctx : AcceptContext) (block : CBlock)
    (dbp : Option CDiskBlockPos) :
    TreeInv (acceptBlock ctx tree block dbp).2 [] ∧ Grown tree (acceptBlock ctx tree block dbp).2 := by
  rcases acceptBlock_cases ctx tree block dbp with heq |
    ⟨pindex, tree₁, hheader, heq | ⟨hnodata, heq⟩ | ⟨hnodata, hcheck, heq⟩⟩
  · rw [heq]
    exact ⟨inv, Grown.refl tree⟩
  · rw [heq]
    obtain ⟨hinv, hgrown, -⟩ := inv.acceptBlockHeader hheader
    exact ⟨hinv, hgrown⟩
  · rw [heq]
    obtain ⟨hinv, hgrown, -⟩ := inv.acceptBlockHeader hheader
    have hfind := (acceptBlockHeader_spec hheader).1
    refine ⟨hinv.reflagged (Reflagged.put hfind
      (SameBlock.setFlag pindex (by decide) (by decide))), hgrown.trans (Grown.put ?_ ?_)⟩
    · show pindex.nChainTx = 0
      by_contra hne
      rw [hinv.chainTx hfind hne] at hnodata
      cases hnodata
    · intro p hp
      rw [show p = pindex from Option.some.inj (hp.symm.trans hfind)]
      exact hnodata
  · obtain ⟨hvtx, hlen⟩ := checkBlock_vtx hcheck
    obtain ⟨hinv, hgrown, hok⟩ := inv.acceptBlockHeader hheader
    rw [heq]
    obtain ⟨⟨pos, tree₂⟩, hfound, hstored⟩ :=
      storeBlock_cases ctx tree₁ (block.getHash ctx.hash) block pindex dbp
    have hfind : ∀ x, tree₂.find x = tree₁.find x := by
      intro x
      rw [← BlockTree.find_findBlockPos tree₁ dbp, hfound]
    have hfiles : Reflagged tree₁ tree₂ ∧ Grown tree₁ tree₂ := by
      have hreflagged := Reflagged.findBlockPos tree₁ dbp
        (UInt32.ofNat (CBlock.codec.ser block).length + 8) (UInt32.ofInt pindex.nHeight)
        (UInt64.ofNat block.nTime.toNat) ctx.diskSpaceOk
      have hcandidates : tree₂.setBlockIndexCandidates = tree₁.setBlockIndexCandidates := by
        have hsnd := congrArg (fun found => found.2.setBlockIndexCandidates) hfound
        exact hsnd.symm
      rw [hfound] at hreflagged
      refine ⟨hreflagged, ?_, ?_, ?_, ?_⟩
      · intro x hx
        rw [hcandidates]
        exact hx
      · intro x p hx _
        exact ⟨p, (hfind x).trans hx, rfl⟩
      · intro x p hx _
        exact Or.inr ((hfind x).symm.trans hx)
      · intro x hx
        rw [hcandidates] at hx
        exact Or.inl hx
    have hinv₂ := hinv.reflagged hfiles.1
    have hgrown₂ := hgrown.trans hfiles.2
    rcases hstored with ⟨-, hstored⟩ | ⟨pos, -, -, hstored⟩
    · rw [hstored]
      exact ⟨hinv₂, hgrown₂⟩
    · rw [hstored]
      have hself := (hfind _).trans (acceptBlockHeader_spec hheader).1
      have hshort := lt_of_le_of_lt hlen (show _ < 2 ^ 32 by decide)
      generalize (if dbp.isSome then pos else { pos with nPos := pos.nPos + 8 }) = pos'
      obtain ⟨hinv₃, hgrown₃⟩ :=
        @receivedBlockTransactions _ hinv₂ _ block _ pos' hself hnodata hok hvtx hshort
      exact ⟨hinv₃, hgrown₂.trans hgrown₃⟩

/-- What a header or a block changes. -/
theorem indexStep (inv : TreeInv tree []) (step : IndexStep) :
    TreeInv (step.apply tree) [] ∧ Grown tree (step.apply tree) := by
  cases step with
  | onHeader ctx block =>
      rw [IndexStep.apply]
      split
      · exact ⟨inv, Grown.refl tree⟩
      · rename_i hheader
        obtain ⟨hinv, hgrown, -⟩ := inv.acceptBlockHeader hheader
        exact ⟨hinv, hgrown⟩
  | onBlock ctx block dbp => exact inv.acceptBlock ctx block dbp

end TreeInv

end Hivemind
