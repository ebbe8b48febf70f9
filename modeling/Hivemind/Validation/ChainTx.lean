import Hivemind.Validation.BlocksSpec
import Hivemind.Validation.Selection

/-!
# Blocks whose data come out of order

`nChainTx` of an entry says that the data of the block and of all its ancestors have come.  A
block whose parent has no `nChainTx` yet waits in `mapBlocksUnlinked`, and
`ReceivedBlockTransactions` links it when the gap is closed.

The queue of that function is worked off front to back, and each block that is linked queues the
blocks that wait for it.  The invariant is relative to the queue: a block that could be linked is
linked, is in the queue, or has an ancestor in it.  `InvalidateBlock` can mark the parent of a
block as failed while its data are still to come, and a block that comes then is not registered
as waiting; it is never linked after that, even when the parent is reconsidered.

* `DataChain`: the block and all its ancestors have data, with the number of transactions.
* `LinkInv`: what holds while the queue is worked off.
* `linkBlocks_induct`: induction over the queue, which has enough turns.
* `chainTx_of_run`: **`nChainTx` after a run** in which every waiting block is registered.
* `child_never_linked`: a run that leaves a block with data unlinked.
-/

namespace Hivemind

open Codecs Ordered Outcomes

/-! ## Chains of data -/

/-- The block and all its ancestors have data, and `n` transactions together. -/
inductive DataChain (tree : BlockTree) : Uint256 → Nat → Prop
  | root {hash : Uint256} {pindex : CBlockIndex} (hfind : tree.find hash = some pindex)
      (hprev : pindex.pprev = none) (hdata : hasStatus pindex.nStatus blockHaveData = true) :
      DataChain tree hash pindex.nTx.toNat
  | child {hash prev : Uint256} {pindex : CBlockIndex} {n : Nat}
      (hfind : tree.find hash = some pindex) (hprev : pindex.pprev = some prev)
      (hdata : hasStatus pindex.nStatus blockHaveData = true) (hparent : DataChain tree prev n) :
      DataChain tree hash (n + pindex.nTx.toNat)

/-- No chain of data has `2 ^ 32` transactions. -/
def FewTransactions (tree : BlockTree) : Prop := ∀ hash n, DataChain tree hash n → n < 2 ^ 32

/-- What a chain of data depends on. -/
def linkData (pindex : CBlockIndex) : Option Uint256 × Bool × UInt32 :=
  (pindex.pprev, hasStatus pindex.nStatus blockHaveData, pindex.nTx)

/-- The blocks with data keep their parents, their data and their transactions. -/
theorem DataChain.mono {tree tree' : BlockTree} {hash : Uint256} {n : Nat}
    (h : DataChain tree hash n)
    (hkeep : ∀ x p, tree.find x = some p → hasStatus p.nStatus blockHaveData = true →
      ∃ p', tree'.find x = some p' ∧ linkData p' = linkData p) : DataChain tree' hash n := by
  induction h with
  | root hfind hprev hdata =>
      obtain ⟨p', hfind', heq⟩ := hkeep _ _ hfind hdata
      simp only [linkData, Prod.mk.injEq] at heq
      obtain ⟨hp, hd, htx⟩ := heq
      rw [← htx]
      exact DataChain.root hfind' (hp.trans hprev) (hd.trans hdata)
  | child hfind hprev hdata _ ih =>
      obtain ⟨p', hfind', heq⟩ := hkeep _ _ hfind hdata
      simp only [linkData, Prod.mk.injEq] at heq
      obtain ⟨hp, hd, htx⟩ := heq
      rw [← htx]
      exact DataChain.child hfind' (hp.trans hprev) (hd.trans hdata) ih

theorem DataChain.hasData {tree : BlockTree} {hash : Uint256} {n : Nat} (h : DataChain tree hash n) :
    ∃ pindex, tree.find hash = some pindex ∧ hasStatus pindex.nStatus blockHaveData = true := by
  cases h with
  | root hfind _ hdata => exact ⟨_, hfind, hdata⟩
  | child hfind _ hdata _ => exact ⟨_, hfind, hdata⟩

/-- The number of transactions is determined by the block. -/
theorem DataChain.unique {tree : BlockTree} {hash : Uint256} {n m : Nat} (h : DataChain tree hash n)
    (h' : DataChain tree hash m) : n = m := by
  induction h generalizing m with
  | root hfind hprev _ =>
      cases h' with
      | root hfind' _ _ =>
          rw [hfind] at hfind'
          cases hfind'
          rfl
      | child hfind' hprev' _ _ =>
          rw [hfind] at hfind'
          cases hfind'
          rw [hprev] at hprev'
          cases hprev'
  | child hfind hprev _ _ ih =>
      cases h' with
      | root hfind' hprev' _ =>
          rw [hfind] at hfind'
          cases hfind'
          rw [hprev] at hprev'
          cases hprev'
      | child hfind' hprev' _ hparent =>
          rw [hfind] at hfind'
          cases hfind'
          rw [hprev] at hprev'
          cases hprev'
          rw [ih hparent]

/-! ## The invariant -/

/-- What holds of the index while the blocks of the queue are to be linked. -/
structure LinkInv (tree : BlockTree) (queue : List Uint256) : Prop where
  parent : ∀ {h p prev}, tree.find h = some p → p.pprev = some prev → ∃ q, tree.find prev = some q
  nTx : ∀ {h p}, tree.find h = some p → hasStatus p.nStatus blockHaveData = true → p.nTx ≠ 0
  linked : ∀ {h p}, tree.find h = some p → p.nChainTx ≠ 0 → DataChain tree h p.nChainTx.toNat
  waiting : ∀ {h p}, tree.find h = some p → hasStatus p.nStatus blockHaveData = true →
    p.nChainTx = 0 → h ∈ queue ∨ ∃ prev q, p.pprev = some prev ∧
      (prev, h) ∈ tree.mapBlocksUnlinked ∧ tree.find prev = some q ∧ q.nChainTx = 0
  registered : ∀ {prev h}, (prev, h) ∈ tree.mapBlocksUnlinked →
    ∃ p, tree.find h = some p ∧ p.pprev = some prev ∧ hasStatus p.nStatus blockHaveData = true
  queued : ∀ {h}, h ∈ queue → ∃ p, tree.find h = some p ∧
    hasStatus p.nStatus blockHaveData = true ∧
    ∀ prev, p.pprev = some prev → ∃ q, tree.find prev = some q ∧ q.nChainTx ≠ 0

namespace LinkInv

variable {tree tree' : BlockTree} {queue : List Uint256}

theorem empty : LinkInv {} [] where
  parent := by rintro h p prev ⟨⟩
  nTx := by rintro h p ⟨⟩
  linked := by rintro h p ⟨⟩
  waiting := by rintro h p ⟨⟩
  registered := by rintro prev h ⟨⟩
  queued := by rintro h ⟨⟩

/-- When nothing is queued, `nChainTx` is what it is meant to be. -/
theorem chainTx_ne_zero (inv : LinkInv tree []) {h : Uint256} {n : Nat} (hchain : DataChain tree h n)
    {p : CBlockIndex} (hfind : tree.find h = some p) : p.nChainTx ≠ 0 := by
  induction hchain generalizing p with
  | root hfind' hprev hdata =>
      rw [hfind] at hfind'
      cases hfind'
      intro hzero
      rcases inv.waiting hfind hdata hzero with hmem | ⟨prev, q, hprev', -⟩
      · cases hmem
      · rw [hprev] at hprev'
        cases hprev'
  | child hfind' hprev hdata _ ih =>
      rw [hfind] at hfind'
      cases hfind'
      intro hzero
      rcases inv.waiting hfind hdata hzero with hmem | ⟨prev, q, hprev', -, hq, hqzero⟩
      · cases hmem
      · rw [hprev] at hprev'
        cases hprev'
        exact ih hq hqzero

/-- A block without data is not linked. -/
theorem chainTx_of_noData (inv : LinkInv tree queue) {h : Uint256} {p : CBlockIndex}
    (hfind : tree.find h = some p) (hnodata : hasStatus p.nStatus blockHaveData = false) :
    p.nChainTx = 0 := by
  by_contra hne
  obtain ⟨p', hp', hdata⟩ := (inv.linked hfind hne).hasData
  rw [hfind] at hp'
  cases hp'
  rw [hnodata] at hdata
  cases hdata

/-- Flags do not matter. -/
theorem reflagged (inv : LinkInv tree []) (h : Reflagged tree tree') : LinkInv tree' [] := by
  have hpprev : ∀ {p p'}, SameBlock p p' → p'.pprev = p.pprev := fun hs => by rw [hs.eq]
  have hnTx : ∀ {p p'}, SameBlock p p' → p'.nTx = p.nTx := fun hs => by rw [hs.eq]
  have hchainTx : ∀ {p p'}, SameBlock p p' → p'.nChainTx = p.nChainTx := fun hs => by rw [hs.eq]
  refine ⟨?_, ?_, ?_, ?_, ?_, ?_⟩
  · intro x p' prev hx hp
    obtain ⟨p, hfind, hsame⟩ := h.back hx
    obtain ⟨q, hq⟩ := inv.parent hfind (by rw [← hpprev hsame, hp])
    obtain ⟨q', hq', -⟩ := h.find_some prev q hq
    exact ⟨q', hq'⟩
  · intro x p' hx hdata
    obtain ⟨p, hfind, hsame⟩ := h.back hx
    rw [hnTx hsame]
    exact inv.nTx hfind (hsame.data ▸ hdata)
  · intro x p' hx hne
    obtain ⟨p, hfind, hsame⟩ := h.back hx
    rw [hchainTx hsame] at hne ⊢
    refine (inv.linked hfind hne).mono ?_
    intro y q hy _
    obtain ⟨q', hq', hsame'⟩ := h.find_some y q hy
    exact ⟨q', hq', by rw [linkData, linkData, hpprev hsame', hnTx hsame', hsame'.data]⟩
  · intro x p' hx hdata hzero
    obtain ⟨p, hfind, hsame⟩ := h.back hx
    rw [hchainTx hsame] at hzero
    rcases inv.waiting hfind (hsame.data ▸ hdata) hzero with hmem | ⟨prev, q, hp, hreg, hq, hqz⟩
    · cases hmem
    · obtain ⟨q', hq', hsame'⟩ := h.find_some prev q hq
      exact Or.inr ⟨prev, q', (hpprev hsame).trans hp, h.unlinked ▸ hreg, hq',
        (hchainTx hsame').trans hqz⟩
  · intro prev x hreg
    rw [h.unlinked] at hreg
    obtain ⟨p, hfind, hp, hdata⟩ := inv.registered hreg
    obtain ⟨p', hfind', hsame⟩ := h.find_some x p hfind
    exact ⟨p', hfind', (hpprev hsame).trans hp, hsame.data.trans hdata⟩
  · rintro x ⟨⟩

/-! ## The queue -/

/-- The `nChainTx` that the loop gives to a block. -/
def linkedTx (tree : BlockTree) (pindex : CBlockIndex) : UInt32 :=
  ((tree.prev pindex).map CBlockIndex.nChainTx).getD 0 + pindex.nTx

/-- The entries after one turn of the loop. -/
theorem find_linkBlock {hash : Uint256} {pindex : CBlockIndex} (hfind : tree.find hash = some pindex)
    (x : Uint256) : (tree.linkBlock hash pindex).find x = (tree.find x).map fun p =>
      if x = hash then { p with nChainTx := linkedTx tree pindex } else p := by
  by_cases hx : x = hash
  · subst hx
    rw [hfind]
    show (tree.put x _).find x = _
    rw [BlockTree.find_put_self]
    simp [linkedTx]
  · show (tree.put hash _).find x = _
    rw [BlockTree.find_put_of_ne _ _ hx]
    simp [hx]

/-- Linking a block changes no chain of data. -/
theorem linkData_linkBlock {hash : Uint256} {pindex : CBlockIndex}
    (hfind : tree.find hash = some pindex) (x : Uint256) :
    ((tree.linkBlock hash pindex).find x).map linkData = (tree.find x).map linkData :=
  BlockTree.map_find_linkBlock (fun _ _ => rfl) hfind x

theorem dataChain_congr (hsame : ∀ x, (tree'.find x).map linkData = (tree.find x).map linkData)
    {h : Uint256} {n : Nat} (hchain : DataChain tree h n) : DataChain tree' h n := by
  refine hchain.mono ?_
  intro x p hx _
  have hmap := hsame x
  rw [hx, Option.map_some] at hmap
  exact Option.map_eq_some_iff.mp hmap

/-- The first block of the queue is the last one that its chain of data lacks. -/
theorem dataChain_linkedTx {hash : Uint256} (inv : LinkInv tree (hash :: queue))
    (hfew : FewTransactions tree) {pindex : CBlockIndex} (hfind : tree.find hash = some pindex) :
    DataChain tree hash (linkedTx tree pindex).toNat ∧ linkedTx tree pindex ≠ 0 := by
  obtain ⟨p, hp, hdata, hparent⟩ := inv.queued (List.mem_cons_self ..)
  obtain rfl : p = pindex := by simpa [hfind] using hp.symm
  have hchain : DataChain tree hash
      ((((tree.prev p).map CBlockIndex.nChainTx).getD 0).toNat + p.nTx.toNat) := by
    cases hprev : p.pprev with
    | none =>
        simpa [BlockTree.prev, hprev] using DataChain.root hfind hprev hdata
    | some prev =>
        obtain ⟨q, hq, hqne⟩ := hparent prev hprev
        simp only [BlockTree.prev, hprev, Option.bind_some, hq, Option.map_some, Option.getD_some]
        exact DataChain.child hfind hprev hdata (inv.linked hq hqne)
  have htoNat : (linkedTx tree p).toNat =
      (((tree.prev p).map CBlockIndex.nChainTx).getD 0).toNat + p.nTx.toNat := by
    rw [linkedTx, UInt32.toNat_add, Nat.mod_eq_of_lt (hfew _ _ hchain)]
  refine ⟨htoNat ▸ hchain, ?_⟩
  intro hzero
  have htx : p.nTx.toNat ≠ 0 := fun h => inv.nTx hfind hdata (UInt32.toNat_inj.mp h)
  rw [hzero, UInt32.toNat_zero] at htoNat
  omega

/-- **One turn of the loop**: the first block of the queue is linked, and its children are
queued. -/
theorem linkBlock {hash : Uint256} (inv : LinkInv tree (hash :: queue))
    (hfew : FewTransactions tree) {pindex : CBlockIndex} (hfind : tree.find hash = some pindex) :
    LinkInv (tree.linkBlock hash pindex)
      (queue ++ (tree.mapBlocksUnlinked.filter fun u => u.1 == hash).map Prod.snd) := by
  obtain ⟨hchain, hne⟩ := inv.dataChain_linkedTx hfew hfind
  have hsame := linkData_linkBlock hfind
  -- what is left of an entry, and where it comes from
  have hkeep : ∀ {x p}, tree.find x = some p → ∃ p', (tree.linkBlock hash pindex).find x = some p' ∧
      linkData p' = linkData p ∧ (x = hash → p'.nChainTx ≠ 0) ∧ (x ≠ hash → p' = p) := by
    intro x p hx
    rw [find_linkBlock hfind x, hx]
    refine ⟨_, rfl, ?_⟩
    by_cases hxh : x = hash
    · simpa [hxh, linkData] using hne
    · simp [hxh]
  have hback : ∀ {x p'}, (tree.linkBlock hash pindex).find x = some p' → ∃ p, tree.find x = some p ∧
      linkData p' = linkData p ∧ (x = hash → p'.nChainTx = linkedTx tree pindex) ∧
      (x ≠ hash → p' = p) := by
    intro x p' hx
    rw [find_linkBlock hfind x] at hx
    obtain ⟨p, hp, rfl⟩ := Option.map_eq_some_iff.mp hx
    refine ⟨p, hp, ?_⟩
    by_cases hxh : x = hash
    · simp [hxh, linkData]
    · simp [hxh]
  -- a parent that is linked stays linked
  have hstays : ∀ {prev q}, tree.find prev = some q → (prev ≠ hash → q.nChainTx ≠ 0) →
      ∃ q', (tree.linkBlock hash pindex).find prev = some q' ∧ q'.nChainTx ≠ 0 := by
    intro prev q hq hqne
    obtain ⟨q', hq', -, hself, hother⟩ := hkeep hq
    by_cases hx : prev = hash
    · exact ⟨q', hq', hself hx⟩
    · exact ⟨q', hq', hother hx ▸ hqne hx⟩
  have hunlinked : ∀ u, u ∈ (tree.linkBlock hash pindex).mapBlocksUnlinked ↔
      u ∈ tree.mapBlocksUnlinked ∧ u.1 ≠ hash := by
    intro u
    simp [BlockTree.linkBlock]
  refine ⟨?_, ?_, ?_, ?_, ?_, ?_⟩
  · intro x p' prev hx hp
    obtain ⟨p, hfindx, hlink, -⟩ := hback hx
    simp only [linkData, Prod.mk.injEq] at hlink
    obtain ⟨q, hq⟩ := inv.parent hfindx (hlink.1 ▸ hp)
    obtain ⟨q', hq', -⟩ := hkeep hq
    exact ⟨q', hq'⟩
  · intro x p' hx hdata
    obtain ⟨p, hfindx, hlink, -⟩ := hback hx
    simp only [linkData, Prod.mk.injEq] at hlink
    rw [hlink.2.2]
    exact inv.nTx hfindx (hlink.2.1 ▸ hdata)
  · intro x p' hx hp'
    obtain ⟨p, hfindx, hlink, hself, hother⟩ := hback hx
    by_cases hxh : x = hash
    · rw [hself hxh, hxh]
      exact dataChain_congr hsame hchain
    · rw [hother hxh] at hp' ⊢
      exact dataChain_congr hsame (inv.linked hfindx hp')
  · intro x p' hx hdata hzero
    obtain ⟨p, hfindx, hlink, hself, hother⟩ := hback hx
    have hxh : x ≠ hash := fun hxh => hne (hself hxh ▸ hzero)
    rw [hother hxh] at hdata hzero ⊢
    rcases inv.waiting hfindx hdata hzero with hmem | ⟨prev, q, hp, hreg, hq, hqzero⟩
    · rcases List.mem_cons.mp hmem with rfl | hmem
      · exact absurd rfl hxh
      · exact Or.inl (List.mem_append_left _ hmem)
    · by_cases hprev : prev = hash
      · refine Or.inl (List.mem_append_right _ ?_)
        exact List.mem_map.mpr ⟨(prev, x), List.mem_filter.mpr ⟨hreg, by simp [hprev]⟩, rfl⟩
      · obtain ⟨q', hq', -, -, hsameq⟩ := hkeep hq
        exact Or.inr ⟨prev, q', hp, (hunlinked _).mpr ⟨hreg, hprev⟩, hq', hsameq hprev ▸ hqzero⟩
  · intro prev x hreg
    obtain ⟨p, hfindx, hp, hdata⟩ := inv.registered ((hunlinked _).mp hreg).1
    obtain ⟨p', hx', hlink, -⟩ := hkeep hfindx
    simp only [linkData, Prod.mk.injEq] at hlink
    exact ⟨p', hx', hlink.1.trans hp, hlink.2.1.trans hdata⟩
  · intro x hmem
    rcases List.mem_append.mp hmem with hmem | hmem
    · obtain ⟨p, hfindx, hdata, hparent⟩ := inv.queued (List.mem_cons_of_mem _ hmem)
      obtain ⟨p', hx', hlink, -⟩ := hkeep hfindx
      simp only [linkData, Prod.mk.injEq] at hlink
      refine ⟨p', hx', hlink.2.1.trans hdata, ?_⟩
      intro prev hp
      obtain ⟨q, hq, hqne⟩ := hparent prev (hlink.1 ▸ hp)
      exact hstays hq fun _ => hqne
    · obtain ⟨⟨prev, y⟩, hu, rfl⟩ := List.mem_map.mp hmem
      obtain ⟨hreg, hprev⟩ := List.mem_filter.mp hu
      obtain rfl : prev = hash := eq_of_beq hprev
      obtain ⟨p, hfindx, hp, hdata⟩ := inv.registered hreg
      obtain ⟨p', hx', hlink, -⟩ := hkeep hfindx
      simp only [linkData, Prod.mk.injEq] at hlink
      refine ⟨p', hx', hlink.2.1.trans hdata, ?_⟩
      intro prev' hp'
      obtain rfl : prev' = prev := by
        rw [hlink.1, hp] at hp'
        exact (Option.some.inj hp').symm
      exact hstays hfind fun h => absurd rfl h

theorem linkData_linkBlocks (n : Nat) (queue : List Uint256) (tree : BlockTree) (x : Uint256) :
    ((BlockTree.linkBlocks n queue tree).find x).map linkData = (tree.find x).map linkData :=
  BlockTree.map_find_linkBlocks (fun _ _ => rfl) n queue tree x

theorem few_of_linkData (hsame : ∀ x, (tree'.find x).map linkData = (tree.find x).map linkData)
    (hfew : FewTransactions tree') : FewTransactions tree :=
  fun x n hchain => hfew x n (dataChain_congr hsame hchain)

end LinkInv

/-- **Induction over the queue**: what every turn keeps holds when the queue is empty.  The
loop has enough turns, because a child that is queued is one that no longer waits. -/
theorem linkBlocks_induct {I : BlockTree → List Uint256 → Prop}
    (hstep : ∀ tree hash queue, I tree (hash :: queue) → ∃ pindex, tree.find hash = some pindex ∧
      I (tree.linkBlock hash pindex)
        (queue ++ (tree.mapBlocksUnlinked.filter fun u => u.1 == hash).map Prod.snd))
    {n : Nat} {queue : List Uint256} {tree : BlockTree} (h : I tree queue)
    (hn : queue.length + tree.mapBlocksUnlinked.length ≤ n) :
    I (BlockTree.linkBlocks n queue tree) [] := by
  induction n generalizing queue tree with
  | zero =>
      obtain rfl : queue = [] := List.length_eq_zero_iff.mp (by omega)
      exact h
  | succ n ih =>
      cases queue with
      | nil => exact h
      | cons hash queue =>
          obtain ⟨pindex, hfind, hnext⟩ := hstep tree hash queue h
          rw [BlockTree.linkBlocks, hfind]
          have hlen : (tree.mapBlocksUnlinked.filter fun u => u.1 == hash).length +
              (tree.linkBlock hash pindex).mapBlocksUnlinked.length =
                tree.mapBlocksUnlinked.length :=
            (@List.length_eq_length_filter_add _ tree.mapBlocksUnlinked fun u => u.1 == hash).symm
          rw [List.length_cons] at hn
          apply ih hnext
          rw [List.length_append, List.length_map]
          omega

namespace LinkInv

variable {tree tree' : BlockTree} {queue : List Uint256}

/-- **The whole loop** links every block that it can. -/
theorem linkBlocks {n : Nat} (inv : LinkInv tree queue) (hfew : FewTransactions tree)
    (hn : queue.length + tree.mapBlocksUnlinked.length ≤ n) :
    LinkInv (BlockTree.linkBlocks n queue tree) [] := by
  let I : BlockTree → List Uint256 → Prop := fun tree queue =>
    LinkInv tree queue ∧ FewTransactions tree
  have hstep : ∀ tree hash queue, I tree (hash :: queue) → ∃ pindex,
      tree.find hash = some pindex ∧ I (tree.linkBlock hash pindex)
        (queue ++ (tree.mapBlocksUnlinked.filter fun u => u.1 == hash).map Prod.snd) := by
    rintro tree hash queue ⟨hinv, hfew⟩
    obtain ⟨pindex, hfind, -⟩ := hinv.queued (List.mem_cons_self ..)
    refine ⟨pindex, hfind, hinv.linkBlock hfew hfind, ?_⟩
    exact few_of_linkData (fun x => (linkData_linkBlock hfind x).symm) hfew
  exact (@linkBlocks_induct I hstep n queue tree ⟨inv, hfew⟩ hn).1

/-! ## Headers and data -/

/-- A new entry has no data, and its parent is in the index. -/
theorem addToBlockIndex (inv : LinkInv tree []) (hash : Uint256) (block : CBlockHeader) :
    LinkInv (tree.addToBlockIndex hash block) [] := by
  obtain ⟨_, -, heq⟩ | ⟨hnone, hnew, hother⟩ := tree.find_addToBlockIndex hash block
  · rwa [heq]
  have hne : ∀ {x p}, tree.find x = some p → x ≠ hash := by
    rintro x p hx rfl
    rw [hnone] at hx
    cases hx
  have hkeep : ∀ {x p}, tree.find x = some p →
      (tree.addToBlockIndex hash block).find x = some p := fun hx => (hother _ (hne hx)).trans hx
  have hunlinked : (tree.addToBlockIndex hash block).mapBlocksUnlinked = tree.mapBlocksUnlinked := by
    rw [BlockTree.addToBlockIndex, hnone]
    rfl
  -- the new entry
  have hisNew := tree.isNew_newEntry hash block
  have hprev : ∀ prev, (tree.newEntry hash block).pprev = some prev →
      ∃ q, (tree.addToBlockIndex hash block).find prev = some q := by
    intro prev hp
    rcases hisNew.parent with ⟨hnil, -⟩ | ⟨hsome, ⟨hself, -⟩ | ⟨q, hq, -⟩⟩
    · rw [hnil] at hp
      cases hp
    · rw [hsome, hself] at hp
      cases hp
      exact ⟨_, hnew⟩
    · rw [hsome] at hp
      cases hp
      exact ⟨q, hkeep hq⟩
  have hback : ∀ {x p}, (tree.addToBlockIndex hash block).find x = some p →
      (x = hash ∧ p = tree.newEntry hash block) ∨ tree.find x = some p := by
    intro x p hx
    by_cases hxh : x = hash
    · subst hxh
      rw [hnew] at hx
      exact Or.inl ⟨rfl, (Option.some.inj hx).symm⟩
    · exact Or.inr ((hother x hxh).symm.trans hx)
  have hdata := tree.newEntry_noData hash block
  refine ⟨?_, ?_, ?_, ?_, ?_, ?_⟩
  · intro x p prev hx hp
    rcases hback hx with ⟨-, rfl⟩ | hold
    · exact hprev prev hp
    · obtain ⟨q, hq⟩ := inv.parent hold hp
      exact ⟨q, hkeep hq⟩
  · intro x p hx hd
    rcases hback hx with ⟨-, rfl⟩ | hold
    · rw [hdata] at hd
      cases hd
    · exact inv.nTx hold hd
  · intro x p hx hp
    rcases hback hx with ⟨-, rfl⟩ | hold
    · exact absurd hisNew.nChainTx hp
    · exact (inv.linked hold hp).mono fun y q hy _ => ⟨q, hkeep hy, rfl⟩
  · intro x p hx hd hp
    rcases hback hx with ⟨-, rfl⟩ | hold
    · rw [hdata] at hd
      cases hd
    · rcases inv.waiting hold hd hp with hmem | ⟨prev, q, hpp, hreg, hq, hqz⟩
      · cases hmem
      · exact Or.inr ⟨prev, q, hpp, hunlinked ▸ hreg, hkeep hq, hqz⟩
  · intro prev x hreg
    rw [hunlinked] at hreg
    obtain ⟨p, hx, hp, hd⟩ := inv.registered hreg
    exact ⟨p, hkeep hx, hp, hd⟩
  · rintro x ⟨⟩

/-- The data of a block that had none: the block is queued if its parent is linked, and
else it is registered with its parent. -/
theorem received (inv : LinkInv tree []) {hash : Uint256} {pindex pindexNew : CBlockIndex}
    (hfind : tree.find hash = some pindex)
    (hnodata : hasStatus pindex.nStatus blockHaveData = false)
    (hprev : pindexNew.pprev = pindex.pprev)
    (hdata : hasStatus pindexNew.nStatus blockHaveData = true)
    (hzero : pindexNew.nChainTx = 0) (hnTx : pindexNew.nTx ≠ 0)
    (hself : tree'.find hash = some pindexNew) (hother : ∀ x, x ≠ hash → tree'.find x = tree.find x)
    (hkept : ∀ u ∈ tree.mapBlocksUnlinked, u ∈ tree'.mapBlocksUnlinked)
    (hadded : ∀ u ∈ tree'.mapBlocksUnlinked, u ∈ tree.mapBlocksUnlinked ∨
      ∃ prev, pindex.pprev = some prev ∧ u = (prev, hash))
    (hqueue : (queue = [hash] ∧ ∀ prev, pindex.pprev = some prev →
        ∃ q, tree'.find prev = some q ∧ q.nChainTx ≠ 0) ∨
      (queue = [] ∧ ∃ prev q, pindex.pprev = some prev ∧ (prev, hash) ∈ tree'.mapBlocksUnlinked ∧
        tree'.find prev = some q ∧ q.nChainTx = 0)) :
    LinkInv tree' queue := by
  have hold := inv.chainTx_of_noData hfind hnodata
  have hback : ∀ {x p'}, tree'.find x = some p' → (x = hash ∧ p' = pindexNew) ∨
      (x ≠ hash ∧ tree.find x = some p') := by
    intro x p' hx
    by_cases hxh : x = hash
    · subst hxh
      rw [hself] at hx
      exact Or.inl ⟨rfl, (Option.some.inj hx).symm⟩
    · exact Or.inr ⟨hxh, (hother x hxh).symm.trans hx⟩
  -- an entry that was there is there, with the same `nChainTx`
  have hkeep : ∀ {x q}, tree.find x = some q →
      ∃ q', tree'.find x = some q' ∧ q'.nChainTx = q.nChainTx := by
    intro x q hx
    by_cases hxh : x = hash
    · subst hxh
      rw [hfind] at hx
      cases hx
      exact ⟨pindexNew, hself, hzero.trans hold.symm⟩
    · exact ⟨q, (hother x hxh).trans hx, rfl⟩
  refine ⟨?_, ?_, ?_, ?_, ?_, ?_⟩
  · intro x p' prev hx hp
    have hparent : ∃ q, tree.find prev = some q := by
      rcases hback hx with ⟨-, rfl⟩ | ⟨-, hxold⟩
      · exact inv.parent hfind (hprev ▸ hp)
      · exact inv.parent hxold hp
    obtain ⟨q, hq⟩ := hparent
    obtain ⟨q', hq', -⟩ := hkeep hq
    exact ⟨q', hq'⟩
  · intro x p' hx hd
    rcases hback hx with ⟨-, rfl⟩ | ⟨-, hxold⟩
    · exact hnTx
    · exact inv.nTx hxold hd
  · intro x p' hx hp'
    rcases hback hx with ⟨-, rfl⟩ | ⟨-, hxold⟩
    · exact absurd hzero hp'
    · refine (inv.linked hxold hp').mono ?_
      intro y q hy hd
      have hyh : y ≠ hash := by
        rintro rfl
        rw [hfind] at hy
        cases hy
        rw [hnodata] at hd
        cases hd
      exact ⟨q, (hother y hyh).trans hy, rfl⟩
  · intro x p' hx hd hp'
    rcases hback hx with ⟨rfl, rfl⟩ | ⟨hxh, hxold⟩
    · rcases hqueue with ⟨rfl, -⟩ | ⟨-, prev, q, hp, hreg, hq, hqzero⟩
      · exact Or.inl (List.mem_singleton.mpr rfl)
      · exact Or.inr ⟨prev, q, hprev.trans hp, hreg, hq, hqzero⟩
    · rcases inv.waiting hxold hd hp' with hmem | ⟨prev, q, hp, hreg, hq, hqzero⟩
      · cases hmem
      · obtain ⟨q', hq', hsame⟩ := hkeep hq
        exact Or.inr ⟨prev, q', hp, hkept _ hreg, hq', hsame.trans hqzero⟩
  · intro prev x hreg
    rcases hadded _ hreg with hreg | ⟨prev', hp, heq⟩
    · obtain ⟨p, hx, hp, hd⟩ := inv.registered hreg
      have hxh : x ≠ hash := by
        rintro rfl
        rw [hfind] at hx
        cases hx
        rw [hnodata] at hd
        cases hd
      exact ⟨p, (hother x hxh).trans hx, hp, hd⟩
    · cases heq
      exact ⟨pindexNew, hself, hprev.trans hp, hdata⟩
  · intro x hmem
    rcases hqueue with ⟨rfl, hparent⟩ | ⟨rfl, -⟩
    · obtain rfl := List.mem_singleton.mp hmem
      exact ⟨pindexNew, hself, hdata, fun prev hp => hparent prev (hprev ▸ hp)⟩
    · cases hmem

/-- **What the data of a block do**: every block that can be linked is linked, if the block
may wait for its parent. -/
theorem receivedBlockTransactions (inv : LinkInv tree []) {hash : Uint256} {block : CBlock}
    {pindex : CBlockIndex} {pos : CDiskBlockPos} (hfind : tree.find hash = some pindex)
    (hnodata : hasStatus pindex.nStatus blockHaveData = false) (hvtx : block.vtx ≠ [])
    (hlen : block.vtx.length < 2 ^ 32)
    (hwait : ∀ q, tree.prev pindex = some q → q.nChainTx = 0 → q.isValid blockValidTree = true)
    (hfew : FewTransactions (tree.receivedBlockTransactions hash block pindex pos)) :
    LinkInv (tree.receivedBlockTransactions hash block pindex pos) [] := by
  rw [BlockTree.receivedBlockTransactions] at hfew ⊢
  simp only at hfew ⊢
  generalize hnew : tree.receivedEntry block pindex pos = pindexNew at hfew ⊢
  generalize htree : { tree.put hash pindexNew with
    nBlockSequenceId := tree.nBlockSequenceId + 1 } = tree₁ at hfew ⊢
  -- the entry that is written
  have hprev : pindexNew.pprev = pindex.pprev := by
    rw [← hnew, BlockTree.receivedEntry, CBlockIndex.raiseValidity_eq]
  have hzero : pindexNew.nChainTx = 0 := by
    rw [← hnew, BlockTree.receivedEntry, CBlockIndex.raiseValidity_eq]
  have hnTx : pindexNew.nTx ≠ 0 := by
    have htx : pindexNew.nTx = UInt32.ofNat block.vtx.length := by
      rw [← hnew, BlockTree.receivedEntry, CBlockIndex.raiseValidity_eq]
    intro h0
    have hnat := congrArg UInt32.toNat (htx.symm.trans h0)
    rw [UInt32.toNat_ofNat_of_lt' hlen, UInt32.toNat_zero] at hnat
    exact hvtx (List.length_eq_zero_iff.mp hnat)
  have hdata : hasStatus pindexNew.nStatus blockHaveData = true := by
    rw [← hnew]
    exact BlockTree.hasData_receivedEntry tree block pindex pos
  have hself : tree₁.find hash = some pindexNew := by
    rw [← htree]
    exact BlockTree.find_put_self ..
  have hother : ∀ x, x ≠ hash → tree₁.find x = tree.find x := by
    intro x hx
    rw [← htree]
    exact BlockTree.find_put_of_ne _ _ hx
  have hunlinked : tree₁.mapBlocksUnlinked = tree.mapBlocksUnlinked := by rw [← htree]; rfl
  -- the block is linked at once
  have hlink : (∀ prev, pindex.pprev = some prev → ∃ q, tree₁.find prev = some q ∧ q.nChainTx ≠ 0) →
      FewTransactions (BlockTree.linkBlocks (tree₁.mapBlocksUnlinked.length + 1) [hash] tree₁) →
      LinkInv (BlockTree.linkBlocks (tree₁.mapBlocksUnlinked.length + 1) [hash] tree₁) [] := by
    intro hparent hfew'
    have hinv : LinkInv tree₁ [hash] := inv.received hfind hnodata hprev hdata hzero hnTx hself
      hother (fun u hu => hunlinked ▸ hu) (fun u hu => Or.inl (hunlinked ▸ hu))
      (Or.inl ⟨rfl, hparent⟩)
    refine hinv.linkBlocks (few_of_linkData (linkData_linkBlocks _ _ _) hfew') ?_
    rw [List.length_singleton]
    omega
  cases hpprev : pindex.pprev with
  | none =>
      simp only [BlockTree.linkReceived, hprev, hpprev] at hfew ⊢
      refine hlink ?_ hfew
      rintro prev hp
      rw [hpprev] at hp
      cases hp
  | some prev =>
      obtain ⟨q, hq⟩ := inv.parent hfind hpprev
      -- the parent after the entry is written
      have hqvalid := hwait q (by rw [BlockTree.prev, hpprev, Option.bind_some, hq])
      obtain ⟨q₁, hq₁, hq₁zero⟩ : ∃ q₁, tree₁.find prev = some q₁ ∧
          (q₁.nChainTx = 0 → q₁.isValid blockValidTree = true) := by
        by_cases hloop : prev = hash
        · subst hloop
          rw [hfind] at hq
          cases hq
          refine ⟨pindexNew, hself, fun _ => ?_⟩
          rw [← hnew]
          exact BlockTree.isValid_receivedEntry (hqvalid (inv.chainTx_of_noData hfind hnodata))
        · exact ⟨q, (hother prev hloop).trans hq, hqvalid⟩
      have hprev₁ : tree₁.prev pindexNew = some q₁ := by
        rw [BlockTree.prev, hprev, hpprev, Option.bind_some, hq₁]
      simp only [BlockTree.linkReceived, hprev₁, hprev, hpprev] at hfew ⊢
      by_cases hne : q₁.nChainTx = 0
      · simp only [hne, ne_eq, not_true, if_false, hq₁zero hne, if_true] at hfew ⊢
        refine inv.received hfind hnodata hprev hdata hzero hnTx hself hother ?_ ?_
          (Or.inr ⟨rfl, prev, q₁, hpprev, ?_, hq₁, hne⟩)
        · intro u hu
          exact List.mem_append_left _ (hunlinked ▸ hu)
        · intro u hu
          rcases List.mem_append.mp hu with hu | hu
          · exact Or.inl (hunlinked ▸ hu)
          · exact Or.inr ⟨prev, hpprev, List.mem_singleton.mp hu⟩
        · exact List.mem_append_right _ (List.mem_singleton.mpr rfl)
      · simp only [ne_eq, hne, not_false_eq_true, if_true] at hfew ⊢
        refine hlink ?_ hfew
        intro prev' hp
        rw [hpprev] at hp
        cases hp
        exact ⟨q₁, hq₁, hne⟩

/-! ## Steps -/

theorem acceptBlockHeader (inv : LinkInv tree []) {ctx : Context} {block : CBlockHeader}
    {pindex : CBlockIndex} (h : acceptBlockHeader ctx tree block = .ok (pindex, tree')) :
    LinkInv tree' [] := by
  rcases acceptBlockHeader_cases h with ⟨-, -, rfl⟩ | ⟨-, rfl, -⟩
  · exact inv
  · exact inv.addToBlockIndex _ _

end LinkInv

/-- A block whose data come may wait for its parent: `ReceivedBlockTransactions` registers
it, because the parent is not failed. -/
def MayWait (tree : BlockTree) (pindex : CBlockIndex) : Prop :=
  ∀ q, tree.prev pindex = some q → q.nChainTx = 0 → q.isValid blockValidTree = true

/-- The call does not store a block whose parent is failed and not linked. -/
def ChainStep.Registers (s : ChainState) : ChainStep → Prop
  | .index (.onBlock ctx block dbp) => ∀ pindex tree,
    acceptBlockHeader ctx.toContext s.tree block.toCBlockHeader = .ok (pindex, tree) →
    hasStatus pindex.nStatus blockHaveData = false →
    (acceptBlock ctx s.tree block dbp).1 = .ok () → MayWait tree pindex
  | _ => True

/-- Every call of the run registers the blocks that have to wait, and no chain gets too
long. -/
def RunRegisters (env : ChainEnv) : List ChainStep → ChainState → Prop
  | [], _ => True
  | step :: steps, s => step.Registers s ∧ ∀ s', step.apply env s = some s' →
    FewTransactions s'.tree ∧ RunRegisters env steps s'

/-- What `AcceptBlock` leaves. -/
theorem LinkInv.acceptBlock {tree : BlockTree} (inv : LinkInv tree []) {ctx : AcceptContext}
    {block : CBlock} {dbp : Option CDiskBlockPos}
    (hregisters : ChainStep.Registers { tree } (.index (.onBlock ctx block dbp)))
    (hfew : FewTransactions (acceptBlock ctx tree block dbp).2) :
    LinkInv (acceptBlock ctx tree block dbp).2 [] := by
  rcases acceptBlock_cases ctx tree block dbp with heq |
    ⟨pindex, tree₁, hheader, heq | ⟨hnodata, heq⟩ | ⟨hnodata, hcheck, heq⟩⟩
  · rwa [heq]
  · rw [heq]
    exact inv.acceptBlockHeader hheader
  · rw [heq]
    exact (inv.acceptBlockHeader hheader).reflagged (Reflagged.put (acceptBlockHeader_spec hheader).1
      (SameBlock.setFlag pindex (by decide) (by decide)))
  · have hwait := hregisters pindex tree₁ hheader hnodata
    obtain ⟨hvtx, hlen⟩ := checkBlock_vtx hcheck
    rw [heq] at hfew hwait ⊢
    obtain ⟨⟨pos, tree₂⟩, hfound, hstored⟩ :=
      storeBlock_cases ctx tree₁ (block.getHash ctx.hash) block pindex dbp
    -- the files are no part of the index
    have hfind : ∀ x, tree₂.find x = tree₁.find x := by
      intro x
      rw [← BlockTree.find_findBlockPos tree₁ dbp, hfound]
    have hfiles : Reflagged tree₁ tree₂ := by
      have hreflagged := Reflagged.findBlockPos tree₁ dbp
        (UInt32.ofNat (CBlock.codec.ser block).length + 8) (UInt32.ofInt pindex.nHeight)
        (UInt64.ofNat block.nTime.toNat) ctx.diskSpaceOk
      rwa [hfound] at hreflagged
    have hinv := (inv.acceptBlockHeader hheader).reflagged hfiles
    rcases hstored with ⟨-, hstored⟩ | ⟨pos, -, hok, hstored⟩
    · rw [hstored]
      exact hinv
    · rw [hstored] at hfew ⊢
      have hself := (hfind _).trans (acceptBlockHeader_spec hheader).1
      refine hinv.receivedBlockTransactions hself hnodata hvtx ?_ ?_ hfew
      · exact lt_of_le_of_lt hlen (by decide)
      · intro q hq
        refine hwait hok q ?_
        rw [BlockTree.prev] at hq ⊢
        rw [← hq]
        congr 1
        funext x
        exact (hfind x).symm

theorem LinkInv.step {env : ChainEnv} {s s' : ChainState} (inv : LinkInv s.tree [])
    {step : ChainStep} (hregisters : step.Registers s) (h : step.apply env s = some s')
    (hfew : FewTransactions s'.tree) : LinkInv s'.tree [] := by
  cases step with
  | index step =>
      cases h
      cases step with
      | onHeader ctx block =>
          rw [IndexStep.apply]
          split
          · exact inv
          · exact inv.acceptBlockHeader ‹_›
      | onBlock ctx block dbp => exact inv.acceptBlock hregisters hfew
  | activate fuel =>
      obtain ⟨⟨ok, s₁⟩, hact, rfl⟩ := Option.map_eq_some_iff.mp h
      exact inv.reflagged (Reflagged.activateBestChain hact)
  | invalidate hash =>
      obtain ⟨⟨ok, s₁⟩, hinval, rfl⟩ := Option.map_eq_some_iff.mp h
      exact inv.reflagged (Reflagged.invalidateBlock hinval)
  | reconsider hash =>
      obtain ⟨⟨ok, s₁⟩, hrec, rfl⟩ := Option.map_eq_some_iff.mp h
      exact inv.reflagged (Reflagged.reconsiderBlock hrec)

theorem LinkInv.run {env : ChainEnv} {steps : List ChainStep} {s s' : ChainState}
    (inv : LinkInv s.tree []) (hregisters : RunRegisters env steps s)
    (h : runChain env steps s = some s') : LinkInv s'.tree [] := by
  induction steps generalizing s with
  | nil =>
      cases h
      exact inv
  | cons step steps ih =>
      obtain ⟨s₁, hstep, hrest⟩ := Option.bind_eq_some_iff.mp h
      obtain ⟨hreg, hafter⟩ := hregisters
      obtain ⟨hfew, hregs⟩ := hafter s₁ hstep
      exact ih (inv.step hreg hstep hfew) hregs hrest

/-- **`nChainTx` after a run**: it is not zero exactly for the blocks that have data
together with all their ancestors, and then it is the number of their transactions. -/
theorem chainTx_of_run {env : ChainEnv} {steps : List ChainStep} {s : ChainState}
    (hrun : runChain env steps {} = some s) (hregisters : RunRegisters env steps {})
    {hash : Uint256} {pindex : CBlockIndex} (hfind : s.tree.find hash = some pindex) :
    (pindex.nChainTx ≠ 0 ↔ ∃ n, DataChain s.tree hash n) ∧
      ∀ n, DataChain s.tree hash n → pindex.nChainTx.toNat = n := by
  have inv : LinkInv s.tree [] := LinkInv.empty.run hregisters hrun
  refine ⟨⟨fun hne => ⟨_, inv.linked hfind hne⟩, ?_⟩, ?_⟩
  · rintro ⟨n, hchain⟩
    exact inv.chainTx_ne_zero hchain hfind
  · intro n hchain
    exact (inv.linked hfind (inv.chainTx_ne_zero hchain hfind)).unique hchain

/-! ## Three blocks -/

/-- A block that pays nothing. -/
def timedBlock (pprev : Option Uint256) (n : UInt8) (nTime : UInt32) : CBlock :=
  { coinbaseBlock exampleHash pprev (coinbaseTx n [⟨0, [0x51]⟩]) with nTime }

/-- The genesis block, a block on it and a block on that one. -/
def treeGenesis : CBlock := timedBlock none 0 0
def treeParent : CBlock := timedBlock (some (treeGenesis.getHash exampleHash)) 1 1
def treeChild : CBlock := timedBlock (some (treeParent.getHash exampleHash)) 2 2

/-- The main network with that genesis block, and no trouble with the disk. -/
def treeContext : AcceptContext where
  toContext := { exampleContext exampleEnv with
    params := mainParams (treeGenesis.getHash exampleHash) }
  chainHeight := 0
  diskSpaceOk := true
  writeBlockOk := true

/-- All blocks are valid. -/
def treeEnv : ChainEnv where
  address h := leNat h.val
  address_injective := by
    intro a b h
    apply Subtype.ext
    rw [← leBytes_leNat a.val, ← leBytes_leNat b.val, a.property, b.property]
    exact congrArg (leBytes 32) h
  hashGenesisBlock := treeGenesis.getHash exampleHash
  connectTip _ := .valid
  disconnectTip _ := true
  undoPos _ := 0
  flushOk := true

def headerStep (block : CBlock) : ChainStep :=
  .index (.onHeader treeContext.toContext block.toCBlockHeader)

def dataStep (block : CBlock) : ChainStep := .index (.onBlock treeContext block none)

/-- The parent is invalidated before its data come, and reconsidered after those of the
child have come. -/
def unregisteredRun : List ChainStep :=
  [dataStep treeGenesis, .activate 2, headerStep treeParent, headerStep treeChild,
    .invalidate (treeParent.getHash exampleHash), dataStep treeChild,
    .reconsider (treeParent.getHash exampleHash), dataStep treeParent]

/-- The entry of a block after a run has data, and the given parent and `nChainTx`. -/
def entryAfter (steps : List ChainStep) (block : CBlock) (pprev : Option Uint256)
    (nChainTx : UInt32) : Bool :=
  (runChain treeEnv steps {}).any fun s => (s.tree.find (block.getHash exampleHash)).any fun p =>
    p.pprev == pprev && p.nChainTx == nChainTx && hasStatus p.nStatus blockHaveData

theorem entryAfter_eq_true {steps : List ChainStep} {block : CBlock} {pprev : Option Uint256}
    {nChainTx : UInt32} (h : entryAfter steps block pprev nChainTx = true) :
    ∃ s p, runChain treeEnv steps {} = some s ∧
      s.tree.find (block.getHash exampleHash) = some p ∧ p.pprev = pprev ∧
      p.nChainTx = nChainTx ∧ hasStatus p.nStatus blockHaveData = true := by
  rw [entryAfter, Option.any_eq_true] at h
  obtain ⟨s, hrun, hentry⟩ := h
  rw [Option.any_eq_true] at hentry
  obtain ⟨p, hfind, heq⟩ := hentry
  simp only [Bool.and_eq_true, beq_iff_eq] at heq
  exact ⟨s, p, hrun, hfind, heq.1.1, heq.1.2, heq.2⟩

/-- **A block that is never linked**: all three blocks have data, and the last one has no
`nChainTx`. -/
theorem child_never_linked :
    ∃ s pindex n, runChain treeEnv unregisteredRun {} = some s ∧
      s.tree.find (treeChild.getHash exampleHash) = some pindex ∧
      DataChain s.tree (treeChild.getHash exampleHash) n ∧ pindex.nChainTx = 0 := by
  have hentries : (entryAfter unregisteredRun treeGenesis none 1 &&
      entryAfter unregisteredRun treeParent (some (treeGenesis.getHash exampleHash)) 2 &&
      entryAfter unregisteredRun treeChild (some (treeParent.getHash exampleHash)) 0) = true := by
    simp only [entryAfter, runChain, unregisteredRun, ChainStep.apply, headerStep, dataStep,
      IndexStep.apply, acceptBlock, acceptBlockHeader, contextualCheckBlockHeader,
      checkBlockHeaderAfter, BlockTree.getMedianTimePast_eq]
    decide +kernel
  simp only [Bool.and_eq_true] at hentries
  obtain ⟨⟨hgenesis, hparent⟩, hchild⟩ := hentries
  obtain ⟨s, g, hrun, hg, hgprev, -, hgdata⟩ := entryAfter_eq_true hgenesis
  obtain ⟨s₁, p, hrun₁, hp, hpprev, -, hpdata⟩ := entryAfter_eq_true hparent
  obtain ⟨s₂, c, hrun₂, hc, hcprev, hczero, hcdata⟩ := entryAfter_eq_true hchild
  rw [hrun] at hrun₁ hrun₂
  cases hrun₁
  cases hrun₂
  exact ⟨s, c, _, hrun, hc, DataChain.child hc hcprev hcdata
    (DataChain.child hp hpprev hpdata (DataChain.root hg hgprev hgdata)), hczero⟩

/-! ### The condition, computed -/

/-- Few transactions in each block, and few blocks on top of each other. -/
def fewCheck (tree : BlockTree) : Bool :=
  tree.mapBlockIndex.entries.all fun e =>
    e.2.nTx.toNat ≤ 1000 && 0 ≤ e.2.nHeight && e.2.nHeight < 1000000 &&
      e.2.pprev.all fun prev => (tree.find prev).any fun q => e.2.nHeight == q.nHeight + 1

theorem fewTransactions_of_check {tree : BlockTree} (h : fewCheck tree = true) :
    FewTransactions tree := by
  have hentry : ∀ {x p}, tree.find x = some p → p.nTx.toNat ≤ 1000 ∧ 0 ≤ p.nHeight ∧
      p.nHeight < 1000000 ∧ ∀ prev q, p.pprev = some prev → tree.find prev = some q →
        p.nHeight = q.nHeight + 1 := by
    intro x p hx
    have hall := List.all_eq_true.mp h (x, p) (OrdMap.find_eq_some.mp hx)
    simp only [Bool.and_eq_true, decide_eq_true_eq] at hall
    obtain ⟨⟨⟨htx, hpos⟩, hlt⟩, hprev⟩ := hall
    refine ⟨htx, hpos, hlt, ?_⟩
    intro prev q hp hq
    simpa [hp, hq] using hprev
  -- a chain of data is no longer than the block is high
  have hbound : ∀ x n, DataChain tree x n → ∃ p, tree.find x = some p ∧
      (n : Int) ≤ 1000 * (p.nHeight + 1) := by
    intro x n hchain
    induction hchain with
    | root hfind _ _ =>
        obtain ⟨htx, hpos, -⟩ := hentry hfind
        exact ⟨_, hfind, by omega⟩
    | child hfind hprev _ _ ih =>
        obtain ⟨q, hq, hn⟩ := ih
        obtain ⟨htx, -, -, hheight⟩ := hentry hfind
        have := hheight _ _ hprev hq
        refine ⟨_, hfind, ?_⟩
        push_cast
        omega
  intro x n hchain
  obtain ⟨p, hfind, hn⟩ := hbound x n hchain
  obtain ⟨-, -, hlt, -⟩ := hentry hfind
  omega

/-- The call does not store a block whose parent is failed and not linked. -/
def ChainStep.registersCheck (s : ChainState) : ChainStep → Bool
  | .index (.onBlock ctx block _) =>
    match acceptBlockHeader ctx.toContext s.tree block.toCBlockHeader with
    | .error _ => true
    | .ok (pindex, tree) =>
      (tree.prev pindex).all fun q => q.nChainTx != 0 || q.isValid blockValidTree
  | _ => true

theorem ChainStep.registers_of_check {s : ChainState} {step : ChainStep}
    (h : step.registersCheck s = true) : step.Registers s := by
  cases step with
  | index step =>
      cases step with
      | onHeader ctx block => trivial
      | onBlock ctx block dbp =>
          intro pindex tree hheader _ _ q hq hzero
          rw [registersCheck, hheader] at h
          simpa [hq, hzero] using h
  | activate fuel => trivial
  | invalidate hash => trivial
  | reconsider hash => trivial

/-- The run meets the condition. -/
def runCheck (env : ChainEnv) : List ChainStep → ChainState → Bool
  | [], _ => true
  | step :: steps, s => step.registersCheck s &&
    (step.apply env s).all fun s' => fewCheck s'.tree && runCheck env steps s'

theorem runRegisters_of_check {env : ChainEnv} {steps : List ChainStep} {s : ChainState}
    (h : runCheck env steps s = true) : RunRegisters env steps s := by
  induction steps generalizing s with
  | nil => trivial
  | cons step steps ih =>
      rw [runCheck, Bool.and_eq_true] at h
      refine ⟨ChainStep.registers_of_check h.1, ?_⟩
      intro s' hs'
      have hrest := h.2
      rw [hs', Option.all_some, Bool.and_eq_true] at hrest
      exact ⟨fewTransactions_of_check hrest.1, ih hrest.2⟩

/-- The data of the child come first. -/
def registeredRun : List ChainStep :=
  [dataStep treeGenesis, .activate 2, headerStep treeParent, headerStep treeChild,
    dataStep treeChild, .invalidate (treeChild.getHash exampleHash), dataStep treeParent]

/-- The condition at work: the child waits, and is linked when its parent is. -/
theorem chainTx_of_registeredRun :
    ∃ s pindex, runChain treeEnv registeredRun {} = some s ∧
      s.tree.find (treeChild.getHash exampleHash) = some pindex ∧
      ∃ n, DataChain s.tree (treeChild.getHash exampleHash) n ∧ pindex.nChainTx.toNat = n := by
  have hcheck : (runCheck treeEnv registeredRun {} &&
      entryAfter registeredRun treeChild (some (treeParent.getHash exampleHash)) 3) = true := by
    simp only [runCheck, ChainStep.registersCheck, entryAfter, runChain, registeredRun,
      ChainStep.apply, headerStep, dataStep, IndexStep.apply, acceptBlock, acceptBlockHeader,
      contextualCheckBlockHeader, checkBlockHeaderAfter, BlockTree.getMedianTimePast_eq]
    decide +kernel
  rw [Bool.and_eq_true] at hcheck
  obtain ⟨s, c, hrun, hc, -, hchain, -⟩ := entryAfter_eq_true hcheck.2
  obtain ⟨hiff, hsum⟩ := chainTx_of_run hrun (runRegisters_of_check hcheck.1) hc
  have hne : c.nChainTx ≠ 0 := by
    rw [hchain]
    decide
  obtain ⟨n, hn⟩ := hiff.mp hne
  exact ⟨s, c, hrun, hc, n, hn, hsum n hn⟩

end Hivemind
