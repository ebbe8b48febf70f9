import Hivemind.Validation.Candidates
import Hivemind.Validation.LoadIndex

/-!
# What loading restores

The block index after `LoadBlockIndexDB`, for every stored index that is closed under parents.
The second pass goes by height, so that a parent has its work and its transactions when they are
asked for; `SecondPass` says what holds after the turns of some of the blocks.

What is computed and not stored is the work of the chain, the number of its transactions, the
skip pointers, the blocks that wait, the candidates and the best header.  Each of them is a sum
or a condition along the ancestors of a block in the stored forest, and the pass over the blocks
by height is the rule for passes of the library.  The tip of the active chain is the block that
the coins belong to; that it is among the candidates keeps the assertion at the end from failing.

* `StoredIndex`: what the node asks of a stored index.
* `SecondPass.turn`: one turn of the second pass.
* `Restored`: what is in memory after loading.
* `loadBlockIndexDB_restores`: **the state after loading.**
* `reloadIndex_restored`: four entries, of which one waits for its parent's data.
-/

namespace Hivemind

open Codecs Ordered Forests

/-! ## Sums along the ancestors -/

namespace ClosedIndex

variable (stored : ClosedIndex)

/-- The block has data. -/
def hasData (h : Uint256) : Bool :=
  (stored.index.find h).any fun e => hasStatus e.nStatus blockHaveData

/-- `GetBlockProof` of a block. -/
def proofOf (h : Uint256) : Nat :=
  ((stored.index.find h).map fun e => getBlockProof e.nBits).getD 0

/-- `nTx` of a block. -/
def nTxOf (h : Uint256) : Nat := ((stored.index.find h).map fun e => e.nTx.toNat).getD 0

/-- The block and its ancestors have data. -/
def linked (h : Uint256) : Bool := (stored.forest.lineage h).all stored.hasData

/-- The work of a block and its ancestors. -/
def work (h : Uint256) : Nat := ((stored.forest.lineage h).map stored.proofOf).sum

/-- The transactions of a block and its ancestors. -/
def transactions (h : Uint256) : Nat := ((stored.forest.lineage h).map stored.nTxOf).sum

variable {stored} {h b : Uint256} {e : CDiskBlockIndex}

theorem hasData_of_find (hfind : stored.index.find h = some e) :
    stored.hasData h = hasStatus e.nStatus blockHaveData := by
  rw [hasData, hfind, Option.any_some]

theorem proofOf_of_find (hfind : stored.index.find h = some e) :
    stored.proofOf h = getBlockProof e.nBits := by
  rw [proofOf, hfind, Option.map_some, Option.getD_some]

theorem nTxOf_of_find (hfind : stored.index.find h = some e) : stored.nTxOf h = e.nTx.toNat := by
  rw [nTxOf, hfind, Option.map_some, Option.getD_some]

theorem linked_root (hroot : stored.forest.parent h = none) :
    stored.linked h = stored.hasData h := by
  rw [linked, Forest.lineage_root hroot, List.all_cons, List.all_nil, Bool.and_true]

theorem linked_parent (hparent : stored.forest.parent h = some b) :
    stored.linked h = (stored.hasData h && stored.linked b) := by
  rw [linked, Forest.lineage_parent hparent, List.all_cons, linked]

theorem work_root (hroot : stored.forest.parent h = none) : stored.work h = stored.proofOf h := by
  rw [work, Forest.lineage_root hroot, List.map_singleton, List.sum_singleton]

theorem work_parent (hparent : stored.forest.parent h = some b) :
    stored.work h = stored.work b + stored.proofOf h := by
  rw [work, Forest.lineage_parent hparent, List.map_cons, List.sum_cons, work, Nat.add_comm]

theorem transactions_root (hroot : stored.forest.parent h = none) :
    stored.transactions h = stored.nTxOf h := by
  rw [transactions, Forest.lineage_root hroot, List.map_singleton, List.sum_singleton]

theorem transactions_parent (hparent : stored.forest.parent h = some b) :
    stored.transactions h = stored.transactions b + stored.nTxOf h := by
  rw [transactions, Forest.lineage_parent hparent, List.map_cons, List.sum_cons, transactions,
    Nat.add_comm]

theorem linked_hasData (hlinked : stored.linked h = true) : stored.hasData h = true :=
  List.all_eq_true.mp hlinked h (Forest.mem_lineage_self h)

variable (stored) in
theorem nTxOf_le_transactions (h : Uint256) : stored.nTxOf h ≤ stored.transactions h := by
  cases hp : stored.forest.parent h with
  | none => rw [transactions_root hp]
  | some b =>
    rw [transactions_parent hp]
    omega

end ClosedIndex

/-- A stored block index: blocks with data have been checked and have transactions, and no
chain of them has `2 ^ 32`. -/
structure StoredIndex extends ClosedIndex where
  data : ∀ {h e}, index.find h = some e → hasStatus e.nStatus blockHaveData = true →
    blockValidTransactions ≤ e.nStatus &&& blockValidMask ∧ 0 < e.nTx
  few : ∀ h, toClosedIndex.linked h = true → toClosedIndex.transactions h < 2 ^ 32

namespace StoredIndex

variable {stored : StoredIndex} {h b : Uint256} {e : CDiskBlockIndex}

theorem transactions_pos (hlinked : stored.linked h = true) : 0 < stored.transactions h := by
  have hdata := ClosedIndex.linked_hasData hlinked
  cases hfind : stored.index.find h with
  | none =>
    rw [ClosedIndex.hasData, hfind] at hdata
    cases hdata
  | some e =>
    rw [ClosedIndex.hasData_of_find hfind] at hdata
    have hpos := UInt32.lt_iff_toNat_lt.mp (stored.data hfind hdata).2
    have hle := ClosedIndex.nTxOf_le_transactions stored.toClosedIndex h
    rw [ClosedIndex.nTxOf_of_find hfind] at hle
    exact Nat.lt_of_lt_of_le hpos hle

/-- `nChainTx` of a block. -/
def chainTx (stored : StoredIndex) (h : Uint256) : UInt32 :=
  if stored.linked h then UInt32.ofNat (stored.transactions h) else 0

theorem toNat_chainTx (hlinked : stored.linked h = true) :
    (stored.chainTx h).toNat = stored.transactions h := by
  have := stored.few h hlinked
  rw [chainTx, if_pos hlinked, UInt32.toNat_ofNat']
  omega

theorem chainTx_ne_zero : stored.chainTx h ≠ 0 ↔ stored.linked h = true := by
  refine ⟨?_, ?_⟩
  · intro hne
    by_contra hlinked
    exact hne (by rw [chainTx, if_neg hlinked])
  · intro hlinked hzero
    have hpos := transactions_pos hlinked
    rw [← toNat_chainTx hlinked, hzero] at hpos
    cases hpos

/-- The entry of a block after the second pass. -/
def finishedEntry (stored : StoredIndex) (h : Uint256) (e : CDiskBlockIndex) : CBlockIndex :=
  { loadedEntry h e with
    nChainWork := stored.work h % 2 ^ 256
    nChainTx := stored.chainTx h }

/-- The entry of the parent, when it has had its turn. -/
def finishedParent (stored : StoredIndex) (h : Uint256) : Option CBlockIndex :=
  (stored.forest.parent h).bind fun b => (stored.index.find b).map (stored.finishedEntry b)

/-- The entry that a turn computes. -/
theorem computedEntry_eq (hfind : stored.index.find h = some e) :
    computedEntry (loadedEntry h e) (stored.finishedParent h) = stored.finishedEntry h e := by
  have hdata := ClosedIndex.hasData_of_find hfind
  have hproof := ClosedIndex.proofOf_of_find hfind
  have hnTx := ClosedIndex.nTxOf_of_find hfind
  cases hp : stored.forest.parent h with
  | none =>
    have hwork : (0 + getBlockProof e.nBits) % 2 ^ 256 = stored.work h % 2 ^ 256 := by
      rw [ClosedIndex.work_root hp, hproof, Nat.zero_add]
    have htx : (if hasStatus e.nStatus blockHaveData = true then e.nTx else 0) =
        stored.chainTx h := by
      rw [chainTx, ClosedIndex.linked_root hp, ClosedIndex.transactions_root hp, hdata, hnTx,
        UInt32.ofNat_toNat]
    rw [finishedParent, hp, finishedEntry, ← hwork, ← htx]
    rfl
  | some b =>
    obtain ⟨q, hq⟩ := ClosedIndex.find_parent hp
    have hwork : (stored.work b % 2 ^ 256 + getBlockProof e.nBits) % 2 ^ 256 =
        stored.work h % 2 ^ 256 := by
      rw [ClosedIndex.work_parent hp, hproof, Nat.mod_add_mod]
    have htx : (if hasStatus e.nStatus blockHaveData = true then
          if stored.chainTx b ≠ 0 then stored.chainTx b + e.nTx else 0 else 0) =
        stored.chainTx h := by
      rw [← hdata]
      by_cases hd : stored.hasData h = true
      · rw [if_pos hd]
        by_cases hb : stored.linked b = true
        · have hh : stored.linked h = true := by
            rw [ClosedIndex.linked_parent hp, hd, hb]
            rfl
          rw [if_pos (chainTx_ne_zero.mpr hb), chainTx, chainTx, if_pos hb, if_pos hh,
            ClosedIndex.transactions_parent hp, hnTx, UInt32.ofNat_add, UInt32.ofNat_toNat]
        · rw [if_neg fun hne => hb (chainTx_ne_zero.mp hne), chainTx, if_neg]
          rw [ClosedIndex.linked_parent hp, Bool.and_eq_true]
          exact fun hboth => hb hboth.2
      · rw [if_neg hd, chainTx, if_neg]
        rw [ClosedIndex.linked_parent hp, Bool.and_eq_true]
        exact fun hboth => hd hboth.1
    rw [finishedParent, hp, Option.bind_some, hq, Option.map_some]
    show _ = { loadedEntry h e with
      nChainWork := stored.work h % 2 ^ 256
      nChainTx := stored.chainTx h }
    rw [← hwork, ← htx]
    rfl

theorem waitsFor_eq (hfind : stored.index.find h = some e) :
    waitsFor (loadedEntry h e) (stored.finishedParent h) =
      (stored.hasData h && (stored.forest.parent h).isSome && !stored.linked h) := by
  have hdata : hasStatus (loadedEntry h e).nStatus blockHaveData = stored.hasData h :=
    (ClosedIndex.hasData_of_find hfind).symm
  rw [waitsFor, hdata, finishedParent]
  cases hp : stored.forest.parent h with
  | none => simp
  | some b =>
    obtain ⟨q, hq⟩ := ClosedIndex.find_parent hp
    rw [Option.bind_some, hq, Option.map_some, Option.any_some, ClosedIndex.linked_parent hp]
    have hzero : (stored.chainTx b == 0) = !stored.linked b := by
      cases hb : stored.linked b with
      | true => simpa using chainTx_ne_zero.mpr hb
      | false => simp [chainTx, hb]
    show (stored.hasData h && (stored.chainTx b == 0)) = _
    rw [hzero]
    cases stored.hasData h <;> simp

end StoredIndex

/-! ## The order of the second pass -/

theorem mem_sortedByHeight {env : ChainEnv} {tree : BlockTree} {h : Uint256} :
    h ∈ sortedByHeight env tree ↔ ∃ p, tree.find h = some p := by
  simp only [sortedByHeight, List.mem_map, List.mem_insertionSort, Prod.exists,
    exists_and_right, exists_eq_right, BlockTree.find, OrdMap.find_eq_some]

theorem nodup_sortedByHeight (env : ChainEnv) (tree : BlockTree) :
    (sortedByHeight env tree).Nodup := by
  have hkeys : (tree.mapBlockIndex.entries.map Prod.fst).Nodup := by
    refine List.Pairwise.imp (fun hlt => ne_of_lt hlt) ?_
    exact List.pairwise_map.mpr tree.mapBlockIndex.sorted
  exact ((List.perm_insertionSort _ _).map Prod.fst).nodup_iff.mpr hkeys

/-- The blocks come by height. -/
theorem pairwise_sortedByHeight (env : ChainEnv) (tree : BlockTree) :
    (sortedByHeight env tree).Pairwise fun a b =>
      ∀ p q, tree.find a = some p → tree.find b = some q → p.nHeight ≤ q.nHeight := by
  let r : Uint256 × CBlockIndex → Uint256 × CBlockIndex → Prop := fun a b =>
    a.2.nHeight < b.2.nHeight ∨
      (a.2.nHeight = b.2.nHeight ∧ env.address a.1 ≤ env.address b.1)
  have htotal : Std.Total r := ⟨fun a b => by simp only [r]; omega⟩
  have htrans : IsTrans _ r := ⟨fun a b c hab hbc => by simp only [r] at *; omega⟩
  have hsorted := List.pairwise_insertionSort r tree.mapBlockIndex.entries
  refine List.pairwise_map.mpr (List.Pairwise.imp_of_mem ?_ hsorted)
  rintro ⟨a, p⟩ ⟨b, q⟩ ha hb hab p' q' hp hq
  have hp' := OrdMap.find_eq_some.mpr ((List.mem_insertionSort r).mp ha)
  have hq' := OrdMap.find_eq_some.mpr ((List.mem_insertionSort r).mp hb)
  cases hp'.symm.trans hp
  cases hq'.symm.trans hq
  simp only [r] at hab
  omega

/-! ## The second pass -/

/-- The entry of a block during the second pass. -/
def StoredIndex.entryAt (stored : StoredIndex) (done : List Uint256) (h : Uint256)
    (e : CDiskBlockIndex) : CBlockIndex :=
  if h ∈ done then stored.finishedEntry h e else loadedEntry h e

/-- After the turns of the blocks in `done`. -/
structure SecondPass (stored : StoredIndex) (done : List Uint256) (s : LoadState) : Prop where
  closed : ∀ {x b}, x ∈ done → stored.forest.parent x = some b → b ∈ done
  entries : ∀ x, s.tree.find x = (stored.index.find x).map (stored.entryAt done x)
  unlinked : ∀ {b c}, (b, c) ∈ s.tree.mapBlocksUnlinked ↔
    c ∈ done ∧ stored.forest.parent c = some b ∧ stored.hasData c = true ∧ stored.linked c = false
  unlinked_nodup : s.tree.mapBlocksUnlinked.Nodup
  candidates : ∀ {x e}, stored.index.find x = some e → x ∈ done →
    loadsCandidate (stored.finishedEntry x e) = true → x ∈ s.tree.setBlockIndexCandidates
  skip : ∀ x, s.pskip.find x = if x ∈ done then skipOf stored.forest x else none
  noFiles : s.tree.nLastBlockFile = 0
  noChain : s.vChain = []

/-- What one turn changes. -/
structure Turn (s s' : LoadState) (h : Uint256) (e : CDiskBlockIndex) (stored : StoredIndex) :
    Prop where
  find : ∀ x, s'.tree.find x =
    if x = h then some (stored.finishedEntry h e) else s.tree.find x
  unlinked : s'.tree.mapBlocksUnlinked = s.tree.mapBlocksUnlinked ++
    if stored.hasData h && !stored.linked h then
      ((stored.forest.parent h).map fun b => (b, h)).toList
    else []
  candidate : loadsCandidate (stored.finishedEntry h e) = true →
    h ∈ s'.tree.setBlockIndexCandidates
  candidates : ∀ {x}, x ∈ s.tree.setBlockIndexCandidates → x ∈ s'.tree.setBlockIndexCandidates
  skip : ∀ x, s'.pskip.find x =
    if x = h then (skipOf stored.forest h).or (s.pskip.find h) else s.pskip.find x
  noFiles : s'.tree.nLastBlockFile = s.tree.nLastBlockFile
  noChain : s'.vChain = s.vChain

namespace SecondPass

variable {stored : StoredIndex} {done : List Uint256} {s s' : LoadState} {h : Uint256}
  {e : CDiskBlockIndex}

theorem snoc (hpass : SecondPass stored done s) (hfind : stored.index.find h = some e)
    (hnot : h ∉ done) (hprev : ∀ b, stored.forest.parent h = some b → b ∈ done)
    (hturn : Turn s s' h e stored) : SecondPass stored (done ++ [h]) s' := by
  refine ⟨?_, ?_, ?_, ?_, ?_, ?_, ?_, ?_⟩
  · intro x b hx hparent
    rcases List.mem_append.mp hx with hold | hnew
    · exact List.mem_append_left _ (hpass.closed hold hparent)
    · cases List.mem_singleton.mp hnew
      exact List.mem_append_left _ (hprev b hparent)
  · intro x
    rw [hturn.find]
    by_cases hx : x = h
    · rw [if_pos hx, hx, hfind, Option.map_some, StoredIndex.entryAt, if_pos (by simp)]
    · rw [if_neg hx, hpass.entries]
      congr 1
      funext d
      simp [StoredIndex.entryAt, hx]
  · intro b c
    rw [hturn.unlinked, List.mem_append, hpass.unlinked, List.mem_append, List.mem_singleton]
    by_cases hc : c = h
    · subst hc
      cases hp : stored.forest.parent c with
      | none => simp [hnot]
      | some d =>
        cases hd : stored.hasData c with
        | false => simp
        | true =>
          cases hl : stored.linked c with
          | true => simp
          | false => simp [hnot, eq_comm]
    · have hnew : (b, c) ∉ (if stored.hasData h && !stored.linked h then
          ((stored.forest.parent h).map fun b => (b, h)).toList else []) := by
        split_ifs
        · cases stored.forest.parent h with
          | none => simp
          | some d => simp [hc]
        · simp
      simp only [hnew, or_false, hc]
  · rw [hturn.unlinked]
    refine List.nodup_append.mpr ⟨hpass.unlinked_nodup, ?_, ?_⟩
    · split_ifs
      · cases stored.forest.parent h with
        | none => simp
        | some d => simp
      · exact List.nodup_nil
    · rintro ⟨b, c⟩ hold ⟨b', c'⟩ hnew heq
      cases heq
      have hch : c = h := by
        split_ifs at hnew
        · cases hp : stored.forest.parent h with
          | none =>
            rw [hp] at hnew
            cases hnew
          | some d =>
            rw [hp] at hnew
            simp only [Option.map_some, Option.toList_some, List.mem_singleton] at hnew
            exact (Prod.mk.inj hnew).2
        · cases hnew
      exact hnot (hch ▸ (hpass.unlinked.mp hold).1)
  · intro x d hx hmem hcand
    rcases List.mem_append.mp hmem with hold | hnew
    · exact hturn.candidates (hpass.candidates hx hold hcand)
    · cases List.mem_singleton.mp hnew
      cases hfind.symm.trans hx
      exact hturn.candidate hcand
  · intro x
    rw [hturn.skip]
    by_cases hx : x = h
    · rw [if_pos hx, hpass.skip, if_neg hnot, Option.or_none, if_pos (by simp [hx]), hx]
    · rw [if_neg hx, hpass.skip]
      simp [hx]
  · rw [hturn.noFiles, hpass.noFiles]
  · rw [hturn.noChain, hpass.noChain]

end SecondPass

section Links

variable {tree : BlockTree} {h : Uint256} {pindex : CBlockIndex}

theorem find_linkTurn (x : Uint256) : (linkTurn tree h pindex).find x =
    if x = h then some (computedEntry pindex (tree.prev pindex)) else tree.find x := by
  have hput : (linkTurn tree h pindex).find x =
      (tree.put h (computedEntry pindex (tree.prev pindex))).find x := by
    unfold linkTurn BlockTree.insertCandidate
    dsimp only
    split_ifs <;> rfl
  rw [hput]
  by_cases hx : x = h
  · rw [if_pos hx, hx, BlockTree.find_put_self]
  · rw [if_neg hx, BlockTree.find_put_of_ne _ _ hx]

theorem unlinked_linkTurn : (linkTurn tree h pindex).mapBlocksUnlinked =
    tree.mapBlocksUnlinked ++ if waitsFor pindex (tree.prev pindex) then
      (pindex.pprev.map fun b => (b, h)).toList else [] := by
  unfold linkTurn BlockTree.insertCandidate
  dsimp only
  split_ifs <;> rfl

theorem candidates_linkTurn {x : Uint256} : x ∈ (linkTurn tree h pindex).setBlockIndexCandidates ↔
    (x = h ∧ loadsCandidate (computedEntry pindex (tree.prev pindex)) = true) ∨
      x ∈ tree.setBlockIndexCandidates := by
  unfold linkTurn
  dsimp only
  by_cases hcand : loadsCandidate (computedEntry pindex (tree.prev pindex)) = true
  · rw [if_pos hcand, mem_insertCandidate]
    simp [hcand, BlockTree.put]
  · rw [if_neg hcand]
    simp [hcand, BlockTree.put]

theorem files_linkTurn : (linkTurn tree h pindex).nLastBlockFile = tree.nLastBlockFile := by
  unfold linkTurn BlockTree.insertCandidate
  dsimp only
  split_ifs <;> rfl

end Links

namespace SecondPass

variable {stored : StoredIndex} {done : List Uint256} {s : LoadState} {h : Uint256}
  {e : CDiskBlockIndex}

theorem prev_eq (hpass : SecondPass stored done s) (hfind : stored.index.find h = some e)
    (hprev : ∀ b, stored.forest.parent h = some b → b ∈ done) :
    s.tree.prev (loadedEntry h e) = stored.finishedParent h := by
  show (ClosedIndex.prevOf e).bind s.tree.find = stored.finishedParent h
  rw [StoredIndex.finishedParent, ClosedIndex.parent_of_find hfind]
  cases hp : ClosedIndex.prevOf e with
  | none => rfl
  | some b =>
    have hdone : b ∈ done := hprev b ((ClosedIndex.parent_of_find hfind).trans hp)
    rw [Option.bind_some, Option.bind_some, hpass.entries]
    congr 1
    funext d
    rw [StoredIndex.entryAt, if_pos hdone]

/-- The pointers of the blocks that have had their turn are right. -/
theorem goodPointers (hpass : SecondPass stored done s) (hnot : h ∉ done) {tree : BlockTree}
    (htree : ∀ x, tree.find x = if x = h then some (stored.finishedEntry h e) else s.tree.find x) :
    GoodPointers stored.forest (fun x => (tree.find x).bind CBlockIndex.pprev)
      (fun x => s.pskip.find x) (· ∈ done) := by
  refine ⟨hpass.closed, ?_, ?_⟩
  · intro x hx
    have hxh : x ≠ h := fun heq => hnot (heq ▸ hx)
    show (tree.find x).bind CBlockIndex.pprev = (stored.index.find x).bind ClosedIndex.prevOf
    rw [htree, if_neg hxh, hpass.entries]
    cases stored.index.find x with
    | none => rfl
    | some d =>
      rw [Option.map_some, Option.bind_some, Option.bind_some, StoredIndex.entryAt, if_pos hx]
      rfl
  · intro x hx
    show s.pskip.find x = skipOf stored.forest x
    rw [hpass.skip, if_pos hx]

/-- `BuildSkip` finds the ancestor that the pointer has to lead to. -/
theorem buildSkip_eq (hpass : SecondPass stored done s) (hfind : stored.index.find h = some e)
    (hnot : h ∉ done) (hprev : ∀ b, stored.forest.parent h = some b → b ∈ done) {tree : BlockTree}
    (htree : ∀ x, tree.find x = if x = h then some (stored.finishedEntry h e) else s.tree.find x) :
    ∃ pskip, buildSkip tree s.pskip h (stored.finishedEntry h e) = some pskip ∧
      ∀ x, pskip.find x =
        if x = h then (skipOf stored.forest h).or (s.pskip.find h) else s.pskip.find x := by
  have hpprev : (stored.finishedEntry h e).pprev = stored.forest.parent h :=
    (ClosedIndex.parent_of_find hfind).symm
  rw [buildSkip, BlockTree.prev, hpprev]
  cases hp : stored.forest.parent h with
  | none =>
    refine ⟨s.pskip, rfl, fun x => ?_⟩
    have hroot : skipOf stored.forest h = none := by rw [skipOf, hp, Option.bind_none]
    by_cases hx : x = h
    · rw [if_pos hx, hx, hroot, Option.none_or]
    · rw [if_neg hx]
  | some b =>
    have hdone := hprev b hp
    have hbh : b ≠ h := fun heq => hnot (heq ▸ hdone)
    obtain ⟨q, hq⟩ := ClosedIndex.find_parent hp
    have hfindb : tree.find b = some (stored.finishedEntry b q) := by
      rw [htree, if_neg hbh, hpass.entries, hq, Option.map_some, StoredIndex.entryAt, if_pos hdone]
    have hheight : (stored.finishedEntry b q).nHeight = (stored.forest.depth b : Int) :=
      (ClosedIndex.depth_of_find hq).symm
    have hdepth : (stored.finishedEntry h e).nHeight.toNat = stored.forest.depth h := by
      have hcast := ClosedIndex.depth_of_find hfind
      show e.nHeight.toNat = stored.forest.depth h
      omega
    have hskip : stored.forest.ancestorAt b (getSkipHeight (stored.forest.depth h)) =
        skipOf stored.forest h := by rw [skipOf, hp, Option.bind_some]
    obtain ⟨c, hc, -⟩ := skipOf_spec hp
    rw [Option.bind_some, hfindb]
    dsimp only
    rw [hheight, hdepth, getAncestor_eq (hpass.goodPointers hnot htree) hdone, hskip, hc]
    refine ⟨s.pskip.put h c, rfl, fun x => ?_⟩
    rw [OrdMap.find_put, Option.some_or]
    split_ifs <;> rfl

/-- **One turn of the second pass.** -/
theorem turn (env : ChainEnv) (hpass : SecondPass stored done s)
    (hfind : stored.index.find h = some e) (hnot : h ∉ done)
    (hprev : ∀ b, stored.forest.parent h = some b → b ∈ done) :
    ∃ s', loadTurn env s h = some s' ∧ Turn s s' h e stored := by
  have hhere : s.tree.find h = some (loadedEntry h e) := by
    rw [hpass.entries, hfind, Option.map_some, StoredIndex.entryAt, if_neg hnot]
  have hprevEq := hpass.prev_eq hfind hprev
  have hcomputed : computedEntry (loadedEntry h e) (s.tree.prev (loadedEntry h e)) =
      stored.finishedEntry h e := by rw [hprevEq, StoredIndex.computedEntry_eq hfind]
  have htree : ∀ x, (linkTurn s.tree h (loadedEntry h e)).find x =
      if x = h then some (stored.finishedEntry h e) else s.tree.find x := by
    intro x
    rw [find_linkTurn, hcomputed]
  obtain ⟨pskip, hbuild, hskip⟩ := hpass.buildSkip_eq hfind hnot hprev htree
  have hpprev : (loadedEntry h e).pprev = stored.forest.parent h :=
    (ClosedIndex.parent_of_find hfind).symm
  rw [loadTurn, hhere]
  dsimp only
  rw [hcomputed, hbuild]
  refine ⟨_, rfl, htree, ?_, ?_, ?_, hskip, files_linkTurn, rfl⟩
  · show (linkTurn s.tree h (loadedEntry h e)).mapBlocksUnlinked = _
    rw [unlinked_linkTurn, hprevEq, StoredIndex.waitsFor_eq hfind, hpprev]
    congr 1
    cases stored.forest.parent h with
    | none => simp
    | some b => simp
  · intro hcand
    refine candidates_linkTurn.mpr (Or.inl ⟨rfl, ?_⟩)
    rw [hcomputed]
    exact hcand
  · intro x hx
    exact candidates_linkTurn.mpr (Or.inr hx)

/-- **The second pass.** -/
theorem run (env : ChainEnv) {s : LoadState} (hpass : SecondPass stored [] s) :
    ∃ s' done, (sortedByHeight env s.tree).foldlM (loadTurn env) s = some s' ∧
      SecondPass stored done s' ∧ ∀ x e, stored.index.find x = some e → x ∈ done := by
  have hmem : ∀ x, x ∈ sortedByHeight env s.tree ↔ ∃ e, stored.index.find x = some e := by
    intro x
    rw [mem_sortedByHeight, hpass.entries]
    cases stored.index.find x with
    | none => simp
    | some e => simp
  have hsorted : (sortedByHeight env s.tree).Pairwise fun a b =>
      stored.forest.depth a ≤ stored.forest.depth b := by
    refine List.Pairwise.imp_of_mem ?_ (pairwise_sortedByHeight env s.tree)
    intro a b ha hb hle
    obtain ⟨e, he⟩ := (hmem a).mp ha
    obtain ⟨q, hq⟩ := (hmem b).mp hb
    have hheight := hle (loadedEntry a e) (loadedEntry b q)
      (by rw [hpass.entries, he]; rfl) (by rw [hpass.entries, hq]; rfl)
    have hle' : e.nHeight ≤ q.nHeight := hheight
    have hda := ClosedIndex.depth_of_find he
    have hdb := ClosedIndex.depth_of_find hq
    omega
  have hclosed : ∀ a ∈ sortedByHeight env s.tree, ∀ b, stored.forest.parent a = some b →
      b ∈ sortedByHeight env s.tree :=
    fun a _ b hb => (hmem b).mpr (ClosedIndex.find_parent hb)
  have hstep : ∀ done a s₁, a ∈ sortedByHeight env s.tree → a ∉ done →
      (∀ b, stored.forest.parent a = some b → b ∈ done) → SecondPass stored done s₁ →
        ∃ s₂, loadTurn env s₁ a = some s₂ ∧ SecondPass stored (done ++ [a]) s₂ := by
    intro done a s₁ ha hnot hprev hpass₁
    obtain ⟨e, he⟩ := (hmem a).mp ha
    obtain ⟨s₂, hturn, hspec⟩ := hpass₁.turn env he hnot hprev
    exact ⟨s₂, hturn, hpass₁.snoc he hnot hprev hspec⟩
  obtain ⟨s', hrun, hdone⟩ := Forest.foldlM_parents_first (SecondPass stored)
    (nodup_sortedByHeight env s.tree) hsorted hclosed hstep hpass
  exact ⟨s', _, hrun, hdone, fun x e hx => (hmem x).mpr ⟨e, hx⟩⟩

end SecondPass

/-! ## The active chain -/

/-- The loop of `SetTip` over a chain that has no blocks yet. -/
theorem fillChain_eq {stored : StoredIndex} {tree : BlockTree}
    (htree : ∀ {x e}, stored.index.find x = some e →
      ∃ p, tree.find x = some p ∧ p.pprev = ClosedIndex.prevOf e ∧ p.nHeight = e.nHeight)
    (h : Uint256) : ∀ {e n vChain}, stored.index.find h = some e → stored.forest.depth h < n →
      stored.forest.depth h < vChain.length →
      (∀ i ≤ stored.forest.depth h, vChain[i]? = some none) →
      fillChain tree n (some h) vChain = (stored.forest.lineage h).reverse.map some ++
        vChain.drop (stored.forest.depth h + 1) := by
  refine Forest.induction (F := stored.forest) (P := fun h => ∀ {e n vChain},
    stored.index.find h = some e → stored.forest.depth h < n →
      stored.forest.depth h < vChain.length →
      (∀ i ≤ stored.forest.depth h, vChain[i]? = some none) →
      fillChain tree n (some h) vChain = (stored.forest.lineage h).reverse.map some ++
        vChain.drop (stored.forest.depth h + 1)) ?_ h
  intro h ih e n vChain hfind hn hlen hnone
  obtain ⟨p, hp, hprev, hheight⟩ := htree hfind
  have hdepth : p.nHeight.toNat = stored.forest.depth h := by
    have := ClosedIndex.depth_of_find hfind
    omega
  obtain ⟨n, rfl⟩ : ∃ m, n = m + 1 := ⟨n - 1, by omega⟩
  rw [fillChain, hp]
  dsimp only
  rw [hdepth, hnone _ (Nat.le_refl _), if_neg (by simp), hprev,
    ← ClosedIndex.parent_of_find hfind]
  cases hparent : stored.forest.parent h with
  | none =>
    have hzero := stored.forest.depth_root hparent
    have hstop : ∀ chain, fillChain tree n none chain = chain := by
      intro chain
      cases n <;> rfl
    rw [hstop, hzero, Forest.lineage_root hparent]
    cases vChain with
    | nil => rw [hzero] at hlen; cases hlen
    | cons _ rest => rfl
  | some b =>
    obtain ⟨q, hq⟩ := ClosedIndex.find_parent hparent
    have hsucc := stored.forest.depth_parent hparent
    rw [ih b hparent hq (by omega) (by rw [List.length_set]; omega)]
    · have hdrop : (vChain.set (stored.forest.depth h) (some h)).drop (stored.forest.depth h) =
          some h :: vChain.drop (stored.forest.depth h + 1) := by
        rw [List.drop_eq_getElem_cons (by rw [List.length_set]; exact hlen), List.getElem_set_self,
          List.drop_set_of_lt (Nat.lt_succ_self _)]
      rw [Forest.lineage_parent hparent, ← hsucc, List.reverse_cons, List.map_append,
        List.append_assoc, hdrop]
      rfl
    · intro i hi
      rw [List.getElem?_set_ne (by omega)]
      exact hnone i (by omega)

/-! ## The state after loading -/

/-- What is in memory after loading, in terms of the stored blocks and their ancestors. -/
structure Restored (env : LoadEnv) (stored : StoredIndex) (s : LoadState) : Prop where
  /-- The blocks in memory are the stored ones, with the fields that are stored. -/
  entry : ∀ {h p}, s.tree.find h = some p → ∃ e, stored.index.find h = some e ∧
    p = { loadedEntry h e with nChainWork := p.nChainWork, nChainTx := p.nChainTx }
  complete : ∀ {h e}, stored.index.find h = some e → ∃ p, s.tree.find h = some p
  chainWork : ∀ {h p}, s.tree.find h = some p → p.nChainWork = stored.work h % 2 ^ 256
  chainTx_ne_zero : ∀ {h p}, s.tree.find h = some p →
    (p.nChainTx ≠ 0 ↔ ∀ a ∈ stored.forest.lineage h, stored.hasData a = true)
  chainTx : ∀ {h p}, s.tree.find h = some p →
    (∀ a ∈ stored.forest.lineage h, stored.hasData a = true) →
      p.nChainTx.toNat = stored.transactions h
  unlinked : ∀ {b c}, (b, c) ∈ s.tree.mapBlocksUnlinked ↔
    stored.forest.parent c = some b ∧ stored.hasData c = true ∧
      ¬ ∀ a ∈ stored.forest.lineage c, stored.hasData a = true
  unlinked_nodup : s.tree.mapBlocksUnlinked.Nodup
  skip : ∀ {h b}, stored.forest.parent h = some b → ∃ c, s.pskip.find h = some c ∧
    c ∈ stored.forest.lineage b ∧ stored.forest.depth c = getSkipHeight (stored.forest.depth h)
  skip_root : ∀ {h}, stored.forest.parent h = none → s.pskip.find h = none
  candidates : ∀ {h p tip}, s.tree.find h = some p → s.tree.find env.bestBlock = some tip →
    hasStatus p.nStatus blockFailedMask = false →
    (∀ a ∈ stored.forest.lineage h, stored.hasData a = true) →
    workComparator env.chain p tip = false → h ∈ s.tree.setBlockIndexCandidates

theorem linked_iff {stored : StoredIndex} {h : Uint256} :
    stored.linked h = true ↔ ∀ a ∈ stored.forest.lineage h, stored.hasData a = true :=
  List.all_eq_true

/-- A block that is not failed and has its ancestors' data is a candidate. -/
theorem loadsCandidate_of_linked {stored : StoredIndex} {h : Uint256} {e : CDiskBlockIndex}
    (hfind : stored.index.find h = some e) (hlinked : stored.linked h = true)
    (hfailed : hasStatus e.nStatus blockFailedMask = false) :
    loadsCandidate (stored.finishedEntry h e) = true := by
  have hdata := ClosedIndex.linked_hasData hlinked
  rw [ClosedIndex.hasData_of_find hfind] at hdata
  have hvalid : (stored.finishedEntry h e).isValid blockValidTransactions = true := by
    show (!hasStatus e.nStatus blockFailedMask &&
      decide (blockValidTransactions ≤ e.nStatus &&& blockValidMask)) = true
    rw [hfailed, decide_eq_true (stored.data hfind hdata).1]
    rfl
  have hchain : ((stored.finishedEntry h e).nChainTx != 0) = true :=
    bne_iff_ne.mpr (StoredIndex.chainTx_ne_zero.mpr hlinked)
  rw [loadsCandidate, hvalid, hchain]
  rfl

/-- After the second pass, whatever the candidates are pruned to. -/
theorem SecondPass.restored {env : LoadEnv} {stored : StoredIndex} {done : List Uint256}
    {s s' : LoadState} (hpass : SecondPass stored done s)
    (hall : ∀ x e, stored.index.find x = some e → x ∈ done)
    (hfind : ∀ x, s'.tree.find x = s.tree.find x)
    (hunlinked : s'.tree.mapBlocksUnlinked = s.tree.mapBlocksUnlinked)
    (hskip : s'.pskip = s.pskip)
    (hcand : ∀ {x p tip}, s.tree.find x = some p → s.tree.find env.bestBlock = some tip →
      workComparator env.chain p tip = false → x ∈ s.tree.setBlockIndexCandidates →
        x ∈ s'.tree.setBlockIndexCandidates) : Restored env stored s' := by
  have hentry : ∀ {x p}, s'.tree.find x = some p →
      ∃ e, stored.index.find x = some e ∧ p = stored.finishedEntry x e := by
    intro x p hx
    rw [hfind, hpass.entries] at hx
    obtain ⟨e, he, rfl⟩ := Option.map_eq_some_iff.mp hx
    exact ⟨e, he, by rw [StoredIndex.entryAt, if_pos (hall x e he)]⟩
  refine ⟨?_, ?_, ?_, ?_, ?_, ?_, ?_, ?_, ?_, ?_⟩
  · intro h p hp
    obtain ⟨e, he, rfl⟩ := hentry hp
    exact ⟨e, he, rfl⟩
  · intro h e he
    exact ⟨_, by rw [hfind, hpass.entries, he, Option.map_some]⟩
  · intro h p hp
    obtain ⟨e, -, rfl⟩ := hentry hp
    rfl
  · intro h p hp
    obtain ⟨e, -, rfl⟩ := hentry hp
    rw [← linked_iff]
    exact StoredIndex.chainTx_ne_zero
  · intro h p hp hlinked
    obtain ⟨e, -, rfl⟩ := hentry hp
    exact StoredIndex.toNat_chainTx (linked_iff.mpr hlinked)
  · intro b c
    rw [hunlinked, hpass.unlinked, ← linked_iff, Bool.not_eq_true]
    refine ⟨And.right, fun hc => ⟨?_, hc⟩⟩
    obtain ⟨e, he, -⟩ : ∃ e, stored.index.find c = some e ∧
        hasStatus e.nStatus blockHaveData = true := by
      have hdata := hc.2.1
      rw [ClosedIndex.hasData, Option.any_eq_true] at hdata
      exact hdata
    exact hall c e he
  · rw [hunlinked]
    exact hpass.unlinked_nodup
  · intro h b hparent
    obtain ⟨e, he⟩ : ∃ e, stored.index.find h = some e := by
      cases he : stored.index.find h with
      | none =>
        have hnone : (stored.index.find h).bind ClosedIndex.prevOf = some b := hparent
        rw [he] at hnone
        cases hnone
      | some e => exact ⟨e, rfl⟩
    rw [hskip, hpass.skip, if_pos (hall h e he)]
    exact skipOf_spec hparent
  · intro h hroot
    rw [hskip, hpass.skip, skipOf, hroot, Option.bind_none]
    split_ifs <;> rfl
  · intro h p tip hp htip hfailed hlinked hworse
    obtain ⟨e, he, rfl⟩ := hentry hp
    rw [hfind] at hp htip
    exact hcand hp htip hworse (hpass.candidates he (hall h e he)
      (loadsCandidate_of_linked he (linked_iff.mpr hlinked) hfailed))

theorem workComparator_self (env : ChainEnv) (p : CBlockIndex) :
    workComparator env p p = false := by
  simp [workComparator]

theorem loadBlockFiles_spec {db : LevelDB} {tree : BlockTree} (hfiles : tree.nLastBlockFile = 0)
    (hlast : 0 ≤ CBlockTreeDB.readLastBlockFile db 0) :
    ∃ n files, loadBlockFiles db tree =
      some { tree with nLastBlockFile := n, vinfoBlockFile := files } := by
  have hzero : Int32.ofNat tree.nLastBlockFile = 0 := by rw [hfiles]; rfl
  rw [loadBlockFiles, hzero, if_neg (Int32.not_lt.mpr hlast)]
  exact ⟨_, _, rfl⟩

/-- The files of all blocks with data can be opened. -/
def FilesPresent (env : LoadEnv) (index : OrdMap Uint256 CDiskBlockIndex) : Prop :=
  ∀ h e, index.find h = some e → hasStatus e.nStatus blockHaveData = true →
    env.openBlockFile e.nFile = true

/-- The check of the block files, which sees the entries in memory. -/
theorem blockFilesPresent_iff (env : LoadEnv) {stored : StoredIndex} {done : List Uint256}
    {s : LoadState} (hpass : SecondPass stored done s) {tree : BlockTree}
    (hfind : ∀ x, tree.find x = s.tree.find x) :
    blockFilesPresent env tree = true ↔ FilesPresent env stored.index := by
  have hfields : ∀ x e, (stored.entryAt done x e).nStatus = e.nStatus ∧
      (stored.entryAt done x e).nFile = e.nFile := by
    intro x e
    rw [StoredIndex.entryAt]
    split_ifs <;> exact ⟨rfl, rfl⟩
  have hentries : blockFilesPresent env tree = true ↔ ∀ x p, tree.find x = some p →
      hasStatus p.nStatus blockHaveData = true → env.openBlockFile p.nFile = true := by
    rw [blockFilesPresent, List.all_eq_true]
    refine ⟨fun hall x p hx hdata => ?_, fun hall p hp => ?_⟩
    · have := hall (x, p) (OrdMap.find_eq_some.mp hx)
      rw [Bool.or_eq_true, hdata] at this
      simpa using this
    · rw [Bool.or_eq_true]
      cases hdata : hasStatus p.2.nStatus blockHaveData with
      | false => exact Or.inl rfl
      | true => exact Or.inr (hall p.1 p.2 (OrdMap.find_eq_some.mpr hp) hdata)
  rw [hentries]
  refine ⟨fun hall h e he hdata => ?_, fun hall x p hx hdata => ?_⟩
  · have hx : tree.find h = some (stored.entryAt done h e) := by
      rw [hfind, hpass.entries, he, Option.map_some]
    rw [← (hfields h e).2]
    exact hall h _ hx ((hfields h e).1 ▸ hdata)
  · rw [hfind, hpass.entries] at hx
    obtain ⟨e, he, rfl⟩ := Option.map_eq_some_iff.mp hx
    rw [(hfields x e).1] at hdata
    rw [(hfields x e).2]
    exact hall x e he hdata

/-- The end of loading, when the block that the coins belong to is linked and not failed:
the assertion of `PruneBlockIndexCandidates` holds, because the block itself is left. -/
theorem loadTip_spec (env : LoadEnv) {stored : StoredIndex} {done : List Uint256}
    {s : LoadState} (hpass : SecondPass stored done s)
    (hall : ∀ x e, stored.index.find x = some e → x ∈ done) (s₁ : LoadState)
    (hfind : ∀ x, s₁.tree.find x = s.tree.find x)
    (hunlinked : s₁.tree.mapBlocksUnlinked = s.tree.mapBlocksUnlinked)
    (hcand : s₁.tree.setBlockIndexCandidates = s.tree.setBlockIndexCandidates)
    (hskip : s₁.pskip = s.pskip) (hchain : s₁.vChain = s.vChain) {e : CDiskBlockIndex}
    (he : stored.index.find env.bestBlock = some e)
    (hlinked : stored.linked env.bestBlock = true)
    (hfailed : hasStatus e.nStatus blockFailedMask = false) :
    ∃ s', loadTip env s₁ = some (true, s') ∧ Restored env stored s' ∧
      s'.vChain = (stored.forest.lineage env.bestBlock).reverse.map some := by
  have htip : s₁.tree.find env.bestBlock = some (stored.finishedEntry env.bestBlock e) := by
    rw [hfind, hpass.entries, he, Option.map_some, StoredIndex.entryAt, if_pos (hall _ e he)]
  have hpruned : ∀ {x p}, s₁.tree.find x = some p →
      workComparator env.chain p (stored.finishedEntry env.bestBlock e) = false →
      x ∈ s₁.tree.setBlockIndexCandidates →
      x ∈ (s₁.tree.pruneCandidates env.chain
        (stored.finishedEntry env.bestBlock e)).setBlockIndexCandidates := by
    intro x p hx hworse hmem
    refine List.mem_filter.mpr ⟨hmem, ?_⟩
    rw [hx, Option.any_some, hworse]
    rfl
  have hself : env.bestBlock ∈ (s₁.tree.pruneCandidates env.chain
      (stored.finishedEntry env.bestBlock e)).setBlockIndexCandidates := by
    refine hpruned htip (workComparator_self _ _) ?_
    rw [hcand]
    exact hpass.candidates he (hall _ e he) (loadsCandidate_of_linked he hlinked hfailed)
  rw [loadTip, htip]
  dsimp only
  rw [if_neg (List.ne_nil_of_mem hself)]
  refine ⟨_, rfl, hpass.restored hall hfind hunlinked hskip ?_, ?_⟩
  · intro x p tip hx htip' hworse hmem
    rw [← hfind, htip] at htip'
    cases htip'
    exact hpruned ((hfind x).trans hx) hworse (hcand ▸ hmem)
  · show setTip s₁.tree env.bestBlock (stored.finishedEntry env.bestBlock e) s₁.vChain = _
    have hdepth : (stored.finishedEntry env.bestBlock e).nHeight.toNat =
        stored.forest.depth env.bestBlock := by
      have hcast := ClosedIndex.depth_of_find he
      show e.nHeight.toNat = stored.forest.depth env.bestBlock
      omega
    rw [setTip, hdepth, hchain, hpass.noChain]
    simp only [List.take_nil, List.nil_append, List.length_nil, Nat.sub_zero]
    have hpointers : ∀ {x d}, stored.index.find x = some d →
        ∃ p, s₁.tree.find x = some p ∧ p.pprev = ClosedIndex.prevOf d ∧ p.nHeight = d.nHeight := by
      intro x d hx
      refine ⟨stored.entryAt done x d, by rw [hfind, hpass.entries, hx, Option.map_some], ?_⟩
      rw [StoredIndex.entryAt]
      split_ifs <;> exact ⟨rfl, rfl⟩
    rw [fillChain_eq hpointers env.bestBlock he (Nat.lt_succ_self _) (by simp) ?_]
    · simp
    · intro i hi
      rw [List.getElem?_replicate, if_pos (by omega)]

/-- **Loading restores the block tree.**  The node fails to load only if a proof of work is
bad or a block file is missing, and no assertion fails.  With good proofs of work the work,
the transactions, the blocks that wait, the skip pointers and the candidates are those that
the stored blocks and their ancestors determine. -/
theorem loadBlockIndexDB_restores (env : LoadEnv) (stored : StoredIndex)
    (fReindex fTxIndex fMarketIndex : Bool)
    (hdb : StoresIndex env.hash env.pblocktree stored.index)
    (hbest : ∃ e, stored.index.find env.bestBlock = some e ∧
      hasStatus e.nStatus blockFailedMask = false)
    (hdata : ∀ a ∈ stored.forest.lineage env.bestBlock, stored.hasData a = true) :
    ∃ ok s, loadBlockIndexDB env { fReindex, fTxIndex, fMarketIndex } = some (ok, s) ∧
      (ok = true ↔ GoodWork env.params stored.index ∧ FilesPresent env stored.index) ∧
      (GoodWork env.params stored.index → Restored env stored s) ∧
      (ok = true → s.vChain = (stored.forest.lineage env.bestBlock).reverse.map some) := by
  obtain ⟨e, he, hfailed⟩ := hbest
  obtain ⟨ok₁, tree₁, hguts, hok₁, hentries, m, hm⟩ :=
    loadBlockIndexGuts_spec hdb (show ∀ x, ({} : BlockTree).find x = none from fun x => rfl)
  rw [loadBlockIndexDB]
  dsimp only
  rw [hguts]
  cases ok₁ with
  | false =>
    have hbad : ¬ GoodWork env.params stored.index := by
      intro hgood
      cases hok₁.mpr hgood
    exact ⟨false, _, rfl, by simp [hbad], fun hgood => absurd hgood hbad, by simp⟩
  | true =>
    have hgood := hok₁.mp rfl
    have hstart : SecondPass stored []
        { tree := tree₁, fReindex, fTxIndex, fMarketIndex : LoadState } := by
      refine ⟨by simp, hentries rfl, ?_, ?_, by simp, fun x => by simp, ?_, rfl⟩
      · simp [hm]
      · simp [hm]
      · simp [hm]
    obtain ⟨s, done, hrun, hpass, hall⟩ := hstart.run env.chain
    dsimp only at hrun ⊢
    rw [hrun]
    dsimp only
    obtain ⟨n, files, hfiles⟩ := loadBlockFiles_spec hpass.noFiles hdb.lastFile
    rw [hfiles]
    dsimp only
    have hpresent := blockFilesPresent_iff env hpass (show ∀ x, ({ s.tree with
      nLastBlockFile := n, vinfoBlockFile := files } : BlockTree).find x = s.tree.find x from
        fun x => rfl)
    cases hcheck : blockFilesPresent env { s.tree with
        nLastBlockFile := n, vinfoBlockFile := files } with
    | false =>
      rw [hcheck] at hpresent
      have hmissing : ¬ FilesPresent env stored.index := by simpa using hpresent
      rw [if_pos (by simp)]
      refine ⟨false, _, rfl, by simp [hmissing], fun _ => ?_, by simp⟩
      exact hpass.restored hall (fun x => rfl) rfl rfl (fun _ _ _ hmem => hmem)
    | true =>
      rw [if_neg (by simp)]
      obtain ⟨s', hload, hrestored, hchain⟩ := loadTip_spec env hpass hall { s with
          tree := { s.tree with nLastBlockFile := n, vinfoBlockFile := files }
          fReindex := s.fReindex || CBlockTreeDB.readReindexing env.pblocktree
          fTxIndex := CBlockTreeDB.readFlag env.pblocktree txindexName s.fTxIndex }
        (fun x => rfl) rfl rfl rfl rfl he (linked_iff.mpr hdata) hfailed
      refine ⟨true, s', hload, ?_, fun _ => hrestored, fun _ => hchain⟩
      simp [hgood, hpresent.mp hcheck]

/-! ## A stored index -/

/-- An entry on the given parent, with the hash of its header. -/
def storedBlock (pprev : Option CBlockIndex) (nTime : UInt32) (nStatus : BlockStatus)
    (nTx : UInt32) : CBlockIndex :=
  let prevHash := pprev.map CBlockIndex.getBlockHash
  let header : CBlockHeader := { hashPrevBlock := prevHash.getD Blob.null, nTime, nBits := 0x207fffff }
  { CBlockIndex.ofHeader header with
    phashBlock := some (header.getHash exampleHash)
    pprev := prevHash
    nHeight := (pprev.map fun p => p.nHeight + 1).getD 0
    nStatus
    nTx }

/-- The genesis block and a block on it. -/
def storedGenesis : CBlockIndex := storedBlock none 1 (blockValidScripts ||| blockHaveData) 1
def storedTip : CBlockIndex :=
  storedBlock (some storedGenesis) 2 (blockValidScripts ||| blockHaveData) 2

/-- A header on the genesis block, and a block with data that waits for it. -/
def storedHeader : CBlockIndex := storedBlock (some storedGenesis) 3 blockValidTree 0
def storedWaiting : CBlockIndex :=
  storedBlock (some storedHeader) 4 (blockValidTransactions ||| blockHaveData) 1

def reloadBlocks : List CBlockIndex := [storedGenesis, storedTip, storedHeader, storedWaiting]

/-- The database after the four entries have been written. -/
def reloadEnv : LoadEnv where
  chain := treeEnv
  hash := exampleHash
  params := mainParams storedGenesis.getBlockHash
  pblocktree := CBlockTreeDB.writeBatchSync [] 0 reloadBlocks OrdMap.empty
  pmarkettree := OrdMap.empty
  bestBlock := storedTip.getBlockHash
  fileOpens _ := true

/-- A check of the conditions of `StoredIndex`, entry by entry. -/
def storedCheck (index : OrdMap Uint256 CDiskBlockIndex) : Bool :=
  index.find Blob.null == none &&
  index.entries.all fun p =>
    (if p.2.hashPrev = Blob.null then p.2.nHeight == 0
      else (index.find p.2.hashPrev).any fun q => p.2.nHeight == q.nHeight + 1) &&
    (!hasStatus p.2.nStatus blockHaveData ||
      decide (blockValidTransactions ≤ p.2.nStatus &&& blockValidMask ∧ 0 < p.2.nTx))

theorem storedCheck_mem {index : OrdMap Uint256 CDiskBlockIndex} (hcheck : storedCheck index = true)
    {h : Uint256} {e : CDiskBlockIndex} (hfind : index.find h = some e) :
    (if e.hashPrev = Blob.null then e.nHeight == 0
      else (index.find e.hashPrev).any fun q => e.nHeight == q.nHeight + 1) = true ∧
    (hasStatus e.nStatus blockHaveData = true →
      blockValidTransactions ≤ e.nStatus &&& blockValidMask ∧ 0 < e.nTx) := by
  rw [storedCheck, Bool.and_eq_true, List.all_eq_true] at hcheck
  have hentry := hcheck.2 (h, e) (OrdMap.find_eq_some.mp hfind)
  rw [Bool.and_eq_true] at hentry
  refine ⟨hentry.1, fun hdata => ?_⟩
  have hlevel := hentry.2
  rw [hdata] at hlevel
  simpa using hlevel

def closedIndexOfCheck (index : OrdMap Uint256 CDiskBlockIndex) (hcheck : storedCheck index = true) :
    ClosedIndex where
  index := index
  null := by
    rw [storedCheck, Bool.and_eq_true, beq_iff_eq] at hcheck
    exact hcheck.1
  root := by
    intro h e hfind hnull
    have hentry := (storedCheck_mem hcheck hfind).1
    rw [if_pos hnull] at hentry
    exact beq_iff_eq.mp hentry
  child := by
    intro h e hfind hnull
    have hentry := (storedCheck_mem hcheck hfind).1
    rw [if_neg hnull, Option.any_eq_true] at hentry
    obtain ⟨q, hq, hheight⟩ := hentry
    exact ⟨q, hq, beq_iff_eq.mp hheight⟩

/-- The four blocks as they are stored. -/
def storedFour : OrdMap Uint256 CDiskBlockIndex := CBlockTreeDB.batchIndex reloadBlocks OrdMap.empty

theorem storedCheck_storedFour : storedCheck storedFour = true := by decide +kernel

def reloadIndex : StoredIndex where
  toClosedIndex := closedIndexOfCheck storedFour storedCheck_storedFour
  data := by
    intro h e hfind
    exact (storedCheck_mem storedCheck_storedFour hfind).2
  few := by
    intro h hlinked
    have hall : ∀ p ∈ storedFour.entries,
        (closedIndexOfCheck storedFour storedCheck_storedFour).transactions p.1 < 2 ^ 32 := by
      decide +kernel
    have hdata := ClosedIndex.linked_hasData hlinked
    rw [ClosedIndex.hasData, Option.any_eq_true] at hdata
    obtain ⟨e, he, -⟩ := hdata
    exact hall (h, e) (OrdMap.find_eq_some.mp he)

theorem storesIndex_reloadEnv :
    StoresIndex reloadEnv.hash reloadEnv.pblocktree reloadIndex.index := by
  have hempty : StoresIndex exampleHash OrdMap.empty OrdMap.empty := by
    refine ⟨?_, ?_, ?_, by decide⟩
    · rintro h e ⟨⟩
    · rintro key value ⟨⟩
    · rintro h e ⟨⟩
  refine hempty.writeBatchSync [] (by decide) ?_ ?_
  · have hstorable : ∀ p ∈ reloadBlocks, (0 ≤ p.nHeight ∧ p.nHeight < 2 ^ 31) ∧
        (0 ≤ p.nFile ∧ p.nFile < 2 ^ 31) := by decide +kernel
    exact fun p hp => ⟨(hstorable p hp).1, (hstorable p hp).2⟩
  · decide +kernel

/-- The four blocks are loaded, and the block without its parent's data waits. -/
theorem reloadIndex_restored : ∃ s, loadBlockIndexDB reloadEnv {} = some (true, s) ∧
    s.vChain = [some storedGenesis.getBlockHash, some storedTip.getBlockHash] ∧
    (storedHeader.getBlockHash, storedWaiting.getBlockHash) ∈ s.tree.mapBlocksUnlinked ∧
    storedTip.getBlockHash ∈ s.tree.setBlockIndexCandidates := by
  have hbest : ∃ e, reloadIndex.index.find reloadEnv.bestBlock = some e ∧
      hasStatus e.nStatus blockFailedMask = false :=
    ⟨(CDiskBlockIndex.ofIndex storedTip).stored, by decide +kernel, by decide +kernel⟩
  have hdata : ∀ a ∈ reloadIndex.forest.lineage reloadEnv.bestBlock,
      reloadIndex.hasData a = true := by decide +kernel
  obtain ⟨ok, s, hload, hok, hrestored, hchain⟩ :=
    loadBlockIndexDB_restores reloadEnv reloadIndex false false true storesIndex_reloadEnv hbest
      hdata
  have hgood : GoodWork reloadEnv.params reloadIndex.index := fun _ _ _ => rfl
  have hfiles : FilesPresent reloadEnv reloadIndex.index := by
    intro h e hfind _
    have hall : ∀ p ∈ storedFour.entries, reloadEnv.openBlockFile p.2.nFile = true := by
      decide +kernel
    exact hall (h, e) (OrdMap.find_eq_some.mp hfind)
  cases hok.mpr ⟨hgood, hfiles⟩
  have hres := hrestored hgood
  obtain ⟨e, he, hfailed⟩ := hbest
  obtain ⟨tip, htip⟩ := hres.complete he
  obtain ⟨e', he', htipEq⟩ := hres.entry htip
  cases he.symm.trans he'
  have hstatus : hasStatus tip.nStatus blockFailedMask = false := by
    rw [htipEq]
    exact hfailed
  refine ⟨s, hload, (hchain rfl).trans (by decide +kernel), hres.unlinked.mpr ?_,
    hres.candidates htip htip hstatus hdata (workComparator_self _ _)⟩
  decide +kernel

end Hivemind
