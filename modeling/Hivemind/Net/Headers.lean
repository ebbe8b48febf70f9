import Hivemind.Chain.Locator
import Hivemind.Validation.Accept

/-!
# Nodes that keep headers (`main.cpp`, `chain.h`)

What `AcceptBlockHeader`, `AcceptBlock` and `SetTip` do to the block index, to the pointers of
its entries and to the active chain together.

The block index, the pointers and the active chain are each the subject of a module of their own;
a node that exchanges headers has all three, about the same entries.  `Place` is what they share:
the parent of an entry, its height and its header.  A header that is accepted adds an entry to
the index and to the pointers, with its skip pointer; the data of a block change its entry and
move nothing; and the active chain is set to an entry that the index has.

* `place_newEntry`, `place_acceptBlock`: where a new entry stands, and that data moves no entry.
* `Same`, `HeaderNode.Inv`: the index and the pointers are about the same entries.
* `Inv.withEntry`: **a header that is accepted** gets its entry and its pointers.
* `Inv.acceptHeader`, `Inv.acceptBlock`, `Inv.setTip`: each operation keeps the node in order.
-/

namespace Hivemind

open Codecs Forests Outcomes

/-! ## Entries and their headers -/

/-- `GetBlockHeader`. -/
def CBlockIndex.getBlockHeader (pindex : CBlockIndex) : CBlockHeader where
  nVersion := pindex.nVersion
  hashPrevBlock := pindex.pprev.getD Blob.null
  hashMerkleRoot := pindex.hashMerkleRoot
  nTime := pindex.nTime
  nBits := pindex.nBits
  nNonce := pindex.nNonce

/-- Where an entry stands in the tree, and its header. -/
structure Place where
  phashBlock : Option Uint256
  pprev : Option Uint256
  nHeight : Int
  header : CBlockHeader

def CBlockIndex.place (pindex : CBlockIndex) : Place where
  phashBlock := pindex.phashBlock
  pprev := pindex.pprev
  nHeight := pindex.nHeight
  header := pindex.getBlockHeader

namespace BlockTree

variable {tree : BlockTree} {hash : Uint256} {block : CBlockHeader}

/-- A new entry above a block of the index. -/
theorem place_newEntry {prev : CBlockIndex} (hprev : tree.find block.hashPrevBlock = some prev)
    (hne : block.hashPrevBlock ≠ hash) :
    (tree.newEntry hash block).place =
      ⟨some hash, some block.hashPrevBlock, prev.nHeight + 1, block⟩ := by
  rw [newEntry, CBlockIndex.raiseValidity_eq]
  generalize (CBlockIndex.raiseValidity _ _).nStatus = nStatus
  unfold linkParent
  rw [find_put_of_ne _ _ hne, hprev]
  rfl

/-- The first entry, of a block that names none before it. -/
theorem place_newEntry_genesis (hnull : block.hashPrevBlock = Blob.null) (hne : hash ≠ Blob.null) :
    (({} : BlockTree).newEntry hash block).place = ⟨some hash, none, 0, block⟩ := by
  rw [newEntry, CBlockIndex.raiseValidity_eq]
  generalize (CBlockIndex.raiseValidity _ _).nStatus = nStatus
  unfold linkParent
  rw [find_put_of_ne _ _ (by rw [hnull]; exact hne.symm)]
  cases block
  obtain rfl : _ = Blob.null := hnull
  rfl

theorem place_receivedBlockTransactions (tree : BlockTree) (hash : Uint256) (block : CBlock)
    {pindex : CBlockIndex} (pos : CDiskBlockPos) (hfind : tree.find hash = some pindex)
    (h : Uint256) : ((tree.receivedBlockTransactions hash block pindex pos).find h).map
      CBlockIndex.place = (tree.find h).map CBlockIndex.place := by
  have hlink : ((tree.receivedBlockTransactions hash block pindex pos).find h).map
      CBlockIndex.place = ((tree.put hash (tree.receivedEntry block pindex pos)).find h).map
        CBlockIndex.place := map_find_linkReceived (fun _ _ => rfl) _ hash _ h
  refine hlink.trans ?_
  by_cases hh : h = hash
  · subst hh
    rw [find_put_self, hfind, receivedEntry, CBlockIndex.raiseValidity_eq]
    rfl
  · rw [find_put_of_ne _ _ hh]

end BlockTree

/-- **The data of a block** moves no entry. -/
theorem place_acceptBlock (ctx : AcceptContext) {tree tree₁ : BlockTree} {block : CBlock}
    (dbp : Option CDiskBlockPos) {pindex : CBlockIndex}
    (hok : acceptBlockHeader ctx.toContext tree block.toCBlockHeader = .ok (pindex, tree₁))
    (h : Uint256) : ((acceptBlock ctx tree block dbp).2.find h).map CBlockIndex.place =
      (tree₁.find h).map CBlockIndex.place := by
  have hfind := (acceptBlockHeader_spec hok).1
  rw [acceptBlock, hok]
  simp only
  split_ifs with hdata
  · rfl
  · split
    · split_ifs
      · by_cases hh : h = block.getHash ctx.hash
        · subst hh
          rw [BlockTree.find_put_self, hfind]
          rfl
        · rw [BlockTree.find_put_of_ne _ _ hh]
      · rfl
    · obtain ⟨found, hfound, hstored⟩ :=
        storeBlock_cases ctx tree₁ (block.getHash ctx.hash) block pindex dbp
      have hroom : ∀ k, found.2.find k = tree₁.find k := by
        intro k
        rw [← hfound, BlockTree.find_findBlockPos]
      rcases hstored with ⟨-, heq⟩ | ⟨pos, -, -, heq⟩
      · rw [heq, hroom]
      · rw [heq, BlockTree.place_receivedBlockTransactions _ _ _ _ ((hroom _).trans hfind), hroom]

/-! ## The nodes -/

/-- What a node keeps of headers: the block index, the pointers of its entries with the skip
pointers, and the active chain. -/
structure HeaderNode where
  tree : BlockTree
  links : LinkTree Uint256
  chainActive : CChain Uint256

/-- `CChain::Next`. -/
def CChain.next (chain : CChain Uint256) (links : LinkTree Uint256) (pindex : Uint256) :
    Option Uint256 :=
  if chain.contains links pindex then chain.get (links.nHeight pindex + 1) else none

namespace HeaderNode

/-- A node that has the genesis block only, after `InitBlockIndex`. -/
def new (hash : Bytes → Uint256) (genesis : CBlockHeader) : HeaderNode where
  tree := BlockTree.addToBlockIndex {} (genesis.getHash hash) genesis
  links := LinkTree.genesisTree (genesis.getHash hash)
  chainActive := ⟨[some (genesis.getHash hash)]⟩

/-- The node with an entry of the header, which `BuildSkip` gives its skip pointer. -/
def withEntry (node : HeaderNode) (tree : BlockTree) (hash hashPrevBlock : Uint256) : HeaderNode :=
  { node with
    tree
    links := (node.links.addBlock hash hashPrevBlock).getD node.links }

/-- `AcceptBlockHeader`. -/
def acceptHeader (ctx : Context) (node : HeaderNode) (block : CBlockHeader) :
    Except Stop (CBlockIndex × HeaderNode) :=
  (acceptBlockHeader ctx node.tree block).map fun r =>
    (r.1, node.withEntry r.2 (block.getHash ctx.hash) block.hashPrevBlock)

/-- `AcceptBlock`. -/
def acceptBlock (ctx : AcceptContext) (node : HeaderNode) (block : CBlock)
    (dbp : Option CDiskBlockPos) : HeaderNode :=
  let tree := (Hivemind.acceptBlock ctx node.tree block dbp).2
  match acceptBlockHeader ctx.toContext node.tree block.toCBlockHeader with
  | .error _ => { node with tree }
  | .ok _ => node.withEntry tree (block.getHash ctx.hash) block.hashPrevBlock

/-- `chainActive.SetTip` to an entry of the index. -/
def setTip (node : HeaderNode) (tip : Uint256) : HeaderNode :=
  if node.links.Has tip then
    { node with
      chainActive := (node.chainActive.setTip node.links (some tip)).getD node.chainActive }
  else node

/-! ### What holds of a node -/

/-- The entry of `h` is where the pointers say, and its header has this hash. -/
structure Entry (hash : Bytes → Uint256) (links : LinkTree Uint256) (h : Uint256)
    (place : Place) : Prop where
  phashBlock : place.phashBlock = some h
  pprev : place.pprev = links.pprev h
  nHeight : place.nHeight = links.nHeight h
  header : place.header.getHash hash = h
  hashPrevBlock : place.header.hashPrevBlock = place.pprev.getD Blob.null

/-- The index and the pointers are about the same entries. -/
structure Same (hash : Bytes → Uint256) (tree : BlockTree) (links : LinkTree Uint256) : Prop where
  has : ∀ h, links.Has h ↔ (tree.find h).isSome = true
  entry : ∀ h place, (tree.find h).map CBlockIndex.place = some place → Entry hash links h place

/-- What holds of a node. -/
structure Inv (hash : Bytes → Uint256) (genesis : Uint256) (node : HeaderNode) : Prop where
  skip : node.links.SkipLinked genesis
  same : Same hash node.tree node.links
  chain : ∃ tip, node.links.Has tip ∧
    CChain.IsBranch skip.forest node.chainActive.vChain (some tip)

end HeaderNode

/-- What adding an entry to the pointers does. -/
theorem LinkTree.addBlock_cases {α : Type} [DecidableEq α] {tree tree' : LinkTree α} {x b : α}
    (h : tree.addBlock x b = some tree') :
    tree' = tree ∧ (tree.Has x ∨ ¬ tree.Has b) ∨
    ∃ pskip, ¬ tree.Has x ∧ tree.Has b ∧
      tree' = tree.put x { pprev := some b, pskip, nHeight := tree.nHeight b + 1 } := by
  rw [LinkTree.addBlock] at h
  split_ifs at h with hold
  · exact Or.inl ⟨(Option.some.inj h).symm, hold⟩
  · obtain ⟨pskip, -, rfl⟩ := Option.map_eq_some_iff.mp h
    rw [not_or, not_not] at hold
    exact Or.inr ⟨pskip, hold.1, hold.2, rfl⟩

/-- A header that is new has its parent in the index. -/
theorem exists_prev_of_accept {ctx : Context} {tree tree' : BlockTree} {block : CBlockHeader}
    {pindex : CBlockIndex} (hok : acceptBlockHeader ctx tree block = .ok (pindex, tree'))
    (hnone : tree.find (block.getHash ctx.hash) = none)
    (hgenesis : block.getHash ctx.hash ≠ ctx.params.hashGenesisBlock) :
    ∃ prev, tree.find block.hashPrevBlock = some prev := by
  rw [acceptBlockHeader, hnone] at hok
  simp only [bind_eq_ok] at hok
  obtain ⟨-, -, prev, hprev, -⟩ := hok
  rw [acceptPrev, if_neg hgenesis] at hprev
  cases hfind : tree.find block.hashPrevBlock with
  | none =>
      rw [hfind] at hprev
      cases hprev
  | some pprev => exact ⟨pprev, rfl⟩

namespace HeaderNode

variable {hash : Bytes → Uint256} {genesis : Uint256} {node : HeaderNode}

theorem Same.congr {tree tree' : BlockTree} {links : LinkTree Uint256}
    (h : Same hash tree links)
    (hplace : ∀ k, (tree'.find k).map CBlockIndex.place = (tree.find k).map CBlockIndex.place) :
    Same hash tree' links := by
  constructor
  · intro k
    have hsome := congrArg Option.isSome (hplace k)
    rw [Option.isSome_map, Option.isSome_map] at hsome
    rw [h.has, hsome]
  · intro k place hk
    exact h.entry k place (by rw [← hplace, hk])

/-- The entries of both indices after a new header. -/
theorem Same.put {tree : BlockTree} {links : LinkTree Uint256} (h : Same hash tree links)
    {block : CBlockHeader} (hnone : tree.find (block.getHash hash) = none) {prev : CBlockIndex}
    (hprev : tree.find block.hashPrevBlock = some prev) (pskip : Option Uint256) :
    Same hash (tree.addToBlockIndex (block.getHash hash) block)
      (links.put (block.getHash hash)
        ⟨some block.hashPrevBlock, pskip, links.nHeight block.hashPrevBlock + 1⟩) := by
  have hne : block.hashPrevBlock ≠ block.getHash hash := by
    intro heq
    rw [heq, hnone] at hprev
    cases hprev
  obtain ⟨p, hsome, -⟩ | ⟨-, hnew, hother⟩ := tree.find_addToBlockIndex (block.getHash hash) block
  · rw [hnone] at hsome
    cases hsome
  constructor
  · intro k
    rw [LinkTree.has_put]
    by_cases hk : k = block.getHash hash
    · simp [hk, hnew]
    · rw [hother k hk, ← h.has]
      simp [hk]
  · intro k place hplace
    by_cases hk : k = block.getHash hash
    · subst hk
      rw [hnew, Option.map_some, BlockTree.place_newEntry hprev hne] at hplace
      obtain rfl := Option.some.inj hplace
      have hheight := (h.entry _ _ (by rw [hprev, Option.map_some])).nHeight
      exact {
        phashBlock := rfl
        pprev := by rw [LinkTree.pprev_put_self]
        nHeight := by
          rw [LinkTree.nHeight_put_self, ← hheight]
          rfl
        header := rfl
        hashPrevBlock := rfl }
    · rw [hother k hk] at hplace
      obtain ⟨hself, hpprev, hheight, hheader, hlink⟩ := h.entry k place hplace
      refine ⟨hself, ?_, ?_, hheader, hlink⟩
      · rw [hpprev, LinkTree.pprev_put_of_ne hk]
      · rw [hheight, LinkTree.nHeight_put_of_ne hk]

/-- A branch stays a branch when an entry is added. -/
theorem isBranch_put {links : LinkTree Uint256} {x : Uint256} {l : BlockLinks Uint256}
    (h : links.Linked genesis) (h' : (links.put x l).Linked genesis) (hx : ¬ links.Has x)
    {vChain : List (Option Uint256)} {tip : Uint256} (htip : links.Has tip)
    (hchain : CChain.IsBranch h.forest vChain (some tip)) :
    CChain.IsBranch h'.forest vChain (some tip) := by
  obtain ⟨hlen, hget⟩ := hchain
  have hne : tip ≠ x := fun heq => hx (heq ▸ htip)
  have hdepth : h'.forest.depth tip = h.forest.depth tip :=
    congrArg Int.toNat (LinkTree.nHeight_put_of_ne hne)
  refine ⟨by rw [hlen, hdepth], fun i hi => ?_⟩
  rw [h.ancestorAt_put h' hx htip]
  exact hget i (by omega)

/-- The rules that both nodes share. -/
structure Rules (hash : Bytes → Uint256) (genesis : Uint256) (ctx : Context) : Prop where
  hash : ctx.hash = hash
  genesis : ctx.params.hashGenesisBlock = genesis

/-- The node has the entries that it had. -/
def Grows (node node' : HeaderNode) : Prop := ∀ h, node.links.Has h → node'.links.Has h

/-- **What a header adds** keeps the node in order. -/
theorem Inv.withEntry (inv : Inv hash genesis node) {ctx : Context}
    (hrules : Rules hash genesis ctx)
    {block : CBlockHeader} {pindex : CBlockIndex} {tree₁ tree' : BlockTree}
    (hok : acceptBlockHeader ctx node.tree block = .ok (pindex, tree₁))
    (hplace : ∀ k, (tree'.find k).map CBlockIndex.place = (tree₁.find k).map CBlockIndex.place) :
    Inv hash genesis (node.withEntry tree' (block.getHash ctx.hash) block.hashPrevBlock) ∧
      Grows node (node.withEntry tree' (block.getHash ctx.hash) block.hashPrevBlock) := by
  obtain ⟨hhash, hgenesis⟩ := hrules
  subst hhash hgenesis
  obtain ⟨links', hadd, hskip⟩ := inv.skip.addBlock (block.getHash ctx.hash) block.hashPrevBlock
  have hnode : node.withEntry tree' (block.getHash ctx.hash) block.hashPrevBlock =
      ⟨tree', links', node.chainActive⟩ := by
    rw [HeaderNode.withEntry, hadd]
    rfl
  rw [hnode]
  obtain ⟨tip, htip, hchain⟩ := inv.chain
  rcases acceptBlockHeader_cases hok with ⟨hfind, -, rfl⟩ | ⟨hnone, rfl, -⟩
  · -- the header is known
    obtain ⟨rfl, -⟩ | ⟨-, hnot, -⟩ := LinkTree.addBlock_cases hadd
    · exact ⟨⟨hskip, inv.same.congr hplace, tip, htip, hchain⟩, fun h hh => hh⟩
    · exact absurd ((inv.same.has _).mpr (by rw [hfind]; rfl)) hnot
  · have hnot : ¬ node.links.Has (block.getHash ctx.hash) := by
      rw [inv.same.has, hnone]
      simp
    obtain ⟨prev, hprev⟩ := exists_prev_of_accept hok hnone (by
      intro heq
      exact hnot (by rw [heq]; exact inv.skip.has_genesis))
    have hhas : node.links.Has block.hashPrevBlock := (inv.same.has _).mpr (by rw [hprev]; rfl)
    obtain ⟨-, hold⟩ | ⟨pskip, -, -, rfl⟩ := LinkTree.addBlock_cases hadd
    · exact absurd hold (by simp [hnot, hhas])
    · refine ⟨⟨hskip, (inv.same.put hnone hprev pskip).congr hplace, tip, ?_, ?_⟩, ?_⟩
      · exact LinkTree.has_put.mpr (Or.inr htip)
      · exact isBranch_put inv.skip.toLinked hskip.toLinked hnot htip hchain
      · exact fun h hh => LinkTree.has_put.mpr (Or.inr hh)

/-- `AcceptHeader` keeps the node in order. -/
theorem Inv.acceptHeader (inv : Inv hash genesis node) {ctx : Context}
    (hrules : Rules hash genesis ctx) {block : CBlockHeader} {pindex : CBlockIndex}
    {node' : HeaderNode} (hok : node.acceptHeader ctx block = .ok (pindex, node')) :
    Inv hash genesis node' ∧ Grows node node' ∧ pindex.phashBlock = some (block.getHash hash) ∧
      node'.links.Has (block.getHash hash) := by
  obtain ⟨⟨p, tree⟩, haccept, heq⟩ := map_eq_ok.mp hok
  obtain ⟨rfl, rfl⟩ := Prod.mk.inj heq
  obtain ⟨inv', hgrows⟩ := inv.withEntry hrules haccept fun _ => rfl
  have hfind := (acceptBlockHeader_spec haccept).1
  rw [hrules.hash] at hfind inv' hgrows ⊢
  have hentry := inv'.same.entry (block.getHash hash) p.place (by
    show (tree.find _).map _ = _
    rw [hfind]
    rfl)
  refine ⟨inv', hgrows, hentry.phashBlock, (inv'.same.has _).mpr ?_⟩
  show (tree.find _).isSome = true
  rw [hfind]
  rfl

/-- `AcceptBlock` keeps the node in order. -/
theorem Inv.acceptBlock (inv : Inv hash genesis node) {ctx : AcceptContext}
    (hrules : Rules hash genesis ctx.toContext) (block : CBlock) (dbp : Option CDiskBlockPos) :
    Inv hash genesis (node.acceptBlock ctx block dbp) ∧
      Grows node (node.acceptBlock ctx block dbp) := by
  rw [HeaderNode.acceptBlock]
  cases haccept : acceptBlockHeader ctx.toContext node.tree block.toCBlockHeader with
  | error e =>
      have hsame : (Hivemind.acceptBlock ctx node.tree block dbp).2 = node.tree := by
        rw [Hivemind.acceptBlock, haccept]
      simp only [hsame]
      exact ⟨inv, fun h hh => hh⟩
  | ok r =>
      obtain ⟨pindex, tree₁⟩ := r
      exact inv.withEntry hrules haccept (place_acceptBlock ctx dbp haccept)

/-- `SetTip` keeps the node in order. -/
theorem Inv.setTip (inv : Inv hash genesis node) (tip : Uint256) :
    Inv hash genesis (node.setTip tip) ∧ Grows node (node.setTip tip) := by
  rw [HeaderNode.setTip]
  split_ifs with htip
  · obtain ⟨old, -, hchain⟩ := inv.chain
    obtain ⟨chain', hset, hchain'⟩ :=
      CChain.setTip_spec inv.skip.toLinked hchain (some tip)
    rw [hset]
    exact ⟨⟨inv.skip, inv.same, tip, htip, hchain'⟩, fun h hh => hh⟩
  · exact ⟨inv, fun h hh => hh⟩

theorem inv_new {header : CBlockHeader} (hnull : header.hashPrevBlock = Blob.null)
    (hne : header.getHash hash ≠ Blob.null) :
    Inv hash (header.getHash hash) (new hash header) := by
  have hskip : (new hash header).links.SkipLinked (header.getHash hash) :=
    LinkTree.skipLinked_genesisTree _
  have hfind : ∀ k, (new hash header).tree.find k =
      if k = header.getHash hash then
        some (({} : BlockTree).newEntry (header.getHash hash) header) else none := by
    intro k
    obtain ⟨p, hsome, -⟩ | ⟨-, hnew, hother⟩ :=
      BlockTree.find_addToBlockIndex {} (header.getHash hash) header
    · cases hsome
    · split_ifs with hk
      · rw [hk]
        exact hnew
      · exact hother k hk
  have hlinks : ∀ k, (new hash header).links.find k =
      if k = header.getHash hash then some {} else none := by
    intro k
    show Function.update (fun _ => none) _ _ k = _
    rw [Function.update_apply]
  refine ⟨hskip, ⟨fun k => ?_, fun k place hplace => ?_⟩, header.getHash hash, ?_, ?_⟩
  · rw [LinkTree.Has, hlinks, hfind]
    split_ifs <;> simp
  · rw [hfind] at hplace
    split_ifs at hplace with hk
    · subst hk
      rw [Option.map_some, BlockTree.place_newEntry_genesis hnull hne] at hplace
      obtain rfl := Option.some.inj hplace
      refine ⟨rfl, ?_, ?_, rfl, hnull⟩
      · rw [LinkTree.pprev, hlinks, if_pos rfl]
        rfl
      · rw [LinkTree.nHeight, hlinks, if_pos rfl]
        rfl
    · cases hplace
  · exact hskip.has_genesis
  · have hdepth : hskip.forest.depth (header.getHash hash) = 0 := by
      show ((new hash header).links.nHeight _).toNat = 0
      rw [LinkTree.nHeight, hlinks, if_pos rfl]
      rfl
    refine ⟨by rw [hdepth]; rfl, fun i hi => ?_⟩
    obtain rfl : i = hskip.forest.depth (header.getHash hash) := by omega
    rw [Forest.ancestorAt_self, hdepth]
    rfl

end HeaderNode

end Hivemind
