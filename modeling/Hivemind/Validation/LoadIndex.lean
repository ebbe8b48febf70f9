import Hivemind.Chain.SkipList
import Hivemind.TxDb.BlockTreeDb
import Hivemind.Validation.Selection
import Mathlib.Data.Finset.Dedup
import Mathlib.Data.Finset.Max

/-!
# Loading the block index

`LoadBlockIndexGuts` of `txdb.cpp` and `LoadBlockIndexDB` of `main.cpp`: what the node does with
the block index database when it starts.  The entries are read in the order of their hashes, so
that a parent may come after its child and is then created empty; all that is not stored is
computed in a second pass by height.

The first pass is a scan over the database from the smallest key of an entry on, that ends at the
first record which is none.  Every record is checked for its proof of work, and an exception in
one makes the loading fail.  The second pass sorts by height with a sort that leaves the entries
of one height in the order of their addresses, which is a parameter; `LoadEnv` has this and the
disk.  A function that reads a null pointer or fails an assertion returns `none`.

* `ClosedIndex`: a stored index that has the parent of every entry.
* `scan_blockKeys`: the scan reads the entries, and nothing else.
* `loadBlockIndexGuts_spec`: **the entries after the first pass.**
* `loadTurn`, `loadBlockIndexDB`: the second pass and the whole.
-/

namespace Hivemind

open Codecs Ordered Forests

/-! ## The state -/

/-- What loading reads besides memory. -/
structure LoadEnv where
  chain : ChainEnv
  hash : Bytes → Uint256
  params : CChainParams
  pblocktree : LevelDB
  pmarkettree : LevelDB
  /-- `pcoinsTip->GetBestBlock()`. -/
  bestBlock : Uint256
  /-- The block file is there and can be opened. -/
  fileOpens : Int → Bool

/-- The variables that loading fills. -/
structure LoadState where
  tree : BlockTree := {}
  /-- The skip pointers of the entries. -/
  pskip : OrdMap Uint256 Uint256 := OrdMap.empty
  pindexBestInvalid : Option Uint256 := none
  /-- `chainActive`: the blocks by height. -/
  vChain : List (Option Uint256) := []
  fReindex : Bool := false
  fTxIndex : Bool := false
  fMarketIndex : Bool := true

/-! ## `LoadBlockIndexGuts` -/

/-- `InsertBlockIndex`. -/
def BlockTree.insertBlockIndex (tree : BlockTree) (hash : Uint256) : Option Uint256 × BlockTree :=
  if hash = Blob.null then (none, tree)
  else match tree.find hash with
    | some _ => (some hash, tree)
    | none => (some hash, tree.put hash { phashBlock := some hash })

/-- What the first pass writes to an entry. -/
def copyEntry (pindexNew : CBlockIndex) (pprev : Option Uint256) (diskindex : CDiskBlockIndex) :
    CBlockIndex :=
  { pindexNew with
    pprev
    nHeight := diskindex.nHeight
    nFile := diskindex.nFile
    nDataPos := diskindex.nDataPos
    nUndoPos := diskindex.nUndoPos
    nVersion := diskindex.nVersion
    hashMerkleRoot := diskindex.hashMerkleRoot
    nTime := diskindex.nTime
    nBits := diskindex.nBits
    nNonce := diskindex.nNonce
    nStatus := diskindex.nStatus
    nTx := diskindex.nTx }

/-- Construct the entry of one record. -/
def BlockTree.constructEntry (hash : Bytes → Uint256) (tree : BlockTree)
    (diskindex : CDiskBlockIndex) : Option BlockTree :=
  match tree.insertBlockIndex (diskindex.getBlockHash hash) with
  | (none, _) => none
  | (some hashNew, tree) =>
    let (pprev, tree) := tree.insertBlockIndex diskindex.hashPrev
    (tree.find hashNew).map fun pindexNew => tree.put hashNew (copyEntry pindexNew pprev diskindex)

/-- The loop of `LoadBlockIndexGuts`.  Every exception is caught and makes it fail. -/
def loadRecords (hash : Bytes → Uint256) (params : CChainParams) :
    List (Bytes × Bytes) → BlockTree → Option (Bool × BlockTree)
  | [], tree => some (true, tree)
  | (key, value) :: records, tree => match Codec.u8.de key with
    | .error _ => some (false, tree)
    | .ok (chType, _) =>
      if chType ≠ 0x62 then some (true, tree)
      else match CDiskBlockIndex.de value with
        | .error _ => some (false, tree)
        | .ok (diskindex, _) => match tree.constructEntry hash diskindex with
          | none => none
          | some tree =>
            if !checkProofOfWork params (diskindex.getBlockHash hash) diskindex.nBits then
              some (false, tree)
            else loadRecords hash params records tree

/-- `CBlockTreeDB::LoadBlockIndexGuts`. -/
def loadBlockIndexGuts (env : LoadEnv) (tree : BlockTree) : Option (Bool × BlockTree) :=
  loadRecords env.hash env.params (env.pblocktree.seek (CBlockTreeDB.blockKey Blob.null)) tree

/-! ## `LoadBlockIndexDB` -/

/-- The hashes of `vSortedByHeight`; entries of one height are in the order of their
addresses. -/
def sortedByHeight (env : ChainEnv) (tree : BlockTree) : List Uint256 :=
  (tree.mapBlockIndex.entries.insertionSort fun a b =>
    a.2.nHeight < b.2.nHeight ∨
      (a.2.nHeight = b.2.nHeight ∧ env.address a.1 ≤ env.address b.1)).map Prod.fst

/-- `nChainWork` and `nChainTx` of an entry, from those of its parent. -/
def computedEntry (pindex : CBlockIndex) (pprev : Option CBlockIndex) : CBlockIndex :=
  let nPrevWork := (pprev.map CBlockIndex.nChainWork).getD 0
  { pindex with
    nChainWork := (nPrevWork + getBlockProof pindex.nBits) % 2 ^ 256
    nChainTx :=
      if hasStatus pindex.nStatus blockHaveData then
        match pprev with
        | none => pindex.nTx
        | some pprev => if pprev.nChainTx ≠ 0 then pprev.nChainTx + pindex.nTx else 0
      else pindex.nChainTx }

/-- A block with data waits for its parent. -/
def waitsFor (pindex : CBlockIndex) (pprev : Option CBlockIndex) : Bool :=
  hasStatus pindex.nStatus blockHaveData && pprev.any fun p => p.nChainTx == 0

/-- A block that is put among the candidates. -/
def loadsCandidate (pindex : CBlockIndex) : Bool :=
  pindex.isValid blockValidTransactions && (pindex.nChainTx != 0 || pindex.pprev.isNone)

/-- `BuildSkip`. -/
def buildSkip (tree : BlockTree) (pskip : OrdMap Uint256 Uint256) (hash : Uint256)
    (pindex : CBlockIndex) : Option (OrdMap Uint256 Uint256) :=
  match pindex.pprev, tree.prev pindex with
  | some prevHash, some pprev =>
    match getAncestor (fun h => (tree.find h).bind CBlockIndex.pprev) (fun h => pskip.find h)
        pprev.nHeight (getSkipHeight pindex.nHeight.toNat) prevHash with
    | none => none
    | some none => some (pskip.erase hash)
    | some (some ancestor) => some (pskip.put hash ancestor)
  | _, _ => some pskip

/-- The entry, the blocks that wait and the candidates after one turn. -/
def linkTurn (tree : BlockTree) (hash : Uint256) (pindex : CBlockIndex) : BlockTree :=
  let pprev := tree.prev pindex
  -- a pair for `mapBlocksUnlinked`
  let waiting := if waitsFor pindex pprev then (pindex.pprev.map fun b => (b, hash)).toList else []
  let tree := { tree.put hash (computedEntry pindex pprev) with
    mapBlocksUnlinked := tree.mapBlocksUnlinked ++ waiting }
  if loadsCandidate (computedEntry pindex pprev) then tree.insertCandidate hash else tree

/-- One turn of the second pass. -/
def loadTurn (env : ChainEnv) (s : LoadState) (hash : Uint256) : Option LoadState :=
  match s.tree.find hash with
  | none => none
  | some pindex =>
    let tree := linkTurn s.tree hash pindex
    let pindex := computedEntry pindex (s.tree.prev pindex)
    let pindexBestInvalid :=
      if hasStatus pindex.nStatus blockFailedMask &&
          (s.pindexBestInvalid.bind tree.find).all fun p => p.nChainWork < pindex.nChainWork then
        some hash
      else s.pindexBestInvalid
    match buildSkip tree s.pskip hash pindex with
    | none => none
    | some pskip =>
      let pindexBestHeader :=
        if pindex.isValid blockValidTree &&
            (tree.pindexBestHeader.bind tree.find).all fun p => workComparator env p pindex then
          some hash
        else tree.pindexBestHeader
      some { s with tree := { tree with pindexBestHeader }, pskip, pindexBestInvalid }

/-- What is stored about the files after the last one, up to the first that is not there. -/
def laterFiles (db : LevelDB) : Nat → Nat → List CBlockFileInfo
  | 0, _ => []
  | n + 1, nFile => match CBlockTreeDB.readBlockFileInfo db (Int32.ofNat nFile) {} with
    | (false, _) => []
    | (true, info) => info :: laterFiles db n (nFile + 1)

/-- Load what is stored about the block files.  Without a last file there is no entry to
print. -/
def loadBlockFiles (db : LevelDB) (tree : BlockTree) : Option BlockTree :=
  let nLast := CBlockTreeDB.readLastBlockFile db (Int32.ofNat tree.nLastBlockFile)
  if nLast < 0 then none
  else
    let n := nLast.toInt.toNat
    let files := BlockTree.withFile (tree.vinfoBlockFile.take (n + 1)) n
    let files := files.zipIdx.map fun f => (CBlockTreeDB.readBlockFileInfo db (Int32.ofNat f.2) f.1).2
    some { tree with
      nLastBlockFile := n
      vinfoBlockFile := files ++ laterFiles db db.entries.length (n + 1) }

/-- `OpenBlockFile` for reading, at the start of the file. -/
def LoadEnv.openBlockFile (env : LoadEnv) (nFile : Int) : Bool :=
  !(⟨nFile, 0⟩ : CDiskBlockPos).isNull && env.fileOpens nFile

/-- The block files of all blocks with data can be opened. -/
def blockFilesPresent (env : LoadEnv) (tree : BlockTree) : Bool :=
  tree.mapBlockIndex.entries.all fun p =>
    !hasStatus p.2.nStatus blockHaveData || env.openBlockFile p.2.nFile

/-- The loop of `CChain::SetTip`. -/
def fillChain (tree : BlockTree) : Nat → Option Uint256 → List (Option Uint256) →
    List (Option Uint256)
  | 0, _, vChain => vChain
  | _, none, vChain => vChain
  | n + 1, some hash, vChain => match tree.find hash with
    | none => vChain
    | some pindex =>
      if vChain[pindex.nHeight.toNat]? = some (some hash) then vChain
      else fillChain tree n pindex.pprev (vChain.set pindex.nHeight.toNat (some hash))

/-- `CChain::SetTip`. -/
def setTip (tree : BlockTree) (hash : Uint256) (pindex : CBlockIndex)
    (vChain : List (Option Uint256)) : List (Option Uint256) :=
  let size := pindex.nHeight.toNat + 1
  fillChain tree size (some hash) (vChain.take size ++ List.replicate (size - vChain.length) none)

/-- `"txindex"`. -/
def txindexName : Bytes := [0x74, 0x78, 0x69, 0x6e, 0x64, 0x65, 0x78]

/-- `"market"`. -/
def marketName : Bytes := [0x6d, 0x61, 0x72, 0x6b, 0x65, 0x74]

/-- The end of `LoadBlockIndexDB`: the tip of the active chain. -/
def loadTip (env : LoadEnv) (s : LoadState) : Option (Bool × LoadState) :=
  match s.tree.find env.bestBlock with
  | none => some (true, s)
  | some tip =>
    let tree := s.tree.pruneCandidates env.chain tip
    if tree.setBlockIndexCandidates = [] then none
    else some (true, { s with
      tree
      vChain := setTip s.tree env.bestBlock tip s.vChain
      fMarketIndex := CBlockTreeDB.readFlag env.pmarkettree marketName s.fMarketIndex })

/-- `LoadBlockIndexDB`. -/
def loadBlockIndexDB (env : LoadEnv) (s : LoadState) : Option (Bool × LoadState) :=
  match loadBlockIndexGuts env s.tree with
  | none => none
  | some (false, tree) => some (false, { s with tree })
  | some (true, tree) =>
    match (sortedByHeight env.chain tree).foldlM (loadTurn env.chain) { s with tree } with
    | none => none
    | some s => match loadBlockFiles env.pblocktree s.tree with
      | none => none
      | some tree =>
        if !blockFilesPresent env tree then some (false, { s with tree })
        else loadTip env { s with
          tree
          fReindex := s.fReindex || CBlockTreeDB.readReindexing env.pblocktree
          fTxIndex := CBlockTreeDB.readFlag env.pblocktree txindexName s.fTxIndex }

/-! ## Stored indexes -/

/-- A block index that is closed under parents.  The null hash stands for no block. -/
structure ClosedIndex where
  index : OrdMap Uint256 CDiskBlockIndex
  null : index.find Blob.null = none
  root : ∀ {h e}, index.find h = some e → e.hashPrev = Blob.null → e.nHeight = 0
  child : ∀ {h e}, index.find h = some e → e.hashPrev ≠ Blob.null →
    ∃ q, index.find e.hashPrev = some q ∧ e.nHeight = q.nHeight + 1

namespace ClosedIndex

/-- The block that an entry names as its parent. -/
def prevOf (e : CDiskBlockIndex) : Option Uint256 :=
  if e.hashPrev = Blob.null then none else some e.hashPrev

variable (stored : ClosedIndex)

theorem child_of_prev {h b : Uint256} {e : CDiskBlockIndex} (hfind : stored.index.find h = some e) (hprev : prevOf e = some b) :
    ∃ q, stored.index.find b = some q ∧ e.nHeight = q.nHeight + 1 := by
  rw [prevOf] at hprev
  split_ifs at hprev with hnull
  cases hprev
  exact stored.child hfind hnull

theorem root_of_prev {h : Uint256} {e : CDiskBlockIndex} (hfind : stored.index.find h = some e) (hprev : prevOf e = none) :
    e.nHeight = 0 := by
  rw [prevOf] at hprev
  split_ifs at hprev with hnull
  exact stored.root hfind hnull

/-- No height is negative, since the lowest entry is a root. -/
theorem height_nonneg {h : Uint256} {e : CDiskBlockIndex} (hfind : stored.index.find h = some e) :
    0 ≤ e.nHeight := by
  have hmem : (h, e) ∈ stored.index.entries.toFinset := by
    rw [List.mem_toFinset]
    exact OrdMap.find_eq_some.mp hfind
  obtain ⟨⟨x, low⟩, hlow, hmin⟩ := Finset.exists_min_image stored.index.entries.toFinset
    (fun p => p.2.nHeight) ⟨(h, e), hmem⟩
  have hx : stored.index.find x = some low := OrdMap.find_eq_some.mpr (List.mem_toFinset.mp hlow)
  have hle : low.nHeight ≤ e.nHeight := hmin (h, e) hmem
  cases hp : prevOf low with
  | none =>
    have := stored.root_of_prev hx hp
    omega
  | some b =>
    obtain ⟨q, hq, hheight⟩ := stored.child_of_prev hx hp
    have hge : low.nHeight ≤ q.nHeight :=
      hmin (b, q) (List.mem_toFinset.mpr (OrdMap.find_eq_some.mp hq))
    omega

/-- The blocks with their parents and heights; a hash that is not stored stands alone. -/
def forest : Forest Uint256 where
  parent h := (stored.index.find h).bind prevOf
  depth h := ((stored.index.find h).map fun e => e.nHeight.toNat).getD 0
  depth_root := by
    intro h hroot
    cases hfind : stored.index.find h with
    | none => rfl
    | some e =>
      rw [hfind, Option.bind_some] at hroot
      rw [Option.map_some, Option.getD_some, stored.root_of_prev hfind hroot]
      rfl
  depth_parent := by
    intro h b hparent
    cases hfind : stored.index.find h with
    | none =>
      rw [hfind] at hparent
      cases hparent
    | some e =>
      rw [hfind, Option.bind_some] at hparent
      obtain ⟨q, hq, hheight⟩ := stored.child_of_prev hfind hparent
      have hnonneg := stored.height_nonneg hq
      rw [hq, Option.map_some, Option.map_some, Option.getD_some, Option.getD_some, hheight]
      omega

variable {stored} {h b : Uint256} {e : CDiskBlockIndex}

theorem parent_of_find (hfind : stored.index.find h = some e) :
    stored.forest.parent h = prevOf e := by
  show (stored.index.find h).bind prevOf = prevOf e
  rw [hfind, Option.bind_some]

theorem depth_of_find (hfind : stored.index.find h = some e) :
    (stored.forest.depth h : Int) = e.nHeight := by
  show ((((stored.index.find h).map fun e => e.nHeight.toNat).getD 0 : Nat) : Int) = e.nHeight
  rw [hfind, Option.map_some, Option.getD_some]
  exact Int.toNat_of_nonneg (stored.height_nonneg hfind)

theorem find_parent (hparent : stored.forest.parent h = some b) :
    ∃ q, stored.index.find b = some q := by
  cases hfind : stored.index.find h with
  | none =>
    have hnone : (stored.index.find h).bind prevOf = some b := hparent
    rw [hfind] at hnone
    cases hnone
  | some e =>
    rw [parent_of_find hfind] at hparent
    obtain ⟨q, hq, -⟩ := stored.child_of_prev hfind hparent
    exact ⟨q, hq⟩

theorem ne_null (hfind : stored.index.find h = some e) : h ≠ Blob.null := by
  rintro rfl
  rw [stored.null] at hfind
  cases hfind

end ClosedIndex

/-! ## The first pass -/

/-- The entry of a block after the first pass. -/
def loadedEntry (h : Uint256) (e : CDiskBlockIndex) : CBlockIndex :=
  copyEntry { phashBlock := some h } (ClosedIndex.prevOf e) e

/-- Between two records: the entries are those of the index, or have been created for
their children. -/
structure PartlyLoaded (index : OrdMap Uint256 CDiskBlockIndex) (tree : BlockTree) : Prop where
  entry : ∀ {x p}, tree.find x = some p →
    (∃ e, index.find x = some e) ∧
      (p = { phashBlock := some x } ∨ ∃ e, index.find x = some e ∧ p = loadedEntry x e)

theorem insertBlockIndex_fst (tree : BlockTree) {hash : Uint256} (hne : hash ≠ Blob.null) :
    (tree.insertBlockIndex hash).1 = some hash := by
  rw [BlockTree.insertBlockIndex, if_neg hne]
  cases tree.find hash <;> rfl

theorem find_insertBlockIndex (tree : BlockTree) (x : Uint256) {hash : Uint256}
    (hne : hash ≠ Blob.null) :
    (tree.insertBlockIndex hash).2.find x =
      if x = hash then some ((tree.find hash).getD { phashBlock := some hash })
      else tree.find x := by
  rw [BlockTree.insertBlockIndex, if_neg hne]
  cases hfind : tree.find hash with
  | some p =>
    by_cases hx : x = hash
    · rw [if_pos hx, hx, Option.getD_some]
      exact hfind
    · rw [if_neg hx]
  | none =>
    by_cases hx : x = hash
    · rw [if_pos hx, hx, BlockTree.find_put_self, Option.getD_none]
    · rw [if_neg hx]
      exact BlockTree.find_put_of_ne _ _ hx

/-- Inserting a block keeps what is there, and adds an empty entry at most. -/
theorem PartlyLoaded.insertBlockIndex {index : OrdMap Uint256 CDiskBlockIndex} {tree : BlockTree}
    (hpart : PartlyLoaded index tree) {hash : Uint256} (hindex : ∃ e, index.find hash = some e) :
    PartlyLoaded index (tree.insertBlockIndex hash).2 := by
  by_cases hnull : hash = Blob.null
  · rw [BlockTree.insertBlockIndex, if_pos hnull]
    exact hpart
  refine ⟨fun {x p} hx => ?_⟩
  rw [find_insertBlockIndex _ _ hnull] at hx
  by_cases hxh : x = hash
  · subst hxh
    rw [if_pos rfl] at hx
    cases hfind : tree.find x with
    | none =>
      rw [hfind] at hx
      cases hx
      exact ⟨hindex, Or.inl rfl⟩
    | some q =>
      rw [hfind] at hx
      cases hx
      exact hpart.entry hfind
  · rw [if_neg hxh] at hx
    exact hpart.entry hx

theorem insertBlockIndex_tree (tree : BlockTree) (hash : Uint256) :
    ∃ m, (tree.insertBlockIndex hash).2 = { tree with mapBlockIndex := m } := by
  unfold BlockTree.insertBlockIndex
  split_ifs
  · exact ⟨tree.mapBlockIndex, rfl⟩
  · split
    · exact ⟨tree.mapBlockIndex, rfl⟩
    · exact ⟨_, rfl⟩

section FirstPass

variable {env : LoadEnv} {stored : ClosedIndex} {tree : BlockTree} {h : Uint256}
  {e : CDiskBlockIndex}

/-- One record. -/
theorem constructEntry_spec (hhash : e.getBlockHash env.hash = h)
    (hfind : stored.index.find h = some e) (hpart : PartlyLoaded stored.index tree) :
    ∃ tree', tree.constructEntry env.hash e = some tree' ∧ PartlyLoaded stored.index tree' ∧
      tree'.find h = some (loadedEntry h e) ∧
      (∀ x d, tree.find x = some (loadedEntry x d) → x ≠ h →
        tree'.find x = some (loadedEntry x d)) ∧
      ∃ m, tree' = { tree with mapBlockIndex := m } := by
  have hne := ClosedIndex.ne_null hfind
  have hpart₁ := hpart.insertBlockIndex ⟨e, hfind⟩
  have hnew := insertBlockIndex_fst tree hne
  have hinsert := fun x => find_insertBlockIndex tree x hne
  obtain ⟨m₁, hm₁⟩ := insertBlockIndex_tree tree h
  rw [BlockTree.constructEntry, hhash]
  generalize tree.insertBlockIndex h = first at hnew hinsert hpart₁ hm₁ ⊢
  obtain ⟨_, tree₁⟩ := first
  dsimp only at hnew hinsert hpart₁ hm₁
  subst hnew
  dsimp only
  -- the parent, if there is one, is stored too
  have hparent : (tree₁.insertBlockIndex e.hashPrev).1 = ClosedIndex.prevOf e ∧
      PartlyLoaded stored.index (tree₁.insertBlockIndex e.hashPrev).2 ∧
      ∀ x p, tree₁.find x = some p → (tree₁.insertBlockIndex e.hashPrev).2.find x = some p := by
    by_cases hroot : e.hashPrev = Blob.null
    · rw [ClosedIndex.prevOf, if_pos hroot, BlockTree.insertBlockIndex, if_pos hroot]
      exact ⟨rfl, hpart₁, fun x p hx => hx⟩
    · obtain ⟨q, hq, -⟩ := stored.child hfind hroot
      rw [ClosedIndex.prevOf, if_neg hroot]
      refine ⟨insertBlockIndex_fst _ hroot, hpart₁.insertBlockIndex ⟨q, hq⟩, ?_⟩
      intro x p hx
      rw [find_insertBlockIndex _ _ hroot]
      by_cases hxp : x = e.hashPrev
      · rw [if_pos hxp, ← hxp, hx, Option.getD_some]
      · rw [if_neg hxp, hx]
  obtain ⟨m₂, hm₂⟩ := insertBlockIndex_tree tree₁ e.hashPrev
  obtain ⟨pprev, tree₂, hsecond⟩ : ∃ pprev tree₂,
      tree₁.insertBlockIndex e.hashPrev = (pprev, tree₂) := ⟨_, _, rfl⟩
  rw [hsecond] at hparent hm₂ ⊢
  dsimp only at hparent hm₂ ⊢
  obtain ⟨rfl, hpart₂, hkeep⟩ := hparent
  -- the entry is there, and empty or already as it will be
  have hhere : tree₁.find h = some ((tree.find h).getD { phashBlock := some h }) := by
    rw [hinsert, if_pos rfl]
  have hcopy : copyEntry ((tree.find h).getD { phashBlock := some h }) (ClosedIndex.prevOf e) e =
      loadedEntry h e := by
    rcases (hpart₁.entry hhere).2 with hempty | ⟨d, -, hd⟩
    · rw [hempty]
      rfl
    · rw [hd]
      rfl
  rw [hkeep h _ hhere, Option.map_some, hcopy]
  refine ⟨_, rfl, ⟨fun {x p} hx => ?_⟩, BlockTree.find_put_self _ _ _, ?_, ?_⟩
  · by_cases hxh : x = h
    · subst hxh
      rw [BlockTree.find_put_self] at hx
      cases hx
      exact ⟨⟨e, hfind⟩, Or.inr ⟨e, hfind, rfl⟩⟩
    · rw [BlockTree.find_put_of_ne _ _ hxh] at hx
      exact hpart₂.entry hx
  · intro x d hx hxh
    rw [BlockTree.find_put_of_ne _ _ hxh]
    refine hkeep x _ ?_
    rw [hinsert, if_neg hxh, hx]
  · rw [hm₁] at hm₂
    rw [hm₂]
    exact ⟨_, rfl⟩

/-- A record that the loop reads. -/
def IsRecord (stored : ClosedIndex) (record : Bytes × Bytes) (h : Uint256) (e : CDiskBlockIndex) :
    Prop :=
  record.1 = CBlockTreeDB.blockKey h ∧ stored.index.find h = some e ∧
    ∃ rest, CDiskBlockIndex.de record.2 = .ok (e, rest)

/-- The proof of work of every stored block is good. -/
def GoodWork (params : CChainParams) (index : OrdMap Uint256 CDiskBlockIndex) : Prop :=
  ∀ h e, index.find h = some e → checkProofOfWork params h e.nBits = true

/-- The records that are left, when all blocks are loaded or among them. -/
theorem loadRecords_spec (hhash : ∀ {h e}, stored.index.find h = some e →
      e.getBlockHash env.hash = h) {records : List (Bytes × Bytes)}
    (hrecords : ∀ r ∈ records, ∃ h e, IsRecord stored r h e)
    (hpart : PartlyLoaded stored.index tree)
    (hdone : ∀ h e, stored.index.find h = some e →
      (tree.find h = some (loadedEntry h e) ∧ checkProofOfWork env.params h e.nBits = true) ∨
        ∃ r ∈ records, IsRecord stored r h e) :
    ∃ ok tree', loadRecords env.hash env.params records tree = some (ok, tree') ∧
      (ok = true ↔ GoodWork env.params stored.index) ∧
      (ok = true → ∀ x, tree'.find x = (stored.index.find x).map (loadedEntry x)) ∧
      ∃ m, tree' = { tree with mapBlockIndex := m } := by
  induction records generalizing tree with
  | nil =>
    have hall : ∀ h e, stored.index.find h = some e →
        tree.find h = some (loadedEntry h e) ∧ checkProofOfWork env.params h e.nBits = true := by
      intro h e hfind
      rcases hdone h e hfind with hloaded | ⟨r, hr, -⟩
      · exact hloaded
      · cases hr
    refine ⟨true, tree, rfl, ?_, ?_, tree.mapBlockIndex, rfl⟩
    · simp only [true_iff]
      exact fun h e hfind => (hall h e hfind).2
    · intro _ x
      cases hfind : stored.index.find x with
      | some e => rw [(hall x e hfind).1, Option.map_some]
      | none =>
        cases hx : tree.find x with
        | none => rfl
        | some p =>
          obtain ⟨⟨e, he⟩, -⟩ := hpart.entry hx
          rw [hfind] at he
          cases he
  | cons r records ih =>
    obtain ⟨h, e, hkey, hfind, rest, hde⟩ := hrecords r List.mem_cons_self
    obtain ⟨tree', hconstruct, hpart', hself, hkeep, m, hm⟩ :=
      constructEntry_spec (hhash hfind) hfind hpart
    obtain ⟨key, value⟩ := r
    dsimp only at hkey hde
    have hkeyDe : Codec.u8.de (CBlockTreeDB.blockKey h) = .ok (0x62, h.val) :=
      Codec.de_ser (Codec.fits_u8 0x62) h.val
    rw [loadRecords, hkey, hkeyDe]
    dsimp only
    rw [if_neg (by simp), hde]
    dsimp only
    rw [hconstruct]
    dsimp only
    rw [hhash hfind]
    cases hwork : checkProofOfWork env.params h e.nBits with
    | false =>
      rw [if_pos (by simp)]
      refine ⟨false, tree', rfl, ?_, by simp, m, hm⟩
      simp only [Bool.false_eq_true, false_iff]
      intro hgood
      rw [hgood h e hfind] at hwork
      cases hwork
    | true =>
      rw [if_neg (by simp)]
      have hrest := ih (fun r hr => hrecords r (List.mem_cons_of_mem _ hr)) hpart' ?_
      · obtain ⟨ok, tree'', hrun, hok, hentries, m', hm'⟩ := hrest
        refine ⟨ok, tree'', hrun, hok, hentries, m', ?_⟩
        rw [hm', hm]
      · intro x d hx
        by_cases hxh : x = h
        · subst hxh
          cases hfind.symm.trans hx
          exact Or.inl ⟨hself, hwork⟩
        · rcases hdone x d hx with ⟨hloaded, hgood⟩ | ⟨r, hr, hrec⟩
          · exact Or.inl ⟨hkeep x d hloaded hxh, hgood⟩
          · rcases List.mem_cons.mp hr with rfl | hr
            · exact absurd (CBlockTreeDB.blockKey_injective (hrec.1.symm.trans hkey)) hxh
            · exact Or.inr ⟨r, hr, hrec⟩

/-- The key of the entry of a block. -/
def isBlockKey (key : Bytes) : Bool := key.head? == some 0x62

/-- The loop ends at the first record that is not an entry. -/
theorem loadRecords_takeWhile (hash : Bytes → Uint256) (params : CChainParams)
    {records : List (Bytes × Bytes)} (hkeys : ∀ r ∈ records, r.1 ≠ []) (tree : BlockTree) :
    loadRecords hash params records tree =
      loadRecords hash params (records.takeWhile fun r => isBlockKey r.1) tree := by
  induction records generalizing tree with
  | nil => rfl
  | cons r records ih =>
    obtain ⟨key, value⟩ := r
    have hrest := ih fun r hr => hkeys r (List.mem_cons_of_mem _ hr)
    obtain ⟨ch, key, rfl⟩ := List.exists_cons_of_ne_nil (hkeys _ List.mem_cons_self)
    have hde : Codec.u8.de (ch :: key) = .ok (ch, key) := Codec.de_ser (Codec.fits_u8 ch) key
    by_cases hch : ch = 0x62
    · rw [List.takeWhile_cons_of_pos (by simp [isBlockKey, hch]), loadRecords, loadRecords]
      simp only [hrest]
    · rw [List.takeWhile_cons_of_neg (by simp [isBlockKey, hch])]
      show loadRecords hash params ((ch :: key, value) :: records) tree = some (true, tree)
      rw [loadRecords, hde]
      dsimp only
      rw [if_pos hch]

/-- The scan from the smallest key reads the entries, and nothing else. -/
theorem scan_blockKeys {index : OrdMap Uint256 CDiskBlockIndex}
    (hdb : StoresIndex env.hash env.pblocktree index) :
    (env.pblocktree.seek (CBlockTreeDB.blockKey Blob.null)).takeWhile (fun r => isBlockKey r.1) =
      env.pblocktree.entries.filter fun r => isBlockKey r.1 := by
  refine OrdMap.scan_eq_filter _ _ isBlockKey ?_ ?_
  · intro r hr hkey
    obtain ⟨h, -, heq, -⟩ := hdb.only (OrdMap.find_eq_some.mpr hr) (by simpa [isBlockKey] using hkey)
    rw [heq]
    exact cons_le_cons_iff.mpr (Or.inr ⟨rfl, Blob.null_le h⟩)
  · intro r _ q _ hle hrq hq
    have hstarts : ∀ {key : Bytes}, isBlockKey key = true ↔ [0x62] <+: key := by
      intro key
      cases key with
      | nil => simp [isBlockKey]
      | cons ch key =>
        rw [isBlockKey, List.head?_cons, beq_iff_eq, Option.some.injEq, List.cons_prefix_cons]
        exact ⟨fun h => ⟨h.symm, List.nil_prefix⟩, fun h => h.1.symm⟩
    have hstart : [0x62] ≤ CBlockTreeDB.blockKey Blob.null := prefix_le_append [0x62] _
    exact hstarts.mpr (prefix_convex (hstart.trans hle) hrq (hstarts.mp hq))

/-- **The first pass** loads the stored index, if the proofs of work are good. -/
theorem loadBlockIndexGuts_spec (hdb : StoresIndex env.hash env.pblocktree stored.index)
    {tree : BlockTree} (hempty : ∀ x, tree.find x = none) :
    ∃ ok tree', loadBlockIndexGuts env tree = some (ok, tree') ∧
      (ok = true ↔ GoodWork env.params stored.index) ∧
      (ok = true → ∀ x, tree'.find x = (stored.index.find x).map (loadedEntry x)) ∧
      ∃ m, tree' = { tree with mapBlockIndex := m } := by
  have hkeys : ∀ r ∈ env.pblocktree.seek (CBlockTreeDB.blockKey Blob.null), r.1 ≠ [] := by
    intro r hr hnil
    have hle := OrdMap.le_of_mem_seek hr
    rw [hnil] at hle
    exact absurd (List.nil_lt_cons _ _) (not_lt.mpr hle)
  rw [loadBlockIndexGuts, loadRecords_takeWhile _ _ hkeys, scan_blockKeys hdb]
  refine loadRecords_spec hdb.hashes ?_ ⟨fun {x p} hx => ?_⟩ ?_
  · intro r hr
    obtain ⟨hmem, hkey⟩ := List.mem_filter.mp hr
    have hfind := OrdMap.find_eq_some.mpr hmem
    obtain ⟨h, e, heq, hindex⟩ := hdb.only hfind (by simpa [isBlockKey] using hkey)
    obtain ⟨value, rest, hvalue, hde⟩ := hdb.record hindex
    rw [heq, hvalue] at hfind
    exact ⟨h, e, heq, hindex, rest, Option.some.inj hfind ▸ hde⟩
  · rw [hempty] at hx
    cases hx
  · intro h e hindex
    obtain ⟨value, rest, hvalue, hde⟩ := hdb.record hindex
    refine Or.inr ⟨(CBlockTreeDB.blockKey h, value), ?_, rfl, hindex, rest, hde⟩
    exact List.mem_filter.mpr ⟨OrdMap.find_eq_some.mp hvalue, rfl⟩

end FirstPass

end Hivemind
