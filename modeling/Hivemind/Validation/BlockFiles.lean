import Hivemind.Validation.ChainTx
import Mathlib.Data.List.GetD

/-!
# Room in the block files

`FindBlockPos` gives a new block the position at which its file ends, which is where `nSize`
says.  When the files are indexed again, the blocks have their positions already, and
`FindBlockPos` adds up their sizes, wherever they are.

A file whose blocks leave gaps is then longer than `nSize` says, and the next new block gets a
position inside of it.  The condition under which this does not happen is about the blocks with
known positions: in each file that new blocks may go to, none of them ends behind the sum of the
sizes.  All sums are those of `unsigned int`; a file that is left behind is not looked at again,
so nothing is asked of it.

* `StoreState`: the index with the positions and the sizes of the blocks that have been stored.
* `findBlockPos_known`, `findBlockPos_new`: the two kinds of positions.
* `SumInv`, `FreeInv`: what holds after blocks with known positions, and after new ones.
* `positions_free`: **new blocks do not overwrite others**, when those from before leave no gaps.
* `gap_overwritten`: a new block that gets the position of another one.
* `positions_free_knownTwo`: two new blocks behind two that were found.
-/

namespace Hivemind

open Codecs Ordered Outcomes

/-! ## Stored blocks -/

/-- A block in a file: where it starts and how long it is. -/
structure StoredBlock where
  nFile : Nat
  nPos : Nat
  size : Nat
  deriving DecidableEq

/-- Where the block ends. -/
def StoredBlock.stop (b : StoredBlock) : Nat := b.nPos + b.size

/-- What the blocks of a file take up together, each with the magic and the size that stand
before it. -/
def room (stored : List StoredBlock) (nFile : Nat) : Nat :=
  ((stored.filter fun b => b.nFile == nFile).map fun b => b.size + 8).sum

/-- The index, and the blocks that have been stored, from the last one down. -/
structure StoreState where
  tree : BlockTree := {}
  stored : List StoredBlock := []

/-- The block that a call of `AcceptBlock` stores: it has `BLOCK_HAVE_DATA` after the call
and did not have it before. -/
def newlyStored (ctx : AcceptContext) (tree : BlockTree) (block : CBlock)
    (dbp : Option CDiskBlockPos) : Option StoredBlock :=
  let hash := block.getHash ctx.hash
  let tree' := (acceptBlock ctx tree block dbp).2
  if !tree.hasData hash && tree'.hasData hash then
    (tree'.find hash).map fun pindex =>
      ⟨pindex.nFile.toNat, pindex.nDataPos.toNat, (CBlock.codec.ser block).length⟩
  else none

/-- A call of `AcceptBlock`. -/
def StoreState.accept (s : StoreState) (ctx : AcceptContext) (block : CBlock)
    (dbp : Option CDiskBlockPos) : StoreState where
  tree := (acceptBlock ctx s.tree block dbp).2
  stored := (newlyStored ctx s.tree block dbp).toList ++ s.stored

/-- Calls for blocks that are in the files, with their positions. -/
def StoreState.runKnown (s : StoreState) (calls : List (AcceptContext × CBlock × CDiskBlockPos)) :
    StoreState :=
  calls.foldl (fun s call => s.accept call.1 call.2.1 (some call.2.2)) s

/-- Calls for new blocks. -/
def StoreState.runNew (s : StoreState) (calls : List (AcceptContext × CBlock)) : StoreState :=
  calls.foldl (fun s call => s.accept call.1 call.2 none) s

/-- The position that `AcceptBlock` gets from `FindBlockPos` for a new block. -/
def handedPos (ctx : AcceptContext) (tree : BlockTree) (block : CBlock) : Option CDiskBlockPos :=
  match acceptBlockHeader ctx.toContext tree block.toCBlockHeader with
  | .error _ => none
  | .ok (pindex, tree) =>
    if hasStatus pindex.nStatus blockHaveData then none
    else match checkBlock ctx.toContext block true true *>
        contextualCheckBlock ctx tree block (tree.prev pindex) with
      | .error _ => none
      | .ok () => (tree.findBlockPos none (UInt32.ofNat (CBlock.codec.ser block).length + 8)
          (UInt32.ofInt pindex.nHeight) (UInt64.ofNat block.nTime.toNat) ctx.diskSpaceOk).1

/-! ## `FindBlockPos` -/

namespace BlockTree

/-- `vinfoBlockFile[nFile].nSize`. -/
def fileSize (tree : BlockTree) (nFile : Nat) : UInt32 := (tree.vinfoBlockFile.getD nFile {}).nSize

/-- What `FindBlockPos` sees of the index. -/
def files (tree : BlockTree) : List CBlockFileInfo × Nat :=
  (tree.vinfoBlockFile, tree.nLastBlockFile)

theorem fileSize_congr {tree tree' : BlockTree} (h : tree'.files = tree.files) (nFile : Nat) :
    tree'.fileSize nFile = tree.fileSize nFile := by
  have hinfos : tree'.vinfoBlockFile = tree.vinfoBlockFile := congrArg Prod.fst h
  rw [fileSize, hinfos, fileSize]

/-- The files that are added are empty. -/
theorem getD_withFile (infos : List CBlockFileInfo) (nFile n : Nat) :
    (withFile infos nFile).getD n {} = infos.getD n {} := by
  rw [withFile]
  by_cases h : n < infos.length
  · rw [List.getD_append _ _ _ _ h]
  · rw [List.getD_append_right _ _ _ _ (by omega), List.getD_eq_getElem?_getD,
      List.getElem?_getD_replicate_default_eq, List.getD_eq_default _ _ (by omega)]

theorem length_withFile (infos : List CBlockFileInfo) (nFile : Nat) :
    nFile < (withFile infos nFile).length := by
  rw [withFile, List.length_append, List.length_replicate]
  omega

/-- The loop that leaves full files ends in a file with room for the block. -/
theorem leaveFullFiles_spec {nAddSize : UInt32} (hfits : nAddSize < maxBlockFileSize) {n nFile : Nat}
    {infos : List CBlockFileInfo} (hfile : nFile < infos.length) {used : Nat}
    (hfresh : ∀ f, used ≤ f → infos.getD f {} = {}) (hn : used < nFile + n) :
    ∃ nFile' infos', leaveFullFiles nAddSize n nFile infos = (nFile', infos') ∧ nFile ≤ nFile' ∧
      nFile' < infos'.length ∧ (∀ f, infos'.getD f {} = infos.getD f {}) ∧
      (infos.getD nFile' {}).nSize + nAddSize < maxBlockFileSize := by
  have hempty : ∀ f, used ≤ f → (infos.getD f {}).nSize + nAddSize < maxBlockFileSize := by
    intro f hf
    rw [hfresh f hf]
    simpa using hfits
  induction n generalizing nFile infos with
  | zero => exact ⟨nFile, infos, rfl, le_rfl, hfile, fun _ => rfl, hempty nFile (by omega)⟩
  | succ n ih =>
      rw [leaveFullFiles]
      split_ifs with hfull
      · obtain ⟨nFile', infos', heq, hle, hlen, hsame, hroom⟩ :=
          @ih (nFile + 1) (withFile infos (nFile + 1)) (length_withFile ..)
            (fun f hf => by rw [getD_withFile, hfresh f hf]) (by omega)
            (fun f hf => by rw [getD_withFile]; exact hempty f hf)
        simp only [getD_withFile] at hsame hroom
        exact ⟨nFile', infos', heq, by omega, hlen, hsame, hroom⟩
      · exact ⟨nFile, infos, rfl, le_rfl, hfile, fun _ => rfl, UInt32.not_le.mp hfull⟩

/-- The sizes after some bytes have been added to a file. -/
theorem fileSize_set {tree : BlockTree} {infos : List CBlockFileInfo} {nFile nLast : Nat}
    (hfile : nFile < infos.length) (hsame : ∀ f, infos.getD f {} = tree.vinfoBlockFile.getD f {})
    (info : CBlockFileInfo) (f : Nat) :
    { tree with vinfoBlockFile := infos.set nFile info, nLastBlockFile := nLast }.fileSize f =
      if f = nFile then info.nSize else tree.fileSize f := by
  show ((infos.set nFile info).getD f {}).nSize = _
  rw [List.getD_eq_getElem?_getD, List.getElem?_set]
  by_cases h : f = nFile
  · subst h
    simp [hfile]
  · rw [if_neg (fun h' => h h'.symm), if_neg h, ← List.getD_eq_getElem?_getD, hsame]
    rfl

/-- **A known position** is returned, and the size of the block is added to the size of its
file. -/
theorem findBlockPos_known (tree : BlockTree) (pos : CDiskBlockPos) (nAddSize nHeight : UInt32)
    (nTime : UInt64) (diskSpaceOk : Bool) {found : Option CDiskBlockPos × BlockTree}
    (h : tree.findBlockPos (some pos) nAddSize nHeight nTime diskSpaceOk = found) :
    found.1 = some pos ∧ found.2.nLastBlockFile = pos.nFile.toNat ∧
      ∀ f, found.2.fileSize f =
        if f = pos.nFile.toNat then tree.fileSize f + nAddSize else tree.fileSize f := by
  subst h
  refine ⟨rfl, rfl, ?_⟩
  intro f
  refine (fileSize_set (length_withFile ..) (fun f => getD_withFile ..) _ f).trans ?_
  by_cases hf : f = pos.nFile.toNat
  · rw [if_pos hf, if_pos hf, hf]
    show CBlockFileInfo.nSize (List.getD _ _ _) + nAddSize = _
    rw [getD_withFile]
    rfl
  · rw [if_neg hf, if_neg hf]

/-- **A new position** is the end of a file with room for the block, and the size of the
block is added to the size of the file. -/
theorem findBlockPos_new (tree : BlockTree) {nAddSize : UInt32} (nHeight : UInt32) (nTime : UInt64)
    (diskSpaceOk : Bool) (hfits : nAddSize < maxBlockFileSize)
    {found : Option CDiskBlockPos × BlockTree}
    (h : tree.findBlockPos none nAddSize nHeight nTime diskSpaceOk = found) :
    tree.nLastBlockFile ≤ found.2.nLastBlockFile ∧
      tree.fileSize found.2.nLastBlockFile + nAddSize < maxBlockFileSize ∧
      (∀ pos, found.1 = some pos →
        pos = ⟨found.2.nLastBlockFile, tree.fileSize found.2.nLastBlockFile⟩) ∧
      ∀ f, found.2.fileSize f =
        if f = found.2.nLastBlockFile then tree.fileSize f + nAddSize else tree.fileSize f := by
  have hlen := length_withFile tree.vinfoBlockFile tree.nLastBlockFile
  obtain ⟨nFile, infos, heq, hle, hfile, hsame, hroom⟩ := leaveFullFiles_spec hfits hlen
    (n := (withFile tree.vinfoBlockFile tree.nLastBlockFile).length + 1)
    (fun f hf => List.getD_eq_default _ _ hf) (by omega)
  simp only [getD_withFile] at hsame hroom
  subst h
  simp only [findBlockPos, heq, Option.isSome_none, Bool.false_or, Option.getD_none]
  refine ⟨hle, hroom, ?_, ?_⟩
  · intro pos hpos
    split_ifs at hpos
    cases hpos
    rw [hsame]
    rfl
  · intro f
    refine (fileSize_set hfile hsame _ f).trans ?_
    by_cases hf : f = nFile
    · rw [if_pos hf, if_pos hf, hf]
      show CBlockFileInfo.nSize (List.getD _ _ _) + nAddSize = _
      rw [hsame]
      rfl
    · rw [if_neg hf, if_neg hf]

/-! ## `AcceptBlock` -/

theorem files_linkBlocks (n : Nat) (queue : List Uint256) (tree : BlockTree) :
    (linkBlocks n queue tree).files = tree.files := by
  induction n generalizing queue tree with
  | zero => rfl
  | succ n ih =>
      cases queue with
      | nil => rfl
      | cons hash queue =>
          rw [linkBlocks]
          split
          · exact ih ..
          · exact (ih ..).trans rfl

/-- The data of a block change no file. -/
theorem files_receivedBlockTransactions (tree : BlockTree) (hash : Uint256) (block : CBlock)
    (pindex : CBlockIndex) (pos : CDiskBlockPos) :
    (tree.receivedBlockTransactions hash block pindex pos).files = tree.files := by
  have hlink : ∀ (tree : BlockTree) pindexNew, (tree.linkReceived hash pindexNew).files =
      tree.files := by
    intro tree pindexNew
    unfold linkReceived
    split
    · exact files_linkBlocks ..
    · rfl
    · split_ifs
      · exact files_linkBlocks ..
      · rfl
      · rfl
  exact (hlink _ _).trans rfl

/-- The position of the block is in its entry. -/
theorem find_receivedBlockTransactions (tree : BlockTree) (hash : Uint256) (block : CBlock)
    (pindex : CBlockIndex) (pos : CDiskBlockPos) :
    ∃ p, (tree.receivedBlockTransactions hash block pindex pos).find hash = some p ∧
      hasStatus p.nStatus blockHaveData = true ∧ p.nFile = pos.nFile ∧ p.nDataPos = pos.nPos := by
  have hmap := map_find_linkReceived (f := fun p => (p.nStatus, p.nFile, p.nDataPos))
    (fun _ _ => rfl) { tree.put hash (tree.receivedEntry block pindex pos) with
      nBlockSequenceId := tree.nBlockSequenceId + 1 } hash (tree.receivedEntry block pindex pos) hash
  have hself : BlockTree.find { tree.put hash (tree.receivedEntry block pindex pos) with
      nBlockSequenceId := tree.nBlockSequenceId + 1 } hash =
        some (tree.receivedEntry block pindex pos) := find_put_self ..
  rw [hself, Option.map_some] at hmap
  obtain ⟨p, hp, heq⟩ := Option.map_eq_some_iff.mp hmap
  simp only [Prod.mk.injEq] at heq
  obtain ⟨hstatus, hfile, hpos⟩ := heq
  refine ⟨p, hp, hstatus ▸ hasData_receivedEntry tree block pindex pos, ?_, ?_⟩
  · rw [hfile, receivedEntry, CBlockIndex.raiseValidity_eq]
  · rw [hpos, receivedEntry, CBlockIndex.raiseValidity_eq]

end BlockTree

/-- A header changes no file. -/
theorem files_acceptBlockHeader {ctx : Context} {tree tree' : BlockTree} {block : CBlockHeader}
    {pindex : CBlockIndex} (h : acceptBlockHeader ctx tree block = .ok (pindex, tree')) :
    tree'.files = tree.files := by
  rcases acceptBlockHeader_cases h with ⟨-, -, rfl⟩ | ⟨hnone, rfl, -⟩
  · rfl
  · rw [BlockTree.addToBlockIndex, hnone]
    rfl

/-- The bytes that `FindBlockPos` is asked for. -/
def addSize (block : CBlock) : UInt32 := UInt32.ofNat (CBlock.codec.ser block).length + 8

/-- **What a call does to the files**: nothing, or what `FindBlockPos` does.  Then the block
is stored, unless it is a new one that cannot be written. -/
theorem accept_cases (s : StoreState) (ctx : AcceptContext) (block : CBlock)
    (dbp : Option CDiskBlockPos) :
    ((s.accept ctx block dbp).tree.files = s.tree.files ∧
      (s.accept ctx block dbp).stored = s.stored) ∨
    ∃ (tree : BlockTree) (nHeight : UInt32) (nTime : UInt64)
        (found : Option CDiskBlockPos × BlockTree), tree.files = s.tree.files ∧
      (CBlock.codec.ser block).length ≤ maxBlockSize ∧
      tree.findBlockPos dbp (addSize block) nHeight nTime ctx.diskSpaceOk = found ∧
      (s.accept ctx block dbp).tree.files = found.2.files ∧
      ((dbp = none ∧ (s.accept ctx block dbp).stored = s.stored) ∨
        ∃ pos nPos, found.1 = some pos ∧
          nPos = (if dbp.isSome then pos.nPos else pos.nPos + 8) ∧
          (s.accept ctx block dbp).stored =
            ⟨pos.nFile.toNat, nPos.toNat, (CBlock.codec.ser block).length⟩ :: s.stored) := by
  have hnone : ∀ {tree' : BlockTree}, (acceptBlock ctx s.tree block dbp).2 = tree' →
      tree'.hasData (block.getHash ctx.hash) = s.tree.hasData (block.getHash ctx.hash) →
      (s.accept ctx block dbp).tree = tree' ∧ (s.accept ctx block dbp).stored = s.stored := by
    rintro tree' rfl hsame
    refine ⟨rfl, ?_⟩
    rw [StoreState.accept, newlyStored]
    simp only
    rw [if_neg (by rw [hsame]; simp)]
    rfl
  rcases acceptBlock_cases ctx s.tree block dbp with heq |
    ⟨pindex, tree₁, hheader, heq | ⟨hnodata, heq⟩ | ⟨hnodata, hcheck, heq⟩⟩
  · obtain ⟨htree, hstored⟩ := hnone heq rfl
    exact Or.inl ⟨by rw [htree], hstored⟩
  · obtain ⟨htree, hstored⟩ := hnone heq ((acceptBlockHeader_spec hheader).2 _)
    exact Or.inl ⟨by rw [htree, files_acceptBlockHeader hheader], hstored⟩
  · obtain ⟨hself, hdata⟩ := acceptBlockHeader_spec hheader
    obtain ⟨htree, hstored⟩ := hnone heq (by
      rw [← hdata, BlockTree.hasData_of_find (BlockTree.find_put_self ..),
        BlockTree.hasData_of_find hself, hasStatus_or]
      exact Bool.or_false _)
    have hfiles := files_acceptBlockHeader hheader
    exact Or.inl ⟨by rw [htree]; exact hfiles, hstored⟩
  · right
    obtain ⟨hself, hdata⟩ := acceptBlockHeader_spec hheader
    obtain ⟨found, hfound, hstore⟩ :=
      storeBlock_cases ctx tree₁ (block.getHash ctx.hash) block pindex dbp
    have hfound' : ∀ x, found.2.find x = tree₁.find x := by
      intro x
      rw [← hfound]
      rfl
    refine ⟨tree₁, _, _, found, files_acceptBlockHeader hheader, checkBlock_size hcheck, hfound, ?_⟩
    rcases hstore with ⟨herror, hstore⟩ | ⟨pos, hpos, -, hstore⟩
    · rw [← heq] at hstore
      obtain ⟨htree, hstored⟩ := hnone hstore (by
        rw [← hdata, BlockTree.hasData, BlockTree.status, hfound' _]
        rfl)
      refine ⟨by rw [htree], Or.inl ⟨?_, hstored⟩⟩
      -- a known position is always good
      cases dbp with
      | none => rfl
      | some pos => cases herror
    · rw [← heq] at hstore
      obtain ⟨p, hp, hhas, hfile, hdatapos⟩ := BlockTree.find_receivedBlockTransactions found.2
        (block.getHash ctx.hash) block pindex
        (if dbp.isSome then pos else { pos with nPos := pos.nPos + 8 })
      refine ⟨?_, Or.inr ⟨pos, _, hpos, rfl, ?_⟩⟩
      · show (acceptBlock ctx s.tree block dbp).2.files = _
        rw [hstore]
        exact BlockTree.files_receivedBlockTransactions ..
      · have hbefore : s.tree.hasData (block.getHash ctx.hash) = false := by
          rw [← hdata, BlockTree.hasData_of_find hself, hnodata]
        rw [← hstore] at hp
        have hafter : (acceptBlock ctx s.tree block dbp).2.hasData (block.getHash ctx.hash) =
            true := by
          rw [BlockTree.hasData_of_find hp, hhas]
        rw [StoreState.accept, newlyStored]
        simp only
        rw [hbefore, hafter, hp]
        cases dbp with
        | none => simp [hfile, hdatapos]
        | some _ => simp [hfile, hdatapos]

theorem toNat_addSize {block : CBlock} (h : (CBlock.codec.ser block).length ≤ maxBlockSize) :
    (addSize block).toNat = (CBlock.codec.ser block).length + 8 := by
  rw [maxBlockSize] at h
  rw [addSize, UInt32.toNat_add, UInt32.toNat_ofNat_of_lt' (by
    show _ < 2 ^ 32
    omega)]
  show _ % 2 ^ 32 = _
  exact Nat.mod_eq_of_lt (by
    show _ + 8 < 2 ^ 32
    omega)

/-! ## Blocks that are in the files -/

/-- The file of the last block, `0` if there is none. -/
def lastFile (stored : List StoredBlock) : Nat := (stored.head?.map StoredBlock.nFile).getD 0

/-- What `FindBlockPos` knows after blocks with known positions: the sum of their sizes, as
a `uint32_t`, and the file of the last one. -/
structure SumInv (s : StoreState) : Prop where
  size : ∀ f, s.tree.fileSize f = UInt32.ofNat (room s.stored f)
  last : s.tree.nLastBlockFile = lastFile s.stored

theorem room_nil (f : Nat) : room [] f = 0 := rfl

theorem room_cons (b : StoredBlock) (stored : List StoredBlock) (f : Nat) :
    room (b :: stored) f = if f = b.nFile then room stored f + (b.size + 8) else room stored f := by
  rw [room, List.filter_cons]
  by_cases h : f = b.nFile
  · simp [h, room, Nat.add_comm]
  · have hne : (b.nFile == f) = false := beq_eq_false_iff_ne.mpr fun h' => h h'.symm
    simp [h, hne, room]

/-- A call with a known position. -/
theorem SumInv.accept {s : StoreState} (inv : SumInv s) (ctx : AcceptContext) (block : CBlock)
    (pos : CDiskBlockPos) : SumInv (s.accept ctx block (some pos)) := by
  rcases accept_cases s ctx block (some pos) with ⟨hfiles, hstored⟩ |
    ⟨tree, nHeight, nTime, found, htree, hsize, hfound, hfiles, ⟨hnone, -⟩ |
      ⟨pos', nPos, hpos, -, hstored⟩⟩
  · refine ⟨?_, ?_⟩
    · intro f
      rw [BlockTree.fileSize_congr hfiles, hstored, inv.size]
    · rw [hstored, ← inv.last]
      exact congrArg Prod.snd hfiles
  · cases hnone
  · obtain ⟨hsome, hlast, hsizes⟩ := BlockTree.findBlockPos_known tree pos _ _ _ _ hfound
    rw [hpos] at hsome
    cases hsome
    refine ⟨?_, ?_⟩
    · intro f
      rw [BlockTree.fileSize_congr hfiles, hsizes, hstored, room_cons, BlockTree.fileSize_congr htree,
        inv.size]
      by_cases hf : f = pos.nFile.toNat
      · simp only [hf, if_true]
        rw [addSize, UInt32.ofNat_add, UInt32.ofNat_add]
        rfl
      · simp only [hf, if_false]
    · rw [hstored]
      exact (congrArg Prod.snd hfiles).trans hlast

theorem SumInv.runKnown {s : StoreState} (inv : SumInv s)
    (calls : List (AcceptContext × CBlock × CDiskBlockPos)) : SumInv (s.runKnown calls) := by
  induction calls generalizing s with
  | nil => exact inv
  | cons call calls ih => exact ih (inv.accept call.1 call.2.1 call.2.2)

/-! ## New blocks -/

/-- In the files that are left, no block ends after the position of the next one, and no
file is so big that its size overflows. -/
structure FreeInv (s : StoreState) : Prop where
  free : ∀ b ∈ s.stored, s.tree.nLastBlockFile ≤ b.nFile →
    b.stop ≤ (s.tree.fileSize b.nFile).toNat
  small : ∀ f, (s.tree.fileSize f).toNat + (maxBlockSize + 8) < 2 ^ 32

theorem addSize_lt {block : CBlock} (h : (CBlock.codec.ser block).length ≤ maxBlockSize) :
    addSize block < maxBlockFileSize := by
  rw [UInt32.lt_iff_toNat_lt, toNat_addSize h]
  refine lt_of_le_of_lt (Nat.add_le_add_right h 8) ?_
  decide

/-- The size of the file to which a block is added. -/
theorem FreeInv.toNat_add {s : StoreState} (inv : FreeInv s) {block : CBlock}
    (h : (CBlock.codec.ser block).length ≤ maxBlockSize) (f : Nat) :
    (s.tree.fileSize f + addSize block).toNat =
      (s.tree.fileSize f).toNat + ((CBlock.codec.ser block).length + 8) := by
  have hsmall := inv.small f
  rw [UInt32.toNat_add, toNat_addSize h]
  exact Nat.mod_eq_of_lt (by omega)

/-- A call with a new block. -/
theorem FreeInv.accept {s : StoreState} (inv : FreeInv s) (ctx : AcceptContext) (block : CBlock) :
    FreeInv (s.accept ctx block none) := by
  rcases accept_cases s ctx block none with ⟨hfiles, hstored⟩ |
    ⟨tree, nHeight, nTime, found, htree, hsize, hfound, hfiles, hstored⟩
  · refine ⟨?_, ?_⟩
    · intro b hb hlast
      rw [hstored] at hb
      rw [BlockTree.fileSize_congr hfiles]
      have hsame : (s.accept ctx block none).tree.nLastBlockFile = s.tree.nLastBlockFile :=
        congrArg Prod.snd hfiles
      exact inv.free b hb (hsame ▸ hlast)
    · intro f
      rw [BlockTree.fileSize_congr hfiles]
      exact inv.small f
  · obtain ⟨hle, hroom, hpos, hsizes⟩ :=
      BlockTree.findBlockPos_new tree nHeight nTime ctx.diskSpaceOk (addSize_lt hsize) hfound
    have hlast : tree.nLastBlockFile = s.tree.nLastBlockFile := congrArg Prod.snd htree
    have hlast' : (s.accept ctx block none).tree.nLastBlockFile = found.2.nLastBlockFile :=
      congrArg Prod.snd hfiles
    have hadd := inv.toNat_add hsize found.2.nLastBlockFile
    simp only [BlockTree.fileSize_congr htree] at hroom hpos hsizes
    -- the size of a file, and the blocks in it
    have hsize' : ∀ f, ((s.accept ctx block none).tree.fileSize f).toNat =
        if f = found.2.nLastBlockFile then
          (s.tree.fileSize f).toNat + ((CBlock.codec.ser block).length + 8)
        else (s.tree.fileSize f).toNat := by
      intro f
      rw [BlockTree.fileSize_congr hfiles, hsizes]
      split_ifs with hf
      · rw [hf, hadd]
      · rfl
    have hold : ∀ b ∈ s.stored, found.2.nLastBlockFile ≤ b.nFile →
        b.stop ≤ ((s.accept ctx block none).tree.fileSize b.nFile).toNat := by
      intro b hb hbfile
      have hfree := inv.free b hb (by omega)
      rw [hsize']
      split_ifs
      · omega
      · exact hfree
    refine ⟨?_, ?_⟩
    · intro b hb hbfile
      rw [hlast'] at hbfile
      rcases hstored with ⟨-, hstored⟩ | ⟨pos, nPos, hsome, hnPos, hstored⟩
      · rw [hstored] at hb
        exact hold b hb hbfile
      · rw [hstored] at hb
        rcases List.mem_cons.mp hb with rfl | hb
        · cases hpos pos hsome
          rw [hsize']
          simp only [Option.isSome_none, Bool.false_eq_true, if_false] at hnPos
          have hsmall := inv.small found.2.nLastBlockFile
          have hstart : nPos.toNat = (s.tree.fileSize found.2.nLastBlockFile).toNat + 8 := by
            rw [hnPos, UInt32.toNat_add]
            exact Nat.mod_eq_of_lt (by
              show _ + 8 < 2 ^ 32
              omega)
          simp only [StoredBlock.stop, Int.toNat_natCast, if_true]
          omega
        · exact hold b hb hbfile
    · intro f
      rw [hsize']
      split_ifs with hf
      · rw [UInt32.lt_iff_toNat_lt, hadd, show maxBlockFileSize.toNat = 134217728 by decide] at hroom
        rw [hf, maxBlockSize]
        omega
      · exact inv.small f

theorem FreeInv.runNew {s : StoreState} (inv : FreeInv s) (calls : List (AcceptContext × CBlock)) :
    FreeInv (s.runNew calls) := by
  induction calls generalizing s with
  | nil => exact inv
  | cons call calls ih => exact ih (inv.accept call.1 call.2)

/-- The position of a new block is the end of a file. -/
theorem handedPos_eq {ctx : AcceptContext} {tree : BlockTree} {block : CBlock} {pos : CDiskBlockPos}
    (h : handedPos ctx tree block = some pos) :
    ∃ nFile, tree.nLastBlockFile ≤ nFile ∧ pos = ⟨nFile, tree.fileSize nFile⟩ := by
  rw [handedPos] at h
  split at h
  · cases h
  · rename_i pindex tree₁ hheader
    split_ifs at h
    have hfiles := files_acceptBlockHeader hheader
    cases hcheck : checkBlock ctx.toContext block true true with
    | error e =>
        rw [hcheck] at h
        cases h
    | ok u =>
        cases hcontext : contextualCheckBlock ctx tree₁ block (tree₁.prev pindex) with
        | error e =>
            rw [hcheck, hcontext] at h
            cases h
        | ok u' =>
            rw [hcheck, hcontext] at h
            obtain ⟨hle, -, hpos, -⟩ := BlockTree.findBlockPos_new tree₁ _ _ _
              (addSize_lt (checkBlock_size hcheck)) rfl
            have hlast : tree₁.nLastBlockFile = tree.nLastBlockFile := congrArg Prod.snd hfiles
            rw [hlast] at hle
            refine ⟨_, hle, ?_⟩
            rw [← BlockTree.fileSize_congr hfiles]
            exact hpos pos h

/-- **New blocks do not overwrite others**: after blocks with known positions and then new
ones, every new position is at or after the end of every block in the file.  The blocks with
known positions must leave no gaps in the files that are used again, and their sizes must
not overflow. -/
theorem positions_free (known : List (AcceptContext × CBlock × CDiskBlockPos))
    (new : List (AcceptContext × CBlock))
    (hgaps : ∀ b ∈ (StoreState.runKnown {} known).stored,
      lastFile (StoreState.runKnown {} known).stored ≤ b.nFile →
        b.stop ≤ room (StoreState.runKnown {} known).stored b.nFile)
    (hsmall : ∀ f, room (StoreState.runKnown {} known).stored f + (maxBlockSize + 8) < 2 ^ 32)
    {ctx : AcceptContext} {block : CBlock} {pos : CDiskBlockPos}
    (hpos : handedPos ctx ((StoreState.runKnown {} known).runNew new).tree block = some pos) :
    ∀ b ∈ ((StoreState.runKnown {} known).runNew new).stored, (b.nFile : Int) = pos.nFile →
      b.stop ≤ pos.nPos.toNat := by
  have hempty : SumInv {} := by
    refine ⟨?_, rfl⟩
    intro f
    rfl
  have hsum := hempty.runKnown known
  have hsize : ∀ f, ((StoreState.runKnown {} known).tree.fileSize f).toNat =
      room (StoreState.runKnown {} known).stored f := by
    intro f
    have := hsmall f
    rw [hsum.size, UInt32.toNat_ofNat_of_lt' (by
      show _ < 2 ^ 32
      omega)]
  have hfree : FreeInv (StoreState.runKnown {} known) := by
    refine ⟨?_, ?_⟩
    · intro b hb hlast
      rw [hsize]
      rw [hsum.last] at hlast
      exact hgaps b hb hlast
    · intro f
      rw [hsize]
      exact hsmall f
  intro b hb hfile
  obtain ⟨nFile, hle, rfl⟩ := handedPos_eq hpos
  have hb' := (hfree.runNew new).free b hb
  have hsame : (b.nFile : Int) = (nFile : Int) := hfile
  obtain rfl : b.nFile = nFile := by exact_mod_cast hsame
  exact hb' hle

/-! ## A file with a gap -/

/-- The genesis block is found in the first file, after so many bytes. -/
def genesisAt (nPos : UInt32) : StoreState :=
  StoreState.runKnown {} [(treeContext, treeGenesis, ⟨0, nPos⟩)]

/-- The next block gets a position in the first file, and that is where the genesis block
is. -/
def overlapCheck (s : StoreState) : Bool :=
  (handedPos treeContext s.tree treeParent).any fun pos => s.stored.any fun b =>
    (b.nFile : Int) == pos.nFile && pos.nPos.toNat < b.stop &&
      b.nPos < pos.nPos.toNat + 8 + (CBlock.codec.ser treeParent).length

/-- **A block that is overwritten**: the file has a hundred bytes before the genesis block. -/
theorem gap_overwritten :
    ∃ pos, handedPos treeContext (genesisAt 108).tree treeParent = some pos ∧
      ∃ b ∈ (genesisAt 108).stored, (b.nFile : Int) = pos.nFile ∧ pos.nPos.toNat < b.stop ∧
        b.nPos < pos.nPos.toNat + 8 + (CBlock.codec.ser treeParent).length := by
  have hcheck : overlapCheck (genesisAt 108) = true := by decide +kernel
  rw [overlapCheck, Option.any_eq_true] at hcheck
  obtain ⟨pos, hpos, hany⟩ := hcheck
  rw [List.any_eq_true] at hany
  obtain ⟨b, hb, hoverlap⟩ := hany
  simp only [Bool.and_eq_true, beq_iff_eq, decide_eq_true_eq] at hoverlap
  exact ⟨pos, hpos, b, hb, hoverlap.1.1, hoverlap.1.2, hoverlap.2⟩

/-- A block on the child. -/
def treeGrandchild : CBlock := timedBlock (some (treeChild.getHash exampleHash)) 3 3

/-- Two blocks that are found in the first file, one after the other. -/
def knownTwo : List (AcceptContext × CBlock × CDiskBlockPos) :=
  [(treeContext, treeGenesis, ⟨0, 8⟩), (treeContext, treeParent, ⟨0, 160⟩)]

/-- The condition at work: a new block is stored behind them, and then another. -/
theorem positions_free_knownTwo :
    ((StoreState.runKnown {} knownTwo).runNew [(treeContext, treeChild)]).stored =
      [⟨0, 312, 144⟩, ⟨0, 160, 144⟩, ⟨0, 8, 144⟩] ∧
    ∃ pos, handedPos treeContext ((StoreState.runKnown {} knownTwo).runNew
        [(treeContext, treeChild)]).tree treeGrandchild = some pos ∧
      ∀ b ∈ ((StoreState.runKnown {} knownTwo).runNew [(treeContext, treeChild)]).stored,
        (b.nFile : Int) = pos.nFile → b.stop ≤ pos.nPos.toNat := by
  have hstored : (StoreState.runKnown {} knownTwo).stored = [⟨0, 160, 144⟩, ⟨0, 8, 144⟩] := by
    decide +kernel
  have hsome : (handedPos treeContext ((StoreState.runKnown {} knownTwo).runNew
      [(treeContext, treeChild)]).tree treeGrandchild).isSome = true := by
    simp only [StoreState.runNew, StoreState.runKnown, knownTwo, List.foldl_cons, List.foldl_nil,
      StoreState.accept, handedPos, acceptBlock, acceptBlockHeader, contextualCheckBlockHeader,
      checkBlockHeaderAfter, BlockTree.getMedianTimePast_eq]
    decide +kernel
  obtain ⟨pos, hpos⟩ := Option.isSome_iff_exists.mp hsome
  have hgaps : ∀ b ∈ (StoreState.runKnown {} knownTwo).stored,
      lastFile (StoreState.runKnown {} knownTwo).stored ≤ b.nFile →
        b.stop ≤ room (StoreState.runKnown {} knownTwo).stored b.nFile := by
    rw [hstored]
    intro b hb _
    rcases List.mem_pair.mp hb with rfl | rfl
    · decide
    · decide
  have hsmall : ∀ f, room (StoreState.runKnown {} knownTwo).stored f + (maxBlockSize + 8) <
      2 ^ 32 := by
    intro f
    rw [hstored, room_cons, room_cons, room_nil, maxBlockSize]
    simp only
    split_ifs
    · omega
    · omega
  have hfree := positions_free knownTwo [(treeContext, treeChild)] hgaps hsmall hpos
  refine ⟨?_, pos, hpos, hfree⟩
  simp only [StoreState.runNew, StoreState.runKnown, knownTwo, List.foldl_cons, List.foldl_nil,
    StoreState.accept, newlyStored, acceptBlock, acceptBlockHeader, contextualCheckBlockHeader,
    checkBlockHeaderAfter, BlockTree.getMedianTimePast_eq]
  decide +kernel

end Hivemind
