import Hivemind.Lib.MerkleTree
import Hivemind.Primitives.Block
import Mathlib.Data.Nat.Bitwise

/-!
# The merkle tree in its vector

`CBlock::BuildMerkleTree` keeps all levels in one vector, `GetMerkleBranch` reads the branch of a
transaction from it by index arithmetic, and `CheckMerkleBranch` climbs that branch by the bits
of the index.

Every access to the vector is checked: the loops return `none` where an index is outside, and
each theorem that gives their result says that this does not happen.  `GetMerkleBranch` builds
the vector when it is empty, and otherwise uses what is there, so a branch is the same whether
`BuildMerkleTree` was called before or not.

The vector is compared with the levels of the library's tree, and all statements about branches
are statements about levels.

* `buildLoop_eq`: **the vector holds the levels of the tree**, and the flag is that of the
  levels.
* `merkleLevels_spec`: the root is the one node at the height of the tree.
* `branchLoop_climb`: a branch leads from its hash to the root.
* `checkMerkleBranch_getMerkleBranch`: every branch of a block verifies.
-/

namespace Hivemind

open Codecs MerkleTrees

section Vector

variable (hash : Bytes → Uint256)

/-! ## The operations -/

/-- The loop of `BuildMerkleTree` over one level: `nSize` hashes from `j` on.  `none` is an
access outside of the vector. -/
def levelLoop (j nSize i : Nat) (vMerkleTree : List Uint256) (mutated : Bool) :
    Option (List Uint256 × Bool) :=
  if i < nSize then
    let i2 := min (i + 1) (nSize - 1)
    vMerkleTree[j + i]?.bind fun left => vMerkleTree[j + i2]?.bind fun right =>
      levelLoop j nSize (i + 2) (vMerkleTree ++ [hashPair hash left right])
        (mutated || (i2 == i + 1 && i2 + 1 == nSize && left == right))
  else some (vMerkleTree, mutated)
termination_by nSize - i

/-- The loop of `BuildMerkleTree` over the levels. -/
def buildLoop (j nSize : Nat) (vMerkleTree : List Uint256) (mutated : Bool) :
    Option (List Uint256 × Bool) :=
  if 1 < nSize then
    (levelLoop hash j nSize 0 vMerkleTree mutated).bind fun s =>
      buildLoop (j + nSize) ((nSize + 1) / 2) s.1 s.2
  else some (vMerkleTree, mutated)
termination_by nSize
decreasing_by omega

/-- What `BuildMerkleTree` leaves in `vMerkleTree` and in `fMutated`. -/
def CBlock.vMerkleTree (block : CBlock) : Option (List Uint256 × Bool) :=
  buildLoop hash 0 block.vtx.length (block.vtx.map (CTransaction.getHash hash)) false

/-- What `BuildMerkleTree` returns, from the vector. -/
def merkleRootOf (vMerkleTree : List Uint256) : Uint256 := vMerkleTree.getLastD Blob.null

/-- The loop of `GetMerkleBranch`. -/
def branchLoop (vMerkleTree : List Uint256) (nSize j nIndex : Nat) : Option (List Uint256) :=
  if 1 < nSize then
    vMerkleTree[j + min (nIndex ^^^ 1) (nSize - 1)]?.bind fun sibling =>
      (branchLoop vMerkleTree ((nSize + 1) / 2) (j + nSize) (nIndex / 2)).map (sibling :: ·)
  else some []
termination_by nSize
decreasing_by omega

/-- `CBlock::GetMerkleBranch`, where the vector is built when it is empty. -/
def CBlock.getMerkleBranch (block : CBlock) (vMerkleTree : List Uint256) (nIndex : Nat) :
    Option (List Uint256) :=
  (if vMerkleTree = [] then (block.vMerkleTree hash).map Prod.fst else some vMerkleTree).bind
    fun tree => branchLoop tree block.vtx.length 0 nIndex

/-- The loop of `CheckMerkleBranch`. -/
def climb : Uint256 → List Uint256 → Int → Uint256
  | x, [], _ => x
  | x, sibling :: vMerkleBranch, nIndex =>
    climb (if nIndex % 2 = 1 then hashPair hash sibling x else hashPair hash x sibling)
      vMerkleBranch (nIndex / 2)

/-- `CBlock::CheckMerkleBranch`. -/
def checkMerkleBranch (x : Uint256) (vMerkleBranch : List Uint256) (nIndex : Int) : Uint256 :=
  if nIndex = -1 then Blob.null else climb hash x vMerkleBranch nIndex

/-! ## The levels -/

theorem merkleLevel_eq (xs : List Uint256) : merkleLevel hash xs = level (hashPair hash) xs := by
  induction xs using pairUp.induct with
  | case1 => rfl
  | case2 a => rfl
  | case3 a b xs ih =>
    rw [merkleLevel, ih]
    rfl

theorem merkleLevels_succ {fuel : Nat} {xs : List Uint256} (h : 1 < xs.length) :
    merkleLevels hash (fuel + 1) xs =
      ((merkleLevels hash fuel (level (hashPair hash) xs)).1,
        mutatedLevel xs || (merkleLevels hash fuel (level (hashPair hash) xs)).2) := by
  rw [← merkleLevel_eq]
  cases xs with
  | nil => simp at h
  | cons a xs =>
    cases xs with
    | nil => simp at h
    | cons b xs => rfl

/-- Enough fuel is as good as any. -/
theorem merkleLevels_fuel (xs : List Uint256) : ∀ {fuel fuel' : Nat}, xs.length ≤ fuel →
    xs.length ≤ fuel' → merkleLevels hash fuel xs = merkleLevels hash fuel' xs := by
  refine level_induction (hashPair hash) (P := fun xs => ∀ {fuel fuel' : Nat}, xs.length ≤ fuel →
    xs.length ≤ fuel' → merkleLevels hash fuel xs = merkleLevels hash fuel' xs) ?_ ?_ xs
  · intro xs hone fuel fuel' _ _
    rcases eq_nil_or_singleton hone with rfl | ⟨a, rfl⟩
    · cases fuel <;> cases fuel' <;> rfl
    · cases fuel <;> cases fuel' <;> rfl
  · intro xs hlt ih fuel fuel' hf hf'
    obtain ⟨m, rfl⟩ : ∃ m, fuel = m + 1 := ⟨fuel - 1, by omega⟩
    obtain ⟨m', rfl⟩ : ∃ m', fuel' = m' + 1 := ⟨fuel' - 1, by omega⟩
    have hlen := length_level (hashPair hash) xs
    have hrest : merkleLevels hash m (level (hashPair hash) xs) =
        merkleLevels hash m' (level (hashPair hash) xs) := ih (by omega) (by omega)
    rw [merkleLevels_succ hash hlt, merkleLevels_succ hash hlt, hrest]

/-- The root and the flag of a list, from those of the level over it. -/
theorem merkleLevels_level {xs : List Uint256} (h : 1 < xs.length) :
    merkleLevels hash xs.length xs =
      ((merkleLevels hash (level (hashPair hash) xs).length (level (hashPair hash) xs)).1,
        mutatedLevel xs ||
          (merkleLevels hash (level (hashPair hash) xs).length (level (hashPair hash) xs)).2) := by
  obtain ⟨m, hm⟩ : ∃ m, xs.length = m + 1 := ⟨xs.length - 1, by omega⟩
  have hlen := length_level (hashPair hash) xs
  have hrest : merkleLevels hash m (level (hashPair hash) xs) =
      merkleLevels hash (level (hashPair hash) xs).length (level (hashPair hash) xs) :=
    merkleLevels_fuel hash _ (by omega) (Nat.le_refl _)
  rw [hm, merkleLevels_succ hash h, hrest]

/-- **One level in the vector**: the loop adds the level over the hashes that are left. -/
theorem levelLoop_eq (pre : List Uint256) (rest : List Uint256) :
    ∀ (before done : List Uint256) (mutated : Bool),
      levelLoop hash pre.length (before ++ rest).length before.length
        (pre ++ (before ++ rest) ++ done) mutated =
      some (pre ++ (before ++ rest) ++ (done ++ level (hashPair hash) rest),
        mutated || mutatedLevel rest) := by
  induction rest using pairUp.induct with
  | case1 =>
    intro before done mutated
    rw [levelLoop, if_neg (by simp)]
    simp [level, pairUp, mutatedLevel]
  | case2 a =>
    intro before done mutated
    have hmin : min (before.length + 1) ((before ++ [a]).length - 1) = before.length := by simp
    have hget : (pre ++ (before ++ [a]) ++ done)[pre.length + before.length]? = some a := by
      simp
    rw [levelLoop, if_pos (by simp), hmin]
    simp only [hget, Option.bind_some]
    rw [levelLoop, if_neg (by simp)]
    simp [level, pairUp, mutatedLevel]
  | case3 a b rest ih =>
    intro before done mutated
    have hmin : min (before.length + 1) ((before ++ a :: b :: rest).length - 1) =
        before.length + 1 := by simp
    have hleft : (pre ++ (before ++ a :: b :: rest) ++ done)[pre.length + before.length]? =
        some a := by simp
    have hright : (pre ++ (before ++ a :: b :: rest) ++ done)[pre.length +
        (before.length + 1)]? = some b := by
      have hform : pre ++ (before ++ a :: b :: rest) ++ done =
          (pre ++ before ++ [a]) ++ b :: (rest ++ done) := by simp
      have hindex : pre.length + (before.length + 1) = (pre ++ before ++ [a]).length := by
        simp
      rw [hform, hindex, List.getElem?_append_right (Nat.le_refl _), Nat.sub_self]
      rfl
    have hsplit : before ++ a :: b :: rest = (before ++ [a, b]) ++ rest := by simp
    have hlen : before.length + 2 = (before ++ [a, b]).length := by simp
    rw [levelLoop, if_pos (by simp), hmin]
    simp only [hleft, hright, Option.bind_some]
    have hflag : (before.length + 1 + 1 == (before ++ a :: b :: rest).length && a == b ||
        mutatedLevel rest) = mutatedLevel (a :: b :: rest) := by
      cases rest with
      | nil => simp [mutatedLevel]
      | cons c rest =>
        have hne : (before.length + 1 + 1 == (before ++ a :: b :: c :: rest).length) = false := by
          simp
          omega
        rw [hne, Bool.false_and, Bool.false_or]
        rfl
    rw [beq_self_eq_true, Bool.true_and, ← hflag, ← Bool.or_assoc]
    rw [hsplit, hlen, List.append_assoc _ done, ih]
    simp [level, pairUp]

/-- **The vector holds the levels of the tree**, and the flag is the one of the levels. -/
theorem buildLoop_eq (xs : List Uint256) : ∀ (pre : List Uint256) (mutated : Bool),
    buildLoop hash pre.length xs.length (pre ++ xs) mutated =
      some (pre ++ flatLevels (hashPair hash) xs,
        mutated || (merkleLevels hash xs.length xs).2) := by
  refine level_induction (hashPair hash) (P := fun xs => ∀ (pre : List Uint256) (mutated : Bool),
    buildLoop hash pre.length xs.length (pre ++ xs) mutated =
      some (pre ++ flatLevels (hashPair hash) xs,
        mutated || (merkleLevels hash xs.length xs).2)) ?_ ?_ xs
  · intro xs hone pre mutated
    rw [buildLoop, if_neg (by omega), flatLevels, if_neg (by omega)]
    rcases eq_nil_or_singleton hone with rfl | ⟨a, rfl⟩
    · simp [merkleLevels]
    · simp [merkleLevels]
  · intro xs hlt ih pre mutated
    have hlevel := levelLoop_eq hash pre xs [] [] mutated
    simp only [List.nil_append, List.append_nil, List.length_nil] at hlevel
    have hih := ih (pre ++ xs) (mutated || mutatedLevel xs)
    rw [List.length_append, length_level] at hih
    rw [buildLoop, if_pos hlt, hlevel, Option.bind_some, hih, merkleLevels_level hash hlt,
      flatLevels_of_lt _ hlt, List.append_assoc, Bool.or_assoc, length_level]

/-- The last hash of the vector is the root. -/
theorem merkleRootOf_flatLevels (xs : List Uint256) :
    merkleRootOf (flatLevels (hashPair hash) xs) = (merkleLevels hash xs.length xs).1 := by
  refine level_induction (hashPair hash) (P := fun xs =>
    merkleRootOf (flatLevels (hashPair hash) xs) = (merkleLevels hash xs.length xs).1) ?_ ?_ xs
  · intro xs hone
    rw [flatLevels, if_neg (by omega)]
    rcases eq_nil_or_singleton hone with rfl | ⟨a, rfl⟩
    · rfl
    · rfl
  · intro xs hlt ih
    have hne : flatLevels (hashPair hash) (level (hashPair hash) xs) ≠ [] := by
      intro hnil
      have hget : (flatLevels (hashPair hash) (level (hashPair hash) xs))[0]? =
          (level (hashPair hash) xs)[0]? :=
        getElem?_flatLevels _ (by rw [length_level]; omega)
      rw [hnil, List.getElem?_nil, eq_comm, List.getElem?_eq_none_iff, length_level] at hget
      omega
    rw [merkleLevels_level hash hlt, ← ih, flatLevels_of_lt _ hlt, merkleRootOf, merkleRootOf,
      List.getLastD_eq_getLast?, List.getLastD_eq_getLast?, List.getLast?_append_of_ne_nil _ hne]

/-- **`BuildMerkleTree`**, the vector and what is returned. -/
theorem CBlock.vMerkleTree_eq (block : CBlock) : ∃ tree,
    block.vMerkleTree hash = some (tree, (block.buildMerkleTree hash).2) ∧
      merkleRootOf tree = (block.buildMerkleTree hash).1 ∧
      tree = flatLevels (hashPair hash) (block.vtx.map (CTransaction.getHash hash)) := by
  have hbuild := buildLoop_eq hash (block.vtx.map (CTransaction.getHash hash)) [] false
  have hroot := merkleRootOf_flatLevels hash (block.vtx.map (CTransaction.getHash hash))
  rw [List.length_map] at hbuild hroot
  exact ⟨_, hbuild, hroot, rfl⟩

/-! ## The root and the flag -/

theorem mutatedLevel_iff (xs : List Uint256) : mutatedLevel xs = true ↔ Twins xs := by
  induction xs using pairUp.induct with
  | case1 =>
    refine ⟨fun h => absurd h Bool.false_ne_true, ?_⟩
    rintro ⟨pre, a, -, h⟩
    exact absurd h.symm (by simp)
  | case2 b =>
    refine ⟨fun h => absurd h Bool.false_ne_true, ?_⟩
    rintro ⟨pre, a, -, h⟩
    have hlen := congrArg List.length h
    simp at hlen
  | case3 b c xs ih =>
    cases xs with
    | nil =>
      rw [mutatedLevel, beq_iff_eq]
      constructor
      · rintro rfl
        exact ⟨[], b, rfl, rfl⟩
      · rintro ⟨pre, a, -, h⟩
        have hlen := congrArg List.length h
        obtain rfl : pre = [] := List.length_eq_zero_iff.mp (by simpa using hlen)
        cases h
        rfl
    | cons d xs =>
      have hstep : mutatedLevel (b :: c :: d :: xs) = mutatedLevel (d :: xs) := rfl
      rw [hstep, ih]
      constructor
      · rintro ⟨pre, a, hpre, h⟩
        refine ⟨b :: c :: pre, a, ?_, by rw [h]; rfl⟩
        rw [List.length_cons, List.length_cons]
        omega
      · rintro ⟨pre, a, hpre, h⟩
        cases pre with
        | nil => cases h
        | cons e pre =>
          cases pre with
          | nil => simp at hpre
          | cons f pre =>
            refine ⟨pre, a, ?_, ?_⟩
            · rw [List.length_cons, List.length_cons] at hpre
              omega
            · simp only [List.cons_append, List.cons.injEq] at h
              exact h.2.2

/-- **The levels of `BuildMerkleTree`**: the root is the one node at the height of the tree, and
the flag is set when some level below ends in twins. -/
theorem merkleLevels_spec (xs : List Uint256) (hxs : xs ≠ []) :
    levelAt (hashPair hash) (height xs.length) xs = [(merkleLevels hash xs.length xs).1] ∧
      ((merkleLevels hash xs.length xs).2 = true ↔
        ∃ k < height xs.length, Twins (levelAt (hashPair hash) k xs)) := by
  revert hxs
  refine level_induction (hashPair hash) (P := fun xs => xs ≠ [] →
    levelAt (hashPair hash) (height xs.length) xs = [(merkleLevels hash xs.length xs).1] ∧
      ((merkleLevels hash xs.length xs).2 = true ↔
        ∃ k < height xs.length, Twins (levelAt (hashPair hash) k xs))) ?_ ?_ xs
  · intro xs hone hxs
    obtain ⟨root, rfl⟩ : ∃ root, xs = [root] := by
      have := List.length_pos_of_ne_nil hxs
      exact List.length_eq_one_iff.mp (by omega)
    rw [height_of_le_one hone]
    refine ⟨rfl, fun h => absurd h Bool.false_ne_true, ?_⟩
    rintro ⟨k, hk, -⟩
    exact absurd hk (Nat.not_lt_zero k)
  · intro xs hlt ih _
    have hne : level (hashPair hash) xs ≠ [] := by
      intro hnil
      have hlen := length_level (hashPair hash) xs
      rw [hnil, List.length_nil] at hlen
      omega
    obtain ⟨hroot, hflag⟩ := ih hne
    rw [height_level (hashPair hash) hlt, merkleLevels_level hash hlt, levelAt_succ']
    refine ⟨hroot, ?_⟩
    rw [Bool.or_eq_true, mutatedLevel_iff, hflag]
    constructor
    · rintro (htwins | ⟨k, hk, htwins⟩)
      · exact ⟨0, Nat.succ_pos _, htwins⟩
      · exact ⟨k + 1, Nat.succ_lt_succ hk, by rwa [levelAt_succ']⟩
    · rintro ⟨k, hk, htwins⟩
      cases k with
      | zero => exact Or.inl htwins
      | succ k =>
        rw [levelAt_succ'] at htwins
        exact Or.inr ⟨k, Nat.lt_of_succ_lt_succ hk, htwins⟩

/-! ## Branches -/

theorem xor_one (i : Nat) : i ^^^ 1 = if i % 2 = 0 then i + 1 else i - 1 := by
  have hdiv : (i ^^^ 1) / 2 = i / 2 := by
    rw [Nat.xor_div_two]
    exact Nat.xor_zero _
  have hmod := Nat.xor_mod_two_eq (m := i) (n := 1)
  split_ifs <;> omega

/-- **A branch leads to the root**: what is read from the levels from `j` on, climbed from one
of their first hashes. -/
theorem branchLoop_climb (vMerkleTree : List Uint256) (xs : List Uint256) :
    ∀ (j i : Nat) (x : Uint256), vMerkleTree.drop j = flatLevels (hashPair hash) xs →
      xs[i]? = some x → ∃ branch, branchLoop vMerkleTree xs.length j i = some branch ∧
        climb hash x branch i = (merkleLevels hash xs.length xs).1 := by
  refine level_induction (hashPair hash) (P := fun xs => ∀ (j i : Nat) (x : Uint256),
    vMerkleTree.drop j = flatLevels (hashPair hash) xs → xs[i]? = some x →
      ∃ branch, branchLoop vMerkleTree xs.length j i = some branch ∧
        climb hash x branch i = (merkleLevels hash xs.length xs).1) ?_ ?_ xs
  · intro xs hone j i x _ hx
    rcases eq_nil_or_singleton hone with rfl | ⟨root, rfl⟩
    · cases hx
    · cases i with
      | zero =>
        cases hx
        exact ⟨[], by rw [branchLoop, if_neg (by simp)], rfl⟩
      | succ i => cases hx
  · intro xs hlt ih j i x htree hx
    have hi : i < xs.length := (List.getElem?_eq_some_iff.mp hx).1
    have hsib : min (i ^^^ 1) (xs.length - 1) < xs.length := by omega
    -- the sibling is read from the level, and the rest from the levels over it
    have hread : vMerkleTree[j + min (i ^^^ 1) (xs.length - 1)]? =
        some xs[min (i ^^^ 1) (xs.length - 1)] := by
      rw [← List.getElem?_drop, htree, getElem?_flatLevels _ hsib, List.getElem?_eq_getElem hsib]
    have hnext : vMerkleTree.drop (j + xs.length) =
        flatLevels (hashPair hash) (level (hashPair hash) xs) := by
      rw [← List.drop_drop, htree, flatLevels_of_lt _ hlt, List.drop_left]
    have hparent : (level (hashPair hash) xs)[i / 2]? = some
        (if (i : Int) % 2 = 1 then hashPair hash xs[min (i ^^^ 1) (xs.length - 1)] x
          else hashPair hash x xs[min (i ^^^ 1) (xs.length - 1)]) := by
      have hxi : xs[i] = x := Option.some.inj ((List.getElem?_eq_getElem hi).symm.trans hx)
      rw [getElem?_level]
      by_cases hodd : (i : Int) % 2 = 1
      · have hleft : min (i ^^^ 1) (xs.length - 1) = 2 * (i / 2) := by
          rw [xor_one, if_neg (by omega)]
          omega
        have hright : 2 * (i / 2) + 1 = i := by omega
        rw [if_pos hodd, hright, hx]
        simp only [hleft]
        rw [List.getElem?_eq_getElem (by omega), Option.map_some, Option.getD_some]
      · have hleft : 2 * (i / 2) = i := by omega
        rw [if_neg hodd, hleft, hx, Option.map_some]
        congr 2
        by_cases hend : i + 1 < xs.length
        · have hright : min (i ^^^ 1) (xs.length - 1) = i + 1 := by
            rw [xor_one, if_pos (by omega)]
            omega
          simp only [hright]
          rw [List.getElem?_eq_getElem hend, Option.getD_some]
        · have hright : min (i ^^^ 1) (xs.length - 1) = i := by
            rw [xor_one, if_pos (by omega)]
            omega
          simp only [hright]
          rw [List.getElem?_eq_none (by omega), Option.getD_none, hxi]
    obtain ⟨branch, hbranch, hclimb⟩ := ih (j + xs.length) (i / 2) _ hnext hparent
    rw [length_level] at hbranch
    refine ⟨xs[min (i ^^^ 1) (xs.length - 1)] :: branch, ?_, ?_⟩
    · rw [branchLoop, if_pos hlt, hread, Option.bind_some, hbranch, Option.map_some]
    · rw [climb, merkleLevels_level hash hlt, ← hclimb]
      rfl

/-- **Every branch verifies**: in a block with transactions, the branch of each of them,
whether the vector was built before or not, leads `CheckMerkleBranch` to the root that
`BuildMerkleTree` returns. -/
theorem checkMerkleBranch_getMerkleBranch (block : CBlock) (i : Nat) (hi : i < block.vtx.length)
    (vMerkleTree : List Uint256) (htree : vMerkleTree = [] ∨
      (block.vMerkleTree hash).map Prod.fst = some vMerkleTree) :
    ∃ branch, block.getMerkleBranch hash vMerkleTree i = some branch ∧
      checkMerkleBranch hash (block.vtx[i].getHash hash) branch i =
        (block.buildMerkleTree hash).1 := by
  obtain ⟨tree, hbuild, -, hflat⟩ := block.vMerkleTree_eq hash
  rw [hbuild, Option.map_some] at htree
  have hused : (if vMerkleTree = [] then (block.vMerkleTree hash).map Prod.fst
      else some vMerkleTree) = some tree := by
    rw [hbuild, Option.map_some]
    rcases htree with rfl | heq
    · rw [if_pos rfl]
    · rw [heq, ite_self]
  obtain ⟨branch, hbranch, hclimb⟩ := branchLoop_climb hash tree
    (block.vtx.map (CTransaction.getHash hash)) 0 i (block.vtx[i].getHash hash)
    (by rw [List.drop_zero, hflat]) (by rw [List.getElem?_map, List.getElem?_eq_getElem hi]; rfl)
  rw [List.length_map] at hbranch hclimb
  refine ⟨branch, by rw [CBlock.getMerkleBranch, hused, Option.bind_some, hbranch], ?_⟩
  rw [checkMerkleBranch, if_neg (by omega), hclimb]
  rfl

/-- A block with three transactions. -/
def exampleThree : CBlock where
  vtx := [{ nLockTime := 1 }, { nLockTime := 2 }, { nLockTime := 3 }]

theorem merkleBranch_exampleThree : ∃ branch,
    exampleThree.getMerkleBranch Blob.ofBytes [] 2 = some branch ∧
      checkMerkleBranch Blob.ofBytes (exampleThree.vtx[2].getHash Blob.ofBytes) branch 2 =
        (exampleThree.buildMerkleTree Blob.ofBytes).1 :=
  checkMerkleBranch_getMerkleBranch Blob.ofBytes exampleThree 2 (by decide) [] (Or.inl rfl)

end Vector

end Hivemind
