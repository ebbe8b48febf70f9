import Hivemind.Chain.LinkTree
import Mathlib.Data.List.Induction

/-!
# The active chain

`CChain` of `chain.cpp`, a vector over one branch of the block index, and `FindForkInGlobalIndex`
of `main.cpp`.  An entry is named by its hash, so that a locator is a list of entries.

`SetTip` is the only operation that writes the vector.  It cuts or extends it to the height of
its entry, and writes entries downwards from there until it meets one that is in place already.
That the rest is then in place too is not checked by the code; it holds because what was in the
vector was a branch, and what is left of a branch after a resize has the ancestors of all its
entries.  An argument that is not an entry of the tree, or a null pointer that is read, is
`none`.

Everything else reads the vector, and is stated on the tree: the fork of an entry is its highest
ancestor on the branch, and a locator is a descending list of ancestors.

* `fill_spec`: the loop of `SetTip` may stop at the first entry that is in place.
* `setTip_spec`, `setTips_spec`: one call and any number of them.
* `forkLoop_spec`, `locatorLoop_spec`: one lemma for each loop.
* `findForkInGlobalIndex_spec`: the first entry of a locator that is on the chain.
* `chain_of_run`: **what the chain shows** after any calls of `SetTip`.
-/

namespace Hivemind

open Forests

/-- `CChain`. -/
structure CChain (α : Type) where
  vChain : List (Option α) := []

namespace CChain

variable {α : Type} [DecidableEq α]

/-! ## The operations -/

section Operations

variable (chain : CChain α) (tree : LinkTree α)

omit [DecidableEq α] in
/-- `CChain::Genesis`. -/
def genesis : Option α := chain.vChain[0]?.join

omit [DecidableEq α] in
/-- `CChain::Tip`. -/
def tip : Option α := chain.vChain.getLast?.join

omit [DecidableEq α] in
/-- `CChain::Height`. -/
def height : Int := chain.vChain.length - 1

omit [DecidableEq α] in
/-- `CChain::operator[]`. -/
def get (nHeight : Int) : Option α :=
  if nHeight < 0 ∨ chain.vChain.length ≤ nHeight then none
  else chain.vChain[nHeight.toNat]?.join

/-- `CChain::Contains`. -/
def contains (pindex : α) : Bool := chain.get (tree.nHeight pindex) == some pindex

/-- The loop of `SetTip`; `none` is an entry outside of the vector, or a loop that goes on. -/
def fill : Nat → Option α → List (Option α) → Option (List (Option α))
  | _, none, vChain => some vChain
  | 0, some _, _ => none
  | n + 1, some pindex, vChain =>
    if tree.nHeight pindex < 0 then none
    else vChain[(tree.nHeight pindex).toNat]?.bind fun entry =>
      if entry = some pindex then some vChain
      else fill n (tree.pprev pindex) (vChain.set (tree.nHeight pindex).toNat (some pindex))

omit [DecidableEq α] in
/-- `std::vector::resize`. -/
def resize (vChain : List (Option α)) (n : Nat) : List (Option α) :=
  vChain.take n ++ List.replicate (n - vChain.length) none

/-- `CChain::SetTip`. -/
def setTip : Option α → Option (CChain α)
  | none => some {}
  | some pindex =>
    (fill tree ((tree.nHeight pindex).toNat + 1) (some pindex)
      (resize chain.vChain ((tree.nHeight pindex).toNat + 1))).map CChain.mk

/-- The next entry of a locator. -/
def locatorNext (pindex : α) (nHeight : Int) : Option (Option α) :=
  if chain.contains tree pindex then some (chain.get nHeight)
  else tree.getAncestor pindex nHeight

/-- The loop of `GetLocator`, which ends at the genesis block. -/
def locatorLoop : Nat → Option α → Int → List α → Option (List α)
  | _, none, _, vHave => some vHave
  | 0, some _, _, _ => none
  | n + 1, some pindex, nStep, vHave =>
    if tree.nHeight pindex = 0 then some (vHave ++ [pindex])
    else (chain.locatorNext tree pindex (max (tree.nHeight pindex - nStep) 0)).bind fun next =>
      locatorLoop n next (if 10 < (vHave ++ [pindex]).length then nStep * 2 else nStep)
        (vHave ++ [pindex])

/-- `CChain::GetLocator`, of the tip when no entry is given. -/
def getLocator (pindex : Option α) : Option (List α) :=
  let start := pindex.or chain.tip
  chain.locatorLoop tree ((start.map fun a => (tree.nHeight a).toNat + 1).getD 0) start 1 []

/-- The loop of `FindFork`. -/
def forkLoop : Nat → Option α → Option (Option α)
  | _, none => some none
  | 0, some _ => none
  | n + 1, some pindex =>
    if chain.contains tree pindex then some (some pindex) else forkLoop n (tree.pprev pindex)

/-- `CChain::FindFork`. -/
def findFork (pindex : α) : Option (Option α) :=
  if chain.height < tree.nHeight pindex then
    (tree.getAncestor pindex chain.height).bind
      (chain.forkLoop tree ((tree.nHeight pindex).toNat + 1))
  else chain.forkLoop tree ((tree.nHeight pindex).toNat + 1) (some pindex)

/-- `FindForkInGlobalIndex`. -/
def findForkInGlobalIndex (vHave : List α) : Option α :=
  (vHave.find? fun hash => decide (tree.Has hash) && chain.contains tree hash).or chain.genesis

end Operations

/-! ## The vector is a branch -/

variable {tree : LinkTree α} {genesis : α} {chain : CChain α}

omit [DecidableEq α] in
/-- The vector holds an entry and its ancestors, or nothing. -/
def IsBranch (F : Forest α) (vChain : List (Option α)) : Option α → Prop
  | none => vChain = []
  | some tip => vChain.length = F.depth tip + 1 ∧
      ∀ i ≤ F.depth tip, vChain[i]? = some (F.ancestorAt tip i)

omit [DecidableEq α] in
/-- Every entry that is in the vector has its ancestors below. -/
def Closed (F : Forest α) (vChain : List (Option α)) : Prop :=
  ∀ i a, vChain[i]? = some (some a) → ∀ j ≤ i, vChain[j]? = some (F.ancestorAt a j)

omit [DecidableEq α] in
theorem getElem?_resize (vChain : List (Option α)) {n i : Nat} (hi : i < n) :
    (resize vChain n)[i]? = if i < vChain.length then vChain[i]? else some none := by
  rw [resize, List.getElem?_append, List.length_take]
  split_ifs with h1 h2 h2
  · rw [List.getElem?_take_of_lt hi]
  · omega
  · omega
  · rw [List.getElem?_replicate_of_lt (by omega)]

omit [DecidableEq α] in
theorem length_resize (vChain : List (Option α)) (n : Nat) : (resize vChain n).length = n := by
  rw [resize, List.length_append, List.length_take, List.length_replicate]
  omega

omit [DecidableEq α] in
/-- What is left of a branch has all ancestors. -/
theorem IsBranch.closed_resize {F : Forest α} {vChain : List (Option α)} {old : Option α}
    (h : IsBranch F vChain old) (n : Nat) : Closed F (resize vChain n) := by
  intro i a hi j hj
  have hin : i < n := by
    have := (List.getElem?_eq_some_iff.mp hi).1
    rwa [length_resize] at this
  rw [getElem?_resize vChain hin] at hi
  split_ifs at hi with hold
  · rw [getElem?_resize vChain (by omega), if_pos (by omega)]
    cases old with
    | none =>
      rw [h] at hold
      exact absurd hold (Nat.not_lt_zero i)
    | some tip =>
      obtain ⟨hlen, hget⟩ := h
      have hai := (hget i (by omega)).symm.trans hi
      rw [hget j (by omega), Forest.ancestorAt_trans (Option.some.inj hai) hj]
  · cases hi

/-- **The loop of `SetTip`** writes the entry and its ancestors.  Where it stops early, the
rest is in place, because what was in the vector was a branch. -/
theorem fill_spec (h : LinkTree.Linked tree genesis) (n : Nat) {pindex : α}
    {vChain : List (Option α)} (hn : h.forest.depth pindex < n)
    (hlen : h.forest.depth pindex < vChain.length)
    (hclosed : ∀ i ≤ h.forest.depth pindex, ∀ a, vChain[i]? = some (some a) → ∀ j ≤ i,
      vChain[j]? = some (h.forest.ancestorAt a j)) :
    ∃ v, fill tree n (some pindex) vChain = some v ∧ v.length = vChain.length ∧
      (∀ i ≤ h.forest.depth pindex, v[i]? = some (h.forest.ancestorAt pindex i)) ∧
      ∀ i, h.forest.depth pindex < i → v[i]? = vChain[i]? := by
  induction n generalizing pindex vChain with
  | zero => exact absurd hn (Nat.not_lt_zero _)
  | succ n ih =>
    have hheight : (tree.nHeight pindex).toNat = h.forest.depth pindex := rfl
    rw [fill, if_neg (Int.not_lt.mpr (h.nonneg pindex)), hheight, List.getElem?_eq_getElem hlen,
      Option.bind_some]
    by_cases hdone : vChain[h.forest.depth pindex] = some pindex
    · rw [if_pos hdone]
      refine ⟨vChain, rfl, rfl, ?_, fun _ _ => rfl⟩
      exact hclosed _ (Nat.le_refl _) pindex (by rw [List.getElem?_eq_getElem hlen, hdone])
    · rw [if_neg hdone]
      cases hp : h.forest.parent pindex with
      | none =>
        have hroot := h.forest.depth_root hp
        rw [h.forest_parent] at hp
        rw [hp]
        refine ⟨_, by rw [fill], List.length_set, fun i hi => ?_, fun i hi => ?_⟩
        · obtain rfl : i = h.forest.depth pindex := by omega
          rw [List.getElem?_set_self hlen, Forest.ancestorAt_self]
        · rw [List.getElem?_set_ne (by omega)]
      | some b =>
        have hdepth := h.forest.depth_parent hp
        have hbelow : ∀ i ≤ h.forest.depth b,
            (vChain.set (h.forest.depth pindex) (some pindex))[i]? = vChain[i]? :=
          fun i hi => List.getElem?_set_ne (by omega)
        have hin : h.forest.depth b <
            (vChain.set (h.forest.depth pindex) (some pindex)).length := by
          rw [List.length_set]
          omega
        obtain ⟨v, hrun, hvlen, hlow, hhigh⟩ := ih (by omega) hin (fun i hi a ha j hj => by
          rw [hbelow i hi] at ha
          rw [hbelow j (by omega)]
          exact hclosed i (by omega) a ha j hj)
        rw [h.forest_parent] at hp
        refine ⟨v, by rw [hp]; exact hrun, hvlen.trans List.length_set, fun i hi => ?_,
          fun i hi => ?_⟩
        · rcases Nat.eq_or_lt_of_le hi with rfl | hlt
          · rw [hhigh _ (by omega), List.getElem?_set_self hlen, Forest.ancestorAt_self]
          · rw [hlow i (by omega), Forest.ancestorAt_parent (F := h.forest) hp (by omega)]
        · rw [hhigh i (by omega), List.getElem?_set_ne (by omega)]

/-- **`SetTip`** leaves the branch of its entry, whichever branch there was. -/
theorem setTip_spec (h : LinkTree.Linked tree genesis) {old : Option α}
    (hchain : IsBranch h.forest chain.vChain old) (pindex : Option α) :
    ∃ chain', chain.setTip tree pindex = some chain' ∧
      IsBranch h.forest chain'.vChain pindex := by
  cases pindex with
  | none => exact ⟨{}, rfl, rfl⟩
  | some pindex =>
    have hclosed := hchain.closed_resize (h.forest.depth pindex + 1)
    obtain ⟨v, hrun, hlen, hlow, -⟩ := fill_spec h (h.forest.depth pindex + 1)
      (Nat.lt_succ_self _) (by rw [length_resize]; omega) (fun i _ a ha => hclosed i a ha)
    rw [length_resize] at hlen
    refine ⟨⟨v⟩, ?_, hlen, hlow⟩
    rw [setTip]
    exact congrArg (Option.map CChain.mk) hrun

/-- **Every run of `SetTip`** leaves the branch of the last tip. -/
theorem setTips_spec (h : LinkTree.Linked tree genesis) (tips : List (Option α)) :
    ∃ chain, tips.foldlM (fun chain tip => CChain.setTip chain tree tip) {} = some chain ∧
      IsBranch h.forest chain.vChain tips.getLast?.join := by
  induction tips using List.reverseRecOn with
  | nil => exact ⟨{}, rfl, rfl⟩
  | append_singleton tips tip ih =>
    obtain ⟨chain, hrun, hchain⟩ := ih
    obtain ⟨chain', hset, hchain'⟩ := setTip_spec h hchain tip
    refine ⟨chain', ?_, by simpa using hchain'⟩
    rw [List.foldlM_append, hrun]
    simpa using hset

/-! ## Reading the branch -/

section Branch

variable {tip a b p : α} (h : LinkTree.SkipLinked tree genesis)

omit [DecidableEq α] in
theorem get_of_isBranch (hchain : IsBranch h.forest chain.vChain (some tip)) (nHeight : Int) :
    chain.get nHeight = tree.prevAt tip nHeight := by
  obtain ⟨hlen, hget⟩ := hchain
  have hheight := h.nHeight_eq tip
  rw [get]
  split_ifs with hout
  · rw [LinkTree.prevAt, if_neg (by omega)]
  · obtain ⟨n, rfl⟩ := Int.eq_ofNat_of_zero_le (a := nHeight) (by omega)
    rw [Int.toNat_natCast, hget n (by omega), h.prevAt_eq]
    rfl

theorem contains_iff (hchain : IsBranch h.forest chain.vChain (some tip)) :
    chain.contains tree a = true ↔ a ∈ h.forest.lineage tip := by
  rw [contains, get_of_isBranch h hchain, h.nHeight_eq, h.prevAt_eq, beq_iff_eq,
    Forest.mem_lineage_iff]

omit [DecidableEq α] in
theorem mem_vChain_iff (hchain : IsBranch h.forest chain.vChain (some tip)) :
    some a ∈ chain.vChain ↔ a ∈ h.forest.lineage tip := by
  obtain ⟨hlen, hget⟩ := hchain
  constructor
  · intro hmem
    obtain ⟨i, hi⟩ := List.mem_iff_getElem?.mp hmem
    have hin := (List.getElem?_eq_some_iff.mp hi).1
    rw [hget i (by omega)] at hi
    exact Forest.mem_lineage_of_ancestorAt (Option.some.inj hi)
  · intro hmem
    refine List.mem_iff_getElem?.mpr ⟨h.forest.depth a, ?_⟩
    rw [hget _ (Forest.depth_le_of_mem hmem), Forest.mem_lineage_iff.mp hmem]

omit [DecidableEq α] in
theorem height_of_isBranch (hchain : IsBranch h.forest chain.vChain (some tip)) :
    chain.height = tree.nHeight tip := by
  have hlen := hchain.1
  rw [height, h.nHeight_eq]
  omega

/-- The highest entry of the branch that is an ancestor. -/
structure IsFork (F : Forest α) (tip p f : α) : Prop where
  ancestor : f ∈ F.lineage p
  onChain : f ∈ F.lineage tip
  highest : ∀ g, g ∈ F.lineage p → g ∈ F.lineage tip → g ∈ F.lineage f

/-- **The loop of `FindFork`**, from an entry that has a common ancestor with the tip. -/
theorem forkLoop_spec (hchain : IsBranch h.forest chain.vChain (some tip))
    (htip : tree.Has tip) (n : Nat) (ha : tree.Has a) (hn : h.forest.depth a < n) :
    ∃ f, chain.forkLoop tree n (some a) = some (some f) ∧ IsFork h.forest tip a f := by
  induction n generalizing a with
  | zero => exact absurd hn (Nat.not_lt_zero _)
  | succ n ih =>
    rw [forkLoop]
    by_cases hon : chain.contains tree a = true
    · rw [if_pos hon]
      exact ⟨a, rfl, Forest.mem_lineage_self a, (contains_iff h hchain).mp hon,
        fun g hg _ => hg⟩
    · rw [if_neg hon]
      cases hp : h.forest.parent a with
      | none =>
        -- only the genesis block has no parent, and it is on the chain
        obtain rfl : a = genesis := h.root ha hp
        exact absurd ((contains_iff h hchain).mpr (h.genesis_mem htip)) hon
      | some b =>
        have hdepth := h.forest.depth_parent hp
        obtain ⟨f, hrun, hf⟩ := ih (h.child hp).1 (by omega)
        rw [h.forest_parent] at hp
        refine ⟨f, by rw [hp]; exact hrun, ?_, hf.onChain, fun g hg hgt => ?_⟩
        · rw [Forest.lineage_parent (F := h.forest) hp]
          exact List.mem_cons_of_mem _ hf.ancestor
        · rw [Forest.lineage_parent (F := h.forest) hp] at hg
          rcases List.mem_cons.mp hg with rfl | hgb
          · exact absurd ((contains_iff h hchain).mpr hgt) hon
          · exact hf.highest g hgb hgt

/-- **`FindFork`**. -/
theorem findFork_spec (hchain : IsBranch h.forest chain.vChain (some tip))
    (htip : tree.Has tip) (hp : tree.Has p) :
    ∃ f, chain.findFork tree p = some (some f) ∧ IsFork h.forest tip p f := by
  have hheight := h.nHeight_eq p
  have htipHeight := h.nHeight_eq tip
  rw [findFork, height_of_isBranch h hchain]
  split_ifs with hover
  · -- nothing on the chain is above the tip
    obtain ⟨c, hc⟩ := Forest.ancestorAt_isSome (F := h.forest) (a := p)
      (n := h.forest.depth tip) (by omega)
    have hcp := Forest.mem_lineage_of_ancestorAt hc
    have hdepth := Forest.depth_ancestorAt hc
    rw [h.getAncestor_eq hp, Option.bind_some, htipHeight, h.prevAt_eq, hc]
    obtain ⟨f, hrun, hf⟩ := forkLoop_spec h hchain htip ((tree.nHeight p).toNat + 1)
      (h.has_of_mem hp hcp) (by omega)
    refine ⟨f, hrun, Forest.mem_lineage_trans hcp hf.ancestor, hf.onChain, fun g hg hgt => ?_⟩
    have hle := Forest.depth_le_of_mem hgt
    exact hf.highest g (Forest.mem_lineage_of_depth_le hcp hg (by omega)) hgt
  · exact forkLoop_spec h hchain htip _ hp (Nat.lt_succ_self _)

/-! ## Locators -/

/-- An entry of a locator is an ancestor of those before it, and lower. -/
def Lower (F : Forest α) (a b : α) : Prop := b ∈ F.lineage a ∧ F.depth b < F.depth a

theorem locatorNext_eq (hchain : IsBranch h.forest chain.vChain (some tip)) (ha : tree.Has a)
    {n : Nat} (hn : n ≤ h.forest.depth a) :
    chain.locatorNext tree a n = some (h.forest.ancestorAt a n) := by
  rw [locatorNext]
  split_ifs with hon
  · have hanc := Forest.mem_lineage_iff.mp ((contains_iff h hchain).mp hon)
    rw [get_of_isBranch h hchain, h.prevAt_eq, Forest.ancestorAt_trans hanc hn]
  · rw [h.getAncestor_eq ha, h.prevAt_eq]

/-- **The loop of `GetLocator`** adds ancestors in descending order down to the genesis block;
while the step is one, it leaves out none. -/
theorem locatorLoop_spec (hchain : IsBranch h.forest chain.vChain (some tip)) (n : Nat)
    (ha : tree.Has a) (hn : h.forest.depth a < n) {nStep : Int} (hstep : 1 ≤ nStep)
    (vHave : List α) :
    ∃ L, chain.locatorLoop tree n (some a) nStep vHave = some (vHave ++ L) ∧
      L.head? = some a ∧ L.getLast? = some genesis ∧ (∀ b ∈ L, b ∈ h.forest.lineage a) ∧
      L.Pairwise (Lower h.forest) ∧
      (nStep = 1 → ∀ b ∈ h.forest.lineage a,
        vHave.length + h.forest.depth a ≤ h.forest.depth b + 10 → b ∈ L) := by
  induction n generalizing a nStep vHave with
  | zero => exact absurd hn (Nat.not_lt_zero _)
  | succ n ih =>
    rw [locatorLoop, h.nHeight_eq]
    by_cases hzero : (h.forest.depth a : Int) = 0
    · rw [if_pos hzero]
      have hgenesis := h.genesis_mem ha
      have hroot : h.forest.parent a = none := by
        cases hp : h.forest.parent a with
        | none => rfl
        | some b =>
          have := h.forest.depth_parent hp
          omega
      obtain rfl : a = genesis := h.root ha hroot
      refine ⟨[a], rfl, rfl, rfl, fun b hb => ?_, List.pairwise_singleton _ _, fun _ b hb _ => ?_⟩
      · rw [List.mem_singleton.mp hb]
        exact hgenesis
      · rwa [Forest.lineage_root hroot] at hb
    · rw [if_neg hzero]
      obtain ⟨m, hm⟩ := Int.eq_ofNat_of_zero_le
        (a := max ((h.forest.depth a : Int) - nStep) 0) (by omega)
      have hlt : m < h.forest.depth a := by omega
      obtain ⟨c, hc⟩ := Forest.ancestorAt_isSome hlt.le
      have hca := Forest.mem_lineage_of_ancestorAt hc
      have hcdepth := Forest.depth_ancestorAt hc
      rw [hm, locatorNext_eq h hchain ha hlt.le, hc, Option.bind_some]
      have hstep' : 1 ≤ if 10 < (vHave ++ [a]).length then nStep * 2 else nStep := by
        split_ifs <;> omega
      obtain ⟨L, hrun, hhead, hlast, hmem, hpair, hall⟩ :=
        ih (h.has_of_mem ha hca) (by omega) hstep' (vHave ++ [a])
      refine ⟨a :: L, by rw [hrun, List.append_assoc]; rfl, rfl, ?_, ?_, ?_, ?_⟩
      · rw [List.getLast?_cons, hlast]
        rfl
      · intro b hb
        rcases List.mem_cons.mp hb with rfl | hb
        · exact Forest.mem_lineage_self b
        · exact Forest.mem_lineage_trans hca (hmem b hb)
      · refine List.pairwise_cons.mpr ⟨fun b hb => ⟨Forest.mem_lineage_trans hca (hmem b hb), ?_⟩,
          hpair⟩
        have := Forest.depth_le_of_mem (hmem b hb)
        omega
      · intro hone b hb hnear
        by_cases hba : b = a
        · exact hba ▸ List.mem_cons_self
        · -- the next entry is the parent, which has `b` below it
          have hle := Forest.depth_le_of_mem hb
          have hne : h.forest.depth b ≠ h.forest.depth a := fun heq =>
            hba (Forest.eq_of_mem_lineage hb (Forest.mem_lineage_self a) heq)
          have hbc := Forest.mem_lineage_of_depth_le hca hb (by omega)
          refine List.mem_cons_of_mem _ (hall ?_ b hbc ?_)
          · rw [if_neg (by rw [List.length_append, List.length_singleton]; omega), hone]
          · rw [List.length_append, List.length_singleton]
            omega

/-- The first entry of a locator that is on the chain. -/
theorem findForkInGlobalIndex_spec (hchain : IsBranch h.forest chain.vChain (some tip))
    (htip : tree.Has tip) {L : List α} {f : α}
    (hf : IsFork h.forest tip p f) (hlast : L.getLast? = some genesis)
    (hmem : ∀ b ∈ L, b ∈ h.forest.lineage p) (hpair : L.Pairwise (Lower h.forest)) :
    ∃ g, chain.findForkInGlobalIndex tree L = some g ∧ g ∈ h.forest.lineage p ∧
      g ∈ h.forest.lineage tip ∧ (f ∈ L → g = f) := by
  have htest : ∀ b, (decide (tree.Has b) && chain.contains tree b) = true ↔
      b ∈ h.forest.lineage tip := by
    intro b
    rw [Bool.and_eq_true, decide_eq_true_eq, contains_iff h hchain]
    exact ⟨And.right, fun hb => ⟨h.has_of_mem htip hb, hb⟩⟩
  rw [findForkInGlobalIndex]
  cases hfind : L.find? fun hash => decide (tree.Has hash) && chain.contains tree hash with
  | none =>
    have hgenesis := List.find?_eq_none.mp hfind genesis (List.mem_of_getLast? hlast)
    exact absurd ((htest genesis).mpr (h.genesis_mem htip)) hgenesis
  | some g =>
    have hgL := List.mem_of_find?_eq_some hfind
    have htrue := List.find?_some hfind
    have hgt := (htest g).mp htrue
    refine ⟨g, rfl, hmem g hgL, hgt, fun hfL => ?_⟩
    -- the fork is not before `g`, and what comes after `g` is lower
    obtain ⟨-, before, after, hL, hbefore⟩ := List.find?_eq_some_iff_append.mp hfind
    rw [hL] at hfL hpair
    rcases List.mem_append.mp hfL with hfb | hfa
    · have hno := hbefore f hfb
      rw [(htest f).mpr hf.onChain] at hno
      cases hno
    · rcases List.mem_cons.mp hfa with rfl | hfa
      · rfl
      · have hlower := (List.pairwise_cons.mp (List.pairwise_append.mp hpair).2.1).1 f hfa
        have hle := Forest.depth_le_of_mem (hf.highest g (hmem g hgL) hgt)
        have := hlower.2
        omega

end Branch

/-- **The active chain.**  After any calls of `SetTip` the vector holds the branch of the last
tip and nothing else; `FindFork` is the highest common ancestor; a locator descends from its
entry to the genesis block, and its first entry on the chain is the fork when that is at most
ten blocks down. -/
theorem chain_of_run (genesis : α) (blocks : List (α × α)) :
    ∃ tree, LinkTree.build genesis blocks = some tree ∧
      ∀ tips : List (Option α), (∀ t, some t ∈ tips → tree.Has t) →
      ∃ chain, tips.foldlM (fun chain tip => CChain.setTip chain tree tip) {} = some chain ∧
        (tips.getLast?.join = none → chain.vChain = []) ∧
        ∀ tip, tips.getLast?.join = some tip →
          chain.vChain.length = tree.nHeight tip + 1 ∧
          (∀ height, chain.get height = tree.prevAt tip height) ∧
          ∀ p, tree.Has p → ∃ f, chain.findFork tree p = some (some f) ∧
            tree.IsAncestor f p ∧ some f ∈ chain.vChain ∧
            (∀ g, tree.IsAncestor g p → some g ∈ chain.vChain →
              tree.nHeight g ≤ tree.nHeight f) ∧
            ∃ L, chain.getLocator tree (some p) = some L ∧ L.head? = some p ∧
              L.Pairwise (fun a b => tree.IsAncestor b a ∧ tree.nHeight b < tree.nHeight a) ∧
              L.getLast? = some genesis ∧
              ∃ g, chain.findForkInGlobalIndex tree L = some g ∧ tree.IsAncestor g p ∧
                some g ∈ chain.vChain ∧ (tree.nHeight p ≤ tree.nHeight f + 10 → g = f) := by
  obtain ⟨tree, hbuild, h⟩ := LinkTree.skipLinked_build genesis blocks
  refine ⟨tree, hbuild, fun tips htips => ?_⟩
  obtain ⟨chain, hrun, hchain⟩ := setTips_spec h.toLinked tips
  refine ⟨chain, hrun, fun hnone => by rwa [hnone] at hchain, fun tip hlast => ?_⟩
  rw [hlast] at hchain
  have htip : tree.Has tip :=
    htips tip (List.mem_of_getLast? (Option.join_eq_some_iff.mp hlast))
  refine ⟨by rw [h.nHeight_eq, hchain.1]; rfl, get_of_isBranch h hchain, fun p hp => ?_⟩
  obtain ⟨f, hfork, hf⟩ := findFork_spec h hchain htip hp
  obtain ⟨L, hloc, hhead, hend, hmem, hpair, hall⟩ :=
    locatorLoop_spec h hchain ((tree.nHeight p).toNat + 1) hp (Nat.lt_succ_self _)
      (Int.le_refl 1) []
  obtain ⟨g, hfind, hgp, hgt, hgf⟩ :=
    findForkInGlobalIndex_spec h hchain htip hf hend hmem hpair
  refine ⟨f, hfork, h.isAncestor_iff.mpr hf.ancestor, (mem_vChain_iff h hchain).mpr hf.onChain,
    fun c hc hct => ?_, L, hloc, hhead, ?_, hend, g, hfind, h.isAncestor_iff.mpr hgp,
    (mem_vChain_iff h hchain).mpr hgt, fun hnear => hgf (hall rfl f hf.ancestor ?_)⟩
  · have hle := Forest.depth_le_of_mem (hf.highest c (h.isAncestor_iff.mp hc)
      ((mem_vChain_iff h hchain).mp hct))
    rw [h.nHeight_eq, h.nHeight_eq]
    omega
  · refine hpair.imp fun {a b} hlower => ⟨h.isAncestor_iff.mpr hlower.1, ?_⟩
    have := hlower.2
    rw [h.nHeight_eq, h.nHeight_eq]
    omega
  · rw [h.nHeight_eq, h.nHeight_eq] at hnear
    rw [List.length_nil]
    omega

/-- Two branches over the genesis block, and the fork of the one that was left. -/
example : ((LinkTree.build 0 [(1, 0), (2, 1), (3, 0), (4, 3), (5, 4)]).bind fun tree =>
    ([some 2, some 5].foldlM (fun chain tip => CChain.setTip chain tree tip) {}).bind fun chain =>
      (chain.findFork tree 2).map fun f => (chain.vChain, f)) =
    some ([some 0, some 3, some 4, some 5], some 0) := by
  decide

end CChain

end Hivemind
