import Hivemind.Chain.SkipList
import Mathlib.Logic.Function.Basic

/-!
# The tree of the block index, with its pointers

The pointers of `CBlockIndex` as `AddToBlockIndex` sets them: the parent, the height over it, and
the skip pointer that `BuildSkip` finds from the parent.  Entries are named by any type.

`BuildSkip` calls `GetAncestor` of the parent, which follows the skip pointers of the entries
below: the pointers of an entry are right because those of its ancestors are, and so on down.
`SkipLinked` is the invariant that carries this, over all trees that are built entry by entry,
and the statement about `GetAncestor` is a consequence of it.  A null pointer that is followed is
`none`, so that every equation here also says that none is.

The entries form a rooted forest in the sense of the library, whose depth is the height;
ancestors are compared there.

* `Linked`, `Linked.forest`: the entries form a forest whose depth is the height.
* `Linked.prevs_eq`, `Linked.prevAt_eq`: following `pprev` leads to the ancestors.
* `SkipLinked.addBlock`: a new entry keeps all pointers right.
* `getAncestor_of_build`: **what `GetAncestor` returns** in every tree.
-/

namespace Hivemind

open Forests

/-- The fields of `CBlockIndex` that place an entry in the tree. -/
structure BlockLinks (α : Type) where
  pprev : Option α := none
  pskip : Option α := none
  nHeight : Int := 0

/-- The entries of the block index. -/
structure LinkTree (α : Type) where
  find : α → Option (BlockLinks α)

namespace LinkTree

variable {α : Type}

/-! ## The operations -/

def pprev (tree : LinkTree α) (pindex : α) : Option α :=
  (tree.find pindex).bind BlockLinks.pprev

def pskip (tree : LinkTree α) (pindex : α) : Option α :=
  (tree.find pindex).bind BlockLinks.pskip

def nHeight (tree : LinkTree α) (pindex : α) : Int :=
  ((tree.find pindex).map BlockLinks.nHeight).getD 0

/-- `pindex` is an entry of the tree. -/
def Has (tree : LinkTree α) (pindex : α) : Prop := (tree.find pindex).isSome = true

instance instDecidableHas (tree : LinkTree α) (pindex : α) : Decidable (tree.Has pindex) :=
  inferInstanceAs (Decidable (_ = true))

/-- `CBlockIndex::GetAncestor`; `none` outside is a null pointer that is read. -/
def getAncestor (tree : LinkTree α) (pindex : α) (height : Int) : Option (Option α) :=
  if tree.nHeight pindex < height ∨ height < 0 then some none
  else walkAncestor tree.pprev tree.pskip height.toNat (tree.nHeight pindex).toNat
    (tree.nHeight pindex).toNat (some pindex)

/-- `CBlockIndex::BuildSkip`, for an entry at `nHeight`. -/
def buildSkip (tree : LinkTree α) (pprev : α) (nHeight : Int) : Option (Option α) :=
  tree.getAncestor pprev (getSkipHeight nHeight.toNat)

section Build

variable [DecidableEq α]

/-- The tree with one more entry. -/
def put (tree : LinkTree α) (pindex : α) (links : BlockLinks α) : LinkTree α where
  find := Function.update tree.find pindex (some links)

/-- A new entry under `pprev`: its parent, its height and its skip pointer.  What is in the
tree already or has no parent there is not added. -/
def addBlock (tree : LinkTree α) (pindexNew pprev : α) : Option (LinkTree α) :=
  if tree.Has pindexNew ∨ ¬ tree.Has pprev then some tree
  else (tree.buildSkip pprev (tree.nHeight pprev + 1)).map fun pskip =>
    tree.put pindexNew { pprev := some pprev, pskip, nHeight := tree.nHeight pprev + 1 }

/-- The tree of the genesis block alone. -/
def genesisTree (genesis : α) : LinkTree α where
  find := Function.update (fun _ => none) genesis (some {})

/-- The tree after the given entries, each with its parent. -/
def build (genesis : α) (blocks : List (α × α)) : Option (LinkTree α) :=
  blocks.foldlM (fun tree block => tree.addBlock block.1 block.2) (genesisTree genesis)

end Build

/-- Follow `pprev` a number of times. -/
def prevs (tree : LinkTree α) : Nat → α → Option α
  | 0, pindex => some pindex
  | n + 1, pindex => (tree.pprev pindex).bind (tree.prevs n)

/-- The entry that is reached by following `pprev` until a height. -/
def prevAt (tree : LinkTree α) (pindex : α) (height : Int) : Option α :=
  if 0 ≤ height ∧ height ≤ tree.nHeight pindex then
    tree.prevs (tree.nHeight pindex - height).toNat pindex
  else none

/-- `a` is reached from `b` over `pprev`; an entry is an ancestor of itself. -/
def IsAncestor (tree : LinkTree α) (a b : α) : Prop := ∃ n, tree.prevs n b = some a

/-! ## The forest -/

/-- The heights count the blocks down to the one entry without a parent. -/
structure Linked (tree : LinkTree α) (genesis : α) : Prop where
  has_genesis : tree.Has genesis
  root : ∀ {a}, tree.Has a → tree.pprev a = none → a = genesis
  root_height : ∀ {a}, tree.pprev a = none → tree.nHeight a = 0
  child : ∀ {a b}, tree.pprev a = some b → tree.Has b ∧ tree.nHeight a = tree.nHeight b + 1
  nonneg : ∀ a, 0 ≤ tree.nHeight a

variable {tree : LinkTree α} {genesis a b : α}

/-- The forest of the entries. -/
def Linked.forest (h : Linked tree genesis) : Forest α where
  parent := tree.pprev
  depth a := (tree.nHeight a).toNat
  depth_root := fun hroot => by rw [h.root_height hroot]; rfl
  depth_parent := fun {a b} hchild => by
    have := (h.child hchild).2
    have := h.nonneg b
    omega

@[simp] theorem Linked.forest_parent (h : Linked tree genesis) (a : α) :
    h.forest.parent a = tree.pprev a := rfl

theorem Linked.nHeight_eq (h : Linked tree genesis) (a : α) :
    tree.nHeight a = h.forest.depth a := (Int.toNat_of_nonneg (h.nonneg a)).symm

/-- An entry reached by `pprev` is an ancestor. -/
theorem Linked.prevs_eq (h : Linked tree genesis) {n : Nat} (a : α) (hn : n ≤ h.forest.depth a) :
    tree.prevs n a = h.forest.ancestorAt a (h.forest.depth a - n) := by
  induction n generalizing a with
  | zero => rw [prevs, Nat.sub_zero, Forest.ancestorAt_self]
  | succ n ih =>
    cases hp : h.forest.parent a with
    | none =>
      have := h.forest.depth_root hp
      omega
    | some b =>
      have hdepth := h.forest.depth_parent hp
      have hn' : n ≤ h.forest.depth b := by omega
      rw [prevs, ← h.forest_parent, hp, Option.bind_some, ih b hn',
        Forest.ancestorAt_parent hp (by omega)]
      congr 1
      omega

/-- The spelling with heights, for `prevAt`. -/
theorem Linked.prevAt_eq (h : Linked tree genesis) (a : α) (n : Nat) :
    tree.prevAt a n = h.forest.ancestorAt a n := by
  rw [prevAt, h.nHeight_eq]
  by_cases hn : n ≤ h.forest.depth a
  · rw [if_pos (by omega), h.prevs_eq a (by omega)]
    congr 1
    omega
  · rw [if_neg (by omega), Forest.ancestorAt, if_neg hn]

theorem Linked.isAncestor_iff (h : Linked tree genesis) :
    tree.IsAncestor a b ↔ a ∈ h.forest.lineage b := by
  constructor
  · rintro ⟨n, hn⟩
    induction n generalizing b with
    | zero =>
      cases hn
      exact Forest.mem_lineage_self _
    | succ n ih =>
      obtain ⟨c, hc, hn⟩ := Option.bind_eq_some_iff.mp hn
      rw [Forest.lineage_parent (F := h.forest) hc]
      exact List.mem_cons_of_mem _ (ih hn)
  · intro hmem
    have hle := Forest.depth_le_of_mem hmem
    refine ⟨h.forest.depth b - h.forest.depth a, ?_⟩
    rw [h.prevs_eq b (Nat.sub_le _ _), Nat.sub_sub_self hle]
    exact Forest.mem_lineage_iff.mp hmem

/-- Every entry descends from the genesis block. -/
theorem Linked.genesis_mem (h : Linked tree genesis) (ha : tree.Has a) :
    genesis ∈ h.forest.lineage a := by
  revert ha
  refine Forest.induction (F := h.forest)
    (P := fun a => tree.Has a → genesis ∈ h.forest.lineage a) ?_ a
  intro a ih ha
  cases hp : h.forest.parent a with
  | none =>
    rw [Forest.lineage_root hp, List.mem_singleton]
    exact (h.root ha hp).symm
  | some b =>
    rw [Forest.lineage_parent hp]
    exact List.mem_cons_of_mem _ (ih b hp (h.child hp).1)

/-- The ancestors of an entry are entries. -/
theorem Linked.has_of_mem (h : Linked tree genesis) (ha : tree.Has a)
    (hb : b ∈ h.forest.lineage a) : tree.Has b := by
  revert ha hb
  refine Forest.induction (F := h.forest)
    (P := fun a => tree.Has a → b ∈ h.forest.lineage a → tree.Has b) ?_ a
  intro a ih ha hb
  cases hp : h.forest.parent a with
  | none =>
    rw [Forest.lineage_root hp, List.mem_singleton] at hb
    exact hb ▸ ha
  | some c =>
    rw [Forest.lineage_parent hp] at hb
    rcases List.mem_cons.mp hb with rfl | hbc
    · exact ha
    · exact ih c hp (h.child hp).1 hbc

/-! ## The skip pointers -/

/-- All pointers are right. -/
structure SkipLinked (tree : LinkTree α) (genesis : α) : Prop extends Linked tree genesis where
  skip : ∀ a, tree.pskip a = skipOf toLinked.forest a

theorem SkipLinked.goodPointers (h : SkipLinked tree genesis) :
    GoodPointers h.forest tree.pprev tree.pskip tree.Has :=
  ⟨fun _ hp => (h.child hp).1, fun _ => rfl, fun {a} _ => h.skip a⟩

/-- **`GetAncestor`** where all pointers are right. -/
theorem SkipLinked.getAncestor_eq (h : SkipLinked tree genesis) (ha : tree.Has a) (height : Int) :
    tree.getAncestor a height = some (tree.prevAt a height) := by
  rw [getAncestor]
  split_ifs with hout
  · rw [prevAt, if_neg (by omega)]
  · obtain ⟨n, rfl⟩ := Int.eq_ofNat_of_zero_le (a := height) (by omega)
    have hdepth := h.nHeight_eq a
    rw [h.prevAt_eq, Int.toNat_natCast, hdepth, Int.toNat_natCast,
      walkAncestor_eq h.goodPointers ha (by omega) (Nat.le_refl _)]

section Build

variable [DecidableEq α]

theorem skipLinked_genesisTree (genesis : α) : SkipLinked (genesisTree genesis) genesis := by
  have hprev : ∀ a, (genesisTree genesis).pprev a = none := by
    intro a
    by_cases h : a = genesis <;> simp [genesisTree, pprev, h]
  have hheight : ∀ a, (genesisTree genesis).nHeight a = 0 := by
    intro a
    by_cases h : a = genesis <;> simp [genesisTree, nHeight, h]
  refine ⟨⟨by simp [genesisTree, Has], fun {a} ha _ => ?_, fun {a} _ => hheight a,
    fun {a b} h => ?_, fun a => Int.le_of_eq (hheight a).symm⟩, fun a => ?_⟩
  · by_contra hne
    simp [genesisTree, Has, Function.update_of_ne hne] at ha
  · rw [hprev] at h
    cases h
  · rw [skipOf, Linked.forest_parent, hprev, Option.bind_none]
    by_cases h : a = genesis <;> simp [genesisTree, pskip, h]

variable {x : α} {links : BlockLinks α}

@[simp] theorem has_put : (tree.put x links).Has a ↔ a = x ∨ tree.Has a := by
  by_cases h : a = x <;> simp [put, Has, h]

@[simp] theorem pprev_put_self : (tree.put x links).pprev x = links.pprev := by
  simp [put, pprev]

@[simp] theorem pskip_put_self : (tree.put x links).pskip x = links.pskip := by
  simp [put, pskip]

@[simp] theorem nHeight_put_self : (tree.put x links).nHeight x = links.nHeight := by
  simp [put, nHeight]

theorem find_put_of_ne (h : a ≠ x) : (tree.put x links).find a = tree.find a :=
  Function.update_of_ne h _ _

theorem pprev_put_of_ne (h : a ≠ x) : (tree.put x links).pprev a = tree.pprev a := by
  rw [pprev, pprev, find_put_of_ne h]

theorem pskip_put_of_ne (h : a ≠ x) : (tree.put x links).pskip a = tree.pskip a := by
  rw [pskip, pskip, find_put_of_ne h]

theorem nHeight_put_of_ne (h : a ≠ x) : (tree.put x links).nHeight a = tree.nHeight a := by
  rw [nHeight, nHeight, find_put_of_ne h]

/-- A new entry over one of the tree. -/
theorem Linked.put (h : Linked tree genesis) (hx : ¬ tree.Has x) (hb : tree.Has b)
    (hprev : links.pprev = some b) (hheight : links.nHeight = tree.nHeight b + 1) :
    Linked (tree.put x links) genesis := by
  have hne : ∀ {a}, tree.Has a → a ≠ x := fun ha heq => hx (heq ▸ ha)
  refine ⟨has_put.mpr (Or.inr h.has_genesis), fun {a} ha hp => ?_, fun {a} hp => ?_,
    fun {a c} hp => ?_, fun a => ?_⟩
  · by_cases hax : a = x
    · subst hax
      rw [pprev_put_self, hprev] at hp
      cases hp
    · rw [pprev_put_of_ne hax] at hp
      exact h.root ((has_put.mp ha).resolve_left hax) hp
  · by_cases hax : a = x
    · subst hax
      rw [pprev_put_self, hprev] at hp
      cases hp
    · rw [pprev_put_of_ne hax] at hp
      rw [nHeight_put_of_ne hax, h.root_height hp]
  · by_cases hax : a = x
    · subst hax
      rw [pprev_put_self, hprev] at hp
      cases hp
      exact ⟨has_put.mpr (Or.inr hb), by rw [nHeight_put_self, nHeight_put_of_ne (hne hb), hheight]⟩
    · rw [pprev_put_of_ne hax] at hp
      obtain ⟨hc, hdepth⟩ := h.child hp
      exact ⟨has_put.mpr (Or.inr hc), by
        rw [nHeight_put_of_ne hax, nHeight_put_of_ne (hne hc), hdepth]⟩
  · by_cases hax : a = x
    · subst hax
      have := h.nonneg b
      rw [nHeight_put_self, hheight]
      omega
    · rw [nHeight_put_of_ne hax]
      exact h.nonneg a

/-- The new entry changes no ancestors of the old ones. -/
theorem Linked.ancestorAt_put (h : Linked tree genesis) (h' : Linked (tree.put x links) genesis)
    (hx : ¬ tree.Has x) (ha : tree.Has a) (n : Nat) :
    h'.forest.ancestorAt a n = h.forest.ancestorAt a n := by
  have hne : ∀ {a}, tree.Has a → a ≠ x := fun ha heq => hx (heq ▸ ha)
  refine Forest.ancestorAt_congr (P := tree.Has) (fun _ hp => (h.child hp).1)
    (fun hc => pprev_put_of_ne (hne hc)) (fun {c} hc => ?_) ha n
  show ((tree.put x links).nHeight c).toNat = (tree.nHeight c).toNat
  rw [nHeight_put_of_ne (hne hc)]

/-- **A new entry** keeps all pointers right, and its own are found. -/
theorem SkipLinked.addBlock (h : SkipLinked tree genesis) (x b : α) :
    ∃ tree', tree.addBlock x b = some tree' ∧ SkipLinked tree' genesis := by
  rw [LinkTree.addBlock]
  split_ifs with hold
  · exact ⟨tree, rfl, h⟩
  · rw [not_or, not_not] at hold
    obtain ⟨hx, hb⟩ := hold
    rw [buildSkip, h.getAncestor_eq hb, Option.map_some]
    refine ⟨_, rfl, ?_⟩
    have h' : Linked (tree.put x
        { pprev := some b
          pskip := tree.prevAt b (getSkipHeight (tree.nHeight b + 1).toNat)
          nHeight := tree.nHeight b + 1 }) genesis := h.toLinked.put hx hb rfl rfl
    have hne : ∀ {a}, tree.Has a → a ≠ x := fun ha heq => hx (heq ▸ ha)
    refine ⟨h', fun a => ?_⟩
    by_cases hax : a = x
    · subst hax
      have hdepth : h'.forest.depth a = (tree.nHeight b + 1).toNat :=
        congrArg Int.toNat nHeight_put_self
      rw [pskip_put_self, skipOf, Linked.forest_parent, pprev_put_self, Option.bind_some,
        h.ancestorAt_put h' hx hb, hdepth, h.prevAt_eq]
    · rw [pskip_put_of_ne hax, h.skip, skipOf, skipOf, Linked.forest_parent,
        Linked.forest_parent, pprev_put_of_ne hax]
      have hdepth : h'.forest.depth a = h.forest.depth a :=
        congrArg Int.toNat (nHeight_put_of_ne hax)
      cases hp : tree.pprev a with
      | none => rfl
      | some c =>
        rw [Option.bind_some, Option.bind_some, hdepth,
          h.ancestorAt_put h' hx (h.child hp).1]

/-- **Every tree that is built** has all pointers right. -/
theorem skipLinked_build (genesis : α) (blocks : List (α × α)) :
    ∃ tree, build genesis blocks = some tree ∧ SkipLinked tree genesis := by
  have hpass : ∀ (blocks : List (α × α)) (tree : LinkTree α), SkipLinked tree genesis →
      ∃ tree', blocks.foldlM (fun tree block => tree.addBlock block.1 block.2) tree =
        some tree' ∧ SkipLinked tree' genesis := by
    intro blocks
    induction blocks with
    | nil => exact fun tree h => ⟨tree, rfl, h⟩
    | cons block blocks ih =>
      intro tree h
      obtain ⟨tree₁, hadd, h₁⟩ := h.addBlock block.1 block.2
      obtain ⟨tree₂, hrest, h₂⟩ := ih tree₁ h₁
      exact ⟨tree₂, by rw [List.foldlM_cons, hadd]; exact hrest, h₂⟩
  exact hpass blocks _ (skipLinked_genesisTree genesis)

/-- **The skip list is the list of the parents.**  No pointer that is followed while a tree is
built is null, and then `GetAncestor` returns the entry that is found over `pprev`, at the
height that was asked for, or `NULL` for heights that the entry has not. -/
theorem getAncestor_of_build (genesis : α) (blocks : List (α × α)) :
    ∃ tree, build genesis blocks = some tree ∧ ∀ b, tree.Has b → ∀ height : Int,
      tree.getAncestor b height = some (tree.prevAt b height) ∧
        (0 ≤ height → height ≤ tree.nHeight b →
          ∃ a, tree.prevAt b height = some a ∧ tree.Has a ∧ tree.nHeight a = height) := by
  obtain ⟨tree, hbuild, h⟩ := skipLinked_build genesis blocks
  refine ⟨tree, hbuild, fun b hb height => ⟨h.getAncestor_eq hb height, fun h0 hle => ?_⟩⟩
  obtain ⟨n, rfl⟩ := Int.eq_ofNat_of_zero_le h0
  have hheight := h.nHeight_eq b
  obtain ⟨a, ha⟩ := Forest.ancestorAt_isSome (F := h.forest) (a := b) (n := n) (by omega)
  refine ⟨a, by rw [h.prevAt_eq, ha], h.has_of_mem hb (Forest.mem_lineage_of_ancestorAt ha), ?_⟩
  rw [h.nHeight_eq, Forest.depth_ancestorAt ha]

/-- A chain of four blocks, and the block at height 1 from the one at height 3. -/
example : ((build 0 [(1, 0), (2, 1), (3, 2)]).bind fun tree => tree.getAncestor 3 1) =
    some (some 1) := by
  decide

end Build

end LinkTree

end Hivemind
