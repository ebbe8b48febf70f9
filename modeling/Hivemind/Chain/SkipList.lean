import Hivemind.Lib.Forest
import Mathlib.Data.Nat.Bitwise

/-!
# The skip list of the block index

`chain.cpp`: every entry has a pointer to its parent and one further back, and `GetAncestor`
takes the one that does not overshoot.

The height to which the skip pointer of a block leads is a function of the height alone, by two
bit operations.  `GetAncestor` compares this height with the one it looks for, and once more with
the skip height of the parent, to decide whether one step down and a skip from there is better.
For the result to be right none of this matters but that a pointer is only followed when it does
not lead below the height that is looked for; the rest is a question of speed.

The pointers are hypotheses in this module: `GoodPointers` says that they are right on a set of
nodes with its ancestors, which is what a tree under construction has.

* `getSkipHeight_lt`: the pointers go back, so the walk ends.
* `skipOf_spec`: where a skip pointer has to lead.
* `getAncestor_eq`: **with correct pointers `GetAncestor` finds the ancestor.**
-/

namespace Hivemind

open Forests

/-- `InvertLowestOne`: turn the lowest 1 bit into a 0. -/
def invertLowestOne (n : Nat) : Nat := n &&& (n - 1)

/-- `GetSkipHeight`: the height that the skip pointer of a block leads to. -/
def getSkipHeight (height : Nat) : Nat :=
  if height < 2 then 0
  else if height % 2 = 1 then invertLowestOne (invertLowestOne (height - 1)) + 1
  else invertLowestOne height

theorem invertLowestOne_le (n : Nat) : invertLowestOne n ≤ n - 1 := Nat.and_le_right

/-- The skip pointers go back. -/
theorem getSkipHeight_lt {height : Nat} (h : 0 < height) : getSkipHeight height < height := by
  have hone := invertLowestOne_le (height - 1)
  have htwo := invertLowestOne_le (invertLowestOne (height - 1))
  have heven := invertLowestOne_le height
  unfold getSkipHeight
  split_ifs <;> omega

section Ancestors

variable {α : Type} (pprev pskip : α → Option α)

/-- `GetAncestor` follows `pskip` from this height, because the pointer does not overshoot
and the one of the parent is not better. -/
def followsSkip (height heightWalk : Nat) : Bool :=
  let heightSkip := getSkipHeight heightWalk
  let heightSkipPrev := getSkipHeight (heightWalk - 1)
  heightSkip == height ||
    (height < heightSkip && !(heightSkipPrev + 2 < heightSkip && height ≤ heightSkipPrev))

/-- The loop of `GetAncestor`, which goes down with every turn; `none` outside is a null
pointer that is read. -/
def walkAncestor (height : Nat) : Nat → Nat → Option α → Option (Option α)
  | 0, heightWalk, pindexWalk => if heightWalk ≤ height then some pindexWalk else none
  | n + 1, heightWalk, pindexWalk =>
    if heightWalk ≤ height then some pindexWalk
    else match pindexWalk with
      | none => none
      | some a =>
        if followsSkip height heightWalk then
          walkAncestor height n (getSkipHeight heightWalk) (pskip a)
        else walkAncestor height n (heightWalk - 1) (pprev a)

/-- `CBlockIndex::GetAncestor`, of an entry at `nHeight`. -/
def getAncestor (nHeight : Int) (height : Nat) (pindex : α) : Option (Option α) :=
  if nHeight < height then some none
  else walkAncestor pprev pskip height nHeight.toNat nHeight.toNat (some pindex)

/-- Where the skip pointer of a node has to lead. -/
def skipOf (F : Forest α) (a : α) : Option α :=
  (F.parent a).bind fun b => F.ancestorAt b (getSkipHeight (F.depth a))

variable {pprev pskip} {F : Forest α} {a b : α}

theorem skipOf_eq_ancestorAt (h : F.parent a = some b) :
    skipOf F a = F.ancestorAt a (getSkipHeight (F.depth a)) := by
  have hdepth := F.depth_parent h
  have hskip := @getSkipHeight_lt (F.depth a) (by omega)
  rw [skipOf, h, Option.bind_some, Forest.ancestorAt_parent h (by omega)]

/-- The skip pointer leads to an ancestor at the skip height. -/
theorem skipOf_spec (h : F.parent a = some b) :
    ∃ c, skipOf F a = some c ∧ c ∈ F.lineage b ∧ F.depth c = getSkipHeight (F.depth a) := by
  have hdepth := F.depth_parent h
  have hskip := @getSkipHeight_lt (F.depth a) (by omega)
  obtain ⟨c, hc⟩ := Forest.ancestorAt_isSome (F := F) (a := b) (n := getSkipHeight (F.depth a))
    (by omega)
  refine ⟨c, ?_, Forest.mem_lineage_of_ancestorAt hc, Forest.depth_ancestorAt hc⟩
  rw [skipOf, h, Option.bind_some, hc]

/-- The pointers are right on a set of nodes that has the ancestors of its members. -/
structure GoodPointers (F : Forest α) (pprev pskip : α → Option α) (P : α → Prop) : Prop where
  closed : ∀ {a b}, P a → F.parent a = some b → P b
  prev : ∀ {a}, P a → pprev a = F.parent a
  skip : ∀ {a}, P a → pskip a = skipOf F a

theorem GoodPointers.ancestorAt {P : α → Prop} (h : GoodPointers F pprev pskip P) {n : Nat}
    (ha : P a) (hb : F.ancestorAt a n = some b) : P b := by
  revert ha hb
  refine Forest.induction (F := F) (P := fun a => P a → F.ancestorAt a n = some b → P b) ?_ a
  intro a ih ha hb
  have hle := Forest.le_depth_of_ancestorAt hb
  by_cases hn : n = F.depth a
  · rw [hn, Forest.ancestorAt_self] at hb
    cases hb
    exact ha
  · cases hp : F.parent a with
    | none =>
      have := F.depth_root hp
      omega
    | some c =>
      have := F.depth_parent hp
      exact ih c hp (h.closed ha hp) ((Forest.ancestorAt_parent hp (by omega)).symm.trans hb)

/-- The walk keeps the ancestor that it looks for. -/
theorem walkAncestor_eq {P : α → Prop} (h : GoodPointers F pprev pskip P) {height : Nat} :
    ∀ {n a}, P a → height ≤ F.depth a → F.depth a ≤ n →
      walkAncestor pprev pskip height n (F.depth a) (some a) = some (F.ancestorAt a height) := by
  intro n
  induction n with
  | zero =>
    intro a _ hle hn
    have heq : height = F.depth a := by omega
    rw [walkAncestor, if_pos (by omega), heq, Forest.ancestorAt_self]
  | succ n ih =>
    intro a ha hle hn
    rw [walkAncestor]
    by_cases hdone : F.depth a ≤ height
    · have heq : height = F.depth a := by omega
      rw [if_pos hdone, heq, Forest.ancestorAt_self]
    rw [if_neg hdone]
    cases hp : F.parent a with
    | none =>
      have := F.depth_root hp
      omega
    | some b =>
      have hdepth := F.depth_parent hp
      by_cases hfollow : followsSkip height (F.depth a) = true
      · rw [if_pos hfollow, h.skip ha]
        obtain ⟨c, hc, -, hcdepth⟩ := skipOf_spec hp
        have hskip := @getSkipHeight_lt (F.depth a) (by omega)
        have hheight : height ≤ getSkipHeight (F.depth a) := by
          simp only [followsSkip, Bool.or_eq_true, beq_iff_eq, Bool.and_eq_true,
            decide_eq_true_eq] at hfollow
          omega
        have hanc : F.ancestorAt a (getSkipHeight (F.depth a)) = some c :=
          (skipOf_eq_ancestorAt hp).symm.trans hc
        rw [hc, ← hcdepth, ih (h.ancestorAt ha hanc) (by omega) (by omega),
          Forest.ancestorAt_trans hanc hheight]
      · rw [if_neg hfollow, h.prev ha, hp, hdepth, Nat.add_sub_cancel,
          ih (h.closed ha hp) (by omega) (by omega), Forest.ancestorAt_parent hp (by omega)]

/-- **With correct pointers `GetAncestor` finds the ancestor.** -/
theorem getAncestor_eq {P : α → Prop} (h : GoodPointers F pprev pskip P) (ha : P a)
    (height : Nat) :
    getAncestor pprev pskip (F.depth a) height a = some (F.ancestorAt a height) := by
  rw [getAncestor]
  by_cases hlt : F.depth a < height
  · rw [if_pos (by omega), Forest.ancestorAt, if_neg (by omega)]
  · rw [if_neg (by omega), Int.toNat_natCast, walkAncestor_eq h ha (by omega) (Nat.le_refl _)]

end Ancestors

end Hivemind
