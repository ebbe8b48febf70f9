import Hivemind.Chain.ActiveChain

/-!
# The last common ancestor of two blocks

`LastCommonAncestor` of `main.cpp`, and the part of a branch that is above one of its blocks.

The function first brings the higher of the two blocks down to the height of the other one, with
one call of `GetAncestor`, and then follows the parents of both together until they are the same.
It has an assertion behind the loop, and the loop reads null pointers where the blocks have
nothing in common; in a tree over one genesis block neither happens.

`FindNextBlocksToDownload` reads a window of a branch from its far end, over `pprev`, into a
vector; `between` is that window in increasing height.

* `IsLastCommon`: an ancestor of both blocks, with no such block above it.
* `meetLoop_spec`: the loop, from two blocks of one height.
* `lastCommonAncestor_spec`: **no assertion fails**, and what is found is the last one.
* `fillBackwards_eq`: a part of a branch, read over `pprev` from its last block.
-/

namespace Hivemind

open Forests

namespace LinkTree

variable {α : Type}

/-! ## The operations -/

section Operations

variable (tree : LinkTree α)

/-- `a` is an ancestor of both blocks, and so is no block above it. -/
structure IsLastCommon (pa pb a : α) : Prop where
  left : tree.IsAncestor a pa
  right : tree.IsAncestor a pb
  last : ∀ b, tree.IsAncestor b pa → tree.IsAncestor b pb → tree.IsAncestor b a

/-- The `n` blocks on the branch of `pindex` from the height `low` on. -/
def between (pindex : α) (low n : Nat) : List α :=
  (List.range' low n).filterMap fun height : Nat => tree.prevAt pindex height

/-- The blocks after `pa` on the branch of `pb`, in increasing height. -/
def pathAfter (pa pb : α) : List α :=
  tree.between pb ((tree.nHeight pa).toNat + 1) ((tree.nHeight pb).toNat - (tree.nHeight pa).toNat)

variable [DecidableEq α]

/-- The loop of `LastCommonAncestor` and its assertion; `none` outside is an assertion that fails,
or a loop that goes on. -/
def meetLoop : Nat → Option α → Option α → Option (Option α)
  | _, none, pb => if pb = none then some none else none
  | _, some _, none => none
  | 0, some pa, some pb => if pa = pb then some (some pa) else none
  | n + 1, some pa, some pb =>
    if pa = pb then some (some pa) else meetLoop n (tree.pprev pa) (tree.pprev pb)

/-- `LastCommonAncestor`. -/
def lastCommonAncestor (pa pb : α) : Option (Option α) :=
  let n := (tree.nHeight pa).toNat
  if tree.nHeight pb < tree.nHeight pa then
    (tree.getAncestor pa (tree.nHeight pb)).bind fun pa => tree.meetLoop n pa (some pb)
  else if tree.nHeight pa < tree.nHeight pb then
    (tree.getAncestor pb (tree.nHeight pa)).bind fun pb => tree.meetLoop n (some pa) pb
  else tree.meetLoop n (some pa) (some pb)

omit [DecidableEq α] in
/-- The `n` blocks that end with `pindex`, before those of `l`; `none` is a null pointer that
is read. -/
def fillBackwards : Nat → Option α → List α → Option (List α)
  | 0, _, l => some l
  | _ + 1, none, _ => none
  | n + 1, some pindex, l => fillBackwards n (tree.pprev pindex) (pindex :: l)

end Operations

variable {tree : LinkTree α} {genesis a b p : α} {low n : Nat}

/-! ## A part of a branch -/

theorem between_succ (pindex : α) (low n : Nat) : tree.between pindex low (n + 1) =
    tree.between pindex low n ++ (tree.prevAt pindex (low + n : Nat)).toList := by
  rw [between, List.range'_1_concat, List.filterMap_append, between]
  rfl

theorem between_append (pindex : α) (low n m : Nat) : tree.between pindex low (n + m) =
    tree.between pindex low n ++ tree.between pindex (low + n) m := by
  rw [between, ← List.range'_append_1, List.filterMap_append, between, between]

theorem Linked.mem_between (h : Linked tree genesis) (hp : p ∈ tree.between b low n) :
    p ∈ h.forest.lineage b ∧ low ≤ h.forest.depth p ∧ h.forest.depth p < low + n := by
  obtain ⟨height, hmem, hat⟩ := List.mem_filterMap.mp hp
  rw [List.mem_range'_1] at hmem
  rw [h.prevAt_eq] at hat
  have hdepth := Forest.depth_ancestorAt hat
  exact ⟨Forest.mem_lineage_of_ancestorAt hat, by omega, by omega⟩

/-- The heights of a part of a branch go up. -/
theorem Linked.pairwise_between (h : Linked tree genesis) (b : α) (low n : Nat) :
    (tree.between b low n).Pairwise fun p q => tree.nHeight p < tree.nHeight q := by
  refine List.Pairwise.filterMap _ ?_ (List.pairwise_lt_range' (s := low) (n := n))
  intro i j hij p hp q hq
  rw [h.prevAt_eq] at hp hq
  have hdp := Forest.depth_ancestorAt hp
  have hdq := Forest.depth_ancestorAt hq
  rw [h.nHeight_eq, h.nHeight_eq]
  omega

/-- **A part of a branch**, read from its last block. -/
theorem Linked.fillBackwards_eq (h : Linked tree genesis) {pindex : Option α}
    (hlast : n ≠ 0 → pindex = h.forest.ancestorAt b (low + n - 1))
    (hn : low + n ≤ h.forest.depth b + 1) (l : List α) :
    tree.fillBackwards n pindex l = some (tree.between b low n ++ l) := by
  induction n generalizing pindex l with
  | zero => rfl
  | succ n ih =>
    obtain ⟨q, hq⟩ := Forest.ancestorAt_isSome (F := h.forest) (a := b) (n := low + n) (by omega)
    have hpindex : pindex = some q := (hlast (Nat.succ_ne_zero n)).trans hq
    have hprev : n ≠ 0 → tree.pprev q = h.forest.ancestorAt b (low + n - 1) := by
      intro hne
      have hsucc : low + n = low + n - 1 + 1 := by omega
      rw [hsucc] at hq
      exact Forest.ancestorAt_pred (F := h.forest) hq
    rw [hpindex, fillBackwards, ih hprev (by omega), between_succ, h.prevAt_eq, hq]
    simp

/-! ## The last common ancestor -/

section Meet

variable [DecidableEq α]

omit [DecidableEq α] in
theorem Linked.isLastCommon_iff (h : Linked tree genesis) : tree.IsLastCommon a b p ↔
    p ∈ h.forest.lineage a ∧ p ∈ h.forest.lineage b ∧
      ∀ q, q ∈ h.forest.lineage a → q ∈ h.forest.lineage b → q ∈ h.forest.lineage p := by
  simp only [← h.isAncestor_iff]
  exact ⟨fun hp => ⟨hp.left, hp.right, hp.last⟩, fun hp => ⟨hp.1, hp.2.1, hp.2.2⟩⟩

/-- **The loop of `LastCommonAncestor`**, from two blocks of one height. -/
theorem Linked.meetLoop_spec (h : Linked tree genesis) (ha : tree.Has a) (hb : tree.Has b)
    (hsame : h.forest.depth a = h.forest.depth b) (hn : h.forest.depth a ≤ n) :
    ∃ p, tree.meetLoop n (some a) (some b) = some (some p) ∧ tree.IsLastCommon a b p := by
  simp only [h.isLastCommon_iff]
  induction n generalizing a b with
  | zero =>
    have hroot : ∀ {c}, tree.Has c → h.forest.depth c = 0 → c = genesis := by
      intro c hc hzero
      refine h.root hc ?_
      cases hp : tree.pprev c with
      | none => rfl
      | some d =>
        have := h.forest.depth_parent hp
        omega
    obtain rfl := hroot ha (by omega)
    obtain rfl := hroot hb (by omega)
    exact ⟨_, by rw [meetLoop, if_pos rfl], Forest.mem_lineage_self _,
      Forest.mem_lineage_self _, fun _ hq _ => hq⟩
  | succ n ih =>
    rw [meetLoop]
    by_cases heq : a = b
    · subst heq
      exact ⟨a, if_pos rfl, Forest.mem_lineage_self a, Forest.mem_lineage_self a, fun _ hq _ => hq⟩
    rw [if_neg heq]
    -- a common ancestor is below both, because they are at one height
    have hbelow : ∀ {c d}, c ≠ d → h.forest.depth c = h.forest.depth d →
        ∀ q, q ∈ h.forest.lineage c → q ∈ h.forest.lineage d → q ≠ c := by
      rintro c d hne hdepth q - hq rfl
      exact hne (Forest.eq_of_mem_lineage hq (Forest.mem_lineage_self d) hdepth)
    cases hpa : h.forest.parent a with
    | none =>
      have hzero := h.forest.depth_root hpa
      have hpb : h.forest.parent b = none := by
        cases hpb : h.forest.parent b with
        | none => rfl
        | some d =>
          have := h.forest.depth_parent hpb
          omega
      exact absurd ((h.root ha hpa).trans (h.root hb hpb).symm) heq
    | some c =>
      have hc := h.forest.depth_parent hpa
      cases hpb : h.forest.parent b with
      | none =>
        have := h.forest.depth_root hpb
        omega
      | some d =>
        have hd := h.forest.depth_parent hpb
        obtain ⟨p, hrun, hpc, hpd, hlast⟩ :=
          ih (h.child hpa).1 (h.child hpb).1 (by omega) (by omega)
        rw [h.forest_parent] at hpa hpb
        refine ⟨p, by rw [hpa, hpb, hrun], ?_, ?_, fun q hqa hqb => ?_⟩
        · rw [Forest.lineage_parent (F := h.forest) hpa]
          exact List.mem_cons_of_mem _ hpc
        · rw [Forest.lineage_parent (F := h.forest) hpb]
          exact List.mem_cons_of_mem _ hpd
        · have hqna := hbelow heq hsame q hqa hqb
          have hqnb := hbelow (Ne.symm heq) hsame.symm q hqb hqa
          rw [Forest.lineage_parent (F := h.forest) hpa] at hqa
          rw [Forest.lineage_parent (F := h.forest) hpb] at hqb
          exact hlast q ((List.mem_cons.mp hqa).resolve_left hqna)
            ((List.mem_cons.mp hqb).resolve_left hqnb)

omit [DecidableEq α] in
/-- The last common ancestor does not change when the higher block is replaced by its ancestor. -/
theorem Linked.isLastCommon_of_ancestor (h : Linked tree genesis) {a' : α}
    (ha' : a' ∈ h.forest.lineage a) (hle : h.forest.depth b ≤ h.forest.depth a')
    (hp : tree.IsLastCommon a' b p) : tree.IsLastCommon a b p := by
  rw [h.isLastCommon_iff] at hp ⊢
  obtain ⟨hpa, hpb, hlast⟩ := hp
  refine ⟨Forest.mem_lineage_trans ha' hpa, hpb, fun q hqa hqb => hlast q ?_ hqb⟩
  exact Forest.mem_lineage_of_depth_le ha' hqa ((Forest.depth_le_of_mem hqb).trans hle)

omit [DecidableEq α] in
theorem IsLastCommon.symm (hp : tree.IsLastCommon a b p) : tree.IsLastCommon b a p :=
  ⟨hp.right, hp.left, fun q hqb hqa => hp.last q hqa hqb⟩

/-- **`LastCommonAncestor`** ends, and finds the last common ancestor. -/
theorem SkipLinked.lastCommonAncestor_spec (h : SkipLinked tree genesis) (ha : tree.Has a)
    (hb : tree.Has b) : ∃ p, tree.lastCommonAncestor a b = some (some p) ∧
      tree.IsLastCommon a b p ∧ tree.Has p := by
  have hheight := h.nHeight_eq a
  have hheight' := h.nHeight_eq b
  have hhas : ∀ {p}, tree.IsLastCommon a b p → tree.Has p := fun hp =>
    h.has_of_mem ha (h.isAncestor_iff.mp hp.left)
  rw [lastCommonAncestor]
  split_ifs with hhigh hlow
  · obtain ⟨c, hc⟩ := Forest.ancestorAt_isSome (F := h.forest) (a := a)
      (n := h.forest.depth b) (by omega)
    have hmem := Forest.mem_lineage_of_ancestorAt hc
    have hdepth := Forest.depth_ancestorAt hc
    obtain ⟨p, hrun, hp⟩ := h.meetLoop_spec (n := (tree.nHeight a).toNat) (h.has_of_mem ha hmem) hb
      hdepth (by omega)
    have hp' := h.isLastCommon_of_ancestor hmem hdepth.ge hp
    exact ⟨p, by rw [h.getAncestor_eq ha, hheight', h.prevAt_eq, hc, Option.bind_some, hrun], hp',
      hhas hp'⟩
  · obtain ⟨c, hc⟩ := Forest.ancestorAt_isSome (F := h.forest) (a := b)
      (n := h.forest.depth a) (by omega)
    have hmem := Forest.mem_lineage_of_ancestorAt hc
    have hdepth := Forest.depth_ancestorAt hc
    obtain ⟨p, hrun, hp⟩ := h.meetLoop_spec (n := (tree.nHeight a).toNat) ha
      (h.has_of_mem hb hmem) hdepth.symm (by omega)
    have hp' := (h.isLastCommon_of_ancestor hmem hdepth.ge hp.symm).symm
    refine ⟨p, ?_, hp', hhas hp'⟩
    rw [h.getAncestor_eq hb, hheight, h.prevAt_eq, hc, Option.bind_some, ← hheight, hrun]
  · obtain ⟨p, hrun, hp⟩ := h.meetLoop_spec (n := (tree.nHeight a).toNat) ha hb (by omega)
      (by omega)
    exact ⟨p, hrun, hp, hhas hp⟩

end Meet

end LinkTree

end Hivemind
