import Hivemind.Chain.ActiveChain

/-!
# How far a locator reaches (`chain.cpp`)

`GetLocator` lists the ancestors of a block from itself down: ten of them one block apart, and
from then on with steps that double, down to the genesis block.  A peer looks for the first of
them on its own chain and answers with what comes after it.

Two things are asked of such a list.  It has to be short, since it is sent with every request;
and it must not miss the fork by much, since everything between the entry that was found and the
fork is sent for nothing.  Both are statements about the loop, with the length of the next step
as what is carried along: it is one while ten entries have not been listed, and never longer than
the way so far after that.

* `locatorLoop_length`: the number of entries is logarithmic in the height.
* `locatorLoop_near`: below each block there is an entry that is at most twice as far away.
* `findForkInGlobalIndex_highest`: the entry that a peer finds is its highest one on the chain.
* `locator_of_run`: **so the other node**, which answers from its first common entry on, repeats
  at most as many blocks as the node has of its own.
-/

namespace Hivemind

open Forests

namespace CChain

variable {α : Type} [DecidableEq α] {tree : LinkTree α} {genesis : α} {chain : CChain α}

theorem contains_iff_get {a : α} :
    chain.contains tree a = true ↔ chain.get (tree.nHeight a) = some a := by
  rw [contains, beq_iff_eq]

section Branch

variable {tip a b p : α} (h : LinkTree.SkipLinked tree genesis)

/-- One turn of the loop above the genesis block. -/
theorem locatorLoop_succ (hchain : IsBranch h.forest chain.vChain (some tip)) (n : Nat)
    (ha : tree.Has a) (hpos : 0 < h.forest.depth a) (nStep : Int) (vHave : List α) {m : Nat}
    (hm : (m : Int) = max ((h.forest.depth a : Int) - nStep) 0) (hle : m ≤ h.forest.depth a) :
    ∃ c, h.forest.ancestorAt a m = some c ∧ tree.Has c ∧ h.forest.depth c = m ∧
      chain.locatorLoop tree (n + 1) (some a) nStep vHave =
        chain.locatorLoop tree n (some c)
          (if 10 < (vHave ++ [a]).length then nStep * 2 else nStep) (vHave ++ [a]) := by
  obtain ⟨c, hc⟩ := Forest.ancestorAt_isSome hle
  refine ⟨c, hc, h.has_of_mem ha (Forest.mem_lineage_of_ancestorAt hc),
    Forest.depth_ancestorAt hc, ?_⟩
  rw [locatorLoop, h.nHeight_eq, if_neg (by omega), ← hm, locatorNext_eq h hchain ha hle, hc,
    Option.bind_some]

/-- **The steps double**: while they do, `t` more entries reach `2 ^ t - 1` steps down. -/
theorem locatorLoop_doubling (hchain : IsBranch h.forest chain.vChain (some tip)) (n t : Nat)
    (ha : tree.Has a) (hn : h.forest.depth a < n) {nStep : Nat} (hstep : 1 ≤ nStep)
    (vHave : List α) (hlong : 10 ≤ vHave.length)
    (hreach : h.forest.depth a + nStep ≤ nStep * 2 ^ t) {L : List α}
    (hrun : chain.locatorLoop tree n (some a) nStep vHave = some L) :
    L.length ≤ vHave.length + t + 1 := by
  induction n generalizing a nStep vHave t with
  | zero => exact absurd hn (Nat.not_lt_zero _)
  | succ n ih =>
      rcases Nat.eq_zero_or_pos (h.forest.depth a) with hzero | hpos
      · rw [locatorLoop, h.nHeight_eq, if_pos (by omega)] at hrun
        obtain rfl := Option.some.inj hrun
        simp
      · obtain ⟨c, -, hhas, hdepth, heq⟩ := locatorLoop_succ h hchain n ha hpos nStep vHave
          (m := h.forest.depth a - nStep) (by omega) (by omega)
        have hcast : (nStep : Int) * 2 = (nStep * 2 : Nat) := by push_cast; rfl
        rw [heq, if_pos (by simp; omega), hcast] at hrun
        cases t with
        | zero =>
            rw [pow_zero] at hreach
            omega
        | succ t =>
            have hpow : nStep * 2 ^ (t + 1) = nStep * 2 * 2 ^ t := by
              rw [pow_succ, Nat.mul_comm (2 ^ t), Nat.mul_assoc]
            have hone : nStep * 2 ≤ nStep * 2 * 2 ^ t :=
              Nat.le_mul_of_pos_right _ (Nat.two_pow_pos t)
            have hlen := ih t hhas (by omega) (by omega) (vHave ++ [a]) (by simp; omega)
              (by omega) hrun
            rw [List.length_append, List.length_singleton] at hlen
            omega

/-- **A locator is short**: ten entries one block apart, and then one for each doubling. -/
theorem locatorLoop_length (hchain : IsBranch h.forest chain.vChain (some tip)) (n t : Nat)
    (ha : tree.Has a) (hn : h.forest.depth a < n) (vHave : List α) (hshort : vHave.length ≤ 10)
    (hreach : h.forest.depth a < 2 ^ t) {L : List α}
    (hrun : chain.locatorLoop tree n (some a) 1 vHave = some L) : L.length ≤ t + 11 := by
  induction n generalizing a vHave with
  | zero => exact absurd hn (Nat.not_lt_zero _)
  | succ n ih =>
      rcases Nat.eq_or_lt_of_le hshort with hten | hlt
      · have hlen := locatorLoop_doubling h hchain (n + 1) t ha hn le_rfl vHave
          (by omega) (by omega) hrun
        omega
      · rcases Nat.eq_zero_or_pos (h.forest.depth a) with hzero | hpos
        · rw [locatorLoop, h.nHeight_eq, if_pos (by omega)] at hrun
          obtain rfl := Option.some.inj hrun
          simp only [List.length_append, List.length_singleton]
          omega
        · obtain ⟨c, -, hhas, hdepth, heq⟩ := locatorLoop_succ h hchain n ha hpos 1 vHave
            (m := h.forest.depth a - 1) (by omega) (by omega)
          rw [heq, if_neg (by simp; omega)] at hrun
          exact ih hhas (by omega) (vHave ++ [a]) (by simp; omega) (by omega) hrun

/-- **A locator reaches below each block** at most twice as far away: what is carried is
that the next step is no longer than the way so far. -/
theorem locatorLoop_near (hchain : IsBranch h.forest chain.vChain (some tip)) (n : Nat)
    (ha : tree.Has a) (hn : h.forest.depth a < n) {way nStep : Nat} (hstep : 1 ≤ nStep)
    (hway : nStep ≤ way + 1) (vHave : List α) {L : List α}
    (hrun : chain.locatorLoop tree n (some a) nStep vHave = some (vHave ++ L))
    (hb : b ∈ h.forest.lineage a) :
    ∃ c ∈ L, c ∈ h.forest.lineage b ∧
      2 * h.forest.depth b ≤ h.forest.depth c + h.forest.depth a + way := by
  induction n generalizing a way nStep vHave L with
  | zero => exact absurd hn (Nat.not_lt_zero _)
  | succ n ih =>
      have hle := Forest.depth_le_of_mem hb
      by_cases hba : b = a
      · -- the first entry is the block
        obtain ⟨M, hspec, hhead, -⟩ :=
          locatorLoop_spec h hchain (n + 1) ha hn (Int.ofNat_le.mpr hstep) vHave
        obtain rfl : M = L := List.append_cancel_left (Option.some.inj (hspec.symm.trans hrun))
        exact ⟨a, List.mem_of_head? hhead, by rw [hba]; exact Forest.mem_lineage_self a, by
          rw [hba]; omega⟩
      have hlt : h.forest.depth b < h.forest.depth a := by
        refine lt_of_le_of_ne hle fun heq => hba ?_
        exact Forest.eq_of_mem_lineage hb (Forest.mem_lineage_self a) heq
      obtain ⟨c, hc, hhas, hdepth, heq⟩ := locatorLoop_succ h hchain n ha (by omega) nStep vHave
        (m := h.forest.depth a - nStep) (by omega) (by omega)
      have hca := Forest.mem_lineage_of_ancestorAt hc
      obtain ⟨nStep', hnext, hone, htwo⟩ : ∃ nStep' : Nat,
          (if 10 < (vHave ++ [a]).length then (nStep : Int) * 2 else nStep) = nStep' ∧
            1 ≤ nStep' ∧ nStep' ≤ 2 * nStep := by
        split_ifs
        · exact ⟨nStep * 2, by push_cast; rfl, by omega, by omega⟩
        · exact ⟨nStep, rfl, hstep, by omega⟩
      rw [heq, hnext] at hrun
      obtain ⟨M, hspec, hhead, -⟩ :=
        locatorLoop_spec h hchain n hhas (by omega) (Int.ofNat_le.mpr hone) (vHave ++ [a])
      obtain rfl : a :: M = L := by
        have hboth := Option.some.inj (hspec.symm.trans hrun)
        rw [List.append_assoc] at hboth
        exact List.append_cancel_left hboth
      by_cases hbelow : h.forest.depth b ≤ h.forest.depth c ∧ nStep ≤ h.forest.depth a
      · -- the block is below the next entry, which is a whole step away
        have hway' : nStep' ≤ way + nStep + 1 := by omega
        obtain ⟨d, hd, hdb, hnear⟩ := ih hhas (by omega) hone hway' (vHave ++ [a]) hspec
          (Forest.mem_lineage_of_depth_le hca hb hbelow.1)
        exact ⟨d, List.mem_cons_of_mem a hd, hdb, by omega⟩
      · -- the next entry is below the block, or it is the genesis block
        refine ⟨c, List.mem_cons_of_mem a (List.mem_of_head? hhead), ?_, by omega⟩
        exact Forest.mem_lineage_of_depth_le hb hca (by omega)

/-- The entry that `FindForkInGlobalIndex` finds is the highest one that is on the chain. -/
theorem findForkInGlobalIndex_highest (hchain : IsBranch h.forest chain.vChain (some tip))
    (htip : tree.Has tip) {L : List α} (hlast : L.getLast? = some genesis)
    (hpair : L.Pairwise (Lower h.forest)) :
    ∃ g ∈ L, chain.findForkInGlobalIndex tree L = some g ∧ g ∈ h.forest.lineage tip ∧
      ∀ c ∈ L, c ∈ h.forest.lineage tip → h.forest.depth c ≤ h.forest.depth g := by
  have htest : ∀ b, (decide (tree.Has b) && chain.contains tree b) = true ↔
      b ∈ h.forest.lineage tip := by
    intro b
    rw [Bool.and_eq_true, decide_eq_true_eq, contains_iff h hchain]
    exact ⟨And.right, fun hb => ⟨h.has_of_mem htip hb, hb⟩⟩
  rw [findForkInGlobalIndex]
  cases hfind : L.find? fun hash => decide (tree.Has hash) && chain.contains tree hash with
  | none =>
      have hgenesis := List.find?_eq_none.mp hfind genesis (List.mem_of_getLast? hlast)
      exact absurd ((htest genesis).mpr (h.genesis_mem htip)) hgenesis
  | some g =>
      have htrue := List.find?_some hfind
      refine ⟨g, List.mem_of_find?_eq_some hfind, rfl, (htest g).mp htrue, ?_⟩
      intro c hc hon
      obtain ⟨-, before, after, rfl, hbefore⟩ := List.find?_eq_some_iff_append.mp hfind
      rcases List.mem_append.mp hc with hc | hc
      · have hoff := hbefore c hc
        rw [(htest c).mpr hon] at hoff
        cases hoff
      · rcases List.mem_cons.mp hc with rfl | hc
        · exact le_rfl
        · have hafter := (List.pairwise_append.mp hpair).2.1
          exact ((List.pairwise_cons.mp hafter).1 c hc).2.le

end Branch

/-- **How far a locator reaches.**  The locator of a block has a number of entries that is
logarithmic in its height, and a peer with any active chain finds in it a common ancestor
that is at most twice as far below the block as the fork is. -/
theorem locator_of_run (genesis : α) (blocks : List (α × α)) :
    ∃ tree, LinkTree.build genesis blocks = some tree ∧
      ∀ (tips tips' : List (Option α)) (tip tip' p : α),
        tree.Has tip → tree.Has tip' → tree.Has p →
        ∃ chain chain' L f g,
          (tips ++ [some tip]).foldlM (fun c t => CChain.setTip c tree t) {} = some chain ∧
          (tips' ++ [some tip']).foldlM (fun c t => CChain.setTip c tree t) {} = some chain' ∧
          chain.getLocator tree (some p) = some L ∧
          (∀ t : Nat, tree.nHeight p < 2 ^ t → L.length ≤ t + 11) ∧
          chain'.findFork tree p = some (some f) ∧
          chain'.findForkInGlobalIndex tree L = some g ∧ tree.IsAncestor g f ∧
          tree.nHeight p - tree.nHeight g ≤ 2 * (tree.nHeight p - tree.nHeight f) := by
  obtain ⟨tree, hbuild, h⟩ := LinkTree.skipLinked_build genesis blocks
  refine ⟨tree, hbuild, fun tips tips' tip tip' p htip htip' hp => ?_⟩
  obtain ⟨chain, hrun, hchain⟩ := setTips_spec h.toLinked (tips ++ [some tip])
  obtain ⟨chain', hrun', hchain'⟩ := setTips_spec h.toLinked (tips' ++ [some tip'])
  simp only [List.getLast?_concat, Option.join_some] at hchain hchain'
  obtain ⟨L, hloc, -, hlast, hmem, hpair, -⟩ := locatorLoop_spec h hchain
    ((tree.nHeight p).toNat + 1) hp (Nat.lt_succ_self _) (Int.le_refl 1) []
  obtain ⟨f, hfork, hf⟩ := findFork_spec h hchain' htip' hp
  obtain ⟨g, hgL, hfind, hon, hhighest⟩ := findForkInGlobalIndex_highest h hchain' htip' hlast hpair
  obtain ⟨c, hcL, hcf, hnear⟩ := locatorLoop_near h hchain ((tree.nHeight p).toNat + 1) hp
    (Nat.lt_succ_self _) le_rfl (Nat.le_add_left 1 0) [] hloc hf.ancestor
  have hcg := hhighest c hcL (Forest.mem_lineage_trans hf.onChain hcf)
  have hheight := h.nHeight_eq p
  refine ⟨chain, chain', L, f, g, hrun, hrun', hloc, fun t ht => ?_, hfork, hfind, ?_, ?_⟩
  · refine locatorLoop_length h hchain ((tree.nHeight p).toNat + 1) t hp (Nat.lt_succ_self _) []
      (Nat.zero_le 10) ?_ hloc
    rw [hheight] at ht
    exact_mod_cast ht
  · exact h.isAncestor_iff.mpr (hf.highest g (hmem g hgL) hon)
  · rw [hheight, h.nHeight_eq, h.nHeight_eq]
    omega

end CChain
end Hivemind
