import Hivemind.Lib.OrderStat
import Hivemind.Validation.Accept

/-!
# The median time past

`CBlockIndex::GetMedianTimePast` along a chain.  The times of the blocks may go back, the median
of the last eleven does not.

A header is accepted when its time is later than the median of the eleven blocks before it. From
one block to the next the window loses its oldest time, if it is full, and gets the new one,
which is above the median: by the lemma of the library on such windows the median does not fall.
Near the genesis block the window is shorter, and the median is the upper one of two in the
middle; neither needs a case of its own.

* `lt_of_checkBlockHeaderAfter`: what `ContextualCheckBlockHeader` asks of a time.
* `window`: the times that `GetMedianTimePast` sorts.
* `getMedianTimePast_le`: the median from a block to the next.
* `pairwise_getMedianTimePast`: **the median never decreases** along a chain.
-/

namespace Hivemind

open OrderStat

/-- A header that passes `ContextualCheckBlockHeader` is later than the median of the chain
that it extends. -/
theorem lt_of_checkBlockHeaderAfter {ctx : Context} {tree : BlockTree} {block : CBlockHeader}
    {pprev : CBlockIndex} (h : checkBlockHeaderAfter ctx tree block pprev = .ok ()) :
    tree.getMedianTimePast pprev < block.nTime.toNat := by
  by_contra hle
  rw [checkBlockHeaderAfter, if_pos (not_lt.mp hle)] at h
  cases h

namespace BlockTree

/-- The times that `GetMedianTimePast` sorts. -/
def window (tree : BlockTree) (n : Nat) (pindex : Option CBlockIndex) : List Nat :=
  (tree.ancestors n pindex).map fun p => p.nTime.toNat

theorem getMedianTimePast_eq_median (tree : BlockTree) (pindex : CBlockIndex) :
    tree.getMedianTimePast pindex = median 0 (tree.window 11 (some pindex)) := by
  rw [getMedianTimePast_eq, median, window, List.length_map]

theorem window_sublist (tree : BlockTree) (n : Nat) (pindex : Option CBlockIndex) :
    (tree.window n pindex).Sublist (tree.window (n + 1) pindex) ∧
      (tree.window (n + 1) pindex).length ≤ (tree.window n pindex).length + 1 := by
  induction n generalizing pindex with
  | zero => cases pindex <;> simp [window, ancestors]
  | succ n ih =>
      cases pindex with
      | none => simp [window, ancestors]
      | some p =>
          obtain ⟨hsub, hlen⟩ := ih (tree.prev p)
          have hwindow : ∀ m, tree.window (m + 1) (some p) =
              p.nTime.toNat :: tree.window m (tree.prev p) := fun _ => rfl
          rw [hwindow, hwindow (n + 1)]
          exact ⟨hsub.cons_cons _, Nat.succ_le_succ hlen⟩

/-- A block that is later than the median before it does not move the median back. -/
theorem getMedianTimePast_le {tree : BlockTree} {pindex pprev : CBlockIndex}
    (hprev : tree.prev pindex = some pprev)
    (hlater : tree.getMedianTimePast pprev < pindex.nTime.toNat) :
    tree.getMedianTimePast pprev ≤ tree.getMedianTimePast pindex := by
  have hmoved : tree.window 11 (some pindex) =
      pindex.nTime.toNat :: tree.window 10 (some pprev) := by
    rw [← hprev]
    rfl
  obtain ⟨hsub, hlen⟩ := tree.window_sublist 10 (some pprev)
  rw [getMedianTimePast_eq_median] at hlater
  rw [getMedianTimePast_eq_median, getMedianTimePast_eq_median, hmoved]
  exact median_le_median (List.cons_ne_nil _ _) hsub hlen hlater.le

/-- **The median time past never decreases** along a chain, the newest block first, in which
every block is later than the median before it. -/
theorem pairwise_getMedianTimePast (tree : BlockTree) (chain : List CBlockIndex)
    (h : chain.IsChain fun pindex pprev =>
      tree.prev pindex = some pprev ∧ tree.getMedianTimePast pprev < pindex.nTime.toNat) :
    chain.Pairwise fun pindex p => tree.getMedianTimePast p ≤ tree.getMedianTimePast pindex := by
  have hsteps : chain.IsChain fun pindex p =>
      tree.getMedianTimePast p ≤ tree.getMedianTimePast pindex :=
    h.imp fun _ _ hstep => getMedianTimePast_le hstep.1 hstep.2
  have htrans : Trans (fun pindex p => tree.getMedianTimePast p ≤ tree.getMedianTimePast pindex)
      (fun pindex p => tree.getMedianTimePast p ≤ tree.getMedianTimePast pindex)
      fun pindex p => tree.getMedianTimePast p ≤ tree.getMedianTimePast pindex :=
    ⟨fun h₁ h₂ => h₂.trans h₁⟩
  exact List.isChain_iff_pairwise.mp hsteps

/-! ## A chain whose times go back -/

/-- A block at a given time. -/
def timedEntry (hash : UInt8) (time : UInt32) : CBlockIndex where
  pprev := if hash = 0 then none else some (Blob.fill (hash - 1))
  nTime := time

/-- Four blocks; the last is earlier than the one before it. -/
def timedTree : BlockTree :=
  ((((({} : BlockTree).put (Blob.fill 0) (timedEntry 0 10)).put (Blob.fill 1)
    (timedEntry 1 30)).put (Blob.fill 2) (timedEntry 2 40)).put (Blob.fill 3) (timedEntry 3 35))

theorem pairwise_timedTree :
    timedTree.getMedianTimePast (timedEntry 2 40) ≤
      timedTree.getMedianTimePast (timedEntry 3 35) := by
  have hpairwise := timedTree.pairwise_getMedianTimePast
    [timedEntry 3 35, timedEntry 2 40, timedEntry 1 30, timedEntry 0 10] (by
      simp only [getMedianTimePast_eq]
      decide +kernel)
  exact (List.pairwise_cons.mp hpairwise).1 _ (by simp)

end BlockTree
end Hivemind
