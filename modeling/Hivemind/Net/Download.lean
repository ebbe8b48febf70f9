import Hivemind.Chain.BlockIndex
import Hivemind.Chain.LastCommon
import Hivemind.Net.InFlight

/-!
# Which blocks are asked for next

`FindNextBlocksToDownload` of `main.cpp`.  The branch of the best block that a peer has is read
in batches, from the last block in common on, and the blocks that are missing are planned.

A null pointer that is read, an assertion that fails or a loop that goes on is `none`.

The function remembers the last block in common between two calls and corrects it at the start,
to the last common ancestor with the best block of the peer.  The walk then goes up the branch as
far as the window allows, in batches whose size depends on how many blocks are still wanted; what
is planned does not depend on the batches, so it is stated for the path above the last common
block as a whole.  A block that is not valid ends it, and one that is stored moves the last
common block along.

* `missing`: the blocks of a path that should be planned.
* `visitAll_spec`: what is planned of a list of blocks, whatever the batches are.
* `walkLoop_eq`: the loop over the batches visits the blocks in order.
* `findNextBlocksToDownload_spec`: **what is planned of a branch.**
-/

namespace Hivemind

open Codecs Forests Ordered

/-- `BLOCK_DOWNLOAD_WINDOW`. -/
def blockDownloadWindow : Int := 1024

/-- The fields of `CNodeState` that say which blocks the peer has. -/
structure PeerBlocks where
  pindexBestKnownBlock : Option Uint256 := none
  hashLastUnknownBlock : Uint256 := Blob.null
  pindexLastCommonBlock : Option Uint256 := none
  deriving DecidableEq

/-- What is known of the blocks. -/
structure BlockView where
  /-- The pointers of `mapBlockIndex`, whose entries go by their hashes. -/
  mapBlockIndex : LinkTree Uint256
  entry : Uint256 → CBlockIndex
  chainActive : CChain Uint256
  mapBlocksInFlight : OrdMap Uint256 (NodeId × Nat)

/-- The variables of the loop. -/
structure DownloadWalk where
  vBlocks : List Uint256 := []
  pindexLastCommonBlock : Uint256
  waitingfor : NodeId := -1
  nodeStaller : NodeId

namespace BlockView

/-! ## The functions -/

section Operations

variable (view : BlockView)

/-- `ProcessBlockAvailability`. -/
def processBlockAvailability (state : PeerBlocks) : PeerBlocks :=
  let hash := state.hashLastUnknownBlock
  if hash = Blob.null then state
  else if view.mapBlockIndex.Has hash ∧ 0 < (view.entry hash).nChainWork then
    if state.pindexBestKnownBlock.all fun best =>
        (view.entry best).nChainWork ≤ (view.entry hash).nChainWork then
      { state with pindexBestKnownBlock := some hash, hashLastUnknownBlock := Blob.null }
    else { state with hashLastUnknownBlock := Blob.null }
  else state

/-- The turn of the loop over `vToFetch`, and whether the function returns. -/
def visit (nodeid : NodeId) (count : UInt32) (nWindowEnd : Int) (pindex : Uint256)
    (t : DownloadWalk) : DownloadWalk × Bool :=
  if !(view.entry pindex).isValid blockValidTree then (t, true)
  else if hasStatus (view.entry pindex).nStatus blockHaveData then
    if (view.entry pindex).nChainTx ≠ 0 then ({ t with pindexLastCommonBlock := pindex }, false)
    else (t, false)
  else
    match view.mapBlocksInFlight.find pindex with
    | none =>
      if nWindowEnd < view.mapBlockIndex.nHeight pindex then
        if t.vBlocks.length = 0 ∧ t.waitingfor ≠ nodeid then
          ({ t with nodeStaller := t.waitingfor }, true)
        else (t, true)
      else
        let vBlocks := t.vBlocks ++ [pindex]
        ({ t with vBlocks }, decide (vBlocks.length = count.toNat))
    | some (node, _) =>
      if t.waitingfor = -1 then ({ t with waitingfor := node }, false) else (t, false)

/-- The loop over `vToFetch`. -/
def visitAll (nodeid : NodeId) (count : UInt32) (nWindowEnd : Int) :
    List Uint256 → DownloadWalk → DownloadWalk × Bool
  | [], t => (t, false)
  | pindex :: vToFetch, t =>
    let r := view.visit nodeid count nWindowEnd pindex t
    if r.2 then r else visitAll nodeid count nWindowEnd vToFetch r.1

/-- `std::max<int>(count - vBlocks.size(), 128)`. -/
def batchSize (count : UInt32) (size : Nat) : Int :=
  max (count.toUInt64 - UInt64.ofNat size).toUInt32.toInt32.toInt 128

/-- The loop over the batches, with a bound on the number of its turns. -/
def walkLoop (nodeid : NodeId) (count : UInt32) (nWindowEnd nMaxHeight : Int)
    (pindexBestKnownBlock : Uint256) : Nat → Uint256 → DownloadWalk → Option DownloadWalk
  | 0, pindexWalk, t =>
    if view.mapBlockIndex.nHeight pindexWalk < nMaxHeight then none else some t
  | n + 1, pindexWalk, t =>
    if view.mapBlockIndex.nHeight pindexWalk < nMaxHeight then do
      let nHeight := view.mapBlockIndex.nHeight pindexWalk
      let nToFetch := min (nMaxHeight - nHeight) (batchSize count t.vBlocks.length)
      let pindexWalk ← view.mapBlockIndex.getAncestor pindexBestKnownBlock (nHeight + nToFetch)
      let vToFetch ← view.mapBlockIndex.fillBackwards nToFetch.toNat pindexWalk []
      let pindexWalk ← pindexWalk
      let r := view.visitAll nodeid count nWindowEnd vToFetch t
      if r.2 then some r.1
      else walkLoop nodeid count nWindowEnd nMaxHeight pindexBestKnownBlock n pindexWalk r.1
    else some t

/-- The last common block before this call: where there is none, the block of the active chain at
the smaller height is guessed. -/
def guessLastCommon (state : PeerBlocks) (pindexBestKnownBlock : Uint256) : Option Uint256 :=
  state.pindexLastCommonBlock.or (view.chainActive.get
    (min (view.mapBlockIndex.nHeight pindexBestKnownBlock) view.chainActive.height))

/-- `FindNextBlocksToDownload`, where `vBlocks` is empty: the state of the peer, the blocks and
the staller. -/
def findNextBlocksToDownload (nodeid : NodeId) (count : UInt32) (state : PeerBlocks)
    (nodeStaller : NodeId) : Option (PeerBlocks × List Uint256 × NodeId) :=
  if count = 0 then some (state, [], nodeStaller)
  else
    let state := view.processBlockAvailability state
    match state.pindexBestKnownBlock with
    | none => some (state, [], nodeStaller)
    | some best => do
      let tip ← view.chainActive.tip
      if (view.entry best).nChainWork < (view.entry tip).nChainWork then
        some (state, [], nodeStaller)
      else
        let last ← view.guessLastCommon state best
        let pindexLastCommonBlock ← view.mapBlockIndex.lastCommonAncestor last best
        let last ← pindexLastCommonBlock
        if last = best then
          some ({ state with pindexLastCommonBlock := some last }, [], nodeStaller)
        else
          let nWindowEnd := view.mapBlockIndex.nHeight last + blockDownloadWindow
          let nMaxHeight := min (view.mapBlockIndex.nHeight best) (nWindowEnd + 1)
          let t ← view.walkLoop nodeid count nWindowEnd nMaxHeight best
            (nMaxHeight - view.mapBlockIndex.nHeight last).toNat last
            { pindexLastCommonBlock := last, nodeStaller }
          some ({ state with pindexLastCommonBlock := some t.pindexLastCommonBlock }, t.vBlocks,
            t.nodeStaller)

/-! ## What should be planned -/

/-- A block up to the height `nWindowEnd` that is missing. -/
def wanted (nWindowEnd : Int) (pindex : Uint256) : Bool :=
  decide (view.mapBlockIndex.nHeight pindex ≤ nWindowEnd) &&
    !hasStatus (view.entry pindex).nStatus blockHaveData &&
    (view.mapBlocksInFlight.find pindex).isNone

/-- The missing blocks of a path, up to the first block that is not valid. -/
def missing (nWindowEnd : Int) (path : List Uint256) : List Uint256 :=
  (path.takeWhile fun pindex => (view.entry pindex).isValid blockValidTree).filter
    (view.wanted nWindowEnd)

end Operations

/-! ## The blocks of a list -/

section Visits

variable {view : BlockView} {nodeid : NodeId} {count : UInt32} {nWindowEnd : Int}
  {V W : List Uint256} {t : DownloadWalk} {pindex : Uint256}

theorem missing_cons_of_not_valid (h : (view.entry pindex).isValid blockValidTree = false) :
    view.missing nWindowEnd (pindex :: V) = [] := by
  simp [missing, h]

theorem missing_cons_of_wanted (h : (view.entry pindex).isValid blockValidTree = true)
    (hwanted : view.wanted nWindowEnd pindex = true) :
    view.missing nWindowEnd (pindex :: V) = pindex :: view.missing nWindowEnd V := by
  simp [missing, h, hwanted]

theorem missing_cons_of_not_wanted (h : (view.entry pindex).isValid blockValidTree = true)
    (hwanted : view.wanted nWindowEnd pindex = false) :
    view.missing nWindowEnd (pindex :: V) = view.missing nWindowEnd V := by
  simp [missing, h, hwanted]

/-- Nothing is missing above the window. -/
theorem missing_eq_nil (h : ∀ p ∈ V, nWindowEnd < view.mapBlockIndex.nHeight p) :
    view.missing nWindowEnd V = [] := by
  rw [missing, List.filter_eq_nil_iff]
  intro p hp
  have hlt := h p ((List.takeWhile_sublist _).subset hp)
  simp [wanted, Int.not_le.mpr hlt]

theorem missing_append (h : ∀ p ∈ W, nWindowEnd < view.mapBlockIndex.nHeight p) :
    view.missing nWindowEnd (V ++ W) = view.missing nWindowEnd V := by
  induction V with
  | nil => exact missing_eq_nil h
  | cons p V ih =>
    cases hvalid : (view.entry p).isValid blockValidTree with
    | false => rw [List.cons_append, missing_cons_of_not_valid hvalid,
        missing_cons_of_not_valid hvalid]
    | true =>
      cases hwanted : view.wanted nWindowEnd p with
      | false => rw [List.cons_append, missing_cons_of_not_wanted hvalid hwanted,
          missing_cons_of_not_wanted hvalid hwanted, ih]
      | true => rw [List.cons_append, missing_cons_of_wanted hvalid hwanted,
          missing_cons_of_wanted hvalid hwanted, ih]

/-- A list that is visited in two parts. -/
theorem visitAll_append (V W : List Uint256) (t : DownloadWalk) :
    view.visitAll nodeid count nWindowEnd (V ++ W) t =
      if (view.visitAll nodeid count nWindowEnd V t).2 then
        view.visitAll nodeid count nWindowEnd V t
      else
        view.visitAll nodeid count nWindowEnd W (view.visitAll nodeid count nWindowEnd V t).1 := by
  induction V generalizing t with
  | nil => rfl
  | cons p V ih =>
    rw [List.cons_append, visitAll, visitAll]
    by_cases hdone : (view.visit nodeid count nWindowEnd p t).2 = true
    · rw [if_pos hdone, if_pos hdone, if_pos hdone]
    · rw [if_neg hdone, if_neg hdone, ih]

/-- What the loop over the blocks of `V` leaves. -/
structure Visited (view : BlockView) (count : UInt32) (nWindowEnd : Int) (V : List Uint256)
    (t r : DownloadWalk) : Prop where
  vBlocks : r.vBlocks = (t.vBlocks ++ view.missing nWindowEnd V).take count.toNat
  last : r.pindexLastCommonBlock = t.pindexLastCommonBlock ∨
    ∃ p ∈ V, (view.entry p).nChainTx ≠ 0 ∧ r.pindexLastCommonBlock = p

/-- What one turn does: it adds the block when it is missing, and goes on, or it stops where
nothing is missing any more or nothing more is asked for. -/
theorem visit_spec (nodeid : NodeId) (ht : t.vBlocks.length < count.toNat) :
    (∃ staller, view.visit nodeid count nWindowEnd pindex t =
        ({ t with nodeStaller := staller }, true) ∧
      ∀ V : List Uint256,
        (∀ q ∈ V, view.mapBlockIndex.nHeight pindex < view.mapBlockIndex.nHeight q) →
          view.missing nWindowEnd (pindex :: V) = []) ∨
    ∃ t' l, view.visit nodeid count nWindowEnd pindex t =
        (t', decide (t'.vBlocks.length = count.toNat)) ∧
      t'.vBlocks = t.vBlocks ++ l ∧ t'.vBlocks.length ≤ count.toNat ∧
      (∀ V, view.missing nWindowEnd (pindex :: V) = l ++ view.missing nWindowEnd V) ∧
      (t'.pindexLastCommonBlock = t.pindexLastCommonBlock ∨
        (view.entry pindex).nChainTx ≠ 0 ∧ t'.pindexLastCommonBlock = pindex) := by
  have hne : decide (t.vBlocks.length = count.toNat) = false := by simp [ht.ne]
  cases hvalid : (view.entry pindex).isValid blockValidTree with
  | false =>
    exact Or.inl ⟨t.nodeStaller, by simp [visit, hvalid],
      fun V _ => missing_cons_of_not_valid hvalid⟩
  | true =>
    cases hdata : hasStatus (view.entry pindex).nStatus blockHaveData with
    | true =>
      have hskip : ∀ V, view.missing nWindowEnd (pindex :: V) = view.missing nWindowEnd V :=
        fun V => missing_cons_of_not_wanted hvalid (by simp [wanted, hdata])
      by_cases hchain : (view.entry pindex).nChainTx = 0
      · exact Or.inr ⟨t, [], by simp [visit, hvalid, hdata, hchain, hne], by simp, ht.le, hskip,
          Or.inl rfl⟩
      · exact Or.inr ⟨{ t with pindexLastCommonBlock := pindex }, [],
          by simp [visit, hvalid, hdata, hchain, hne], by simp, ht.le, hskip,
          Or.inr ⟨hchain, rfl⟩⟩
    | false =>
      cases hflight : view.mapBlocksInFlight.find pindex with
      | some e =>
        have hskip : ∀ V, view.missing nWindowEnd (pindex :: V) = view.missing nWindowEnd V :=
          fun V => missing_cons_of_not_wanted hvalid (by simp [wanted, hflight])
        by_cases hwait : t.waitingfor = -1
        · exact Or.inr ⟨{ t with waitingfor := e.1 }, [],
            by simp [visit, hvalid, hdata, hflight, hwait, hne], by simp, ht.le, hskip, Or.inl rfl⟩
        · exact Or.inr ⟨t, [], by simp [visit, hvalid, hdata, hflight, hwait, hne], by simp, ht.le,
            hskip, Or.inl rfl⟩
      | none =>
        by_cases hout : nWindowEnd < view.mapBlockIndex.nHeight pindex
        · -- what comes after is above the window too
          have hnil : ∀ V : List Uint256,
              (∀ q ∈ V, view.mapBlockIndex.nHeight pindex < view.mapBlockIndex.nHeight q) →
                view.missing nWindowEnd (pindex :: V) = [] := by
            intro V hV
            refine missing_eq_nil fun q hq => ?_
            rcases List.mem_cons.mp hq with rfl | hq
            · exact hout
            · exact hout.trans (hV q hq)
          by_cases hstall : t.vBlocks.length = 0 ∧ t.waitingfor ≠ nodeid
          · exact Or.inl ⟨t.waitingfor, by simp [visit, hvalid, hdata, hflight, hout, hstall], hnil⟩
          · refine Or.inl ⟨t.nodeStaller, ?_, hnil⟩
            simp only [visit, hvalid, hdata, hflight, hout, hstall, Bool.not_true, if_true,
              if_false, Bool.false_eq_true]
        · refine Or.inr ⟨{ t with vBlocks := t.vBlocks ++ [pindex] }, [pindex],
            by simp [visit, hvalid, hdata, hflight, hout], rfl, ?_, fun V => ?_, Or.inl rfl⟩
          · rw [List.length_append, List.length_singleton]
            exact ht
          · exact missing_cons_of_wanted hvalid
              (by simp [wanted, hdata, hflight, Int.not_lt.mp hout])

/-- **What is planned of a list of blocks** that goes up. -/
theorem visitAll_spec (nodeid : NodeId)
    (hV : V.Pairwise fun p q => view.mapBlockIndex.nHeight p < view.mapBlockIndex.nHeight q)
    (ht : t.vBlocks.length < count.toNat) :
    Visited view count nWindowEnd V t (view.visitAll nodeid count nWindowEnd V t).1 := by
  have hall : t.vBlocks = (t.vBlocks ++ []).take count.toNat := by
    rw [List.append_nil, List.take_of_length_le ht.le]
  induction V generalizing t with
  | nil => exact ⟨hall, Or.inl rfl⟩
  | cons p V ih =>
    obtain ⟨hp, hV⟩ := List.pairwise_cons.mp hV
    rw [visitAll]
    rcases visit_spec nodeid ht with ⟨staller, hvisit, hnil⟩ |
      ⟨t', l, hvisit, hadd, hle, hmissing, hlast⟩
    · rw [hvisit, if_pos rfl]
      exact ⟨by rw [hnil V hp]; exact hall, Or.inl rfl⟩
    · rw [hvisit]
      have hown : t'.pindexLastCommonBlock = t.pindexLastCommonBlock ∨
          ∃ q ∈ p :: V, (view.entry q).nChainTx ≠ 0 ∧ t'.pindexLastCommonBlock = q :=
        hlast.imp_right fun hself => ⟨p, List.mem_cons_self, hself⟩
      by_cases hfull : t'.vBlocks.length = count.toNat
      · rw [if_pos (decide_eq_true hfull)]
        refine ⟨?_, hown⟩
        rw [hmissing V, ← List.append_assoc, ← hadd, List.take_left' hfull]
      · have hroom : t'.vBlocks.length < count.toNat := by omega
        rw [if_neg (by simp [hfull])]
        have hrest := ih hV hroom (by rw [List.append_nil, List.take_of_length_le hle])
        refine ⟨?_, ?_⟩
        · rw [hrest.vBlocks, hadd, hmissing V, List.append_assoc]
        · rcases hrest.last with heq | ⟨q, hq, hchain, heq⟩
          · rw [heq]
            exact hown
          · exact Or.inr ⟨q, List.mem_cons_of_mem _ hq, hchain, heq⟩

end Visits

/-! ## The batches -/

section Batches

variable {view : BlockView} {genesis best tip : Uint256} {nodeid : NodeId} {count : UInt32}
  {nWindowEnd : Int}

theorem le_batchSize (count : UInt32) (size : Nat) : 128 ≤ batchSize count size := le_max_right _ _

/-- **The loop over the batches** visits the blocks of the branch in order, whatever the sizes
of the batches are. -/
theorem walkLoop_eq (h : view.mapBlockIndex.SkipLinked genesis)
    (hbest : view.mapBlockIndex.Has best) {nMaxHeight : Nat}
    (hmax : (nMaxHeight : Int) ≤ view.mapBlockIndex.nHeight best) (n : Nat) {d : Nat}
    {pindexWalk : Uint256} (hwalk : view.mapBlockIndex.nHeight pindexWalk = d)
    (hn : nMaxHeight ≤ d + n) (t : DownloadWalk) :
    view.walkLoop nodeid count nWindowEnd nMaxHeight best n pindexWalk t =
      some (view.visitAll nodeid count nWindowEnd
        (view.mapBlockIndex.between best (d + 1) (nMaxHeight - d)) t).1 := by
  have hdone : nMaxHeight ≤ d → some t = some (view.visitAll nodeid count nWindowEnd
      (view.mapBlockIndex.between best (d + 1) (nMaxHeight - d)) t).1 := by
    intro hle
    rw [Nat.sub_eq_zero_of_le hle]
    rfl
  induction n generalizing d pindexWalk t with
  | zero =>
    rw [walkLoop, hwalk, if_neg (by omega)]
    exact hdone hn
  | succ n ih =>
    rw [walkLoop, hwalk]
    by_cases hlt : (d : Int) < nMaxHeight
    · rw [if_pos hlt]
      have hbatch := le_batchSize count t.vBlocks.length
      obtain ⟨m, hm⟩ := Int.eq_ofNat_of_zero_le
        (a := min ((nMaxHeight : Int) - d) (batchSize count t.vBlocks.length)) (by omega)
      have hheight := h.nHeight_eq best
      obtain ⟨q, hq⟩ := Forest.ancestorAt_isSome (F := h.forest) (a := best) (n := d + m) (by omega)
      have hqdepth := Forest.depth_ancestorAt hq
      have hat : m ≠ 0 → some q = h.forest.ancestorAt best (d + 1 + m - 1) := by
        intro _
        rw [← hq]
        congr 1
        omega
      have hfill := h.fillBackwards_eq hat (by omega) []
      have hsplit : nMaxHeight - d = m + (nMaxHeight - (d + m)) := by omega
      have hnext := h.nHeight_eq q
      rw [hqdepth] at hnext
      simp only [hm, bind, Option.bind]
      rw [← Nat.cast_add, h.getAncestor_eq hbest, h.prevAt_eq, hq, Int.toNat_natCast]
      simp only [hfill, List.append_nil]
      rw [hsplit, LinkTree.between_append, visitAll_append]
      split_ifs with hreturn
      · rfl
      · rw [Nat.add_right_comm d 1 m]
        refine ih hnext (by omega) _ fun hle => ?_
        rw [Nat.sub_eq_zero_of_le hle]
        rfl
    · rw [if_neg hlt]
      exact hdone (by omega)

/-- The branch above the last common block, as far as the window goes. -/
theorem pathAfter_eq {last : Uint256} {d top n : Nat}
    (hlast : view.mapBlockIndex.nHeight last = d) (hbest : view.mapBlockIndex.nHeight best = top)
    (hle : d ≤ n) (hn : n ≤ top) :
    view.mapBlockIndex.pathAfter last best =
      view.mapBlockIndex.between best (d + 1) (n - d) ++
        view.mapBlockIndex.between best (n + 1) (top - n) := by
  have hsplit : top - d = (n - d) + (top - n) := by omega
  have hlow : d + 1 + (n - d) = n + 1 := by omega
  rw [LinkTree.pathAfter, hlast, hbest, Int.toNat_natCast, Int.toNat_natCast, hsplit,
    LinkTree.between_append, hlow]

theorem missing_pathAfter (h : view.mapBlockIndex.SkipLinked genesis) {last : Uint256}
    {d top n : Nat} (hlast : view.mapBlockIndex.nHeight last = d)
    (hbest : view.mapBlockIndex.nHeight best = top)
    (hn : (n : Int) = min (top : Int) (nWindowEnd + 1)) (hle : d ≤ n) :
    view.missing nWindowEnd (view.mapBlockIndex.pathAfter last best) =
      view.missing nWindowEnd (view.mapBlockIndex.between best (d + 1) (n - d)) := by
  rw [pathAfter_eq hlast hbest hle (by omega)]
  refine missing_append fun p hp => ?_
  obtain ⟨-, hlow, hhigh⟩ := h.mem_between hp
  rw [h.nHeight_eq]
  omega

/-! ## The start -/

/-- The best known block is known, and the last block in common is not touched. -/
theorem processBlockAvailability_spec (view : BlockView) {state : PeerBlocks}
    (hbest : ∀ b, state.pindexBestKnownBlock = some b → view.mapBlockIndex.Has b) :
    (∀ b, (view.processBlockAvailability state).pindexBestKnownBlock = some b →
      view.mapBlockIndex.Has b) ∧
    (view.processBlockAvailability state).pindexLastCommonBlock = state.pindexLastCommonBlock := by
  unfold processBlockAvailability
  dsimp only
  split_ifs with hnull hknown hbetter
  · exact ⟨hbest, rfl⟩
  · refine ⟨fun b hb => ?_, rfl⟩
    obtain rfl := Option.some.inj hb
    exact hknown.1
  · exact ⟨hbest, rfl⟩
  · exact ⟨hbest, rfl⟩

theorem tip_of_isBranch (h : view.mapBlockIndex.SkipLinked genesis)
    (hchain : CChain.IsBranch h.forest view.chainActive.vChain (some tip)) :
    view.chainActive.tip = some tip := by
  obtain ⟨hlen, hget⟩ := hchain
  rw [CChain.tip, List.getLast?_eq_getElem?, hlen, Nat.add_sub_cancel, hget _ (Nat.le_refl _),
    Forest.ancestorAt_self]
  rfl

/-- There is a block to start from. -/
theorem guessLastCommon_spec (h : view.mapBlockIndex.SkipLinked genesis)
    (htip : view.mapBlockIndex.Has tip)
    (hchain : CChain.IsBranch h.forest view.chainActive.vChain (some tip)) {state : PeerBlocks}
    (hlast : ∀ b, state.pindexLastCommonBlock = some b → view.mapBlockIndex.Has b)
    (best : Uint256) :
    ∃ old, view.guessLastCommon state best = some old ∧ view.mapBlockIndex.Has old := by
  rw [guessLastCommon]
  cases hstate : state.pindexLastCommonBlock with
  | some b => exact ⟨b, rfl, hlast b hstate⟩
  | none =>
    have hheight := h.nHeight_eq best
    obtain ⟨n, hn⟩ := Int.eq_ofNat_of_zero_le (a := min (view.mapBlockIndex.nHeight best)
      (view.mapBlockIndex.nHeight tip)) (le_min (h.nonneg best) (h.nonneg tip))
    have hle : n ≤ h.forest.depth tip := by
      have := h.nHeight_eq tip
      omega
    obtain ⟨old, hold⟩ := Forest.ancestorAt_isSome hle
    refine ⟨old, ?_, h.has_of_mem htip (Forest.mem_lineage_of_ancestorAt hold)⟩
    rw [Option.none_or, CChain.height_of_isBranch h hchain, CChain.get_of_isBranch h hchain, hn,
      h.prevAt_eq, hold]

/-- **The walk** from the last block in common. -/
theorem walkLoop_spec (h : view.mapBlockIndex.SkipLinked genesis)
    (hbest : view.mapBlockIndex.Has best) {last : Uint256} {nMaxHeight : Int}
    (hle : view.mapBlockIndex.nHeight last ≤ view.mapBlockIndex.nHeight best)
    (hwindow : view.mapBlockIndex.nHeight last ≤ nWindowEnd)
    (hmax : nMaxHeight = min (view.mapBlockIndex.nHeight best) (nWindowEnd + 1))
    (nodeid : NodeId) {t : DownloadWalk} (ht : t.vBlocks.length < count.toNat) :
    ∃ r, view.walkLoop nodeid count nWindowEnd nMaxHeight best
        (nMaxHeight - view.mapBlockIndex.nHeight last).toNat last t = some r ∧
      Visited view count nWindowEnd (view.mapBlockIndex.pathAfter last best) t r := by
  obtain ⟨d, hd⟩ := Int.eq_ofNat_of_zero_le (h.nonneg last)
  obtain ⟨top, htop⟩ := Int.eq_ofNat_of_zero_le (h.nonneg best)
  obtain ⟨N, rfl⟩ := Int.eq_ofNat_of_zero_le (a := nMaxHeight) (by omega)
  have hn : (N : Int) = min (top : Int) (nWindowEnd + 1) := by rw [← htop, hmax]
  have hlow : d ≤ N := by omega
  have hspec : Visited view count nWindowEnd (view.mapBlockIndex.between best (d + 1) (N - d)) t
      (view.visitAll nodeid count nWindowEnd
        (view.mapBlockIndex.between best (d + 1) (N - d)) t).1 :=
    visitAll_spec nodeid (h.pairwise_between best (d + 1) (N - d)) ht
  refine ⟨_, walkLoop_eq h hbest (by omega) _ hd (by omega) t, ?_, ?_⟩
  · exact (missing_pathAfter h hd htop hn hlow).symm ▸ hspec.vBlocks
  · refine hspec.last.imp_right ?_
    rintro ⟨p, hp, hrest⟩
    refine ⟨p, ?_, hrest⟩
    rw [pathAfter_eq hd htop hlow (by omega)]
    exact List.mem_append_left _ hp

end Batches

/-- Blocks of equal work, none of them downloaded. -/
def headersOnly (tree : LinkTree Uint256) (chain : CChain Uint256) : BlockView where
  mapBlockIndex := tree
  entry := fun _ => { nChainWork := 1, nStatus := blockValidTree }
  chainActive := chain
  mapBlocksInFlight := OrdMap.empty

end BlockView

end Hivemind
