import Hivemind.Validation.Selects

/-!
# The tip that `ActivateBestChain` chooses

`FindMostWorkChain` takes the last of the candidates and looks whether a block between it and the
active chain has failed; if so, it marks the blocks above as failed too, takes them off the
candidates and starts again.  `ActivateBestChainStep` disconnects down to the fork and connects
the blocks of the way one after another, and a block that is not valid on the way is marked,
which may leave another candidate as the best one.

So between the turns the tip can be a block with less work than before.  What carries the proof
is a chain that has been connected at some time, the best one so far, whose blocks cannot have
failed: the candidates are always those that are no worse than its first block, and a turn either
moves on to a better chain or loses a candidate that has failed.

* `foldl_pick_spec`, `bestCandidate_spec`: the last element of the candidates is the best of
  them.
* `findMostWorkChain_cases`: what a turn of the loop can do.
* `Selects.findMostWorkChain`: the best candidate that has no failed ancestor.
* `Connecting.connectPath`: what holds while blocks are connected on the way to it.
* `Selects.activateBestChain`: **no block that has not failed and is linked beats the new tip.**
-/

namespace Hivemind

open Codecs Ordered Outcomes

/-! ## `FindMostWorkChain` -/

/-- The loop that keeps the block with more work, from the best one so far. -/
theorem foldl_pick_spec {env : ChainEnv} {pick : Option CBlockIndex → CBlockIndex → Option CBlockIndex}
    (hpick : ∀ b a, pick (some b) a = if workComparator env b a then some a else some b)
    (l : List CBlockIndex) (b : CBlockIndex) :
    ∃ p, l.foldl pick (some b) = some p ∧ (p = b ∨ p ∈ l) ∧
      ∀ q, q = b ∨ q ∈ l → workKey env q ≤ workKey env p := by
  induction l generalizing b with
  | nil =>
      refine ⟨b, rfl, Or.inl rfl, ?_⟩
      rintro q (rfl | ⟨⟨⟩⟩)
      exact le_rfl
  | cons a l ih =>
      by_cases hworse : workComparator env b a = true
      · obtain ⟨p, hfold, hmem, hbest⟩ := ih a
        have hba := workComparator_iff.mp hworse
        refine ⟨p, ?_, ?_, ?_⟩
        · rw [List.foldl_cons, hpick, if_pos hworse, hfold]
        · rcases hmem with rfl | hmem
          · exact Or.inr (List.mem_cons_self ..)
          · exact Or.inr (List.mem_cons_of_mem _ hmem)
        · intro q hq
          rcases hq with rfl | hq
          · exact hba.le.trans (hbest a (Or.inl rfl))
          · rcases List.mem_cons.mp hq with rfl | hq
            · exact hbest _ (Or.inl rfl)
            · exact hbest q (Or.inr hq)
      · obtain ⟨p, hfold, hmem, hbest⟩ := ih b
        have hab : workKey env a ≤ workKey env b := by
          rw [workComparator_iff, not_lt] at hworse
          exact hworse
        refine ⟨p, ?_, ?_, ?_⟩
        · rw [List.foldl_cons, hpick, if_neg hworse, hfold]
        · rcases hmem with rfl | hmem
          · exact Or.inl rfl
          · exact Or.inr (List.mem_cons_of_mem _ hmem)
        · intro q hq
          rcases hq with rfl | hq
          · exact hbest _ (Or.inl rfl)
          · rcases List.mem_cons.mp hq with rfl | hq
            · exact hab.trans (hbest b (Or.inl rfl))
            · exact hbest q (Or.inr hq)

/-- The last element of the candidates is the best of them. -/
theorem bestCandidate_spec (env : ChainEnv) (tree : BlockTree) :
    (tree.bestCandidate env = none ∧
      ∀ h ∈ tree.setBlockIndexCandidates, tree.find h = none) ∨
    ∃ hash p, tree.bestCandidate env = some p ∧ hash ∈ tree.setBlockIndexCandidates ∧
      tree.find hash = some p ∧ ∀ h ∈ tree.setBlockIndexCandidates, ∀ q, tree.find h = some q →
        workKey env q ≤ workKey env p := by
  have hmemfind : ∀ h ∈ tree.setBlockIndexCandidates, ∀ q, tree.find h = some q →
      q ∈ tree.setBlockIndexCandidates.filterMap tree.find := by
    intro h hmem q hq
    exact List.mem_filterMap.mpr ⟨h, hmem, hq⟩
  cases hl : tree.setBlockIndexCandidates.filterMap tree.find with
  | nil =>
      refine Or.inl ⟨?_, ?_⟩
      · rw [BlockTree.bestCandidate, hl]
        rfl
      · intro h hmem
        cases hfind : tree.find h with
        | none => rfl
        | some q =>
            have hq := hmemfind h hmem q hfind
            rw [hl] at hq
            cases hq
  | cons b l =>
      right
      suffices hloop : ∀ pick : Option CBlockIndex → CBlockIndex → Option CBlockIndex,
          (∀ b a, pick (some b) a = if workComparator env b a then some a else some b) →
          ∃ hash p, l.foldl pick (some b) = some p ∧ hash ∈ tree.setBlockIndexCandidates ∧
            tree.find hash = some p ∧ ∀ h ∈ tree.setBlockIndexCandidates, ∀ q,
              tree.find h = some q → workKey env q ≤ workKey env p by
        rw [BlockTree.bestCandidate, hl, List.foldl_cons]
        exact hloop _ fun _ _ => rfl
      intro pick hpick
      obtain ⟨p, hfold, hmem, hbest⟩ := foldl_pick_spec hpick l b
      have hp : p ∈ tree.setBlockIndexCandidates.filterMap tree.find := by
        rw [hl]
        exact List.mem_cons.mpr hmem
      obtain ⟨hash, hhash, hfind⟩ := List.mem_filterMap.mp hp
      refine ⟨hash, p, hfold, hhash, hfind, ?_⟩
      intro h hmem q hq
      have hq' := hmemfind h hmem q hq
      rw [hl] at hq'
      exact hbest q (List.mem_cons.mp hq')

/-- No block that has not failed and is linked is better. -/
def Unbeaten (env : ChainEnv) (tree : BlockTree) (key : WithBot (ℕ ×ₗ ℕᵒᵈ ×ₗ ℕᵒᵈ)) : Prop :=
  ∀ h p, tree.find h = some p → hasStatus p.nStatus blockFailedMask = false → p.nChainTx ≠ 0 →
    workKey env p ≤ key

/-- The blocks off the active chain hold their data and have not failed. -/
def Connectable (tree : BlockTree) (path : List Uint256) : Prop :=
  ∀ h ∈ path, tree.flagged blockFailedMask h = false ∧ tree.holdsData h = true

namespace ChainState

variable {s : ChainState}

/-- Every block of the way back to the active chain is in the index. -/
theorem find_offChain {n : Nat} {o : Option Uint256} {h : Uint256} (hmem : h ∈ s.offChain n o) :
    (s.tree.find h).isSome = true ∧ h ∉ s.chainActive := by
  induction n generalizing o with
  | zero => cases hmem
  | succ n ih =>
      cases o with
      | none => cases hmem
      | some hash =>
          rw [offChain] at hmem
          split_ifs at hmem with hin
          · cases hmem
          · split at hmem
            · cases hmem
            · rename_i hfind
              rcases List.mem_cons.mp hmem with rfl | hmem
              · exact ⟨by rw [hfind]; rfl, hin⟩
              · exact ih hmem

/-- From a block of a closed list the way does not leave the list. -/
theorem offChain_subset {l : List Uint256} (hclosed : ParentClosed s.tree l) {n : Nat}
    {o : Option Uint256} (ho : ∀ x, o = some x → x ∈ l) : ∀ h ∈ s.offChain n o, h ∈ l := by
  induction n generalizing o with
  | zero => rintro h ⟨⟩
  | succ n ih =>
      cases o with
      | none => rintro h ⟨⟩
      | some hash =>
          intro h hmem
          rw [offChain] at hmem
          split_ifs at hmem
          · cases hmem
          · split at hmem
            · cases hmem
            · rename_i p hfind
              rcases List.mem_cons.mp hmem with rfl | hmem
              · exact ho _ rfl
              · exact ih (fun x hx => hclosed hash (ho _ rfl) p x hfind hx) h hmem

theorem offChain_pairwise {l : List Uint256} (hclosed : ParentClosed s.tree l) (n : Nat)
    (o : Option Uint256) : (s.offChain n o).Pairwise fun x y => x ∈ l → y ∈ l := by
  induction n generalizing o with
  | zero => exact List.Pairwise.nil
  | succ n ih =>
      cases o with
      | none => exact List.Pairwise.nil
      | some hash =>
          rw [offChain]
          split_ifs
          · exact List.Pairwise.nil
          · split
            · exact List.Pairwise.nil
            · rename_i p hfind
              refine List.pairwise_cons.mpr ⟨?_, ih _⟩
              intro y hy hmem
              exact offChain_subset hclosed (fun x hx => hclosed hash hmem p x hfind hx) y hy

end ChainState

/-- What a turn of the loop of `FindMostWorkChain` can do: it finds no candidate, or one
that can be connected, or one with a failed ancestor. -/
theorem findMostWorkChain_cases {env : ChainEnv} {n : Nat} {s s' : ChainState}
    {best : Option Uint256} (h : findMostWorkChain env (n + 1) s = some (best, s')) :
    (s.tree.bestCandidate env = none ∧ best = none ∧ s' = s) ∨
    ∃ pindexNew path, s.tree.bestCandidate env = some pindexNew ∧
      path = s.offChain (pindexNew.nHeight.toNat + 1) (some pindexNew.getBlockHash) ∧
      ((best = some pindexNew.getBlockHash ∧ s' = s ∧ Connectable s.tree path) ∨
        ∃ clean failed rest, path = clean ++ failed :: rest ∧
          s.tree.flagged blockFailedMask failed = true ∧
          findMostWorkChain env n { s with
            tree := (clean.foldl (fun tree h => tree.condemn blockFailedChild h)
              s.tree).eraseCandidate failed } = some (best, s')) := by
  rw [findMostWorkChain] at h
  cases hbest : s.tree.bestCandidate env with
  | none =>
      rw [hbest] at h
      cases h
      exact Or.inl ⟨rfl, rfl, rfl⟩
  | some pindexNew =>
      rw [hbest] at h
      refine Or.inr ⟨pindexNew, _, rfl, rfl, ?_⟩
      simp only at h
      generalize s.offChain (pindexNew.nHeight.toNat + 1) (some pindexNew.getBlockHash) = path at h ⊢
      have hsplit := path.takeWhile_append_dropWhile (p := fun h =>
        !s.tree.flagged blockFailedMask h)
      have hclean := @List.all_takeWhile _ (fun h => !s.tree.flagged blockFailedMask h) path
      split_ifs at h with hdata
      simp only [Bool.not_eq_true', Bool.not_eq_false] at hdata
      cases hrest : path.dropWhile fun h => !s.tree.flagged blockFailedMask h with
      | nil =>
          rw [hrest] at h hsplit hdata
          cases h
          refine Or.inl ⟨rfl, rfl, ?_⟩
          intro x hx
          rw [List.append_nil] at hsplit
          rw [hsplit] at hclean hdata
          simp only [List.take_nil, List.append_nil] at hdata
          refine ⟨?_, List.all_eq_true.mp hdata x hx⟩
          simpa using List.all_eq_true.mp hclean x hx
      | cons failed rest =>
          rw [hrest] at h hsplit
          refine Or.inr ⟨_, failed, rest, hsplit.symm, ?_, h⟩
          have hhead := @List.head_dropWhile_not _ (fun h => !s.tree.flagged blockFailedMask h) path
            (by rw [hrest]; exact List.cons_ne_nil _ _)
          simpa [hrest] using hhead

/-- The way to a candidate with a failed ancestor is marked: chains that have been connected
are not touched, and no candidate is lost that has not failed. -/
theorem Selects.condemnPath {env : ChainEnv} {s : ChainState} {ref : List Uint256}
    (h : Selects env s.tree ref) {n : Nat} {o : Option Uint256} {clean rest : List Uint256}
    {failed : Uint256} (hpath : s.offChain n o = clean ++ failed :: rest)
    (hfailed : s.tree.flagged blockFailedMask failed = true) :
    (∀ chain, GoodChain env s.tree chain → GoodChain env
      ((clean.foldl (fun tree h => tree.condemn blockFailedChild h) s.tree).eraseCandidate failed)
      chain) ∧
    Selects env
      ((clean.foldl (fun tree h => tree.condemn blockFailedChild h) s.tree).eraseCandidate failed)
      ref := by
  generalize htree : (clean.foldl (fun tree h => tree.condemn blockFailedChild h)
    s.tree).eraseCandidate failed = tree'
  have hre : Reflagged s.tree tree' := by
    rw [← htree]
    exact (Reflagged.foldl Reflagged.condemnChild _ _).trans (Reflagged.candidates _ _)
  have hflagged : ∀ x, tree'.flagged blockFailedMask x =
      (s.tree.flagged blockFailedMask x || (clean.contains x && (s.tree.find x).isSome)) := by
    intro x
    rw [← htree]
    exact BlockTree.flagged_condemns (by decide) (by decide) (by decide)
  -- a block of the chain among the marked ones would have the failed one as an ancestor
  have hclear : ∀ chain, GoodChain env s.tree chain → ∀ x ∈ chain,
      tree'.flagged blockFailedMask x = false := by
    intro chain hchain x hx
    have hpair := s.offChain_pairwise hchain.parentClosed n o
    rw [hpath, List.pairwise_append] at hpair
    have hnot : x ∉ clean := by
      intro hmem
      have hin := hpair.2.2 x hmem failed (List.mem_cons_self ..) hx
      rw [hchain.not_flagged hin] at hfailed
      cases hfailed
    rw [hflagged, hchain.not_flagged hx]
    simp [hnot]
  refine ⟨fun chain hchain => hchain.reflagged hre (hclear chain hchain), ?_⟩
  refine h.shrink hre ?_ (hclear ref h.chain) ?_ ?_
  · intro x hx
    rw [hflagged, Bool.or_eq_false_iff] at hx
    exact hx.1
  · intro x hx hclearx _
    rw [hflagged, Bool.or_eq_false_iff] at hclearx
    have hne : x ≠ failed := by
      rintro rfl
      rw [hclearx.1] at hfailed
      cases hfailed
    have hnot : x ∉ clean := by
      intro hmem
      have hin : x ∈ s.offChain n o := by
        rw [hpath]
        exact List.mem_append_left _ hmem
      have hsome := (ChainState.find_offChain hin).1
      simp [hmem, hsome] at hclearx
    rw [← htree]
    exact List.mem_filter.mpr ⟨BlockTree.mem_condemns.mpr ⟨hx, hnot⟩, bne_iff_ne.mpr hne⟩
  · intro x hx
    rw [← htree] at hx
    exact Or.inl (BlockTree.mem_condemns.mp (List.mem_filter.mp hx).1).1

/-- **`FindMostWorkChain`** keeps the candidates.  It finds one that nothing beats, or there
is none. -/
theorem Selects.findMostWorkChain {env : ChainEnv} {n : Nat} {s s' : ChainState}
    {ref : List Uint256} {best : Option Uint256} (hsel : Selects env s.tree ref)
    (hchain : GoodChain env s.tree s.chainActive)
    (h : findMostWorkChain env n s = some (best, s')) :
    Selects env s'.tree ref ∧ GoodChain env s'.tree s'.chainActive ∧
      s'.chainActive = s.chainActive ∧ (best = none → ref = [] ∧ Unbeaten env s'.tree ⊥) ∧
      ∀ hash, best = some hash → hash ∈ s'.tree.setBlockIndexCandidates ∧
        Unbeaten env s'.tree (keyOf env s'.tree hash) ∧
        ∀ p, s'.tree.find hash = some p →
          Connectable s'.tree (s'.offChain (p.nHeight.toNat + 1) (some hash)) := by
  induction n generalizing s with
  | zero => cases h
  | succ n ih =>
      rcases findMostWorkChain_cases h with ⟨hbest, rfl, rfl⟩ |
        ⟨pindexNew, path, hbest, rfl, ⟨rfl, rfl, hpath⟩ | ⟨clean, failed, rest, hpath, hfailed, hrest⟩⟩
      · refine ⟨hsel, hchain, rfl, fun _ => ?_, by rintro hash ⟨⟩⟩
        rcases bestCandidate_spec env s'.tree with ⟨-, hnone⟩ | ⟨hash, p, hsome, -⟩
        · obtain rfl : ref = [] := by
            cases ref with
            | nil => rfl
            | cons x ref =>
                obtain ⟨p, hfind, -⟩ := hsel.chain.mem (List.mem_cons_self ..)
                rw [hnone x (hsel.kept rfl)] at hfind
                cases hfind
          refine ⟨rfl, ?_⟩
          intro x p hfind hok hne
          have hmem := hsel.required hfind hok hne (WithBot.bot_lt_coe _)
          rw [hnone x hmem] at hfind
          cases hfind
        · rw [hbest] at hsome
          cases hsome
      · refine ⟨hsel, hchain, rfl, by rintro ⟨⟩, ?_⟩
        rintro _ ⟨⟩
        rcases bestCandidate_spec env s'.tree with ⟨hnone, -⟩ | ⟨hash, p, hsome, hmem, hfind, hmax⟩
        · rw [hbest] at hnone
          cases hnone
        rw [hbest] at hsome
        cases hsome
        have hhash : pindexNew.getBlockHash = hash := by
          rw [CBlockIndex.getBlockHash, hsel.inv.hashes hfind, Option.getD_some]
        rw [hhash] at hpath ⊢
        refine ⟨hmem, ?_, ?_⟩
        · intro x p hx hok hne
          rw [keyOf_of_find hfind, WithBot.coe_le_coe]
          by_contra hlt
          rw [not_le] at hlt
          -- it is better than the first block of the chain, which is a candidate
          have hhead : headKey env s'.tree ref ≤ workKey env pindexNew := by
            cases ref with
            | nil => exact bot_le
            | cons y ref =>
                obtain ⟨q, hq, -⟩ := hsel.chain.mem (List.mem_cons_self ..)
                rw [headKey, keyOf_of_find hq, WithBot.coe_le_coe]
                exact hmax y (hsel.kept rfl) q hq
          have hcand := hsel.required hx hok hne (hhead.trans_lt (WithBot.coe_lt_coe.mpr hlt))
          exact absurd (hmax x hcand p hx) (not_le.mpr hlt)
        · intro p hp
          rw [hfind] at hp
          cases hp
          exact hpath
      · obtain ⟨hgood, hsel'⟩ := hsel.condemnPath hpath hfailed
        have hnext := @ih ⟨_, s.chainActive⟩ hsel' (hgood _ hchain) hrest
        exact hnext

/-! ## `ActivateBestChain` -/

/-- Connecting a block leaves the failed blocks as they are. -/
theorem flagged_connectedState {env : ChainEnv} {s : ChainState} {hash x : Uint256}
    {pindex : CBlockIndex} (hfind : s.tree.find hash = some pindex) :
    (connectedState env s hash pindex).tree.flagged blockFailedMask x =
      s.tree.flagged blockFailedMask x := by
  have hentry : hasStatus (connectedEntry env hash pindex).nStatus blockFailedMask =
      hasStatus pindex.nStatus blockFailedMask := by
    unfold connectedEntry
    split_ifs
    · rfl
    · rw [CBlockIndex.hasStatus_raiseValidity _ (by decide) (by decide), hasStatus_or]
      exact Bool.or_false _
    · exact CBlockIndex.hasStatus_raiseValidity _ (by decide) (by decide)
    · rfl
  show (s.tree.put hash (connectedEntry env hash pindex)).flagged blockFailedMask x = _
  by_cases hx : x = hash
  · subst hx
    rw [BlockTree.flagged_of_find (BlockTree.find_put_self ..), BlockTree.flagged_of_find hfind,
      hentry]
  · rw [BlockTree.flagged, BlockTree.find_put_of_ne _ _ hx, ← BlockTree.flagged]

/-- A candidate that is not worse than the connected block stays. -/
theorem mem_connectedState {env : ChainEnv} {s : ChainState} {hash x : Uint256}
    {pindex : CBlockIndex} (hfind : s.tree.find hash = some pindex)
    (hx : x ∈ s.tree.setBlockIndexCandidates)
    (hle : keyOf env s.tree hash ≤ keyOf env s.tree x) :
    x ∈ (connectedState env s hash pindex).tree.setBlockIndexCandidates := by
  have hre : Reflagged s.tree (s.tree.put hash (connectedEntry env hash pindex)) :=
    Reflagged.put hfind (SameBlock.connectedEntry env hash pindex)
  refine List.mem_filter.mpr ⟨hx, ?_⟩
  rw [Bool.not_eq_true', Bool.eq_false_iff]
  intro hworse
  rw [Option.any_eq_true] at hworse
  obtain ⟨p, hp, hlt⟩ := hworse
  rw [workComparator_iff, workKey_sameBlock (SameBlock.connectedEntry env hash pindex)] at hlt
  rw [← keyOf_reflagged hre x, keyOf_of_find hp, keyOf_of_find hfind, WithBot.coe_le_coe] at hle
  exact absurd hlt (not_lt.mpr hle)

/-- What holds while blocks are connected on the way to the best candidate. -/
structure Connecting (env : ChainEnv) (best : Uint256) (s : ChainState) (ref : List Uint256) :
    Prop where
  selects : Selects env s.tree ref
  chain : GoodChain env s.tree s.chainActive
  connected : s.chainActive ≠ [] → ref ≠ []
  unbeaten : Unbeaten env s.tree (keyOf env s.tree best)
  candidate : env.connectTip best = .valid → best ∈ s.tree.setBlockIndexCandidates

namespace Connecting

variable {env : ChainEnv} {best : Uint256} {s : ChainState} {ref : List Uint256}

/-- No block becomes linked or loses its flags. -/
theorem unbeaten_reflagged {tree tree' : BlockTree} {hash : Uint256} (hre : Reflagged tree tree')
    (hstay : ∀ x, tree'.flagged blockFailedMask x = false → tree.flagged blockFailedMask x = false)
    (h : Unbeaten env tree (keyOf env tree hash)) :
    Unbeaten env tree' (keyOf env tree' hash) := by
  intro x p' hx hok hne
  obtain ⟨p, hfind, hsame⟩ := hre.back hx
  have hold := hstay x (by rw [BlockTree.flagged_of_find hx, hok])
  rw [BlockTree.flagged_of_find hfind] at hold
  rw [keyOf_reflagged hre, workKey_sameBlock hsame]
  refine h x p hfind hold ?_
  rw [hsame.eq] at hne
  exact hne

/-- A block on the way is linked. -/
theorem linked_of_holdsData (inv : TreeInv s.tree []) {hash : Uint256} {p : CBlockIndex}
    (hfind : s.tree.find hash = some p) (hholds : s.tree.holdsData hash = true) :
    hasStatus p.nStatus blockHaveData = true ∧ p.nChainTx ≠ 0 := by
  rw [BlockTree.holdsData, hfind, Option.any_some, Bool.and_eq_true, Bool.or_eq_true, bne_iff_ne,
    beq_iff_eq] at hholds
  obtain ⟨hdata, hlinked | hzero⟩ := hholds
  · exact ⟨hdata, hlinked⟩
  · refine ⟨hdata, ?_⟩
    have hroot : p.pprev = none := by
      by_contra hne
      have := (inv.heights hfind).2 hne
      omega
    rcases inv.root hfind hdata hroot with hmem | hne
    · cases hmem
    · exact hne

/-- **A block is connected.**  The chain that the candidates are relative to is left for the
new one when that is better. -/
theorem connectedState (h : Connecting env best s ref) {hash : Uint256} {pindex : CBlockIndex}
    (hfind : s.tree.find hash = some pindex) (hprev : pindex.pprev = s.tip)
    (hvalid : env.connectTip hash = .valid)
    (hok : s.tree.flagged blockFailedMask hash = false) (hholds : s.tree.holdsData hash = true) :
    ∃ ref', Connecting env best (connectedState env s hash pindex) ref' := by
  obtain ⟨hdata, hlinked⟩ := linked_of_holdsData h.selects.inv hfind hholds
  rw [BlockTree.flagged_of_find hfind] at hok
  have hnew : GoodChain env s.tree (hash :: s.chainActive) :=
    GoodChain.cons hfind hprev hdata hok hvalid h.chain
  have hre : Reflagged s.tree (Hivemind.connectedState env s hash pindex).tree :=
    Reflagged.connectedState hfind
  have hclear : ∀ chain, GoodChain env s.tree chain → ∀ x ∈ chain,
      (Hivemind.connectedState env s hash pindex).tree.flagged blockFailedMask x = false := by
    intro chain hchain x hx
    rw [flagged_connectedState hfind]
    exact hchain.not_flagged hx
  have hstay : ∀ x, (Hivemind.connectedState env s hash pindex).tree.flagged blockFailedMask x =
      false → s.tree.flagged blockFailedMask x = false := by
    intro x hx
    rwa [flagged_connectedState hfind] at hx
  have hrest : ∀ ref', Selects env s.tree ref' → ref' ≠ [] →
      keyOf env s.tree hash ≤ headKey env s.tree ref' →
      Connecting env best (Hivemind.connectedState env s hash pindex) ref' := by
    intro ref' hsel hne hle
    refine ⟨?_, hnew.reflagged hre (hclear _ hnew), fun _ => hne,
      unbeaten_reflagged hre hstay h.unbeaten, ?_⟩
    · refine hsel.shrink hre hstay (hclear ref' hsel.chain) ?_ ?_
      · intro x hx _ hle'
        exact mem_connectedState hfind hx (hle.trans hle')
      · intro x hx
        exact Or.inl (List.mem_filter.mp hx).1
    · intro hbest
      refine mem_connectedState hfind (h.candidate hbest) ?_
      rw [keyOf_of_find hfind]
      exact h.unbeaten hash pindex hfind hok hlinked
  by_cases hbetter : headKey env s.tree ref < keyOf env s.tree hash
  · refine ⟨hash :: s.chainActive, hrest _ ?_ (List.cons_ne_nil _ _) le_rfl⟩
    refine ⟨h.selects.inv, hnew, ?_, ?_, h.selects.settled⟩
    · intro x p hx hokx hne hlt
      exact h.selects.required hx hokx hne (hbetter.trans hlt)
    · rintro x ⟨⟩
      rw [keyOf_of_find hfind] at hbetter
      exact h.selects.required hfind hok hlinked hbetter
  · rw [not_lt] at hbetter
    refine ⟨ref, hrest ref h.selects ?_ hbetter⟩
    rintro rfl
    rw [keyOf_of_find hfind] at hbetter
    exact absurd (WithBot.bot_lt_coe _) (not_lt.mpr hbetter)

/-- A block that is not valid is marked. -/
theorem condemn (h : Connecting env best s ref) {hash : Uint256} {pindex : CBlockIndex}
    (hfind : s.tree.find hash = some pindex) (hinvalid : env.connectTip hash ≠ .valid) :
    Connecting env best { s with tree := s.tree.condemn blockFailedValid hash } ref := by
  have hre := Reflagged.condemnValid s.tree hash
  have hflagged : ∀ x, (s.tree.condemn blockFailedValid hash).flagged blockFailedMask x =
      (s.tree.flagged blockFailedMask x || (x == hash && (s.tree.find x).isSome)) :=
    fun x => BlockTree.flagged_condemn (by decide)
  have hclear : ∀ chain, GoodChain env s.tree chain → ∀ x ∈ chain,
      (s.tree.condemn blockFailedValid hash).flagged blockFailedMask x = false := by
    intro chain hchain x hx
    have hne : x ≠ hash := by
      rintro rfl
      obtain ⟨p, -, -, -, hvalid⟩ := hchain.mem hx
      exact hinvalid hvalid
    rw [hflagged, hchain.not_flagged hx, beq_eq_false_iff_ne.mpr hne]
    rfl
  have hstay : ∀ x, (s.tree.condemn blockFailedValid hash).flagged blockFailedMask x = false →
      s.tree.flagged blockFailedMask x = false := by
    intro x hx
    rw [hflagged, Bool.or_eq_false_iff] at hx
    exact hx.1
  refine ⟨?_, h.chain.reflagged hre (hclear _ h.chain), h.connected,
    unbeaten_reflagged hre hstay h.unbeaten, ?_⟩
  · refine h.selects.shrink hre hstay (hclear ref h.selects.chain) ?_ ?_
    · intro x hx hclearx hle
      refine BlockTree.mem_condemn.mpr ⟨hx, ?_⟩
      rintro rfl
      rw [hflagged, hfind] at hclearx
      simp at hclearx
    · intro x hx
      exact Or.inl (BlockTree.mem_condemn.mp hx).1
  · intro hbest
    refine BlockTree.mem_condemn.mpr ⟨h.candidate hbest, ?_⟩
    rintro rfl
    exact hinvalid hbest

/-- **The loop that connects blocks**, when no system error stops it. -/
theorem connectPath {old : Option CBlockIndex} {path : List Uint256} {s' : ChainState} {ok : Bool}
    (h : Connecting env best s ref) (hpath : Connectable s.tree path)
    (herror : ∀ x, env.connectTip x ≠ .failed)
    (hrun : connectPath env old path s = some (ok, s')) :
    ok = true ∧ ∃ ref', Connecting env best s' ref' := by
  induction path generalizing s ref with
  | nil =>
      cases hrun
      exact ⟨rfl, ref, h⟩
  | cons hash path ih =>
      obtain ⟨hok, hholds⟩ := hpath hash (List.mem_cons_self ..)
      obtain ⟨pindex, hfind, hprev, ⟨hfailed, -⟩ | ⟨-, rfl, rfl⟩ | ⟨hinvalid, rfl, rfl⟩ |
        ⟨hvalid, rfl, rfl⟩ | ⟨hvalid, hrest⟩⟩ := connectPath_cons hrun
      · exact absurd hfailed (herror hash)
      · exact ⟨rfl, ref, h⟩
      · refine ⟨rfl, ref, h.condemn hfind ?_⟩
        rw [hinvalid]
        exact TipVerdict.noConfusion
      · exact ⟨rfl, h.connectedState hfind hprev hvalid hok hholds⟩
      · obtain ⟨ref', h'⟩ := h.connectedState hfind hprev hvalid hok hholds
        refine ih h' ?_ hrest
        intro x hx
        obtain ⟨hokx, hholdsx⟩ := hpath x (List.mem_cons_of_mem _ hx)
        refine ⟨by rw [flagged_connectedState hfind, hokx], ?_⟩
        -- the data of the blocks stay where they are
        rw [BlockTree.holdsData, Option.any_eq_true] at hholdsx
        obtain ⟨p, hp, hdata⟩ := hholdsx
        obtain ⟨p', hp', hsame⟩ := (Reflagged.connectedState hfind).find_some x p hp
        rw [BlockTree.holdsData, hp', Option.any_some, hsame.data, hsame.eq]
        exact hdata

end Connecting

/-- No system error stops `ActivateBestChain` or `InvalidateBlock`. -/
structure ChainEnv.NoError (env : ChainEnv) : Prop where
  connectTip : ∀ hash, env.connectTip hash ≠ .failed
  disconnectTip : ∀ hash, env.disconnectTip hash = true

/-- Blocks are taken off the end of the chain. -/
theorem disconnectTo_append {env : ChainEnv} (henv : env.NoError) {fork : Option Uint256}
    {chain chain' : List Uint256} {ok : Bool}
    (h : disconnectTo env fork chain = some (ok, chain')) :
    ok = true ∧ ∃ above, chain = above ++ chain' := by
  induction chain with
  | nil =>
      cases h
      exact ⟨rfl, [], rfl⟩
  | cons hash chain ih =>
      rw [disconnectTo, henv.disconnectTip] at h
      split_ifs at h with hfork hfalse
      · cases h
        exact ⟨rfl, [], rfl⟩
      · cases hfalse
      · obtain ⟨hok, above, rfl⟩ := ih h
        exact ⟨hok, hash :: above, rfl⟩

/-- **`ActivateBestChainStep`**. -/
theorem Connecting.step {env : ChainEnv} (henv : env.NoError) {best : Uint256} {s s' : ChainState}
    {ref : List Uint256} {ok : Bool} (h : Connecting env best s ref)
    (hpath : ∀ p, s.tree.find best = some p →
      Connectable s.tree (s.offChain (p.nHeight.toNat + 1) (some best)))
    (hstep : activateBestChainStep env s best = some (ok, s')) :
    ok = true ∧ ∃ ref', Connecting env best s' ref' := by
  rw [activateBestChainStep] at hstep
  cases hfind : s.tree.find best with
  | none =>
      rw [hfind] at hstep
      cases hstep
  | some pindex =>
      rw [hfind] at hstep
      simp only at hstep
      cases hdisc : disconnectTo env (s.findFork (pindex.nHeight.toNat + 1) (some best))
          s.chainActive with
      | none =>
          rw [hdisc] at hstep
          cases hstep
      | some res =>
          obtain ⟨ok', chain⟩ := res
          rw [hdisc] at hstep
          obtain ⟨rfl, above, habove⟩ := disconnectTo_append henv hdisc
          have hcut : Connecting env best { s with chainActive := chain } ref := by
            have hgood := h.chain
            rw [habove] at hgood
            refine ⟨h.selects, hgood.of_append, ?_, h.unbeaten, h.candidate⟩
            intro hne
            refine h.connected ?_
            rw [habove]
            exact List.append_ne_nil_of_right_ne_nil _ hne
          refine hcut.connectPath ?_ henv.connectTip hstep
          intro x hx
          exact hpath pindex hfind x (List.mem_reverse.mp hx)

/-- The best candidate is the tip. -/
theorem Connecting.settled {env : ChainEnv} {best : Uint256} {s : ChainState} {ref : List Uint256}
    (h : Connecting env best s ref) (htip : some best = s.tip) :
    Selects env s.tree s.chainActive ∧ Unbeaten env s.tree (headKey env s.tree s.chainActive) := by
  have hkey := @headKey_of_head env s.tree _ _ htip.symm
  have hbest := h.unbeaten
  rw [← hkey] at hbest
  refine ⟨⟨h.selects.inv, h.chain, ?_, ?_, h.selects.settled⟩, hbest⟩
  · intro x p hx hok hne hlt
    exact absurd hlt (not_lt.mpr (hbest x p hx hok hne))
  · intro x hx
    obtain rfl : best = x := Option.some.inj (htip.trans hx)
    obtain ⟨p, -, -, -, hvalid⟩ := h.chain.mem (List.mem_of_mem_head? hx)
    exact h.candidate hvalid

/-- **`ActivateBestChain`**: the candidates are relative to the new chain, and nothing beats
its tip. -/
theorem Selects.activateBestChain {env : ChainEnv} (henv : env.NoError) {n : Nat}
    {s s' : ChainState} {ref : List Uint256} {ok : Bool} (hsel : Selects env s.tree ref)
    (hchain : GoodChain env s.tree s.chainActive) (hconnected : s.chainActive ≠ [] → ref ≠ [])
    (h : activateBestChain env n s = some (ok, s')) :
    Selects env s'.tree s'.chainActive ∧
      Unbeaten env s'.tree (headKey env s'.tree s'.chainActive) := by
  induction n generalizing s ref with
  | zero => cases h
  | succ n ih =>
      rw [Hivemind.activateBestChain] at h
      cases hfound : Hivemind.findMostWorkChain env (s.tree.setBlockIndexCandidates.length + 1) s with
      | none =>
          rw [hfound] at h
          cases h
      | some res =>
          obtain ⟨best, s₁⟩ := res
          rw [hfound] at h
          obtain ⟨hsel₁, hchain₁, hsame, hnone, hsome⟩ := hsel.findMostWorkChain hchain hfound
          cases best with
          | none =>
              cases h
              obtain ⟨rfl, hbest⟩ := hnone rfl
              have hnil : s'.chainActive = [] := by
                by_contra hne
                rw [hsame] at hne
                exact hconnected hne rfl
              rw [hnil]
              exact ⟨hsel₁, hbest⟩
          | some best =>
              obtain ⟨hmem, hbest, hpath⟩ := hsome best rfl
              have hconn : Connecting env best s₁ ref :=
                ⟨hsel₁, hchain₁, hsame ▸ hconnected, hbest, fun _ => hmem⟩
              simp only at h
              split_ifs at h with htip
              · cases h
                exact hconn.settled htip
              · cases hstep : activateBestChainStep env s₁ best with
                | none =>
                    rw [hstep] at h
                    cases h
                | some res =>
                    obtain ⟨ok', s₂⟩ := res
                    rw [hstep] at h
                    obtain ⟨rfl, ref', hconn'⟩ := hconn.step henv hpath hstep
                    simp only at h
                    split_ifs at h with htip'
                    · cases h
                      exact hconn'.settled htip'
                    · exact ih hconn'.selects hconn'.chain hconn'.connected h

end Hivemind
