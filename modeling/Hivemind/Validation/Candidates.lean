import Hivemind.Validation.MostWork

/-!
# The candidates for the tip after a run

`InvalidateBlock` takes blocks off the active chain, and with that other blocks may become
better than the tip.  The source adds the invalid block to the candidates in their place.
`ReconsiderBlock` clears the flags of the ancestors of the block and does not add them.
Where there is nothing to add, both keep the candidates as they should be.

`setBlockIndexCandidates` is ordered by work, sequence number and address, and is searched by
that order.  The sequence number of a block is written when its data come, so that a block
without data would be left in a place that is no longer its own.  Only `InvalidateBlock` can
put such a block among the candidates; where it does not, every candidate keeps its place,
and the last element of the set is the best of its members.

* `StillCandidates`, `AncestorsCandidates`: the calls of the two functions that have nothing
  to add.
* `InsertsData`: the calls of `InvalidateBlock` that put no block without data in the set.
* `candidates_of_run`: the candidates after a run, the tip after `ActivateBestChain`, and the
  places of the candidates along the run.
* `fork_not_candidate`: a run that leaves the node on a chain with less work.
-/

namespace Hivemind

open Codecs Ordered Outcomes

/-! ## `InvalidateBlock` -/

/-- The blocks that `InvalidateBlock` disconnects: those from the tip down to the block, if
it is in the active chain. -/
theorem disconnectInvalid_spec {env : ChainEnv} (henv : env.NoError) {hash : Uint256}
    {chain : List Uint256} {tree : BlockTree} {s' : ChainState} {ok : Bool}
    (h : disconnectInvalid env hash chain tree = some (ok, s')) :
    ok = true ∧ ∃ walked, chain = walked ++ s'.chainActive ∧
      s'.tree = walked.foldl (fun tree h => tree.condemn blockFailedChild h) tree ∧
      ((walked = [] ∧ hash ∉ chain) ∨ ∃ above, walked = above ++ [hash]) := by
  induction chain generalizing tree with
  | nil =>
      cases h
      exact ⟨rfl, [], rfl, rfl, Or.inl ⟨rfl, List.not_mem_nil⟩⟩
  | cons x chain ih =>
      rw [disconnectInvalid, henv.disconnectTip] at h
      by_cases hmem : hash ∈ x :: chain
      · simp only [hmem, not_true, if_false, Bool.not_true, Bool.false_eq_true] at h
        split_ifs at h
        obtain ⟨hok, walked, rfl, htree, hcase⟩ := ih h
        refine ⟨hok, x :: walked, rfl, htree, Or.inr ?_⟩
        rcases hcase with ⟨rfl, hnot⟩ | ⟨above, rfl⟩
        · rcases List.mem_cons.mp hmem with rfl | hmem
          · exact ⟨[], rfl⟩
          · exact absurd hmem hnot
        · exact ⟨x :: above, rfl⟩
      · rw [if_pos hmem] at h
        cases h
        exact ⟨rfl, [], rfl, rfl, Or.inl ⟨rfl, hmem⟩⟩

/-- The tests on a list of blocks, when there is a tip and one of them succeeds. -/
theorem mayBeCandidate_of_any {env : ChainEnv} {tip : Option CBlockIndex}
    {es : List (Uint256 × CBlockIndex)} {tests : List Bool}
    (h : es.mapM (fun e => mayBeCandidate env tip e.2) = some tests)
    (hany : tests.any id = true) : ∃ e ∈ es, mayBeCandidate env tip e.2 = some true := by
  induction es generalizing tests with
  | nil =>
      cases h
      cases hany
  | cons e es ih =>
      rw [List.mapM_cons] at h
      obtain ⟨b, hb, h⟩ := Option.bind_eq_some_iff.mp h
      obtain ⟨rest, hrest, h⟩ := Option.bind_eq_some_iff.mp h
      cases h
      rw [List.any_cons, Bool.or_eq_true] at hany
      rcases hany with hhead | hany
      · obtain rfl : b = true := hhead
        exact ⟨e, List.mem_cons_self .., hb⟩
      · obtain ⟨e', he', htest⟩ := ih hrest hany
        exact ⟨e', List.mem_cons_of_mem _ he', htest⟩

/-- What `InvalidateBlock` does: the invalid block is inserted in the end only if some block
passes the tests. -/
theorem invalidateBlock_cases {env : ChainEnv} {s s' : ChainState} {hash : Uint256} {ok : Bool}
    (h : invalidateBlock env s hash = some (ok, s')) :
    s' = s ∨ ∃ p ok₁ s₁, s.tree.find hash = some p ∧
      disconnectInvalid env hash s.chainActive (s.tree.condemn blockFailedValid hash) =
        some (ok₁, s₁) ∧ (s' = s₁ ∨ (s' = { s₁ with tree := s₁.tree.insertCandidate hash } ∧
          ∃ x q, s₁.tree.find x = some q ∧ mayBeCandidate env s₁.tipIndex q = some true)) := by
  rw [invalidateBlock] at h
  cases hfind : s.tree.find hash with
  | none =>
      rw [hfind] at h
      cases h
      exact Or.inl rfl
  | some p =>
      rw [hfind] at h
      right
      cases hdisc : disconnectInvalid env hash s.chainActive
          (s.tree.condemn blockFailedValid hash) with
      | none =>
          simp only [hdisc] at h
          cases h
      | some res =>
          obtain ⟨ok₁, s₁⟩ := res
          simp only [hdisc] at h
          refine ⟨p, ok₁, s₁, rfl, rfl, ?_⟩
          cases ok₁ with
          | false =>
              cases h
              exact Or.inl rfl
          | true =>
              obtain ⟨tests, htests, heq⟩ := Option.bind_eq_some_iff.mp h
              cases heq
              by_cases hany : tests.any id = true
              · obtain ⟨e, he, htest⟩ := mayBeCandidate_of_any htests hany
                rw [if_pos hany]
                exact Or.inr ⟨rfl, e.1, e.2, OrdMap.find_eq_some.mpr he, htest⟩
              · exact Or.inl (by rw [if_neg hany])

/-- A block that passes the tests has not failed, is linked and beats the tip. -/
theorem of_mayBeCandidate {env : ChainEnv} {tip : Option CBlockIndex} {p : CBlockIndex}
    (h : mayBeCandidate env tip p = some true) :
    hasStatus p.nStatus blockFailedMask = false ∧ p.nChainTx ≠ 0 ∧
      ∀ t, tip = some t → workComparator env t p = true := by
  rw [mayBeCandidate] at h
  split_ifs at h with htests
  · rw [Bool.and_eq_true, bne_iff_ne, CBlockIndex.isValid, Bool.and_eq_true,
      Bool.not_eq_true'] at htests
    refine ⟨htests.1.1, htests.2, ?_⟩
    rintro t rfl
    exact Option.some.inj h
  · cases h

/-- The block is better than the tip, if there is one. -/
def BeatsTip (env : ChainEnv) (s : ChainState) (pindex : CBlockIndex) : Prop :=
  ∀ tip, s.tipIndex = some tip → workComparator env tip pindex = true

/-- Nothing has to be added to the candidates when the block is invalidated: if it is in the
active chain, the block below it and all blocks that are better than that are still among
them. -/
def StillCandidates (env : ChainEnv) (s : ChainState) (hash : Uint256) : Prop :=
  ∀ above below, s.chainActive = above ++ hash :: below →
    (∀ h, below.head? = some h → h ∈ s.tree.setBlockIndexCandidates) ∧
    ∀ h p, s.tree.find h = some p → h ∉ hash :: above →
      hasStatus p.nStatus blockFailedMask = false → p.nChainTx ≠ 0 →
      (∀ tip, below.head?.bind s.tree.find = some tip → workComparator env tip p = true) →
      h ∈ s.tree.setBlockIndexCandidates

/-- `InvalidateBlock` puts no block without data in the set: the data of the block have come,
or no block that has not failed and is linked beats the tip. -/
def InsertsData (env : ChainEnv) (s : ChainState) (hash : Uint256) : Prop :=
  ∀ pindex, s.tree.find hash = some pindex → hasStatus pindex.nStatus blockHaveData = true ∨
    ∀ h p, s.tree.find h = some p → hasStatus p.nStatus blockFailedMask = false →
      p.nChainTx ≠ 0 → ¬ BeatsTip env s p

/-- What has become of the index when the blocks are disconnected: the block and those above
it have failed and are no candidates, and the others are as they were. -/
theorem Selects.disconnectInvalid {env : ChainEnv} (henv : env.NoError) {s s' : ChainState}
    {hash : Uint256} {ok : Bool} (hsel : Selects env s.tree s.chainActive)
    (h : disconnectInvalid env hash s.chainActive (s.tree.condemn blockFailedValid hash) =
      some (ok, s')) :
    ∃ walked, s.chainActive = walked ++ s'.chainActive ∧ Reflagged s.tree s'.tree ∧
      ((walked = [] ∧ hash ∉ s.chainActive) ∨ ∃ above, walked = above ++ [hash]) ∧
      (∀ x, s'.tree.flagged blockFailedMask x = (s.tree.flagged blockFailedMask x ||
        ((hash :: walked).contains x && (s.tree.find x).isSome))) ∧
      (∀ x, x ∈ s'.tree.setBlockIndexCandidates ↔
        x ∈ s.tree.setBlockIndexCandidates ∧ x ∉ hash :: walked) ∧
      ∀ x ∈ s'.chainActive, x ∉ hash :: walked := by
  obtain ⟨-, walked, hchain, htree, hcase⟩ := disconnectInvalid_spec henv h
  have hnodup := hsel.chain.nodup
  refine ⟨walked, hchain, ?_, hcase, ?_, ?_, ?_⟩
  · -- the block is marked first, and then the blocks above it
    rw [htree]
    exact (Reflagged.condemnValid _ _).trans (Reflagged.foldl Reflagged.condemnChild _ _)
  · intro x
    rw [htree, BlockTree.flagged_condemns (by decide) (by decide) (by decide),
      BlockTree.flagged_condemn (by decide), List.contains_cons,
      BlockTree.isSome_find_condemn (by decide) (by decide)]
    cases s.tree.flagged blockFailedMask x <;> cases (s.tree.find x).isSome <;> simp
  · intro x
    rw [htree, BlockTree.mem_condemns, BlockTree.mem_condemn, List.mem_cons, not_or, and_assoc]
  · intro x hx
    rw [hchain] at hnodup
    have hdisjoint := (List.nodup_append.mp hnodup).2.2
    rw [List.mem_cons, not_or]
    refine ⟨?_, fun hw => hdisjoint x hw x hx rfl⟩
    rintro rfl
    rcases hcase with ⟨rfl, hnot⟩ | ⟨above, rfl⟩
    · rw [hchain] at hnot
      exact hnot hx
    · exact hdisjoint x (List.mem_append_right _ (List.mem_singleton.mpr rfl)) x hx rfl

/-- The candidates that `StillCandidates` is about, for the chain that is left. -/
theorem StillCandidates.disconnected {env : ChainEnv} {s : ChainState} {hash : Uint256}
    {walked chain : List Uint256} (hstill : StillCandidates env s hash)
    (hsel : Selects env s.tree s.chainActive) (hchain : s.chainActive = walked ++ chain)
    (hcase : (walked = [] ∧ hash ∉ s.chainActive) ∨ ∃ above, walked = above ++ [hash]) :
    (∀ x, chain.head? = some x → x ∈ s.tree.setBlockIndexCandidates) ∧
      ∀ x q, s.tree.find x = some q → x ∉ hash :: walked →
        hasStatus q.nStatus blockFailedMask = false → q.nChainTx ≠ 0 →
        headKey env s.tree chain < workKey env q → x ∈ s.tree.setBlockIndexCandidates := by
  rcases hcase with ⟨rfl, hnot⟩ | ⟨above, rfl⟩
  · rw [List.nil_append] at hchain
    rw [← hchain]
    exact ⟨fun x hx => hsel.kept hx, fun x q hq _ hok hne hlt => hsel.required hq hok hne hlt⟩
  · obtain ⟨htip, hbetter⟩ := hstill above chain (by simp [hchain])
    refine ⟨htip, ?_⟩
    intro x q hq hnot hok hne hlt
    refine hbetter x q hq ?_ hok hne (headKey_lt_iff.mp hlt)
    intro hx
    refine hnot ?_
    rcases List.mem_cons.mp hx with rfl | hx
    · exact List.mem_cons_self ..
    · exact List.mem_cons_of_mem _ (List.mem_append_left _ hx)

/-- **`InvalidateBlock`** when nothing has to be added to the candidates. -/
theorem Selects.invalidateBlock {env : ChainEnv} (henv : env.NoError) {s s' : ChainState}
    {hash : Uint256} {ok : Bool} (hsel : Selects env s.tree s.chainActive)
    (hstill : StillCandidates env s hash) (hdata : InsertsData env s hash)
    (h : invalidateBlock env s hash = some (ok, s')) : Selects env s'.tree s'.chainActive := by
  rcases invalidateBlock_cases h with rfl | ⟨p, ok₁, s₁, hfind, hdisc, hs'⟩
  · exact hsel
  obtain ⟨walked, hchain, hre, hcase, hflagged, hmem, hbelow⟩ := hsel.disconnectInvalid henv hdisc
  have hold := hstill.disconnected hsel hchain hcase
  have hgood := hsel.chain
  rw [hchain] at hgood
  have hclear : ∀ x ∈ s₁.chainActive, s₁.tree.flagged blockFailedMask x = false := by
    intro x hx
    have hnot : (hash :: walked).contains x = false := by
      simpa using hbelow x hx
    rw [hflagged, hgood.not_flagged (List.mem_append_right _ hx), hnot]
    rfl
  -- a block that has not failed now had not failed, and none of the marked ones
  have hback : ∀ x q, s.tree.find x = some q → s₁.tree.flagged blockFailedMask x = false →
      hasStatus q.nStatus blockFailedMask = false ∧ x ∉ hash :: walked := by
    intro x q hq hx
    rw [hflagged, Bool.or_eq_false_iff, BlockTree.flagged_of_find hq, hq] at hx
    refine ⟨hx.1, ?_⟩
    simpa using hx.2
  suffices hmain : Selects env s₁.tree s₁.chainActive by
    rcases hs' with rfl | ⟨rfl, x, q', hx, htest⟩
    · exact hmain
    refine hmain.insertCandidate ?_
    by_cases hp : hasStatus p.nStatus blockHaveData = true
    · refine hasData_reflagged hre ?_
      rw [BlockTree.hasData_of_find hfind, hp]
    · -- the active chain is what it was, and the block that passes the tests passed them before
      exfalso
      have hactive : s₁.chainActive = s.chainActive := by
        rcases hcase with ⟨rfl, -⟩ | ⟨above, rfl⟩
        · exact hchain.symm
        · obtain ⟨r, hr, hrdata, -⟩ := hgood.mem (List.mem_append_left _
            (List.mem_append_right _ (List.mem_singleton.mpr rfl)))
          rw [hfind] at hr
          cases hr
          exact absurd hrdata hp
      obtain ⟨hok, hlinked, hbeats⟩ := of_mayBeCandidate htest
      obtain ⟨q, hq, hsame⟩ := hre.back hx
      obtain ⟨hokq, -⟩ := hback x q hq (by rw [BlockTree.flagged_of_find hx, hok])
      rw [hsame.eq] at hlinked
      have hlt : headKey env s₁.tree s₁.chainActive < workKey env q' := headKey_lt_iff.mpr hbeats
      rw [headKey_reflagged hre, workKey_sameBlock hsame, hactive] at hlt
      exact (hdata p hfind).resolve_left hp x q hq hokq hlinked (headKey_lt_iff.mp hlt)
  refine ⟨hsel.inv.reflagged hre, hgood.of_append.reflagged hre hclear, ?_, ?_, ?_⟩
  · intro x p' hx hok hne hlt
    obtain ⟨q, hq, hsame⟩ := hre.back hx
    obtain ⟨hokq, hnot⟩ := hback x q hq (by rw [BlockTree.flagged_of_find hx, hok])
    rw [headKey_reflagged hre, workKey_sameBlock hsame] at hlt
    rw [hsame.eq] at hne
    exact (hmem x).mpr ⟨hold.2 x q hq hnot hokq hne hlt, hnot⟩
  · intro x hx
    exact (hmem x).mpr ⟨hold.1 x hx, hbelow x (List.mem_of_mem_head? hx)⟩
  · intro x hx
    exact hasData_reflagged hre (hsel.settled ((hmem x).mp hx).1)

/-! ## `ReconsiderBlock` -/

/-- An entry without the flags of a failed block. -/
def clearedEntry (pindex : CBlockIndex) : CBlockIndex :=
  { pindex with nStatus := pindex.nStatus &&& ~~~blockFailedMask }

theorem not_failed_clearedEntry (pindex : CBlockIndex) :
    hasStatus (clearedEntry pindex).nStatus blockFailedMask = false := by
  show ((pindex.nStatus &&& ~~~blockFailedMask) &&& blockFailedMask != 0) = false
  rw [UInt32.and_assoc, show ~~~blockFailedMask &&& blockFailedMask = 0 by decide, UInt32.and_zero]
  rfl

/-- What `ReconsiderBlock` does to the descendants: their flags are cleared, and those that
pass the tests become candidates, which no other block does. -/
theorem reconsiderEntries_spec {env : ChainEnv} {tip : Option CBlockIndex}
    {es : List (Uint256 × CBlockIndex)} {tree tree' : BlockTree}
    (h : es.foldlM (reconsiderEntry env tip) tree = some tree') :
    (∀ x, x ∉ es.map Prod.fst → tree'.find x = tree.find x) ∧
      (∀ x ∈ es.map Prod.fst, tree'.flagged blockFailedMask x = false) ∧
      (∀ x ∈ tree.setBlockIndexCandidates, x ∈ tree'.setBlockIndexCandidates) ∧
      (∀ e ∈ es, mayBeCandidate env tip (clearedEntry e.2) ≠ some false →
        e.1 ∈ tree'.setBlockIndexCandidates) ∧
      ∀ x ∈ tree'.setBlockIndexCandidates, x ∈ tree.setBlockIndexCandidates ∨
        ∃ e ∈ es, e.1 = x ∧ e.2.nChainTx ≠ 0 := by
  induction es generalizing tree with
  | nil =>
      cases h
      exact ⟨fun _ _ => rfl, by rintro x ⟨⟩, fun _ hx => hx, by rintro e ⟨⟩, fun _ => Or.inl⟩
  | cons e es ih =>
      rw [List.foldlM_cons] at h
      obtain ⟨tree₁, hstep, hrest⟩ := Option.bind_eq_some_iff.mp h
      obtain ⟨hother, hclear, hgrow, hadded, hfresh⟩ := ih hrest
      obtain ⟨b, hb, heq⟩ := Option.bind_eq_some_iff.mp hstep
      have hfind : ∀ x, tree₁.find x = (tree.put e.1 (clearedEntry e.2)).find x := by
        intro x
        cases b with
        | true =>
            cases heq
            show BlockTree.find (BlockTree.insertCandidate _ _) x = _
            unfold BlockTree.insertCandidate
            split_ifs <;> rfl
        | false =>
            cases heq
            rfl
      have hcandidates : ∀ x, x ∈ tree₁.setBlockIndexCandidates ↔
          (x = e.1 ∧ b = true) ∨ x ∈ tree.setBlockIndexCandidates := by
        intro x
        cases b with
        | true =>
            cases heq
            rw [and_iff_left rfl]
            exact @mem_insertCandidate (tree.put e.1 (clearedEntry e.2)) e.1 x
        | false =>
            cases heq
            simp [BlockTree.put]
      refine ⟨?_, ?_, ?_, ?_, ?_⟩
      · intro x hx
        rw [List.map_cons, List.mem_cons, not_or] at hx
        rw [hother x hx.2, hfind, BlockTree.find_put_of_ne _ _ hx.1]
      · intro x hx
        by_cases hin : x ∈ es.map Prod.fst
        · exact hclear x hin
        · obtain rfl : x = e.1 := by
            rw [List.map_cons, List.mem_cons] at hx
            exact hx.resolve_right hin
          rw [BlockTree.flagged, hother _ hin, hfind, BlockTree.find_put_self]
          exact not_failed_clearedEntry e.2
      · intro x hx
        exact hgrow x ((hcandidates x).mpr (Or.inr hx))
      · intro e' he' htest
        rcases List.mem_cons.mp he' with rfl | he'
        · refine hgrow _ ((hcandidates _).mpr (Or.inl ⟨rfl, ?_⟩))
          cases b with
          | true => rfl
          | false => exact absurd hb htest
        · exact hadded e' he' htest
      · intro x hx
        rcases hfresh x hx with hmem | ⟨e', he', heq', hlinked⟩
        · rcases (hcandidates x).mp hmem with ⟨rfl, rfl⟩ | hold
          · exact Or.inr ⟨e, List.mem_cons_self .., rfl, (of_mayBeCandidate hb).2.1⟩
          · exact Or.inl hold
        · exact Or.inr ⟨e', List.mem_cons_of_mem _ he', heq', hlinked⟩

/-- Clearing the flags of the ancestors changes nothing else. -/
theorem clearFlags_spec (l : List CBlockIndex) (tree : BlockTree) :
    (l.foldl (fun tree p => tree.clearFlag blockFailedMask p.getBlockHash)
        tree).setBlockIndexCandidates = tree.setBlockIndexCandidates ∧
      ∀ x, ((l.foldl (fun tree p => tree.clearFlag blockFailedMask p.getBlockHash)
          tree).flagged blockFailedMask x = true → tree.flagged blockFailedMask x = true) ∧
        ((l.foldl (fun tree p => tree.clearFlag blockFailedMask p.getBlockHash)
          tree).flagged blockFailedMask x = false → tree.flagged blockFailedMask x = false ∨
            ∃ p ∈ l, p.getBlockHash = x) := by
  induction l generalizing tree with
  | nil => exact ⟨rfl, fun x => ⟨id, Or.inl⟩⟩
  | cons p l ih =>
      have hcandidates : (tree.clearFlag blockFailedMask p.getBlockHash).setBlockIndexCandidates =
          tree.setBlockIndexCandidates := by
        unfold BlockTree.clearFlag
        split <;> rfl
      have hself : (tree.clearFlag blockFailedMask p.getBlockHash).flagged blockFailedMask
          p.getBlockHash = false := by
        unfold BlockTree.clearFlag
        cases hfind : tree.find p.getBlockHash with
        | none => rw [BlockTree.flagged, hfind, Option.any_none]
        | some q =>
            rw [BlockTree.flagged_of_find (BlockTree.find_put_self ..)]
            exact not_failed_clearedEntry q
      have hother : ∀ x, x ≠ p.getBlockHash →
          (tree.clearFlag blockFailedMask p.getBlockHash).flagged blockFailedMask x =
            tree.flagged blockFailedMask x := by
        intro x hx
        unfold BlockTree.clearFlag
        split
        · rfl
        · rw [BlockTree.flagged, BlockTree.find_put_of_ne _ _ hx, ← BlockTree.flagged]
      obtain ⟨hcand, hflags⟩ := ih (tree.clearFlag blockFailedMask p.getBlockHash)
      rw [List.foldl_cons]
      refine ⟨hcand.trans hcandidates, ?_⟩
      intro x
      obtain ⟨htrue, hfalse⟩ := hflags x
      by_cases hx : x = p.getBlockHash
      · refine ⟨?_, fun _ => Or.inr ⟨p, List.mem_cons_self .., hx.symm⟩⟩
        intro hflag
        have hcleared := htrue hflag
        rw [hx, hself] at hcleared
        cases hcleared
      · rw [hother x hx] at htrue hfalse
        refine ⟨htrue, ?_⟩
        intro hflag
        rcases hfalse hflag with hold | ⟨q, hq, hqx⟩
        · exact Or.inl hold
        · exact Or.inr ⟨q, List.mem_cons_of_mem _ hq, hqx⟩

/-- A linked block that is cleared is tested against the tip. -/
theorem mayBeCandidate_clearedEntry {env : ChainEnv} {tree : BlockTree} (inv : TreeInv tree [])
    {tip : Option CBlockIndex} {hash : Uint256} {p : CBlockIndex} (hfind : tree.find hash = some p)
    (hlinked : p.nChainTx ≠ 0) :
    mayBeCandidate env tip (clearedEntry p) = tip.map fun tip => workComparator env tip p := by
  have hvalid : (clearedEntry p).isValid blockValidTransactions = true := by
    have hlevel := inv.level hfind (inv.chainTx hfind hlinked)
    have hsame := (SameBlock.clearFailed p).level
    simp only [CBlockIndex.isValid, not_failed_clearedEntry, Bool.not_false, Bool.true_and,
      decide_eq_true_eq]
    exact UInt32.le_trans hlevel hsame
  have hne : ((clearedEntry p).nChainTx != 0) = true := bne_iff_ne.mpr hlinked
  rw [mayBeCandidate, hvalid, hne]
  rfl

/-- No ancestor has to be added to the candidates when the block is reconsidered: those that
have failed, are linked and are better than the tip are still among them. -/
def AncestorsCandidates (env : ChainEnv) (s : ChainState) (hash : Uint256) : Prop :=
  ∀ pindex, s.tree.find hash = some pindex →
    ∀ p ∈ s.tree.ancestors (pindex.nHeight.toNat + 1) (some pindex), p.getBlockHash ≠ hash →
      ∀ q, s.tree.find p.getBlockHash = some q → hasStatus q.nStatus blockFailedMask = true →
        q.nChainTx ≠ 0 →
        (∀ tip, s.tipIndex = some tip → workComparator env tip q = true) →
        p.getBlockHash ∈ s.tree.setBlockIndexCandidates

/-- The entries that `ReconsiderBlock` clears first: those above the block that are not valid. -/
def failedDescendants (tree : BlockTree) (hash : Uint256) (pindex : CBlockIndex) :
    List (Uint256 × CBlockIndex) :=
  tree.mapBlockIndex.entries.filter fun e =>
    !e.2.isValid blockValidTransactions &&
      (tree.getAncestor e.2 pindex.nHeight).map CBlockIndex.getBlockHash == some hash

theorem find_of_mem_failedDescendants {tree : BlockTree} {hash : Uint256} {pindex : CBlockIndex}
    {e : Uint256 × CBlockIndex} (he : e ∈ failedDescendants tree hash pindex) :
    tree.find e.1 = some e.2 :=
  OrdMap.find_eq_some.mpr (List.mem_filter.mp he).1

/-- The block itself is one of them. -/
theorem self_mem_failedDescendants {tree : BlockTree} (inv : TreeInv tree []) {hash : Uint256}
    {pindex : CBlockIndex} (hself : tree.find hash = some pindex)
    (hfailed : hasStatus pindex.nStatus blockFailedMask = true) :
    (hash, pindex) ∈ failedDescendants tree hash pindex := by
  refine List.mem_filter.mpr ⟨OrdMap.find_eq_some.mp hself, ?_⟩
  have hhash : pindex.getBlockHash = hash := by
    rw [CBlockIndex.getBlockHash, inv.hashes hself, Option.getD_some]
  have hheight := (inv.heights hself).1
  simp [CBlockIndex.isValid, hfailed, BlockTree.getAncestor, BlockTree.ancestor, hhash, hheight]

/-- **`ReconsiderBlock`** when no ancestor has to be added to the candidates. -/
theorem Selects.reconsiderBlock {env : ChainEnv} {s s' : ChainState} {hash : Uint256} {ok : Bool}
    (hsel : Selects env s.tree s.chainActive) (hancestors : AncestorsCandidates env s hash)
    (h : reconsiderBlock env s hash = some (ok, s')) : Selects env s'.tree s'.chainActive := by
  have hre := Reflagged.reconsiderBlock h
  rw [Hivemind.reconsiderBlock] at h
  cases hself : s.tree.find hash with
  | none =>
      rw [hself] at h
      cases h
      exact hsel
  | some pindex =>
      rw [hself] at h
      obtain ⟨tree₁, hfold, heq⟩ := Option.bind_eq_some_iff.mp h
      cases heq
      simp only at hre ⊢
      change (failedDescendants s.tree hash pindex).foldlM _ _ = _ at hfold
      obtain ⟨hother, hclear, hgrow, hadded, hfresh⟩ := reconsiderEntries_spec hfold
      obtain ⟨hcand, hflags⟩ := clearFlags_spec
        (s.tree.ancestors (pindex.nHeight.toNat + 1) (some pindex)) tree₁
      generalize (s.tree.ancestors (pindex.nHeight.toNat + 1) (some pindex)).foldl
        (fun tree p => tree.clearFlag blockFailedMask p.getBlockHash) tree₁ = tree₂ at *
      have hkept : ∀ x, x ∉ (failedDescendants s.tree hash pindex).map Prod.fst →
          tree₁.flagged blockFailedMask x = s.tree.flagged blockFailedMask x := by
        intro x hin
        rw [BlockTree.flagged, hother x hin, ← BlockTree.flagged]
      -- flags are only cleared
      have hcleared : ∀ x, s.tree.flagged blockFailedMask x = false →
          tree₂.flagged blockFailedMask x = false := by
        intro x hx
        by_contra hne
        rw [Bool.not_eq_false] at hne
        have hflag := (hflags x).1 hne
        by_cases hin : x ∈ (failedDescendants s.tree hash pindex).map Prod.fst
        · rw [hclear x hin] at hflag
          cases hflag
        · rw [hkept x hin, hx] at hflag
          cases hflag
      refine ⟨hsel.inv.reflagged hre, hsel.chain.reflagged hre ?_, ?_, ?_, ?_⟩
      · intro x hx
        exact hcleared x (hsel.chain.not_flagged hx)
      · intro x p' hx hok hne hlt
        obtain ⟨q, hq, hsame⟩ := hre.back hx
        rw [headKey_reflagged hre, workKey_sameBlock hsame] at hlt
        rw [hsame.eq] at hne
        rw [hcand]
        by_cases hfailed : hasStatus q.nStatus blockFailedMask = true
        · -- the block had failed: its flags were cleared by one of the two loops
          by_cases hin : x ∈ (failedDescendants s.tree hash pindex).map Prod.fst
          · obtain ⟨e, he, rfl⟩ := List.mem_map.mp hin
            obtain rfl : q = e.2 :=
              Option.some.inj (hq.symm.trans (find_of_mem_failedDescendants he))
            refine hadded e he ?_
            rw [mayBeCandidate_clearedEntry hsel.inv hq hne]
            cases htip : s.tipIndex with
            | none => rintro ⟨⟩
            | some tip =>
                rw [headKey_lt_iff] at hlt
                rw [Option.map_some, hlt tip htip]
                decide
          · have hstill : tree₁.flagged blockFailedMask x = true := by
              rw [hkept x hin, BlockTree.flagged_of_find hq, hfailed]
            rcases (hflags x).2 (by rw [BlockTree.flagged_of_find hx, hok]) with hcl | ⟨p, hp, rfl⟩
            · rw [hstill] at hcl
              cases hcl
            · refine hgrow _ (hancestors pindex hself p hp ?_ q hq hfailed hne
                (headKey_lt_iff.mp hlt))
              intro heq
              refine hin ?_
              rw [heq] at hq ⊢
              rw [hself] at hq
              cases hq
              exact List.mem_map.mpr
                ⟨_, self_mem_failedDescendants hsel.inv hself hfailed, rfl⟩
        · rw [Bool.not_eq_true] at hfailed
          exact hgrow x (hsel.required hq hfailed hne hlt)
      · intro x hx
        rw [hcand]
        exact hgrow x (hsel.kept hx)
      · intro x hx
        rw [hcand] at hx
        refine hasData_reflagged hre ?_
        rcases hfresh x hx with hold | ⟨e, he, rfl, hlinked⟩
        · exact hsel.settled hold
        · have hfind := find_of_mem_failedDescendants he
          rw [BlockTree.hasData_of_find hfind]
          exact hsel.inv.chainTx hfind hlinked

/-! ## Runs -/

/-- The parent of a block. -/
def ParentOf (tree : BlockTree) (hash prev : Uint256) : Prop :=
  ∃ p, tree.find hash = some p ∧ p.pprev = some prev

/-- The block and its ancestors have not failed, and their data have come. -/
structure Eligible (tree : BlockTree) (hash : Uint256) (pindex : CBlockIndex) : Prop where
  find : tree.find hash = some pindex
  linked : pindex.nChainTx ≠ 0
  clean : ∀ h, Relation.ReflTransGen (ParentOf tree) hash h →
    tree.flagged blockFailedMask h = false

theorem Eligible.not_failed {tree : BlockTree} {hash : Uint256} {pindex : CBlockIndex}
    (h : Eligible tree hash pindex) : hasStatus pindex.nStatus blockFailedMask = false := by
  rw [← BlockTree.flagged_of_find h.find]
  exact h.clean hash Relation.ReflTransGen.refl

/-- The call has nothing to add to the candidates that it does not add, and adds no block
without data. -/
def ChainStep.Keeps (env : ChainEnv) (s : ChainState) : ChainStep → Prop
  | .invalidate hash => StillCandidates env s hash ∧ InsertsData env s hash
  | .reconsider hash => AncestorsCandidates env s hash
  | _ => True

/-- Every call of the run meets the condition. -/
def RunKeeps (env : ChainEnv) : List ChainStep → ChainState → Prop
  | [], _ => True
  | step :: steps, s => step.Keeps env s ∧ ∀ s', step.apply env s = some s' → RunKeeps env steps s'

theorem Selects.step {env : ChainEnv} (henv : env.NoError) {s s' : ChainState} {step : ChainStep}
    (hsel : Selects env s.tree s.chainActive) (hkeeps : step.Keeps env s)
    (h : step.apply env s = some s') : Selects env s'.tree s'.chainActive := by
  cases step with
  | index step =>
      cases h
      obtain ⟨hinv, hgrown⟩ := hsel.inv.indexStep step
      exact hsel.grown hinv hgrown
  | activate fuel =>
      obtain ⟨⟨ok, s₁⟩, hact, rfl⟩ := Option.map_eq_some_iff.mp h
      exact (hsel.activateBestChain henv hsel.chain id hact).1
  | invalidate hash =>
      obtain ⟨⟨ok, s₁⟩, hinval, rfl⟩ := Option.map_eq_some_iff.mp h
      exact hsel.invalidateBlock henv hkeeps.1 hkeeps.2 hinval
  | reconsider hash =>
      obtain ⟨⟨ok, s₁⟩, hrec, rfl⟩ := Option.map_eq_some_iff.mp h
      exact hsel.reconsiderBlock hkeeps hrec

/-- No candidate changes its place in the order of the set. -/
def SamePlaces (env : ChainEnv) (tree tree' : BlockTree) : Prop :=
  ∀ h ∈ tree.setBlockIndexCandidates, keyOf env tree' h = keyOf env tree h

/-- No call of the run changes the place of a candidate. -/
def RunKeepsPlaces (env : ChainEnv) : List ChainStep → ChainState → Prop
  | [], _ => True
  | step :: steps, s => ∀ s', step.apply env s = some s' →
    SamePlaces env s.tree s'.tree ∧ RunKeepsPlaces env steps s'

/-- The key of a block is settled when its data have come, and that is so for a candidate. -/
theorem Selects.samePlaces {env : ChainEnv} {s s' : ChainState} {ref : List Uint256}
    {step : ChainStep} (hsel : Selects env s.tree ref) (h : step.apply env s = some s') :
    SamePlaces env s.tree s'.tree := by
  intro x hx
  cases step with
  | index step =>
      cases h
      obtain ⟨p, hfind, hdata⟩ := BlockTree.find_of_hasData (hsel.settled hx)
      obtain ⟨p', hfind', heq⟩ := (hsel.inv.indexStep step).2.kept hfind hdata
      rw [keyOf_of_find hfind', keyOf_of_find hfind, heq]
      rfl
  | activate fuel =>
      obtain ⟨⟨ok, s₁⟩, hact, rfl⟩ := Option.map_eq_some_iff.mp h
      exact keyOf_reflagged (Reflagged.activateBestChain hact) x
  | invalidate hash =>
      obtain ⟨⟨ok, s₁⟩, hinval, rfl⟩ := Option.map_eq_some_iff.mp h
      exact keyOf_reflagged (Reflagged.invalidateBlock hinval) x
  | reconsider hash =>
      obtain ⟨⟨ok, s₁⟩, hrec, rfl⟩ := Option.map_eq_some_iff.mp h
      exact keyOf_reflagged (Reflagged.reconsiderBlock hrec) x

theorem Selects.runKeepsPlaces {env : ChainEnv} (henv : env.NoError) {steps : List ChainStep}
    {s : ChainState} (hsel : Selects env s.tree s.chainActive) (hkeeps : RunKeeps env steps s) :
    RunKeepsPlaces env steps s := by
  induction steps generalizing s with
  | nil => trivial
  | cons step steps ih =>
      intro s' hstep
      exact ⟨hsel.samePlaces hstep, ih (hsel.step henv hkeeps.1 hstep) (hkeeps.2 s' hstep)⟩

theorem Selects.run {env : ChainEnv} (henv : env.NoError) {steps : List ChainStep}
    {s s' : ChainState} (hsel : Selects env s.tree s.chainActive) (hkeeps : RunKeeps env steps s)
    (h : runChain env steps s = some s') : Selects env s'.tree s'.chainActive := by
  induction steps generalizing s with
  | nil =>
      cases h
      exact hsel
  | cons step steps ih =>
      obtain ⟨s₁, hstep, hrest⟩ := Option.bind_eq_some_iff.mp h
      exact ih (hsel.step henv hkeeps.1 hstep) (hkeeps.2 s₁ hstep) hrest

/-- **The candidates after a run** are all the blocks that `ActivateBestChain` may have to
switch to, and when it succeeds no such block beats the tip.  No candidate has changed its
place in the set on the way. -/
theorem candidates_of_run {env : ChainEnv} (henv : env.NoError) {steps : List ChainStep}
    {s : ChainState} (hrun : runChain env steps {} = some s) (hkeeps : RunKeeps env steps {}) :
    (∀ hash pindex, Eligible s.tree hash pindex → BeatsTip env s pindex →
      hash ∈ s.tree.setBlockIndexCandidates) ∧
    (∀ fuel s', activateBestChain env fuel s = some (true, s') →
      ∀ hash pindex, Eligible s'.tree hash pindex → ¬ BeatsTip env s' pindex) ∧
    RunKeepsPlaces env steps {} := by
  have hempty : Selects env ({} : ChainState).tree ({} : ChainState).chainActive := Selects.empty
  have hsel : Selects env s.tree s.chainActive := hempty.run henv hkeeps hrun
  refine ⟨?_, ?_, hempty.runKeepsPlaces henv hkeeps⟩
  · intro hash pindex helig hbeats
    exact hsel.required helig.find helig.not_failed helig.linked (headKey_lt_iff.mpr hbeats)
  · intro fuel s' hact hash pindex helig hbeats
    have hbest := (hsel.activateBestChain henv hsel.chain id hact).2
    have hle := hbest hash pindex helig.find helig.not_failed helig.linked
    exact absurd (headKey_lt_iff.mpr hbeats) (not_lt.mpr hle)

/-! ## Four blocks -/

/-- A block with some work. -/
def minedBlock (pprev : Option CBlock) (n : UInt8) (nTime : UInt32) : CBlock :=
  { timedBlock (pprev.map fun block => block.getHash exampleHash) n nTime with nBits := 0x1d00ffff }

/-- The genesis block, two blocks on top of each other and another block on the first. -/
def minedGenesis : CBlock := minedBlock none 0 0
def minedFirst : CBlock := minedBlock (some minedGenesis) 1 1
def minedSecond : CBlock := minedBlock (some minedFirst) 2 2
def minedFork : CBlock := minedBlock (some minedGenesis) 3 3

/-- The main network with that genesis block. -/
def minedContext : AcceptContext where
  toContext := { treeContext.toContext with
    params := mainParams (minedGenesis.getHash exampleHash) }
  chainHeight := 0
  diskSpaceOk := true
  writeBlockOk := true

def minedEnv : ChainEnv :=
  { treeEnv with hashGenesisBlock := minedGenesis.getHash exampleHash }

theorem noError_minedEnv : minedEnv.NoError := by
  refine ⟨?_, fun _ => rfl⟩
  rintro hash ⟨⟩

def blockStep (block : CBlock) : ChainStep := .index (.onBlock minedContext block none)

/-- The fork is on the genesis block, and beats the tip. -/
def forkCheck (s : ChainState) : Bool :=
  ((s.tree.find (minedGenesis.getHash exampleHash)).any fun p =>
    p.pprev == none && !hasStatus p.nStatus blockFailedMask) &&
  (s.tree.find (minedFork.getHash exampleHash)).any fun p =>
    p.pprev == some (minedGenesis.getHash exampleHash) && p.nChainTx != 0 &&
      !hasStatus p.nStatus blockFailedMask && s.tipIndex.all fun tip => workComparator minedEnv tip p

theorem beatsTip_of_forkCheck {s : ChainState} (h : forkCheck s = true) :
    ∃ pindex, Eligible s.tree (minedFork.getHash exampleHash) pindex ∧
      BeatsTip minedEnv s pindex := by
  simp only [forkCheck, Bool.and_eq_true, Option.any_eq_true, beq_iff_eq, bne_iff_ne,
    Bool.not_eq_true'] at h
  obtain ⟨⟨g, hg, hgprev, hgok⟩, p, hp, ⟨⟨hprev, hlinked⟩, hok⟩, htip⟩ := h
  refine ⟨p, ⟨hp, hlinked, ?_⟩, ?_⟩
  · -- the block and the genesis block are all there is
    intro h hreach
    rcases Relation.ReflTransGen.cases_head hreach with rfl | ⟨y, ⟨q, hq, hqprev⟩, hrest⟩
    · rw [BlockTree.flagged_of_find hp, hok]
    · rw [hp] at hq
      cases hq
      rw [hprev] at hqprev
      cases hqprev
      rcases Relation.ReflTransGen.cases_head hrest with rfl | ⟨z, ⟨q, hq, hqprev⟩, -⟩
      · rw [BlockTree.flagged_of_find hg, hgok]
      · rw [hg] at hq
        cases hq
        rw [hgprev] at hqprev
        cases hqprev
  · intro tip htip'
    rw [htip', Option.all_some] at htip
    exact htip

/-- The first of the two blocks is invalidated when the second is the tip. -/
def invalidatedRun : List ChainStep :=
  [blockStep minedGenesis, blockStep minedFirst, blockStep minedFork, blockStep minedSecond,
    .activate 5, .invalidate (minedFirst.getHash exampleHash)]

/-- **A block that is not made a candidate again**: the fork is better than the tip that is
left, and `ActivateBestChain` does not switch to it. -/
theorem fork_not_candidate :
    ∃ s, runChain minedEnv invalidatedRun {} = some s ∧
      (∃ pindex, Eligible s.tree (minedFork.getHash exampleHash) pindex ∧
        BeatsTip minedEnv s pindex) ∧
      minedFork.getHash exampleHash ∉ s.tree.setBlockIndexCandidates ∧
      ∃ s', activateBestChain minedEnv 3 s = some (true, s') ∧
        ∃ pindex, Eligible s'.tree (minedFork.getHash exampleHash) pindex ∧
          BeatsTip minedEnv s' pindex := by
  have hcheck : ((runChain minedEnv invalidatedRun {}).any fun s => forkCheck s &&
      !s.tree.setBlockIndexCandidates.contains (minedFork.getHash exampleHash) &&
        (activateBestChain minedEnv 3 s).any fun r => r.1 && forkCheck r.2) = true := by
    simp only [runChain, invalidatedRun, ChainStep.apply, blockStep, IndexStep.apply, acceptBlock,
      acceptBlockHeader, contextualCheckBlockHeader, checkBlockHeaderAfter,
      BlockTree.getMedianTimePast_eq]
    decide +kernel
  rw [Option.any_eq_true] at hcheck
  obtain ⟨s, hrun, hs⟩ := hcheck
  rw [Bool.and_eq_true, Bool.and_eq_true, Option.any_eq_true] at hs
  obtain ⟨⟨hfork, hnot⟩, ⟨ok, s'⟩, hact, hs'⟩ := hs
  rw [Bool.and_eq_true] at hs'
  obtain ⟨rfl, hfork'⟩ := hs'
  refine ⟨s, hrun, beatsTip_of_forkCheck hfork, ?_, s', hact, beatsTip_of_forkCheck hfork'⟩
  simpa using hnot

/-! ### The condition, computed -/

/-- The call invalidates no active block and none without data, and reconsiders no block with
a failed ancestor. -/
def ChainStep.keepsCheck (s : ChainState) : ChainStep → Bool
  | .invalidate hash => !s.chainActive.contains hash &&
    (s.tree.find hash).all fun pindex => hasStatus pindex.nStatus blockHaveData
  | .reconsider hash => (s.tree.find hash).all fun pindex =>
    (s.tree.ancestors (pindex.nHeight.toNat + 1) (some pindex)).all fun p =>
      p.getBlockHash == hash || !s.tree.flagged blockFailedMask p.getBlockHash
  | _ => true

theorem ChainStep.keeps_of_check {env : ChainEnv} {s : ChainState} {step : ChainStep}
    (h : step.keepsCheck s = true) : step.Keeps env s := by
  cases step with
  | index step => trivial
  | activate fuel => trivial
  | invalidate hash =>
      rw [keepsCheck, Bool.and_eq_true] at h
      obtain ⟨hinactive, hdata⟩ := h
      refine ⟨?_, ?_⟩
      · intro above below hchain
        rw [hchain] at hinactive
        simp at hinactive
      · intro pindex hfind
        rw [hfind, Option.all_some] at hdata
        exact Or.inl hdata
  | reconsider hash =>
      intro pindex hfind p hp hne q hq hfailed
      rw [keepsCheck, hfind, Option.all_some, List.all_eq_true] at h
      have hclear := h p hp
      rw [BlockTree.flagged_of_find hq, hfailed, beq_eq_false_iff_ne.mpr hne] at hclear
      cases hclear

/-- The run meets the condition. -/
def keepsRunCheck (env : ChainEnv) : List ChainStep → ChainState → Bool
  | [], _ => true
  | step :: steps, s => step.keepsCheck s &&
    (step.apply env s).all fun s' => keepsRunCheck env steps s'

theorem runKeeps_of_check {env : ChainEnv} {steps : List ChainStep} {s : ChainState}
    (h : keepsRunCheck env steps s = true) : RunKeeps env steps s := by
  induction steps generalizing s with
  | nil => trivial
  | cons step steps ih =>
      rw [keepsRunCheck, Bool.and_eq_true] at h
      refine ⟨ChainStep.keeps_of_check h.1, ?_⟩
      intro s' hs'
      have hrest := h.2
      rw [hs', Option.all_some] at hrest
      exact ih hrest

/-- The genesis block is active; another block is invalidated and reconsidered. -/
def reconsideredRun : List ChainStep :=
  [blockStep minedGenesis, .activate 5, blockStep minedFork,
    .invalidate (minedFork.getHash exampleHash), .reconsider (minedFork.getHash exampleHash)]

/-- The condition at work: the block is a candidate again. -/
theorem candidates_of_reconsideredRun :
    ∃ s, runChain minedEnv reconsideredRun {} = some s ∧
      (∃ pindex, Eligible s.tree (minedFork.getHash exampleHash) pindex ∧
        BeatsTip minedEnv s pindex) ∧
      minedFork.getHash exampleHash ∈ s.tree.setBlockIndexCandidates := by
  have hcheck : (keepsRunCheck minedEnv reconsideredRun {} &&
      (runChain minedEnv reconsideredRun {}).any forkCheck) = true := by
    simp only [keepsRunCheck, runChain, reconsideredRun, ChainStep.apply, blockStep,
      IndexStep.apply, acceptBlock, acceptBlockHeader, contextualCheckBlockHeader,
      checkBlockHeaderAfter, BlockTree.getMedianTimePast_eq]
    decide +kernel
  rw [Bool.and_eq_true, Option.any_eq_true] at hcheck
  obtain ⟨hkeeps, s, hrun, hfork⟩ := hcheck
  obtain ⟨pindex, helig, hbeats⟩ := beatsTip_of_forkCheck hfork
  obtain ⟨hcandidates, -⟩ := candidates_of_run noError_minedEnv hrun (runKeeps_of_check hkeeps)
  exact ⟨s, hrun, ⟨pindex, helig, hbeats⟩, hcandidates _ _ helig hbeats⟩

end Hivemind
