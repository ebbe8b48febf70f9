import Hivemind.Validation.IndexInv

/-!
# The candidates and a chain

`setBlockIndexCandidates` is to hold every block that `ActivateBestChain` may have to switch to:
the blocks that have not failed, whose data have come with those of all their ancestors, and that
are better than the tip.  While the tip moves, the candidates are compared with a chain that has
been connected before.

The comparator of the set is a linear order on the blocks: more work, then the earlier arrival,
then the lower address.  It is stated as an order on keys, with a least key for a block that is
not there, so that "no worse than the tip" has one spelling for a chain and for a node without
one.  A new candidate has its data, and its key has then been settled.

* `workKey`, `workComparator_iff`: the order of the candidates.
* `GoodChain`: a chain that has been connected; its first block determines it.
* `Selects`: **what holds of the candidates**, relative to such a chain.
* `Selects.shrink`: flags are set on other blocks, and candidates are lost that may be.
-/

namespace Hivemind

open Codecs Ordered Outcomes

/-! ## The order -/

/-- Work, then the earlier arrival, then the lower address. -/
def workKey (env : ChainEnv) (p : CBlockIndex) : ℕ ×ₗ ℕᵒᵈ ×ₗ ℕᵒᵈ :=
  toLex (p.nChainWork, toLex (OrderDual.toDual p.nSequenceId.toNat,
    OrderDual.toDual (env.address p.getBlockHash)))

/-- The comparator is a linear order. -/
theorem workComparator_iff {env : ChainEnv} {p q : CBlockIndex} :
    workComparator env p q = true ↔ workKey env p < workKey env q := by
  have hseq : ∀ a b : CBlockIndex, a.nSequenceId < b.nSequenceId ↔
      a.nSequenceId.toNat < b.nSequenceId.toNat := fun _ _ => UInt32.lt_iff_toNat_lt
  simp only [workKey, Prod.Lex.toLex_lt_toLex, OrderDual.toDual_lt_toDual, OrderDual.toDual_inj]
  unfold workComparator
  simp only [hseq]
  split_ifs <;> simp only [true_iff, false_iff] <;> omega

theorem workKey_sameBlock {env : ChainEnv} {p p' : CBlockIndex} (h : SameBlock p p') :
    workKey env p' = workKey env p := by
  rw [h.eq]
  rfl

/-- The key of a block, with nothing below a block that is not there. -/
def keyOf (env : ChainEnv) (tree : BlockTree) (hash : Uint256) : WithBot (ℕ ×ₗ ℕᵒᵈ ×ₗ ℕᵒᵈ) :=
  match tree.find hash with
  | none => ⊥
  | some p => workKey env p

/-- The key of the first block of a chain. -/
def headKey (env : ChainEnv) (tree : BlockTree) : List Uint256 → WithBot (ℕ ×ₗ ℕᵒᵈ ×ₗ ℕᵒᵈ)
  | [] => ⊥
  | hash :: _ => keyOf env tree hash

theorem keyOf_of_find {env : ChainEnv} {tree : BlockTree} {hash : Uint256} {p : CBlockIndex}
    (hfind : tree.find hash = some p) : keyOf env tree hash = workKey env p := by
  rw [keyOf, hfind]

theorem headKey_of_head {env : ChainEnv} {tree : BlockTree} {chain : List Uint256} {hash : Uint256}
    (h : chain.head? = some hash) : headKey env tree chain = keyOf env tree hash := by
  cases chain with
  | nil => cases h
  | cons x chain =>
      cases h
      rfl

theorem keyOf_reflagged {env : ChainEnv} {tree tree' : BlockTree} (h : Reflagged tree tree')
    (hash : Uint256) : keyOf env tree' hash = keyOf env tree hash := by
  cases hfind : tree.find hash with
  | none => rw [keyOf, keyOf, h.find_none hash hfind, hfind]
  | some p =>
      obtain ⟨p', hfind', hsame⟩ := h.find_some hash p hfind
      rw [keyOf_of_find hfind', keyOf_of_find hfind, workKey_sameBlock hsame]

theorem headKey_reflagged {env : ChainEnv} {tree tree' : BlockTree} (h : Reflagged tree tree')
    (chain : List Uint256) : headKey env tree' chain = headKey env tree chain := by
  cases chain with
  | nil => rfl
  | cons hash chain => exact keyOf_reflagged h hash

/-- Writing flags brings and loses no data. -/
theorem hasData_reflagged {tree tree' : BlockTree} (h : Reflagged tree tree') {hash : Uint256}
    (hdata : tree.hasData hash = true) : tree'.hasData hash = true := by
  obtain ⟨p, hfind, hp⟩ := BlockTree.find_of_hasData hdata
  obtain ⟨p', hfind', hsame⟩ := h.find_some hash p hfind
  rw [BlockTree.hasData_of_find hfind']
  exact hsame.data.trans hp

theorem headKey_lt_iff {env : ChainEnv} {tree : BlockTree} {chain : List Uint256}
    {p : CBlockIndex} : headKey env tree chain < workKey env p ↔
      ∀ tip, chain.head?.bind tree.find = some tip → workComparator env tip p = true := by
  cases chain with
  | nil => simp [headKey]
  | cons x chain =>
      cases hfind : tree.find x with
      | none => simp [headKey, keyOf, hfind]
      | some tip => simp [headKey, keyOf, hfind, workComparator_iff]

/-! ## Flags -/

namespace BlockTree

theorem flagged_of_find {tree : BlockTree} {flag : BlockStatus} {hash : Uint256} {p : CBlockIndex}
    (hfind : tree.find hash = some p) : tree.flagged flag hash = hasStatus p.nStatus flag := by
  rw [flagged, hfind, Option.any_some]

/-- A failed block stays failed, and the marked one is failed. -/
theorem flagged_condemn {tree : BlockTree} {flag : BlockStatus} {hash x : Uint256}
    (hflag : hasStatus flag blockFailedMask = true) :
    (tree.condemn flag hash).flagged blockFailedMask x =
      (tree.flagged blockFailedMask x || (x == hash && (tree.find x).isSome)) := by
  show (tree.setFlag flag hash).flagged blockFailedMask x = _
  unfold setFlag
  cases hfind : tree.find hash with
  | none =>
      by_cases hx : x = hash
      · simp [hx, hfind]
      · rw [beq_eq_false_iff_ne.mpr hx, Bool.false_and, Bool.or_false]
  | some p =>
      by_cases hx : x = hash
      · subst hx
        rw [flagged, find_put_self]
        simp [hfind, hflag]
      · rw [flagged, find_put_of_ne _ _ hx, ← flagged, beq_eq_false_iff_ne.mpr hx, Bool.false_and,
          Bool.or_false]

theorem mem_condemn {tree : BlockTree} {flag : BlockStatus} {hash x : Uint256} :
    x ∈ (tree.condemn flag hash).setBlockIndexCandidates ↔
      x ∈ tree.setBlockIndexCandidates ∧ x ≠ hash := by
  have hcandidates : (tree.setFlag flag hash).setBlockIndexCandidates =
      tree.setBlockIndexCandidates := by
    unfold setFlag
    split <;> rfl
  show x ∈ (tree.setFlag flag hash).setBlockIndexCandidates.filter (· != hash) ↔ _
  rw [hcandidates, List.mem_filter, bne_iff_ne]

theorem isSome_find_condemn {tree : BlockTree} {flag : BlockStatus} {hash : Uint256}
    (hdata : hasStatus flag blockHaveData = false) (hlevel : flag &&& blockValidMask = 0)
    (x : Uint256) : ((tree.condemn flag hash).find x).isSome = (tree.find x).isSome := by
  have hre := Reflagged.condemn tree hash hdata hlevel
  cases hfind : tree.find x with
  | none => rw [hre.find_none x hfind]
  | some p =>
      obtain ⟨p', hfind', -⟩ := hre.find_some x p hfind
      rw [hfind']
      rfl

/-- Marking a list of blocks. -/
theorem flagged_condemns {tree : BlockTree} {flag : BlockStatus} {l : List Uint256} {x : Uint256}
    (hflag : hasStatus flag blockFailedMask = true) (hdata : hasStatus flag blockHaveData = false)
    (hlevel : flag &&& blockValidMask = 0) :
    (l.foldl (fun tree h => tree.condemn flag h) tree).flagged blockFailedMask x =
      (tree.flagged blockFailedMask x || (l.contains x && (tree.find x).isSome)) := by
  induction l generalizing tree with
  | nil => simp
  | cons h l ih =>
      rw [List.foldl_cons, ih, isSome_find_condemn hdata hlevel, flagged_condemn hflag,
        List.contains_cons]
      cases tree.flagged blockFailedMask x <;> cases (tree.find x).isSome <;> simp

theorem mem_condemns {tree : BlockTree} {flag : BlockStatus} {l : List Uint256} {x : Uint256} :
    x ∈ (l.foldl (fun tree h => tree.condemn flag h) tree).setBlockIndexCandidates ↔
      x ∈ tree.setBlockIndexCandidates ∧ x ∉ l := by
  induction l generalizing tree with
  | nil => simp
  | cons h l ih => rw [List.foldl_cons, ih, mem_condemn, List.mem_cons, not_or, and_assoc]

end BlockTree

theorem mem_insertCandidate {tree : BlockTree} {hash x : Uint256} :
    x ∈ (tree.insertCandidate hash).setBlockIndexCandidates ↔
      x = hash ∨ x ∈ tree.setBlockIndexCandidates := by
  unfold BlockTree.insertCandidate
  split_ifs with hmem
  · refine ⟨Or.inr, ?_⟩
    rintro (rfl | hx)
    · exact hmem
    · exact hx
  · exact List.mem_cons

/-! ## Chains that have been connected -/

/-- The blocks of the list, each of them the parent of the one before, down to one without
a parent.  They have data, have not failed and are valid. -/
inductive GoodChain (env : ChainEnv) (tree : BlockTree) : List Uint256 → Prop
  | nil : GoodChain env tree []
  | cons {hash : Uint256} {chain : List Uint256} {p : CBlockIndex}
      (hfind : tree.find hash = some p) (hprev : p.pprev = chain.head?)
      (hdata : hasStatus p.nStatus blockHaveData = true)
      (hok : hasStatus p.nStatus blockFailedMask = false) (hvalid : env.connectTip hash = .valid)
      (hrest : GoodChain env tree chain) : GoodChain env tree (hash :: chain)

/-- The parents of the blocks of the list are in the list. -/
def ParentClosed (tree : BlockTree) (l : List Uint256) : Prop :=
  ∀ h ∈ l, ∀ p prev, tree.find h = some p → p.pprev = some prev → prev ∈ l

namespace GoodChain

variable {env : ChainEnv} {tree tree' : BlockTree} {chain : List Uint256}

/-- What is known of a block of the chain. -/
theorem mem (h : GoodChain env tree chain) {hash : Uint256} (hmem : hash ∈ chain) :
    ∃ p, tree.find hash = some p ∧ hasStatus p.nStatus blockHaveData = true ∧
      hasStatus p.nStatus blockFailedMask = false ∧ env.connectTip hash = .valid := by
  induction h with
  | nil => cases hmem
  | cons hfind _ hdata hok hvalid _ ih =>
      rcases List.mem_cons.mp hmem with rfl | hmem
      · exact ⟨_, hfind, hdata, hok, hvalid⟩
      · exact ih hmem

theorem not_flagged (h : GoodChain env tree chain) {hash : Uint256} (hmem : hash ∈ chain) :
    tree.flagged blockFailedMask hash = false := by
  obtain ⟨p, hfind, -, hok, -⟩ := h.mem hmem
  rw [BlockTree.flagged_of_find hfind, hok]

theorem parentClosed (h : GoodChain env tree chain) : ParentClosed tree chain := by
  induction h with
  | nil => rintro h ⟨⟩
  | @cons hash chain p hfind hprev _ _ _ _ ih =>
      intro x hx q prev hq hqprev
      rcases List.mem_cons.mp hx with rfl | hx
      · rw [hfind] at hq
        cases hq
        rw [hqprev] at hprev
        exact List.mem_cons_of_mem _ (List.mem_of_mem_head? hprev.symm)
      · exact List.mem_cons_of_mem _ (ih x hx q prev hq hqprev)

theorem of_append {above : List Uint256} (h : GoodChain env tree (above ++ chain)) :
    GoodChain env tree chain := by
  induction above with
  | nil => exact h
  | cons x above ih =>
      cases h with
      | cons _ _ _ _ _ hrest => exact ih hrest

/-- A chain is determined by its first block. -/
theorem unique (h : GoodChain env tree chain) {chain' : List Uint256}
    (h' : GoodChain env tree chain') (hhead : chain.head? = chain'.head?) : chain = chain' := by
  induction h generalizing chain' with
  | nil =>
      cases h' with
      | nil => rfl
      | cons => cases hhead
  | cons hfind hprev _ _ _ _ ih =>
      cases h' with
      | nil => cases hhead
      | cons hfind' hprev' _ _ _ hrest' =>
          cases hhead
          rw [hfind] at hfind'
          cases hfind'
          rw [ih hrest' (hprev.symm.trans hprev')]

theorem nodup (h : GoodChain env tree chain) : chain.Nodup := by
  induction h with
  | nil => exact List.nodup_nil
  | @cons hash chain p hfind hprev hdata hok hvalid hrest ih =>
      refine List.nodup_cons.mpr ⟨?_, ih⟩
      -- a chain that comes back to its first block would be longer than itself
      intro hmem
      obtain ⟨above, below, rfl⟩ := List.append_of_mem hmem
      have heq := (cons hfind hprev hdata hok hvalid hrest).unique hrest.of_append rfl
      have hlen := congrArg List.length heq
      simp only [List.length_cons, List.length_append] at hlen
      omega

/-- The flags of the chain stay clear. -/
theorem reflagged (h : GoodChain env tree chain) (hre : Reflagged tree tree')
    (hclear : ∀ x ∈ chain, tree'.flagged blockFailedMask x = false) :
    GoodChain env tree' chain := by
  induction h with
  | nil => exact nil
  | cons hfind hprev hdata _ hvalid _ ih =>
      obtain ⟨p', hfind', hsame⟩ := hre.find_some _ _ hfind
      have hclear' := hclear _ (List.mem_cons_self ..)
      rw [BlockTree.flagged_of_find hfind'] at hclear'
      refine cons hfind' ?_ (hsame.data.trans hdata) hclear' hvalid
        (ih fun x hx => hclear x (List.mem_cons_of_mem _ hx))
      rw [hsame.eq]
      exact hprev

theorem grown (h : GoodChain env tree chain) (hgrown : Grown tree tree') :
    GoodChain env tree' chain := by
  induction h with
  | nil => exact nil
  | cons hfind hprev hdata hok hvalid _ ih =>
      obtain ⟨p', hfind', heq⟩ := hgrown.kept hfind hdata
      refine cons hfind' ?_ ?_ ?_ hvalid ih
      · rw [heq]
        exact hprev
      · rw [heq]
        exact hdata
      · rw [heq]
        exact hok

end GoodChain

/-- The candidates, relative to a chain that has been connected: its first block is one,
and so is every block that has not failed, is linked and is better than that.  The data of
every candidate have come, so that its place in the order is settled. -/
structure Selects (env : ChainEnv) (tree : BlockTree) (ref : List Uint256) : Prop where
  inv : TreeInv tree []
  chain : GoodChain env tree ref
  required : ∀ {h p}, tree.find h = some p → hasStatus p.nStatus blockFailedMask = false →
    p.nChainTx ≠ 0 → headKey env tree ref < workKey env p → h ∈ tree.setBlockIndexCandidates
  kept : ∀ {h}, ref.head? = some h → h ∈ tree.setBlockIndexCandidates
  settled : ∀ {h}, h ∈ tree.setBlockIndexCandidates → tree.hasData h = true

namespace Selects

variable {env : ChainEnv} {tree tree' : BlockTree} {ref : List Uint256}

theorem empty : Selects env {} [] := by
  refine ⟨TreeInv.empty, GoodChain.nil, ?_, ?_, ?_⟩
  · rintro h p ⟨⟩
  · rintro h ⟨⟩
  · rintro h ⟨⟩

theorem grown (h : Selects env tree ref) (hinv : TreeInv tree' []) (hgrown : Grown tree tree') :
    Selects env tree' ref := by
  have hhead : headKey env tree' ref = headKey env tree ref := by
    cases ref with
    | nil => rfl
    | cons x ref =>
        obtain ⟨p, hfind, hdata, -⟩ := h.chain.mem (List.mem_cons_self ..)
        obtain ⟨p', hfind', heq⟩ := hgrown.kept hfind hdata
        rw [headKey, headKey, keyOf_of_find hfind', keyOf_of_find hfind, heq]
        rfl
  refine ⟨hinv, h.chain.grown hgrown, ?_, fun hx => hgrown.candidates _ (h.kept hx), ?_⟩
  · intro x p' hfind hok hne hlt
    rcases hgrown.linked hfind hne with hmem | hold
    · exact hmem
    · exact hgrown.candidates x (h.required hold hok hne (hhead ▸ hlt))
  · intro x hx
    rcases hgrown.fresh x hx with hmem | hdata
    · exact hgrown.hasData (h.settled hmem)
    · exact hdata

/-- Flags are set on other blocks only, a candidate that is lost has failed or is worse than
the chain, and a new one has its data. -/
theorem shrink (h : Selects env tree ref) (hre : Reflagged tree tree')
    (hstay : ∀ x, tree'.flagged blockFailedMask x = false →
      tree.flagged blockFailedMask x = false)
    (hclear : ∀ x ∈ ref, tree'.flagged blockFailedMask x = false)
    (hkept : ∀ x ∈ tree.setBlockIndexCandidates, tree'.flagged blockFailedMask x = false →
      headKey env tree ref ≤ keyOf env tree x → x ∈ tree'.setBlockIndexCandidates)
    (hadded : ∀ x ∈ tree'.setBlockIndexCandidates,
      x ∈ tree.setBlockIndexCandidates ∨ tree.hasData x = true) :
    Selects env tree' ref := by
  refine ⟨h.inv.reflagged hre, h.chain.reflagged hre hclear, ?_, ?_, ?_⟩
  · intro x p' hfind' hok hne hlt
    obtain ⟨p, hfind, hsame⟩ := hre.back hfind'
    have hflag : tree'.flagged blockFailedMask x = false := by
      rw [BlockTree.flagged_of_find hfind', hok]
    have hold := hstay x hflag
    rw [BlockTree.flagged_of_find hfind] at hold
    rw [headKey_reflagged hre, workKey_sameBlock hsame] at hlt
    refine hkept x (h.required hfind hold ?_ hlt) hflag ?_
    · rw [hsame.eq] at hne
      exact hne
    · rw [keyOf_of_find hfind]
      exact hlt.le
  · intro x hx
    refine hkept x (h.kept hx) (hclear x (List.mem_of_mem_head? hx)) ?_
    rw [headKey_of_head hx]
  · intro x hx
    refine hasData_reflagged hre ?_
    rcases hadded x hx with hold | hdata
    · exact h.settled hold
    · exact hdata

theorem insertCandidate (h : Selects env tree ref) {hash : Uint256}
    (hdata : tree.hasData hash = true) : Selects env (tree.insertCandidate hash) ref := by
  have hflagged : ∀ x, (tree.insertCandidate hash).flagged blockFailedMask x =
      tree.flagged blockFailedMask x := by
    intro x
    unfold BlockTree.insertCandidate
    split_ifs <;> rfl
  refine h.shrink (Reflagged.insertCandidate tree hash) ?_ ?_ ?_ ?_
  · intro x hx
    rwa [hflagged] at hx
  · intro x hx
    rw [hflagged]
    exact h.chain.not_flagged hx
  · intro x hx _ _
    exact mem_insertCandidate.mpr (Or.inr hx)
  · intro x hx
    rcases mem_insertCandidate.mp hx with rfl | hx
    · exact Or.inr hdata
    · exact Or.inl hx

end Selects

end Hivemind
