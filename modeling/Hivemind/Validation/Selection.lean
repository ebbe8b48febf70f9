import Mathlib
import Hivemind.Validation.Accept

/-!
# The choice of the active chain

`ActivateBestChain` of `main.cpp` and what goes with it: `FindMostWorkChain`,
`PruneBlockIndexCandidates`, `InvalidateBlock` and `ReconsiderBlock`.  The functions see the
block index, the set of candidates and the active chain.  What `ConnectTip` says of a block is a
parameter: the coins that it works on are those of the block's ancestors.

A function that is not done, because an assertion fails or a null pointer is read, returns
`none`.  The candidates are a list here, and the last element of the ordered set is the best of
its members, by work, arrival and address; the two agree as long as no member changes its place,
which is proved of runs in `Hivemind.Validation.Candidates`.

* `workComparator`: the order of the candidates.
* `findMostWorkChain`, `activateBestChainStep`, `activateBestChain`: the way to the tip with the
  most work.
* `invalidateBlock`, `reconsiderBlock`: marking a block as failed, and taking that back.
* `runChain`: the state after a run of the functions.
* `Reflagged`: what they may change in the index besides the candidates.
-/

namespace Hivemind

open Codecs Ordered Outcomes

/-! ## The order of the candidates -/

/-- What `ConnectTip` says of a block. -/
inductive TipVerdict where
  | valid
  /-- The block breaks a rule; with `corruption` its data may be to blame. -/
  | invalid (corruption : Bool)
  /-- A system error. -/
  | failed
  deriving DecidableEq

/-- What the functions call and do not look into. -/
structure ChainEnv where
  /-- Where an entry is in memory. -/
  address : Uint256 → Nat
  address_injective : Function.Injective address
  hashGenesisBlock : Uint256
  connectTip : Uint256 → TipVerdict
  /-- `DisconnectTip` succeeds. -/
  disconnectTip : Uint256 → Bool
  /-- Where the undo data of a block go. -/
  undoPos : Uint256 → UInt32
  /-- `FlushStateToDisk` succeeds. -/
  flushOk : Bool

/-- `CBlockIndexWorkComparator`: the first entry is the worse one. -/
def workComparator (env : ChainEnv) (pa pb : CBlockIndex) : Bool :=
  if pb.nChainWork < pa.nChainWork then false
  else if pa.nChainWork < pb.nChainWork then true
  else if pa.nSequenceId < pb.nSequenceId then false
  else if pb.nSequenceId < pa.nSequenceId then true
  else if env.address pa.getBlockHash < env.address pb.getBlockHash then false
  else if env.address pb.getBlockHash < env.address pa.getBlockHash then true
  else false

namespace BlockTree

/-- The flag is set in the entry. -/
def flagged (tree : BlockTree) (flag : BlockStatus) (hash : Uint256) : Bool :=
  (tree.find hash).any fun pindex => hasStatus pindex.nStatus flag

/-- `nStatus |= flag`. -/
def setFlag (tree : BlockTree) (flag : BlockStatus) (hash : Uint256) : BlockTree :=
  match tree.find hash with
  | none => tree
  | some pindex => tree.put hash { pindex with nStatus := pindex.nStatus ||| flag }

/-- `nStatus &= ~flag`. -/
def clearFlag (tree : BlockTree) (flag : BlockStatus) (hash : Uint256) : BlockTree :=
  match tree.find hash with
  | none => tree
  | some pindex => tree.put hash { pindex with nStatus := pindex.nStatus &&& ~~~flag }

/-- `setBlockIndexCandidates.erase`. -/
def eraseCandidate (tree : BlockTree) (hash : Uint256) : BlockTree :=
  { tree with setBlockIndexCandidates := tree.setBlockIndexCandidates.filter (· != hash) }

/-- `setBlockIndexCandidates.insert`. -/
def insertCandidate (tree : BlockTree) (hash : Uint256) : BlockTree :=
  if hash ∈ tree.setBlockIndexCandidates then tree
  else { tree with setBlockIndexCandidates := hash :: tree.setBlockIndexCandidates }

/-- Mark a block as failed, and take it off the candidates. -/
def condemn (tree : BlockTree) (flag : BlockStatus) (hash : Uint256) : BlockTree :=
  (tree.setFlag flag hash).eraseCandidate hash

/-- The last element of `setBlockIndexCandidates`: the best of its members, as long as none of
them has got another place in the order since it was inserted. -/
def bestCandidate (env : ChainEnv) (tree : BlockTree) : Option CBlockIndex :=
  (tree.setBlockIndexCandidates.filterMap tree.find).foldl
    (fun best pindex => match best with
      | none => some pindex
      | some b => if workComparator env b pindex then some pindex else some b)
    none

/-- `PruneBlockIndexCandidates`, without its assertion. -/
def pruneCandidates (env : ChainEnv) (tree : BlockTree) (tip : CBlockIndex) : BlockTree :=
  { tree with
    setBlockIndexCandidates := tree.setBlockIndexCandidates.filter fun h =>
      !(tree.find h).any fun pindex => workComparator env pindex tip }

/-- `CBlockIndex::GetAncestor`. -/
def getAncestor (tree : BlockTree) (pindex : CBlockIndex) (height : Int) : Option CBlockIndex :=
  if pindex.nHeight < height ∨ height < 0 then none
  else tree.ancestor (pindex.nHeight - height).toNat pindex

end BlockTree

/-! ## The state -/

/-- The block index, and `chainActive` from the tip down. -/
structure ChainState where
  tree : BlockTree := {}
  chainActive : List Uint256 := []

namespace ChainState

/-- `chainActive.Tip()`. -/
def tip (s : ChainState) : Option Uint256 := s.chainActive.head?

/-- The entry of the tip. -/
def tipIndex (s : ChainState) : Option CBlockIndex := s.tip.bind s.tree.find

/-- The block and its ancestors back to the active chain. -/
def offChain (s : ChainState) : Nat → Option Uint256 → List Uint256
  | 0, _ => []
  | _, none => []
  | n + 1, some hash =>
    if hash ∈ s.chainActive then []
    else match s.tree.find hash with
      | none => []
      | some pindex => hash :: s.offChain n pindex.pprev

/-- `CChain::FindFork`. -/
def findFork (s : ChainState) : Nat → Option Uint256 → Option Uint256
  | 0, _ => none
  | _, none => none
  | n + 1, some hash =>
    if hash ∈ s.chainActive then some hash
    else match s.tree.find hash with
      | none => none
      | some pindex => s.findFork n pindex.pprev

end ChainState

/-! ## `FindMostWorkChain` -/

/-- What `FindMostWorkChain` asserts of a block off the active chain. -/
def BlockTree.holdsData (tree : BlockTree) (hash : Uint256) : Bool :=
  (tree.find hash).any fun pindex =>
    hasStatus pindex.nStatus blockHaveData && (pindex.nChainTx != 0 || pindex.nHeight == 0)

/-- `FindMostWorkChain`.  Every turn but the last takes its best candidate off the set. -/
def findMostWorkChain (env : ChainEnv) : Nat → ChainState → Option (Option Uint256 × ChainState)
  | 0, _ => none
  | n + 1, s => match s.tree.bestCandidate env with
    | none => some (none, s)
    | some pindexNew =>
      let path := s.offChain (pindexNew.nHeight.toNat + 1) (some pindexNew.getBlockHash)
      let clean := path.takeWhile fun h => !s.tree.flagged blockFailedMask h
      let rest := path.dropWhile fun h => !s.tree.flagged blockFailedMask h
      if !(clean ++ rest.take 1).all s.tree.holdsData then none
      else match rest with
        | [] => some (some pindexNew.getBlockHash, s)
        | pindexTest :: _ =>
          let tree := clean.foldl (fun tree h => tree.condemn blockFailedChild h) s.tree
          findMostWorkChain env n { s with tree := tree.eraseCandidate pindexTest }

/-! ## `ActivateBestChain` -/

/-- Disconnect blocks down to the fork.  The node does not survive without a tip. -/
def disconnectTo (env : ChainEnv) (fork : Option Uint256) :
    List Uint256 → Option (Bool × List Uint256)
  | [] => some (true, [])
  | hash :: chain =>
    if some hash = fork then some (true, hash :: chain)
    else if !env.disconnectTip hash then some (false, hash :: chain)
    else if chain = [] then none
    else disconnectTo env fork chain

/-- What `ConnectBlock` writes to the entry of a valid block. -/
def connectedEntry (env : ChainEnv) (hash : Uint256) (pindex : CBlockIndex) : CBlockIndex :=
  if hash = env.hashGenesisBlock then pindex
  else if pindex.getUndoPos.isNull || !pindex.isValid blockValidScripts then
    (if pindex.getUndoPos.isNull then
      { pindex with
        nUndoPos := env.undoPos hash
        nStatus := pindex.nStatus ||| blockHaveUndo }
      else pindex).raiseValidity blockValidScripts
  else pindex

/-- The state after a block has been connected and the candidates have been pruned. -/
def connectedState (env : ChainEnv) (s : ChainState) (hash : Uint256) (pindex : CBlockIndex) :
    ChainState where
  tree := (s.tree.put hash (connectedEntry env hash pindex)).pruneCandidates env
    (connectedEntry env hash pindex)
  chainActive := hash :: s.chainActive

/-- Connect the blocks of a list, which goes up from the tip, until one of them is not
valid or the chain has more work than before. -/
def connectPath (env : ChainEnv) (pindexOldTip : Option CBlockIndex) :
    List Uint256 → ChainState → Option (Bool × ChainState)
  | [], s => some (true, s)
  | hash :: path, s => match s.tree.find hash with
    | none => none
    | some pindex =>
      if pindex.pprev ≠ s.tip then none
      else match env.connectTip hash with
        | .failed => some (false, s)
        | .invalid true => some (true, s)
        | .invalid false => some (true, { s with tree := s.tree.condemn blockFailedValid hash })
        | .valid =>
          let s := connectedState env s hash pindex
          if s.tree.setBlockIndexCandidates = [] then none
          else if pindexOldTip.all fun old => old.nChainWork < pindex.nChainWork then some (true, s)
          else connectPath env pindexOldTip path s

/-- `ActivateBestChainStep`.  The source connects the blocks in batches of 32. -/
def activateBestChainStep (env : ChainEnv) (s : ChainState) (pindexMostWork : Uint256) :
    Option (Bool × ChainState) :=
  match s.tree.find pindexMostWork with
  | none => none
  | some pindex =>
    let n := pindex.nHeight.toNat + 1
    match disconnectTo env (s.findFork n (some pindexMostWork)) s.chainActive with
    | none => none
    | some (false, chain) => some (false, { s with chainActive := chain })
    | some (true, chain) =>
      connectPath env s.tipIndex (s.offChain n (some pindexMostWork)).reverse
        { s with chainActive := chain }

/-- `ActivateBestChain`, with a bound on the number of its steps. -/
def activateBestChain (env : ChainEnv) : Nat → ChainState → Option (Bool × ChainState)
  | 0, _ => none
  | n + 1, s => match findMostWorkChain env (s.tree.setBlockIndexCandidates.length + 1) s with
    | none => none
    | some (none, s) => some (true, s)
    | some (some pindexMostWork, s) =>
      if some pindexMostWork = s.tip then some (true, s)
      else match activateBestChainStep env s pindexMostWork with
        | none => none
        | some (false, s) => some (false, s)
        | some (true, s) =>
          if some pindexMostWork = s.tip then some (env.flushOk, s) else activateBestChain env n s

/-! ## `InvalidateBlock` and `ReconsiderBlock` -/

/-- Disconnect blocks as long as the active chain contains the block. -/
def disconnectInvalid (env : ChainEnv) (hash : Uint256) :
    List Uint256 → BlockTree → Option (Bool × ChainState)
  | [], tree => some (true, ⟨tree, []⟩)
  | pindexWalk :: chain, tree =>
    if hash ∉ pindexWalk :: chain then some (true, ⟨tree, pindexWalk :: chain⟩)
    else
      let tree := tree.condemn blockFailedChild pindexWalk
      if !env.disconnectTip pindexWalk then some (false, ⟨tree, pindexWalk :: chain⟩)
      else if chain = [] then none
      else disconnectInvalid env hash chain tree

/-- The tests of `InvalidateBlock` and `ReconsiderBlock` on a block that may be a candidate:
`none` when there is no tip to compare it with. -/
def mayBeCandidate (env : ChainEnv) (tip : Option CBlockIndex) (pindex : CBlockIndex) :
    Option Bool :=
  if pindex.isValid blockValidTransactions && pindex.nChainTx != 0 then
    tip.map fun tip => workComparator env tip pindex
  else some false

/-- `InvalidateBlock`, with the result of `DisconnectTip`.  When some block is to be added
to the candidates again, the source adds the invalid block. -/
def invalidateBlock (env : ChainEnv) (s : ChainState) (hash : Uint256) :
    Option (Bool × ChainState) :=
  match s.tree.find hash with
  | none => some (false, s)
  | some _ => match disconnectInvalid env hash s.chainActive
      (s.tree.condemn blockFailedValid hash) with
    | none => none
    | some (false, s) => some (false, s)
    | some (true, s) => do
      let tests ← s.tree.mapBlockIndex.entries.mapM fun e => mayBeCandidate env s.tipIndex e.2
      some (true, if tests.any id then { s with tree := s.tree.insertCandidate hash } else s)

/-- One descendant of the block that is reconsidered. -/
def reconsiderEntry (env : ChainEnv) (tip : Option CBlockIndex) (tree : BlockTree)
    (e : Uint256 × CBlockIndex) : Option BlockTree := do
  let pindex := { e.2 with nStatus := e.2.nStatus &&& ~~~blockFailedMask }
  let tree := tree.put e.1 pindex
  if ← mayBeCandidate env tip pindex then some (tree.insertCandidate e.1) else some tree

/-- `ReconsiderBlock`. -/
def reconsiderBlock (env : ChainEnv) (s : ChainState) (hash : Uint256) :
    Option (Bool × ChainState) :=
  match s.tree.find hash with
  | none => some (false, s)
  | some pindex => do
    let descendants := s.tree.mapBlockIndex.entries.filter fun e =>
      !e.2.isValid blockValidTransactions &&
        (s.tree.getAncestor e.2 pindex.nHeight).map CBlockIndex.getBlockHash == some hash
    let tree ← descendants.foldlM (reconsiderEntry env s.tipIndex) s.tree
    let ancestors := s.tree.ancestors (pindex.nHeight.toNat + 1) (some pindex)
    some (true, { s with
      tree := ancestors.foldl (fun tree p => tree.clearFlag blockFailedMask p.getBlockHash) tree })

/-- What a turn of the loop of `connectPath` can do. -/
theorem connectPath_cons {env : ChainEnv} {old : Option CBlockIndex} {hash : Uint256}
    {path : List Uint256} {s s' : ChainState} {ok : Bool}
    (h : connectPath env old (hash :: path) s = some (ok, s')) :
    ∃ pindex, s.tree.find hash = some pindex ∧ pindex.pprev = s.tip ∧
      ((env.connectTip hash = .failed ∧ ok = false ∧ s' = s) ∨
        (env.connectTip hash = .invalid true ∧ ok = true ∧ s' = s) ∨
        (env.connectTip hash = .invalid false ∧ ok = true ∧
          s' = { s with tree := s.tree.condemn blockFailedValid hash }) ∨
        (env.connectTip hash = .valid ∧ ok = true ∧ s' = connectedState env s hash pindex) ∨
        (env.connectTip hash = .valid ∧
          connectPath env old path (connectedState env s hash pindex) = some (ok, s'))) := by
  rw [connectPath] at h
  cases hfind : s.tree.find hash with
  | none =>
      rw [hfind] at h
      cases h
  | some pindex =>
      rw [hfind] at h
      by_cases hprev : pindex.pprev = s.tip
      · refine ⟨pindex, rfl, hprev, ?_⟩
        simp only [hprev, ne_eq, not_true, if_false] at h
        cases hverdict : env.connectTip hash with
        | failed =>
            rw [hverdict] at h
            cases h
            exact Or.inl ⟨rfl, rfl, rfl⟩
        | invalid corruption =>
            rw [hverdict] at h
            cases corruption with
            | true =>
                cases h
                exact Or.inr (Or.inl ⟨rfl, rfl, rfl⟩)
            | false =>
                cases h
                exact Or.inr (Or.inr (Or.inl ⟨rfl, rfl, rfl⟩))
        | valid =>
            rw [hverdict] at h
            simp only at h
            split_ifs at h
            · cases h
              exact Or.inr (Or.inr (Or.inr (Or.inl ⟨rfl, rfl, rfl⟩)))
            · exact Or.inr (Or.inr (Or.inr (Or.inr ⟨rfl, h⟩)))
      · simp [hprev] at h

/-! ## What the functions leave alone -/

/-- The two entries differ in flags only: the data are there in both or in neither, and
the validity has not gone down. -/
structure SameBlock (p p' : CBlockIndex) : Prop where
  eq : p' = { p with nStatus := p'.nStatus, nUndoPos := p'.nUndoPos }
  data : hasStatus p'.nStatus blockHaveData = hasStatus p.nStatus blockHaveData
  level : p.nStatus &&& blockValidMask ≤ p'.nStatus &&& blockValidMask

namespace SameBlock

theorem refl (p : CBlockIndex) : SameBlock p p := ⟨rfl, rfl, UInt32.le_refl _⟩

theorem trans {p p' p'' : CBlockIndex} (h : SameBlock p p') (h' : SameBlock p' p'') :
    SameBlock p p'' := by
  refine ⟨?_, h'.data.trans h.data, UInt32.le_trans h.level h'.level⟩
  rw [h'.eq, h.eq]

/-- Setting a flag that is neither the data nor the validity. -/
theorem setFlag (p : CBlockIndex) {flag : BlockStatus}
    (hdata : hasStatus flag blockHaveData = false) (hlevel : flag &&& blockValidMask = 0) :
    SameBlock p { p with nStatus := p.nStatus ||| flag } := by
  refine ⟨rfl, by simp [hdata], ?_⟩
  show _ ≤ (p.nStatus ||| flag) &&& blockValidMask
  rw [status_or_and, hlevel, UInt32.or_zero]
  exact UInt32.le_refl _

theorem clearFailed (p : CBlockIndex) :
    SameBlock p { p with nStatus := p.nStatus &&& ~~~blockFailedMask } := by
  refine ⟨rfl, hasStatus_and_not _ (by decide), ?_⟩
  show _ ≤ (p.nStatus &&& ~~~blockFailedMask) &&& blockValidMask
  rw [UInt32.and_assoc, show ~~~blockFailedMask &&& blockValidMask = blockValidMask by decide]
  exact UInt32.le_refl _

theorem raiseValidity (p : CBlockIndex) : SameBlock p (p.raiseValidity blockValidScripts) := by
  refine ⟨?_, p.hasStatus_raiseValidity (by decide) (by decide), ?_⟩
  · unfold CBlockIndex.raiseValidity
    split_ifs <;> rfl
  · unfold CBlockIndex.raiseValidity
    split_ifs with hfailed hlt
    · exact UInt32.le_refl _
    · show _ ≤ ((p.nStatus &&& ~~~blockValidMask) ||| blockValidScripts) &&& blockValidMask
      rw [status_or_and, UInt32.and_assoc,
        show ~~~blockValidMask &&& blockValidMask = 0 by decide, UInt32.and_zero, UInt32.zero_or,
        show blockValidScripts &&& blockValidMask = blockValidScripts by decide]
      exact UInt32.le_of_lt hlt
    · exact UInt32.le_refl _

theorem connectedEntry (env : ChainEnv) (hash : Uint256) (p : CBlockIndex) :
    SameBlock p (connectedEntry env hash p) := by
  have hundo : SameBlock p
      { p with nUndoPos := env.undoPos hash, nStatus := p.nStatus ||| blockHaveUndo } := by
    obtain ⟨-, hdata, hlevel⟩ := @SameBlock.setFlag p blockHaveUndo (by decide) (by decide)
    exact ⟨rfl, hdata, hlevel⟩
  unfold Hivemind.connectedEntry
  split_ifs
  · exact refl p
  · exact hundo.trans (raiseValidity _)
  · exact raiseValidity p
  · exact refl p

end SameBlock

/-- The two indexes differ in flags and candidates only. -/
structure Reflagged (tree tree' : BlockTree) : Prop where
  find_none : ∀ h, tree.find h = none → tree'.find h = none
  find_some : ∀ h p, tree.find h = some p → ∃ p', tree'.find h = some p' ∧ SameBlock p p'
  unlinked : tree'.mapBlocksUnlinked = tree.mapBlocksUnlinked
  sequenceId : tree'.nBlockSequenceId = tree.nBlockSequenceId

namespace Reflagged

variable {tree tree' tree'' : BlockTree}

/-- Where an entry comes from. -/
theorem back (h : Reflagged tree tree') {x : Uint256} {p' : CBlockIndex}
    (hx : tree'.find x = some p') : ∃ p, tree.find x = some p ∧ SameBlock p p' := by
  cases hold : tree.find x with
  | none =>
      rw [h.find_none x hold] at hx
      cases hx
  | some p =>
      obtain ⟨p'', hx', hsame⟩ := h.find_some x p hold
      rw [hx] at hx'
      cases hx'
      exact ⟨p, rfl, hsame⟩

theorem refl (tree : BlockTree) : Reflagged tree tree :=
  ⟨fun _ h => h, fun _ p h => ⟨p, h, SameBlock.refl p⟩, rfl, rfl⟩

theorem trans (h : Reflagged tree tree') (h' : Reflagged tree' tree'') : Reflagged tree tree'' := by
  refine ⟨fun x hx => h'.find_none x (h.find_none x hx), ?_, h'.unlinked.trans h.unlinked,
    h'.sequenceId.trans h.sequenceId⟩
  intro x p hx
  obtain ⟨p', hp', hsame⟩ := h.find_some x p hx
  obtain ⟨p'', hp'', hsame'⟩ := h'.find_some x p' hp'
  exact ⟨p'', hp'', hsame.trans hsame'⟩

/-- Whatever is done to the candidates. -/
theorem candidates (tree : BlockTree) (candidates : List Uint256) :
    Reflagged tree { tree with setBlockIndexCandidates := candidates } :=
  ⟨fun _ h => h, fun _ p h => ⟨p, h, SameBlock.refl p⟩, rfl, rfl⟩

/-- An entry is written that differs in flags only from what was there at the start. -/
theorem trans_put (h : Reflagged tree tree') {hash : Uint256} {p p' : CBlockIndex}
    (hfind : tree.find hash = some p) (hsame : SameBlock p p') :
    Reflagged tree (tree'.put hash p') := by
  refine ⟨?_, ?_, h.unlinked, h.sequenceId⟩
  · intro x hx
    have hne : x ≠ hash := by
      rintro rfl
      rw [hfind] at hx
      cases hx
    rw [BlockTree.find_put_of_ne _ _ hne, h.find_none x hx]
  · intro x q hx
    by_cases hxh : x = hash
    · subst hxh
      rw [hfind] at hx
      cases hx
      exact ⟨p', BlockTree.find_put_self .., hsame⟩
    · rw [BlockTree.find_put_of_ne _ _ hxh]
      exact h.find_some x q hx

theorem put {hash : Uint256} {p p' : CBlockIndex} (hfind : tree.find hash = some p)
    (hsame : SameBlock p p') : Reflagged tree (tree.put hash p') :=
  (refl tree).trans_put hfind hsame

theorem setFlag (tree : BlockTree) {flag : BlockStatus} (hash : Uint256)
    (hdata : hasStatus flag blockHaveData = false) (hlevel : flag &&& blockValidMask = 0) :
    Reflagged tree (tree.setFlag flag hash) := by
  unfold BlockTree.setFlag
  cases hfind : tree.find hash with
  | none => exact refl tree
  | some p => exact put hfind (SameBlock.setFlag p hdata hlevel)

theorem clearFailed (tree : BlockTree) (hash : Uint256) :
    Reflagged tree (tree.clearFlag blockFailedMask hash) := by
  unfold BlockTree.clearFlag
  cases hfind : tree.find hash with
  | none => exact refl tree
  | some p => exact put hfind (SameBlock.clearFailed p)

theorem condemn (tree : BlockTree) {flag : BlockStatus} (hash : Uint256)
    (hdata : hasStatus flag blockHaveData = false) (hlevel : flag &&& blockValidMask = 0) :
    Reflagged tree (tree.condemn flag hash) :=
  (setFlag tree hash hdata hlevel).trans (candidates _ _)

theorem insertCandidate (tree : BlockTree) (hash : Uint256) :
    Reflagged tree (tree.insertCandidate hash) := by
  unfold BlockTree.insertCandidate
  split_ifs
  · exact refl tree
  · exact candidates tree _

/-- A loop that reflags in every turn. -/
theorem foldl {α : Type} {f : BlockTree → α → BlockTree} (hf : ∀ tree a, Reflagged tree (f tree a))
    (l : List α) (tree : BlockTree) : Reflagged tree (l.foldl f tree) := by
  induction l generalizing tree with
  | nil => exact refl tree
  | cons a l ih => exact (hf tree a).trans (ih (f tree a))

theorem condemnChild (tree : BlockTree) (hash : Uint256) :
    Reflagged tree (tree.condemn blockFailedChild hash) :=
  condemn tree hash (by decide) (by decide)

theorem condemnValid (tree : BlockTree) (hash : Uint256) :
    Reflagged tree (tree.condemn blockFailedValid hash) :=
  condemn tree hash (by decide) (by decide)

/-! ### The functions -/

/-- The files are no part of the index. -/
theorem findBlockPos (tree : BlockTree) (dbp : Option CDiskBlockPos) (nAddSize nHeight : UInt32)
    (nTime : UInt64) (diskSpaceOk : Bool) :
    Reflagged tree (tree.findBlockPos dbp nAddSize nHeight nTime diskSpaceOk).2 :=
  ⟨fun _ h => h, fun _ p h => ⟨p, h, SameBlock.refl p⟩, rfl, rfl⟩

theorem findMostWorkChain {env : ChainEnv} {n : Nat} {s s' : ChainState} {best : Option Uint256}
    (h : findMostWorkChain env n s = some (best, s')) :
    Reflagged s.tree s'.tree ∧ s'.chainActive = s.chainActive := by
  induction n generalizing s with
  | zero => cases h
  | succ n ih =>
      rw [Hivemind.findMostWorkChain] at h
      split at h
      · cases h
        exact ⟨refl _, rfl⟩
      · simp only at h
        split_ifs at h
        split at h
        · cases h
          exact ⟨refl _, rfl⟩
        · obtain ⟨hrest, hchain⟩ := ih h
          refine ⟨?_, hchain⟩
          exact ((foldl condemnChild _ _).trans (candidates _ _)).trans hrest

theorem connectedState {env : ChainEnv} {s : ChainState} {hash : Uint256} {pindex : CBlockIndex}
    (hfind : s.tree.find hash = some pindex) :
    Reflagged s.tree (connectedState env s hash pindex).tree :=
  (put hfind (SameBlock.connectedEntry env hash pindex)).trans (candidates _ _)

theorem connectPath {env : ChainEnv} {old : Option CBlockIndex} {path : List Uint256}
    {s s' : ChainState} {ok : Bool} (h : connectPath env old path s = some (ok, s')) :
    Reflagged s.tree s'.tree := by
  induction path generalizing s with
  | nil =>
      cases h
      exact refl _
  | cons hash path ih =>
      obtain ⟨pindex, hfind, -, ⟨-, -, rfl⟩ | ⟨-, -, rfl⟩ | ⟨-, -, rfl⟩ | ⟨-, -, rfl⟩ | ⟨-, hrest⟩⟩ :=
        connectPath_cons h
      · exact refl _
      · exact refl _
      · exact condemnValid _ _
      · exact connectedState hfind
      · exact (connectedState hfind).trans (ih hrest)

theorem activateBestChainStep {env : ChainEnv} {s s' : ChainState} {best : Uint256} {ok : Bool}
    (h : activateBestChainStep env s best = some (ok, s')) : Reflagged s.tree s'.tree := by
  rw [Hivemind.activateBestChainStep] at h
  split at h
  · cases h
  · simp only at h
    split at h
    · cases h
    · cases h
      exact refl _
    · rename_i chain _
      exact @connectPath env _ _ { s with chainActive := chain } _ _ h

theorem activateBestChain {env : ChainEnv} {n : Nat} {s s' : ChainState} {ok : Bool}
    (h : activateBestChain env n s = some (ok, s')) : Reflagged s.tree s'.tree := by
  induction n generalizing s with
  | zero => cases h
  | succ n ih =>
      rw [Hivemind.activateBestChain] at h
      split at h
      · cases h
      · rename_i hfind
        cases h
        exact (findMostWorkChain hfind).1
      · rename_i s₁ hfind
        have hfound := (findMostWorkChain hfind).1
        split_ifs at h
        · cases h
          exact hfound
        · split at h
          · cases h
          · rename_i hstep
            cases h
            exact hfound.trans (activateBestChainStep hstep)
          · rename_i hstep
            have hstepped := hfound.trans (activateBestChainStep hstep)
            split_ifs at h
            · cases h
              exact hstepped
            · exact hstepped.trans (ih h)

theorem disconnectInvalid {env : ChainEnv} {hash : Uint256} {chain : List Uint256}
    {s' : ChainState} {ok : Bool} (h : disconnectInvalid env hash chain tree = some (ok, s')) :
    Reflagged tree s'.tree := by
  induction chain generalizing tree with
  | nil =>
      cases h
      exact refl _
  | cons pindexWalk chain ih =>
      rw [Hivemind.disconnectInvalid] at h
      by_cases hmem : hash ∈ pindexWalk :: chain
      · simp only [hmem, not_true, if_false] at h
        split_ifs at h
        · cases h
          exact condemnChild _ _
        · exact (condemnChild _ _).trans (ih h)
      · rw [if_pos hmem] at h
        cases h
        exact refl _

theorem invalidateBlock {env : ChainEnv} {s s' : ChainState} {hash : Uint256} {ok : Bool}
    (h : invalidateBlock env s hash = some (ok, s')) : Reflagged s.tree s'.tree := by
  rw [Hivemind.invalidateBlock] at h
  split at h
  · cases h
    exact refl _
  · split at h
    · cases h
    · rename_i hdisc
      cases h
      exact (condemnValid _ _).trans (disconnectInvalid hdisc)
    · rename_i s₁ hdisc
      obtain ⟨tests, -, heq⟩ := Option.bind_eq_some_iff.mp h
      have hcond := (condemnValid s.tree hash).trans (disconnectInvalid hdisc)
      cases heq
      split_ifs
      · exact hcond.trans (insertCandidate _ _)
      · exact hcond

theorem reconsiderEntry {env : ChainEnv} {tip : Option CBlockIndex} {e : Uint256 × CBlockIndex}
    (h : Reflagged tree tree') (hfind : tree.find e.1 = some e.2)
    (hstep : reconsiderEntry env tip tree' e = some tree'') : Reflagged tree tree'' := by
  obtain ⟨b, -, heq⟩ := Option.bind_eq_some_iff.mp hstep
  have hput := h.trans_put hfind (SameBlock.clearFailed e.2)
  cases b with
  | true =>
      cases heq
      exact hput.trans (insertCandidate _ _)
  | false =>
      cases heq
      exact hput

theorem reconsiderEntries {env : ChainEnv} {tip : Option CBlockIndex}
    {es : List (Uint256 × CBlockIndex)} (h : Reflagged tree tree')
    (hes : ∀ e ∈ es, tree.find e.1 = some e.2)
    (hfold : es.foldlM (Hivemind.reconsiderEntry env tip) tree' = some tree'') :
    Reflagged tree tree'' := by
  induction es generalizing tree' with
  | nil =>
      cases hfold
      exact h
  | cons e es ih =>
      rw [List.foldlM_cons] at hfold
      obtain ⟨tree₁, hstep, hrest⟩ := Option.bind_eq_some_iff.mp hfold
      exact ih (h.reconsiderEntry (hes e (by simp)) hstep) (fun e' he' => hes e' (by simp [he']))
        hrest

theorem reconsiderBlock {env : ChainEnv} {s s' : ChainState} {hash : Uint256} {ok : Bool}
    (h : reconsiderBlock env s hash = some (ok, s')) : Reflagged s.tree s'.tree := by
  rw [Hivemind.reconsiderBlock] at h
  split at h
  · cases h
    exact refl _
  · obtain ⟨tree₁, hfold, heq⟩ := Option.bind_eq_some_iff.mp h
    cases heq
    have hentries := (refl s.tree).reconsiderEntries
      (fun e he => OrdMap.find_eq_some.mpr (List.mem_filter.mp he).1) hfold
    exact hentries.trans (foldl (fun tree (p : CBlockIndex) => clearFailed tree p.getBlockHash) _ _)

end Reflagged

/-! ## Runs -/

/-- A call of one of the functions. -/
inductive ChainStep where
  | index (step : IndexStep)
  | activate (fuel : Nat)
  | invalidate (hash : Uint256)
  | reconsider (hash : Uint256)

/-- The state after a call. -/
def ChainStep.apply (env : ChainEnv) (s : ChainState) : ChainStep → Option ChainState
  | .index step => some { s with tree := step.apply s.tree }
  | .activate fuel => (activateBestChain env fuel s).map Prod.snd
  | .invalidate hash => (invalidateBlock env s hash).map Prod.snd
  | .reconsider hash => (reconsiderBlock env s hash).map Prod.snd

/-- The state after a run, if every call returns. -/
def runChain (env : ChainEnv) : List ChainStep → ChainState → Option ChainState
  | [], s => some s
  | step :: steps, s => (step.apply env s).bind (runChain env steps)

end Hivemind
