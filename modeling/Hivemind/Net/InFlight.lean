import Hivemind.Lib.OrdMap
import Hivemind.Primitives.Basic
import Mathlib.Algebra.Order.Ring.Int

/-!
# Blocks in flight

The bookkeeping of block downloads in `main.cpp`: `mapBlocksInFlight` says which node a block has
been asked from, each node has the list of its blocks, and two counters go with them.  The map
holds iterators into the lists; an element of a list is kept with the address that an iterator to
it has.

A function that reads a null pointer or an iterator to nothing, or fails an assertion, returns
`none`.

The map, the lists and their lengths always agree, since each of the two moves, an entry that is
added at the end of a list and one that is taken off, changes all of them.  The global counter
does not: `FinalizeNode` takes the blocks of its node off the map and leaves the counter as it
is, so the counter is off by the blocks with validated headers that leaving nodes had in flight.

* `Tracked`: what the map, the lists and the counter of a node always agree on.
* `validated_apply`: what a step does to `nQueuedValidatedHeaders`.
* `booked_iff_finalizesClean`: **when the global counter agrees too.**
* `abandoningRun_not_booked`: a node that leaves with such a block in flight.
-/

namespace Hivemind

open Codecs Ordered

/-! ## The state -/

abbrev NodeId := Int

/-- `QueuedBlock`. -/
structure QueuedBlock where
  hash : Uint256
  pindex : Option Uint256
  /-- The time of the request. -/
  nTime : Int
  nValidatedQueuedBefore : Int
  fValidatedHeaders : Bool
  deriving DecidableEq

/-- `CNodeState`, as far as downloads go. -/
structure CNodeState where
  name : String := ""
  fSyncStarted : Bool := false
  nStallingSince : Int := 0
  /-- The elements of the list, each with its address. -/
  vBlocksInFlight : List (Nat × QueuedBlock) := []
  nBlocksInFlight : Int := 0
  fPreferredDownload : Bool := false
  deriving DecidableEq

/-- The variables that the functions share. -/
structure DownloadState where
  mapNodeState : OrdMap NodeId CNodeState := OrdMap.empty
  mapBlocksInFlight : OrdMap Uint256 (NodeId × Nat) := OrdMap.empty
  /-- "Number of blocks in flight with validated headers." -/
  nQueuedValidatedHeaders : Int := 0
  nSyncStarted : Int := 0
  nPreferredDownload : Int := 0
  /-- The address of the next element of a list. -/
  nextAddress : Nat := 0

/-! ## The functions -/

def boolInt (b : Bool) : Int := if b then 1 else 0

/-- `InitializeNode`. -/
def initializeNode (nodeid : NodeId) (addrName : String) (s : DownloadState) : DownloadState :=
  let state := (s.mapNodeState.find nodeid).getD {}
  { s with mapNodeState := s.mapNodeState.put nodeid { state with name := addrName } }

/-- `FinalizeNode`, without the orphan transactions of the node. -/
def finalizeNode (nodeid : NodeId) (s : DownloadState) : Option DownloadState :=
  (s.mapNodeState.find nodeid).map fun state =>
    { s with
      nSyncStarted := s.nSyncStarted - boolInt state.fSyncStarted
      mapBlocksInFlight :=
        s.mapBlocksInFlight.eraseAll (state.vBlocksInFlight.map fun e => e.2.hash)
      nPreferredDownload := s.nPreferredDownload - boolInt state.fPreferredDownload
      mapNodeState := s.mapNodeState.erase nodeid }

/-- `MarkBlockAsReceived`. -/
def markBlockAsReceived (hash : Uint256) (s : DownloadState) : Option DownloadState :=
  match s.mapBlocksInFlight.find hash with
  | none => some s
  | some (nodeid, address) => do
    let state ← s.mapNodeState.find nodeid
    let entry ← state.vBlocksInFlight.find? fun e => e.1 == address
    some { s with
      nQueuedValidatedHeaders := s.nQueuedValidatedHeaders - boolInt entry.2.fValidatedHeaders
      mapNodeState := s.mapNodeState.put nodeid { state with
        vBlocksInFlight := state.vBlocksInFlight.filter fun e => e.1 != address
        nBlocksInFlight := state.nBlocksInFlight - 1
        nStallingSince := 0 }
      mapBlocksInFlight := s.mapBlocksInFlight.erase hash }

/-- The end of `MarkBlockAsInFlight`: a new entry at the end of the list of the node. -/
def queueBlock (nodeid : NodeId) (hash : Uint256) (pindex : Option Uint256) (now : Int)
    (s : DownloadState) (state : CNodeState) : DownloadState :=
  let newentry : QueuedBlock := ⟨hash, pindex, now, s.nQueuedValidatedHeaders, pindex.isSome⟩
  { s with
    nQueuedValidatedHeaders := s.nQueuedValidatedHeaders + boolInt newentry.fValidatedHeaders
    mapNodeState := s.mapNodeState.put nodeid { state with
      vBlocksInFlight := state.vBlocksInFlight ++ [(s.nextAddress, newentry)]
      nBlocksInFlight := state.nBlocksInFlight + 1 }
    mapBlocksInFlight := s.mapBlocksInFlight.put hash (nodeid, s.nextAddress)
    nextAddress := s.nextAddress + 1 }

/-- `MarkBlockAsInFlight`.  The block is no longer asked from another node. -/
def markBlockAsInFlight (nodeid : NodeId) (hash : Uint256) (pindex : Option Uint256) (now : Int)
    (s : DownloadState) : Option DownloadState := do
  if (s.mapNodeState.find nodeid).isNone then none
  else
    let s ← markBlockAsReceived hash s
    let state ← s.mapNodeState.find nodeid
    some (queueBlock nodeid hash pindex now s state)

/-! ## Runs -/

inductive DownloadStep where
  | initializeNode (nodeid : NodeId) (addrName : String)
  | finalizeNode (nodeid : NodeId)
  | markInFlight (nodeid : NodeId) (hash : Uint256) (pindex : Option Uint256) (now : Int)
  | markReceived (hash : Uint256)

/-- One call. -/
def DownloadStep.apply : DownloadStep → DownloadState → Option DownloadState
  | .initializeNode nodeid addrName, s => some (Hivemind.initializeNode nodeid addrName s)
  | .finalizeNode nodeid, s => Hivemind.finalizeNode nodeid s
  | .markInFlight nodeid hash pindex now, s => markBlockAsInFlight nodeid hash pindex now s
  | .markReceived hash, s => markBlockAsReceived hash s

/-- The states of a run, up to a call that does not return. -/
def downloadStates : List DownloadStep → DownloadState → List DownloadState
  | [], s => [s]
  | step :: steps, s => s :: match step.apply s with
    | none => []
    | some s => downloadStates steps s

/-! ## What the structures agree on -/

/-- The number of entries of a node with validated headers. -/
def CNodeState.validated (state : CNodeState) : Int :=
  (state.vBlocksInFlight.countP fun e => e.2.fValidatedHeaders : Nat)

/-- The number of entries in flight with validated headers. -/
def DownloadState.validated (s : DownloadState) : Int :=
  s.mapNodeState.total fun _ state => state.validated

/-- The list of the node has the entry at the address. -/
def DownloadState.Queued (s : DownloadState) (nodeid : NodeId) (e : Nat × QueuedBlock) : Prop :=
  ∃ state, s.mapNodeState.find nodeid = some state ∧ e ∈ state.vBlocksInFlight

/-- The map, the lists of the nodes and their lengths agree. -/
structure Tracked (s : DownloadState) : Prop where
  inFlight : ∀ {hash nodeid address},
    s.mapBlocksInFlight.find hash = some (nodeid, address) ↔
      ∃ e : QueuedBlock, s.Queued nodeid (address, e) ∧ e.hash = hash
  /-- An address is the one of one element. -/
  addresses : ∀ {n n' e e'}, s.Queued n e → s.Queued n' e' → e.1 = e'.1 → n = n' ∧ e = e'
  fresh : ∀ {n e}, s.Queued n e → e.1 < s.nextAddress
  nodup : ∀ {n state}, s.mapNodeState.find n = some state →
    (state.vBlocksInFlight.map Prod.fst).Nodup
  count : ∀ {n state}, s.mapNodeState.find n = some state →
    state.nBlocksInFlight = (state.vBlocksInFlight.length : Nat)

/-- The whole bookkeeping: each hash is in flight from one node at most, and the counters
are right. -/
structure Booked (s : DownloadState) : Prop where
  inFlight : ∀ {hash nodeid address},
    s.mapBlocksInFlight.find hash = some (nodeid, address) ↔
      ∃ e : QueuedBlock, s.Queued nodeid (address, e) ∧ e.hash = hash
  one : ∀ {n n' e e'}, s.Queued n e → s.Queued n' e' → e.2.hash = e'.2.hash → n = n' ∧ e = e'
  nodup : ∀ {n state}, s.mapNodeState.find n = some state → state.vBlocksInFlight.Nodup
  count : ∀ {n state}, s.mapNodeState.find n = some state →
    state.nBlocksInFlight = (state.vBlocksInFlight.length : Nat)
  validated : s.nQueuedValidatedHeaders = s.validated

namespace Tracked

variable {s : DownloadState}

/-- An entry is found in the map under its hash. -/
theorem find (h : Tracked s) {nodeid : NodeId} {e : Nat × QueuedBlock}
    (hq : s.Queued nodeid e) : s.mapBlocksInFlight.find e.2.hash = some (nodeid, e.1) :=
  h.inFlight.mpr ⟨e.2, hq, rfl⟩

/-- A hash is in flight from one node at most. -/
theorem one (h : Tracked s) {n n' : NodeId} {e e' : Nat × QueuedBlock} (hq : s.Queued n e)
    (hq' : s.Queued n' e') (heq : e.2.hash = e'.2.hash) : n = n' ∧ e = e' := by
  have hfind := h.find hq
  rw [heq, h.find hq'] at hfind
  have haddr : e'.1 = e.1 := (Prod.mk.inj (Option.some.inj hfind)).2
  exact h.addresses hq hq' haddr.symm

theorem booked (h : Tracked s) (hvalid : s.nQueuedValidatedHeaders = s.validated) : Booked s where
  inFlight := h.inFlight
  one := h.one
  nodup hfind := List.Nodup.of_map _ (h.nodup hfind)
  count := h.count
  validated := hvalid

theorem empty : Tracked {} where
  inFlight := by simp [DownloadState.Queued]
  addresses := by simp [DownloadState.Queued]
  fresh := by simp [DownloadState.Queued]
  nodup := by simp
  count := by simp

end Tracked

/-! ## The steps -/

section Steps

variable {s : DownloadState}

theorem queued_put {s' : DownloadState} {nodeid n : NodeId} {state : CNodeState}
    {e : Nat × QueuedBlock} (hput : s'.mapNodeState = s.mapNodeState.put nodeid state) :
    s'.Queued n e ↔ (n = nodeid ∧ e ∈ state.vBlocksInFlight) ∨ (n ≠ nodeid ∧ s.Queued n e) := by
  simp only [DownloadState.Queued, hput, OrdMap.find_put]
  by_cases hn : n = nodeid
  · simp [hn]
  · simp [hn]

theorem queued_of_find {nodeid : NodeId} {state : CNodeState}
    (hfind : s.mapNodeState.find nodeid = some state) {e : Nat × QueuedBlock} :
    s.Queued nodeid e ↔ e ∈ state.vBlocksInFlight := by
  simp [DownloadState.Queued, hfind]

/-- What holds of the other nodes and of the one that is written holds of all. -/
theorem node_put {P : CNodeState → Prop} {nodes : OrdMap NodeId CNodeState} {nodeid n : NodeId}
    {state state' : CNodeState} (hold : ∀ {n state}, nodes.find n = some state → P state)
    (hnew : P state) (hfind : (nodes.put nodeid state).find n = some state') : P state' := by
  rw [OrdMap.find_put] at hfind
  split_ifs at hfind
  · cases hfind
    exact hnew
  · exact hold hfind

theorem Tracked.initializeNode (h : Tracked s) (nodeid : NodeId) (addrName : String) :
    Tracked (initializeNode nodeid addrName s) := by
  have hqueued : ∀ {n e}, (Hivemind.initializeNode nodeid addrName s).Queued n e ↔
      s.Queued n e := by
    intro n e
    rw [queued_put rfl]
    by_cases hn : n = nodeid
    · subst hn
      cases hfind : s.mapNodeState.find n with
      | none => simp [DownloadState.Queued, hfind]
      | some state => simp [DownloadState.Queued, hfind]
    · simp [hn]
  refine ⟨?_, ?_, ?_, ?_, ?_⟩
  · intro hash n address
    simp only [hqueued]
    exact h.inFlight
  · intro n n' e e' hq hq'
    exact h.addresses (hqueued.mp hq) (hqueued.mp hq')
  · intro n e hq
    exact h.fresh (hqueued.mp hq)
  · intro n state
    refine node_put (P := fun state => (state.vBlocksInFlight.map Prod.fst).Nodup) h.nodup ?_
    cases hfind : s.mapNodeState.find nodeid with
    | none => simp
    | some state => simpa using h.nodup hfind
  · intro n state
    refine node_put (P := fun state => state.nBlocksInFlight = (state.vBlocksInFlight.length : Nat))
      h.count ?_
    cases hfind : s.mapNodeState.find nodeid with
    | none => simp
    | some state => simpa using h.count hfind

theorem Tracked.finalizeNode (h : Tracked s) {nodeid : NodeId} {s' : DownloadState}
    (hstep : finalizeNode nodeid s = some s') : Tracked s' := by
  obtain ⟨state, hstate, rfl⟩ := Option.map_eq_some_iff.mp hstep
  have hnode : ∀ {n st}, (s.mapNodeState.erase nodeid).find n = some st ↔
      n ≠ nodeid ∧ s.mapNodeState.find n = some st := by
    intro n st
    rw [OrdMap.find_erase]
    by_cases hn : n = nodeid
    · simp [hn]
    · simp [hn]
  refine ⟨?_, ?_, ?_, ?_, ?_⟩
  · intro hash n address
    simp only [DownloadState.Queued, hnode, OrdMap.find_eraseAll]
    by_cases hmem : hash ∈ state.vBlocksInFlight.map fun e => e.2.hash
    · -- the hash was in flight from the node that leaves, and from no other
      rw [if_pos hmem]
      obtain ⟨e, he, rfl⟩ := List.mem_map.mp hmem
      refine ⟨by simp, ?_⟩
      rintro ⟨q, ⟨st, ⟨hn, hst⟩, hq⟩, hhash⟩
      exact absurd (h.one ⟨st, hst, hq⟩ ⟨state, hstate, he⟩ hhash).1 hn
    · rw [if_neg hmem, h.inFlight]
      refine exists_congr fun q => ?_
      simp only [DownloadState.Queued]
      refine ⟨?_, ?_⟩
      · rintro ⟨⟨st, hst, hq⟩, rfl⟩
        refine ⟨⟨st, ⟨?_, hst⟩, hq⟩, rfl⟩
        rintro rfl
        cases hstate.symm.trans hst
        exact hmem (List.mem_map.mpr ⟨_, hq, rfl⟩)
      · rintro ⟨⟨st, ⟨-, hst⟩, hq⟩, hhash⟩
        exact ⟨⟨st, hst, hq⟩, hhash⟩
  · rintro n n' e e' ⟨st, hst, he⟩ ⟨st', hst', he'⟩
    exact h.addresses ⟨st, (hnode.mp hst).2, he⟩ ⟨st', (hnode.mp hst').2, he'⟩
  · rintro n e ⟨st, hst, he⟩
    exact h.fresh ⟨st, (hnode.mp hst).2, he⟩
  · intro n st hst
    exact h.nodup (hnode.mp hst).2
  · intro n st hst
    exact h.count (hnode.mp hst).2

/-- What `MarkBlockAsReceived` does: nothing, or it takes the entry off. -/
theorem markBlockAsReceived_cases (h : Tracked s) {hash : Uint256} {s' : DownloadState}
    (hstep : markBlockAsReceived hash s = some s') :
    (s.mapBlocksInFlight.find hash = none ∧ s' = s) ∨
    ∃ nodeid address state entry, s.mapNodeState.find nodeid = some state ∧
      (address, entry) ∈ state.vBlocksInFlight ∧ entry.hash = hash ∧
      s' = { s with
        nQueuedValidatedHeaders := s.nQueuedValidatedHeaders - boolInt entry.fValidatedHeaders
        mapNodeState := s.mapNodeState.put nodeid { state with
          vBlocksInFlight := state.vBlocksInFlight.filter fun e => e.1 != address
          nBlocksInFlight := state.nBlocksInFlight - 1
          nStallingSince := 0 }
        mapBlocksInFlight := s.mapBlocksInFlight.erase hash } := by
  unfold markBlockAsReceived at hstep
  cases hfind : s.mapBlocksInFlight.find hash with
  | none =>
    rw [hfind] at hstep
    exact Or.inl ⟨rfl, (Option.some.inj hstep).symm⟩
  | some p =>
    obtain ⟨nodeid, address⟩ := p
    obtain ⟨entry, ⟨state, hstate, hentry⟩, hhash⟩ := h.inFlight.mp hfind
    have hlist : (state.vBlocksInFlight.find? fun e => e.1 == address) = some (address, entry) := by
      refine List.find?_eq_some_iff_append.mpr ⟨by simp, ?_⟩
      obtain ⟨l₁, l₂, heq⟩ := List.append_of_mem hentry
      refine ⟨l₁, l₂, heq, fun e he => ?_⟩
      have hnodup := h.nodup hstate
      rw [heq, List.map_append, List.map_cons, List.nodup_append] at hnodup
      have hne : e.1 ≠ address :=
        hnodup.2.2 e.1 (List.mem_map.mpr ⟨e, he, rfl⟩) address List.mem_cons_self
      simpa using hne
    rw [hfind] at hstep
    simp only [hstate, hlist, Option.bind_eq_bind, Option.bind_some, Option.some.injEq] at hstep
    exact Or.inr ⟨nodeid, address, state, entry, hstate, hentry, hhash, hstep.symm⟩

/-- A block that has been received is in flight from no node. -/
theorem find_markBlockAsReceived (h : Tracked s) {hash : Uint256} {s' : DownloadState}
    (hstep : markBlockAsReceived hash s = some s') : s'.mapBlocksInFlight.find hash = none := by
  rcases markBlockAsReceived_cases h hstep with ⟨hnone, rfl⟩ | ⟨_, _, _, _, _, _, _, rfl⟩
  · exact hnone
  · simp [OrdMap.find_erase]

theorem Tracked.markBlockAsReceived (h : Tracked s) {hash : Uint256} {s' : DownloadState}
    (hstep : markBlockAsReceived hash s = some s') : Tracked s' := by
  rcases markBlockAsReceived_cases h hstep with
    ⟨-, rfl⟩ | ⟨nodeid, address, state, entry, hstate, hentry, hhash, rfl⟩
  · exact h
  have hself : s.Queued nodeid (address, entry) := ⟨state, hstate, hentry⟩
  -- the entries that are left are those of other hashes
  have hqueued : ∀ {n e}, DownloadState.Queued { s with
        nQueuedValidatedHeaders := s.nQueuedValidatedHeaders - boolInt entry.fValidatedHeaders
        mapNodeState := s.mapNodeState.put nodeid { state with
          vBlocksInFlight := state.vBlocksInFlight.filter fun e => e.1 != address
          nBlocksInFlight := state.nBlocksInFlight - 1
          nStallingSince := 0 }
        mapBlocksInFlight := s.mapBlocksInFlight.erase hash } n e ↔
      s.Queued n e ∧ e.2.hash ≠ hash := by
    intro n e
    rw [queued_put rfl]
    have haddress : ∀ {e}, s.Queued n e → (e.1 = address ↔ e.2.hash = hash) := by
      intro e hq
      refine ⟨fun heq => ?_, fun heq => ?_⟩
      · rw [(h.addresses hq hself heq).2]
        exact hhash
      · rw [(h.one hq hself (heq.trans hhash.symm)).2]
    by_cases hn : n = nodeid
    · subst hn
      simp only [List.mem_filter, bne_iff_ne, ne_eq, true_and, not_true_eq_false, false_and, or_false]
      rw [← queued_of_find hstate]
      exact and_congr_right fun hq => not_congr (haddress hq)
    · simp only [hn, false_and, ne_eq, not_false_eq_true, true_and, false_or]
      refine ⟨fun hq => ⟨hq, fun heq => ?_⟩, And.left⟩
      exact hn (h.one hq hself (heq.trans hhash.symm)).1
  refine ⟨?_, ?_, ?_, ?_, ?_⟩
  · intro hash' n address'
    simp only [hqueued, OrdMap.find_erase]
    by_cases heq : hash' = hash
    · rw [if_pos heq]
      refine ⟨by simp, ?_⟩
      rintro ⟨e, ⟨-, hne⟩, he⟩
      exact absurd (he.trans heq) hne
    · rw [if_neg heq, h.inFlight]
      refine exists_congr fun e => ?_
      refine ⟨?_, ?_⟩
      · rintro ⟨hq, rfl⟩
        exact ⟨⟨hq, heq⟩, rfl⟩
      · rintro ⟨⟨hq, -⟩, he⟩
        exact ⟨hq, he⟩
  · intro n n' e e' hq hq'
    exact h.addresses (hqueued.mp hq).1 (hqueued.mp hq').1
  · intro n e hq
    exact h.fresh (hqueued.mp hq).1
  · intro n st
    refine node_put (P := fun st => (st.vBlocksInFlight.map Prod.fst).Nodup) h.nodup ?_
    exact (h.nodup hstate).sublist (List.filter_sublist.map _)
  · intro n st
    refine node_put (P := fun st => st.nBlocksInFlight = (st.vBlocksInFlight.length : Nat))
      h.count ?_
    -- one element has the address
    have hone : (state.vBlocksInFlight.filter fun e => e.1 != address).length + 1 =
        state.vBlocksInFlight.length := by
      obtain ⟨l₁, l₂, heq⟩ := List.append_of_mem hentry
      have hnodup := h.nodup hstate
      rw [heq, List.map_append, List.map_cons, List.nodup_append, List.nodup_cons] at hnodup
      have hkeep : ∀ l : List (Nat × QueuedBlock), (∀ e ∈ l, e.1 ≠ address) →
          l.filter (fun e => e.1 != address) = l := by
        intro l hl
        exact List.filter_eq_self.mpr fun e he => by simpa using hl e he
      rw [heq, List.filter_append, List.filter_cons_of_neg (by simp), hkeep l₁, hkeep l₂]
      · simp only [List.length_append, List.length_cons]
        omega
      · intro e he heq'
        exact hnodup.2.1.1 (List.mem_map.mpr ⟨e, he, heq'⟩)
      · intro e he heq'
        exact hnodup.2.2 e.1 (List.mem_map.mpr ⟨e, he, rfl⟩) address List.mem_cons_self heq'
    have := h.count hstate
    simp only
    omega

theorem Tracked.queueBlock (h : Tracked s) {nodeid : NodeId} {hash : Uint256}
    (pindex : Option Uint256) (now : Int) {state : CNodeState}
    (hstate : s.mapNodeState.find nodeid = some state)
    (hnone : s.mapBlocksInFlight.find hash = none) :
    Tracked (queueBlock nodeid hash pindex now s state) := by
  have hfree : ∀ {n e}, s.Queued n e → e.2.hash ≠ hash := by
    intro n e hq heq
    have hfind := h.find hq
    rw [heq, hnone] at hfind
    cases hfind
  have hqueued : ∀ {n e}, (Hivemind.queueBlock nodeid hash pindex now s state).Queued n e ↔
      s.Queued n e ∨ (n = nodeid ∧ e = (s.nextAddress,
        ⟨hash, pindex, now, s.nQueuedValidatedHeaders, pindex.isSome⟩)) := by
    intro n e
    rw [queued_put rfl]
    by_cases hn : n = nodeid
    · subst hn
      simp [queued_of_find hstate]
    · simp [hn]
  refine ⟨?_, ?_, ?_, ?_, ?_⟩
  · intro hash' n address
    simp only [hqueued]
    show (s.mapBlocksInFlight.put hash (nodeid, s.nextAddress)).find hash' = some (n, address) ↔ _
    rw [OrdMap.find_put]
    by_cases heq : hash' = hash
    · rw [if_pos heq, heq]
      refine ⟨?_, ?_⟩
      · intro hpair
        cases hpair
        exact ⟨_, Or.inr ⟨rfl, rfl⟩, rfl⟩
      · rintro ⟨e, hq | ⟨rfl, hpair⟩, hhash⟩
        · exact absurd hhash (hfree hq)
        · rw [(Prod.mk.inj hpair).1]
    · rw [if_neg heq, h.inFlight]
      refine exists_congr fun e => ?_
      refine ⟨fun hq => ⟨Or.inl hq.1, hq.2⟩, ?_⟩
      rintro ⟨hq | ⟨-, hpair⟩, hhash⟩
      · exact ⟨hq, hhash⟩
      · rw [(Prod.mk.inj hpair).2] at hhash
        exact absurd hhash.symm heq
  · intro n n' e e' hq hq' haddr
    rcases hqueued.mp hq with hold | ⟨hn, he⟩
    · rcases hqueued.mp hq' with hold' | ⟨hn', he'⟩
      · exact h.addresses hold hold' haddr
      · have hlt := h.fresh hold
        rw [haddr, he'] at hlt
        exact absurd hlt (Nat.lt_irrefl _)
    · rcases hqueued.mp hq' with hold' | ⟨hn', he'⟩
      · have hlt := h.fresh hold'
        rw [← haddr, he] at hlt
        exact absurd hlt (Nat.lt_irrefl _)
      · exact ⟨hn.trans hn'.symm, he.trans he'.symm⟩
  · intro n e hq
    show e.1 < s.nextAddress + 1
    rcases hqueued.mp hq with hold | ⟨-, rfl⟩
    · exact Nat.lt_succ_of_lt (h.fresh hold)
    · exact Nat.lt_succ_self _
  · intro n st
    refine node_put (P := fun st => (st.vBlocksInFlight.map Prod.fst).Nodup) h.nodup ?_
    rw [List.map_append, List.nodup_append]
    refine ⟨h.nodup hstate, by simp, ?_⟩
    intro a ha b hb heq
    obtain ⟨e, he, rfl⟩ := List.mem_map.mp ha
    have hlt := h.fresh ⟨state, hstate, he⟩
    simp at hb
    omega
  · intro n st
    refine node_put (P := fun st => st.nBlocksInFlight = (st.vBlocksInFlight.length : Nat))
      h.count ?_
    have := h.count hstate
    simp [this]

/-- `MarkBlockAsInFlight` in two moves. -/
theorem markBlockAsInFlight_eq {nodeid : NodeId} {hash : Uint256} {pindex : Option Uint256}
    {now : Int} {s' : DownloadState}
    (hstep : markBlockAsInFlight nodeid hash pindex now s = some s') :
    ∃ s₁ state, markBlockAsReceived hash s = some s₁ ∧ s₁.mapNodeState.find nodeid = some state ∧
      s' = queueBlock nodeid hash pindex now s₁ state := by
  unfold markBlockAsInFlight at hstep
  split_ifs at hstep
  simp only [Option.bind_eq_bind, Option.bind_eq_some_iff, Option.some.injEq] at hstep
  obtain ⟨s₁, hreceived, state, hstate, rfl⟩ := hstep
  exact ⟨s₁, state, hreceived, hstate, rfl⟩

/-- **Every step keeps the map and the lists together.** -/
theorem Tracked.apply (h : Tracked s) {step : DownloadStep} {s' : DownloadState}
    (hstep : step.apply s = some s') : Tracked s' := by
  cases step with
  | initializeNode nodeid addrName =>
    cases hstep
    exact h.initializeNode nodeid addrName
  | finalizeNode nodeid => exact h.finalizeNode hstep
  | markInFlight nodeid hash pindex now =>
    obtain ⟨s₁, state, hreceived, hstate, rfl⟩ := markBlockAsInFlight_eq hstep
    exact (h.markBlockAsReceived hreceived).queueBlock pindex now hstate
      (find_markBlockAsReceived h hreceived)
  | markReceived hash => exact h.markBlockAsReceived hstep

end Steps

/-! ## The global counter -/

/-- The entries with validated headers that a step leaves in no list and in the counter. -/
def DownloadStep.abandoned (step : DownloadStep) (s : DownloadState) : Int :=
  match step with
  | .finalizeNode nodeid => ((s.mapNodeState.find nodeid).map CNodeState.validated).getD 0
  | _ => 0

/-- The node that leaves has no block with validated headers in flight. -/
def DownloadStep.Clean (step : DownloadStep) (s : DownloadState) : Prop :=
  match step with
  | .finalizeNode nodeid => ∀ state, s.mapNodeState.find nodeid = some state →
    ∀ e ∈ state.vBlocksInFlight, e.2.fValidatedHeaders = false
  | _ => True

/-- Every node that leaves during the run does so without such a block. -/
def FinalizesClean : List DownloadStep → DownloadState → Prop
  | [], _ => True
  | step :: steps, s => step.Clean s ∧ ∀ s', step.apply s = some s' → FinalizesClean steps s'

section Counter

variable {s : DownloadState}

/-- The sum when one node is written. -/
theorem validated_put {s' : DownloadState} {nodeid : NodeId} {state state' : CNodeState}
    (hstate : s.mapNodeState.find nodeid = some state)
    (hput : s'.mapNodeState = s.mapNodeState.put nodeid state') :
    s'.validated = s.validated - state.validated + state'.validated := by
  have hbefore := OrdMap.total_erase (fun _ st => CNodeState.validated st) hstate
  rw [DownloadState.validated, DownloadState.validated, hput, OrdMap.total_put, hbefore]
  omega

theorem validated_initializeNode (nodeid : NodeId) (addrName : String) :
    (initializeNode nodeid addrName s).validated = s.validated := by
  cases hfind : s.mapNodeState.find nodeid with
  | none =>
    rw [DownloadState.validated, initializeNode, hfind, OrdMap.total_put,
      OrdMap.erase_of_find_none hfind]
    simp [CNodeState.validated, DownloadState.validated]
  | some state =>
    rw [validated_put hfind rfl, hfind]
    simp [CNodeState.validated]

theorem validated_markBlockAsReceived (h : Tracked s) {hash : Uint256} {s' : DownloadState}
    (hstep : markBlockAsReceived hash s = some s') :
    s'.nQueuedValidatedHeaders - s'.validated = s.nQueuedValidatedHeaders - s.validated := by
  rcases markBlockAsReceived_cases h hstep with
    ⟨-, rfl⟩ | ⟨nodeid, address, state, entry, hstate, hentry, -, rfl⟩
  · rfl
  -- the list loses the entry
  have hcount : CNodeState.validated { state with
        vBlocksInFlight := state.vBlocksInFlight.filter fun e => e.1 != address
        nBlocksInFlight := state.nBlocksInFlight - 1
        nStallingSince := 0 } + boolInt entry.fValidatedHeaders = state.validated := by
    obtain ⟨l₁, l₂, heq⟩ := List.append_of_mem hentry
    have hnodup := h.nodup hstate
    rw [heq, List.map_append, List.map_cons, List.nodup_append, List.nodup_cons] at hnodup
    have hkeep : ∀ l : List (Nat × QueuedBlock), (∀ e ∈ l, e.1 ≠ address) →
        l.filter (fun e => e.1 != address) = l := by
      intro l hl
      exact List.filter_eq_self.mpr fun e he => by simpa using hl e he
    simp only [CNodeState.validated, heq]
    rw [List.filter_append, List.filter_cons_of_neg (by simp), hkeep l₁, hkeep l₂]
    · cases hv : entry.fValidatedHeaders with
      | true =>
        simp [hv, boolInt]
        omega
      | false => simp [hv, boolInt]
    · intro e he heq'
      exact hnodup.2.1.1 (List.mem_map.mpr ⟨e, he, heq'⟩)
    · intro e he heq'
      exact hnodup.2.2 e.1 (List.mem_map.mpr ⟨e, he, rfl⟩) address List.mem_cons_self heq'
  rw [validated_put hstate rfl]
  show s.nQueuedValidatedHeaders - boolInt entry.fValidatedHeaders - _ = _
  omega

theorem validated_queueBlock {nodeid : NodeId} (hash : Uint256) (pindex : Option Uint256)
    (now : Int) {state : CNodeState} (hstate : s.mapNodeState.find nodeid = some state) :
    (queueBlock nodeid hash pindex now s state).nQueuedValidatedHeaders -
        (queueBlock nodeid hash pindex now s state).validated =
      s.nQueuedValidatedHeaders - s.validated := by
  rw [validated_put hstate rfl]
  show s.nQueuedValidatedHeaders + boolInt pindex.isSome - _ = _
  cases hp : pindex.isSome with
  | true =>
    simp [CNodeState.validated, boolInt]
    omega
  | false => simp [CNodeState.validated, boolInt]

/-- **What a step does to the counter**: it is off by the entries of the nodes that left. -/
theorem validated_apply (h : Tracked s) {step : DownloadStep} {s' : DownloadState}
    (hstep : step.apply s = some s') :
    s'.nQueuedValidatedHeaders - s'.validated =
      s.nQueuedValidatedHeaders - s.validated + step.abandoned s := by
  cases step with
  | initializeNode nodeid addrName =>
    cases hstep
    rw [validated_initializeNode]
    show s.nQueuedValidatedHeaders - s.validated = _ + 0
    omega
  | finalizeNode nodeid =>
    obtain ⟨state, hstate, rfl⟩ := Option.map_eq_some_iff.mp hstep
    have htotal := OrdMap.total_erase (fun _ st => CNodeState.validated st) hstate
    simp only [DownloadStep.abandoned, hstate, Option.map_some, Option.getD_some,
      DownloadState.validated]
    omega
  | markInFlight nodeid hash pindex now =>
    obtain ⟨s₁, state, hreceived, hstate, rfl⟩ := markBlockAsInFlight_eq hstep
    rw [validated_queueBlock hash pindex now hstate, validated_markBlockAsReceived h hreceived]
    show _ = _ + 0
    omega
  | markReceived hash =>
    rw [validated_markBlockAsReceived h hstep]
    show _ = _ + 0
    omega

theorem abandoned_nonneg (step : DownloadStep) (s : DownloadState) : 0 ≤ step.abandoned s := by
  unfold DownloadStep.abandoned
  split
  · cases s.mapNodeState.find _ with
    | none => simp
    | some state => simp [CNodeState.validated]
  · exact le_refl 0

theorem abandoned_eq_zero_iff {step : DownloadStep} : step.abandoned s = 0 ↔ step.Clean s := by
  cases step with
  | finalizeNode nodeid =>
    simp only [DownloadStep.abandoned, DownloadStep.Clean]
    cases s.mapNodeState.find nodeid with
    | none => simp
    | some state => simp [CNodeState.validated, List.countP_eq_zero]
  | initializeNode nodeid addrName => simp [DownloadStep.abandoned, DownloadStep.Clean]
  | markInFlight nodeid hash pindex now => simp [DownloadStep.abandoned, DownloadStep.Clean]
  | markReceived hash => simp [DownloadStep.abandoned, DownloadStep.Clean]

theorem mem_downloadStates_self (steps : List DownloadStep) (s : DownloadState) :
    s ∈ downloadStates steps s := by
  cases steps <;> simp [downloadStates]

/-- From a state that is booked, the run stays booked exactly as long as nodes leave
clean. -/
theorem booked_states_iff (steps : List DownloadStep) (h : Tracked s)
    (hvalid : s.nQueuedValidatedHeaders = s.validated) :
    (∀ s' ∈ downloadStates steps s, Booked s') ↔ FinalizesClean steps s := by
  induction steps generalizing s with
  | nil =>
    simp only [downloadStates, List.mem_singleton, forall_eq, FinalizesClean, iff_true]
    exact h.booked hvalid
  | cons step steps ih =>
    rw [FinalizesClean, downloadStates, List.forall_mem_cons]
    cases hstep : step.apply s with
    | none =>
      have hclean : step.Clean s := by
        cases step with
        | finalizeNode nodeid =>
          intro state hstate
          rw [DownloadStep.apply, finalizeNode, hstate] at hstep
          cases hstep
        | initializeNode nodeid addrName => trivial
        | markInFlight nodeid hash pindex now => trivial
        | markReceived hash => trivial
      simp [hclean, h.booked hvalid]
    | some s₁ =>
      have hdiff := validated_apply h hstep
      have hnonneg := abandoned_nonneg step s
      have h₁ := h.apply hstep
      by_cases hclean : step.Clean s
      · have hzero := abandoned_eq_zero_iff.mpr hclean
        have hrest := ih h₁ (by omega)
        simp [hclean, h.booked hvalid, hrest]
      · -- the counter keeps the entries of the node that has left
        have hne : step.abandoned s ≠ 0 := fun hz => hclean (abandoned_eq_zero_iff.mp hz)
        have hbad : ¬ Booked s₁ := by
          intro hbooked
          have := hbooked.validated
          omega
        simp only [hclean, false_and, iff_false]
        rintro ⟨-, hall⟩
        exact hbad (hall s₁ (mem_downloadStates_self steps s₁))

end Counter

/-- **When the bookkeeping is right**: in a run from the start every state is booked exactly
when every node that leaves has no block with validated headers in flight. -/
theorem booked_iff_finalizesClean (steps : List DownloadStep) :
    (∀ s ∈ downloadStates steps {}, Booked s) ↔ FinalizesClean steps {} :=
  booked_states_iff steps Tracked.empty rfl

/-- A node leaves with a block in flight that has a validated header. -/
def abandoningRun : List DownloadStep :=
  [.initializeNode 0 "", .markInFlight 0 Blob.null (some Blob.null) 0, .finalizeNode 0]

/-- After it no block is in flight, and the counter says one. -/
theorem abandoningRun_not_booked :
    ∃ s ∈ downloadStates abandoningRun {}, s.mapNodeState.entries = [] ∧
      s.mapBlocksInFlight.entries = [] ∧ s.nQueuedValidatedHeaders = 1 ∧ ¬ Booked s := by
  have hne : downloadStates abandoningRun {} ≠ [] := List.cons_ne_nil _ _
  refine ⟨(downloadStates abandoningRun {}).getLast hne, List.getLast_mem hne, rfl, rfl, rfl, ?_⟩
  intro h
  have hvalid : (1 : Int) = 0 := h.validated
  exact absurd hvalid (by decide)

end Hivemind
