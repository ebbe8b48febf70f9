import Hivemind.Lib.SetIndex
import Hivemind.Net.InFlight
import Hivemind.Primitives.Transaction

/-!
# Orphan transactions

A transaction whose inputs are not there yet is kept, with the peer that sent it, and an index
says which of those that are kept spend from a given transaction.

The peer may have left, and there may be too many: then orphans are erased, those of a peer by a
loop over all of them, and any others by a hash that is drawn, at which the next one in order is
taken.  An orphan that spends twice from one transaction is entered in its set once; taking it
out goes over its inputs all the same.  The index is an instance of the library's index of sets,
with the hashes that an orphan spends from as its keys.

* `addOrphanTx_inv`, `eraseOrphanTx_inv`: the index agrees with the transactions.
* `eraseOrphansFor_spec`: the orphans from the peer are erased, and no others.
* `limitOrphanTxSize_spec`: no more are left than the limit says.
* `orphanMaps_of_run`: **all of it after any operations.**
-/

namespace Hivemind

open Codecs Ordered SetIndex

/-- `COrphanTx`. -/
structure COrphanTx where
  tx : CTransaction
  fromPeer : NodeId

/-- `mapOrphanTransactions` and `mapOrphanTransactionsByPrev`. -/
structure OrphanMaps where
  mapOrphanTransactions : OrdMap Uint256 COrphanTx := OrdMap.empty
  mapOrphanTransactionsByPrev : OrdMap Uint256 (Finset Uint256) := OrdMap.empty

/-- `prevout.hash` of each input. -/
def CTransaction.prevHashes (tx : CTransaction) : List Uint256 :=
  tx.vin.map fun txin => txin.prevout.hash

namespace OrphanMaps

section maps

variable (hash : Bytes → Uint256) (s : OrphanMaps)

/-- `AddOrphanTx`. -/
def addOrphanTx (tx : CTransaction) (peer : NodeId) : OrphanMaps × Bool :=
  let id := tx.getHash hash
  if (s.mapOrphanTransactions.find id).isSome then (s, false)
  else if (CTransaction.codec.ser tx).length > 5000 then (s, false)
  else
    ({ mapOrphanTransactions := s.mapOrphanTransactions.put id ⟨tx, peer⟩
       mapOrphanTransactionsByPrev :=
        insertAll id tx.prevHashes s.mapOrphanTransactionsByPrev }, true)

/-- `EraseOrphanTx`. -/
def eraseOrphanTx (id : Uint256) : OrphanMaps :=
  (s.mapOrphanTransactions.find id).elim s fun orphan =>
    { mapOrphanTransactions := s.mapOrphanTransactions.erase id
      mapOrphanTransactionsByPrev :=
        eraseAll id orphan.tx.prevHashes s.mapOrphanTransactionsByPrev }

/-- A turn of `EraseOrphansFor`. -/
def eraseTurn (peer : NodeId) (t : OrphanMaps × Nat) (e : Uint256 × COrphanTx) :
    OrphanMaps × Nat :=
  if e.2.fromPeer = peer then (t.1.eraseOrphanTx (e.2.tx.getHash hash), t.2 + 1) else t

/-- `EraseOrphansFor`, with `nErased`.  The iterator has moved on when an entry is erased, so
the entries that were there at the start are visited. -/
def eraseOrphansFor (peer : NodeId) : OrphanMaps × Nat :=
  s.mapOrphanTransactions.entries.foldl (eraseTurn hash peer) (s, 0)

/-- The entry at `lower_bound`, or else at `begin`. -/
def evicted (randomhash : Uint256) : Option (Uint256 × COrphanTx) :=
  (s.mapOrphanTransactions.seek randomhash).head?.or s.mapOrphanTransactions.entries.head?

end maps

variable {hash : Bytes → Uint256} {s : OrphanMaps} {id : Uint256} {orphan : COrphanTx}

theorem eraseOrphanTx_of_find (h : s.mapOrphanTransactions.find id = some orphan) :
    s.eraseOrphanTx id =
      { mapOrphanTransactions := s.mapOrphanTransactions.erase id
        mapOrphanTransactionsByPrev :=
          eraseAll id orphan.tx.prevHashes s.mapOrphanTransactionsByPrev } := by
  simp [eraseOrphanTx, h]

theorem eraseOrphanTx_of_none (h : s.mapOrphanTransactions.find id = none) :
    s.eraseOrphanTx id = s := by
  simp [eraseOrphanTx, h]

theorem find_eraseOrphanTx (s : OrphanMaps) (id id' : Uint256) :
    (s.eraseOrphanTx id).mapOrphanTransactions.find id' =
      if id' = id then none else s.mapOrphanTransactions.find id' := by
  cases h : s.mapOrphanTransactions.find id with
  | none =>
      rw [eraseOrphanTx_of_none h]
      split_ifs with hid
      · rw [hid, h]
      · rfl
  | some orphan =>
      rw [eraseOrphanTx_of_find h, OrdMap.find_erase]
      split_ifs <;> rfl

theorem find_of_evicted {randomhash : Uint256} {e : Uint256 × COrphanTx}
    (h : s.evicted randomhash = some e) : s.mapOrphanTransactions.find e.1 = some e.2 := by
  refine OrdMap.find_eq_some.mpr ?_
  rcases Option.or_eq_some_iff.mp h with hseek | ⟨-, hbegin⟩
  · exact OrdMap.mem_of_head_seek hseek
  · exact List.mem_of_mem_head? hbegin

theorem length_eraseOrphanTx_lt (h : s.mapOrphanTransactions.find id = some orphan) :
    (s.eraseOrphanTx id).mapOrphanTransactions.entries.length <
      s.mapOrphanTransactions.entries.length := by
  rw [eraseOrphanTx_of_find h]
  exact OrdMap.length_erase_lt h

/-- `LimitOrphanTxSize`, with `nEvicted`; `rand` has the hashes that are drawn. -/
def limitOrphanTxSize (nMaxOrphans : Nat) (rand : Nat → Uint256) (s : OrphanMaps)
    (nEvicted : Nat) : OrphanMaps × Nat :=
  if nMaxOrphans < s.mapOrphanTransactions.entries.length then
    match h : s.evicted (rand nEvicted) with
    | none => (s, nEvicted)
    | some e => limitOrphanTxSize nMaxOrphans rand (s.eraseOrphanTx e.1) (nEvicted + 1)
  else (s, nEvicted)
termination_by s.mapOrphanTransactions.entries.length
decreasing_by exact length_eraseOrphanTx_lt (find_of_evicted h)

/-! ## The invariant -/

/-- The orphan of hash `id` spends from the transaction `prev`. -/
def Spends (s : OrphanMaps) (id prev : Uint256) : Prop :=
  ∃ orphan, s.mapOrphanTransactions.find id = some orphan ∧ prev ∈ orphan.tx.prevHashes

/-- Each orphan is under its hash, and under the hashes that it spends from in the index. -/
structure Inv (hash : Bytes → Uint256) (s : OrphanMaps) : Prop where
  keyed : ∀ id orphan, s.mapOrphanTransactions.find id = some orphan → orphan.tx.getHash hash = id
  index : IndexOf s.Spends s.mapOrphanTransactionsByPrev

theorem inv_empty (hash : Bytes → Uint256) : Inv hash {} where
  keyed := by simp
  index := ⟨fun prev id => by simp [members, Spends], noEmpty_empty⟩

theorem addOrphanTx_inv (h : Inv hash s) (tx : CTransaction) (peer : NodeId) :
    Inv hash (s.addOrphanTx hash tx peer).1 := by
  rw [addOrphanTx]
  split_ifs with hknown hlarge
  · exact h
  · exact h
  · have hnone : s.mapOrphanTransactions.find (tx.getHash hash) = none := by
      simpa using hknown
    constructor
    case keyed =>
      intro id orphan hfind
      simp only [OrdMap.find_put] at hfind
      split_ifs at hfind with hid
      · cases hfind
        exact hid.symm
      · exact h.keyed id orphan hfind
    case index =>
      refine h.index.add fun id prev => ?_
      simp only [Spends, OrdMap.find_put]
      split_ifs with hid
      · simp [hid, hnone]
      · simp [hid]

theorem eraseOrphanTx_inv (h : Inv hash s) (id : Uint256) : Inv hash (s.eraseOrphanTx id) := by
  cases hfind : s.mapOrphanTransactions.find id with
  | none => rwa [eraseOrphanTx_of_none hfind]
  | some orphan =>
      constructor
      case keyed =>
        intro id' orphan' hfind'
        rw [find_eraseOrphanTx] at hfind'
        split_ifs at hfind'
        exact h.keyed id' orphan' hfind'
      case index =>
        have hall : ∀ prev, s.Spends id prev → prev ∈ orphan.tx.prevHashes := by
          rintro prev ⟨orphan', hfind', hprev⟩
          rw [hfind] at hfind'
          cases hfind'
          exact hprev
        have hkeys : ∀ id' prev, (s.eraseOrphanTx id).Spends id' prev ↔
            id' ≠ id ∧ s.Spends id' prev := by
          intro id' prev
          simp only [Spends, find_eraseOrphanTx]
          split_ifs with hid <;> simp [hid]
        have hindex := h.index.drop hall hkeys
        rw [eraseOrphanTx_of_find hfind] at hindex ⊢
        exact hindex

/-! ## The loops -/

/-- The entries that have been visited are gone if they are from the peer. -/
theorem foldl_eraseTurn (h : Inv hash s) (peer : NodeId) (es : List (Uint256 × COrphanTx))
    (n : Nat) :
    Inv hash (es.foldl (eraseTurn hash peer) (s, n)).1 ∧
      ∀ id orphan, (es.foldl (eraseTurn hash peer) (s, n)).1.mapOrphanTransactions.find id =
          some orphan ↔ s.mapOrphanTransactions.find id = some orphan ∧
        ∀ e ∈ es, e.2.fromPeer = peer → e.2.tx.getHash hash ≠ id := by
  induction es generalizing s n with
  | nil => simp [h]
  | cons e es ih =>
      rw [List.foldl_cons, eraseTurn]
      split_ifs with hpeer
      · obtain ⟨hinv, hfind⟩ := ih (eraseOrphanTx_inv h (e.2.tx.getHash hash)) (n + 1)
        refine ⟨hinv, fun id orphan => ?_⟩
        rw [hfind, find_eraseOrphanTx, List.forall_mem_cons]
        split_ifs with hid
        · simp [hpeer, hid]
        · have hne : e.2.tx.getHash hash ≠ id := fun heq => hid heq.symm
          simp [hne]
      · obtain ⟨hinv, hfind⟩ := ih h n
        refine ⟨hinv, fun id orphan => ?_⟩
        rw [hfind, List.forall_mem_cons]
        simp [hpeer]

/-- **`EraseOrphansFor` erases the orphans from the peer**, and no others. -/
theorem eraseOrphansFor_spec (h : Inv hash s) (peer : NodeId) :
    Inv hash (s.eraseOrphansFor hash peer).1 ∧
      ∀ id orphan, (s.eraseOrphansFor hash peer).1.mapOrphanTransactions.find id = some orphan ↔
        s.mapOrphanTransactions.find id = some orphan ∧ orphan.fromPeer ≠ peer := by
  obtain ⟨hinv, hfind⟩ := foldl_eraseTurn h peer s.mapOrphanTransactions.entries 0
  refine ⟨hinv, fun id orphan => ?_⟩
  rw [eraseOrphansFor, hfind]
  refine and_congr_right fun hkept => ?_
  constructor
  · intro hvisited hpeer
    exact hvisited (id, orphan) (OrdMap.find_eq_some.mp hkept) hpeer (h.keyed id orphan hkept)
  · rintro hpeer ⟨id', orphan'⟩ he hpeer' heq
    have hkept' := OrdMap.find_eq_some.mpr he
    obtain rfl : id' = id := (h.keyed id' orphan' hkept').symm.trans heq
    rw [hkept] at hkept'
    cases hkept'
    exact hpeer hpeer'

theorem evicted_isSome (randomhash : Uint256) (h : 0 < s.mapOrphanTransactions.entries.length) :
    ∃ e, s.evicted randomhash = some e := by
  obtain ⟨e, es, hentries⟩ := List.exists_cons_of_length_pos h
  refine Option.isSome_iff_exists.mp ?_
  simp [evicted, hentries]

/-- **`LimitOrphanTxSize` leaves no more than it is told to.** -/
theorem limitOrphanTxSize_spec (h : Inv hash s) (nMaxOrphans : Nat) (rand : Nat → Uint256)
    (nEvicted : Nat) :
    Inv hash (limitOrphanTxSize nMaxOrphans rand s nEvicted).1 ∧
      (limitOrphanTxSize nMaxOrphans rand s nEvicted).1.mapOrphanTransactions.entries.length ≤
        nMaxOrphans := by
  fun_induction limitOrphanTxSize nMaxOrphans rand s nEvicted with
  | case1 s nEvicted hlarge hnone =>
      obtain ⟨e, he⟩ := evicted_isSome (rand nEvicted) (Nat.zero_lt_of_lt hlarge)
      rw [hnone] at he
      cases he
  | case2 s nEvicted hlarge e he ih => exact ih (eraseOrphanTx_inv h e.1)
  | case3 s nEvicted hsmall => exact ⟨h, Nat.not_lt.mp hsmall⟩

end OrphanMaps

/-! ## Runs -/

inductive OrphanOp where
  | add (tx : CTransaction) (peer : NodeId)
  | erase (hash : Uint256)
  | eraseFor (peer : NodeId)
  | limit (nMaxOrphans : Nat) (rand : Nat → Uint256)

namespace OrphanMaps

def step (hash : Bytes → Uint256) (s : OrphanMaps) : OrphanOp → OrphanMaps
  | .add tx peer => (s.addOrphanTx hash tx peer).1
  | .erase id => s.eraseOrphanTx id
  | .eraseFor peer => (s.eraseOrphansFor hash peer).1
  | .limit nMaxOrphans rand => (limitOrphanTxSize nMaxOrphans rand s 0).1

def run (hash : Bytes → Uint256) (ops : List OrphanOp) : OrphanMaps := ops.foldl (step hash) {}

theorem step_inv {hash : Bytes → Uint256} {s : OrphanMaps} (h : Inv hash s) (op : OrphanOp) :
    Inv hash (step hash s op) := by
  cases op with
  | add tx peer => exact addOrphanTx_inv h tx peer
  | erase id => exact eraseOrphanTx_inv h id
  | eraseFor peer => exact (eraseOrphansFor_spec h peer).1
  | limit nMaxOrphans rand => exact (limitOrphanTxSize_spec h nMaxOrphans rand 0).1

theorem run_inv (hash : Bytes → Uint256) (ops : List OrphanOp) : Inv hash (run hash ops) := by
  induction ops using List.reverseRecOn with
  | nil => exact inv_empty hash
  | append_singleton ops op ih =>
      rw [run, List.foldl_append]
      exact step_inv ih op

/-- **The maps after any operations.** -/
theorem orphanMaps_of_run (hash : Bytes → Uint256) (ops : List OrphanOp) :
    (∀ prev id, id ∈ members prev (run hash ops).mapOrphanTransactionsByPrev ↔
      ∃ orphan, (run hash ops).mapOrphanTransactions.find id = some orphan ∧
        ∃ txin ∈ orphan.tx.vin, txin.prevout.hash = prev) ∧
      (∀ prev ids, (run hash ops).mapOrphanTransactionsByPrev.find prev = some ids → ids ≠ ∅) ∧
      (∀ nMaxOrphans rand,
        (step hash (run hash ops) (.limit nMaxOrphans rand)).mapOrphanTransactions.entries.length ≤
          nMaxOrphans) ∧
      ∀ peer id orphan,
        (step hash (run hash ops) (.eraseFor peer)).mapOrphanTransactions.find id = some orphan →
          orphan.fromPeer ≠ peer := by
  have h := run_inv hash ops
  refine ⟨fun prev id => ?_, h.index.noEmpty, fun nMaxOrphans rand => ?_, ?_⟩
  · rw [h.index.mem_iff]
    simp [Spends, CTransaction.prevHashes]
  · exact (limitOrphanTxSize_spec h nMaxOrphans rand 0).2
  · intro peer id orphan hfind
    exact (((eraseOrphansFor_spec h peer).2 id orphan).mp hfind).2

end OrphanMaps
end Hivemind
