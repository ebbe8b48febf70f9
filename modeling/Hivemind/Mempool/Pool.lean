import Hivemind.Validation.Balance
import Mathlib.Data.Prod.Lex
import Mathlib.Data.Rat.Defs

/-!
# The memory pool

`CTxMemPool` of `txmempool.cpp`: the transactions that wait for a block, the index `mapNextTx` of
the outputs they spend, and the sum of their sizes.  A pointer to a transaction of the pool is
the transaction itself.

All operations are made of two moves: one transaction comes in with the entries of its inputs, or
one goes out with them.  The move in relies on what `AcceptToMemoryPool` has checked, that the
transaction is new and spends nothing that the pool spends; the moves out need nothing.  `remove`
takes descendants along by a queue of ids, and what it takes is a matter of its own; here it
matters only that each turn is a move.

* `PoolOk`: what `CTxMemPool::check` asserts about the two maps and the sum.
* `PoolOk.addUnchecked`, `PoolOk.removeTx`: the two moves.
* `PoolOk.spent_once`: no outpoint is spent twice by the pool.
* `pool_representation`: **what holds after any run** of the operations, also one that ends in a
  failed assertion.
-/

namespace Hivemind

open Codecs Ordered Outcomes

/-- `operator<` of `COutPoint`: by the hash, then by the index. -/
instance instLinearOrderOutPoint : LinearOrder COutPoint :=
  LinearOrder.lift' (fun o => toLex (o.hash, o.n.toNat)) (by
    rintro ⟨h, n⟩ ⟨h', n'⟩ heq
    obtain ⟨hhash, hn⟩ := Prod.mk.inj (toLex_inj.mp heq)
    obtain rfl : h = h' := hhash
    obtain rfl : n = n' := UInt32.toNat_inj.mp hn
    rfl)

/-- `CTxMemPoolEntry`. -/
structure CTxMemPoolEntry where
  tx : CTransaction
  nFee : CAmount := 0
  nTime : Int := 0
  dPriority : ℚ := 0
  nHeight : UInt32 := 0

/-- `GetTxSize`. -/
def CTxMemPoolEntry.getTxSize (entry : CTxMemPoolEntry) : Nat :=
  (CTransaction.codec.ser entry.tx).length

/-- `CInPoint`: a transaction and an index into its inputs. -/
structure CInPoint where
  ptx : CTransaction
  n : Nat
  deriving DecidableEq

/-- The outpoint that the input spends. -/
def CInPoint.outpoint (p : CInPoint) : Option COutPoint := p.ptx.vin[p.n]?.map CTxIn.prevout

/-- `CTxMemPool`. -/
structure CTxMemPool where
  mapTx : OrdMap Uint256 CTxMemPoolEntry := OrdMap.empty
  mapNextTx : OrdMap COutPoint CInPoint := OrdMap.empty
  /-- `mapDeltas`: what has been added to the priority and the fee of a transaction. -/
  mapDeltas : OrdMap Uint256 (ℚ × CAmount) := OrdMap.empty
  totalTxSize : UInt64 := 0
  nTransactionsUpdated : UInt32 := 0
  fSanityCheck : Bool := false

namespace CTxMemPool

variable (hash : Bytes → Uint256)

/-! ## Adding -/

/-- The entries of `mapNextTx` for one transaction. -/
def inPoints (tx : CTransaction) : List (COutPoint × CInPoint) :=
  tx.vin.zipIdx.map fun p => (p.1.prevout, ⟨tx, p.2⟩)

/-- `exists`. -/
def contains (pool : CTxMemPool) (txid : Uint256) : Bool := (pool.mapTx.find txid).isSome

/-- `addUnchecked`. -/
def addUnchecked (pool : CTxMemPool) (txid : Uint256) (entry : CTxMemPoolEntry) : CTxMemPool :=
  { pool with
    mapTx := pool.mapTx.put txid entry
    mapNextTx := pool.mapNextTx.putAll (inPoints entry.tx)
    nTransactionsUpdated := pool.nTransactionsUpdated + 1
    totalTxSize := pool.totalTxSize + UInt64.ofNat entry.getTxSize }

/-- Some input of the transaction is spent by the pool already. -/
def conflicts (pool : CTxMemPool) (tx : CTransaction) : Bool :=
  tx.vin.any fun txin => (pool.mapNextTx.find txin.prevout).isSome

/-! ## Removing -/

/-- Take one transaction out of the pool. -/
def removeTx (pool : CTxMemPool) (txid : Uint256) (entry : CTxMemPoolEntry) : CTxMemPool :=
  { pool with
    mapTx := pool.mapTx.erase txid
    mapNextTx := pool.mapNextTx.eraseAll (entry.tx.vin.map CTxIn.prevout)
    nTransactionsUpdated := pool.nTransactionsUpdated + 1
    totalTxSize := pool.totalTxSize - UInt64.ofNat entry.getTxSize }

/-- The transactions of the pool that spend the outputs of one. -/
def spenders (pool : CTxMemPool) (txid : Uint256) (tx : CTransaction) : List CTransaction :=
  (List.range tx.vout.length).filterMap fun i =>
    (pool.mapNextTx.find ⟨txid, UInt32.ofNat i⟩).map CInPoint.ptx

/-- The loop of `remove` over `txToRemove`: the pool and what has been removed.  Each
turn takes a transaction from the pool or an id from the queue. -/
def removeLoop (fRecursive : Bool) (pool : CTxMemPool) (removed : List CTransaction)
    (txToRemove : List Uint256) : CTxMemPool × List CTransaction :=
  match txToRemove with
  | [] => (pool, removed)
  | txid :: queue => match _h : pool.mapTx.find txid with
    | none => removeLoop fRecursive pool removed queue
    | some entry =>
      let children := if fRecursive then (pool.spenders txid entry.tx).map (·.getHash hash) else []
      removeLoop fRecursive (pool.removeTx txid entry) (removed ++ [entry.tx]) (queue ++ children)
termination_by (pool.mapTx.entries.length, txToRemove.length)
decreasing_by
  · exact Prod.Lex.right _ (Nat.lt_succ_self _)
  · exact Prod.Lex.left _ _ (OrdMap.length_erase_lt _h)

/-- `remove`. -/
def remove (pool : CTxMemPool) (origTx : CTransaction) (fRecursive : Bool) :
    CTxMemPool × List CTransaction :=
  removeLoop hash fRecursive pool [] [origTx.getHash hash]

/-- The loop of `removeConflicts` over the inputs. -/
def removeConflicts (pool : CTxMemPool) (tx : CTransaction) : CTxMemPool × List CTransaction :=
  tx.vin.foldl
    (fun acc txin => match acc.1.mapNextTx.find txin.prevout with
      | none => acc
      | some p =>
        if p.ptx.getHash hash ≠ tx.getHash hash then
          let (pool, removed) := remove hash acc.1 p.ptx true
          (pool, acc.2 ++ removed)
        else acc)
    (pool, [])

/-- `ClearPrioritisation`. -/
def clearPrioritisation (pool : CTxMemPool) (txid : Uint256) : CTxMemPool :=
  { pool with mapDeltas := pool.mapDeltas.erase txid }

/-- `removeForBlock`: the pool and the conflicts.  The fee estimator is left out. -/
def removeForBlock (pool : CTxMemPool) (vtx : List CTransaction) :
    CTxMemPool × List CTransaction :=
  vtx.foldl
    (fun acc tx =>
      let (pool, conflicts) := removeConflicts hash (remove hash acc.1 tx false).1 tx
      (pool.clearPrioritisation (tx.getHash hash), acc.2 ++ conflicts))
    (pool, [])

/-- The test of `removeCoinbaseSpends` on one input.  The subtraction is unsigned. -/
def spendsImmature (pool : CTxMemPool) (pcoins : CCoinsView) (nMemPoolHeight : UInt32)
    (txin : CTxIn) : Except Stop Bool :=
  if pool.contains txin.prevout.hash then .ok false
  else match pcoins.accessCoins txin.prevout.hash with
    | none => if pool.fSanityCheck then .error .asserted else .ok true
    | some coins =>
      .ok (coins.fCoinBase &&
        (nMemPoolHeight - UInt32.ofInt coins.nHeight).toNat < coinbaseMaturity.toNat)

/-- Some input of the transaction spends an immature coinbase; the loop leaves at the
first. -/
def anyImmature (pool : CTxMemPool) (pcoins : CCoinsView) (nMemPoolHeight : UInt32) :
    List CTxIn → Except Stop Bool
  | [] => .ok false
  | txin :: vin => do
    if ← pool.spendsImmature pcoins nMemPoolHeight txin then .ok true
    else pool.anyImmature pcoins nMemPoolHeight vin

/-- `removeCoinbaseSpends`. -/
def removeCoinbaseSpends (pool : CTxMemPool) (pcoins : CCoinsView) (nMemPoolHeight : UInt32) :
    Except Stop CTxMemPool := do
  let transactionsToRemove ← pool.mapTx.entries.filterMapM fun p => do
    if ← pool.anyImmature pcoins nMemPoolHeight p.2.tx.vin then .ok (some p.2.tx) else .ok none
  .ok (transactionsToRemove.foldl (fun pool tx => (remove hash pool tx true).1) pool)

/-- `clear`. -/
def clear (pool : CTxMemPool) : CTxMemPool :=
  { pool with
    mapTx := OrdMap.empty
    mapNextTx := OrdMap.empty
    totalTxSize := 0
    nTransactionsUpdated := pool.nTransactionsUpdated + 1 }

/-! ## The invariant -/

/-- The transaction is in the pool. -/
def Has (pool : CTxMemPool) (tx : CTransaction) : Prop :=
  ∃ entry, pool.mapTx.find (tx.getHash hash) = some entry ∧ entry.tx = tx

/-- The two maps and the sum of the sizes fit together. -/
structure PoolOk (pool : CTxMemPool) : Prop where
  keyed : ∀ txid entry, pool.mapTx.find txid = some entry → entry.tx.getHash hash = txid
  spends : ∀ o p, pool.mapNextTx.find o = some p ↔ pool.Has hash p.ptx ∧ p.outpoint = some o
  total : pool.totalTxSize = UInt64.ofNat (pool.mapTx.total fun _ entry => entry.getTxSize)

variable {hash}

theorem mem_inPoints {tx : CTransaction} {o : COutPoint} {p : CInPoint} :
    (o, p) ∈ inPoints tx ↔ p.ptx = tx ∧ p.outpoint = some o := by
  simp only [inPoints, List.mem_map, CInPoint.outpoint, Prod.exists, List.mem_zipIdx_iff_getElem?,
    Prod.mk.injEq, Option.map_eq_some_iff]
  constructor
  · rintro ⟨txin, n, hget, rfl, rfl⟩
    exact ⟨rfl, txin, hget, rfl⟩
  · rintro ⟨rfl, txin, hget, rfl⟩
    exact ⟨txin, p.n, hget, rfl, rfl⟩

theorem keys_inPoints (tx : CTransaction) :
    (inPoints tx).map Prod.fst = tx.vin.map CTxIn.prevout := by
  rw [inPoints, List.map_map]
  conv_rhs => rw [← List.zipIdx_map_fst 0 tx.vin, List.map_map]
  rfl

/-- The outpoint of an input is one of the transaction's. -/
theorem outpoint_mem {p : CInPoint} {o : COutPoint} (h : p.outpoint = some o) :
    o ∈ p.ptx.vin.map CTxIn.prevout := by
  obtain ⟨txin, hget, rfl⟩ := Option.map_eq_some_iff.mp h
  exact List.mem_map_of_mem (List.mem_of_getElem? hget)

theorem poolOk_empty : PoolOk hash {} := by
  refine ⟨?_, ?_, rfl⟩
  · intro txid entry hfind
    cases hfind
  · intro o p
    constructor
    · intro hfind
      cases hfind
    · rintro ⟨⟨entry, hfind, -⟩, -⟩
      cases hfind

/-- **No outpoint is spent twice** by the pool. -/
theorem PoolOk.spent_once {pool : CTxMemPool} (ok : PoolOk hash pool) {p q : CInPoint}
    {o : COutPoint} (hp : pool.Has hash p.ptx) (hq : pool.Has hash q.ptx)
    (hpo : p.outpoint = some o) (hqo : q.outpoint = some o) : p = q := by
  have hfind := (ok.spends o p).mpr ⟨hp, hpo⟩
  rw [(ok.spends o q).mpr ⟨hq, hqo⟩] at hfind
  exact (Option.some.inj hfind).symm

/-- Adding a transaction that is new, conflicts with nothing and spends nothing twice. -/
theorem PoolOk.addUnchecked {pool : CTxMemPool} (ok : PoolOk hash pool) {entry : CTxMemPoolEntry}
    (hnew : pool.mapTx.find (entry.tx.getHash hash) = none)
    (hconf : pool.conflicts entry.tx = false) (hnodup : (entry.tx.vin.map CTxIn.prevout).Nodup) :
    PoolOk hash (pool.addUnchecked (entry.tx.getHash hash) entry) := by
  have hfree : ∀ o ∈ entry.tx.vin.map CTxIn.prevout, pool.mapNextTx.find o = none := by
    intro o ho
    obtain ⟨txin, hmem, rfl⟩ := List.mem_map.mp ho
    have := List.any_eq_false.mp hconf txin hmem
    simpa using this
  have hhas : ∀ tx, (pool.addUnchecked (entry.tx.getHash hash) entry).Has hash tx ↔
      tx = entry.tx ∨ pool.Has hash tx := by
    intro tx
    simp only [Has, CTxMemPool.addUnchecked, OrdMap.find_put]
    by_cases heq : tx.getHash hash = entry.tx.getHash hash
    · rw [if_pos heq, heq, hnew]
      simp [eq_comm]
    · rw [if_neg heq]
      have hne : tx ≠ entry.tx := fun h => heq (by rw [h])
      simp [hne]
  refine ⟨?_, ?_, ?_⟩
  · intro txid e hfind
    simp only [CTxMemPool.addUnchecked, OrdMap.find_put] at hfind
    split_ifs at hfind with heq
    · cases hfind
      exact heq.symm
    · exact ok.keyed txid e hfind
  · intro o p
    rw [hhas]
    simp only [CTxMemPool.addUnchecked, OrdMap.find_putAll]
    by_cases ho : o ∈ entry.tx.vin.map CTxIn.prevout
    · -- the outpoint is one of the new transaction's, and of no other
      rw [hfree o ho, Option.or_none]
      have hlast : OrdMap.lastPut o (inPoints entry.tx) = some p ↔
          p.ptx = entry.tx ∧ p.outpoint = some o := by
        rw [← mem_inPoints]
        exact ⟨OrdMap.mem_of_lastPut, OrdMap.lastPut_of_mem (keys_inPoints entry.tx ▸ hnodup)⟩
      rw [hlast]
      constructor
      · rintro ⟨hp, hout⟩
        exact ⟨Or.inl hp, hout⟩
      · rintro ⟨hp | hp, hout⟩
        · exact ⟨hp, hout⟩
        · have hold := (ok.spends o p).mpr ⟨hp, hout⟩
          rw [hfree o ho] at hold
          cases hold
    · -- the outpoint is not, and nothing changes for it
      have hnone : OrdMap.lastPut o (inPoints entry.tx) = none := by
        refine OrdMap.lastPut_eq_none.mpr fun q hq hqo => ho ?_
        rw [← keys_inPoints, ← hqo]
        exact List.mem_map_of_mem hq
      rw [hnone, Option.none_or, ok.spends]
      constructor
      · rintro ⟨hp, hout⟩
        exact ⟨Or.inr hp, hout⟩
      · rintro ⟨hp | hp, hout⟩
        · have hmem := outpoint_mem hout
          rw [hp] at hmem
          exact absurd hmem ho
        · exact ⟨hp, hout⟩
  · simp only [CTxMemPool.addUnchecked]
    rw [OrdMap.total_put, OrdMap.erase_of_find_none hnew, ok.total, UInt64.ofNat_add,
      UInt64.add_comm]

/-- Taking one transaction out. -/
theorem PoolOk.removeTx {pool : CTxMemPool} (ok : PoolOk hash pool) {txid : Uint256}
    {entry : CTxMemPoolEntry} (hfind : pool.mapTx.find txid = some entry) :
    PoolOk hash (pool.removeTx txid entry) := by
  have hkey := ok.keyed txid entry hfind
  have hhas : ∀ tx, (pool.removeTx txid entry).Has hash tx ↔
      pool.Has hash tx ∧ tx.getHash hash ≠ txid := by
    intro tx
    simp only [Has, CTxMemPool.removeTx, OrdMap.find_erase]
    by_cases heq : tx.getHash hash = txid
    · simp [heq]
    · simp [heq]
  refine ⟨?_, ?_, ?_⟩
  · intro txid' e h
    simp only [CTxMemPool.removeTx, OrdMap.find_erase] at h
    split_ifs at h
    exact ok.keyed txid' e h
  · intro o p
    rw [hhas]
    simp only [CTxMemPool.removeTx, OrdMap.find_eraseAll]
    split_ifs with ho
    · -- an outpoint of the removed transaction is spent by no other
      constructor
      · intro h
        cases h
      · rintro ⟨⟨hp, hne⟩, hout⟩
        obtain ⟨txin, hmem, rfl⟩ := List.mem_map.mp ho
        obtain ⟨n, hget⟩ := List.mem_iff_getElem?.mp hmem
        have hq : (CInPoint.mk entry.tx n).outpoint = some txin.prevout := by
          simp [CInPoint.outpoint, hget]
        have heq := ok.spent_once hp (q := ⟨entry.tx, n⟩) ⟨entry, hkey ▸ hfind, rfl⟩ hout hq
        rw [heq] at hne
        exact absurd hkey hne
    · rw [ok.spends]
      constructor
      · rintro ⟨hp, hout⟩
        refine ⟨⟨hp, fun heq => ho ?_⟩, hout⟩
        obtain ⟨e, he, hetx⟩ := hp
        rw [heq, hfind] at he
        cases he
        rw [hetx]
        exact outpoint_mem hout
      · rintro ⟨⟨hp, -⟩, hout⟩
        exact ⟨hp, hout⟩
  · simp only [CTxMemPool.removeTx]
    rw [ok.total, OrdMap.total_erase _ hfind, UInt64.ofNat_add, UInt64.add_comm]
    exact UInt64.add_sub_cancel ..

/-! ## The operations keep the invariant -/

theorem PoolOk.removeLoop {pool : CTxMemPool} (ok : PoolOk hash pool) (fRecursive : Bool)
    (removed : List CTransaction) (txToRemove : List Uint256) :
    PoolOk hash (removeLoop hash fRecursive pool removed txToRemove).1 := by
  fun_induction CTxMemPool.removeLoop hash fRecursive pool removed txToRemove with
  | case1 pool removed => exact ok
  | case2 pool removed txid queue hnone ih => exact ih ok
  | case3 pool removed txid queue entry hfind children ih => exact ih (ok.removeTx hfind)

theorem PoolOk.remove {pool : CTxMemPool} (ok : PoolOk hash pool) (tx : CTransaction)
    (fRecursive : Bool) : PoolOk hash (remove hash pool tx fRecursive).1 :=
  ok.removeLoop fRecursive [] _

theorem PoolOk.removeConflicts {pool : CTxMemPool} (ok : PoolOk hash pool) (tx : CTransaction) :
    PoolOk hash (removeConflicts hash pool tx).1 := by
  rw [CTxMemPool.removeConflicts]
  refine List.foldlRecOn (motive := fun (acc : CTxMemPool × List CTransaction) => PoolOk hash acc.1) tx.vin _ ok ?_
  intro acc hacc txin _
  split
  · exact hacc
  · split_ifs
    · exact hacc.remove _ true
    · exact hacc

theorem PoolOk.removeForBlock {pool : CTxMemPool} (ok : PoolOk hash pool)
    (vtx : List CTransaction) : PoolOk hash (removeForBlock hash pool vtx).1 := by
  rw [CTxMemPool.removeForBlock]
  refine List.foldlRecOn (motive := fun (acc : CTxMemPool × List CTransaction) => PoolOk hash acc.1) vtx _ ok ?_
  intro acc hacc tx _
  have hnext := (hacc.remove tx false).removeConflicts tx
  exact ⟨hnext.keyed, hnext.spends, hnext.total⟩

theorem PoolOk.removeCoinbaseSpends {pool pool' : CTxMemPool} (ok : PoolOk hash pool)
    {pcoins : CCoinsView} {nMemPoolHeight : UInt32}
    (h : removeCoinbaseSpends hash pool pcoins nMemPoolHeight = .ok pool') : PoolOk hash pool' := by
  simp only [CTxMemPool.removeCoinbaseSpends, bind_eq_ok, Except.ok.injEq] at h
  obtain ⟨txs, -, rfl⟩ := h
  exact List.foldlRecOn (motive := PoolOk hash) txs _ ok fun acc hacc tx _ => hacc.remove tx true

theorem poolOk_clear (pool : CTxMemPool) : PoolOk hash pool.clear := by
  obtain ⟨hkeyed, hspends, htotal⟩ := @poolOk_empty hash
  exact ⟨hkeyed, hspends, htotal⟩

/-! ## Runs -/

end CTxMemPool

/-- An operation on the pool. -/
inductive PoolStep where
  /-- `addUnchecked`, as `AcceptToMemoryPool` enters it. -/
  | add (entry : CTxMemPoolEntry)
  | remove (tx : CTransaction) (fRecursive : Bool)
  | removeConflicts (tx : CTransaction)
  | removeForBlock (vtx : List CTransaction)
  | removeCoinbaseSpends (pcoins : CCoinsView) (nMemPoolHeight : UInt32)
  | clear

namespace PoolStep

open CTxMemPool

variable (hash : Bytes → Uint256)

/-- The checks of `AcceptToMemoryPool` that the pool rests on: the transaction passes
`CheckTransaction`, is not in the pool, and spends nothing that the pool spends. -/
def admits (pool : CTxMemPool) (tx : CTransaction) : Bool :=
  (checkTransaction tx).isOk && !pool.contains (tx.getHash hash) && !pool.conflicts tx

/-- The pool after an operation.  A failed assertion ends the process with the pool as it
was. -/
def apply (pool : CTxMemPool) : PoolStep → CTxMemPool
  | add entry =>
    if admits hash pool entry.tx then pool.addUnchecked (entry.tx.getHash hash) entry else pool
  | remove tx fRecursive => (CTxMemPool.remove hash pool tx fRecursive).1
  | removeConflicts tx => (CTxMemPool.removeConflicts hash pool tx).1
  | removeForBlock vtx => (CTxMemPool.removeForBlock hash pool vtx).1
  | removeCoinbaseSpends pcoins nMemPoolHeight =>
    match CTxMemPool.removeCoinbaseSpends hash pool pcoins nMemPoolHeight with
    | .error _ => pool
    | .ok pool => pool
  | clear => pool.clear

variable {hash}

theorem admits_iff {pool : CTxMemPool} {tx : CTransaction} :
    admits hash pool tx = true ↔ checkTransaction tx = .ok () ∧
      pool.mapTx.find (tx.getHash hash) = none ∧ pool.conflicts tx = false := by
  have hcheck : (checkTransaction tx).isOk = true ↔ checkTransaction tx = .ok () := by
    cases checkTransaction tx with
    | error e => simp [Except.isOk, Except.toBool]
    | ok u => simp [Except.isOk, Except.toBool]
  rw [admits, Bool.and_eq_true, Bool.and_eq_true, hcheck, and_assoc]
  simp [contains]

theorem poolOk_apply {pool : CTxMemPool} (ok : PoolOk hash pool) (step : PoolStep) :
    PoolOk hash (step.apply hash pool) := by
  cases step with
  | add entry =>
      rw [apply]
      split_ifs with hadmits
      · obtain ⟨hcheck, hnew, hconf⟩ := admits_iff.mp hadmits
        exact ok.addUnchecked hnew hconf (checkTransaction_ok hcheck).2
      · exact ok
  | remove tx fRecursive => exact ok.remove tx fRecursive
  | removeConflicts tx => exact ok.removeConflicts tx
  | removeForBlock vtx => exact ok.removeForBlock vtx
  | removeCoinbaseSpends pcoins nMemPoolHeight =>
      rw [apply]
      split
      · exact ok
      · exact ok.removeCoinbaseSpends ‹_›
  | clear => exact poolOk_clear pool

end PoolStep

/-- The pool after a run, from the empty pool. -/
def runPool (hash : Bytes → Uint256) (fSanityCheck : Bool) (steps : List PoolStep) : CTxMemPool :=
  steps.foldl (fun pool step => step.apply hash pool) { fSanityCheck }

theorem poolOk_runPool (hash : Bytes → Uint256) (fSanityCheck : Bool) (steps : List PoolStep) :
    CTxMemPool.PoolOk hash (runPool hash fSanityCheck steps) := by
  refine List.foldlRecOn (motive := CTxMemPool.PoolOk hash) steps _ ?_ ?_
  · obtain ⟨hkeyed, hspends, htotal⟩ := @CTxMemPool.poolOk_empty hash
    exact ⟨hkeyed, hspends, htotal⟩
  · exact fun pool ok step _ => PoolStep.poolOk_apply ok step

/-- **The maps of the pool.**  After any run, `mapNextTx` maps an outpoint to an input
exactly if the input is one of a transaction of the pool and spends it; no outpoint is
spent twice; and the total is the sum of the sizes. -/
theorem pool_representation (hash : Bytes → Uint256) (fSanityCheck : Bool)
    (steps : List PoolStep) :
    (∀ o tx i, (runPool hash fSanityCheck steps).mapNextTx.find o = some ⟨tx, i⟩ ↔
      (∃ txid entry, (runPool hash fSanityCheck steps).mapTx.find txid = some entry ∧
        entry.tx = tx) ∧ tx.vin[i]?.map CTxIn.prevout = some o) ∧
    (∀ txid txid' entry entry' (i j : Nat) o,
      (runPool hash fSanityCheck steps).mapTx.find txid = some entry →
      (runPool hash fSanityCheck steps).mapTx.find txid' = some entry' →
      entry.tx.vin[i]?.map CTxIn.prevout = some o →
      entry'.tx.vin[j]?.map CTxIn.prevout = some o → txid = txid' ∧ i = j) ∧
    (runPool hash fSanityCheck steps).totalTxSize =
      UInt64.ofNat ((runPool hash fSanityCheck steps).mapTx.total fun _ entry =>
        entry.getTxSize) := by
  have ok := poolOk_runPool hash fSanityCheck steps
  generalize runPool hash fSanityCheck steps = pool at ok ⊢
  have hhas : ∀ {txid entry}, pool.mapTx.find txid = some entry → pool.Has hash entry.tx := by
    intro txid entry hfind
    exact ⟨entry, (ok.keyed txid entry hfind).symm ▸ hfind, rfl⟩
  refine ⟨?_, ?_, ok.total⟩
  · intro o tx i
    rw [ok.spends]
    constructor
    · rintro ⟨⟨entry, hfind, htx⟩, hout⟩
      exact ⟨⟨_, entry, hfind, htx⟩, hout⟩
    · rintro ⟨⟨txid, entry, hfind, rfl⟩, hout⟩
      exact ⟨hhas hfind, hout⟩
  · intro txid txid' entry entry' i j o hfind hfind' hout hout'
    have heq := ok.spent_once (p := ⟨entry.tx, i⟩) (q := ⟨entry'.tx, j⟩) (hhas hfind) (hhas hfind')
      hout hout'
    obtain ⟨htx, hij⟩ := CInPoint.mk.inj heq
    refine ⟨?_, hij⟩
    rw [← ok.keyed txid entry hfind, htx, ok.keyed txid' entry' hfind']

end Hivemind
