import Hivemind.Mempool.Pool
import Mathlib.Logic.Relation

/-!
# Removing a transaction with its descendants

`CTxMemPool::remove` with `fRecursive`: the queue starts with the transaction itself, and an id
that is not in the pool is dropped with nothing done for its children.

A transaction that was in a block that is disconnected is not in the pool, but transactions of
the pool may spend its outputs; `remove` is called with it when it cannot come back.  So whether
all descendants go depends on whether the pool has the transaction, or on whether the entry under
its id covers what spends it.  The walk itself, from ids that are in the pool, is complete: each
id that is dropped for being absent was removed by an earlier turn.

* `Descends`, `RemovesAll`: what descends from a transaction, and that nothing of it stays.
* `removeLoop_sound`: what is removed was asked for, or descends from it.
* `removeLoop_closed`: nothing stays that spends an output of what is removed.
* `removesAll_iff`: **when nothing stays** that descends from the transaction.
* `exampleChild_removed`, `exampleDisconnected_not_removed`: a chain that goes, and a child that
  stays.
-/

namespace Hivemind

open Codecs Ordered Outcomes

namespace CTxMemPool

/-- `child` spends an output of `parent`. -/
def SpendsOutput (hash : Bytes → Uint256) (child parent : CTransaction) : Prop :=
  ∃ txin ∈ child.vin, txin.prevout.hash = parent.getHash hash ∧
    txin.prevout.n.toNat < parent.vout.length

/-- `t` spends an output of `s`, directly or through other transactions of the pool. -/
def Descends (hash : Bytes → Uint256) (pool : CTxMemPool) : CTransaction → CTransaction → Prop :=
  Relation.TransGen fun child parent => pool.Has hash child ∧ SpendsOutput hash child parent

/-- After `remove(tx, removed, true)` no transaction left in the pool descends from `tx` or
from a removed transaction. -/
def RemovesAll (hash : Bytes → Uint256) (pool : CTxMemPool) (tx : CTransaction) : Prop :=
  ∀ t, (remove hash pool tx true).1.Has hash t →
    ∀ s, s = tx ∨ s ∈ (remove hash pool tx true).2 → ¬ Descends hash pool t s

/-- The transactions of the pool that spend outputs of `tx` are, or descend from, the one that
the pool has under the id of `tx`. -/
def Covered (hash : Bytes → Uint256) (pool : CTxMemPool) (tx : CTransaction) : Prop :=
  ∀ t, pool.Has hash t → SpendsOutput hash t tx →
    ∃ entry, pool.mapTx.find (tx.getHash hash) = some entry ∧
      (t = entry.tx ∨ Descends hash pool t entry.tx)

variable {hash : Bytes → Uint256} {pool : CTxMemPool}

/-- The pool has the transaction. -/
theorem covered_of_has {tx : CTransaction} (h : pool.Has hash tx) : Covered hash pool tx := by
  intro t ht hspend
  obtain ⟨entry, hfind, rfl⟩ := h
  exact ⟨entry, hfind, Or.inr (Relation.TransGen.single ⟨ht, hspend⟩)⟩

/-- The pool has nothing under its id: then nothing may spend its outputs. -/
theorem covered_iff_of_absent {tx : CTransaction}
    (h : pool.mapTx.find (tx.getHash hash) = none) :
    Covered hash pool tx ↔ ∀ t, pool.Has hash t → ¬ SpendsOutput hash t tx := by
  constructor
  · intro hcov t ht hspend
    obtain ⟨entry, hfind, -⟩ := hcov t ht hspend
    rw [h] at hfind
    cases hfind
  · exact fun hnone t ht hspend => absurd hspend (hnone t ht)

/-! ## The children of a transaction -/

/-- The ids that are queued for a transaction of the pool are those of its children. -/
theorem mem_spenders_iff (ok : PoolOk hash pool) {txid : Uint256} {tx t : CTransaction}
    (hkey : tx.getHash hash = txid) :
    t ∈ pool.spenders txid tx ↔ pool.Has hash t ∧ SpendsOutput hash t tx := by
  simp only [spenders, List.mem_filterMap, List.mem_range, Option.map_eq_some_iff]
  constructor
  · rintro ⟨i, hi, p, hfind, rfl⟩
    obtain ⟨hhas, hout⟩ := (ok.spends _ p).mp hfind
    obtain ⟨txin, hget, hprev⟩ := Option.map_eq_some_iff.mp hout
    refine ⟨hhas, txin, List.mem_of_getElem? hget, ?_, ?_⟩
    · rw [hprev, hkey]
    · rw [hprev, UInt32.toNat_ofNat']
      exact (Nat.mod_le i _).trans_lt hi
  · rintro ⟨hhas, txin, hmem, hprev, hn⟩
    obtain ⟨n, hget⟩ := List.mem_iff_getElem?.mp hmem
    have hout : (CInPoint.mk t n).outpoint = some txin.prevout := by
      simp [CInPoint.outpoint, hget]
    refine ⟨txin.prevout.n.toNat, hn, ⟨t, n⟩, ?_, rfl⟩
    have hfind := (ok.spends txin.prevout ⟨t, n⟩).mpr ⟨hhas, hout⟩
    rw [← hkey, ← hprev, UInt32.ofNat_toNat]
    exact hfind

/-- A transaction of the pool is the one that its id finds. -/
theorem tx_of_has {t : CTransaction} {entry : CTxMemPoolEntry} (h : pool.Has hash t)
    (hfind : pool.mapTx.find (t.getHash hash) = some entry) : entry.tx = t := by
  obtain ⟨e, he, rfl⟩ := h
  rw [he] at hfind
  rw [Option.some.inj hfind]

theorem has_removeTx_iff {txid : Uint256} {entry : CTxMemPoolEntry} {t : CTransaction} :
    (pool.removeTx txid entry).Has hash t ↔ pool.Has hash t ∧ t.getHash hash ≠ txid := by
  simp only [Has, CTxMemPool.removeTx, OrdMap.find_erase]
  by_cases heq : t.getHash hash = txid
  · simp [heq]
  · simp [heq]

theorem find_removeTx {txid id : Uint256} {entry e : CTxMemPoolEntry}
    (h : (pool.removeTx txid entry).mapTx.find id = some e) : pool.mapTx.find id = some e := by
  simp only [CTxMemPool.removeTx, OrdMap.find_erase] at h
  split_ifs at h
  exact h

theorem descends_of_removeTx {txid : Uint256} {entry : CTxMemPoolEntry} {t s : CTransaction}
    (h : Descends hash (pool.removeTx txid entry) t s) : Descends hash pool t s := by
  induction h with
  | single hab => exact .single ⟨(has_removeTx_iff.mp hab.1).1, hab.2⟩
  | tail _ hab ih => exact ih.tail ⟨(has_removeTx_iff.mp hab.1).1, hab.2⟩

/-! ## The loop -/

/-- What has been removed stays removed. -/
theorem removed_stays (removed : List CTransaction) (queue : List Uint256) {r : CTransaction}
    (hr : r ∈ removed) : r ∈ (removeLoop hash true pool removed queue).2 := by
  fun_induction removeLoop hash true pool removed queue with
  | case1 pool removed => exact hr
  | case2 pool removed txid queue hnone ih => exact ih hr
  | case3 pool removed txid queue entry hfind children ih => exact ih (List.mem_append_left _ hr)

/-- A transaction of the pool stays or is removed. -/
theorem has_or_removed (ok : PoolOk hash pool) (removed : List CTransaction)
    (queue : List Uint256) {t : CTransaction} (ht : pool.Has hash t) :
    (removeLoop hash true pool removed queue).1.Has hash t ∨
      t ∈ (removeLoop hash true pool removed queue).2 := by
  fun_induction removeLoop hash true pool removed queue with
  | case1 pool removed => exact Or.inl ht
  | case2 pool removed txid queue hnone ih => exact ih ok ht
  | case3 pool removed txid queue entry hfind children ih =>
    by_cases heq : t.getHash hash = txid
    · have htx := tx_of_has ht (heq ▸ hfind)
      exact Or.inr (removed_stays _ _ (by simp [htx]))
    · exact ih (ok.removeTx hfind) (has_removeTx_iff.mpr ⟨ht, heq⟩)

/-- **What is removed was asked for, or descends from what was.** -/
theorem removeLoop_sound (ok : PoolOk hash pool) (removed : List CTransaction)
    (queue : List Uint256) {r : CTransaction}
    (hr : r ∈ (removeLoop hash true pool removed queue).2) :
    r ∈ removed ∨ ∃ id ∈ queue, ∃ entry, pool.mapTx.find id = some entry ∧
      (r = entry.tx ∨ Descends hash pool r entry.tx) := by
  fun_induction removeLoop hash true pool removed queue with
  | case1 pool removed => exact Or.inl hr
  | case2 pool removed txid queue hnone ih =>
    rcases ih ok hr with h | ⟨id, hid, h⟩
    · exact Or.inl h
    · exact Or.inr ⟨id, List.mem_cons_of_mem _ hid, h⟩
  | case3 pool removed txid queue entry hfind children ih =>
    rcases ih (ok.removeTx hfind) hr with h | ⟨id, hid, e, he, hdesc⟩
    · rcases List.mem_append.mp h with h | h
      · exact Or.inl h
      · exact Or.inr ⟨txid, List.mem_cons_self, entry, hfind, Or.inl (List.mem_singleton.mp h)⟩
    · have hold := find_removeTx he
      rcases List.mem_append.mp hid with hid | hid
      · exact Or.inr ⟨id, List.mem_cons_of_mem _ hid, e, hold, hdesc.imp_right descends_of_removeTx⟩
      · -- a child that was queued for the removed transaction
        obtain ⟨c, hc, rfl⟩ := List.mem_map.mp hid
        obtain ⟨hhas, hspend⟩ := (mem_spenders_iff ok (ok.keyed _ _ hfind)).mp hc
        obtain rfl := tx_of_has hhas hold
        refine Or.inr ⟨txid, List.mem_cons_self, entry, hfind, Or.inr ?_⟩
        rcases hdesc with rfl | hdesc
        · exact Relation.TransGen.single ⟨hhas, hspend⟩
        · exact (descends_of_removeTx hdesc).tail ⟨hhas, hspend⟩

/-- **Nothing stays that spends an output of what is removed**, if the queue starts with the
ids of all that do. -/
theorem removeLoop_closed (ok : PoolOk hash pool) (removed : List CTransaction)
    (queue : List Uint256)
    (hqueue : ∀ r ∈ removed, ∀ t, pool.Has hash t → SpendsOutput hash t r →
      t.getHash hash ∈ queue) :
    ∀ r ∈ (removeLoop hash true pool removed queue).2, ∀ t,
      (removeLoop hash true pool removed queue).1.Has hash t → ¬ SpendsOutput hash t r := by
  fun_induction removeLoop hash true pool removed queue with
  | case1 pool removed =>
    intro r hr t ht hspend
    exact List.not_mem_nil (hqueue r hr t ht hspend)
  | case2 pool removed txid queue hnone ih =>
    refine ih ok fun r hr t ht hspend => ?_
    rcases List.mem_cons.mp (hqueue r hr t ht hspend) with heq | hmem
    · obtain ⟨e, he, -⟩ := ht
      rw [heq, hnone] at he
      cases he
    · exact hmem
  | case3 pool removed txid queue entry hfind children ih =>
    refine ih (ok.removeTx hfind) fun r hr t ht hspend => ?_
    obtain ⟨ht, hne⟩ := has_removeTx_iff.mp ht
    rcases List.mem_append.mp hr with hr | hr
    · rcases List.mem_cons.mp (hqueue r hr t ht hspend) with heq | hmem
      · exact absurd heq hne
      · exact List.mem_append_left _ hmem
    · obtain rfl := List.mem_singleton.mp hr
      have hchild := (mem_spenders_iff ok (ok.keyed _ _ hfind)).mpr ⟨ht, hspend⟩
      exact List.mem_append_right _ (List.mem_map_of_mem hchild)

/-! ## `remove` -/

/-- An id that the pool does not have changes nothing. -/
theorem remove_of_absent {tx : CTransaction} (h : pool.mapTx.find (tx.getHash hash) = none) :
    remove hash pool tx true = (pool, []) := by
  rw [remove, removeLoop]
  split
  · rw [removeLoop]
  · next e he =>
    rw [he] at h
    cases h

/-- The transaction under the id is removed. -/
theorem entry_removed {tx : CTransaction} {entry : CTxMemPoolEntry}
    (hfind : pool.mapTx.find (tx.getHash hash) = some entry) :
    entry.tx ∈ (remove hash pool tx true).2 := by
  rw [remove, removeLoop]
  split
  · next hnone =>
    rw [hnone] at hfind
    cases hfind
  · next e he =>
    rw [he] at hfind
    obtain rfl := Option.some.inj hfind
    exact removed_stays _ _ (by simp)

/-- A transaction of the pool that descends from a removed one is removed. -/
theorem removed_of_descends (ok : PoolOk hash pool) {tx t s : CTransaction}
    (hs : s ∈ (remove hash pool tx true).2) (h : Descends hash pool t s) :
    t ∈ (remove hash pool tx true).2 := by
  have hclosed := removeLoop_closed ok [] [tx.getHash hash] fun r hr => absurd hr List.not_mem_nil
  have hstep : ∀ {c p : CTransaction}, pool.Has hash c → SpendsOutput hash c p →
      p ∈ (remove hash pool tx true).2 → c ∈ (remove hash pool tx true).2 := by
    intro c p hc hspend hp
    rcases has_or_removed ok [] [tx.getHash hash] hc with hleft | hrem
    · exact absurd hspend (hclosed p hp c hleft)
    · exact hrem
  induction h using Relation.TransGen.head_induction_on with
  | single hab => exact hstep hab.1 hab.2 hs
  | head hab _ ih => exact hstep hab.1 hab.2 ih

/-- What is removed does not stay. -/
theorem not_has_of_removed (ok : PoolOk hash pool) {removed : List CTransaction}
    {queue : List Uint256} (hout : ∀ r ∈ removed, ¬ pool.Has hash r) :
    ∀ r ∈ (removeLoop hash true pool removed queue).2,
      ¬ (removeLoop hash true pool removed queue).1.Has hash r := by
  fun_induction removeLoop hash true pool removed queue with
  | case1 pool removed => exact hout
  | case2 pool removed txid queue hnone ih => exact ih ok hout
  | case3 pool removed txid queue entry hfind children ih =>
    refine ih (ok.removeTx hfind) fun r hr hhas => ?_
    obtain ⟨hhas, hne⟩ := has_removeTx_iff.mp hhas
    rcases List.mem_append.mp hr with hr | hr
    · exact hout r hr hhas
    · obtain rfl := List.mem_singleton.mp hr
      exact hne (ok.keyed _ _ hfind)

/-- **When nothing stays that descends from the transaction**: the walk from the entry under
its id covers its spenders. -/
theorem removesAll_iff (ok : PoolOk hash pool) (tx : CTransaction) :
    RemovesAll hash pool tx ↔ Covered hash pool tx := by
  constructor
  · intro hall t ht hspend
    have hgone : t ∈ (remove hash pool tx true).2 := by
      rcases has_or_removed ok [] [tx.getHash hash] ht with hleft | hrem
      · exact absurd (Relation.TransGen.single ⟨ht, hspend⟩) (hall t hleft tx (Or.inl rfl))
      · exact hrem
    rcases removeLoop_sound ok [] [tx.getHash hash] hgone with h | ⟨id, hid, h⟩
    · exact absurd h List.not_mem_nil
    · rw [List.mem_singleton.mp hid] at h
      exact h
  · intro hcond t ht s hs hdesc
    have hnot : t ∉ (remove hash pool tx true).2 := fun hrem =>
      not_has_of_removed ok (fun r hr => absurd hr List.not_mem_nil) t hrem ht
    -- every spender of `tx` is removed, so `tx` behaves as a removed transaction
    have hspender : ∀ c, pool.Has hash c → SpendsOutput hash c tx →
        c ∈ (remove hash pool tx true).2 := by
      intro c hc hspend
      obtain ⟨entry, hfind, rfl | hd⟩ := hcond c hc hspend
      · exact entry_removed hfind
      · exact removed_of_descends ok (entry_removed hfind) hd
    rcases hs with rfl | hs
    · obtain ⟨c, hpath, hc, hspend⟩ := Relation.TransGen.tail'_iff.mp hdesc
      have hrem := hspender c hc hspend
      rcases Relation.reflTransGen_iff_eq_or_transGen.mp hpath with rfl | hpath
      · exact hnot hrem
      · exact hnot (removed_of_descends ok hrem hpath)
    · exact hnot (removed_of_descends ok hs hdesc)

/-! ## A child of a disconnected transaction -/

/-- The length of the bytes, as a hash. -/
def lengthHash (b : Bytes) : Uint256 := Blob.fill (UInt8.ofNat b.length)

/-- A transaction of a disconnected block. -/
def exampleDisconnected : CTransaction where
  vout := [⟨1000, [0x51]⟩]

/-- A transaction of the pool that spends its output. -/
def exampleChild : CTransaction where
  vin := [{ prevout := ⟨exampleDisconnected.getHash lengthHash, 0⟩ }]
  vout := [⟨900, [0x51]⟩]

/-- The pool with the child alone. -/
def exampleChildPool : CTxMemPool :=
  ({} : CTxMemPool).addUnchecked (exampleChild.getHash lengthHash) { tx := exampleChild }

theorem poolOk_exampleChildPool : PoolOk lengthHash exampleChildPool :=
  @PoolOk.addUnchecked lengthHash {} poolOk_empty { tx := exampleChild } rfl (by decide) (by decide)

/-- A transaction that spends the output of the child, and one that has nothing to do with it. -/
def exampleGrandchild : CTransaction where
  vin := [{ prevout := ⟨exampleChild.getHash lengthHash, 0⟩ }]
  vout := [⟨800, [0x51, 0x51]⟩]

def exampleStranger : CTransaction where
  vin := [{ prevout := ⟨Blob.null, 0⟩ }]
  vout := [⟨700, [0x51, 0x51, 0x51]⟩]

/-- The pool with all three. -/
def exampleChainPool : CTxMemPool :=
  (exampleChildPool.addUnchecked (exampleStranger.getHash lengthHash)
    { tx := exampleStranger }).addUnchecked (exampleGrandchild.getHash lengthHash)
    { tx := exampleGrandchild }

theorem poolOk_exampleChainPool : PoolOk lengthHash exampleChainPool := by
  have hstranger : PoolOk lengthHash (exampleChildPool.addUnchecked
      (exampleStranger.getHash lengthHash) { tx := exampleStranger }) :=
    @PoolOk.addUnchecked lengthHash _ poolOk_exampleChildPool { tx := exampleStranger }
      (by decide +kernel) (by decide +kernel) (by decide)
  exact @PoolOk.addUnchecked lengthHash _ hstranger { tx := exampleGrandchild }
    (by decide +kernel) (by decide +kernel) (by decide)

/-- The child takes along the transaction that spends its output. -/
theorem exampleChild_removed : RemovesAll lengthHash exampleChainPool exampleChild ∧
    exampleChainPool.Has lengthHash exampleGrandchild ∧
    ¬ (remove lengthHash exampleChainPool exampleChild true).1.Has lengthHash exampleGrandchild := by
  have hall : RemovesAll lengthHash exampleChainPool exampleChild :=
    (removesAll_iff poolOk_exampleChainPool exampleChild).mpr (covered_of_has ⟨_, rfl, rfl⟩)
  have hhas : exampleChainPool.Has lengthHash exampleGrandchild := ⟨_, rfl, rfl⟩
  have hspend : SpendsOutput lengthHash exampleGrandchild exampleChild :=
    ⟨_, List.mem_singleton_self _, rfl, by decide⟩
  refine ⟨hall, hhas, fun hstays => ?_⟩
  exact hall exampleGrandchild hstays exampleChild (Or.inl rfl)
    (Relation.TransGen.single ⟨hhas, hspend⟩)

/-- The child stays: its parent is not in the pool. -/
theorem exampleDisconnected_not_removed :
    PoolOk lengthHash exampleChildPool ∧
      ¬ RemovesAll lengthHash exampleChildPool exampleDisconnected := by
  refine ⟨poolOk_exampleChildPool, fun hall => ?_⟩
  have hhas : exampleChildPool.Has lengthHash exampleChild := ⟨_, rfl, rfl⟩
  have hspend : SpendsOutput lengthHash exampleChild exampleDisconnected :=
    ⟨_, List.mem_singleton_self _, rfl, by decide⟩
  have habsent : exampleChildPool.mapTx.find (exampleDisconnected.getHash lengthHash) = none := by
    decide +kernel
  have hstays : (remove lengthHash exampleChildPool exampleDisconnected true).1 =
      exampleChildPool := by
    rw [remove_of_absent habsent]
  refine hall exampleChild ?_ exampleDisconnected (Or.inl rfl)
    (Relation.TransGen.single ⟨hhas, hspend⟩)
  rw [hstays]
  exact hhas

end CTxMemPool

end Hivemind
