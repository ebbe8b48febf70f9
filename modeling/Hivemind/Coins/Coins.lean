import Hivemind.Primitives.Transaction
import Mathlib.Data.List.DropRight
import Mathlib.Algebra.Order.BigOperators.Group.List

/-!
# Coins

`coins.h` and `coins.cpp`: the outputs of a transaction with the spent ones blanked out
(`CCoins`), and the view that maps transaction ids to them.

A view is one flat map here.  A stack of `CCoinsViewCache` layers may keep pruned entries that
the map drops; `HaveInputs`, `AccessCoins` followed by `IsPruned`, and `ModifyCoins` do not tell
the two apart, since `CCoins::operator==` identifies all pruned values.  `Hivemind.Coins.Cache`
compares the two, and says which modifications do tell them apart.

The value of a view is the sum over all its unspent outputs.  A spent output is one of value `-1`
without a script, and an unspendable one is dropped when the coins of a transaction are made, so
neither counts; the lemmas say what each operation adds to the sum, and the supply and the
balance of a block are built from these.

* `CCoinsView.total`: the sum of `nValue` over all unspent outputs.
* `total_setCoins`, `value_spend`, `value_fromTx`: what each operation adds to it.
* `output_spend`: spending one output leaves the others available.
* `haveInputs_iff`: `HaveInputs` says that every input spends an available output.
-/

namespace Hivemind

open Ordered

/-! ## The outputs of one transaction -/

/-- `CCoins`. -/
structure CCoins where
  fCoinBase : Bool := false
  vout : List CTxOut := []
  nHeight : Int := 0
  nVersion : Int32 := 0
  deriving DecidableEq

/-- What an unspent output is worth; a spent one is worth nothing. -/
def CTxOut.unspentValue (o : CTxOut) : Int := if o.isNull then 0 else o.nValue.toInt

namespace CCoins

/-- `Cleanup`: remove spent outputs at the end of `vout`. -/
def cleanup (c : CCoins) : CCoins := { c with vout := c.vout.rdropWhile CTxOut.isNull }

/-- `ClearUnspendable`. -/
def clearUnspendable (c : CCoins) : CCoins :=
  cleanup { c with
    vout := c.vout.map fun o => if isUnspendable o.scriptPubKey then CTxOut.null else o }

/-- `FromTx`. -/
def fromTx (tx : CTransaction) (nHeight : Int) : CCoins :=
  clearUnspendable { fCoinBase := tx.isCoinBase, vout := tx.vout, nHeight, nVersion := tx.nVersion }

/-- The output at `nPos`, unless it is spent. -/
def output (c : CCoins) (nPos : UInt32) : Option CTxOut :=
  c.vout[nPos.toNat]?.filter fun o => !o.isNull

/-- `IsAvailable`. -/
def isAvailable (c : CCoins) (nPos : UInt32) : Bool := (c.output nPos).isSome

/-- `IsPruned`. -/
def isPruned (c : CCoins) : Bool := c.vout.all CTxOut.isNull

/-- `Spend`. -/
def spend (nPos : UInt32) (c : CCoins) : CCoins :=
  if c.isAvailable nPos then cleanup { c with vout := c.vout.set nPos.toNat CTxOut.null } else c

/-- The sum of `nValue` over the unspent outputs. -/
def value (c : CCoins) : Int := (c.vout.map CTxOut.unspentValue).sum

@[simp] theorem value_empty : value {} = 0 := rfl

theorem sum_rdropWhile_isNull (l : List CTxOut) :
    ((l.rdropWhile CTxOut.isNull).map CTxOut.unspentValue).sum =
      (l.map CTxOut.unspentValue).sum := by
  induction l using List.reverseRecOn with
  | nil => simp
  | append_singleton l o ih =>
      rw [List.rdropWhile_concat]
      split_ifs with h
      · rw [ih, List.map_append, List.sum_append]
        simp [CTxOut.unspentValue, h]
      · rfl

@[simp] theorem value_cleanup (c : CCoins) : c.cleanup.value = c.value :=
  sum_rdropWhile_isNull c.vout

theorem value_of_isPruned {c : CCoins} (h : c.isPruned = true) : c.value = 0 := by
  rw [isPruned, List.all_eq_true] at h
  refine List.sum_eq_zero ?_
  intro v hv
  obtain ⟨o, ho, rfl⟩ := List.mem_map.mp hv
  simp [CTxOut.unspentValue, h o ho]

theorem getElem?_rdropWhile_isNull (l : List CTxOut) (n : Nat) :
    (l.rdropWhile CTxOut.isNull)[n]?.filter (fun o => !o.isNull) =
      l[n]?.filter (fun o => !o.isNull) := by
  induction l using List.reverseRecOn with
  | nil => simp
  | append_singleton l o ih =>
      rw [List.rdropWhile_concat]
      split_ifs with h
      · rw [ih, List.getElem?_append]
        split_ifs with hn
        · rfl
        · rw [List.getElem?_eq_none (by omega)]
          cases hk : [o][n - l.length]? with
          | none => rfl
          | some o' =>
              obtain rfl : o' = o := by simpa using List.mem_of_getElem? hk
              rw [Option.filter_some, h]
              rfl
      · rfl

@[simp] theorem output_cleanup (c : CCoins) (n : UInt32) : c.cleanup.output n = c.output n :=
  getElem?_rdropWhile_isNull c.vout n.toNat

theorem output_of_isPruned {c : CCoins} (h : c.isPruned = true) (n : UInt32) :
    c.output n = none := by
  rw [isPruned, List.all_eq_true] at h
  rw [output, Option.filter_eq_none_iff]
  intro o ho
  simp [h o (List.mem_of_getElem? ho)]

theorem output_eq_some {c : CCoins} {n : UInt32} {o : CTxOut} :
    c.output n = some o ↔ c.vout[n.toNat]? = some o ∧ o.isNull = false := by
  rw [output, Option.filter_eq_some_iff, Bool.not_eq_true']

theorem isAvailable_iff {c : CCoins} {n : UInt32} :
    c.isAvailable n = true ↔ ∃ o, c.output n = some o := Option.isSome_iff_exists

/-- Spending an output takes its value. -/
theorem value_spend {c : CCoins} {n : UInt32} {o : CTxOut} (h : c.output n = some o) :
    (c.spend n).value = c.value - o.nValue.toInt := by
  rw [spend, if_pos (isAvailable_iff.mpr ⟨o, h⟩), value_cleanup]
  obtain ⟨hget, hnull⟩ := output_eq_some.mp h
  obtain ⟨hlt, rfl⟩ := List.getElem?_eq_some_iff.mp hget
  have hsplit : c.vout = c.vout.take n.toNat ++ c.vout[n.toNat] :: c.vout.drop (n.toNat + 1) := by
    rw [List.getElem_cons_drop, List.take_append_drop]
  have hzero : CTxOut.null.unspentValue = 0 := rfl
  have hval : c.vout[n.toNat].unspentValue = c.vout[n.toNat].nValue.toInt := by
    simp [CTxOut.unspentValue, hnull]
  have hsum := congrArg (fun l => (List.map CTxOut.unspentValue l).sum) hsplit
  simp only [List.map_append, List.sum_append, List.map_cons, List.sum_cons, hval] at hsum
  simp only [value, List.set_eq_take_append_cons_drop, if_pos hlt, List.map_append, List.sum_append,
    List.map_cons, List.sum_cons, hzero]
  omega

/-- Spending an output leaves the others. -/
theorem output_spend (c : CCoins) (n m : UInt32) :
    (c.spend n).output m = if n = m then none else c.output m := by
  unfold spend
  split_ifs with hav hnm
  · subst hnm
    rw [output_cleanup, output]
    simp only [List.getElem?_set_self']
    cases c.vout[n.toNat]? <;> simp
  · rw [output_cleanup, output, List.getElem?_set_ne]
    · rfl
    · intro hc
      exact hnm (UInt32.toNat_inj.mp hc)
  next hnm =>
    subst hnm
    cases ho : c.output n with
    | none => rfl
    | some o => exact absurd (isAvailable_iff.mpr ⟨o, ho⟩) hav
  · rfl

/-- The outputs of a new transaction, without the unspendable ones. -/
theorem value_fromTx (tx : CTransaction) (nHeight : Int) :
    (fromTx tx nHeight).value =
      (tx.vout.map fun o => if isUnspendable o.scriptPubKey then 0 else o.unspentValue).sum := by
  rw [fromTx, clearUnspendable, value_cleanup, value, List.map_map]
  congr 1
  refine List.map_congr_left ?_
  intro o _
  simp only [Function.comp_apply]
  split_ifs
  · rfl
  · rfl

end CCoins

/-! ## Views -/

/-- A coins view: the coins of each transaction and the best block. -/
structure CCoinsView where
  coins : OrdMap Uint256 CCoins := OrdMap.empty
  bestBlock : Uint256 := Blob.null

namespace CCoinsView

/-- `AccessCoins`. -/
def accessCoins (view : CCoinsView) (txid : Uint256) : Option CCoins := view.coins.find txid

/-- The coins that `ModifyCoins` starts from. -/
def getCoins (view : CCoinsView) (txid : Uint256) : CCoins := (view.accessCoins txid).getD {}

/-- The end of the life of a `CCoinsModifier`: the coins are cleaned up and written
back, and dropped when nothing is left of them. -/
def setCoins (txid : Uint256) (c : CCoins) (view : CCoinsView) : CCoinsView :=
  { view with
    coins := if c.cleanup.isPruned then view.coins.erase txid else view.coins.put txid c.cleanup }

/-- `SetBestBlock`. -/
def setBestBlock (hash : Uint256) (view : CCoinsView) : CCoinsView := { view with bestBlock := hash }

/-- `GetOutputFor`, which asserts that the output is available. -/
def getOutputFor (view : CCoinsView) (o : COutPoint) : Option CTxOut :=
  (view.getCoins o.hash).output o.n

/-- `HaveInputs`. -/
def haveInputs (view : CCoinsView) (tx : CTransaction) : Bool :=
  tx.isCoinBase || tx.vin.all fun txin =>
    match view.accessCoins txin.prevout.hash with
    | none => false
    | some coins => coins.isAvailable txin.prevout.n

/-- The sum of `nValue` over all unspent outputs. -/
def total (view : CCoinsView) : Int := view.coins.total fun _ c => c.value

@[simp] theorem total_setBestBlock (view : CCoinsView) (hash : Uint256) :
    (view.setBestBlock hash).total = view.total := rfl

theorem total_eq (view : CCoinsView) (txid : Uint256) :
    view.total = (view.getCoins txid).value + (view.coins.erase txid).total fun _ c => c.value := by
  rw [getCoins, accessCoins, total]
  cases h : view.coins.find txid with
  | none => simp [OrdMap.erase_of_find_none h]
  | some c => rw [OrdMap.total_erase _ h, Option.getD_some]

/-- Writing coins back replaces the value that was there. -/
theorem total_setCoins (view : CCoinsView) (txid : Uint256) (c : CCoins) :
    (view.setCoins txid c).total = view.total - (view.getCoins txid).value + c.value := by
  rw [total_eq view txid, setCoins]
  simp only [total]
  split_ifs with h
  · rw [← c.value_cleanup, CCoins.value_of_isPruned h]
    omega
  · rw [OrdMap.total_put, CCoins.value_cleanup]
    omega

theorem accessCoins_setCoins_of_ne {view : CCoinsView} {txid txid' : Uint256} (c : CCoins)
    (h : txid' ≠ txid) : (view.setCoins txid c).accessCoins txid' = view.accessCoins txid' := by
  simp only [accessCoins, setCoins]
  split_ifs
  · rw [OrdMap.find_erase, if_neg h]
  · rw [OrdMap.find_put_of_ne _ _ h]

theorem getCoins_setCoins_of_ne {view : CCoinsView} {txid txid' : Uint256} (c : CCoins)
    (h : txid' ≠ txid) : (view.setCoins txid c).getCoins txid' = view.getCoins txid' := by
  rw [getCoins, accessCoins_setCoins_of_ne c h, getCoins]

theorem getCoins_setCoins_self (view : CCoinsView) (txid : Uint256) {c : CCoins}
    (h : c.cleanup.isPruned = false) : (view.setCoins txid c).getCoins txid = c.cleanup := by
  simp only [getCoins, accessCoins, setCoins, h, Bool.false_eq_true, if_false,
    OrdMap.find_put_self, Option.getD_some]

theorem output_getCoins_setCoins (view : CCoinsView) (txid : Uint256) (c : CCoins) (n : UInt32) :
    ((view.setCoins txid c).getCoins txid).output n = c.output n := by
  simp only [getCoins, accessCoins, setCoins]
  split_ifs with h
  · rw [OrdMap.find_erase, if_pos rfl, ← c.output_cleanup, CCoins.output_of_isPruned h]
    rfl
  · rw [OrdMap.find_put_self, Option.getD_some, CCoins.output_cleanup]

/-- `HaveInputs` says that every input spends an available output. -/
theorem haveInputs_iff {view : CCoinsView} {tx : CTransaction} (h : tx.isCoinBase = false) :
    view.haveInputs tx = true ↔
      ∀ txin ∈ tx.vin, ∃ o, view.getOutputFor txin.prevout = some o := by
  rw [haveInputs, h, Bool.false_or, List.all_eq_true]
  refine forall₂_congr fun txin _ => ?_
  simp only [getOutputFor, getCoins]
  cases view.accessCoins txin.prevout.hash with
  | none => simp [CCoins.output]
  | some c => exact CCoins.isAvailable_iff

/-- Spending an outpoint leaves the other outputs of the view. -/
theorem getOutputFor_spend (view : CCoinsView) (o o' : COutPoint) :
    (view.setCoins o.hash ((view.getCoins o.hash).spend o.n)).getOutputFor o' =
      if o = o' then none else view.getOutputFor o' := by
  unfold getOutputFor
  by_cases hh : o.hash = o'.hash
  · rw [← hh, output_getCoins_setCoins, CCoins.output_spend]
    obtain ⟨h, n⟩ := o
    obtain ⟨h', n'⟩ := o'
    simp only at hh
    subst hh
    simp
  · rw [getCoins_setCoins_of_ne _ (Ne.symm hh), if_neg]
    rintro rfl
    exact hh rfl

end CCoinsView
end Hivemind
