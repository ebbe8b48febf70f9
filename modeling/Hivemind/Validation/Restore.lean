import Hivemind.Coins.Cache
import Hivemind.Validation.Tip
import Hivemind.Validation.Undo

/-!
# Taking back a transaction

Each of the two things that `UpdateCoins` does with a view, spending an output and adding the
outputs of a transaction, against the part of `DisconnectBlock` that takes it back. Views are
compared by what they show: pruned coins count as absent.

Spending the last output of a transaction removes its coins, and with them the length of `vout`.
The outpoint that is put back restores that length, because the last output of coins that are
cleaned up is not spent.

Whether an undo entry carries the metadata of the coins is decided when the coins are removed, by
its height; for coins of height zero there is no way to tell, and the promise about them is part
of what is assumed.

* `CCoins.WellFormed`: coins as the node keeps them.
* `restored_vout`: the outputs are put back.
* `restoreInputs_spendInputs`: **the inputs of a transaction**, the last one first.
* `storable_spendInputs`: their undo data comes back from the disk.
* `removeOutputs_fromTx`: its outputs.
-/

namespace Hivemind

open Codecs Ordered Outcomes

/-! ## Coins as the node keeps them -/

/-- Coins as the node keeps them: spent outputs are blank and dropped at the end of
`vout`, and the numbers are those of a block and a transaction. -/
structure CCoins.WellFormed (c : CCoins) : Prop where
  cleanup_eq : c.cleanup = c
  null_eq : ∀ o ∈ c.vout, o.isNull = true → o = CTxOut.null
  script : ∀ o ∈ c.vout, o.scriptPubKey.length ≤ maxSize
  height_nonneg : 0 ≤ c.nHeight
  height_lt : c.nHeight < 2 ^ 31
  version_nonneg : 0 ≤ c.nVersion

namespace CCoinsView

/-- The coins of a transaction, if something is left of them. -/
def shown (view : CCoinsView) (txid : Uint256) : Option CCoins := seen (view.accessCoins txid)

/-- All the coins that the view shows are as the node keeps them. -/
def WellFormed (view : CCoinsView) : Prop := ∀ txid c, view.shown txid = some c → c.WellFormed

/-- The views show the same coins. -/
def Same (view view' : CCoinsView) : Prop := ∀ txid, view.shown txid = view'.shown txid

/-- Coins of height zero that one view shows have not been spent completely in the other. -/
def KeepsUnheighted (view view' : CCoinsView) : Prop :=
  ∀ txid c, view.shown txid = some c → c.nHeight = 0 → view'.shown txid ≠ none

theorem shown_setCoins_self (view : CCoinsView) (txid : Uint256) (c : CCoins) :
    (view.setCoins txid c).shown txid = seen (some c.cleanup) := seen_setCoins view txid c

theorem shown_setCoins_of_ne (view : CCoinsView) {txid txid' : Uint256} (c : CCoins)
    (h : txid' ≠ txid) : (view.setCoins txid c).shown txid' = view.shown txid' := by
  rw [shown, accessCoins_setCoins_of_ne c h, shown]

theorem shown_getCoins (view : CCoinsView) (txid : Uint256) :
    seen (some (view.getCoins txid)) = view.shown txid := seen_getCoins view txid

/-- Writing the same coins to views that show the same. -/
theorem Same.setCoins {view view' : CCoinsView} {txid : Uint256} {c : CCoins}
    (hother : ∀ txid', txid' ≠ txid → view.shown txid' = view'.shown txid')
    (hself : seen (some c.cleanup) = view'.shown txid) : Same (view.setCoins txid c) view' := by
  intro txid'
  by_cases h : txid' = txid
  · subst h
    rw [shown_setCoins_self, hself]
  · rw [shown_setCoins_of_ne view c h, hother txid' h]

theorem getCoins_of_shown {view : CCoinsView} {txid : Uint256} {c : CCoins}
    (h : view.shown txid = some c) : view.getCoins txid = c := by
  rw [← shown_getCoins, seen, Option.filter_eq_some_iff] at h
  exact Option.some.inj h.1

theorem isPruned_of_shown {view : CCoinsView} {txid : Uint256} {c : CCoins}
    (h : view.shown txid = some c) : c.isPruned = false := by
  rw [shown, seen, Option.filter_eq_some_iff, Bool.not_eq_true'] at h
  exact h.2

theorem isPruned_of_shown_none {view : CCoinsView} {txid : Uint256} (h : view.shown txid = none) :
    (view.getCoins txid).isPruned = true := by
  rw [← shown_getCoins, seen, Option.filter_eq_none_iff] at h
  simpa using h

/-- The coins of an output that is available are shown. -/
theorem shown_of_output {view : CCoinsView} {o : COutPoint} {txout : CTxOut}
    (h : view.getOutputFor o = some txout) :
    view.shown o.hash = some (view.getCoins o.hash) := by
  rw [← shown_getCoins]
  refine seen_some_of_not_pruned ?_
  cases hp : (view.getCoins o.hash).isPruned with
  | false => rfl
  | true =>
    rw [getOutputFor, CCoins.output_of_isPruned hp] at h
    cases h

end CCoinsView

/-! ## Spending one output -/

namespace CCoins

theorem spend_of_output {c : CCoins} {n : UInt32} {o : CTxOut} (h : c.output n = some o) :
    c.spend n = cleanup { c with vout := c.vout.set n.toNat CTxOut.null } :=
  if_pos (isAvailable_iff.mpr ⟨o, h⟩)

/-- What was dropped at the end of the outputs is blank. -/
theorem rdropWhile_append_replicate {l : List CTxOut}
    (hnull : ∀ o ∈ l, o.isNull = true → o = CTxOut.null) :
    l = l.rdropWhile CTxOut.isNull ++
      List.replicate (l.length - (l.rdropWhile CTxOut.isNull).length) CTxOut.null := by
  have hsplit : l.rdropWhile CTxOut.isNull ++ l.rtakeWhile CTxOut.isNull = l :=
    List.rdropWhile_append_rtakeWhile
  have hrep : l.rtakeWhile CTxOut.isNull
      = List.replicate (l.rtakeWhile CTxOut.isNull).length CTxOut.null := by
    refine List.eq_replicate_of_mem ?_
    intro o ho
    exact hnull o ((List.rtakeWhile_suffix CTxOut.isNull l).subset ho) (List.mem_rtakeWhile_imp ho)
  have hlen := congrArg List.length hsplit
  rw [List.length_append] at hlen
  have hsub : l.length - (l.rdropWhile CTxOut.isNull).length
      = (l.rtakeWhile CTxOut.isNull).length := by omega
  rw [hsub, ← hrep, hsplit]

/-- Blanking out an output of a list whose last output is not spent: either nothing is
dropped at the end, or the output was the last one. -/
theorem length_rdropWhile_set {l : List CTxOut} {n : Nat}
    (hclean : l.rdropWhile CTxOut.isNull = l) (hn : n < l.length) :
    ((l.set n CTxOut.null).rdropWhile CTxOut.isNull).length = l.length ∨ n + 1 = l.length := by
  by_cases hlast : n + 1 = l.length
  · exact Or.inr hlast
  · refine Or.inl ?_
    have hne : l ≠ [] := by
      rintro rfl
      cases hn
    have hself : (l.set n CTxOut.null).rdropWhile CTxOut.isNull = l.set n CTxOut.null := by
      rw [List.rdropWhile_eq_self_iff]
      intro hne'
      rw [List.getLast_eq_getElem, List.getElem_set_ne (by simp; omega)]
      have hlast' := List.rdropWhile_eq_self_iff.mp hclean hne
      rw [List.getLast_eq_getElem] at hlast'
      simpa using hlast'
    rw [hself, List.length_set]

/-- **The outputs are put back**: filling up with blanks and writing the output gives the
outputs from before it was spent. -/
theorem restored_vout {c : CCoins} (hwf : c.WellFormed) {n : UInt32} {o : CTxOut}
    (h : c.output n = some o) :
    ((c.spend n).vout ++
      List.replicate (n.toNat + 1 - (c.spend n).vout.length) CTxOut.null).set n.toNat o = c.vout := by
  obtain ⟨hget, -⟩ := output_eq_some.mp h
  obtain ⟨hlt, hgetElem⟩ := List.getElem?_eq_some_iff.mp hget
  have hclean : c.vout.rdropWhile CTxOut.isNull = c.vout := congrArg CCoins.vout hwf.cleanup_eq
  have hvout : (c.spend n).vout = (c.vout.set n.toNat CTxOut.null).rdropWhile CTxOut.isNull := by
    rw [spend_of_output h]
    rfl
  have hnull : ∀ o ∈ c.vout.set n.toNat CTxOut.null, o.isNull = true → o = CTxOut.null := by
    intro o' ho' hn
    rcases List.mem_or_eq_of_mem_set ho' with hmem | heq
    · exact hwf.null_eq o' hmem hn
    · exact heq
  have hpad := rdropWhile_append_replicate hnull
  rw [List.length_set] at hpad
  have hle : (c.spend n).vout.length ≤ c.vout.length := by
    rw [hvout]
    exact le_trans (List.rdropWhile_prefix _ _).length_le (le_of_eq (List.length_set ..))
  -- the blanks that are filled up are those that were dropped
  have hcount : n.toNat + 1 - (c.spend n).vout.length = c.vout.length - (c.spend n).vout.length := by
    rcases length_rdropWhile_set hclean hlt with hfull | hlast
    · rw [← hvout] at hfull
      omega
    · omega
  rw [← hvout] at hpad
  rw [hcount, ← hpad, List.set_set, ← hgetElem, List.set_getElem_self]

/-- Write an output into the coins, with blanks before it as needed. -/
def refill (n : UInt32) (o : CTxOut) (c : CCoins) : CCoins :=
  { c with
    vout := (c.vout ++ List.replicate (n.toNat + 1 - c.vout.length) CTxOut.null).set n.toNat o }

theorem refill_spend {c : CCoins} (hwf : c.WellFormed) {n : UInt32} {o : CTxOut}
    (h : c.output n = some o) : (c.spend n).refill n o = c := by
  rw [refill, restored_vout hwf h, spend_of_output h]
  rfl

theorem isAvailable_spend_self (c : CCoins) (n : UInt32) : (c.spend n).isAvailable n = false := by
  rw [isAvailable, output_spend, if_pos rfl]
  rfl

theorem WellFormed.spend {c : CCoins} (hwf : c.WellFormed) (n : UInt32) :
    (c.spend n).WellFormed := by
  unfold CCoins.spend
  split_ifs with hav
  · have hmem : ∀ o ∈ (c.vout.set n.toNat CTxOut.null).rdropWhile CTxOut.isNull,
        o ∈ c.vout ∨ o = CTxOut.null := by
      intro o ho
      exact List.mem_or_eq_of_mem_set ((List.rdropWhile_prefix _ _).subset ho)
    refine ⟨?_, ?_, ?_, hwf.height_nonneg, hwf.height_lt, hwf.version_nonneg⟩
    · rw [cleanup, cleanup, List.rdropWhile_idempotent]
    · intro o ho hn
      rcases hmem o ho with ho | rfl
      · exact hwf.null_eq o ho hn
      · rfl
    · intro o ho
      rcases hmem o ho with ho | rfl
      · exact hwf.script o ho
      · exact Nat.zero_le _
  · exact hwf

end CCoins

/-- The coins that spending an output leaves, as the view shows them. -/
theorem shown_spend {view : CCoinsView} (hwf : view.WellFormed) {o : COutPoint} {txout : CTxOut}
    (h : view.getOutputFor o = some txout) :
    (view.setCoins o.hash ((view.getCoins o.hash).spend o.n)).shown o.hash
      = if ((view.getCoins o.hash).spend o.n).vout = [] then none
        else some ((view.getCoins o.hash).spend o.n) := by
  have hc := hwf _ _ (CCoinsView.shown_of_output h)
  have hclean : ((view.getCoins o.hash).spend o.n).cleanup = (view.getCoins o.hash).spend o.n :=
    (hc.spend o.n).cleanup_eq
  rw [CCoinsView.shown_setCoins_self, hclean]
  split_ifs with hempty
  · refine seen_some_of_pruned ?_
    rw [CCoins.isPruned, hempty]
    rfl
  · refine seen_some_of_not_pruned ?_
    cases hp : ((view.getCoins o.hash).spend o.n).isPruned with
    | false => rfl
    | true =>
      rw [← hclean] at hp hempty
      exact absurd (tidy_cleanup _ hp) hempty

/-- An undo entry with a height brings the metadata of the coins. -/
theorem restoreInput_heighted (out : COutPoint) {undo : CTxInUndo} (view : CCoinsView)
    (h : undo.nHeight ≠ 0) {coins : CCoins}
    (hcoins : coins = ⟨undo.fCoinBase, [], undo.nHeight, undo.nVersion⟩) :
    restoreInput out undo view = (view.setCoins out.hash (coins.refill out.n undo.txout),
      (view.getCoins out.hash).isPruned && !coins.isAvailable out.n) := by
  rw [restoreInput, hcoins]
  simp only [if_pos h]
  rfl

/-- One without a height leaves them to the view. -/
theorem restoreInput_unheighted (out : COutPoint) {undo : CTxInUndo} (view : CCoinsView)
    (h : undo.nHeight = 0) :
    restoreInput out undo view =
      (view.setCoins out.hash ((view.getCoins out.hash).refill out.n undo.txout),
        !(view.getCoins out.hash).isPruned && !(view.getCoins out.hash).isAvailable out.n) := by
  rw [restoreInput]
  simp only [if_neg (not_not.mpr h)]
  rfl

/-- **Putting back one output** takes back that it was spent, on every view that shows
what spending it left. -/
theorem restoreInput_spend {view view₂ : CCoinsView} (hwf : view.WellFormed) {o : COutPoint}
    {txout : CTxOut} (h : view.getOutputFor o = some txout)
    (hheight : ((view.getCoins o.hash).spend o.n).vout = [] → (view.getCoins o.hash).nHeight ≠ 0)
    (hsame : view₂.Same (view.setCoins o.hash ((view.getCoins o.hash).spend o.n))) :
    ∃ view₃, restoreInput o (CTxInUndo.ofSpend txout ((view.getCoins o.hash).spend o.n)) view₂
        = (view₃, true) ∧ view₃.Same view := by
  have hself := hsame o.hash
  rw [shown_spend hwf h] at hself
  have hother : ∀ txid', txid' ≠ o.hash → view₂.shown txid' = view.shown txid' := by
    intro txid' hne
    rw [hsame txid', CCoinsView.shown_setCoins_of_ne _ _ hne]
  have hc := hwf _ _ (CCoinsView.shown_of_output h)
  have hout : (view.getCoins o.hash).output o.n = some txout := h
  have hshown := CCoinsView.shown_getCoins view o.hash
  generalize view.getCoins o.hash = c at *
  -- in both branches the coins that are written back are those from before
  have hback : (view₂.setCoins o.hash ((c.spend o.n).refill o.n txout)).Same view := by
    rw [CCoins.refill_spend hc hout]
    refine CCoinsView.Same.setCoins hother ?_
    rw [hc.cleanup_eq, hshown]
  have hgone := CCoins.isAvailable_spend_self c o.n
  by_cases hempty : (c.spend o.n).vout = []
  · -- the last output: the metadata comes from the undo data
    rw [if_pos hempty] at hself
    have hundo : CTxInUndo.ofSpend txout (c.spend o.n)
        = ⟨txout, (c.spend o.n).fCoinBase, (c.spend o.n).nHeight, (c.spend o.n).nVersion⟩ := by
      rw [CTxInUndo.ofSpend, hempty, if_pos List.isEmpty_nil]
    have hnHeight : (c.spend o.n).nHeight = c.nHeight := by
      rw [CCoins.spend_of_output hout]
      rfl
    have hcoins : c.spend o.n
        = ⟨(c.spend o.n).fCoinBase, [], (c.spend o.n).nHeight, (c.spend o.n).nVersion⟩ := by
      rw [← hempty]
    rw [hundo, restoreInput_heighted o view₂ (by rw [hnHeight]; exact hheight hempty) hcoins,
      CCoinsView.isPruned_of_shown_none hself, hgone]
    exact ⟨_, rfl, hback⟩
  · -- not the last output: the metadata is still in the view
    rw [if_neg hempty] at hself
    have hundo : CTxInUndo.ofSpend txout (c.spend o.n) = ⟨txout, false, 0, 0⟩ := by
      rw [CTxInUndo.ofSpend, if_neg (by simpa using hempty)]
    rw [hundo, restoreInput_unheighted o view₂ rfl, CCoinsView.getCoins_of_shown hself,
      CCoinsView.isPruned_of_shown hself, hgone]
    exact ⟨_, rfl, hback⟩

/-! ## The inputs of a transaction -/

theorem spendInputs_cons {txin : CTxIn} {vin : List CTxIn} {view view' : CCoinsView} {undo : CTxUndo}
    (h : spendInputs (txin :: vin) view = .ok (view', undo)) :
    ∃ txout undo', view.getOutputFor txin.prevout = some txout ∧
      spendInputs vin (view.setCoins txin.prevout.hash
        ((view.getCoins txin.prevout.hash).spend txin.prevout.n)) = .ok (view', undo') ∧
      undo = CTxInUndo.ofSpend txout ((view.getCoins txin.prevout.hash).spend txin.prevout.n) :: undo' := by
  rw [spendInputs] at h
  cases hout : view.getOutputFor txin.prevout with
  | none =>
    rw [hout] at h
    cases h
  | some txout =>
    rw [hout] at h
    obtain ⟨⟨view₁, undo'⟩, hrest, heq⟩ := map_eq_ok.mp h
    cases heq
    exact ⟨txout, undo', rfl, hrest, rfl⟩

/-- What is left of the coins of a transaction has their height, and is well-formed. -/
structure Remains (c c' : CCoins) : Prop where
  height : c'.nHeight = c.nHeight
  wellFormed : c'.WellFormed

theorem shown_spend_some {view : CCoinsView} (hwf : view.WellFormed) {o : COutPoint} {txout : CTxOut}
    (h : view.getOutputFor o = some txout) {txid : Uint256} {c' : CCoins}
    (hshown : (view.setCoins o.hash ((view.getCoins o.hash).spend o.n)).shown txid = some c') :
    ∃ c, view.shown txid = some c ∧ Remains c c' := by
  by_cases htxid : txid = o.hash
  · subst htxid
    rw [shown_spend hwf h] at hshown
    split_ifs at hshown
    have hc := CCoinsView.shown_of_output h
    have hspend := CCoins.spend_of_output (show (view.getCoins o.hash).output o.n = some txout from h)
    obtain rfl := Option.some.inj hshown
    refine ⟨_, hc, ?_, (hwf _ _ hc).spend o.n⟩
    rw [hspend]
    rfl
  · rw [CCoinsView.shown_setCoins_of_ne _ _ htxid] at hshown
    exact ⟨c', hshown, rfl, hwf _ _ hshown⟩

theorem wellFormed_spend {view : CCoinsView} (hwf : view.WellFormed) {o : COutPoint} {txout : CTxOut}
    (h : view.getOutputFor o = some txout) :
    (view.setCoins o.hash ((view.getCoins o.hash).spend o.n)).WellFormed := by
  intro txid c' hshown
  obtain ⟨c, -, hremains⟩ := shown_spend_some hwf h hshown
  exact hremains.wellFormed

/-- Spending inputs leaves what it does not remove. -/
theorem shown_spendInputs {vin : List CTxIn} {view view' : CCoinsView} {undo : CTxUndo}
    (hwf : view.WellFormed) (h : spendInputs vin view = .ok (view', undo)) {txid : Uint256}
    {c' : CCoins} (hshown : view'.shown txid = some c') :
    ∃ c, view.shown txid = some c ∧ Remains c c' := by
  induction vin generalizing view undo with
  | nil =>
    cases h
    exact ⟨c', hshown, rfl, hwf _ _ hshown⟩
  | cons txin vin ih =>
    obtain ⟨txout, undo', hout, hrest, -⟩ := spendInputs_cons h
    obtain ⟨c₁, hshown₁, hremains₁⟩ := ih (wellFormed_spend hwf hout) hrest
    obtain ⟨c, hshown, hremains⟩ := shown_spend_some hwf hout hshown₁
    exact ⟨c, hshown, hremains₁.height.trans hremains.height, hremains₁.wellFormed⟩

theorem shown_spendInputs_none {vin : List CTxIn} {view view' : CCoinsView} {undo : CTxUndo}
    (hwf : view.WellFormed) (h : spendInputs vin view = .ok (view', undo)) {txid : Uint256}
    (hnone : view.shown txid = none) : view'.shown txid = none := by
  cases hshown : view'.shown txid with
  | none => rfl
  | some c' =>
    obtain ⟨c, hc, -⟩ := shown_spendInputs hwf h hshown
    rw [hnone] at hc
    cases hc

/-- The outputs that have been spent are gone, and none has come back. -/
theorem getOutputFor_spendInputs {vin : List CTxIn} {view view' : CCoinsView} {undo : CTxUndo}
    (h : spendInputs vin view = .ok (view', undo)) {o : COutPoint}
    (ho : view.getOutputFor o = none ∨ ∃ txin ∈ vin, txin.prevout = o) :
    view'.getOutputFor o = none := by
  induction vin generalizing view undo with
  | nil =>
    cases h
    rcases ho with ho | ⟨txin, hmem, -⟩
    · exact ho
    · cases hmem
  | cons txin vin ih =>
    obtain ⟨txout, undo', hout, hrest, -⟩ := spendInputs_cons h
    refine ih hrest ?_
    rw [CCoinsView.getOutputFor_spend]
    by_cases heq : txin.prevout = o
    · exact Or.inl (if_pos heq)
    · rw [if_neg heq]
      rcases ho with ho | ⟨txin', hmem, heq'⟩
      · exact Or.inl ho
      · rcases List.mem_cons.mp hmem with rfl | hmem
        · exact absurd heq' heq
        · exact Or.inr ⟨txin', hmem, heq'⟩

section Spend

variable {vin : List CTxIn} {view view' : CCoinsView} {undo : CTxUndo} {o : COutPoint}
  {txout : CTxOut} (hwf : view.WellFormed) (hout : view.getOutputFor o = some txout)
  (hkeeps : view.KeepsUnheighted view')

include hwf hout hkeeps

/-- Spending one of the inputs keeps the promise about coins of height zero. -/
theorem keepsUnheighted_spend :
    (view.setCoins o.hash ((view.getCoins o.hash).spend o.n)).KeepsUnheighted view' := by
  intro txid c₁ hshown₁ hzero
  obtain ⟨c, hshown, hremains⟩ := shown_spend_some hwf hout hshown₁
  exact hkeeps txid c hshown (hremains.height.symm.trans hzero)

/-- Coins that an input removes have not come back at the end, so they had a height. -/
theorem height_ne_zero_of_emptied
    (hrest : spendInputs vin (view.setCoins o.hash ((view.getCoins o.hash).spend o.n)) =
      .ok (view', undo)) (hempty : ((view.getCoins o.hash).spend o.n).vout = []) :
    (view.getCoins o.hash).nHeight ≠ 0 := by
  intro hzero
  have hgone := shown_spend hwf hout
  rw [if_pos hempty] at hgone
  exact hkeeps _ _ (CCoinsView.shown_of_output hout) hzero
    (shown_spendInputs_none (wellFormed_spend hwf hout) hrest hgone)

/-- The undo entry of one input comes back from the disk. -/
theorem storable_ofSpend (hrange : moneyRange txout.nValue = true)
    (hrest : spendInputs vin (view.setCoins o.hash ((view.getCoins o.hash).spend o.n)) =
      .ok (view', undo)) :
    (CTxInUndo.ofSpend txout ((view.getCoins o.hash).spend o.n)).Storable := by
  have hc := hwf _ _ (CCoinsView.shown_of_output hout)
  have hscript : txout.scriptPubKey.length ≤ maxSize :=
    hc.script txout (List.mem_of_getElem? (CCoins.output_eq_some.mp hout).1)
  have hspend := CCoins.spend_of_output (show (view.getCoins o.hash).output o.n = some txout from hout)
  have hheight : ((view.getCoins o.hash).spend o.n).nHeight = (view.getCoins o.hash).nHeight := by
    rw [hspend]
    rfl
  by_cases hempty : ((view.getCoins o.hash).spend o.n).vout = []
  · have hne := height_ne_zero_of_emptied hwf hout hkeeps hrest hempty
    have hsp := hc.spend o.n
    rw [CTxInUndo.ofSpend, hempty, if_pos List.isEmpty_nil]
    refine ⟨hrange, hscript, hsp.height_nonneg, hsp.height_lt, hsp.version_nonneg, ?_⟩
    intro hzero
    exact absurd (hheight.symm.trans hzero) hne
  · rw [CTxInUndo.ofSpend, if_neg (by simpa using hempty)]
    exact ⟨hrange, hscript, le_refl _, (by decide : (0 : Int) < 2 ^ 31),
      (by decide : (0 : Int32) ≤ 0), fun _ => rfl⟩

end Spend

/-- The undo data of a transaction comes back from the disk. -/
theorem storable_spendInputs {vin : List CTxIn} {view view' : CCoinsView} {undo : CTxUndo}
    (hwf : view.WellFormed) (h : spendInputs vin view = .ok (view', undo))
    (hkeeps : view.KeepsUnheighted view')
    (hrange : ∀ txin ∈ vin, ∀ o, view.getOutputFor txin.prevout = some o → moneyRange o.nValue = true) :
    ∀ u ∈ undo, u.Storable := by
  induction vin generalizing view undo with
  | nil =>
    cases h
    intro u hu
    cases hu
  | cons txin vin ih =>
    obtain ⟨txout, undo', hout, hrest, rfl⟩ := spendInputs_cons h
    intro u hu
    rcases List.mem_cons.mp hu with rfl | hu
    · exact storable_ofSpend hwf hout hkeeps (hrange txin List.mem_cons_self txout hout) hrest
    · refine ih (wellFormed_spend hwf hout) hrest (keepsUnheighted_spend hwf hout hkeeps) ?_ u hu
      -- what is still available was available before, with the same value
      intro txin' hmem o' ho'
      rw [CCoinsView.getOutputFor_spend] at ho'
      split_ifs at ho'
      exact hrange txin' (List.mem_cons_of_mem _ hmem) o' ho'

/-- **Putting back the inputs of a transaction**, the last one first. -/
theorem restoreInputs_spendInputs {vin : List CTxIn} {view view' view₂ : CCoinsView} {undo : CTxUndo}
    (hwf : view.WellFormed) (h : spendInputs vin view = .ok (view', undo))
    (hkeeps : view.KeepsUnheighted view') (hsame : view₂.Same view') :
    undo.length = vin.length ∧
      ∃ view₃, restoreInputs (vin.zip undo) (view₂, true) = (view₃, true) ∧ view₃.Same view := by
  induction vin generalizing view undo with
  | nil =>
    cases h
    exact ⟨rfl, view₂, rfl, hsame⟩
  | cons txin vin ih =>
    obtain ⟨txout, undo', hout, hrest, rfl⟩ := spendInputs_cons h
    obtain ⟨hlen, view₃, hrestore, hsame₃⟩ :=
      ih (wellFormed_spend hwf hout) hrest (keepsUnheighted_spend hwf hout hkeeps)
    obtain ⟨view₄, hinput, hsame₄⟩ := restoreInput_spend hwf hout
      (height_ne_zero_of_emptied hwf hout hkeeps hrest) hsame₃
    refine ⟨by rw [List.length_cons, List.length_cons, hlen], view₄, ?_, hsame₄⟩
    rw [List.zip_cons_cons, restoreInputs, hrestore]
    simp only [hinput, Bool.and_self]

/-! ## The outputs of a transaction -/

namespace CCoins

theorem cleanup_cleanup (c : CCoins) : c.cleanup.cleanup = c.cleanup := by
  rw [cleanup, cleanup, List.rdropWhile_idempotent]

theorem cleanup_fromTx (tx : CTransaction) (nHeight : Int) :
    (fromTx tx nHeight).cleanup = fromTx tx nHeight := cleanup_cleanup _

/-- Clearing the unspendable outputs once is enough. -/
theorem clearUnspendable_clearUnspendable (c : CCoins) :
    c.clearUnspendable.clearUnspendable = c.clearUnspendable := by
  have hmap : ∀ o ∈ c.clearUnspendable.vout,
      (if isUnspendable o.scriptPubKey then CTxOut.null else o) = o := by
    intro o ho
    obtain ⟨o', -, rfl⟩ := List.mem_map.mp ((List.rdropWhile_prefix _ _).subset ho)
    by_cases h : isUnspendable o'.scriptPubKey = true
    · rw [if_pos h]
      rfl
    · rw [if_neg h, if_neg h]
  have hvout : c.clearUnspendable.vout.map
      (fun o => if isUnspendable o.scriptPubKey then CTxOut.null else o)
      = c.clearUnspendable.vout := by
    conv_rhs => rw [← List.map_id c.clearUnspendable.vout]
    exact List.map_congr_left hmap
  rw [clearUnspendable, hvout]
  show c.clearUnspendable.cleanup = c.clearUnspendable
  exact cleanup_cleanup _

theorem isPruned_clearUnspendable {c : CCoins} (h : c.isPruned = true) :
    c.clearUnspendable.isPruned = true := by
  rw [isPruned, List.all_eq_true] at h ⊢
  intro o ho
  obtain ⟨o', ho', rfl⟩ := List.mem_map.mp ((List.rdropWhile_prefix _ _).subset ho)
  split_ifs
  · rfl
  · exact h o' ho'

end CCoins

/-- The coins of a new transaction are as the node keeps them. -/
theorem wellFormed_fromTx {tx : CTransaction} {nHeight : Int}
    (hvalue : ∀ o ∈ tx.vout, moneyRange o.nValue = true)
    (hscript : ∀ o ∈ tx.vout, o.scriptPubKey.length ≤ maxSize) (hversion : 0 ≤ tx.nVersion)
    (hpos : 0 ≤ nHeight) (hlt : nHeight < 2 ^ 31) : (CCoins.fromTx tx nHeight).WellFormed := by
  have hmem : ∀ o ∈ (CCoins.fromTx tx nHeight).vout, o = CTxOut.null ∨ o ∈ tx.vout := by
    intro o ho
    obtain ⟨o', ho', rfl⟩ := List.mem_map.mp ((List.rdropWhile_prefix _ _).subset ho)
    split_ifs
    · exact Or.inl rfl
    · exact Or.inr ho'
  refine ⟨CCoins.cleanup_fromTx tx nHeight, ?_, ?_, hpos, hlt, hversion⟩
  · intro o ho hnull
    rcases hmem o ho with h | h
    · exact h
    · -- an output in money range is not blank
      have hrange := (moneyRange_iff.mp (hvalue o h)).1
      rw [beq_iff_eq.mp hnull] at hrange
      exact absurd hrange (by decide)
  · intro o ho
    rcases hmem o ho with rfl | h
    · exact Nat.zero_le _
    · exact hscript o h

/-- **Taking back the outputs of a transaction**, which the view did not have before. -/
theorem removeOutputs_fromTx {env : Env} {nHeight : Int} {tx : CTransaction} {view view₂ : CCoinsView}
    (hversion : 0 ≤ tx.nVersion) (hnone : view.shown (tx.getHash env.hash) = none)
    (hsame : view₂.Same (view.setCoins (tx.getHash env.hash) (CCoins.fromTx tx nHeight))) :
    ∃ view₃, removeOutputs env nHeight tx view₂ = (view₃, true) ∧ view₃.Same view := by
  have hself := hsame (tx.getHash env.hash)
  rw [CCoinsView.shown_setCoins_self, CCoins.cleanup_fromTx] at hself
  have hnonneg : ¬ (CCoins.fromTx tx nHeight).nVersion < 0 := Int32.not_lt.mpr hversion
  have hmatch : ((view₂.getCoins (tx.getHash env.hash)).clearUnspendable).same
      (CCoins.fromTx tx nHeight) = true := by
    rw [CCoins.same]
    cases hp : (CCoins.fromTx tx nHeight).isPruned with
    | true =>
      rw [seen_some_of_pruned hp] at hself
      rw [CCoins.isPruned_clearUnspendable (CCoinsView.isPruned_of_shown_none hself)]
      rfl
    | false =>
      rw [seen_some_of_not_pruned hp] at hself
      rw [CCoinsView.getCoins_of_shown hself, CCoins.fromTx,
        CCoins.clearUnspendable_clearUnspendable]
      simp
  rw [removeOutputs]
  simp only [if_neg hnonneg, hmatch]
  refine ⟨_, rfl, CCoinsView.Same.setCoins ?_ ?_⟩
  · intro txid' hne
    rw [hsame txid', CCoinsView.shown_setCoins_of_ne _ _ hne]
  · rw [hnone]
    rfl

end Hivemind
