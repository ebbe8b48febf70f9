import Hivemind.Validation.Balance
import Hivemind.Validation.BlocksSpec
import Hivemind.Validation.Restore

/-!
# Disconnecting takes back connecting

`DisconnectBlock` on the view that `ConnectBlock` left, with the undo data that it wrote: the
transactions are taken back one by one, the last one first.  Each is taken back on a view that
shows what the transaction left, because those after it have been taken back before.

For that, no transaction of the block may have the id of another.  The node does not check it:
the second of two equal transactions has no inputs left to spend.  A coinbase may repeat an id
that is in the view where BIP30 is not enforced, so the statement is about blocks that overwrite
nothing; and an undo entry that has no height leaves the metadata of the coins to the view, so
coins of height zero may not be spent completely.

* `Connected.txid_notMem`: the transactions of a block that is connected have different ids.
* `disconnectTxs_connectTxs`: taking back the transactions after the coinbase.
* `wellFormed_connectBlock`: connecting keeps the coins as the node keeps them.
* `disconnectBlock_connectBlock`: **taking back a block.**
* `spendingBlock_taken_back`: a block that spends its own outputs.
-/

namespace Hivemind

open Codecs Ordered Outcomes

variable {ctx : Context} {pindex : CBlockIndex}

/-! ## One transaction -/

/-- What is known of a transaction of the block. -/
structure SoundTx (tx : CTransaction) : Prop where
  vin_ne_nil : tx.vin ≠ []
  vin_length : tx.vin.length ≤ maxSize
  value : ∀ o ∈ tx.vout, moneyRange o.nValue = true
  script : ∀ o ∈ tx.vout, o.scriptPubKey.length ≤ maxSize
  version : 0 ≤ tx.nVersion

/-- The inputs that `UpdateCoins` spends. -/
def spentInputs (tx : CTransaction) : List CTxIn := if tx.isCoinBase then [] else tx.vin

theorem sumInputs_range {view : CCoinsView} {nSpendHeight : Int} {acc v : CAmount} {vin : List CTxIn}
    (h : sumInputs view nSpendHeight acc vin = .ok v) :
    ∀ txin ∈ vin, ∀ o, view.getOutputFor txin.prevout = some o → moneyRange o.nValue = true := by
  induction vin generalizing acc with
  | nil =>
    intro txin hmem
    cases hmem
  | cons txin vin ih =>
    simp only [sumInputs, dos, invalid] at h
    split_ifs at h
    cases hout : view.getOutputFor txin.prevout with
    | none =>
      rw [hout] at h
      cases h
    | some txout =>
      simp only [hout] at h
      split_ifs at h with hrange
      simp only [Bool.or_eq_true, Bool.not_eq_true', not_or, Bool.not_eq_false] at hrange
      intro txin' hmem o ho
      rcases List.mem_cons.mp hmem with rfl | hmem
      · rw [hout] at ho
        obtain rfl := Option.some.inj ho
        exact hrange.1
      · exact ih h txin' hmem o ho

/-- One turn of the loop over the transactions, with its undo data. -/
theorem connectTx_spends {st st' : ConnectState} {tx : CTransaction}
    (h : connectTx ctx pindex st tx = .ok st') :
    ∃ view₁ txundo, spendInputs (spentInputs tx) st.view = .ok (view₁, txundo) ∧
      st'.view = view₁.setCoins (tx.getHash ctx.hash) (CCoins.fromTx tx pindex.nHeight) ∧
      st'.undo = st.undo ++ [txundo] ∧
      (∀ txin ∈ spentInputs tx, ∃ o, st.view.getOutputFor txin.prevout = some o) ∧
      ∀ txin ∈ spentInputs tx, ∀ o, st.view.getOutputFor txin.prevout = some o →
        moneyRange o.nValue = true := by
  simp only [connectTx, ite_dos_eq_ok, bind_eq_ok] at h
  obtain ⟨-, st₁, hin, hout⟩ := h
  simp only [connectOutputs, bind_eq_ok, Except.ok.injEq] at hout
  obtain ⟨⟨view, undo⟩, hupd, rfl⟩ := hout
  obtain ⟨⟨view₁, txundo⟩, hspend, heq⟩ := map_eq_ok.mp hupd
  cases heq
  cases hcb : tx.isCoinBase with
  | true =>
    rw [connectInputs, hcb, if_pos rfl] at hin
    obtain rfl := Except.ok.inj hin
    have hnil : spentInputs tx = [] := if_pos hcb
    refine ⟨view₁, txundo, hspend, rfl, rfl, ?_, ?_⟩
    · rw [hnil]
      intro txin hmem
      cases hmem
    · rw [hnil]
      intro txin hmem
      cases hmem
  | false =>
    simp only [connectInputs, hcb, Bool.false_eq_true, if_false, ite_dos_eq_ok, bind_eq_ok,
      raising_eq_ok, Except.ok.injEq] at hin
    obtain ⟨-, n, -, -, vIn, -, vOut, -, checks, hchecks, rfl⟩ := hin
    obtain ⟨hhave, _, _, hsum, -⟩ := checkInputs_ok hcb hchecks
    have hvin : spentInputs tx = tx.vin := by rw [spentInputs, hcb]; rfl
    refine ⟨view₁, txundo, hspend, rfl, rfl, ?_, ?_⟩
    · rw [hvin]
      exact hhave
    · rw [hvin]
      exact sumInputs_range hsum

/-! ## What one transaction leaves -/

/-- The coins of a new transaction are those of its outputs. -/
theorem shown_fromTx {view : CCoinsView} {txid : Uint256} {tx : CTransaction} {nHeight : Int}
    {c : CCoins} (h : (view.setCoins txid (CCoins.fromTx tx nHeight)).shown txid = some c) :
    c = CCoins.fromTx tx nHeight := by
  rw [CCoinsView.shown_setCoins_self, CCoins.cleanup_fromTx, seen, Option.filter_eq_some_iff] at h
  exact (Option.some.inj h.1).symm

section Step

variable {view view₁ : CCoinsView} {tx : CTransaction} {txundo : CTxUndo}
  (txid₀ : Uint256) {nHeight : Int} (hwf : view.WellFormed)
  (hspend : spendInputs (spentInputs tx) view = .ok (view₁, txundo))

include hwf hspend

/-- Coins of another transaction were there before. -/
theorem shown_step_of_ne {txid : Uint256} (hne : txid ≠ txid₀) {c' : CCoins}
    (hshown : (view₁.setCoins txid₀ (CCoins.fromTx tx nHeight)).shown txid = some c') :
    ∃ c, view.shown txid = some c ∧ Remains c c' := by
  rw [CCoinsView.shown_setCoins_of_ne _ _ hne] at hshown
  exact shown_spendInputs hwf hspend hshown

theorem shown_step_none {txid : Uint256} (hne : txid ≠ txid₀) (hnone : view.shown txid = none) :
    (view₁.setCoins txid₀ (CCoins.fromTx tx nHeight)).shown txid = none := by
  rw [CCoinsView.shown_setCoins_of_ne _ _ hne]
  exact shown_spendInputs_none hwf hspend hnone

theorem wellFormed_step (hsound : SoundTx tx) (hpos : 0 ≤ nHeight) (hlt : nHeight < 2 ^ 31) :
    (view₁.setCoins txid₀ (CCoins.fromTx tx nHeight)).WellFormed := by
  intro txid c' hshown
  by_cases h : txid = txid₀
  · subst h
    rw [shown_fromTx hshown]
    exact wellFormed_fromTx hsound.value hsound.script hsound.version hpos hlt
  · obtain ⟨c, -, hremains⟩ := shown_step_of_ne txid₀ hwf hspend h hshown
    exact hremains.wellFormed

/-- A block that has a height leaves no coins of height zero of its own. -/
theorem keepsUnheighted_step (hpos : 0 < nHeight) {view' : CCoinsView}
    (hkeeps : view.KeepsUnheighted view') :
    (view₁.setCoins txid₀ (CCoins.fromTx tx nHeight)).KeepsUnheighted view' := by
  intro txid c' hshown hzero
  by_cases h : txid = txid₀
  · subst h
    rw [shown_fromTx hshown] at hzero
    have hheight : (CCoins.fromTx tx nHeight).nHeight = nHeight := rfl
    omega
  · obtain ⟨c, hc, hremains⟩ := shown_step_of_ne txid₀ hwf hspend h hshown
    exact hkeeps txid c hc (hremains.height.symm.trans hzero)

end Step

/-! ## Runs of transactions -/

theorem connectTxs_cons {st st' : ConnectState} {tx : CTransaction} {vtx : List CTransaction}
    (h : connectTxs ctx pindex st (tx :: vtx) = .ok st') :
    ∃ st₁, connectTx ctx pindex st tx = .ok st₁ ∧ connectTxs ctx pindex st₁ vtx = .ok st' :=
  bind_eq_ok.mp h

/-- The transactions have ids that the view does not show, and different ones. -/
structure FreshTxs (hash : Bytes → Uint256) (view : CCoinsView) (vtx : List CTransaction) : Prop where
  nodup : (vtx.map (CTransaction.getHash hash)).Nodup
  absent : ∀ tx ∈ vtx, view.shown (tx.getHash hash) = none

/-- The height of a block that is not the first one. -/
def HasHeight (pindex : CBlockIndex) : Prop := 0 < pindex.nHeight ∧ pindex.nHeight < 2 ^ 31

theorem FreshTxs.ne {hash : Bytes → Uint256} {view : CCoinsView} {tx : CTransaction}
    {vtx : List CTransaction} (h : FreshTxs hash view (tx :: vtx)) {tx' : CTransaction}
    (hmem : tx' ∈ vtx) : tx'.getHash hash ≠ tx.getHash hash := by
  have hnodup := h.nodup
  rw [List.map_cons, List.nodup_cons] at hnodup
  intro heq
  exact hnodup.1 (List.mem_map.mpr ⟨tx', hmem, heq⟩)

/-- The transactions that are left are still fresh after the first one. -/
theorem FreshTxs.step {view view₁ : CCoinsView} {tx : CTransaction} {vtx : List CTransaction}
    {txundo : CTxUndo} {nHeight : Int} {hash : Bytes → Uint256} (h : FreshTxs hash view (tx :: vtx))
    (hwf : view.WellFormed) (hspend : spendInputs (spentInputs tx) view = .ok (view₁, txundo)) :
    FreshTxs hash (view₁.setCoins (tx.getHash hash) (CCoins.fromTx tx nHeight)) vtx := by
  have hnodup := h.nodup
  rw [List.map_cons, List.nodup_cons] at hnodup
  refine ⟨hnodup.2, ?_⟩
  intro tx' hmem
  exact shown_step_none _ hwf hspend (h.ne hmem) (h.absent tx' (List.mem_cons_of_mem _ hmem))

/-- Coins that are gone stay gone, unless a transaction with their id follows. -/
theorem shown_connectTxs_none {st st' : ConnectState} {vtx : List CTransaction}
    (h : connectTxs ctx pindex st vtx = .ok st') (hsound : ∀ tx ∈ vtx, SoundTx tx)
    (hheight : HasHeight pindex) (hwf : st.view.WellFormed) {txid : Uint256}
    (hne : ∀ tx ∈ vtx, txid ≠ tx.getHash ctx.hash) (hnone : st.view.shown txid = none) :
    st'.view.shown txid = none := by
  induction vtx generalizing st with
  | nil =>
    cases h
    exact hnone
  | cons tx vtx ih =>
    obtain ⟨st₁, hstep, hrest⟩ := connectTxs_cons h
    obtain ⟨view₁, txundo, hspend, hview, -⟩ := connectTx_spends hstep
    refine ih hrest (fun tx' hmem => hsound tx' (List.mem_cons_of_mem _ hmem)) ?_
      (fun tx' hmem => hne tx' (List.mem_cons_of_mem _ hmem)) ?_
    · rw [hview]
      exact wellFormed_step _ hwf hspend (hsound tx List.mem_cons_self) (le_of_lt hheight.1) hheight.2
    · rw [hview]
      exact shown_step_none _ hwf hspend (hne tx List.mem_cons_self) hnone

/-- The coins stay as the node keeps them. -/
theorem wellFormed_connectTxs {st st' : ConnectState} {vtx : List CTransaction}
    (h : connectTxs ctx pindex st vtx = .ok st') (hsound : ∀ tx ∈ vtx, SoundTx tx)
    (hpos : 0 ≤ pindex.nHeight) (hlt : pindex.nHeight < 2 ^ 31) (hwf : st.view.WellFormed) :
    st'.view.WellFormed := by
  induction vtx generalizing st with
  | nil =>
    cases h
    exact hwf
  | cons tx vtx ih =>
    obtain ⟨st₁, hstep, hrest⟩ := connectTxs_cons h
    obtain ⟨view₁, txundo, hspend, hview, -⟩ := connectTx_spends hstep
    refine ih hrest (fun tx' hmem => hsound tx' (List.mem_cons_of_mem _ hmem)) ?_
    rw [hview]
    exact wellFormed_step _ hwf hspend (hsound tx List.mem_cons_self) hpos hlt

/-- **Taking back the transactions after the coinbase**, the last one first; their undo
data comes back from the disk. -/
theorem disconnectTxs_connectTxs {st st' : ConnectState} {vtx : List CTransaction}
    {view₂ : CCoinsView} (h : connectTxs ctx pindex st vtx = .ok st')
    (hsound : ∀ tx ∈ vtx, SoundTx tx) (hcb : ∀ tx ∈ vtx, tx.isCoinBase = false)
    (hheight : HasHeight pindex) (hwf : st.view.WellFormed) (hfresh : FreshTxs ctx.hash st.view vtx)
    (hkeeps : st.view.KeepsUnheighted st'.view) (hsame : view₂.Same st'.view) :
    ∃ undos, st'.undo = st.undo ++ undos ∧ undos.length = vtx.length ∧
      (∀ txundo ∈ undos, txundo.length ≤ maxSize ∧ ∀ u ∈ txundo, u.Storable) ∧
      ∃ view₃, disconnectTxs ctx.toEnv pindex.nHeight (vtx.zip undos) (view₂, true) =
        .ok (view₃, true) ∧ view₃.Same st.view := by
  induction vtx generalizing st with
  | nil =>
    cases h
    exact ⟨[], (List.append_nil _).symm, rfl, by simp, view₂, rfl, hsame⟩
  | cons tx vtx ih =>
    obtain ⟨st₁, hstep, hrest⟩ := connectTxs_cons h
    obtain ⟨view₁, txundo, hspend, hview, hundo, -, hrange⟩ := connectTx_spends hstep
    have htx := hsound tx List.mem_cons_self
    have hsound₁ : ∀ tx ∈ vtx, SoundTx tx := fun tx' hmem => hsound tx' (List.mem_cons_of_mem _ hmem)
    have hwf₁ : st₁.view.WellFormed := by
      rw [hview]
      exact wellFormed_step _ hwf hspend htx (le_of_lt hheight.1) hheight.2
    have hkeeps₁ : st₁.view.KeepsUnheighted st'.view := by
      rw [hview]
      exact keepsUnheighted_step _ hwf hspend hheight.1 hkeeps
    have hfresh₁ : FreshTxs ctx.hash st₁.view vtx := by
      rw [hview]
      exact hfresh.step hwf hspend
    obtain ⟨undos, hundos, hlen, hstorable, view₃, hdisc, hsame₃⟩ := ih hrest hsound₁
      (fun tx' hmem => hcb tx' (List.mem_cons_of_mem _ hmem)) hwf₁ hfresh₁ hkeeps₁
    -- what this transaction removes from the view is gone at the end of the block
    have hkeepsSpend : st.view.KeepsUnheighted view₁ := by
      intro txid c hshown hzero hnone
      have hne : ∀ tx' ∈ tx :: vtx, txid ≠ tx'.getHash ctx.hash := by
        intro tx' hmem heq
        rw [heq, hfresh.absent tx' hmem] at hshown
        cases hshown
      refine hkeeps txid c hshown hzero (shown_connectTxs_none hrest hsound₁ hheight hwf₁
        (fun tx' hmem => hne tx' (List.mem_cons_of_mem _ hmem)) ?_)
      rw [hview, CCoinsView.shown_setCoins_of_ne _ _ (hne tx List.mem_cons_self)]
      exact hnone
    have hvin : spentInputs tx = tx.vin := by
      rw [spentInputs, hcb tx List.mem_cons_self]
      rfl
    have htxStorable := storable_spendInputs hwf hspend hkeepsSpend hrange
    rw [hvin] at hspend
    rw [hview] at hsame₃
    obtain ⟨view₄, hremove, hsame₄⟩ := @removeOutputs_fromTx ctx.toEnv pindex.nHeight tx _ _
      htx.version (shown_spendInputs_none hwf hspend (hfresh.absent tx List.mem_cons_self)) hsame₃
    obtain ⟨htxlen, view₅, hrestore, hsame₅⟩ := restoreInputs_spendInputs hwf hspend hkeepsSpend hsame₄
    refine ⟨txundo :: undos, ?_, by rw [List.length_cons, List.length_cons, hlen], ?_, view₅, ?_, hsame₅⟩
    · rw [hundos, hundo, List.append_assoc, List.singleton_append]
    · intro txundo' hmem
      rcases List.mem_cons.mp hmem with rfl | hmem
      · exact ⟨by rw [htxlen]; exact htx.vin_length, htxStorable⟩
      · exact hstorable txundo' hmem
    · rw [List.zip_cons_cons, disconnectTxs, hdisc]
      show disconnectTx ctx.toEnv pindex.nHeight tx txundo (view₃, true) = _
      rw [disconnectTx]
      simp only [hremove, if_neg (not_not.mpr htxlen), Bool.and_self, hrestore]

/-! ## Different transactions -/

/-- What holds after some transactions of a block have been connected on a view that shows
none of the block: they have different ids, the outputs they spent are gone, and nothing
has come from anywhere else. -/
structure Connected (hash : Bytes → Uint256) (view₀ : CCoinsView) (done : List CTransaction)
    (view : CCoinsView) : Prop where
  nodup : (done.map (CTransaction.getHash hash)).Nodup
  known : ∀ txid c, view.shown txid = some c →
    view₀.shown txid ≠ none ∨ txid ∈ done.map (CTransaction.getHash hash)
  spent : ∀ tx ∈ done, ∀ txin ∈ spentInputs tx, view.getOutputFor txin.prevout = none ∧
    (view₀.shown txin.prevout.hash ≠ none ∨
      txin.prevout.hash ∈ done.map (CTransaction.getHash hash))

/-- The next transaction is not one of those before it, because its inputs are there. -/
theorem Connected.txid_notMem {hash : Bytes → Uint256} {view₀ view : CCoinsView}
    {done : List CTransaction} (h : Connected hash view₀ done view) {tx : CTransaction}
    (hvin : spentInputs tx ≠ [])
    (hcollision : ∀ tx' ∈ done, tx'.getHash hash = tx.getHash hash → tx' = tx)
    (havailable : ∀ txin ∈ spentInputs tx, ∃ o, view.getOutputFor txin.prevout = some o) :
    tx.getHash hash ∉ done.map (CTransaction.getHash hash) := by
  intro hmem
  obtain ⟨tx', hmem', heq⟩ := List.mem_map.mp hmem
  obtain rfl := hcollision tx' hmem' heq
  obtain ⟨txin, hin⟩ := List.exists_mem_of_ne_nil _ hvin
  obtain ⟨o, ho⟩ := havailable txin hin
  rw [(h.spent tx' hmem' txin hin).1] at ho
  cases ho

/-- One more transaction, with an id that neither the view nor those before it have. -/
theorem Connected.step {hash : Bytes → Uint256} {view₀ view view₁ : CCoinsView}
    {done : List CTransaction} {tx : CTransaction} {txundo : CTxUndo} {nHeight : Int}
    (h : Connected hash view₀ done view) (hwf : view.WellFormed)
    (hspend : spendInputs (spentInputs tx) view = .ok (view₁, txundo))
    (havailable : ∀ txin ∈ spentInputs tx, ∃ o, view.getOutputFor txin.prevout = some o)
    (habsent : view₀.shown (tx.getHash hash) = none)
    (hnew : tx.getHash hash ∉ done.map (CTransaction.getHash hash)) :
    Connected hash view₀ (done ++ [tx])
      (view₁.setCoins (tx.getHash hash) (CCoins.fromTx tx nHeight)) := by
  have hids : (done ++ [tx]).map (CTransaction.getHash hash)
      = done.map (CTransaction.getHash hash) ++ [tx.getHash hash] := by simp
  -- an output that was known before has another id than the new transaction
  have hother : ∀ o : COutPoint, (view₀.shown o.hash ≠ none ∨
      o.hash ∈ done.map (CTransaction.getHash hash)) → o.hash ≠ tx.getHash hash := by
    rintro o (hshown | hdone) heq
    · rw [heq] at hshown
      exact hshown habsent
    · rw [heq] at hdone
      exact hnew hdone
  have hgone : ∀ o : COutPoint, (view₀.shown o.hash ≠ none ∨
      o.hash ∈ done.map (CTransaction.getHash hash)) → view₁.getOutputFor o = none →
      (view₁.setCoins (tx.getHash hash) (CCoins.fromTx tx nHeight)).getOutputFor o = none := by
    intro o hknown hnone
    rw [CCoinsView.getOutputFor, CCoinsView.getCoins_setCoins_of_ne _ (hother o hknown)]
    exact hnone
  refine ⟨?_, ?_, ?_⟩
  · rw [hids, List.nodup_append]
    refine ⟨h.nodup, List.nodup_singleton _, ?_⟩
    intro a ha b hb heq
    rw [List.mem_singleton.mp hb] at heq
    rw [heq] at ha
    exact hnew ha
  · intro txid c hshown
    rw [hids, List.mem_append, List.mem_singleton]
    by_cases htxid : txid = tx.getHash hash
    · exact Or.inr (Or.inr htxid)
    · obtain ⟨c₁, hc₁, -⟩ := shown_step_of_ne _ hwf hspend htxid hshown
      rcases h.known txid c₁ hc₁ with hold | hdone
      · exact Or.inl hold
      · exact Or.inr (Or.inl hdone)
  · intro tx' hmem txin hin
    rw [hids, List.mem_append, List.mem_singleton]
    rcases List.mem_append.mp hmem with hmem | hmem
    · obtain ⟨hnone, hknown⟩ := h.spent tx' hmem txin hin
      refine ⟨hgone _ hknown (getOutputFor_spendInputs hspend (Or.inl hnone)), ?_⟩
      rcases hknown with hold | hdone
      · exact Or.inl hold
      · exact Or.inr (Or.inl hdone)
    · obtain rfl := List.mem_singleton.mp hmem
      obtain ⟨o, ho⟩ := havailable txin hin
      have hknown := h.known _ _ (CCoinsView.shown_of_output ho)
      refine ⟨hgone _ hknown (getOutputFor_spendInputs hspend (Or.inr ⟨txin, hin, rfl⟩)), ?_⟩
      rcases hknown with hold | hdone
      · exact Or.inl hold
      · exact Or.inr (Or.inl hdone)

theorem connected_connectTxs {view₀ : CCoinsView} {st st' : ConnectState}
    {done vtx : List CTransaction} (h : connectTxs ctx pindex st vtx = .ok st')
    (hdone : Connected ctx.hash view₀ done st.view) (hwf : st.view.WellFormed)
    (hsound : ∀ tx ∈ vtx, SoundTx tx) (hcb : ∀ tx ∈ vtx, tx.isCoinBase = false)
    (hheight : HasHeight pindex) (habsent : ∀ tx ∈ vtx, view₀.shown (tx.getHash ctx.hash) = none)
    (hcollision : ∀ tx ∈ done ++ vtx, ∀ tx' ∈ done ++ vtx,
      tx.getHash ctx.hash = tx'.getHash ctx.hash → tx = tx') :
    Connected ctx.hash view₀ (done ++ vtx) st'.view := by
  induction vtx generalizing st done with
  | nil =>
    cases h
    rw [List.append_nil]
    exact hdone
  | cons tx vtx ih =>
    obtain ⟨st₁, hstep, hrest⟩ := connectTxs_cons h
    obtain ⟨view₁, txundo, hspend, hview, -, havailable, -⟩ := connectTx_spends hstep
    have htx := hsound tx List.mem_cons_self
    have hvin : spentInputs tx ≠ [] := by
      rw [spentInputs, hcb tx List.mem_cons_self]
      exact htx.vin_ne_nil
    have hnew := hdone.txid_notMem hvin (fun tx' hmem heq => hcollision tx'
      (List.mem_append_left _ hmem) tx (List.mem_append_right _ List.mem_cons_self) heq) havailable
    have hsplit : done ++ tx :: vtx = (done ++ [tx]) ++ vtx := by simp
    rw [hsplit] at hcollision ⊢
    refine ih hrest ?_ ?_ (fun tx' hmem => hsound tx' (List.mem_cons_of_mem _ hmem))
      (fun tx' hmem => hcb tx' (List.mem_cons_of_mem _ hmem))
      (fun tx' hmem => habsent tx' (List.mem_cons_of_mem _ hmem)) hcollision
    · rw [hview]
      exact hdone.step hwf hspend havailable (habsent tx List.mem_cons_self) hnew
    · rw [hview]
      exact wellFormed_step _ hwf hspend htx (le_of_lt hheight.1) hheight.2

/-! ## The transactions of a block that passes -/

theorem length_le_flatMap {α : Type} {f : α → Bytes} (hf : ∀ x, f x ≠ []) (xs : List α) :
    xs.length ≤ (xs.flatMap f).length := by
  induction xs with
  | nil => exact Nat.zero_le _
  | cons x xs ih =>
    have hx := List.length_pos_of_ne_nil (hf x)
    rw [List.flatMap_cons, List.length_append, List.length_cons]
    omega

theorem length_le_flatMap_of_mem {α : Type} {f : α → Bytes} {x : α} {xs : List α} (hx : x ∈ xs) :
    (f x).length ≤ (xs.flatMap f).length :=
  (List.sublist_flatten_of_mem (List.mem_map.mpr ⟨x, hx, rfl⟩)).length_le

theorem length_script_le (o : CTxOut) : o.scriptPubKey.length ≤ (CTxOut.codec.ser o).length := by
  have hbytes := length_le_flatMap (f := Codec.u8.ser) (fun x => List.cons_ne_nil x []) o.scriptPubKey
  have hser : CTxOut.codec.ser o = Codec.i64.ser o.nValue ++
      (Codec.writeSize (UInt64.ofNat o.scriptPubKey.length) ++
        o.scriptPubKey.flatMap Codec.u8.ser) := rfl
  rw [hser, List.length_append, List.length_append]
  omega

/-- What `CheckTransaction` leaves of a transaction, with the version that is assumed. -/
theorem soundTx_of_check {tx : CTransaction} (h : checkTransaction tx = .ok ())
    (hversion : 0 ≤ tx.nVersion) : SoundTx tx := by
  have hvalue := (checkTransaction_ok h).1
  simp only [checkTransaction, ite_dos_eq_ok, bind_eq_ok] at h
  obtain ⟨hvin, -, hsize, -⟩ := h
  have hsize : (CTransaction.codec.ser tx).length ≤ 1000000 := not_lt.mp hsize
  have hser : CTransaction.codec.ser tx = Codec.i32.ser tx.nVersion ++
      ((Codec.writeSize (UInt64.ofNat tx.vin.length) ++ tx.vin.flatMap CTxIn.codec.ser) ++
        ((Codec.writeSize (UInt64.ofNat tx.vout.length) ++ tx.vout.flatMap CTxOut.codec.ser) ++
          Codec.u32.ser tx.nLockTime)) := rfl
  rw [hser] at hsize
  simp only [List.length_append] at hsize
  refine ⟨by simpa using hvin, ?_, hvalue, ?_, hversion⟩
  · have hne : ∀ txin : CTxIn, CTxIn.codec.ser txin ≠ [] := by
      intro txin hnil
      have hlen := congrArg List.length hnil
      have hin : CTxIn.codec.ser txin = COutPoint.codec.ser txin.prevout ++
          (stringCodec.ser txin.scriptSig ++ Codec.u32.ser txin.nSequence) := rfl
      have hseq : (Codec.u32.ser txin.nSequence).length = 4 := length_leBytes 4 _
      rw [hin, List.length_append, List.length_append, hseq] at hlen
      exact absurd hlen (by simp)
    have hcount := length_le_flatMap hne tx.vin
    show tx.vin.length ≤ 0x02000000
    omega
  · intro o ho
    have hscript := length_script_le o
    have hmem := length_le_flatMap_of_mem (f := CTxOut.codec.ser) ho
    show o.scriptPubKey.length ≤ 0x02000000
    omega

theorem checkBlock_count {block : CBlock} {fCheckPOW fCheckMerkleRoot : Bool}
    (h : checkBlock ctx block fCheckPOW fCheckMerkleRoot = .ok ()) :
    block.vtx.length ≤ maxBlockSize := by
  simp only [checkBlock, bind_eq_ok] at h
  obtain ⟨⟨⟩, -, h⟩ := h
  split_ifs at h
  simp only [checkBlockTransactions, ite_dos_eq_ok, Bool.or_eq_true, not_or, List.isEmpty_iff,
    decide_eq_true_eq, not_lt] at h
  exact h.1.1.2

/-- With BIP30, the view shows none of the transactions of the block. -/
theorem absent_of_not_overwrites {env : Env} {view : CCoinsView} {block : CBlock}
    (h : overwrites env view block = false) :
    ∀ tx ∈ block.vtx, view.shown (tx.getHash env.hash) = none := by
  intro tx hmem
  rw [overwrites, List.any_eq_false] at h
  have htx := h tx hmem
  rw [CCoinsView.shown]
  cases hc : view.accessCoins (tx.getHash env.hash) with
  | none => rfl
  | some coins =>
    rw [hc] at htx
    exact seen_some_of_pruned (by simpa using htx)

/-! ## Taking back a block -/

/-- The undo data of a block as it is read back from what `ConnectBlock` wrote. -/
def Disk.reread (env : Env) (secp : Secp256k1) (pindex : CBlockIndex) (disk : Disk) :
    Except Stop Disk :=
  match disk.undo.find pindex.getBlockHash with
  | none => .error .failed
  | some blockundo =>
    let hashPrev := pindex.pprev.getD Blob.null
    (undoReadFromDisk env secp hashPrev (undoWriteToDisk env secp hashPrev blockundo)).map
      fun blockundo => { disk with undo := disk.undo.put pindex.getBlockHash blockundo }

/-- **Taking back the transactions of a block** that passes the checks: the undo data
comes back from the disk, and the view is the one from before. -/
theorem disconnect_checked {block : CBlock} {view : CCoinsView} {st : ConnectState}
    (hcheck : connectCheck ctx block pindex false view = .ok st) (hwf : view.WellFormed)
    (hversion : ∀ tx ∈ block.vtx, 0 ≤ tx.nVersion) (hbip30 : enforceBIP30 pindex = true)
    (hheight : HasHeight pindex)
    (hcollision : ∀ tx ∈ block.vtx, ∀ tx' ∈ block.vtx,
      tx.getHash ctx.hash = tx'.getHash ctx.hash → tx = tx')
    (hkeeps : view.KeepsUnheighted st.view) {view₂ : CCoinsView} (hsame : view₂.Same st.view) :
    ∃ cb vtx view₃ view₄, block.vtx = cb :: vtx ∧ st.undo.tail.length = vtx.length ∧
      StorableUndo st.undo.tail ∧
      disconnectTxs ctx.toEnv pindex.nHeight (vtx.zip st.undo.tail) (view₂, true) = .ok (view₃, true) ∧
      removeOutputs ctx.toEnv pindex.nHeight cb view₃ = (view₄, true) ∧ view₄.Same view := by
  obtain ⟨hblock, -, hoverwrites, ⟨offset, htxs⟩, -⟩ := connectCheck_ok hcheck
  rw [hbip30, Bool.true_and] at hoverwrites
  have habsent := absent_of_not_overwrites hoverwrites
  obtain ⟨htxok, cb, vtx, hvtx, hcb, hothers⟩ := checkBlock_ok hblock
  have hcount := checkBlock_count hblock
  have hsound : ∀ tx ∈ block.vtx, SoundTx tx :=
    fun tx hmem => soundTx_of_check (htxok tx hmem) (hversion tx hmem)
  rw [hvtx] at htxs habsent hsound hcollision hcount
  have hsoundVtx : ∀ tx ∈ vtx, SoundTx tx := fun tx hmem => hsound tx (List.mem_cons_of_mem _ hmem)
  have hsoundCb := hsound cb List.mem_cons_self
  -- the coinbase spends nothing
  obtain ⟨st₁, hstep, hrest⟩ := connectTxs_cons htxs
  obtain ⟨view₁, txundo, hspend, hview, hundo, -⟩ := connectTx_spends hstep
  have hnil : spentInputs cb = [] := if_pos hcb
  have hview₁ : view₁ = view := by
    rw [hnil] at hspend
    cases hspend
    rfl
  subst hview₁
  have hwf₁ : st₁.view.WellFormed := by
    rw [hview]
    exact wellFormed_step _ hwf hspend hsoundCb (le_of_lt hheight.1) hheight.2
  have hkeeps₁ : st₁.view.KeepsUnheighted st.view := by
    rw [hview]
    exact keepsUnheighted_step _ hwf hspend hheight.1 hkeeps
  have hcbAbsent := habsent cb List.mem_cons_self
  -- the ids are different, because the inputs of the transactions were there
  have hstart : Connected ctx.hash view₁ [] view₁ :=
    ⟨List.nodup_nil, fun txid c h => Or.inl (by rw [h]; simp), fun tx hmem => absurd hmem (by simp)⟩
  have hafterCb : Connected ctx.hash view₁ [cb] st₁.view := by
    rw [hview]
    exact hstart.step hwf hspend (by rw [hnil]; simp) hcbAbsent (by simp)
  have hdone := connected_connectTxs hrest hafterCb hwf₁ hsoundVtx hothers hheight
    (fun tx hmem => habsent tx (List.mem_cons_of_mem _ hmem)) hcollision
  have hfresh : FreshTxs ctx.hash view₁ (cb :: vtx) := ⟨hdone.nodup, habsent⟩
  have hfresh₁ : FreshTxs ctx.hash st₁.view vtx := by
    rw [hview]
    exact hfresh.step hwf hspend
  obtain ⟨undos, hundos, hlen, hstorable, view₃, hdisc, hsame₃⟩ :=
    disconnectTxs_connectTxs hrest hsoundVtx hothers hheight hwf₁ hfresh₁ hkeeps₁ hsame
  have htail : st.undo.tail = undos := by
    rw [hundos, hundo]
    rfl
  rw [hview] at hsame₃
  obtain ⟨view₄, hremove, hsame₄⟩ := @removeOutputs_fromTx ctx.toEnv pindex.nHeight cb _ _
    hsoundCb.version hcbAbsent hsame₃
  rw [htail]
  refine ⟨cb, vtx, view₃, view₄, hvtx, hlen, ⟨?_, hstorable⟩, hdisc, hremove, hsame₄⟩
  rw [hlen]
  have hmax : (cb :: vtx).length ≤ 1000000 := hcount
  rw [List.length_cons] at hmax
  show vtx.length ≤ 0x02000000
  omega

/-- Connecting a block keeps the coins as the node keeps them, so `WellFormed` holds in
every view that is built from an empty one. -/
theorem wellFormed_connectBlock {block : CBlock} {view view' : CCoinsView} {disk disk' : Disk}
    (hconnect : connectBlock ctx block pindex false view disk = (.ok view', disk'))
    (hversion : ∀ tx ∈ block.vtx, 0 ≤ tx.nVersion) (hpos : 0 ≤ pindex.nHeight)
    (hlt : pindex.nHeight < 2 ^ 31) (hwf : view.WellFormed) : view'.WellFormed := by
  obtain ⟨st, objs, hcheck, -, -, rfl, -⟩ := connectBlock_ok_iff.mp hconnect
  obtain ⟨hblock, -, -, ⟨offset, htxs⟩, -⟩ := connectCheck_ok hcheck
  have htxok := (checkBlock_ok hblock).1
  exact wellFormed_connectTxs htxs
    (fun tx hmem => soundTx_of_check (htxok tx hmem) (hversion tx hmem)) hpos hlt hwf

/-- `DisconnectBlock`, when all goes well. -/
theorem disconnectBlock_of_clean {block : CBlock} {view view₃ view₄ : CCoinsView} {disk : Disk}
    {blockUndo : CBlockUndo} {cb : CTransaction} {vtx : List CTransaction}
    (hbest : pindex.getBlockHash = view.bestBlock)
    (hundo : disk.undo.find pindex.getBlockHash = some blockUndo) (hvtx : block.vtx = cb :: vtx)
    (hlen : blockUndo.length = vtx.length)
    (hdisc : disconnectTxs ctx.toEnv pindex.nHeight (vtx.zip blockUndo) (view, true) =
      .ok (view₃, true))
    (hremove : removeOutputs ctx.toEnv pindex.nHeight cb view₃ = (view₄, true)) :
    disconnectBlock ctx block pindex view disk =
      .ok (view₄.setBestBlock (pindex.pprev.getD Blob.null), true) := by
  rw [disconnectBlock, if_neg (not_not.mpr hbest), hundo, hvtx]
  simp only [if_neg (not_not.mpr hlen), hdisc]
  show Except.ok ((removeOutputs ctx.toEnv pindex.nHeight cb view₃).1.setBestBlock _,
    true && (removeOutputs ctx.toEnv pindex.nHeight cb view₃).2) = _
  rw [hremove]
  rfl

/-- **Disconnecting takes back connecting.**  `ConnectBlock` succeeds on a view, writes the
undo data, and spends no coins of height zero completely.  Then the undo data is read back,
and `DisconnectBlock` reports that all was clean and leaves the view from before. -/
theorem disconnectBlock_connectBlock (ctx : Context) {secp : Secp256k1} (hsecp : secp.Inverts)
    (block : CBlock) (pindex : CBlockIndex) (view : CCoinsView) (disk : Disk)
    {view' : CCoinsView} {disk' : Disk}
    (hconnect : connectBlock ctx block pindex false view disk = (.ok view', disk'))
    (hwf : view.WellFormed) (hversion : ∀ tx ∈ block.vtx, 0 ≤ tx.nVersion)
    (hbip30 : enforceBIP30 pindex = true) (hheight : HasHeight pindex)
    (hgenesis : block.getHash ctx.hash ≠ ctx.params.hashGenesisBlock)
    (hwrites : disk.undo.find pindex.getBlockHash = none)
    (hcollision : ∀ tx ∈ block.vtx, ∀ tx' ∈ block.vtx,
      tx.getHash ctx.hash = tx'.getHash ctx.hash → tx = tx')
    (hkeeps : view.KeepsUnheighted view') :
    ∃ readDisk view'', disk'.reread ctx.toEnv secp pindex = .ok readDisk ∧
      disconnectBlock ctx block pindex view' readDisk = .ok (view'', true) ∧
      (∀ txid, view''.shown txid = view.shown txid) ∧ view''.bestBlock = view.bestBlock := by
  obtain ⟨st, objs, hcheck, -, -, rfl, rfl⟩ := connectBlock_ok_iff.mp hconnect
  obtain ⟨-, hprev, -⟩ := connectCheck_ok hcheck
  -- the best block does not matter for what a view shows
  have hsame : (st.view.setBestBlock pindex.getBlockHash).Same st.view := fun _ => rfl
  obtain ⟨cb, vtx, view₃, view₄, hvtx, hlen, hstorable, hdisc, hremove, hsame₄⟩ :=
    disconnect_checked hcheck hwf hversion hbip30 hheight hcollision hkeeps hsame
  have hfind : (writeUndo ctx block pindex st disk).undo.find pindex.getBlockHash
      = some st.undo.tail := by
    rw [writeUndo, if_neg hgenesis, hwrites]
    exact OrdMap.find_put_self ..
  rw [Disk.reread]
  simp only [undo_writeTxIndex, hfind, undoReadFromDisk_undoWriteToDisk ctx.toEnv hsecp _ hstorable]
  refine ⟨_, view₄.setBestBlock (pindex.pprev.getD Blob.null), rfl, ?_, hsame₄, hprev⟩
  exact disconnectBlock_of_clean rfl (OrdMap.find_put_self ..) hvtx hlen hdisc hremove

/-! ### A block that spends its own outputs -/

/-- No full key is valid, and none is decompressed. -/
def noKeys : Secp256k1 := ⟨fun _ => false, fun _ => none⟩

/-- The coinbase whose output the block spends. -/
def exampleFunding : CTransaction := coinbaseTx 1 [⟨50 * coin, [0x51]⟩]

/-- The view after the block of that coinbase. -/
def fundedView : CCoinsView :=
  (coinbaseView exampleEnv {} 1 exampleFunding).setBestBlock (exampleHash [1])

/-- Spends the output of the view; its own second output cannot be spent. -/
def exampleFirstSpend : CTransaction where
  vin := [{ prevout := ⟨exampleFunding.getHash exampleHash, 0⟩ }]
  vout := [⟨20 * coin, [0x51]⟩, ⟨30 * coin, [opReturn]⟩]

/-- Spends the first output of that transaction. -/
def exampleSecondSpend : CTransaction where
  vin := [{ prevout := ⟨exampleFirstSpend.getHash exampleHash, 0⟩ }]
  vout := [⟨20 * coin, [0x51]⟩]

def spendingBlock : CBlock :=
  let block : CBlock :=
    { hashPrevBlock := exampleHash [1]
      vtx := [coinbaseTx 2 [⟨50 * coin, [0x51]⟩], exampleFirstSpend, exampleSecondSpend] }
  { block with hashMerkleRoot := (block.buildMerkleTree exampleHash).1 }

def spendingIndex : CBlockIndex :=
  { CBlockIndex.ofHeader spendingBlock.toCBlockHeader with
    phashBlock := some (spendingBlock.getHash exampleHash)
    pprev := some (exampleHash [1])
    nHeight := 2 }

theorem shown_fundedView {txid : Uint256} {c : CCoins} (h : fundedView.shown txid = some c) :
    c = CCoins.fromTx exampleFunding 1 := by
  by_cases htxid : txid = exampleFunding.getHash exampleHash
  · subst htxid
    exact shown_fromTx h
  · have hempty : fundedView.shown txid = ({} : CCoinsView).shown txid :=
      CCoinsView.shown_setCoins_of_ne {} _ htxid
    rw [hempty] at h
    cases h

theorem wellFormed_fundedView : fundedView.WellFormed := by
  intro txid c hshown
  rw [shown_fundedView hshown]
  exact wellFormed_fromTx (by decide) (by decide) (by decide) (by decide) (by decide)

/-- The block is connected and taken back. -/
theorem spendingBlock_taken_back :
    ∃ view' disk' readDisk view'',
      connectBlock (exampleContext exampleEnv) spendingBlock spendingIndex false fundedView {} =
        (.ok view', disk') ∧
      disk'.reread exampleEnv noKeys spendingIndex = .ok readDisk ∧
      disconnectBlock (exampleContext exampleEnv) spendingBlock spendingIndex view' readDisk =
        .ok (view'', true) ∧
      (∀ txid, view''.shown txid = fundedView.shown txid) ∧
      view''.bestBlock = fundedView.bestBlock := by
  have hok : (connectBlock (exampleContext exampleEnv) spendingBlock spendingIndex false
      fundedView {}).1.toOption.isSome = true := by decide +kernel
  rcases hconnect : connectBlock (exampleContext exampleEnv) spendingBlock spendingIndex false
    fundedView {} with ⟨_ | view', disk'⟩
  · rw [hconnect] at hok
    cases hok
  · have hkeeps : fundedView.KeepsUnheighted view' := by
      intro txid c hshown hzero
      rw [shown_fundedView hshown] at hzero
      exact absurd hzero (by decide)
    have hkeys : noKeys.Inverts := by
      intro key _ hvalid
      cases hvalid
    obtain ⟨readDisk, view'', hread, hdisconnect, hsame, hbest⟩ :=
      disconnectBlock_connectBlock (exampleContext exampleEnv) hkeys spendingBlock spendingIndex
        fundedView {} hconnect wellFormed_fundedView (by decide +kernel) (by decide +kernel)
        ⟨by decide, by decide⟩ (by decide +kernel) rfl (by decide +kernel) hkeeps
    exact ⟨view', disk', readDisk, view'', rfl, hread, hdisconnect, hsame, hbest⟩

end Hivemind
