import Hivemind.Validation.Balance
import Hivemind.Validation.BlocksSpec

/-!
# The supply of coins along a chain

`ConnectBlock` adds up the fees of a block but no longer compares the coinbase with them: the
test stands in a disabled block of the source.  So the supply along a chain is bounded by the
subsidies only as long as each block behaves.

How a block behaves is judged on the view that it is connected to, since a fee is the difference
of inputs and outputs on the view that the transactions before it leave.  A market output brings
money in, as the balance of one transaction says, and so does a coinbase; what is brought in is
to be covered by the subsidy and the fees.  Along a chain the total of the view then grows by the
subsidy of each block at most, and unspent outputs stay nonnegative.

* `updateCoins_total`: one transaction, in terms of what it brings in and leaves.
* `connectTxs_total`: what the transactions of a block add to the total.
* `supply_bound`: **the bound**, for chains whose blocks pay out no more than they may.
* `coinbase_overpays`: a chain of one block that breaks the bound.
* `supply_bound_subsidy`: three blocks that keep to it.
-/

namespace Hivemind

open Codecs Ordered Outcomes

/-! ## No negative coins -/

/-- No unspent output has a negative value. -/
def CCoins.NonNeg (c : CCoins) : Prop := ∀ o ∈ c.vout, 0 ≤ o.unspentValue

/-- No unspent output of the view has a negative value. -/
def CCoinsView.NonNeg (view : CCoinsView) : Prop :=
  ∀ txid c, view.accessCoins txid = some c → c.NonNeg

namespace CCoins

theorem NonNeg.cleanup {c : CCoins} (h : c.NonNeg) : c.cleanup.NonNeg := by
  intro o ho
  exact h o ((List.rdropWhile_prefix _ _).subset ho)

theorem NonNeg.value {c : CCoins} (h : c.NonNeg) : 0 ≤ c.value := by
  refine List.sum_nonneg ?_
  intro v hv
  obtain ⟨o, ho, rfl⟩ := List.mem_map.mp hv
  exact h o ho

theorem NonNeg.spend {c : CCoins} (h : c.NonNeg) (n : UInt32) : (c.spend n).NonNeg := by
  unfold CCoins.spend
  split_ifs
  · refine NonNeg.cleanup ?_
    intro o ho
    rcases List.mem_or_eq_of_mem_set ho with ho | rfl
    · exact h o ho
    · decide
  · exact h

theorem nonNeg_fromTx {tx : CTransaction} (h : ∀ o ∈ tx.vout, moneyRange o.nValue = true)
    (nHeight : Int) : (fromTx tx nHeight).NonNeg := by
  refine NonNeg.cleanup ?_
  intro o ho
  obtain ⟨o', ho', rfl⟩ := List.mem_map.mp ho
  split_ifs
  · decide
  · have := (moneyRange_iff.mp (h o' ho')).1
    unfold CTxOut.unspentValue
    split_ifs
    · exact le_refl _
    · exact this

end CCoins

namespace CCoinsView

theorem NonNeg.getCoins {view : CCoinsView} (h : view.NonNeg) (txid : Uint256) :
    (view.getCoins txid).NonNeg := by
  unfold CCoinsView.getCoins
  cases hc : view.accessCoins txid with
  | none =>
      intro o ho
      cases ho
  | some c => exact h txid c hc

theorem NonNeg.setCoins {view : CCoinsView} (h : view.NonNeg) {c : CCoins} (hc : c.NonNeg)
    (txid : Uint256) : (view.setCoins txid c).NonNeg := by
  intro txid' c' hfind
  simp only [accessCoins, CCoinsView.setCoins] at hfind
  split_ifs at hfind
  · rw [OrdMap.find_erase] at hfind
    split_ifs at hfind
    exact h txid' c' hfind
  · rw [OrdMap.find_put] at hfind
    split_ifs at hfind
    · obtain rfl := Option.some.inj hfind
      exact hc.cleanup
    · exact h txid' c' hfind

theorem nonNeg_empty : NonNeg {} := by
  intro txid c h
  cases h

theorem NonNeg.spendInputs {vin : List CTxIn} {view view' : CCoinsView} {undo : CTxUndo}
    (h : view.NonNeg) (hspend : spendInputs vin view = .ok (view', undo)) : view'.NonNeg := by
  induction vin generalizing view undo with
  | nil =>
      obtain ⟨rfl, -⟩ := Prod.mk.inj (Except.ok.inj hspend)
      exact h
  | cons txin vin ih =>
      rw [Hivemind.spendInputs] at hspend
      cases ho : view.getOutputFor txin.prevout with
      | none =>
          rw [ho] at hspend
          cases hspend
      | some o =>
          simp only [ho, map_eq_ok] at hspend
          obtain ⟨⟨v, u⟩, hrest, heq⟩ := hspend
          obtain ⟨rfl, -⟩ := Prod.mk.inj heq
          exact ih (h.setCoins ((h.getCoins _).spend _) _) hrest

end CCoinsView

/-! ## One transaction -/

/-- What a transaction of a block brings in: everything for a coinbase, the market
outputs for any other. -/
def CTransaction.minted (tx : CTransaction) : Int :=
  if tx.isCoinBase then tx.ordinaryValue + tx.marketDeposits else tx.marketDeposits

/-- What a transaction leaves for the miner. -/
def txFee (view : CCoinsView) (tx : CTransaction) : Int :=
  if tx.isCoinBase then 0 else inputSum view tx.vin - tx.ordinaryValue

theorem outputSum_nonneg {p : CTxOut → Bool} {vout : List CTxOut}
    (h : ∀ o ∈ vout, moneyRange o.nValue = true) : 0 ≤ outputSum p vout := by
  refine List.sum_nonneg ?_
  intro v hv
  obtain ⟨o, ho, rfl⟩ := List.mem_map.mp hv
  split_ifs
  · exact (moneyRange_iff.mp (h o ho)).1
  · exact le_refl _

/-- **One transaction of a block**, in terms of what it brings in and leaves. -/
theorem updateCoins_total {env : Env} {tx : CTransaction} {view view' : CCoinsView}
    {nHeight : Int} {undo : CTxUndo} (hpos : view.NonNeg) (htx : checkTransaction tx = .ok ())
    (hav : tx.isCoinBase = false →
      ∀ txin ∈ tx.vin, ∃ o, view.getOutputFor txin.prevout = some o)
    (h : updateCoins env tx view nHeight = .ok (view', undo)) :
    view'.NonNeg ∧ view'.total ≤ view.total + tx.minted - txFee view tx := by
  obtain ⟨hout, hnodup⟩ := checkTransaction_ok htx
  have hunsp : 0 ≤ tx.unspendableValue := outputSum_nonneg hout
  simp only [updateCoins, map_eq_ok] at h
  obtain ⟨⟨view₁, undo₁⟩, hspend, heq⟩ := h
  obtain ⟨rfl, -⟩ := Prod.mk.inj heq
  have hpos₁ : view₁.NonNeg := hpos.spendInputs hspend
  refine ⟨hpos₁.setCoins (CCoins.nonNeg_fromTx hout nHeight) _, ?_⟩
  have hover : 0 ≤ (view₁.getCoins (tx.getHash env.hash)).value := (hpos₁.getCoins _).value
  rw [CCoinsView.total_setCoins, value_fromTx_eq hout]
  cases hcb : tx.isCoinBase with
  | true =>
      rw [hcb, if_pos rfl] at hspend
      obtain ⟨rfl, -⟩ := Prod.mk.inj (Except.ok.inj hspend)
      simp only [CTransaction.minted, txFee, hcb, if_true]
      omega
  | false =>
      rw [hcb, if_neg (by decide)] at hspend
      obtain ⟨view₂, undo₂, hspend₂, htotal, -⟩ := spendInputs_spec (hav hcb) hnodup
      rw [hspend₂] at hspend
      obtain ⟨rfl, -⟩ := Prod.mk.inj (Except.ok.inj hspend)
      simp only [CTransaction.minted, txFee, hcb, Bool.false_eq_true, if_false]
      omega

/-! ## One block -/

/-- What the transactions of a block bring in. -/
def blockMinted (vtx : List CTransaction) : Int := (vtx.map CTransaction.minted).sum

/-- The fees of a block: each transaction is judged on the view that the ones before
it leave. -/
def blockFees (env : Env) (nHeight : Int) : CCoinsView → List CTransaction → Int
  | _, [] => 0
  | view, tx :: vtx => txFee view tx + match updateCoins env tx view nHeight with
    | .ok (view', _) => blockFees env nHeight view' vtx
    | .error _ => 0

/-- **The transactions of a block**, by induction over the loop. -/
theorem connectTxs_total {ctx : Context} {pindex : CBlockIndex} {st st' : ConnectState}
    {vtx : List CTransaction} (hpos : st.view.NonNeg)
    (hvtx : ∀ tx ∈ vtx, checkTransaction tx = .ok ())
    (h : connectTxs ctx pindex st vtx = .ok st') :
    st'.view.NonNeg ∧
      st'.view.total ≤ st.view.total + blockMinted vtx -
        blockFees ctx.toEnv pindex.nHeight st.view vtx := by
  induction vtx generalizing st with
  | nil =>
      obtain rfl := Except.ok.inj h
      exact ⟨hpos, by simp [blockMinted, blockFees]⟩
  | cons tx vtx ih =>
      simp only [connectTxs, bind_eq_ok] at h
      obtain ⟨st₁, htx, hrest⟩ := h
      obtain ⟨⟨undo, hupd⟩, hin⟩ := connectTx_ok htx
      have hav : tx.isCoinBase = false →
          ∀ txin ∈ tx.vin, ∃ o, st.view.getOutputFor txin.prevout = some o := by
        intro hcb
        obtain ⟨_, _, checks, hchecks⟩ := hin hcb
        exact (checkInputs_ok hcb hchecks).1
      obtain ⟨hpos₁, hle₁⟩ := updateCoins_total hpos (hvtx tx (List.mem_cons_self ..)) hav hupd
      obtain ⟨hpos', hle'⟩ := ih hpos₁ (fun t ht => hvtx t (List.mem_cons_of_mem _ ht)) hrest
      refine ⟨hpos', ?_⟩
      simp only [blockMinted, List.map_cons, List.sum_cons, blockFees, hupd] at hle' ⊢
      omega

/-- The block pays out no more than it may: what it brings in is covered by the
subsidy and the fees. -/
def PaysWithinLimit (ctx : Context) (block : CBlock) (pindex : CBlockIndex) (view : CCoinsView) :
    Prop :=
  blockMinted block.vtx ≤ (getBlockValue ctx.params pindex.nHeight 0).toInt +
    blockFees ctx.toEnv pindex.nHeight view block.vtx

theorem connectBlock_nonNeg {ctx : Context} {block : CBlock} {pindex : CBlockIndex}
    {view view' : CCoinsView} {disk disk' : Disk} (hpos : view.NonNeg)
    (h : connectBlock ctx block pindex false view disk = (.ok view', disk')) :
    view'.NonNeg ∧
      view'.total ≤ view.total + blockMinted block.vtx -
        blockFees ctx.toEnv pindex.nHeight view block.vtx := by
  obtain ⟨st, objs, hcheck, -, -, rfl, -⟩ := connectBlock_ok_iff.mp h
  obtain ⟨hblock, -, -, ⟨offset, htxs⟩, -⟩ := connectCheck_ok hcheck
  have htotal := connectTxs_total hpos (checkBlock_ok hblock).1 htxs
  exact htotal

/-! ## Chains of blocks -/

/-- Every block of the chain pays out within its limit, on the view it is connected
to. -/
def ChainPaysWithinLimit (ctx : Context) : List (CBlock × CBlockIndex) → CCoinsView × Disk → Prop
  | [], _ => True
  | (block, pindex) :: blocks, (view, disk) =>
    PaysWithinLimit ctx block pindex view ∧
    match connectBlock ctx block pindex false view disk with
    | (.error _, _) => True
    | (.ok view', disk') => ChainPaysWithinLimit ctx blocks (view', disk')

theorem connectChain_nonNeg {ctx : Context} {blocks : List (CBlock × CBlockIndex)}
    {s s' : CCoinsView × Disk} (hpos : s.1.NonNeg) (h : connectChain ctx blocks s = .ok s') :
    s'.1.NonNeg := by
  induction blocks generalizing s with
  | nil =>
      obtain rfl := Except.ok.inj h
      exact hpos
  | cons b blocks ih =>
      obtain ⟨view₁, disk₁, hb, hrest⟩ := connectChain_cons h
      exact ih (connectBlock_nonNeg hpos hb).1 hrest

/-- The invariant of a chain that pays within its limits. -/
theorem connectChain_total {ctx : Context} {blocks : List (CBlock × CBlockIndex)}
    {s s' : CCoinsView × Disk} (hpos : s.1.NonNeg) (hpay : ChainPaysWithinLimit ctx blocks s)
    (h : connectChain ctx blocks s = .ok s') :
    s'.1.total ≤ s.1.total +
      (blocks.map fun b => (getBlockValue ctx.params b.2.nHeight 0).toInt).sum := by
  induction blocks generalizing s with
  | nil =>
      obtain rfl := Except.ok.inj h
      simp
  | cons b blocks ih =>
      obtain ⟨view₁, disk₁, hb, hrest⟩ := connectChain_cons h
      obtain ⟨hlimit, hpay'⟩ := hpay
      rw [hb] at hpay'
      obtain ⟨hpos₁, hle⟩ := connectBlock_nonNeg hpos hb
      have hih := ih hpos₁ hpay' hrest
      rw [PaysWithinLimit] at hlimit
      simp only [List.map_cons, List.sum_cons] at hih ⊢
      omega

/-- **The supply bound**: along every chain of blocks at heights `1..H` on top of a
genesis block, if every block pays out no more than its subsidy and its fees, the
unspent outputs are worth at most those of the genesis block and the subsidies. -/
theorem supply_bound (ctx : Context) (genesis : CBlock × CBlockIndex) (disk : Disk)
    (blocks : List (CBlock × CBlockIndex)) (s₀ s : CCoinsView × Disk)
    (hgenesis : connectChain ctx [genesis] ({}, disk) = .ok s₀)
    (hchain : connectChain ctx blocks s₀ = .ok s)
    (hheights : blocks.map (fun b => b.2.nHeight) =
      (List.range blocks.length).map fun i : Nat => (i : Int) + 1)
    (hpay : ChainPaysWithinLimit ctx blocks s₀) :
    s.1.total ≤ s₀.1.total +
      ((List.range blocks.length).map fun i : Nat =>
        (getBlockValue ctx.params ((i : Int) + 1) 0).toInt).sum := by
  have hpos : s₀.1.NonNeg := connectChain_nonNeg CCoinsView.nonNeg_empty hgenesis
  have hbound := connectChain_total hpos hpay hchain
  have hsum : blocks.map (fun b => (getBlockValue ctx.params b.2.nHeight 0).toInt) =
      (List.range blocks.length).map fun i : Nat =>
        (getBlockValue ctx.params ((i : Int) + 1) 0).toInt := by
    have := congrArg (List.map fun h : Int => (getBlockValue ctx.params h 0).toInt) hheights
    simpa only [List.map_map, Function.comp_def] using this
  rwa [hsum] at hbound

theorem total_coinbaseView {env : Env} {view : CCoinsView} {cb : CTransaction}
    (hfree : view.accessCoins (cb.getHash env.hash) = none) (nHeight : Int) :
    (coinbaseView env view nHeight cb).total = view.total + (CCoins.fromTx cb nHeight).value := by
  rw [coinbaseView, CCoinsView.total_setCoins, CCoinsView.getCoins, hfree]
  simp

/-- A genesis coinbase that pays 50 coins to anybody. -/
def exampleGenesis : CTransaction := coinbaseTx 0 [⟨50 * coin, [0x51]⟩]

/-- A coinbase that pays 1000 coins to anybody. -/
def exampleOverpay : CTransaction := coinbaseTx 1 [⟨1000 * coin, [0x51]⟩]

theorem soundCoinbase_genesis : SoundCoinbase exampleGenesis :=
  ⟨by decide, by decide +kernel, by decide, by decide⟩

theorem soundCoinbase_overpay : SoundCoinbase exampleOverpay :=
  ⟨by decide, by decide +kernel, by decide, by decide⟩

/-- A chain of one block on top of the genesis block, with the given coinbase. -/
theorem connectChain_example {env : Env} {cb : CTransaction} (hcb : SoundCoinbase cb)
    (hobjs : blockObjs env [cb] = .ok [])
    (hne : cb.getHash env.hash ≠ exampleGenesis.getHash env.hash) :
    ∃ disk₀ disk₁, connectChain (exampleContext env)
        [(coinbaseBlock env.hash none exampleGenesis,
          coinbaseIndex env.hash none 0 exampleGenesis)] ({}, {}) =
            .ok (firstView env exampleGenesis, disk₀) ∧
      connectChain (exampleContext env)
        [(secondBlock env exampleGenesis cb, secondIndex env exampleGenesis cb)]
          (firstView env exampleGenesis, disk₀) = .ok (secondView env exampleGenesis cb, disk₁) ∧
      (secondView env exampleGenesis cb).total =
        (firstView env exampleGenesis).total + (CCoins.fromTx cb 1).value := by
  have hobjs₀ : blockObjs env [exampleGenesis] = .ok [] := rfl
  obtain ⟨disk₀, disk₁, hfirst, -, hsecond, -⟩ :=
    connectBlock_second soundCoinbase_genesis hcb hne hobjs₀ hobjs
  refine ⟨disk₀, disk₁, connectChain_singleton hfirst, connectChain_singleton hsecond, ?_⟩
  simp only [secondView, CCoinsView.total_setBestBlock]
  exact total_coinbaseView (accessCoins_firstView hne) 1

/-- **A chain that breaks the bound**: the coinbase of block 1 pays 1000 coins, and
`ConnectBlock` accepts it on top of the genesis block, for every hash function under
which the two coinbases have different ids. -/
theorem coinbase_overpays :
    (getBlockValue (mainParams Blob.null) 1 0).toInt = 50 * 100000000 ∧
    exampleOverpay.getHash exampleEnv.hash ≠ exampleGenesis.getHash exampleEnv.hash ∧
    ∀ env : Env, exampleOverpay.getHash env.hash ≠ exampleGenesis.getHash env.hash →
      ∃ s₀ s, connectChain (exampleContext env)
          [(coinbaseBlock env.hash none exampleGenesis,
            coinbaseIndex env.hash none 0 exampleGenesis)] ({}, {}) = .ok s₀ ∧
        connectChain (exampleContext env)
          [(secondBlock env exampleGenesis exampleOverpay,
            secondIndex env exampleGenesis exampleOverpay)] s₀ = .ok s ∧
        s.1.total = s₀.1.total + 1000 * 100000000 := by
  refine ⟨by decide, by decide +kernel, fun env hne => ?_⟩
  obtain ⟨disk₀, disk₁, hgen, hblock, htotal⟩ := connectChain_example soundCoinbase_overpay rfl hne
  refine ⟨_, _, hgen, hblock, ?_⟩
  rw [htotal]
  congr 1

/-! ## A chain that keeps to the subsidy -/

instance instDecidablePaysWithinLimit (ctx : Context) (block : CBlock) (pindex : CBlockIndex)
    (view : CCoinsView) : Decidable (PaysWithinLimit ctx block pindex view) :=
  inferInstanceAs (Decidable (_ ≤ _))

/-- The condition can be computed along the chain. -/
def decidableChainPays (ctx : Context) : (blocks : List (CBlock × CBlockIndex)) →
    (s : CCoinsView × Disk) → Decidable (ChainPaysWithinLimit ctx blocks s)
  | [], _ => isTrue trivial
  | (block, pindex) :: blocks, (view, disk) =>
    have : Decidable (match connectBlock ctx block pindex false view disk with
        | (.error _, _) => True
        | (.ok view', disk') => ChainPaysWithinLimit ctx blocks (view', disk')) :=
      match connectBlock ctx block pindex false view disk with
      | (.error _, _) => isTrue trivial
      | (.ok view', disk') => decidableChainPays ctx blocks (view', disk')
    inferInstanceAs (Decidable (_ ∧ _))

instance instDecidableChainPays (ctx : Context) (blocks : List (CBlock × CBlockIndex))
    (s : CCoinsView × Disk) : Decidable (ChainPaysWithinLimit ctx blocks s) :=
  decidableChainPays ctx blocks s

/-- A block on top of another, with a coinbase that pays so many coins. -/
def minedOn (prev : CBlock) (nHeight : Int) (n : UInt8) (coins : Int64) : CBlock × CBlockIndex :=
  let pprev := some (prev.getHash exampleHash)
  let cb := coinbaseTx n [⟨coins * coin, [0x51]⟩]
  (coinbaseBlock exampleHash pprev cb, coinbaseIndex exampleHash pprev nHeight cb)

def subsidyGenesis : CBlock × CBlockIndex :=
  (coinbaseBlock exampleHash none exampleGenesis, coinbaseIndex exampleHash none 0 exampleGenesis)

def subsidyFirst : CBlock × CBlockIndex := minedOn subsidyGenesis.1 1 1 50

/-- This one does not take all that it may. -/
def subsidySecond : CBlock × CBlockIndex := minedOn subsidyFirst.1 2 2 30

def subsidyThird : CBlock × CBlockIndex := minedOn subsidySecond.1 3 3 50

/-- The chain is connected, pays within the limits and leaves so much. -/
def chainLeaves (ctx : Context) (genesis : CBlock × CBlockIndex)
    (blocks : List (CBlock × CBlockIndex)) (total : Int) : Bool :=
  match connectChain ctx [genesis] ({}, {}) with
  | .error _ => false
  | .ok s₀ => decide (ChainPaysWithinLimit ctx blocks s₀) &&
    match connectChain ctx blocks s₀ with
    | .error _ => false
    | .ok s => decide (s.1.total = total)

/-- The bound at work: three blocks, which leave 20 coins of their subsidies. -/
theorem supply_bound_subsidy :
    ∃ s₀ s : CCoinsView × Disk,
      connectChain (exampleContext exampleEnv) [subsidyGenesis] ({}, {}) = .ok s₀ ∧
      connectChain (exampleContext exampleEnv) [subsidyFirst, subsidySecond, subsidyThird] s₀ =
        .ok s ∧
      s.1.total = 180 * 100000000 ∧ s.1.total ≤ s₀.1.total + 150 * 100000000 := by
  have hcheck : chainLeaves (exampleContext exampleEnv) subsidyGenesis
      [subsidyFirst, subsidySecond, subsidyThird] (180 * 100000000) = true := by decide +kernel
  rw [chainLeaves] at hcheck
  cases hgenesis : connectChain (exampleContext exampleEnv) [subsidyGenesis] ({}, {}) with
  | error stop =>
      rw [hgenesis] at hcheck
      cases hcheck
  | ok s₀ =>
      rw [hgenesis] at hcheck
      simp only [Bool.and_eq_true, decide_eq_true_eq] at hcheck
      obtain ⟨hpay, hcheck⟩ := hcheck
      cases hchain : connectChain (exampleContext exampleEnv)
          [subsidyFirst, subsidySecond, subsidyThird] s₀ with
      | error stop =>
          rw [hchain] at hcheck
          cases hcheck
      | ok s =>
          rw [hchain] at hcheck
          simp only [decide_eq_true_eq] at hcheck
          have hheights : [subsidyFirst, subsidySecond, subsidyThird].map (fun b => b.2.nHeight) =
              (List.range 3).map fun i : Nat => (i : Int) + 1 := by decide
          have hbound := supply_bound (exampleContext exampleEnv) subsidyGenesis {}
            [subsidyFirst, subsidySecond, subsidyThird] s₀ s hgenesis hchain hheights hpay
          have hvalue : ((List.range 3).map fun i : Nat =>
              (getBlockValue (exampleContext exampleEnv).params ((i : Int) + 1) 0).toInt).sum =
                150 * 100000000 := by decide
          refine ⟨s₀, s, rfl, hchain, hcheck, hbound.trans_eq ?_⟩
          exact congrArg (s₀.1.total + ·) hvalue

end Hivemind
