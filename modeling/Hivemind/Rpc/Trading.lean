import Hivemind.Primitives.AccountValue
import Hivemind.TxDb.RoundTrip

/-!
# Trading by RPC

What `createtrade` and `getcreatetradecapitalrequired` of `rpcwallet.cpp` compute of a trade: the
shares of the market before and after it, and the account value of both.

The shares start in a buffer of `new double [nStates]`, whose contents are a parameter:
`marketNShares` leaves them as they are.  So the cost of a trade is a function of the memory that
the buffer happens to be in, and the question is for which memory it is defined at all; the
effective liquidity divides by it.  If the tally worked, the first trade in a market would be
valued at no shares, where the liquidity is zero too, since the purchase of the author is not
among the trades.

* `tradeShares_ok`: the two share vectors.
* `WellDefinedAt`, `CostWellDefined`: a cost at a share vector, and at those of a trade.
* `costWellDefined_iff`: **when the cost is well defined.**
* `untraded_divides`: a tally of no trades divides by zero, in any market with commission.
* `costWellDefined_ones`, `newMarket_not_costWellDefined`: the first purchase, with two buffers.
-/

namespace Hivemind

open Finset

noncomputable section

/-- What keeps a trade from being valued. -/
inductive TradeError where
  | decisionState
  | pointer (e : PointerFault)
  | real (e : RealFault)
  deriving DecidableEq

/-- `(isBuy)? 1e-8*nShares: -1e-8*nShares`. -/
def tradeChange (isBuy : Bool) (nShares : UInt64) : ℝ :=
  if isBuy then eMinus8 * nShares.toNat else -eMinus8 * nShares.toNat

/-- The shares of the market, and the shares with the new trade. -/
def tradeShares (nStates : UInt32) (trades : List MarketTrade) (isBuy : Bool) (nShares : UInt64)
    (decisionState : UInt32) (mem : Fin nStates.toNat → ℝ) :
    Except TradeError ((Fin nStates.toNat → ℝ) × (Fin nStates.toNat → ℝ)) :=
  if h : decisionState.toNat < nStates.toNat then do
    let (_, p) ← (marketNShares trades nStates (some mem)).mapError .pointer
    let x ← (p.load ⟨_, h⟩).mapError .pointer
    let p' ← (p.store ⟨_, h⟩ (x + tradeChange isBuy nShares)).mapError .pointer
    .ok (p.getD 0, p'.getD 0)
  else .error .decisionState

/-- The account values before and after the trade. -/
def tradeAccounts (market : MarketMarket) (trades : List MarketTrade) (isBuy : Bool)
    (nShares : UInt64) (decisionState : UInt32)
    (mem : Fin (marketNStates (some market)).toNat → ℝ) : Except TradeError (ℝ × ℝ) := do
  let (q, q') ← tradeShares (marketNStates (some market)) trades isBuy nShares decisionState mem
  let currAccount ← (marketAccountValue market.maxCommission.toNat (eMinus8 * market.B.toNat)
    (marketNStates (some market)) (some q)).mapError .real
  let nextAccount ← (marketAccountValue market.maxCommission.toNat (eMinus8 * market.B.toNat)
    (marketNStates (some market)) (some q')).mapError .real
  .ok (currAccount, nextAccount)

/-- `createtrade`, where it values the trade. -/
def createtradeAccounts (market : MarketMarket) (trades : List MarketTrade) (obj : MarketTrade)
    (mem : Fin (marketNStates (some market)).toNat → ℝ) : Except TradeError (ℝ × ℝ) :=
  tradeAccounts market trades obj.isBuy obj.nShares obj.decisionState mem

/-- `getcreatetradecapitalrequired`, where it values the trade. -/
def getcreatetradecapitalrequiredAccounts (market : MarketMarket) (trades : List MarketTrade)
    (isBuy : Bool) (dnShares : UInt64) (decisionState : UInt32)
    (mem : Fin (marketNStates (some market)).toNat → ℝ) : Except TradeError (ℝ × ℝ) :=
  tradeAccounts market trades isBuy dnShares decisionState mem

/-! ## The share vectors -/

/-- **The two share vectors**: what the buffer held, and that with the trade in its state. -/
theorem tradeShares_ok {nStates : UInt32} (trades : List MarketTrade) (isBuy : Bool)
    (nShares : UInt64) {decisionState : UInt32} (h : decisionState.toNat < nStates.toNat)
    (mem : Fin nStates.toNat → ℝ) :
    tradeShares nStates trades isBuy nShares decisionState mem =
      .ok (mem, Function.update mem ⟨_, h⟩ (mem ⟨_, h⟩ + tradeChange isBuy nShares)) := by
  rw [tradeShares, dif_pos h]
  rfl

theorem tradeShares_refused {nStates : UInt32} (trades : List MarketTrade) (isBuy : Bool)
    (nShares : UInt64) {decisionState : UInt32} (h : ¬ decisionState.toNat < nStates.toNat)
    (mem : Fin nStates.toNat → ℝ) :
    tradeShares nStates trades isBuy nShares decisionState mem = .error .decisionState := by
  rw [tradeShares, dif_neg h]

/-! ## When the cost is well defined -/

section Cost

variable {market : MarketMarket}

theorem eMinus8_pos : (0 : ℝ) < eMinus8 := by
  rw [eMinus8]
  positivity

/-- The liquidity of a market, in whole coins. -/
theorem scaledB_pos (hB : 0 < market.B) : (0 : ℝ) < eMinus8 * market.B.toNat := by
  have hnat : 0 < market.B.toNat := UInt64.lt_iff_toNat_lt.mp hB
  exact mul_pos eMinus8_pos (by exact_mod_cast hnat)

theorem maxCommission_pos (hmc : 0 < market.maxCommission) :
    (0 : ℝ) < market.maxCommission.toNat := by
  have hnat : 0 < market.maxCommission.toNat := UInt64.lt_iff_toNat_lt.mp hmc
  exact_mod_cast hnat

/-- A market of at least one decision that has states at all has two. -/
theorem two_le_nStates (hd : market.decisionIDs ≠ [])
    (hn : 0 < (marketNStates (some market)).toNat) : 2 ≤ (marketNStates (some market)).toNat := by
  have hlen : 0 < market.decisionIDs.length := List.length_pos_iff.mpr hd
  rcases Nat.lt_or_ge market.decisionIDs.length 32 with hlt | hge
  · rw [marketNStates_of_lt hlt]
    calc 2 = 2 ^ 1 := rfl
      _ ≤ 2 ^ market.decisionIDs.length := Nat.pow_le_pow_right (by decide) hlen
  · rw [marketNStates_of_le hge] at hn
    exact absurd hn (lt_irrefl 0)

/-- The cost of a share vector is well defined: `minShares` and the effective liquidity are
positive, and nothing is divided by zero. -/
structure WellDefinedAt (market : MarketMarket)
    (q : Fin (marketNStates (some market)).toNat → ℝ) : Prop where
  minShares_pos : 0 < minShares market.maxCommission.toNat (eMinus8 * market.B.toNat)
    (marketNStates (some market))
  liquidity_pos : 0 < effectiveLiquidity market.maxCommission.toNat (eMinus8 * market.B.toNat)
    (marketNStates (some market)) q
  noDivide : marketAccountValue market.maxCommission.toNat (eMinus8 * market.B.toNat)
    (marketNStates (some market)) (some q) ≠ .error .divByZero

/-- The cost is well defined at every share vector of the trade in which no state has been
sold below zero. -/
def CostWellDefined (market : MarketMarket) (trades : List MarketTrade) (isBuy : Bool)
    (nShares : UInt64) (decisionState : UInt32)
    (mem : Fin (marketNStates (some market)).toNat → ℝ) : Prop :=
  ∀ q q', tradeShares (marketNStates (some market)) trades isBuy nShares decisionState mem =
      .ok (q, q') →
    ((∀ s, 0 ≤ q s) → WellDefinedAt market q) ∧ ((∀ s, 0 ≤ q' s) → WellDefinedAt market q')

/-- Of the vectors that are nowhere negative, only zero has an undefined cost. -/
theorem wellDefinedAt_iff (hmc : 0 < market.maxCommission) (hB : 0 < market.B)
    (hn : 2 ≤ (marketNStates (some market)).toNat)
    (q : Fin (marketNStates (some market)).toNat → ℝ) :
    ((∀ s, 0 ≤ q s) → WellDefinedAt market q) ↔ q ≠ 0 := by
  have hiff := effectiveLiquidity_pos_iff (maxCommission_pos hmc) (scaledB_pos hB) hn q
  constructor
  · rintro h rfl
    have hpos := hiff.mp (h fun _ => le_refl 0).liquidity_pos
    simp at hpos
  · intro hq hnonneg
    obtain ⟨s, hs⟩ := Function.ne_iff.mp hq
    have hsum : 0 < ∑ s, q s :=
      sum_pos' (fun s _ => hnonneg s) ⟨s, mem_univ s, lt_of_le_of_ne (hnonneg s) (Ne.symm hs)⟩
    have hliq := hiff.mpr hsum
    refine ⟨minShares_pos (maxCommission_pos hmc) (scaledB_pos hB) hn, hliq, ?_⟩
    rw [marketAccountValue_ls (maxCommission_pos hmc) (scaledB_pos hB) hn, if_neg hliq.ne']
    exact fun heq => by cases heq

/-- A change in one place leaves nothing when it takes away all that there is. -/
theorem update_add_eq_zero_iff {n : Nat} (q : Fin n → ℝ) (i : Fin n) (d : ℝ) :
    Function.update q i (q i + d) = 0 ↔ q = Pi.single i (-d) := by
  constructor
  · intro h
    funext j
    have hj := congrFun h j
    by_cases hji : j = i
    · subst hji
      rw [Function.update_self, Pi.zero_apply] at hj
      rw [Pi.single_eq_same]
      exact eq_neg_of_add_eq_zero_left hj
    · rw [Function.update_of_ne hji, Pi.zero_apply] at hj
      rw [hj, Pi.single_eq_of_ne hji]
  · rintro rfl
    funext j
    by_cases hji : j = i
    · subst hji
      simp
    · simp [hji]

/-- **When the cost is well defined**: the trade is refused, or the memory of the buffer is
neither zero in all states nor taken to zero in all states by the trade. -/
theorem costWellDefined_iff (market : MarketMarket) (hmc : 0 < market.maxCommission)
    (hB : 0 < market.B) (hd : market.decisionIDs ≠ []) (trades : List MarketTrade) (isBuy : Bool)
    (nShares : UInt64) (decisionState : UInt32)
    (mem : Fin (marketNStates (some market)).toNat → ℝ) :
    CostWellDefined market trades isBuy nShares decisionState mem ↔
      ∀ h : decisionState.toNat < (marketNStates (some market)).toNat,
        mem ≠ 0 ∧ mem ≠ Pi.single ⟨_, h⟩ (-tradeChange isBuy nShares) := by
  by_cases h : decisionState.toNat < (marketNStates (some market)).toNat
  · have hn := two_le_nStates hd (Nat.zero_lt_of_lt h)
    have hnext : Function.update mem ⟨_, h⟩ (mem ⟨_, h⟩ + tradeChange isBuy nShares) = 0 ↔
        mem = Pi.single ⟨_, h⟩ (-tradeChange isBuy nShares) :=
      update_add_eq_zero_iff mem ⟨_, h⟩ (tradeChange isBuy nShares)
    constructor
    · intro hcost _
      obtain ⟨hcur, hnew⟩ := hcost _ _ (tradeShares_ok trades isBuy nShares h mem)
      exact ⟨(wellDefinedAt_iff hmc hB hn mem).mp hcur,
        fun hmem => (wellDefinedAt_iff hmc hB hn _).mp hnew (hnext.mpr hmem)⟩
    · intro hmem q q' hrun
      rw [tradeShares_ok trades isBuy nShares h mem] at hrun
      obtain ⟨rfl, rfl⟩ := Prod.mk.inj (Except.ok.inj hrun)
      exact ⟨(wellDefinedAt_iff hmc hB hn mem).mpr (hmem h).1,
        (wellDefinedAt_iff hmc hB hn _).mpr fun hzero => (hmem h).2 (hnext.mp hzero)⟩
  · constructor
    · exact fun _ hlt => absurd hlt h
    · intro _ q q' hrun
      rw [tradeShares_refused trades isBuy nShares h mem] at hrun
      cases hrun

/-- **The tally itself divides by zero before the first trade**: the purchase of the author
is not among the trades. -/
theorem untraded_divides (hmc : 0 < market.maxCommission) (hB : 0 < market.B)
    (hn : 2 ≤ (marketNStates (some market)).toNat)
    (mem : Fin (marketNStates (some market)).toNat → ℝ) :
    ∃ q, tallyLoops [] (marketNStates (some market)) (some mem) = .ok (some q) ∧
      marketAccountValue market.maxCommission.toNat (eMinus8 * market.B.toNat)
        (marketNStates (some market)) (some q) = .error .divByZero := by
  refine ⟨_, tallyLoops_some [] _ mem, ?_⟩
  rw [marketAccountValue_ls (maxCommission_pos hmc) (scaledB_pos hB) hn, if_pos]
  simp [effectiveLiquidity, amountsIn]

end Cost

/-! ## A new market -/

/-- A market of one decision, with commission. -/
def exampleLsMarket : MarketMarket where
  keyID := Blob.null
  B := 100000000
  tradingFee := 0
  maxCommission := 1
  title := []
  description := []
  tags := []
  maturation := 0
  branchid := Blob.null
  decisionIDs := [Blob.null]
  decisionFunctionIDs := [0]
  txPoWh := 0
  txPoWd := 0

theorem exampleLsMarket_nStates : (marketNStates (some exampleLsMarket)).toNat = 2 :=
  marketNStates_of_lt (by decide)

/-- A buffer of ones. -/
def exampleOnes : Fin (marketNStates (some exampleLsMarket)).toNat → ℝ := fun _ => 1

/-- The first purchase, with a buffer of ones. -/
theorem costWellDefined_ones : CostWellDefined exampleLsMarket [] true 100000000 0 exampleOnes := by
  refine (costWellDefined_iff exampleLsMarket (by decide) (by decide) (by decide) [] true
    100000000 0 exampleOnes).mpr fun h => ?_
  have hlast : 1 < (marketNStates (some exampleLsMarket)).toNat := by
    rw [exampleLsMarket_nStates]
    decide
  have hne : (⟨1, hlast⟩ : Fin (marketNStates (some exampleLsMarket)).toNat) ≠
      ⟨(0 : UInt32).toNat, h⟩ := by simp
  refine ⟨fun hzero => one_ne_zero (congrFun hzero ⟨1, hlast⟩), fun hsingle => ?_⟩
  have hone : exampleOnes ⟨1, hlast⟩ = 0 := by
    rw [hsingle]
    exact Pi.single_eq_of_ne hne _
  exact one_ne_zero hone

/-- The first purchase in a market that `marketObjCtr` accepts, with a buffer of zeros. -/
theorem newMarket_not_costWellDefined :
    marketObjCtr (MarketObj.getScript { data := exampleLsMarket : MarketObj .market }) =
        .ok (some ⟨.market, { data := exampleLsMarket }⟩) ∧
      ¬ CostWellDefined exampleLsMarket [] true 100000000 0 (fun _ => 0) := by
  constructor
  · have hsizes : MarketOp.market.SizesOk exampleLsMarket :=
      ⟨by decide, by decide, by decide, by decide, by decide⟩
    exact marketObjCtr_getScript hsizes (by decide +kernel)
  · intro h
    have hlt : (0 : UInt32).toNat < (marketNStates (some exampleLsMarket)).toNat := by
      rw [exampleLsMarket_nStates]
      decide
    obtain ⟨hcur, -⟩ := h _ _ (tradeShares_ok [] true 100000000 hlt fun _ => 0)
    have hpos := (hcur fun _ => le_refl 0).liquidity_pos
    simp [effectiveLiquidity] at hpos

end

end Hivemind
