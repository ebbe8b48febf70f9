import Hivemind.Miner.Outcome
import Hivemind.Primitives.Shares
import Hivemind.TxDb.RoundTrip

/-!
# The states of a market

A state of a market is a number below `marketNStates`, and its bit `k` is the side that it takes
in the `k`-th decision: `getOutcomeTx` shifts it out when it pays the trades.

The number of states is a 32-bit word that is doubled for each decision, and it is zero from 32
decisions on; the bits of a state are read by a shift that is defined up to bit 31.  So a market
has the bit vectors of its decisions for states as long as both fit, and none at all after that.
`createmarket` has no limit on the number of decisions, and neither has `marketObjCtr`.

* `stateBit`: the bit of a state, by the shift of the source.
* `payoutStep_congr`, `payoutStep_shift`: the payout loop sees a state through its bits.
* `eq_of_stateBit`: states with the same bits are the same.
* `stateSpace_iff`: **the states are the bit vectors**, up to 31 decisions.
* `exampleWideMarket_not_stateSpace`: a market of 32 decisions that can be read and has no
  states.
-/

namespace Hivemind

/-- `(decisionState >> k) & 1`. -/
def stateBit (decisionState : UInt32) (k : Nat) : Except Fault Nat :=
  if 32 ≤ k then .error .shift else .ok ((decisionState.toNat >>> k) % 2)

theorem stateBit_of_lt (decisionState : UInt32) {k : Nat} (hk : k < 32) :
    stateBit decisionState k = .ok ((decisionState.toNat >>> k) % 2) := if_neg (by omega)

/-- Two states of the same bit go through a decision in the same way. -/
theorem payoutStep_congr {s s' : UInt32} {k : Nat} (h : stateBit s k = stateBit s' k) (f : Finals)
    (final : UInt64) (payout : Nat) :
    payoutStep f s k final payout = payoutStep f s' k final payout := by
  by_cases hk : 32 ≤ k
  · rw [payoutStep, payoutStep, if_pos hk, if_pos hk]
  · rw [stateBit_of_lt s (by omega), stateBit_of_lt s' (by omega)] at h
    rw [payoutStep, payoutStep, if_neg hk, if_neg hk, Except.ok.inj h]

/-- A bit that is not defined faults in the payout loop. -/
theorem payoutStep_shift {s : UInt32} {k : Nat} (h : stateBit s k = .error .shift) (f : Finals)
    (final : UInt64) (payout : Nat) : payoutStep f s k final payout = .error .shift := by
  have hk : 32 ≤ k := by
    by_contra hlt
    rw [stateBit_of_lt s (by omega)] at h
    cases h
  rw [payoutStep, if_pos hk]

/-- States below `2 ^ n` with the same bits are the same state. -/
theorem eq_of_stateBit {s s' : UInt32} {n : Nat} (hn : n ≤ 32) (hs : s.toNat < 2 ^ n)
    (hs' : s'.toNat < 2 ^ n) (h : ∀ k < n, stateBit s k = stateBit s' k) : s = s' := by
  apply UInt32.toNat_inj.mp
  apply Nat.eq_of_testBit_eq
  intro k
  rcases Nat.lt_or_ge k n with hk | hk
  · have hbit := h k hk
    rw [stateBit_of_lt s (by omega), stateBit_of_lt s' (by omega)] at hbit
    rw [Nat.testBit_eq_decide_div_mod_eq, Nat.testBit_eq_decide_div_mod_eq,
      ← Nat.shiftRight_eq_div_pow, ← Nat.shiftRight_eq_div_pow, Except.ok.inj hbit]
  · have hle : 2 ^ n ≤ 2 ^ k := Nat.pow_le_pow_right (by decide) hk
    rw [Nat.testBit_lt_two_pow (hs.trans_le hle), Nat.testBit_lt_two_pow (hs'.trans_le hle)]

/-- The states of a market are the bit vectors over its decisions. -/
structure StateSpace (m : MarketMarket) : Prop where
  count : (marketNStates (some m)).toNat = 2 ^ m.decisionIDs.length
  nonzero : marketNStates (some m) ≠ 0
  /-- every state has a bit for every decision -/
  bits : ∀ s < marketNStates (some m), ∀ k < m.decisionIDs.length, ∃ b, stateBit s k = .ok b
  /-- distinct states have distinct bits -/
  distinct : ∀ s < marketNStates (some m), ∀ s' < marketNStates (some m),
    (∀ k < m.decisionIDs.length, stateBit s k = stateBit s' k) → s = s'

/-- **When the states of a market are its bit vectors**: up to 31 decisions. -/
theorem stateSpace_iff (m : MarketMarket) : StateSpace m ↔ m.decisionIDs.length < 32 := by
  constructor
  · intro h
    by_contra hlen
    exact h.nonzero (marketNStates_of_le (by omega))
  · intro hlen
    have hcount := marketNStates_of_lt hlen
    have hbelow : ∀ s < marketNStates (some m), s.toNat < 2 ^ m.decisionIDs.length :=
      fun s hs => hcount ▸ UInt32.lt_iff_toNat_lt.mp hs
    refine ⟨hcount, ?_, ?_, ?_⟩
    · intro hzero
      have hpos := Nat.two_pow_pos m.decisionIDs.length
      rw [← hcount, hzero] at hpos
      exact absurd hpos (by decide)
    · intro s _ k hk
      exact ⟨_, stateBit_of_lt s (by omega)⟩
    · intro s hs s' hs' hbits
      exact eq_of_stateBit (by omega) (hbelow s hs) (hbelow s' hs') hbits

/-- A market of 32 decisions. -/
def exampleWideMarket : MarketMarket where
  keyID := Blob.null
  B := 100000000
  tradingFee := 0
  maxCommission := 1
  title := []
  description := []
  tags := []
  maturation := 0
  branchid := Blob.null
  decisionIDs := List.replicate 32 Blob.null
  decisionFunctionIDs := List.replicate 32 0
  txPoWh := 0
  txPoWd := 0

/-- Its script is far below the largest size, and `marketObjCtr` reads it; it has no states. -/
theorem exampleWideMarket_not_stateSpace :
    (MarketObj.getScript { data := exampleWideMarket : MarketObj .market }).length ≤ 10000 ∧
      marketObjCtr (MarketObj.getScript { data := exampleWideMarket : MarketObj .market }) =
        .ok (some ⟨.market, { data := exampleWideMarket }⟩) ∧
      ¬ StateSpace exampleWideMarket := by
  refine ⟨by decide +kernel, ?_, ?_⟩
  · have hsizes : MarketOp.market.SizesOk exampleWideMarket :=
      ⟨by decide, by decide, by decide, by decide, by decide⟩
    exact marketObjCtr_getScript hsizes (by decide +kernel)
  · intro h
    exact h.nonzero (marketNStates_of_le (by decide))

end Hivemind
