import Mathlib
import Hivemind.Lib.LogSumExp
import Hivemind.Lib.Weights
import Hivemind.Primitives.Shares

/-!
# The account value of a market

`marketAccountValue`, with `exp` and `log` the real functions.  A quotient by zero, and the
logarithm of a number that is not positive, are faults.

A market without commission has a fixed liquidity and skips the states without shares; the
scoring rule has a term for each of them.  The value is thus the cost with some states left out,
and the general lemma on such costs says that it is smaller.  A market with commission has a
liquidity that grows with the shares outstanding, and does not skip a state.

The law that a market maker relies on is stated for prices too: `PriceAt` is the derivative of
the value, so the condition has to hold around the shares and not only at them.

* `marketAccountValue_nonLs`: a market without commission adds up the states that hold shares.
* `lmsrLaw_iff`: **it follows the scoring rule** where no state holds zero shares.
* `newMarket_not_lmsrLaw`: the market before its first trade has no account value at all.
* `marketAccountValue_ls`: a market with commission follows it at its effective liquidity.
-/

namespace Hivemind

open Finset Topology Weighted

noncomputable section

/-! ## The function -/

/-- What takes a computation out of the real numbers. -/
inductive RealFault where
  | divByZero
  | logOfNonpos
  deriving DecidableEq

/-- `a / b`. -/
def realDiv (a b : ℝ) : Except RealFault ℝ :=
  if b = 0 then .error .divByZero else .ok (a / b)

/-- `FDLIBM_log`. -/
def fdlibmLog (x : ℝ) : Except RealFault ℝ :=
  if 0 < x then .ok (Real.log x) else .error .logOfNonpos

/-- A turn of the loop of a market without commission: a state of no shares is skipped. -/
def nonLsTurn {n : Nat} (B : ℝ) (nShares : DoublePtr ℝ n) (sumExp : ℝ) (i : Fin n) :
    Except RealFault ℝ :=
  if nShares.elim 0 (fun q => q i) = 0 then .ok sumExp
  else do
    let x ← realDiv (nShares.elim 0 fun q => q i) B
    .ok (sumExp + Real.exp x)

/-- A turn of the last loop of a market with commission. -/
def lsTurn {n : Nat} (B minShares : ℝ) (nShares : DoublePtr ℝ n) (sumExp : ℝ) (i : Fin n) :
    Except RealFault ℝ := do
  let x ← realDiv (nShares.elim minShares fun q => q i) B
  .ok (sumExp + Real.exp x)

/-- `marketAccountValue`. -/
def marketAccountValue (maxCommission B : ℝ) (nStates : UInt32)
    (nShares : DoublePtr ℝ nStates.toNat) : Except RealFault ℝ :=
  if maxCommission = 0 then do
    let sumExp ← (List.finRange nStates.toNat).foldlM (nonLsTurn B nShares) 0
    let l ← fdlibmLog sumExp
    .ok (B * l)
  else do
    let l ← fdlibmLog (nStates.toNat : ℝ)
    let minShares ← realDiv (B * l) maxCommission
    let sumShares := sumLoop fun i => nShares.elim minShares fun q => q i
    let r ← realDiv sumShares ((nStates.toNat : ℝ) * minShares)
    let B := B * r
    let sumExp ← (List.finRange nStates.toNat).foldlM (lsTurn B minShares nShares) 0
    let l ← fdlibmLog sumExp
    .ok (B * l)

theorem realDiv_of_ne {a b : ℝ} (h : b ≠ 0) : realDiv a b = .ok (a / b) := if_neg h

@[simp] theorem realDiv_zero (a : ℝ) : realDiv a 0 = .error .divByZero := if_pos rfl

theorem fdlibmLog_of_pos {x : ℝ} (h : 0 < x) : fdlibmLog x = .ok (Real.log x) := if_pos h

/-- A loop none of whose turns fails is a fold. -/
theorem foldlM_ok {α β : Type} {turn : β → α → Except RealFault β} {f : β → α → β}
    (hturn : ∀ b a, turn b a = .ok (f b a)) (l : List α) (b : β) :
    l.foldlM turn b = .ok (l.foldl f b) := by
  induction l generalizing b with
  | nil => rfl
  | cons a l ih =>
    rw [List.foldlM_cons, hturn, List.foldl_cons]
    exact ih (f b a)

/-! ## Without commission -/

section NonLs

variable {B : ℝ} {nStates : UInt32} {q : Fin nStates.toNat → ℝ}

/-- The states that the loop does not skip. -/
def held {n : Nat} (q : Fin n → ℝ) : Finset (Fin n) := {i | q i ≠ 0}

theorem held_eq_univ {n : Nat} {q : Fin n → ℝ} : held q = univ ↔ ∀ i, q i ≠ 0 := by
  simp [held, filter_eq_self]

/-- **A market without commission adds up the states that hold shares.** -/
theorem marketAccountValue_nonLs (hB : B ≠ 0) :
    marketAccountValue 0 B nStates (some q) =
      (fdlibmLog (∑ i ∈ held q, Real.exp (q i / B))).map (B * ·) := by
  have hturn : ∀ (sumExp : ℝ) (i : Fin nStates.toNat), nonLsTurn B (some q) sumExp i =
      .ok (sumExp + if q i ≠ 0 then Real.exp (q i / B) else 0) := by
    intro sumExp i
    by_cases h : q i = 0
    · simp [nonLsTurn, h]
    · simp [nonLsTurn, h, realDiv_of_ne hB, bind, Except.bind]
  rw [marketAccountValue, if_pos rfl, foldlM_ok hturn, foldl_add_eq, zero_add, ← sum_filter]
  cases hl : fdlibmLog (∑ i ∈ held q, Real.exp (q i / B)) <;>
    simp only [held] at hl <;> simp only [hl, bind, Except.bind, Except.map]

/-- The value is the cost of the states that hold shares, as soon as there is one. -/
theorem marketAccountValue_of_held (hB : B ≠ 0) (h : (held q).Nonempty) :
    marketAccountValue 0 B nStates (some q) = .ok (LogSumExp.costOn B (held q) q) := by
  rw [marketAccountValue_nonLs hB, fdlibmLog_of_pos (LogSumExp.sumExp_pos h)]
  rfl

/-- Nothing can be said of a market whose shares are all zero. -/
theorem marketAccountValue_of_not_held (hB : B ≠ 0) (h : held q = ∅) :
    marketAccountValue 0 B nStates (some q) = .error .logOfNonpos := by
  rw [marketAccountValue_nonLs hB, h, sum_empty, fdlibmLog, if_neg (lt_irrefl 0)]
  rfl

/-- The value is the cost of the scoring rule exactly where every state holds shares. -/
theorem marketAccountValue_eq_cost_iff (hB : 0 < B) (hn : nStates ≠ 0) :
    marketAccountValue 0 B nStates (some q) = .ok (LogSumExp.cost B q) ↔ ∀ i, q i ≠ 0 := by
  have hpos : 0 < nStates.toNat := Nat.pos_of_ne_zero fun h0 => hn (UInt32.toNat_inj.mp h0)
  constructor
  · intro h i hi
    rcases (held q).eq_empty_or_nonempty with hempty | hne
    · rw [marketAccountValue_of_not_held hB.ne' hempty] at h
      cases h
    · have hi' : i ∉ held q := by simp [held, hi]
      rw [marketAccountValue_of_held hB.ne' hne] at h
      exact (LogSumExp.costOn_lt_cost hB hne hi').ne (Except.ok.inj h)
  · intro h
    have huniv : held q = univ := held_eq_univ.mpr h
    rw [marketAccountValue_of_held hB.ne' (huniv ▸ ⟨⟨0, hpos⟩, mem_univ _⟩), huniv]
    rfl

/-! ## The scoring rule -/

/-- `p` is the price that `value` gives to a share of state `i`: the derivative in `q i`. -/
def PriceAt {n : Nat} (value : (Fin n → ℝ) → Except RealFault ℝ) (q : Fin n → ℝ) (i : Fin n)
    (p : ℝ) : Prop :=
  ∃ v : ℝ → ℝ, (∀ᶠ x in 𝓝 (q i), value (Function.update q i x) = .ok (v x)) ∧
    HasDerivAt v p (q i)

/-- The law of the scoring rule for liquidity `B`, shares `q` and an amount `c` of each. -/
structure LmsrLaw (B : ℝ) (nStates : UInt32) (q : Fin nStates.toNat → ℝ) (c : ℝ) : Prop where
  /-- the value is the cost over all states -/
  cost : marketAccountValue 0 B nStates (some q) =
    .ok (B * Real.log (∑ i, Real.exp (q i / B)))
  /-- the same amount of every state is worth that amount -/
  shift : ∃ v, marketAccountValue 0 B nStates (some q) = .ok v ∧
    marketAccountValue 0 B nStates (some fun i => q i + c) = .ok (v + c)
  /-- the prices sum to one -/
  prices : ∃ p : Fin nStates.toNat → ℝ,
    (∀ i, PriceAt (fun q => marketAccountValue 0 B nStates (some q)) q i (p i)) ∧ ∑ i, p i = 1

/-- Around shares that are not zero the value is the cost, so the prices are those of the rule. -/
theorem priceAt_of_ne (hB : 0 < B) (hn : nStates ≠ 0) (h : ∀ i, q i ≠ 0)
    (i : Fin nStates.toNat) :
    PriceAt (fun q => marketAccountValue 0 B nStates (some q)) q i (LogSumExp.price B q i) := by
  refine ⟨fun x => LogSumExp.cost B (Function.update q i x), ?_,
    LogSumExp.hasDerivAt_cost hB.ne' i⟩
  filter_upwards [isOpen_ne.mem_nhds (h i)] with x hx
  refine (marketAccountValue_eq_cost_iff hB hn).mpr fun j => ?_
  by_cases hj : j = i
  · subst hj
    simpa using hx
  · simpa [hj] using h j

/-- **When the scoring rule holds**: no state holds zero shares, before and after. -/
theorem lmsrLaw_iff {B : ℝ} (hB : 0 < B) {nStates : UInt32} (hn : nStates ≠ 0)
    (q : Fin nStates.toNat → ℝ) (c : ℝ) :
    LmsrLaw B nStates q c ↔ (∀ i, q i ≠ 0) ∧ ∀ i, q i + c ≠ 0 := by
  have hpos : 0 < nStates.toNat := Nat.pos_of_ne_zero fun h0 => hn (UInt32.toNat_inj.mp h0)
  have : Nonempty (Fin nStates.toNat) := ⟨⟨0, hpos⟩⟩
  constructor
  · rintro ⟨hcost, ⟨v, hv, hshift⟩, -⟩
    have hv' : v = LogSumExp.cost B q := Except.ok.inj (hv.symm.trans hcost)
    refine ⟨(marketAccountValue_eq_cost_iff hB hn).mp hcost,
      (marketAccountValue_eq_cost_iff hB hn).mp ?_⟩
    rw [hshift, hv', LogSumExp.cost_add_const hB.ne']
  · rintro ⟨hq, hqc⟩
    have hcost := (marketAccountValue_eq_cost_iff hB hn).mpr hq
    refine ⟨hcost, ⟨_, hcost, ?_⟩, LogSumExp.price B q, priceAt_of_ne hB hn hq,
      LogSumExp.sum_price⟩
    rw [(marketAccountValue_eq_cost_iff hB hn).mpr hqc, LogSumExp.cost_add_const hB.ne']

/-- Shares that are one everywhere follow the rule. -/
theorem lmsrLaw_ones : LmsrLaw 1 2 (fun _ => 1) 1 :=
  (lmsrLaw_iff one_pos (by decide) _ _).mpr ⟨fun _ => one_ne_zero, fun _ => by norm_num⟩

/-- The market before its first trade has no account value at all. -/
theorem newMarket_not_lmsrLaw : ¬ LmsrLaw 1 2 (fun _ => 0) 0 := by
  rintro ⟨hcost, -, -⟩
  have hempty : held (fun _ : Fin (2 : UInt32).toNat => (0 : ℝ)) = ∅ := by simp [held]
  rw [marketAccountValue_of_not_held one_ne_zero hempty] at hcost
  cases hcost

end NonLs

/-! ## With commission -/

section Ls

variable {maxCommission B : ℝ} {nStates : UInt32}

/-- `minShares`, the initial purchase of the author in each state. -/
def minShares (maxCommission B : ℝ) (nStates : UInt32) : ℝ :=
  B * Real.log nStates.toNat / maxCommission

/-- The liquidity that the last loop divides by. -/
def effectiveLiquidity (maxCommission B : ℝ) (nStates : UInt32) (q : Fin nStates.toNat → ℝ) : ℝ :=
  B * ((∑ i, q i) / ((nStates.toNat : ℝ) * minShares maxCommission B nStates))

theorem minShares_pos (hmc : 0 < maxCommission) (hB : 0 < B) (hn : 2 ≤ nStates.toNat) :
    0 < minShares maxCommission B nStates := by
  have hlog : 0 < Real.log nStates.toNat := Real.log_pos (by exact_mod_cast hn)
  exact div_pos (mul_pos hB hlog) hmc

/-- The liquidity has the sign of the shares that are outstanding. -/
theorem effectiveLiquidity_pos_iff (hmc : 0 < maxCommission) (hB : 0 < B)
    (hn : 2 ≤ nStates.toNat) (q : Fin nStates.toNat → ℝ) :
    0 < effectiveLiquidity maxCommission B nStates q ↔ 0 < ∑ i, q i := by
  have hcount : (0 : ℝ) < nStates.toNat := by exact_mod_cast (by omega : 0 < nStates.toNat)
  have hden := mul_pos hcount (minShares_pos hmc hB hn)
  rw [effectiveLiquidity, mul_pos_iff_of_pos_left hB]
  exact div_pos_iff_of_pos_right hden

/-- **A market with commission is valued by the rule at its effective liquidity**, and
divides by zero when that is zero. -/
theorem marketAccountValue_ls (hmc : 0 < maxCommission) (hB : 0 < B) (hn : 2 ≤ nStates.toNat)
    (q : Fin nStates.toNat → ℝ) :
    marketAccountValue maxCommission B nStates (some q) =
      if effectiveLiquidity maxCommission B nStates q = 0 then .error .divByZero
      else .ok (LogSumExp.cost (effectiveLiquidity maxCommission B nStates q) q) := by
  have hcount : (0 : ℝ) < nStates.toNat := by exact_mod_cast (by omega : 0 < nStates.toNat)
  have hmin := minShares_pos hmc hB hn
  have hstart : marketAccountValue maxCommission B nStates (some q) = (do
      let sumExp ← (List.finRange nStates.toNat).foldlM
        (lsTurn (effectiveLiquidity maxCommission B nStates q)
          (minShares maxCommission B nStates) (some q)) 0
      let l ← fdlibmLog sumExp
      .ok (effectiveLiquidity maxCommission B nStates q * l)) := by
    rw [marketAccountValue, if_neg hmc.ne', fdlibmLog_of_pos hcount]
    simp only [bind, Except.bind, realDiv_of_ne hmc.ne', sumLoop_eq, Option.elim_some]
    have hdiv : realDiv (∑ i, q i)
        ((nStates.toNat : ℝ) * (B * Real.log nStates.toNat / maxCommission)) =
        .ok ((∑ i, q i) / ((nStates.toNat : ℝ) * minShares maxCommission B nStates)) :=
      realDiv_of_ne (mul_pos hcount hmin).ne'
    rw [hdiv]
    rfl
  rw [hstart]
  split_ifs with hzero
  · obtain ⟨i, l, hl⟩ : ∃ i l, List.finRange nStates.toNat = i :: l :=
      List.exists_cons_of_length_pos (by rw [List.length_finRange]; omega)
    rw [hzero, hl, List.foldlM_cons, lsTurn, realDiv_zero]
    rfl
  · have hturn : ∀ (sumExp : ℝ) (i : Fin nStates.toNat),
        lsTurn (effectiveLiquidity maxCommission B nStates q)
          (minShares maxCommission B nStates) (some q) sumExp i =
        .ok (sumExp + Real.exp (q i / effectiveLiquidity maxCommission B nStates q)) := by
      intro sumExp i
      rw [lsTurn, realDiv_of_ne hzero]
      rfl
    have hne : (univ : Finset (Fin nStates.toNat)).Nonempty := ⟨⟨0, by omega⟩, mem_univ _⟩
    rw [foldlM_ok hturn, foldl_add_eq, zero_add]
    simp only [bind, Except.bind, fdlibmLog_of_pos (LogSumExp.sumExp_pos hne)]
    rfl

end Ls

end

end Hivemind
