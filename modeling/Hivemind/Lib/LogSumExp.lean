import Mathlib

/-!
# The logarithmic scoring rule

A vector of outstanding shares `q` over finitely many states costs `b · log ∑ exp (q i / b)`, and
the price of a state is the derivative of the cost in its share.  The number `b` is the
liquidity: the larger it is, the less a trade moves the prices.

A market maker that follows the rule charges a trade the difference of two costs.  What makes the
rule useful is that buying one share of every state costs exactly one share's face value, and
that the prices are a probability distribution.  A sum that leaves states out breaks the first
law and is smaller than it should be, whichever states these are.

* `cost`, `costOn`, `price`: the cost, the same with only some of the states, and the price.
* `cost_add_const`: the same amount of every share is worth that amount.
* `sum_price`, `hasDerivAt_cost`: the prices are the derivatives, and sum to one.
* `costOn_lt_cost`: a state that is left out of the sum makes the cost smaller.
-/

namespace LogSumExp

open Finset

noncomputable section

variable {ι : Type*} [Fintype ι]

/-- The cost of the shares of the states in `s`. -/
def costOn (b : ℝ) (s : Finset ι) (q : ι → ℝ) : ℝ := b * Real.log (∑ i ∈ s, Real.exp (q i / b))

/-- The cost of a share vector with liquidity `b`. -/
def cost (b : ℝ) (q : ι → ℝ) : ℝ := b * Real.log (∑ i, Real.exp (q i / b))

/-- The price of a share of state `i`. -/
def price (b : ℝ) (q : ι → ℝ) (i : ι) : ℝ := Real.exp (q i / b) / ∑ j, Real.exp (q j / b)

variable {b : ℝ} {q : ι → ℝ}

omit [Fintype ι] in
theorem sumExp_pos {s : Finset ι} (hs : s.Nonempty) : 0 < ∑ i ∈ s, Real.exp (q i / b) :=
  sum_pos (fun _ _ => Real.exp_pos _) hs

theorem cost_add_const [Nonempty ι] (hb : b ≠ 0) (c : ℝ) :
    cost b (fun i => q i + c) = cost b q + c := by
  have hfactor : ∑ i, Real.exp ((q i + c) / b) = Real.exp (c / b) * ∑ i, Real.exp (q i / b) := by
    rw [mul_sum]
    refine sum_congr rfl fun i _ => ?_
    rw [add_div, Real.exp_add, mul_comm]
  have hpos : 0 < ∑ i, Real.exp (q i / b) := sumExp_pos univ_nonempty
  rw [cost, hfactor, Real.log_mul (Real.exp_ne_zero _) hpos.ne', Real.log_exp, mul_add,
    mul_div_cancel₀ c hb, add_comm, cost]

theorem sum_price [Nonempty ι] : ∑ i, price b q i = 1 := by
  have hpos : 0 < ∑ i, Real.exp (q i / b) := sumExp_pos univ_nonempty
  simp only [price]
  rw [← sum_div, div_self hpos.ne']

/-- **The price is the derivative of the cost.** -/
theorem hasDerivAt_cost [DecidableEq ι] (hb : b ≠ 0) (i : ι) :
    HasDerivAt (fun x => cost b (Function.update q i x)) (price b q i) (q i) := by
  have hpos : 0 < ∑ j, Real.exp (q j / b) := sumExp_pos ⟨i, mem_univ i⟩
  have hterm : ∀ j ∈ univ, HasDerivAt (fun x => Real.exp (Function.update q i x j / b))
      (if j = i then Real.exp (q i / b) / b else 0) (q i) := by
    intro j _
    by_cases h : j = i
    · subst h
      have hexp := ((hasDerivAt_id (q j)).div_const b).exp
      simpa [div_eq_mul_inv] using hexp
    · simpa [h] using hasDerivAt_const (q i) (Real.exp (q j / b))
  have hsum := HasDerivAt.fun_sum hterm
  rw [sum_ite_eq' univ i, if_pos (mem_univ i)] at hsum
  have hat : ∑ j, Real.exp (Function.update q i (q i) j / b) = ∑ j, Real.exp (q j / b) := by
    rw [Function.update_eq_self]
  have hlog := (hsum.log (by rw [hat]; exact hpos.ne')).const_mul b
  rw [hat] at hlog
  have hprice : b * (Real.exp (q i / b) / b / ∑ j, Real.exp (q j / b)) = price b q i := by
    rw [price]
    field_simp
  exact hprice ▸ hlog

/-- A state that is left out makes the cost smaller. -/
theorem costOn_lt_cost (hb : 0 < b) {s : Finset ι} (hs : s.Nonempty) {i : ι} (hi : i ∉ s) :
    costOn b s q < cost b q := by
  have hlt : ∑ j ∈ s, Real.exp (q j / b) < ∑ j, Real.exp (q j / b) :=
    sum_lt_sum_of_subset (subset_univ s) (mem_univ i) hi (Real.exp_pos _)
      fun _ _ _ => (Real.exp_pos _).le
  exact mul_lt_mul_of_pos_left (Real.log_lt_log (sumExp_pos hs) hlt) hb

end

end LogSumExp
