import Mathlib.Algebra.BigOperators.Ring.Finset
import Mathlib.Algebra.BigOperators.Intervals

/-!
# States of several two-way choices

A state of `k` choices is a number below `2 ^ k`, with one bit for each choice and the first
choice in the lowest bit.  A table with an entry for each state is then a list of `2 ^ k`
entries, and a state is an index into it.

Where the weight of a state is the product of what each choice gives to its bit, a sum over all
states is never computed: it is a product of sums, one for each choice.  When the two ways of
every choice sum to one, so do the weights, and all weight is on one state when every choice
gives one of its ways the weight one.

* `stateProduct`: the product of what each choice gives to its bit of the state.
* `sum_stateProduct`: **a product over the choices, summed over all states**, is a product of
  sums.
* `stateOf`: the state that takes a given way at each choice.
-/

namespace States

open Finset

variable {α : Type} [CommSemiring α]

/-- The product of what each choice gives to its bit of the state. -/
def stateProduct : List (Nat → α) → Nat → α
  | [], _ => 1
  | g :: gs, s => g (s % 2) * stateProduct gs (s / 2)

theorem sum_range_two_mul (f : Nat → α) (n : Nat) :
    ∑ s ∈ range (2 * n), f s = ∑ s ∈ range n, (f (2 * s) + f (2 * s + 1)) := by
  induction n with
  | zero => simp
  | succ n ih =>
      rw [Nat.mul_succ, sum_range_succ, sum_range_succ, ih, sum_range_succ, add_assoc]

/-- **Summing over all states** sums over the two ways of each choice. -/
theorem sum_stateProduct (gs : List (Nat → α)) :
    ∑ s ∈ range (2 ^ gs.length), stateProduct gs s = (gs.map fun g => g 0 + g 1).prod := by
  induction gs with
  | nil => simp [stateProduct]
  | cons g gs ih =>
      have hpair : ∀ s, stateProduct (g :: gs) (2 * s) + stateProduct (g :: gs) (2 * s + 1) =
          (g 0 + g 1) * stateProduct gs s := by
        intro s
        have heven : 2 * s % 2 = 0 ∧ 2 * s / 2 = s := by omega
        have hodd : (2 * s + 1) % 2 = 1 ∧ (2 * s + 1) / 2 = s := by omega
        simp only [stateProduct, heven, hodd, add_mul]
      rw [List.length_cons, pow_succ', sum_range_two_mul, sum_congr rfl fun s _ => hpair s,
        ← mul_sum, ih, List.map_cons, List.prod_cons]

/-- The state that takes the given ways. -/
def stateOf : List Bool → Nat
  | [] => 0
  | b :: bs => b.toNat + 2 * stateOf bs

theorem stateOf_lt (bs : List Bool) : stateOf bs < 2 ^ bs.length := by
  induction bs with
  | nil => simp [stateOf]
  | cons b bs ih =>
      have hb : b.toNat ≤ 1 := b.toNat_le
      simp only [stateOf, List.length_cons, pow_succ]
      omega

@[simp]
theorem stateOf_cons_mod (b : Bool) (bs : List Bool) : stateOf (b :: bs) % 2 = b.toNat := by
  cases b <;> simp [stateOf]

@[simp]
theorem stateOf_cons_div (b : Bool) (bs : List Bool) : stateOf (b :: bs) / 2 = stateOf bs := by
  have hb : b.toNat ≤ 1 := b.toNat_le
  simp only [stateOf]
  omega

end States
