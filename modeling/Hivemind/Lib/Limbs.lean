import Mathlib.Data.Nat.Digits.Defs
import Mathlib.Data.Nat.Size
import Mathlib.Tactic.Ring

/-!
# Numbers as lists of limbs

A number kept as a list of digits to a large base, the least significant first; its value is
`Nat.ofDigits`.  Arithmetic on it is schoolbook arithmetic.

An operation computes the column totals first and then passes on the carries from the low end,
and what is carried out of the last column is lost.  So each operation is two facts: what the
columns add up to, and that passing on the carries keeps that sum up to a power of the base.  The
second one is proved here once, for any totals.

* `propagate`, `carryOut`: the limbs that the totals turn into, and what is lost.
* `ofDigits_propagate`: passing on the carries keeps the value.
* `testBit_ofDigits`: a bit of the value is a bit of one limb.
* `ofDigits_take_succ`, `ofDigits_take_lt`: the value, from the low end, and its bound.
* `size_add_mul`: the size of a number from its highest limb that is not zero.
* `longDiv_eq`: dividing by shifting and subtracting.
-/

namespace Limbs

open Nat (ofDigits)

variable {b : Nat}

/-! ## Limbs from the low end -/

/-- One limb more. -/
theorem ofDigits_take_succ (ds : List Nat) (n : Nat) :
    ofDigits b (ds.take (n + 1)) = ofDigits b (ds.take n) + b ^ n * ds.getD n 0 := by
  induction ds generalizing n with
  | nil => simp
  | cons d ds ih =>
      cases n with
      | zero => simp [Nat.ofDigits_cons]
      | succ n =>
          simp only [List.take_succ_cons, Nat.ofDigits_cons, List.getD_cons_succ, ih n]
          ring

/-- The first `n` limbs are a number of at most `n` limbs. -/
theorem ofDigits_take_lt (hb : 1 < b) {ds : List Nat} (hds : ∀ d ∈ ds, d < b) (n : Nat) :
    ofDigits b (ds.take n) < b ^ n :=
  (Nat.ofDigits_lt_base_pow_length hb fun d hd => hds d (List.mem_of_mem_take hd)).trans_le
    (Nat.pow_le_pow_right (by omega) (by simp))

/-- The highest limb decides which of two numbers is smaller. -/
theorem add_mul_lt_add_mul {u v x y n : Nat} (hu : u < n) (hxy : x < y) :
    u + n * x < v + n * y := by
  have hle : n * (x + 1) ≤ n * y := Nat.mul_le_mul_left n hxy
  rw [Nat.mul_add, Nat.mul_one] at hle
  omega

/-- A number and the one with the complementary limbs. -/
theorem ofDigits_complement {ds : List Nat} (hds : ∀ d ∈ ds, d < b) :
    ofDigits b ds + ofDigits b (ds.map fun d => b - 1 - d) + 1 = b ^ ds.length := by
  induction ds with
  | nil => simp
  | cons d ds ih =>
      have hd := hds d List.mem_cons_self
      have ih := ih fun x hx => hds x (List.mem_cons_of_mem _ hx)
      have hdigit : d + (b - 1 - d) + 1 = b := by omega
      simp only [List.map_cons, Nat.ofDigits_cons, List.length_cons, Nat.pow_succ']
      calc d + b * ofDigits b ds + (b - 1 - d + b * ofDigits b (ds.map fun d => b - 1 - d)) + 1
          = d + (b - 1 - d) + 1 +
              b * (ofDigits b ds + ofDigits b (ds.map fun d => b - 1 - d)) := by ring
        _ = b * (ofDigits b ds + ofDigits b (ds.map fun d => b - 1 - d) + 1) := by
              rw [hdigit]; ring
        _ = b * b ^ ds.length := by rw [ih]

/-! ## Carries -/

/-- The totals of the columns turned into limbs; `c` is carried into the first. -/
def propagate (b : Nat) : Nat → List Nat → List Nat
  | _, [] => []
  | c, t :: ts => (c + t) % b :: propagate b ((c + t) / b) ts

/-- What is carried out of the last column. -/
def carryOut (b : Nat) : Nat → List Nat → Nat
  | c, [] => c
  | c, t :: ts => carryOut b ((c + t) / b) ts

@[simp] theorem length_propagate (c : Nat) (ts : List Nat) :
    (propagate b c ts).length = ts.length := by
  induction ts generalizing c with
  | nil => rfl
  | cons t ts ih => simp [propagate, ih]

theorem lt_of_mem_propagate (hb : 0 < b) {c d : Nat} {ts : List Nat}
    (hd : d ∈ propagate b c ts) : d < b := by
  induction ts generalizing c with
  | nil => simp [propagate] at hd
  | cons t ts ih =>
      rcases List.mem_cons.mp hd with rfl | hd
      · exact Nat.mod_lt _ hb
      · exact ih hd

/-- Limbs with no carry stay. -/
theorem propagate_zero {ds : List Nat} (hds : ∀ d ∈ ds, d < b) : propagate b 0 ds = ds := by
  induction ds with
  | nil => rfl
  | cons d ds ih =>
      have hd := hds d List.mem_cons_self
      rw [propagate, Nat.zero_add, Nat.mod_eq_of_lt hd, Nat.div_eq_of_lt hd,
        ih fun x hx => hds x (List.mem_cons_of_mem _ hx)]

/-- **Carries keep the value**: what the limbs no longer hold has been carried out. -/
theorem ofDigits_propagate_add (c : Nat) (ts : List Nat) :
    ofDigits b (propagate b c ts) + b ^ ts.length * carryOut b c ts = c + ofDigits b ts := by
  induction ts generalizing c with
  | nil => simp [propagate, carryOut]
  | cons t ts ih =>
      have ih := ih ((c + t) / b)
      have hdigit := Nat.mod_add_div (c + t) b
      simp only [propagate, carryOut, Nat.ofDigits_cons, List.length_cons, Nat.pow_succ']
      calc (c + t) % b + b * ofDigits b (propagate b ((c + t) / b) ts) +
              b * b ^ ts.length * carryOut b ((c + t) / b) ts
          = (c + t) % b + b * (ofDigits b (propagate b ((c + t) / b) ts) +
              b ^ ts.length * carryOut b ((c + t) / b) ts) := by ring
        _ = (c + t) % b + b * ((c + t) / b) + b * ofDigits b ts := by rw [ih]; ring
        _ = c + (t + b * ofDigits b ts) := by rw [hdigit]; ring

/-- The limbs hold the total up to their number. -/
theorem ofDigits_propagate (hb : 1 < b) (c : Nat) (ts : List Nat) :
    ofDigits b (propagate b c ts) = (c + ofDigits b ts) % b ^ ts.length := by
  have hlt : ofDigits b (propagate b c ts) < b ^ ts.length := by
    have := Nat.ofDigits_lt_base_pow_length hb
      (l := propagate b c ts) fun d hd => lt_of_mem_propagate (by omega) hd
    rwa [length_propagate] at this
  rw [← ofDigits_propagate_add c ts, Nat.add_mul_mod_self_left, Nat.mod_eq_of_lt hlt]

/-! ## Bits -/

variable {w : Nat}

/-- A bit of a number is a bit of one of its limbs. -/
theorem testBit_ofDigits (hw : 0 < w) {ds : List Nat} (hds : ∀ d ∈ ds, d < 2 ^ w) (i : Nat) :
    (ofDigits (2 ^ w) ds).testBit i = (ds.getD (i / w) 0).testBit (i % w) := by
  induction ds generalizing i with
  | nil => simp
  | cons d ds ih =>
      have hd := hds d List.mem_cons_self
      have ih := ih fun x hx => hds x (List.mem_cons_of_mem _ hx)
      rw [Nat.ofDigits_cons, Nat.add_comm, Nat.testBit_two_pow_mul_add _ hd]
      by_cases hi : i < w
      · rw [if_pos hi, Nat.div_eq_of_lt hi, Nat.mod_eq_of_lt hi, List.getD_cons_zero]
      · have hdiv : i / w = (i - w) / w + 1 := by
          rw [← Nat.add_div_right _ hw, Nat.sub_add_cancel (by omega)]
        have hmod : i % w = (i - w) % w := Nat.mod_eq_sub_mod (by omega)
        rw [if_neg hi, ih, hdiv, hmod, List.getD_cons_succ]

/-- The size of a number whose highest limb that is not zero is `d`. -/
theorem size_add_mul {v d n : Nat} (hv : v < 2 ^ n) (hd : d ≠ 0) :
    (v + 2 ^ n * d).size = n + d.size := by
  have hpos : 0 < d.size := Nat.size_pos.mpr (by omega)
  apply le_antisymm
  · rw [Nat.size_le, Nat.pow_add]
    have hsize : d + 1 ≤ 2 ^ d.size := Nat.lt_size_self d
    calc v + 2 ^ n * d < 2 ^ n + 2 ^ n * d := by omega
      _ = 2 ^ n * (d + 1) := by ring
      _ ≤ 2 ^ n * 2 ^ d.size := Nat.mul_le_mul_left _ hsize
  · have hlow : 2 ^ (d.size - 1) ≤ d := Nat.lt_size.mp (by omega)
    have hle : 2 ^ (n + d.size - 1) ≤ v + 2 ^ n * d := by
      rw [show n + d.size - 1 = n + (d.size - 1) by omega, Nat.pow_add]
      exact (Nat.mul_le_mul_left _ hlow).trans (Nat.le_add_left ..)
    have := Nat.lt_size.mpr hle
    omega

/-! ## Division -/

/-- `k` turns of a division: the divisor is subtracted where it fits, which sets a bit
of the quotient, and is shifted back. -/
def longDiv : Nat → Nat → Nat → Nat
  | 0, _, _ => 0
  | k + 1, num, d =>
    if d ≤ num then 2 ^ k + longDiv k (num - d) (d / 2) else longDiv k num (d / 2)

/-- **Division by shifting and subtracting**: a divisor that has been shifted far enough
leaves the quotient. -/
theorem longDiv_eq {d : Nat} (hd : 0 < d) (k : Nat) {num : Nat} (hnum : num < d * 2 ^ (k + 1)) :
    longDiv (k + 1) num (d * 2 ^ k) = num / d := by
  induction k generalizing num with
  | zero =>
      simp only [longDiv, Nat.pow_zero, Nat.mul_one]
      by_cases hle : d ≤ num
      · rw [if_pos hle]
        exact (Nat.div_eq_of_lt_le (by omega) (by omega)).symm
      · rw [if_neg hle, Nat.div_eq_of_lt (by omega)]
  | succ k ih =>
      have hhalf : d * 2 ^ (k + 1) / 2 = d * 2 ^ k := by
        rw [Nat.pow_succ, ← Nat.mul_assoc, Nat.mul_div_cancel _ (by omega)]
      rw [longDiv, hhalf]
      by_cases hle : d * 2 ^ (k + 1) ≤ num
      · have hrest : num - d * 2 ^ (k + 1) < d * 2 ^ (k + 1) := by
          rw [Nat.pow_succ 2 (k + 1), ← Nat.mul_assoc] at hnum
          omega
        rw [if_pos hle, ih hrest, Nat.add_comm, ← Nat.add_mul_div_left _ _ hd,
          Nat.sub_add_cancel hle]
      · rw [if_neg hle, ih (by omega)]

end Limbs
