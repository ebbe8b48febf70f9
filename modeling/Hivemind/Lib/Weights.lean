import Mathlib.Algebra.BigOperators.Fin
import Mathlib.Analysis.Convex.StdSimplex
import Mathlib.Tactic.Linarith

/-!
# Loops over vectors, and weighted sums

A `for` loop over the indices of a vector is a fold, in the order of the indices.  The loops that
add up are sums, and the loops that keep the best entry find an extreme entry.

A program that works on vectors is a sequence of such loops, with a condition here and there
about which entries take part.  Stated as sums over `Fin n`, they can be compared with what the
program is meant to compute, and the lemmas of the library about sums apply.  The loop over a
square is one fold inside another; it is a sum over pairs.

Weights are a point of the standard simplex: nonnegative, with sum one.

* `sumLoop_eq`, `sumLoopFrom_eq`, `sumLoop₂_eq`: loops that add up are sums.
* `pickLoop_best`: a loop that keeps the best entry.
* `weighted_sum_const`: the weighted sum of a constant is that constant.
* `le_weighted_sum`: a weighted sum is not below the lower bound of its terms.
* `eq_zero_of_weighted_sum`: values that all agree and have weighted mean zero are zero.
-/

namespace Weighted

open Finset

/-! ## Numerals -/

scoped instance instAtLeastTwoTwo : Nat.AtLeastTwo 2 := ⟨Nat.le_refl 2⟩

scoped instance instAtLeastTwoTen : Nat.AtLeastTwo 10 := ⟨by decide⟩

scoped instance instNeZeroOne : NeZero (1 : Nat) := ⟨Nat.one_ne_zero⟩

/-! ## Loops -/

section Loops

variable {K : Type} {n m : Nat}

/-- `for (i) sum += f(i)`. -/
def sumLoop [Add K] [Zero K] (f : Fin n → K) : K :=
  (List.finRange n).foldl (fun sum i => sum + f i) 0

/-- `for (i) for (j) sum += f(i, j)`. -/
def sumLoop₂ [Add K] [Zero K] (f : Fin n → Fin m → K) : K :=
  (List.finRange n).foldl (fun sum i => (List.finRange m).foldl (fun sum j => sum + f i j) sum) 0

/-- `for (i = start) sum += f(i)`. -/
def sumLoopFrom [Add K] [Zero K] (start : ℕ) (f : Fin n → K) : K :=
  ((List.finRange n).filter fun i => start ≤ i.val).foldl (fun sum i => sum + f i) 0

theorem foldl_add_eq [AddCommMonoid K] (f : Fin n → K) (start : K) :
    (List.finRange n).foldl (fun sum i => sum + f i) start = start + ∑ i, f i := by
  have hmap : ∀ l : List (Fin n), ∀ start : K,
      l.foldl (fun sum i => sum + f i) start = start + (l.map f).sum := by
    intro l
    induction l with
    | nil => intro start; simp
    | cons i l ih =>
      intro start
      rw [List.foldl_cons, ih, List.map_cons, List.sum_cons, add_assoc]
  rw [hmap, Fin.sum_univ_def]

@[simp] theorem sumLoop_eq [AddCommMonoid K] (f : Fin n → K) : sumLoop f = ∑ i, f i := by
  rw [sumLoop, foldl_add_eq, zero_add]

@[simp] theorem sumLoopFrom_eq [AddCommMonoid K] (start : ℕ) (f : Fin n → K) :
    sumLoopFrom start f = ∑ i with start ≤ i.val, f i := by
  have hterm : (fun (sum : K) (i : Fin n) => if decide (start ≤ i.val) then sum + f i else sum) =
      fun sum i => sum + if start ≤ i.val then f i else 0 := by
    funext sum i
    by_cases h : start ≤ i.val <;> simp [h]
  rw [sumLoopFrom, List.foldl_filter, hterm, foldl_add_eq, zero_add, sum_filter]

@[simp] theorem sumLoop₂_eq [AddCommMonoid K] (f : Fin n → Fin m → K) :
    sumLoop₂ f = ∑ i, ∑ j, f i j := by
  have hinner : (fun (sum : K) (i : Fin n) =>
      (List.finRange m).foldl (fun sum j => sum + f i j) sum) = fun sum i => sum + ∑ j, f i j := by
    funext sum i
    exact foldl_add_eq (f i) sum
  rw [sumLoop₂, hinner, foldl_add_eq, zero_add]

/-- Start from the first entry and take each later one that is better. -/
def pickLoop (better : K → K → Prop) [DecidableRel better] (first : K) (rest : List K) : K :=
  rest.foldl (fun best x => if better x best then x else best) first

/-- No entry is better than the one that the loop ends with. -/
theorem pickLoop_best (better : K → K → Prop) [DecidableRel better]
    (hasymm : ∀ a b, better a b → ¬ better b a)
    (htrans : ∀ a b c, ¬ better a b → ¬ better b c → ¬ better a c) (first : K) (rest : List K) :
    ∀ x ∈ first :: rest, ¬ better x (pickLoop better first rest) := by
  induction rest generalizing first with
  | nil =>
    intro x hx
    rw [List.mem_singleton.mp hx]
    exact fun h => hasymm _ _ h h
  | cons y rest ih =>
    intro x hx
    -- the loop goes on from the better one of the first two
    have h := ih (if better y first then y else first)
    have hpick : pickLoop better first (y :: rest)
        = pickLoop better (if better y first then y else first) rest := rfl
    rw [hpick]
    have hhead := h _ List.mem_cons_self
    by_cases hy : better y first
    · simp only [if_pos hy] at h hhead ⊢
      rcases List.mem_cons.mp hx with rfl | hx
      · exact htrans _ _ _ (hasymm _ _ hy) hhead
      · exact h x hx
    · simp only [if_neg hy] at h hhead ⊢
      rcases List.mem_cons.mp hx with rfl | hx
      · exact hhead
      · rcases List.mem_cons.mp hx with rfl | hx
        · exact htrans _ _ _ hy hhead
        · exact h x (List.mem_cons_of_mem _ hx)

end Loops

/-! ## Weighted sums -/

section Weights

variable {K ι : Type} [Field K] [LinearOrder K] [Fintype ι] {w s : ι → K} {c : K}

/-- The weighted sum of a constant is that constant. -/
theorem weighted_sum_const (hw : w ∈ stdSimplex K ι) (c : K) : ∑ i, w i * c = c := by
  rw [← sum_mul, hw.2, one_mul]

/-- Values that all agree and have weighted mean zero are zero. -/
theorem eq_zero_of_weighted_sum (hw : w ∈ stdSimplex K ι) (hmean : ∑ i, w i * s i = 0)
    (h : ∀ i, s i = c) : c = 0 := by
  rw [← weighted_sum_const hw c, ← hmean]
  exact sum_congr rfl fun i _ => by rw [h i]

variable [IsStrictOrderedRing K]

theorem le_weighted_sum (hw : w ∈ stdSimplex K ι) (h : ∀ i, c ≤ s i) : c ≤ ∑ i, w i * s i :=
  calc c = ∑ i, w i * c := (weighted_sum_const hw c).symm
    _ ≤ ∑ i, w i * s i := sum_le_sum fun i _ => mul_le_mul_of_nonneg_left (h i) (hw.1 i)

end Weights

end Weighted
