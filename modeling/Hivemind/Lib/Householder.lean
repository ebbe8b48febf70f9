import Mathlib

/-!
# Orthogonal matrices and reflections

A matrix has orthonormal columns when its transpose is a left inverse, and is orthogonal when the
transpose is an inverse.  The reflection `1 - τ u uᵀ` is orthogonal as soon as `τ (u ⬝ u) = 2`.

The reflection of a vector `x` at position `k` leaves the entries before `k` alone, puts the
length of the rest at `k` and zeros after it.  A vector that vanishes from `k` on does not move.

Lengths are square roots, and the lemmas are about any field: the length is a number `b` with
`b ^ 2` the sum of the squares, as a hypothesis, which is what a caller gets from its own square
root.  So no lemma here speaks of a square root or of the sign that an implementation picks for
it.

* `isOrthogonal_reflection`: reflections are orthogonal.
* `tau_mul_dotProduct_pivot`: the vector of the reflection has the right length.
* `pivot_reflect`: what the reflection makes of `x`.
* `reflection_mul_of_lt`, `reflection_mul_of_zero`, `reflection_mul_self_column`: the rows and
  columns a reflection keeps, and the one it clears.
* `mul_reflection_eq`: the same for reflections from the right, through the transpose.
-/

namespace Householder

open Matrix Finset

/-! ## Orthogonal matrices -/

section Orthogonal

variable {K ι κ : Type*} [CommRing K] [Fintype ι] [DecidableEq ι] [Fintype κ] [DecidableEq κ]

/-- The columns of the matrix have length one and are orthogonal to each other. -/
def OrthonormalColumns (A : Matrix ι κ K) : Prop := Aᵀ * A = 1

/-- The transpose is the inverse. -/
structure IsOrthogonal (A : Matrix ι ι K) : Prop where
  columns : Aᵀ * A = 1
  rows : A * Aᵀ = 1

theorem isOrthogonal_of_columns {A : Matrix ι ι K} (h : Aᵀ * A = 1) : IsOrthogonal A :=
  ⟨h, mul_eq_one_comm.mp h⟩

theorem isOrthogonal_one : IsOrthogonal (1 : Matrix ι ι K) :=
  isOrthogonal_of_columns (by simp)

theorem IsOrthogonal.transpose {A : Matrix ι ι K} (h : IsOrthogonal A) : IsOrthogonal Aᵀ :=
  ⟨by simpa using h.rows, by simpa using h.columns⟩

omit [Fintype κ] [DecidableEq κ] in
/-- What is undone again between two factors does not change a product. -/
theorem mul_mul_cancel_middle {μ : Type*} {P Q : Matrix ι ι K} (h : P * Q = 1)
    (U : Matrix κ ι K) (B : Matrix ι μ K) : U * P * (Q * B) = U * B := by
  rw [Matrix.mul_assoc, ← Matrix.mul_assoc P, h, Matrix.one_mul]

omit [DecidableEq κ] in
theorem OrthonormalColumns.mul {U : Matrix κ ι K} {P : Matrix ι ι K}
    (hU : OrthonormalColumns U) (hP : IsOrthogonal P) : OrthonormalColumns (U * P) := by
  have hU : Uᵀ * U = 1 := hU
  calc (U * P)ᵀ * (U * P) = Pᵀ * (Uᵀ * U) * P := by
        rw [transpose_mul]
        simp only [Matrix.mul_assoc]
    _ = 1 := by rw [hU, Matrix.mul_one, hP.columns]

theorem IsOrthogonal.mul {A B : Matrix ι ι K} (hA : IsOrthogonal A) (hB : IsOrthogonal B) :
    IsOrthogonal (A * B) :=
  isOrthogonal_of_columns (OrthonormalColumns.mul hA.columns hB)

end Orthogonal

/-! ## Reflections -/

section Reflection

variable {K ι κ : Type*} [CommRing K] [Fintype ι] [DecidableEq ι]

/-- `1 - τ u uᵀ`. -/
def reflection (τ : K) (u : ι → K) : Matrix ι ι K := 1 - τ • vecMulVec u u

omit [Fintype ι] in
@[simp] theorem reflection_transpose (τ : K) (u : ι → K) :
    (reflection τ u)ᵀ = reflection τ u := by
  simp [reflection, transpose_vecMulVec]

theorem reflection_mulVec (τ : K) (u v : ι → K) :
    reflection τ u *ᵥ v = v - (τ * u ⬝ᵥ v) • u := by
  ext i
  simp [reflection, sub_mulVec, smul_mulVec, vecMulVec_mulVec, mul_comm, mul_left_comm]

/-- The columns of a product with the reflection are reflected one by one. -/
theorem reflection_mul_apply (τ : K) (u : ι → K) (B : Matrix ι κ K) (i : ι) (j : κ) :
    (reflection τ u * B) i j = B i j - τ * (u ⬝ᵥ fun k => B k j) * u i := by
  have h := congrFun (reflection_mulVec τ u fun k => B k j) i
  simpa [Matrix.mul_apply, mulVec, dotProduct] using h

/-- And so are the rows, from the other side. -/
theorem mul_reflection_apply (τ : K) (u : ι → K) (B : Matrix κ ι K) (i : κ) (j : ι) :
    (B * reflection τ u) i j = B i j - τ * (u ⬝ᵥ B i) * u j := by
  have h := reflection_mul_apply τ u Bᵀ j i
  rw [← reflection_transpose, ← transpose_mul] at h
  exact h

/-- The reflection undoes itself. -/
theorem reflection_mul_self {τ : K} {u : ι → K} (h : τ * u ⬝ᵥ u = 2) :
    reflection τ u * reflection τ u = 1 := by
  ext i j
  rw [reflection_mul_apply]
  have hcol : (u ⬝ᵥ fun k => reflection τ u k j) = u j - τ * (u ⬝ᵥ u) * u j := by
    have hj := mul_reflection_apply τ u (Matrix.of fun _ : ι => u) j j
    simpa [Matrix.mul_apply, dotProduct] using hj
  have hij : reflection τ u i j = (1 : Matrix ι ι K) i j - τ * (u i * u j) := by
    simp [reflection, vecMulVec_apply]
  rw [hcol, hij, h]
  ring

theorem isOrthogonal_reflection {τ : K} {u : ι → K} (h : τ * u ⬝ᵥ u = 2) :
    IsOrthogonal (reflection τ u) :=
  isOrthogonal_of_columns (by rw [reflection_transpose, reflection_mul_self h])

end Reflection

/-! ## The reflection of a vector at a position -/

section Pivot

variable {K : Type*} [Field K] {n : ℕ}

/-- Zero before the position, one there, and `x / s` after it. -/
def pivot (x : Fin n → K) (k : ℕ) (s : K) : Fin n → K :=
  fun i => if k < i.val then x i / s else if i.val = k then 1 else 0

/-- The sum of the squares from a position on. -/
def tailNorm (x : Fin n → K) (k : ℕ) : K := ∑ i with k ≤ i.val, x i * x i

theorem pivot_of_lt {x : Fin n → K} {k : ℕ} {s : K} {i : Fin n} (h : i.val < k) :
    pivot x k s i = 0 := by
  rw [pivot, if_neg (by omega), if_neg (by omega)]

/-- A vector that is zero from the position on is orthogonal to the pivot vector. -/
theorem pivot_dotProduct_of_zero {x y : Fin n → K} {k : ℕ} {s : K}
    (h : ∀ i : Fin n, k ≤ i.val → y i = 0) : pivot x k s ⬝ᵥ y = 0 := by
  refine sum_eq_zero fun i _ => ?_
  by_cases hi : i.val < k
  · rw [pivot_of_lt hi, zero_mul]
  · rw [h i (not_lt.mp hi), mul_zero]

/-- A dot product with the pivot vector, the entry at the position apart. -/
theorem pivot_dotProduct {x : Fin n → K} {k : Fin n} {s : K} (y : Fin n → K) :
    pivot x k s ⬝ᵥ y = y k + (∑ i with k.val < i.val, x i * y i) / s := by
  have hterm : ∀ i : Fin n, pivot x k s i * y i =
      (if i = k then y i else 0) + (if k.val < i.val then x i * y i / s else 0) := by
    intro i
    rw [pivot]
    by_cases hlt : k.val < i.val
    · have hne : i ≠ k := fun h => absurd hlt (by simp [h])
      rw [if_pos hlt, if_pos hlt, if_neg hne, zero_add, div_mul_eq_mul_div]
    · by_cases heq : i = k
      · simp [heq]
      · have hne : i.val ≠ k.val := fun h => heq (Fin.ext h)
        simp [hlt, heq, hne]
  rw [dotProduct, sum_congr rfl fun i _ => hterm i, sum_add_distrib, sum_div, sum_filter]
  simp

theorem tailNorm_eq (x : Fin n → K) (k : Fin n) :
    tailNorm x k = x k * x k + ∑ i with k.val < i.val, x i * x i := by
  have hsplit : ∀ i : Fin n, (if k.val ≤ i.val then x i * x i else 0) =
      (if i = k then x i * x i else 0) + if k.val < i.val then x i * x i else 0 := by
    intro i
    by_cases heq : i = k
    · simp [heq]
    · have hne : i.val ≠ k.val := fun h => heq (Fin.ext h)
      have hiff : k.val ≤ i.val ↔ k.val < i.val := by omega
      simp [heq, hiff]
  rw [tailNorm, sum_filter, sum_congr rfl fun i _ => hsplit i, sum_add_distrib, sum_filter]
  simp

variable {x : Fin n → K} {k : Fin n} {b s : K}

/-- With `b² = ∑ xᵢ²` and `s = x_k - b`, the product with `x` itself is `-b`. -/
theorem pivot_dotProduct_self (hb : b * b = tailNorm x k) (hs : s = x k - b) (hs0 : s ≠ 0) :
    pivot x k s ⬝ᵥ x = -b := by
  rw [tailNorm_eq] at hb
  have hrest : ∑ i with k.val < i.val, x i * x i = b * b - x k * x k := by
    rw [hb]
    ring
  rw [pivot_dotProduct, hrest]
  field_simp
  rw [hs]
  ring

/-- With `τ = -s / b`, the reflection along the pivot vector is orthogonal. -/
theorem tau_mul_dotProduct_pivot (hb : b * b = tailNorm x k) (hs : s = x k - b) (hs0 : s ≠ 0)
    (hb0 : b ≠ 0) : -s / b * pivot x k s ⬝ᵥ pivot x k s = 2 := by
  have hpivot : ∀ i : Fin n, k.val < i.val → x i * pivot x k s i = x i * x i / s := by
    intro i hi
    rw [pivot, if_pos hi, mul_div_assoc]
  have hrest : ∑ i with k.val < i.val, x i * pivot x k s i = (b * b - x k * x k) / s := by
    rw [sum_congr rfl fun i hi => hpivot i (mem_filter.mp hi).2, ← sum_div, hb, tailNorm_eq]
    ring
  have hk : pivot x k s k = 1 := by simp [pivot]
  rw [pivot_dotProduct, hrest, hk]
  field_simp
  rw [hs]
  ring

/-- **The reflected vector**: unchanged before the position, `b` there and zero after. -/
theorem pivot_reflect (hb : b * b = tailNorm x k) (hs : s = x k - b) (hs0 : s ≠ 0) (hb0 : b ≠ 0)
    (i : Fin n) : x i - -s / b * (pivot x k s ⬝ᵥ x) * pivot x k s i =
      if i.val < k.val then x i else if i = k then b else 0 := by
  have hcoeff : -s / b * (pivot x k s ⬝ᵥ x) = s := by
    rw [pivot_dotProduct_self hb hs hs0]
    field_simp
  rw [hcoeff]
  rcases lt_trichotomy i.val k.val with hlt | heq | hgt
  · rw [pivot_of_lt hlt, if_pos hlt, mul_zero, sub_zero]
  · obtain rfl : i = k := Fin.ext heq
    simp [pivot, hs]
  · have hne : i ≠ k := fun h => absurd hgt (by simp [h])
    rw [if_neg (by omega), if_neg hne, pivot, if_pos hgt, mul_div_cancel₀ _ hs0, sub_self]

/-! ## Clearing a column or a row -/

variable {m : ℕ} {B : Matrix (Fin n) (Fin m) K} {j : Fin m}

/-- The reflection from the left keeps the rows before the position. -/
theorem reflection_mul_of_lt (τ : K) {x : Fin n → K} {k : ℕ} {s : K} {i : Fin n} (hi : i.val < k) :
    (reflection τ (pivot x k s) * B) i j = B i j := by
  rw [reflection_mul_apply, pivot_of_lt hi, mul_zero, sub_zero]

/-- It keeps the columns that are zero from the position on. -/
theorem reflection_mul_of_zero (τ : K) {x : Fin n → K} {k : ℕ} {s : K}
    (h : ∀ i : Fin n, k ≤ i.val → B i j = 0) (i : Fin n) :
    (reflection τ (pivot x k s) * B) i j = B i j := by
  have hdot : (pivot x k s ⬝ᵥ fun i => B i j) = 0 := pivot_dotProduct_of_zero h
  rw [reflection_mul_apply, hdot, mul_zero, zero_mul, sub_zero]

/-- It clears its own column after the position. -/
theorem reflection_mul_self_column (hb : b * b = tailNorm (fun i => B i j) k) (hs : s = B k j - b)
    (hs0 : s ≠ 0) (hb0 : b ≠ 0) {i : Fin n} (hi : k.val < i.val) :
    (reflection (-s / b) (pivot (fun i => B i j) k s) * B) i j = 0 := by
  have hne : i ≠ k := fun h => absurd hi (by simp [h])
  have hreflect := pivot_reflect hb hs hs0 hb0 i
  rw [if_neg (Nat.not_lt.mpr (Nat.le_of_lt hi)), if_neg hne] at hreflect
  rw [reflection_mul_apply]
  exact hreflect

/-- From the right, the same is done to the transpose. -/
theorem mul_reflection_eq (τ : K) (x : Fin n → K) (k : ℕ) (s : K) (C : Matrix (Fin m) (Fin n) K)
    (i : Fin m) (j : Fin n) : (C * reflection τ (pivot x k s)) i j =
      (reflection τ (pivot x k s) * Cᵀ : Matrix _ _ K) j i := by
  rw [← transpose_apply (C * reflection τ (pivot x k s)), transpose_mul, reflection_transpose]

end Pivot

end Householder
