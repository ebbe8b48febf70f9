import Mathlib
import Hivemind.Lib.Householder

/-!
# Decompositions with orthogonal factors

A matrix is decomposed as `U * D * V`, where `U` has orthonormal columns and `V` is orthogonal.
It stays one when the rows of `D` and the columns of `U` are rotated together, when the columns
of `D` and the rows of `V` are, and when all three are reindexed the same way.

An algorithm that works on the middle factor by rotations of two rows or two columns therefore
has one invariant for all its turns, and none of its choices (which two coordinates, by which
angle, in what order) matters for it.  A rotation is given by its cosine and sine as any two
numbers with `c ^ 2 + s ^ 2 = 1`.

* `Decomposes.mul_left`, `Decomposes.mul_right`: an orthogonal matrix on either side of `D`.
* `Decomposes.reindex`: the same order for all three.
* `Decomposes.unique`: the outer factors determine the one in the middle.
* `givens_mul_apply`, `mul_givens_transpose_apply`: what a rotation does to rows and to columns.
* `isOrthogonal_givens`: rotations of two coordinates are orthogonal; `div_mul_div_add` gives one
  from any pair that is not zero.
-/

namespace Householder

open Matrix Finset

variable {K ι κ : Type*} [CommRing K] [Fintype ι] [DecidableEq ι] [Fintype κ]

/-- `A = U * D * V`, with orthonormal columns on the left and rows on the right. -/
structure Decomposes (A U : Matrix κ ι K) (D V : Matrix ι ι K) : Prop where
  left : OrthonormalColumns U
  right : IsOrthogonal V
  product : U * D * V = A

variable {A U : Matrix κ ι K} {D V G : Matrix ι ι K}

theorem Decomposes.mul_left (h : Decomposes A U D V) (hG : IsOrthogonal G) :
    Decomposes A (U * Gᵀ) (G * D) V where
  left := h.left.mul hG.transpose
  right := h.right
  product := by rw [mul_mul_cancel_middle hG.columns, h.product]

theorem Decomposes.mul_right (h : Decomposes A U D V) (hG : IsOrthogonal G) :
    Decomposes A U (D * Gᵀ) (G * V) where
  left := h.left
  right := hG.mul h.right
  product := by rw [← Matrix.mul_assoc U, mul_mul_cancel_middle hG.columns, h.product]

/-- The outer factors determine the one in the middle. -/
theorem Decomposes.unique {D' : Matrix ι ι K} (h : Decomposes A U D V) (h' : Decomposes A U D' V) :
    D = D' := by
  have hU : Uᵀ * U = 1 := h.left
  have hmiddle : ∀ {E : Matrix ι ι K}, U * E * V = A → Uᵀ * A * Vᵀ = E := by
    rintro E rfl
    calc Uᵀ * (U * E * V) * Vᵀ = Uᵀ * U * E * (V * Vᵀ) := by simp only [Matrix.mul_assoc]
      _ = E := by rw [hU, h.right.rows, Matrix.one_mul, Matrix.mul_one]
  exact (hmiddle h.product).symm.trans (hmiddle h'.product)

/-! ## Rotations -/

/-- The rotation of the coordinates `p` and `q`. -/
def givens (p q : ι) (c s : K) : Matrix ι ι K := fun i j =>
  if i = p then (if j = p then c else 0) - (if j = q then s else 0)
  else if i = q then (if j = p then s else 0) + (if j = q then c else 0)
  else if i = j then 1 else 0

variable {p q : ι} {c s : K}

/-- Two rows are combined, the others stay. -/
theorem givens_mul_apply {μ : Type*} (B : Matrix ι μ K) (i : ι) (j : μ) :
    (givens p q c s * B) i j =
      if i = p then B p j * c - B q j * s
      else if i = q then B p j * s + B q j * c else B i j := by
  by_cases hp : i = p
  · simp [Matrix.mul_apply, givens, hp, sub_mul, sum_sub_distrib]
    ring
  · by_cases hq : i = q
    · subst hq
      simp [Matrix.mul_apply, givens, hp, add_mul, sum_add_distrib]
      ring
    · simp [Matrix.mul_apply, givens, hp, hq]

omit [Fintype κ] in
/-- Two columns are combined, the others stay. -/
theorem mul_givens_transpose_apply (B : Matrix κ ι K) (i : κ) (j : ι) :
    (B * (givens p q c s)ᵀ) i j =
      if j = p then B i p * c - B i q * s
      else if j = q then B i p * s + B i q * c else B i j := by
  have h := givens_mul_apply (p := p) (q := q) (c := c) (s := s) Bᵀ j i
  rw [← transpose_apply (B * (givens p q c s)ᵀ), transpose_mul, transpose_transpose]
  exact h

theorem isOrthogonal_givens (hne : p ≠ q) (hcs : c * c + s * s = 1) :
    IsOrthogonal (givens p q c s) := by
  have hpp : givens p q c s p p = c := by simp [givens, hne]
  have hpq : givens p q c s p q = -s := by simp [givens, hne.symm]
  have hqp : givens p q c s q p = s := by simp [givens, hne, hne.symm]
  have hqq : givens p q c s q q = c := by simp [givens, hne.symm]
  have hrows : givens p q c s * (givens p q c s)ᵀ = 1 := by
    ext i j
    rw [givens_mul_apply, one_apply]
    simp only [transpose_apply]
    by_cases hip : i = p
    · subst hip
      by_cases hjp : j = i
      · subst hjp
        rw [if_pos rfl, if_pos rfl, hpp, hpq]
        linear_combination hcs
      · by_cases hjq : j = q
        · subst hjq
          rw [if_pos rfl, if_neg hne, hqp, hqq]
          ring
        · simp [givens, hjp, hjq, Ne.symm hjp]
    · by_cases hiq : i = q
      · subst hiq
        by_cases hjq : j = i
        · subst hjq
          rw [if_neg hip, if_pos rfl, if_pos rfl, hqp, hqq]
          linear_combination hcs
        · by_cases hjp : j = p
          · subst hjp
            rw [if_neg hip, if_pos rfl, if_neg hip, hpp, hpq]
            ring
          · simp [givens, hip, hjp, hjq, Ne.symm hjq]
      · by_cases hjp : j = p
        · simp [givens, hip, hiq, hjp]
        · by_cases hjq : j = q
          · simp [givens, hip, hiq, hjq, hne.symm]
          · simp [givens, hip, hiq, hjp, hjq, eq_comm]
  exact ⟨mul_eq_one_comm.mp hrows, hrows⟩

/-- A pair that is not zero, divided by its length, is a rotation. -/
theorem div_mul_div_add {K : Type*} [Field K] {α β γ : K} (hγ : γ * γ = α * α + β * β)
    (h0 : γ ≠ 0) : α / γ * (α / γ) + β / γ * (β / γ) = 1 := by
  field_simp
  linear_combination -hγ

/-! ## Reindexing -/

/-- The rows of an orthogonal matrix may be reordered. -/
theorem IsOrthogonal.submatrix {V : Matrix ι ι K} (h : IsOrthogonal V) (σ : Equiv.Perm ι) :
    IsOrthogonal (V.submatrix σ id) := by
  have hrows : V.submatrix σ id * (V.submatrix σ id)ᵀ = (V * Vᵀ).submatrix σ σ := by
    rw [transpose_submatrix, ← submatrix_mul _ _ σ id σ Function.bijective_id]
  have hone : V.submatrix σ id * (V.submatrix σ id)ᵀ = 1 := by
    rw [hrows, h.rows, submatrix_one_equiv]
  exact ⟨mul_eq_one_comm.mp hone, hone⟩

/-- The rows of an orthogonal matrix are independent. -/
theorem IsOrthogonal.eq_zero_of_vecMul {V : Matrix ι ι K} (h : IsOrthogonal V) {w : ι → K}
    (hw : w ᵥ* V = 0) : w = 0 := by
  calc w = w ᵥ* (V * Vᵀ) := by rw [h.rows, vecMul_one]
    _ = 0 := by rw [← vecMul_vecMul, hw, zero_vecMul]

/-- Reindexing all three factors keeps the decomposition. -/
theorem Decomposes.reindex (h : Decomposes A U D V) (σ : Equiv.Perm ι) :
    Decomposes A (U.submatrix id σ) (D.submatrix σ σ) (V.submatrix σ id) where
  left := by
    have hcolumns : (U.submatrix id σ)ᵀ * U.submatrix id σ = (Uᵀ * U).submatrix σ σ := by
      rw [transpose_submatrix, ← submatrix_mul _ _ σ id σ Function.bijective_id]
    have hone : Uᵀ * U = 1 := h.left
    rw [OrthonormalColumns, hcolumns, hone, submatrix_one_equiv]
  right := h.right.submatrix σ
  product := by
    rw [submatrix_mul_equiv, submatrix_mul_equiv, h.product, submatrix_id_id]

end Householder
